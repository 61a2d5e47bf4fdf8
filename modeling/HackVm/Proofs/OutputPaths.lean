/-
Where the assembly of a directory is written.

A path with a name at its end is a text that is empty or ends in a slash, and the name
(`exists_before_join`), so the name at the end of the path is this one, however the path before it is
spelled. The assembly is written to the path of the directory with the directory's own name at its
end, where another extension takes the place of what stands behind the last dot of the name
(`withExtension_join`).

* **`outputPath_of_directory`** — the assembly has the name of the directory with the extension
  behind it if and only if the name has no dot behind its first character. Otherwise what stands
  behind the last dot is lost.
-/
import HackVm.CommandLine.Run
import HackVm.Proofs.Extensions
import HackVm.Proofs.SourceTree

namespace HackVm

/-! ### Names of directories -/

theorem isPlain_of_mem {entries : List (String × Node)} (h : AreEntries entries)
    {entry : String × Node} (hmem : entry ∈ entries) : IsPlain entry.1 := by
  induction entries with
  | nil => cases hmem
  | cons first rest ih =>
    obtain ⟨hplain, -, -, hrest⟩ := h
    rcases List.mem_cons.mp hmem with rfl | hmem
    · exact hplain
    · exact ih hrest hmem

/-- The last of the names that lead to something in a tree is plain. -/
theorem isPlain_of_get? {node found : Node} (h : node.IsTree) {front : List String} {name : String}
    (hfound : node.get? (front ++ [name]) = some found) : IsPlain name := by
  rw [get?_append] at hfound
  obtain ⟨above, habove, hlast⟩ := Option.bind_eq_some_iff.mp hfound
  cases above with
  | file content => cases hlast
  | dir entries =>
    rw [get?_cons] at hlast
    obtain ⟨next, hnext, -⟩ := Option.bind_eq_some_iff.mp hlast
    obtain ⟨before, after, hentries, -⟩ := List.lookup_eq_some_iff.mp hnext
    have hmem : (name, next) ∈ entries := by simp [hentries]
    exact isPlain_of_mem (isTree_of_get? h habove) hmem

/-! ### Names at the ends of paths -/

theorem join_pieces (text : String) :
    String.join ((Path.mk text).pieces.map (· ++ "/")) = text ++ "/" := by
  have hpieces := intercalate_pieces ⟨text ++ "/" ++ ""⟩
  rw [pieces_append_slash, pieces_of_not_mem (by decide : '/' ∉ "".toList), intercalate_concat,
    String.append_empty, String.append_empty] at hpieces
  exact hpieces

/-- What stands before a name at the end of a path does not depend on the name. A plain name is the
file name of the path then, and with two dots the path has none. -/
theorem exists_before_join (p : Path) :
    ∃ before : String, (∀ name, p.join name = ⟨before ++ name⟩) ∧
      (∀ name, IsPlain name → (p.join name).fileName? = some (before, name)) ∧
      (p.join "..").fileName? = none := by
  obtain ⟨dirs, hdirs, hjoin⟩ : ∃ dirs : List String, (∀ dir ∈ dirs, '/' ∉ dir.toList) ∧
      ∀ name, p.join name = ⟨String.join (dirs.map (· ++ "/")) ++ name⟩ := by
    by_cases hempty : p.text = ""
    · refine ⟨[], by simp, ?_⟩
      intro name
      simp [Path.join, hempty]
    · by_cases hslash : p.text.toList.getLast? = some '/'
      · obtain ⟨front, hfront⟩ := List.getLast?_eq_some_iff.mp hslash
        have htext : p.text = String.ofList front ++ "/" := by
          rw [← String.toList_inj, hfront]
          simp
        refine ⟨(Path.mk (String.ofList front)).pieces, fun dir => not_mem_of_mem_pieces, ?_⟩
        intro name
        rw [join_pieces, ← htext]
        simp [Path.join, hslash]
      · refine ⟨p.pieces, fun dir => not_mem_of_mem_pieces, ?_⟩
        intro name
        rw [join_pieces]
        simp [Path.join, hempty, hslash]
  refine ⟨_, hjoin, ?_, ?_⟩
  · intro name hname
    have hfile := fileName?_of_tail hdirs hname (.inl rfl)
    rwa [String.append_empty, ← hjoin] at hfile
  · rw [hjoin]
    exact fileName?_of_up hdirs

theorem join_inj {p : Path} {name other : String} : p.join name = p.join other ↔ name = other := by
  obtain ⟨before, hjoin, -⟩ := exists_before_join p
  rw [hjoin, hjoin, Path.mk.injEq, String.append_right_inj]

/-! ### Extensions -/

/-- A name has a dot behind its first character if and only if it has an extension. -/
theorem dot_mem_tail_iff {name : String} :
    '.' ∈ name.toList.tail ↔
      ∃ stem old, stem ≠ "" ∧ '.' ∉ old.toList ∧ name = stem ++ "." ++ old := by
  constructor
  · intro hmem
    obtain ⟨c, rest, hname⟩ : ∃ c rest, name.toList = c :: rest :=
      List.exists_cons_of_ne_nil fun hnil => by simp [hnil] at hmem
    rw [hname, List.tail_cons, ← List.mem_reverse] at hmem
    -- the last dot is the first from the end
    obtain ⟨behind, before, hrest, hnot⟩ := List.eq_append_cons_of_mem hmem
    have hrest := congrArg List.reverse hrest
    rw [List.reverse_reverse] at hrest
    refine ⟨String.ofList (c :: before.reverse), String.ofList behind.reverse, ?_, ?_, ?_⟩
    · intro hempty
      simpa using congrArg String.toList hempty
    · simpa using hnot
    · rw [← String.toList_inj, hname, hrest]
      simp
  · rintro ⟨stem, old, hne, -, rfl⟩
    obtain ⟨c, chars, hstem⟩ : ∃ c chars, stem.toList = c :: chars :=
      List.exists_cons_of_ne_nil fun hempty => hne (String.toList_inj.mp hempty)
    simp [hstem]

theorem extension_of_dot_not_mem {name : String} (h : '.' ∉ name.toList.tail) :
    (splitExtension name).2 = none := by
  cases hsplit : (splitExtension name).2 with
  | none => rfl
  | some old =>
    obtain ⟨stem, hstem⟩ := eq_of_splitExtension hsplit
    exact absurd (dot_mem_tail_iff.mpr ⟨stem, old, hstem⟩) h

section

variable {p : Path} {before name stem old new : String}

theorem setExtension_eq (h : p.fileName? = some (before, name)) (hnew : new ≠ "") :
    p.setExtension new = ⟨before ++ ((splitExtension name).1 ++ "." ++ new)⟩ := by
  simp only [Path.setExtension, h, if_neg hnew, String.append_assoc]

theorem setExtension_of_up (h : p.fileName? = none) : p.setExtension new = p := by
  simp only [Path.setExtension, h]

theorem extension?_eq (h : p.fileName? = some (before, name)) :
    p.extension? = (splitExtension name).2 := by
  rw [Path.extension?, h, Option.bind_some]

/-- A name without an extension gets the new one. -/
theorem withExtension_join_plain (hname : IsPlain name) (hdot : '.' ∉ name.toList.tail)
    (hnew : new ≠ "") : (p.join name).withExtension new = p.join (name ++ "." ++ new) := by
  obtain ⟨before, hjoin, hfile, -⟩ := exists_before_join p
  have hnone := extension_of_dot_not_mem hdot
  have hextension := (extension?_eq (hfile name hname)).trans hnone
  simp only [Path.withExtension, hextension]
  rw [setExtension_eq (hfile name hname) hnew, splitExtension_of_none hnone, hjoin]

/-- An extension is cut off, and the new one set. If a dot is all that is left of the name, the dot
of the extension makes it two dots: then the path does not end in a name, and stays so. -/
theorem withExtension_join (hname : IsPlain (stem ++ "." ++ old)) (hne : stem ≠ "")
    (hold : '.' ∉ old.toList) (hnew : new ≠ "") :
    (p.join (stem ++ "." ++ old)).withExtension new =
      p.join (if stem = "." then ".." else stem ++ "." ++ new) := by
  obtain ⟨before, hjoin, hfile, hup⟩ := exists_before_join p
  have hextension : (p.join (stem ++ "." ++ old)).extension? = some old :=
    (extension?_eq (hfile _ hname)).trans (congrArg Prod.snd (splitExtension_append hne hold))
  have hcut : (p.join (stem ++ "." ++ old)).withExtension new =
      (p.join (stem ++ ".")).setExtension new := by
    have htext : (p.join (stem ++ "." ++ old)).text = before ++ (stem ++ ".") ++ (old ++ "") := by
      rw [hjoin, String.append_empty]
      simp only [String.append_assoc]
    simp only [Path.withExtension, hextension, htext, take_append_tail]
    simp [hjoin]
  rw [hcut]
  by_cases hstem : stem = "."
  · subst hstem
    exact setExtension_of_up hup
  · have hplain : IsPlain (stem ++ "." ++ "") :=
      isPlain_front hne hname List.nil_prefix fun h => hstem h.1
    have hsplit := @splitExtension_append stem "" hne (by simp)
    rw [String.append_empty] at hplain hsplit
    rw [if_neg hstem, setExtension_eq (hfile _ hplain) hnew, hsplit, hjoin]

end

/-! ### Directories -/

section

variable {disk : Disk} {args : Args} {front : List String} {name : String}

theorem outputPath_eq (houtput : args.output = none)
    (hplace : disk.locate args.input = .ok (front ++ [name]))
    (hdir : disk.root.entryAt (front ++ [name]) = some .dir) :
    args.outputPath disk = (args.input.join name).withExtension "asm" := by
  have hinput : (disk.dir? args.input).isSome := isSome_dir?_iff.mpr ⟨_, hplace, hdir⟩
  simp only [Args.outputPath, houtput, if_pos hinput, hplace, List.getLast?_concat,
    Option.getD_some]

/-- The assembly of a directory has the name of the directory, with the extension behind it, if and
only if the name has no dot behind its first character. What stands behind the last dot of another
name is lost. If a dot is all that is left, the path is that of the directory above. -/
theorem outputPath_of_directory (hdisk : disk.root.IsTree) (houtput : args.output = none)
    (hplace : disk.locate args.input = .ok (front ++ [name]))
    (hdir : disk.root.entryAt (front ++ [name]) = some .dir) :
    (args.outputPath disk = args.input.join (name ++ ".asm") ↔ '.' ∉ name.toList.tail) ∧
      ∀ stem old, stem ≠ "" → '.' ∉ old.toList → name = stem ++ "." ++ old →
        args.outputPath disk = args.input.join (if stem = "." then ".." else stem ++ ".asm") := by
  have hplain : IsPlain name := by
    obtain ⟨entries, hget⟩ := entryAt_eq_dir_iff.mp hdir
    exact isPlain_of_get? hdisk hget
  have hnew : "asm" ≠ "" := by decide
  have hasm : ∀ stem : String, stem ++ "." ++ "asm" = stem ++ ".asm" :=
    fun stem => String.append_assoc
  rw [outputPath_eq houtput hplace hdir]
  have hlost : ∀ stem old, stem ≠ "" → '.' ∉ old.toList → name = stem ++ "." ++ old →
      (args.input.join name).withExtension "asm" =
        args.input.join (if stem = "." then ".." else stem ++ ".asm") := by
    rintro stem old hne hold rfl
    rw [withExtension_join hplain hne hold hnew, hasm]
  refine ⟨⟨?_, ?_⟩, hlost⟩
  · intro heq hdot
    obtain ⟨stem, old, hne, hold, hname⟩ := dot_mem_tail_iff.mp hdot
    rw [hlost stem old hne hold hname, join_inj, hname] at heq
    -- what is kept is shorter than the name with the extension
    have hlength := congrArg String.length heq
    split at hlength
    · have hdots : "..".length = 2 := rfl
      have hadded : ".asm".length = 4 := rfl
      simp only [String.length_append] at hlength
      omega
    · have hone : ".".length = 1 := rfl
      simp only [String.length_append] at hlength
      omega
  · intro hdot
    rw [withExtension_join_plain hplain hdot hnew, hasm]

end

/-- Three directories with a source file each. -/
def namedDirectories : Disk :=
  { root := .dir [("prog", .dir [("Main.vm", .file [110, 111, 116])]),
      ("my.prog", .dir [("Main.vm", .file [110, 111, 116])]),
      ("..d", .dir [("Main.vm", .file [110, 111, 116])])]
    current := [] }

/-- One directory is spelled in a roundabout way. The names of the others lose what stands behind
their last dots. -/
theorem outputPath_of_directory_spelled :
    namedDirectories.root.IsTree ∧
      namedDirectories.locate ⟨"./my.prog/..//prog/"⟩ = .ok ["prog"] ∧
      (Args.outputPath { input := ⟨"./my.prog/..//prog/"⟩ } namedDirectories).text =
        "./my.prog/..//prog/prog.asm" ∧
      (Args.outputPath { input := ⟨"my.prog"⟩ } namedDirectories).text = "my.prog/my.asm" ∧
      (Args.outputPath { input := ⟨"..d"⟩ } namedDirectories).text = "..d/.." := by
  have htree : namedDirectories.root.IsTree := by
    simp only [namedDirectories, Node.IsTree, AreEntries]
    decide
  have hspelled : namedDirectories.locate ⟨"./my.prog/..//prog/"⟩ = .ok ["prog"] := by
    decide +kernel
  have hdotted : namedDirectories.locate ⟨"my.prog"⟩ = .ok ["my.prog"] := by
    decide +kernel
  have hdots : namedDirectories.locate ⟨"..d"⟩ = .ok ["..d"] := by
    decide +kernel
  have hplain := (@outputPath_of_directory _ { input := ⟨"./my.prog/..//prog/"⟩ } [] "prog" htree
    rfl hspelled (by decide)).1.mpr (by decide)
  have hmy := (@outputPath_of_directory _ { input := ⟨"my.prog"⟩ } [] "my.prog" htree
    rfl hdotted (by decide)).2 "my" "prog" (by decide) (by decide) (by decide)
  have hup := (@outputPath_of_directory _ { input := ⟨"..d"⟩ } [] "..d" htree
    rfl hdots (by decide)).2 "." "d" (by decide) (by decide) (by decide)
  rw [hplain, hmy, hup]
  exact ⟨htree, hspelled, by decide, by decide, by decide⟩

/-- The assembly of the directory `my.prog` is not written under its name, but as `my.asm`. -/
theorem dotted_directory_loses_extension :
    (namedDirectories.dir? ⟨"my.prog"⟩).isSome ∧
      namedDirectories.locate ⟨"my.prog"⟩ = .ok ["my.prog"] ∧
      Args.outputPath { input := ⟨"my.prog"⟩ } namedDirectories ≠
        (Path.mk "my.prog").join ("my.prog" ++ ".asm") := by
  refine ⟨rfl, ?_, ?_⟩ <;> decide +kernel

end HackVm
