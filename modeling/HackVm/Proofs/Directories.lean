/-
Programs in directories.

* **`loadUnits_of_directory`** — the units that are loaded from a directory are those in the source
  files in it and below it, each once and in the order of their names. Only files below a directory
  whose path is too long to be walked are missing (`deep_file_missing`). There is no program without
  a source file, and no run depends on the order in which directories list their entries.
-/
import HackVm.Proofs.Runs

namespace HackVm

/-- What is loaded from a directory is one unit for each source file in it and below it whose
directory can be walked to, in the order of their names, step by step, and it is what the file reads
as under the name of its unit. Without any source file loading fails. On a disk that has the same
files and directories in another order, the same is loaded, and every run does the same. -/
theorem loadUnits_of_directory {disk : Disk} (htree : disk.root.IsTree) {input : Path} {dir : Node}
    (hdir : disk.dir? input = some dir) (strict : Bool) :
    (∀ us, (loadUnits disk strict input).value = .ok us →
      ∃ ways : List (List String), ways.Pairwise (· < ·) ∧
        (∀ names, names ∈ ways ↔
          dir.IsSourceFile names ∧ (names.dropLast.foldl Path.join input).isWalkable) ∧
        List.Forall₂ (IsUnitOf input dir strict) ways us) ∧
      ((∀ names, ¬ dir.IsSourceFile names) →
        ∃ e, (loadUnits disk strict input).value = .error e) ∧
      ∀ other : Disk, other.root.IsTree → disk.SameEntries other →
        loadUnits disk strict input = loadUnits other strict input ∧
          ∀ args : Args, (args.run disk).Same (args.run other) := by
  refine ⟨?_, ?_, ?_⟩
  · intro us h
    obtain ⟨ways, -, hways⟩ := loaded_of_directory htree hdir h
    exact ⟨ways, hways⟩
  · intro hnone
    cases h : (loadUnits disk strict input).value with
    | error e => exact ⟨e, rfl⟩
    | ok us =>
      obtain ⟨ways, hne, -, hmem, -⟩ := loaded_of_directory htree hdir h
      obtain ⟨names, hnames⟩ := List.exists_mem_of_ne_nil ways hne
      exact absurd ((hmem names).mp hnames).1 (hnone names)
  · intro other htree' hsame
    exact ⟨loadUnits_of_sameEntries hsame htree htree' strict input,
      fun args => run_of_sameEntries hsame htree htree' args⟩

/-- A file, a directory with one that is hidden and one that is not, and a hidden directory. -/
def mixedEntries : List (String × Node) :=
  [("a.vm", .file [110, 111, 116]),
    ("a", .dir [(".c.vm", .file [97]), ("b.vm", .file [110, 101, 103])]),
    (".d", .dir [("e.vm", .file [97])])]

/-- The same entries, and the same in the directory, in another order. -/
def remixedEntries : List (String × Node) :=
  [(".d", .dir [("e.vm", .file [97])]),
    ("a", .dir [("b.vm", .file [110, 101, 103]), (".c.vm", .file [97])]),
    ("a.vm", .file [110, 111, 116])]

theorem mixedEntries_same : (Node.dir mixedEntries).SameEntries (.dir remixedEntries) := by
  have hbelow : (Node.dir mixedEntries).SameEntries (.dir remixedEntries.reverse) := by
    have hswap := sameEntries_of_perm (List.Perm.swap (".c.vm", Node.file [97])
      ("b.vm", .file [110, 101, 103]) []) (by decide)
    exact sameEntries_of_forall₂
      (.cons ⟨rfl, fun _ => rfl⟩ (.cons ⟨rfl, fun names => (hswap names).symm⟩
        (.cons ⟨rfl, fun _ => rfl⟩ .nil)))
  have horder : (Node.dir remixedEntries.reverse).SameEntries (.dir remixedEntries) :=
    sameEntries_of_perm (List.reverse_perm _) (by decide)
  exact fun names => (hbelow names).trans (horder names)

theorem loadUnits_of_directory_remixed :
    let disk : Disk := ⟨.dir mixedEntries, []⟩
    let other : Disk := ⟨.dir remixedEntries, []⟩
    let us : List SourceUnit := [⟨"a:b", [⟨1, .unary .neg⟩]⟩, ⟨"a", [⟨1, .unary .not⟩]⟩]
    disk.root.IsTree ∧ other.root.IsTree ∧ disk.SameEntries other ∧
      (loadUnits disk false ⟨"."⟩).value = .ok us ∧
      (∃ ways : List (List String), ways.Pairwise (· < ·) ∧
        List.Forall₂ (IsUnitOf ⟨"."⟩ (.dir mixedEntries) false) ways us) ∧
      (loadUnits other false ⟨"."⟩).value = .ok us ∧
      ∃ e, (loadUnits ⟨.dir [], []⟩ false ⟨"."⟩).value = .error e := by
  intro disk other us
  have htree : disk.root.IsTree := by
    simp only [disk, mixedEntries, Node.IsTree, AreEntries]
    decide
  have htree' : other.root.IsTree := by
    simp only [other, remixedEntries, Node.IsTree, AreEntries]
    decide
  have hsame : disk.SameEntries other := ⟨rfl, mixedEntries_same⟩
  have hdir : disk.dir? ⟨"."⟩ = some (.dir mixedEntries) := rfl
  have hsources : (Node.dir mixedEntries).sources ⟨"."⟩ = [["a.vm"], ["a", "b.vm"]] := by
    decide +kernel
  have horder : inOrder ["a.vm"] ["a", "b.vm"] = false := by
    decide +kernel
  have hsorted : [["a.vm"], ["a", "b.vm"]].mergeSort inOrder = [["a", "b.vm"], ["a.vm"]] := by
    simp [List.mergeSort, List.MergeSort.Internal.splitInTwo, horder]
  have hfiles : sourceFiles ⟨"."⟩ (.dir mixedEntries) = [⟨"./a/b.vm"⟩, ⟨"./a.vm"⟩] := by
    rw [sourceFiles, hsources, hsorted]
    decide +kernel
  have hread : (loadSources disk false ⟨"."⟩ [⟨"./a/b.vm"⟩, ⟨"./a.vm"⟩]).value = .ok us := by
    decide +kernel
  have hload : (loadUnits disk false ⟨"."⟩).value = .ok us := by
    simp only [loadUnits, hdir, hfiles]
    exact hread
  obtain ⟨hloaded, -, hsameLoaded⟩ := loadUnits_of_directory htree hdir false
  obtain ⟨ways, hways, -, hunits⟩ := hloaded us hload
  have hempty : (Node.dir []).IsTree := trivial
  have hnone : ∀ names, ¬ (Node.dir []).IsSourceFile names := by
    rintro (_ | ⟨name, rest⟩) ⟨⟨content, hcontent⟩, -, -⟩ <;> cases hcontent
  have hfails := (@loadUnits_of_directory ⟨.dir [], []⟩ hempty ⟨"."⟩ _ rfl false).2.1 hnone
  exact ⟨htree, htree', hsame, hload, ⟨ways, hways, hunits⟩,
    (hsameLoaded other htree' hsame).1 ▸ hload, hfails⟩

/-! ### Files below long paths -/

/-- The current directory, with slashes behind. -/
def slashed : Nat → String
  | 0 => "."
  | n + 1 => slashed n ++ "/"

theorem slashed_spec (n : Nat) :
    (slashed n).utf8ByteSize = n + 1 ∧ '\x00' ∉ (slashed n).toList ∧
      (slashed n).toList.head? = some '.' ∧
      ∀ piece ∈ (Path.mk (slashed n)).pieces, isIdle piece := by
  induction n with
  | zero => decide
  | succ n ih =>
    obtain ⟨hsize, hnul, hhead, hidle⟩ := ih
    have hpieces : (Path.mk (slashed (n + 1))).pieces = (Path.mk (slashed n)).pieces ++ [""] := by
      have hslash := pieces_append_slash (slashed n) ""
      rwa [String.append_empty, pieces_of_not_mem (by decide : '/' ∉ "".toList)] at hslash
    refine ⟨?_, ?_, ?_, ?_⟩
    · rw [slashed, String.utf8ByteSize_append, hsize]
      rfl
    · rw [slashed, String.toList_append, List.mem_append, not_or]
      exact ⟨hnul, by decide⟩
    · rw [slashed, String.toList_append, List.head?_append, hhead]
      rfl
    · rw [hpieces]
      intro piece hpiece
      rcases List.mem_append.mp hpiece with hpiece | hpiece
      · exact hidle piece hpiece
      · rw [List.mem_singleton.mp hpiece]
        rfl

theorem join_slashed (n : Nat) (name : String) :
    (Path.mk (slashed (n + 1))).join name = ⟨slashed (n + 1) ++ name⟩ := by
  rw [Path.join, if_pos]
  simp [slashed]

theorem isWalkable_slashed_iff (n : Nat) {rest : String} (hrest : '\x00' ∉ rest.toList) :
    (Path.mk (slashed n ++ rest)).isWalkable ↔ n + 1 + rest.utf8ByteSize < pathLimit := by
  obtain ⟨hsize, hnul, hhead, -⟩ := slashed_spec n
  have hempty : slashed n ++ rest ≠ "" := by
    intro heq
    rw [(String.append_eq_empty_iff.mp heq).1] at hhead
    cases hhead
  rw [isWalkable_iff, check_eq_ok_iff, String.utf8ByteSize_append, hsize]
  simp [hnul, hrest, hempty]

theorem walk_slashed {disk : Disk} (h : disk.root.entryAt disk.current = some .dir) (n : Nat) :
    disk.walk ⟨slashed n⟩ = .ok disk.current := by
  obtain ⟨-, -, hhead, hidle⟩ := slashed_spec n
  have hstart : disk.start ⟨slashed n⟩ = disk.current := by
    rw [Disk.start, hhead, if_neg (by decide)]
  have hstay : ∀ pieces : List String, (∀ piece ∈ pieces, isIdle piece) →
      pieces.foldlM disk.step disk.current = .ok disk.current := by
    intro pieces hpieces
    induction pieces with
    | nil => rfl
    | cons piece rest ih =>
      obtain ⟨hpiece, hrest⟩ := List.forall_mem_cons.mp hpieces
      rw [List.foldlM_cons]
      exact bind_eq_ok_iff.mpr ⟨_, step_eq_ok_iff.mpr ⟨h, .inl ⟨hpiece, rfl⟩⟩, ih hrest⟩
  rw [Disk.walk, hstart]
  exact hstay _ hidle

/-- Two files, each in a directory of its own. -/
def longEntries : List (String × Node) :=
  [("longer-name", .dir [("c.vm", .file [110, 111, 116])]),
    ("s", .dir [("b.vm", .file [110, 101, 103])])]

/-- A disk with the two files below the current directory. -/
def longDisk : Disk :=
  ⟨.dir [("prog", .dir longEntries)], ["prog"]⟩

section

variable {n : Nat} (hshort : n + 8 < pathLimit) (hlong : pathLimit ≤ n + 13)

include hshort

theorem dir?_slashed : longDisk.dir? ⟨slashed (n + 1)⟩ = some (.dir longEntries) := by
  have hpath := (isWalkable_slashed_iff (n + 1) (by decide : '\x00' ∉ "".toList)).mpr
    (show n + 1 + 1 + 0 < pathLimit by omega)
  rw [String.append_empty] at hpath
  exact dir?_eq_some_iff.mpr ⟨["prog"], longEntries,
    locate_eq_ok_iff.mpr ⟨isWalkable_iff.mp hpath, walk_slashed rfl _⟩, rfl, rfl⟩

theorem read_slashed :
    longDisk.read (["s", "b.vm"].foldl Path.join ⟨slashed (n + 1)⟩) = .ok [110, 101, 103] := by
  have hfile : ["s", "b.vm"].foldl Path.join ⟨slashed (n + 1)⟩ = ⟨slashed (n + 1) ++ "s/b.vm"⟩ := by
    rw [List.foldl_cons, List.foldl_cons, List.foldl_nil, join_slashed, Path.join, if_neg (by simp)]
    simp [String.append_assoc]
  have hpath : (["s", "b.vm"].foldl Path.join ⟨slashed (n + 1)⟩).isWalkable := by
    rw [hfile, isWalkable_slashed_iff _ (by decide)]
    exact (show n + 1 + 1 + 6 < pathLimit by omega)
  have hempty : slashed (n + 1) ≠ "" := by
    simp [slashed]
  have hsteps := @walk_foldl_join longDisk ⟨slashed (n + 1)⟩ hempty ["s", "b.vm"] (by decide)
  rw [walk_slashed rfl] at hsteps
  exact read_eq_ok_iff.mpr
    ⟨["prog", "s", "b.vm"], locate_eq_ok_iff.mpr ⟨isWalkable_iff.mp hpath, hsteps⟩, rfl⟩

include hlong

/-- The directory with the longer name is taken for a file that is no source. -/
theorem sources_slashed :
    (Node.dir longEntries).sources ⟨slashed (n + 1)⟩ = [["s", "b.vm"]] := by
  have hlonger : ((Path.mk (slashed (n + 1))).join "longer-name").isWalkable = false := by
    rw [join_slashed, Bool.eq_false_iff, ne_eq, isWalkable_slashed_iff _ (by decide)]
    exact Nat.not_lt_of_le (show pathLimit ≤ n + 1 + 1 + 11 by omega)
  have hs : ((Path.mk (slashed (n + 1))).join "s").isWalkable := by
    rw [join_slashed, isWalkable_slashed_iff _ (by decide)]
    exact (show n + 1 + 1 + 1 < pathLimit by omega)
  have hnames : isHidden "longer-name" = false ∧ isSource "longer-name" = false ∧
      isHidden "s" = false ∧ isHidden "b.vm" = false ∧ isSource "b.vm" := by
    decide
  simp [longEntries, Node.sources, sourcesAmong, Node.isDir, hlonger, hs, hnames]

theorem loadUnits_slashed :
    (loadUnits longDisk false ⟨slashed (n + 1)⟩).value = .ok [⟨"s:b", [⟨1, .unary .neg⟩]⟩] := by
  have hname : unitName ⟨slashed (n + 1)⟩ (["s", "b.vm"].foldl Path.join ⟨slashed (n + 1)⟩) =
      "s:b" := by
    have hsteps := @unitSteps_foldl_join ⟨slashed (n + 1)⟩ ["s"] "b" (by decide) (by decide)
      (by decide) (by decide)
    have hfile : ["s"] ++ ["b" ++ "." ++ sourceExtension] = ["s", "b.vm"] := by
      decide
    rw [hfile] at hsteps
    rw [← String.toList_inj, toList_unitName, hsteps]
    decide
  have hfiles : sourceFiles ⟨slashed (n + 1)⟩ (.dir longEntries) =
      [["s", "b.vm"].foldl Path.join ⟨slashed (n + 1)⟩] := by
    rw [sourceFiles, sources_slashed hshort hlong, List.mergeSort_singleton, List.map_singleton]
  have hload : (loadSource longDisk false ⟨slashed (n + 1)⟩
      (["s", "b.vm"].foldl Path.join ⟨slashed (n + 1)⟩)).value =
      .ok ⟨"s:b", [⟨1, .unary .neg⟩]⟩ := by
    refine loadSource_eq_ok_iff.mpr ⟨_, "neg", read_slashed hshort, by decide +kernel, ?_⟩
    rw [hname]
    decide +kernel
  simp only [loadUnits, dir?_slashed hshort, hfiles]
  exact loadSources_eq_ok_iff.mpr (.cons hload .nil)

end

/-- A path to the directory that is so long that of the two directories in it only the one with the
shorter name can be walked to. Loading succeeds without the file in the other. -/
theorem deep_file_missing :
    longDisk.root.IsTree ∧ longDisk.dir? ⟨slashed 4088⟩ = some (.dir longEntries) ∧
      (Node.dir longEntries).IsSourceFile ["longer-name", "c.vm"] ∧
      (loadUnits longDisk false ⟨slashed 4088⟩).value = .ok [⟨"s:b", [⟨1, .unary .neg⟩]⟩] := by
  have htree : longDisk.root.IsTree := by
    simp only [longDisk, longEntries, Node.IsTree, AreEntries]
    decide
  have hsource : (Node.dir longEntries).IsSourceFile ["longer-name", "c.vm"] :=
    ⟨⟨_, rfl⟩, by decide, "c.vm", rfl, by decide⟩
  exact ⟨htree, @dir?_slashed 4087 (by decide), hsource,
    @loadUnits_slashed 4087 (by decide) (by decide)⟩

end HackVm
