/-
Paths without their extensions.

Behind the name at the end of a path stand only slashes and pieces that mean nothing
(`exists_of_fileName?`). To take the extension off, as many characters as it has are cut off the end
of the path before what is left of it is set to nothing. So the path ends in its stem then, whatever
stands behind the name, with one exception: if a dot is all that is left of the name, the dot of the
extension makes it two dots, which is the directory above (`withExtension_nil_eq`).

* **`unitName_loses_extension`** — the name of a unit is a symbol, and the steps of the path without
  its extension are read off it unless the path is such an exception.
-/
import HackVm.Proofs.Paths
import HackVm.Proofs.UnitNames

namespace HackVm

/-! ### File names -/

theorem not_mem_of_mem_pieces {p : Path} {piece : String} (h : piece ∈ p.pieces) :
    '/' ∉ piece.toList := by
  obtain ⟨chars, hchars, rfl⟩ := List.mem_map.mp h
  rw [String.toList_ofList]
  exact not_mem_of_mem_splitOn hchars

theorem intercalate_pieces (p : Path) : "/".intercalate p.pieces = p.text :=
  intercalate_splitOn rfl p.text

theorem isIdle_iff {piece : String} : isIdle piece ↔ piece.toList = [] ∨ piece.toList = ['.'] := by
  rw [isIdle, Bool.or_eq_true, decide_eq_true_eq, decide_eq_true_eq, ← String.toList_inj,
    ← String.toList_inj]
  rfl

/-- Text behind a name that does not matter: slashes, and pieces that mean nothing. -/
def IsIdleTail (tail : String) : Prop :=
  tail = "" ∨ ∃ rest, tail = "/" ++ rest ∧ ∀ piece ∈ (Path.mk rest).pieces, isIdle piece

/-- The front of text that does not matter does not matter. -/
theorem isIdleTail_front {tail front : String} (h : IsIdleTail tail)
    (hfront : front.toList <+: tail.toList) : IsIdleTail front := by
  rcases h with rfl | ⟨rest, rfl, hrest⟩
  · exact .inl (String.toList_inj.mp (List.prefix_nil.mp hfront))
  · rcases hchars : front.toList with _ | ⟨c, chars⟩
    · exact .inl (String.toList_inj.mp hchars)
    · have hcut : c :: chars <+: '/' :: rest.toList := by
        rw [← hchars]
        simpa using hfront
      obtain ⟨rfl, behind, hbehind⟩ := List.cons_prefix_cons.mp hcut
      refine .inr ⟨String.ofList chars, ?_, ?_⟩
      · rw [← String.toList_inj, hchars]
        simp
      · obtain ⟨init, last, first, more, hinit, -, happend⟩ :=
          exists_splitOn_append '/' chars behind
        rw [hbehind] at happend
        have hpieces : (Path.mk rest).pieces =
            init.map String.ofList ++ String.ofList (last ++ first) :: more.map String.ofList := by
          rw [Path.pieces, happend, List.map_append, List.map_cons]
        rw [hpieces] at hrest
        intro piece hpiece
        rw [Path.pieces, String.toList_ofList, hinit, List.map_append, List.map_singleton] at hpiece
        rcases List.mem_append.mp hpiece with hpiece | hpiece
        · exact hrest piece (List.mem_append_left _ hpiece)
        · -- the last piece is the front of one that is empty or a dot
          rw [List.mem_singleton] at hpiece
          have hidle := isIdle_iff.mp (hrest (String.ofList (last ++ first)) (by simp))
          rw [String.toList_ofList] at hidle
          rw [hpiece, isIdle_iff, String.toList_ofList]
          rcases hidle with hidle | hidle
          · exact .inl (List.append_eq_nil_iff.mp hidle).1
          · rcases List.append_eq_singleton_iff.mp hidle with ⟨hlast, -⟩ | ⟨hlast, -⟩
            · exact .inl hlast
            · exact .inr hlast

/-- Behind the name of a path nothing matters. -/
theorem exists_of_fileName? {p : Path} {before name : String}
    (h : p.fileName? = some (before, name)) :
    ∃ (dirs : List String) (tail : String), (∀ dir ∈ dirs, '/' ∉ dir.toList) ∧
      before = String.join (dirs.map (· ++ "/")) ∧ IsPlain name ∧ IsIdleTail tail ∧
      p.text = before ++ name ++ tail := by
  unfold Path.fileName? at h
  split at h
  · cases h
  rename_i last front hdrop
  split at h
  · cases h
  rename_i hup
  cases h
  have hpieces : p.pieces =
      front.reverse ++ name :: (p.pieces.reverse.takeWhile isIdle).reverse := by
    have hsplit := List.takeWhile_append_dropWhile (p := isIdle) (l := p.pieces.reverse)
    rw [hdrop] at hsplit
    have hreverse := congrArg List.reverse hsplit
    rw [List.reverse_reverse, List.reverse_append, List.reverse_cons, List.append_assoc] at hreverse
    exact hreverse.symm
  have hidles : ∀ piece ∈ (p.pieces.reverse.takeWhile isIdle).reverse, isIdle piece := by
    intro piece hpiece
    exact List.all_eq_true.mp List.all_takeWhile piece (List.mem_reverse.mp hpiece)
  have hname : isIdle name = false := by
    have hhead := List.head?_dropWhile_not isIdle p.pieces.reverse
    rw [hdrop] at hhead
    simpa using hhead
  generalize (p.pieces.reverse.takeWhile isIdle).reverse = idles at hpieces hidles
  have hslash : ∀ piece ∈ front.reverse ++ name :: idles, '/' ∉ piece.toList := by
    intro piece hpiece
    exact not_mem_of_mem_pieces (hpieces ▸ hpiece)
  have hplain : IsPlain name := ⟨hname, hup, hslash name (by simp)⟩
  have hdirs : ∀ dir ∈ front.reverse, '/' ∉ dir.toList :=
    fun dir hdir => hslash dir (List.mem_append_left _ hdir)
  by_cases hempty : idles = []
  · refine ⟨front.reverse, "", hdirs, rfl, hplain, .inl rfl, ?_⟩
    rw [← intercalate_pieces p, hpieces, hempty, intercalate_concat, String.append_empty]
  · have hbehind : (Path.mk ("/".intercalate idles)).pieces = idles :=
      pieces_intercalate hempty fun piece hpiece => hslash piece (by simp [hpiece])
    refine ⟨front.reverse, "/" ++ "/".intercalate idles, hdirs, rfl, hplain,
      .inr ⟨_, rfl, fun piece hpiece => hidles piece (hbehind ▸ hpiece)⟩, ?_⟩
    rw [← intercalate_pieces p, hpieces, List.append_cons,
      intercalate_append "/" (by simp) hempty, intercalate_concat]
    simp only [String.append_assoc]

theorem pieces_join_append {dirs : List String} {name : String}
    (hdirs : ∀ dir ∈ dirs, '/' ∉ dir.toList) (hname : '/' ∉ name.toList) :
    (Path.mk (String.join (dirs.map (· ++ "/")) ++ name)).pieces = dirs ++ [name] := by
  rw [← intercalate_concat]
  refine pieces_intercalate (by simp) ?_
  exact List.forall_mem_append.mpr ⟨hdirs, List.forall_mem_singleton.mpr hname⟩

/-- A path has the name at its end, whatever does not matter behind it. -/
theorem fileName?_of_tail {dirs : List String} {name tail : String}
    (hdirs : ∀ dir ∈ dirs, '/' ∉ dir.toList) (hname : IsPlain name) (htail : IsIdleTail tail) :
    (Path.mk (String.join (dirs.map (· ++ "/")) ++ name ++ tail)).fileName? =
      some (String.join (dirs.map (· ++ "/")), name) := by
  have hpieces := pieces_join_append hdirs hname.2.2
  rcases htail with rfl | ⟨rest, rfl, hrest⟩
  · rw [String.append_empty]
    exact fileName?_of_pieces hpieces hname
  · have hidles : ∀ piece ∈ (Path.mk rest).pieces.reverse, isIdle piece :=
      fun piece hpiece => hrest piece (List.mem_reverse.mp hpiece)
    rw [← String.append_assoc, Path.fileName?, pieces_append_slash, hpieces, List.reverse_append,
      List.dropWhile_append_of_pos hidles, List.reverse_append, List.reverse_singleton,
      List.singleton_append, List.dropWhile_cons_of_neg (by simp [hname.1])]
    simp only [if_neg hname.2.1, List.reverse_reverse]

theorem fileName?_of_up {dirs : List String} (hdirs : ∀ dir ∈ dirs, '/' ∉ dir.toList) :
    (Path.mk (String.join (dirs.map (· ++ "/")) ++ "..")).fileName? = none := by
  rw [Path.fileName?, pieces_join_append hdirs (by decide), List.reverse_append,
    List.reverse_singleton, List.singleton_append, List.dropWhile_cons_of_neg (by decide)]
  rfl

/-! ### Stems -/

/-- Whether a path ends in a name whose stem is a dot. -/
def Path.hasDotStem (p : Path) : Bool :=
  p.fileName?.any fun (before, name) => p.text = before ++ name && (splitExtension name).1 = "."

theorem splitExtension_of_none {name : String} (h : (splitExtension name).2 = none) :
    (splitExtension name).1 = name := by
  simp only [splitExtension] at h ⊢
  split at h
  · rfl
  · rfl
  · cases h

/-- Cutting off the end of a text as many characters as the part before its tail has. -/
theorem take_append_tail (front part tail : String) :
    String.ofList ((front ++ (part ++ tail)).toList.take
      ((front ++ (part ++ tail)).toList.length - part.length)) =
      front ++ String.ofList (part.toList.take tail.length) ++
        String.ofList (tail.toList.take (tail.length - part.length)) := by
  have hlength : (front ++ (part ++ tail)).toList.length - part.length =
      front.toList.length + tail.length := by
    simp only [String.toList_append, List.length_append, String.length_toList]
    omega
  rw [hlength, ← String.toList_inj, String.toList_append, List.take_length_add_append]
  simp only [String.toList_append, String.toList_ofList, List.take_append, String.length_toList,
    List.append_assoc]

/-- The front of a name with an extension, up to somewhere in the extension, is the name of a path
unless it is two dots. -/
theorem isPlain_front {stem extension front : String} (hne : stem ≠ "")
    (hname : IsPlain (stem ++ "." ++ extension)) (hfront : front.toList <+: extension.toList)
    (hup : ¬ (stem = "." ∧ front = "")) : IsPlain (stem ++ "." ++ front) := by
  obtain ⟨c, chars, hstem⟩ : ∃ c chars, stem.toList = c :: chars :=
    List.exists_cons_of_ne_nil fun hempty => hne (String.toList_inj.mp hempty)
  have htext : (stem ++ "." ++ front).toList = c :: (chars ++ '.' :: front.toList) := by
    simp [hstem]
  refine ⟨?_, ?_, ?_⟩
  · rw [Bool.eq_false_iff, ne_eq, isIdle_iff, htext]
    simp
  · intro heq
    have hchars := congrArg String.toList heq
    rw [htext] at hchars
    obtain ⟨rfl, hrest⟩ := List.cons.inj hchars
    rcases List.append_eq_singleton_iff.mp hrest with ⟨rfl, hbehind⟩ | ⟨-, hbehind⟩
    · exact hup ⟨String.toList_inj.mp hstem, String.toList_inj.mp (List.cons.inj hbehind).2⟩
    · cases hbehind
  · intro hslash
    refine hname.2.2 ?_
    simp only [String.toList_append, List.mem_append] at hslash ⊢
    exact hslash.imp_right fun h => hfront.subset h

section Cut

variable {p : Path} {dirs : List String} {before stem extension tail : String}

theorem hasDotStem_iff (hne : stem ≠ "") (hdot : '.' ∉ extension.toList)
    (hfile : p.fileName? = some (before, stem ++ "." ++ extension))
    (htext : p.text = before ++ (stem ++ "." ++ extension) ++ tail) :
    p.hasDotStem ↔ tail = "" ∧ stem = "." := by
  simp only [Path.hasDotStem, hfile, Option.any_some, splitExtension_append hne hdot,
    Bool.and_eq_true, decide_eq_true_eq, htext]
  refine and_congr_left' ?_
  rw [← String.toList_inj, ← String.toList_inj, String.toList_append, List.append_right_eq_self]
  rfl

/-- What is cut off a path comes from the text behind the name first, and then from the extension
of the name. -/
theorem withExtension_nil_cut (hne : stem ≠ "") (hdot : '.' ∉ extension.toList)
    (hfile : p.fileName? = some (before, stem ++ "." ++ extension))
    (htext : p.text = before ++ (stem ++ "." ++ extension) ++ tail) :
    p.withExtension "" =
      (Path.mk (before ++ (stem ++ "." ++ String.ofList (extension.toList.take tail.length)) ++
        String.ofList (tail.toList.take (tail.length - extension.length)))).setExtension "" := by
  have hold : p.extension? = some extension := by
    rw [Path.extension?, hfile, Option.bind_some]
    exact congrArg Prod.snd (splitExtension_append hne hdot)
  have hparts : p.text = before ++ (stem ++ ".") ++ (extension ++ tail) := by
    rw [htext]
    simp only [String.append_assoc]
  simp only [Path.withExtension, hold, hparts, take_append_tail]
  simp only [String.append_assoc]

/-- What the cut leaves of a name with an extension is a name, unless it leaves two dots. -/
theorem isPlain_cut (hne : stem ≠ "") (hplain : IsPlain (stem ++ "." ++ extension))
    (h : ¬ (tail = "" ∧ stem = ".")) :
    IsPlain (stem ++ "." ++ String.ofList (extension.toList.take tail.length)) := by
  refine isPlain_front hne hplain (by rw [String.toList_ofList]; exact List.take_prefix _ _) ?_
  rintro ⟨rfl, hempty⟩
  have hchars := congrArg String.toList hempty
  rw [String.toList_ofList] at hchars
  rcases List.take_eq_nil_iff.mp hchars with hlength | hchars
  · exact h ⟨String.length_eq_zero_iff.mp hlength, rfl⟩
  · -- without an extension the name would be two dots
    obtain rfl : extension = "" := String.toList_inj.mp hchars
    exact absurd hplain (by decide)

/-- The extension of a name is taken off with all that stands behind. -/
theorem setExtension_nil_of_tail (hdirs : ∀ dir ∈ dirs, '/' ∉ dir.toList) (hne : stem ≠ "")
    (hdot : '.' ∉ extension.toList) (hplain : IsPlain (stem ++ "." ++ extension))
    (htail : IsIdleTail tail) :
    (Path.mk (String.join (dirs.map (· ++ "/")) ++ (stem ++ "." ++ extension) ++
      tail)).setExtension "" = ⟨String.join (dirs.map (· ++ "/")) ++ stem⟩ := by
  rw [setExtension_nil (fileName?_of_tail hdirs hplain htail), splitExtension_append hne hdot]

end Cut

/-- A path without its extension is the path with its stem, unless the stem is a dot with nothing
behind: then the dot of the extension stays. -/
theorem withExtension_nil_eq (p : Path) :
    p.withExtension "" =
      if p.hasDotStem then ⟨(p.setExtension "").text ++ "."⟩ else p.setExtension "" := by
  cases hfile : p.fileName? with
  | none => simp [Path.withExtension, Path.extension?, Path.hasDotStem, hfile]
  | some found =>
    obtain ⟨before, name⟩ := found
    obtain ⟨dirs, tail, hdirs, rfl, hplain, htail, htext⟩ := exists_of_fileName? hfile
    cases hsplit : (splitExtension name).2 with
    | none =>
      have hdot : name ≠ "." := (ne_of_isPlain hplain).2
      simp [Path.withExtension, Path.extension?, Path.hasDotStem, hfile, hsplit,
        splitExtension_of_none hsplit, hdot]
    | some extension =>
      obtain ⟨stem, hne, hdot, rfl⟩ := eq_of_splitExtension hsplit
      have hdotStem := hasDotStem_iff hne hdot hfile htext
      rw [withExtension_nil_cut hne hdot hfile htext, setExtension_nil hfile,
        splitExtension_append hne hdot]
      by_cases hexception : tail = "" ∧ stem = "."
      · rw [if_pos (hdotStem.mpr hexception)]
        obtain ⟨rfl, rfl⟩ := hexception
        -- the cut leaves two dots, and a path that ends in these is left as it is
        have hname : "." ++ "." ++ String.ofList (extension.toList.take "".length) = ".." := by
          simp
        have hbehind : String.ofList ("".toList.take ("".length - extension.length)) = "" := by
          simp
        rw [hname, hbehind, String.append_empty, Path.setExtension, fileName?_of_up hdirs,
          String.append_assoc]
        rfl
      · rw [if_neg fun h => hexception (hdotStem.mp h)]
        refine setExtension_nil_of_tail hdirs hne ?_ (isPlain_cut hne hplain hexception)
          (isIdleTail_front htail ?_)
        · exact fun h => hdot (List.mem_of_mem_take (by simpa using h))
        · rw [String.toList_ofList]
          exact List.take_prefix _ _

/-! ### Steps -/

/-- The step that is written as a text. -/
def Component.ofText (text : String) : Component :=
  if text = "/" then .root
  else if text = "." then .here
  else if text = ".." then .up
  else .normal text

theorem mem_components_cases {p : Path} {c : Component} (h : c ∈ p.components) :
    c = .root ∨ c = .here ∨ ∃ piece ∈ p.pieces, Component.ofPiece? piece = some c := by
  unfold Path.components at h
  split at h
  · rename_i piece rest hpieces
    rcases List.mem_cons.mp h with rfl | h
    · exact .inl rfl
    · obtain ⟨other, hother, hc⟩ := List.mem_filterMap.mp h
      exact .inr (.inr ⟨other, hpieces ▸ List.mem_cons_of_mem "" hother, hc⟩)
  · rename_i rest hpieces
    rcases List.mem_cons.mp h with rfl | h
    · exact .inr (.inl rfl)
    · obtain ⟨other, hother, hc⟩ := List.mem_filterMap.mp h
      exact .inr (.inr ⟨other, hpieces ▸ List.mem_cons_of_mem "." hother, hc⟩)
  · obtain ⟨other, hother, hc⟩ := List.mem_filterMap.mp h
    exact .inr (.inr ⟨other, hother, hc⟩)

/-- A step of a path is known by its text. -/
theorem ofText_of_mem_components {p : Path} {c : Component} (h : c ∈ p.components) :
    Component.ofText c.text = c := by
  rcases mem_components_cases h with rfl | rfl | ⟨piece, hpiece, hc⟩
  · rfl
  · rfl
  · unfold Component.ofPiece? at hc
    split at hc
    · cases hc
    rename_i hidle
    split at hc
    · cases hc
      rfl
    rename_i hup
    cases hc
    have hslash : piece ≠ "/" := by
      rintro rfl
      exact not_mem_of_mem_pieces hpiece (by decide)
    have hdot : piece ≠ "." := by
      rintro rfl
      exact hidle (by decide)
    simp [Component.ofText, Component.text, hslash, hdot, hup]

/-- The steps that are read off the name of a unit. -/
def componentsOf (name : String) : List Component :=
  (stepsOf name).map Component.ofText

/-- The way from a root to a file, or the path of a file that is not below. -/
def relativePath (root file : Path) : Path :=
  (root.below? file).getD file

theorem componentsOf_unitName (root file : Path) :
    componentsOf (unitName root file) = ((relativePath root file).withExtension "").components := by
  rw [componentsOf, stepsOf_unitName, unitSteps, List.map_map]
  refine (List.map_congr_left fun c hc => ?_).trans (List.map_id _)
  exact ofText_of_mem_components hc

/-- The name of a unit is a symbol, whatever the paths are. The steps of the path without its
extension can be read off it, with one exception: if the path ends in a name whose stem is a dot,
the name of the unit has two dots in the place of that dot. So apart from the exception files have
units of one name only if their paths without the extensions have the same steps. -/
theorem unitName_loses_extension (root file root' file' : Path) :
    isSymbol (unitName root file) ∧
    (componentsOf (unitName root file) =
      if (relativePath root file).hasDotStem then
        (Path.mk (((relativePath root file).setExtension "").text ++ ".")).components
      else ((relativePath root file).setExtension "").components) ∧
    (¬ (relativePath root file).hasDotStem → ¬ (relativePath root' file').hasDotStem →
      unitName root file = unitName root' file' →
      ((relativePath root file).setExtension "").components =
        ((relativePath root' file').setExtension "").components) := by
  have hsteps : ∀ root file, componentsOf (unitName root file) =
      if (relativePath root file).hasDotStem then
        (Path.mk (((relativePath root file).setExtension "").text ++ ".")).components
      else ((relativePath root file).setExtension "").components := by
    intro root file
    rw [componentsOf_unitName, withExtension_nil_eq]
    split <;> rfl
  refine ⟨isSymbol_unitName root file, hsteps root file, ?_⟩
  intro hplain hplain' hname
  have hcomponents := congrArg componentsOf hname
  rwa [hsteps, hsteps, if_neg hplain, if_neg hplain'] at hcomponents

/-- A file with an underscore, a digit and a letter beyond ASCII on its path, and another below the
current directory with the same steps. -/
theorem unitName_loses_extension_escaped :
    ¬ (relativePath ⟨"prog/"⟩ ⟨"prog//2_b/./é.vm"⟩).hasDotStem ∧
      ¬ (relativePath ⟨"."⟩ ⟨"./2_b/é.txt/."⟩).hasDotStem ∧
      unitName ⟨"prog/"⟩ ⟨"prog//2_b/./é.vm"⟩ = unitName ⟨"."⟩ ⟨"./2_b/é.txt/."⟩ ∧
      ((relativePath ⟨"prog/"⟩ ⟨"prog//2_b/./é.vm"⟩).setExtension "").components =
        ((relativePath ⟨"."⟩ ⟨"./2_b/é.txt/."⟩).setExtension "").components := by
  have hfirst : ¬ (relativePath ⟨"prog/"⟩ ⟨"prog//2_b/./é.vm"⟩).hasDotStem := by
    decide +kernel
  have hsecond : ¬ (relativePath ⟨"."⟩ ⟨"./2_b/é.txt/."⟩).hasDotStem := by
    decide +kernel
  have hname : unitName ⟨"prog/"⟩ ⟨"prog//2_b/./é.vm"⟩ = unitName ⟨"."⟩ ⟨"./2_b/é.txt/."⟩ := by
    decide +kernel
  exact ⟨hfirst, hsecond, hname, (unitName_loses_extension _ _ _ _).2.2 hfirst hsecond hname⟩

/-- Two files have units of one name, though the stem of one is a dot and that of the other two. -/
theorem dotStem_names_meet :
    unitName ⟨""⟩ ⟨"..vm"⟩ = unitName ⟨""⟩ ⟨"...vm"⟩ ∧
      ((relativePath ⟨""⟩ ⟨"..vm"⟩).setExtension "").components = [.here] ∧
      ((relativePath ⟨""⟩ ⟨"...vm"⟩).setExtension "").components = [.up] := by
  decide +kernel

end HackVm
