/-
The steps of paths.

A plain name is a piece that stands for itself. A plain name at the end of a path is one more step
behind those of the path (`components_join`), so the way from a path to one with names at its end is
these names (`below?_foldl_join`). The extension of the last name can be taken off
(`withExtension_nil`), which leaves a plain name again unless the name begins with a dot.
-/
import HackVm.Path
import HackVm.Proofs.Texts

namespace HackVm

open Text

/-- A name that stands for itself in a path. -/
def IsPlain (name : String) : Prop :=
  isIdle name = false ∧ name ≠ ".." ∧ '/' ∉ name.toList

instance (name : String) : Decidable (IsPlain name) :=
  inferInstanceAs (Decidable (_ ∧ _ ∧ _))

/-! ### Pieces -/

theorem pieces_of_not_mem {text : String} (h : '/' ∉ text.toList) :
    (Path.mk text).pieces = [text] := by
  rw [Path.pieces, List.splitOn_eq_singleton h, List.map_cons, List.map_nil, String.ofList_toList]

/-- A slash ends the pieces before it. -/
theorem pieces_append_slash (before after : String) :
    (Path.mk (before ++ "/" ++ after)).pieces =
      (Path.mk before).pieces ++ (Path.mk after).pieces := by
  have htext : (before ++ "/" ++ after).toList = before.toList ++ '/' :: after.toList := by
    simp
  rw [Path.pieces, htext, List.splitOn_append_cons_self, List.map_append]
  rfl

/-- The names with a slash behind each, and one more. -/
theorem intercalate_concat (dirs : List String) (name : String) :
    "/".intercalate (dirs ++ [name]) = String.join (dirs.map (· ++ "/")) ++ name := by
  induction dirs with
  | nil => rw [List.nil_append, String.intercalate_singleton, List.map_nil, String.join_nil,
      String.empty_append]
  | cons dir rest ih =>
    rw [List.cons_append, String.intercalate_cons_of_ne_nil (by simp), ih, List.map_cons,
      String.join_cons]
    simp only [String.append_assoc]

theorem pieces_intercalate {names : List String} (hne : names ≠ [])
    (h : ∀ name ∈ names, '/' ∉ name.toList) :
    (Path.mk ("/".intercalate names)).pieces = names := by
  have hslash : ∀ piece ∈ names.map String.toList, '/' ∉ piece := by
    intro piece hpiece
    obtain ⟨name, hname, rfl⟩ := List.mem_map.mp hpiece
    exact h name hname
  have htext : ("/".intercalate names).toList = ['/'].intercalate (names.map String.toList) :=
    String.toList_intercalate
  rw [Path.pieces, htext, List.splitOn_intercalate '/' hslash (by simpa using hne),
    map_ofList_map_toList]

/-! ### Steps -/

/-- The steps that the pieces of a path stand for. -/
def stepsOfPieces : List String → List Component
  | "" :: piece :: rest => .root :: (piece :: rest).filterMap Component.ofPiece?
  | "." :: rest => .here :: rest.filterMap Component.ofPiece?
  | pieces => pieces.filterMap Component.ofPiece?

theorem components_eq (p : Path) : p.components = stepsOfPieces p.pieces := rfl

theorem stepsOfPieces_cons {piece : String} (hempty : piece ≠ "") (hdot : piece ≠ ".")
    (rest : List String) :
    stepsOfPieces (piece :: rest) = (piece :: rest).filterMap Component.ofPiece? := by
  rw [stepsOfPieces]
  · intro piece' rest' heq
    exact hempty (List.cons.inj heq).1
  · intro rest' heq
    exact hdot (List.cons.inj heq).1

/-- The steps of pieces with a slash behind them. An empty piece alone is none, but the slash behind
it is the root. -/
def stepsBefore (front : List String) : List Component :=
  if front = [""] then [.root] else stepsOfPieces front

/-- One more piece adds its step to those before it. -/
theorem stepsOfPieces_concat {front : List String} (hne : front ≠ []) (piece : String) :
    stepsOfPieces (front ++ [piece]) = stepsBefore front ++ (Component.ofPiece? piece).toList := by
  have hlast : [piece].filterMap Component.ofPiece? = (Component.ofPiece? piece).toList := by
    cases hpiece : Component.ofPiece? piece <;> simp [hpiece]
  obtain ⟨first, others, rfl⟩ := List.exists_cons_of_ne_nil hne
  by_cases hempty : first = ""
  · subst hempty
    cases others with
    | nil => exact congrArg (Component.root :: ·) hlast
    | cons second more =>
      have happend : (second :: more ++ [piece]).filterMap Component.ofPiece? =
          (second :: more).filterMap Component.ofPiece? ++ [piece].filterMap Component.ofPiece? :=
        List.filterMap_append
      rw [stepsBefore, if_neg (by simp), ← hlast]
      exact congrArg (Component.root :: ·) happend
  · rw [stepsBefore, if_neg (by simp [hempty]), ← hlast]
    by_cases hdot : first = "."
    · subst hdot
      exact congrArg (Component.here :: ·) List.filterMap_append
    · rw [List.cons_append, stepsOfPieces_cons hempty hdot, stepsOfPieces_cons hempty hdot,
        ← List.cons_append, List.filterMap_append]

/-- What stands behind the last slash of a path is one more piece. -/
theorem components_append_slash (before : String) {after : String} (h : '/' ∉ after.toList) :
    (Path.mk (before ++ "/" ++ after)).components =
      stepsBefore (Path.mk before).pieces ++ (Component.ofPiece? after).toList := by
  have hne : (Path.mk before).pieces ≠ [] := by
    simp [Path.pieces, List.splitOn_ne_nil]
  rw [components_eq, pieces_append_slash, pieces_of_not_mem h, stepsOfPieces_concat hne]

theorem ofPiece?_of_isPlain {name : String} (h : IsPlain name) :
    Component.ofPiece? name = some (.normal name) := by
  rw [Component.ofPiece?, h.1, if_neg (by decide), if_neg h.2.1]

theorem ne_of_isPlain {name : String} (h : IsPlain name) : name ≠ "" ∧ name ≠ "." := by
  constructor
  · rintro rfl
    exact absurd h.1 (by decide)
  · rintro rfl
    exact absurd h.1 (by decide)

/-- The steps of plain names are the names. -/
theorem stepsOfPieces_of_isPlain {names : List String} (h : ∀ name ∈ names, IsPlain name) :
    stepsOfPieces names = names.map .normal := by
  have hsteps : names.filterMap Component.ofPiece? = names.map .normal := by
    induction names with
    | nil => rfl
    | cons name rest ih =>
      rw [List.filterMap_cons_some (ofPiece?_of_isPlain (h name List.mem_cons_self)),
        ih fun other hother => h other (List.mem_cons_of_mem name hother), List.map_cons]
  cases names with
  | nil => rfl
  | cons name rest =>
    obtain ⟨hempty, hdot⟩ := ne_of_isPlain (h name List.mem_cons_self)
    rw [stepsOfPieces_cons hempty hdot, hsteps]

theorem text_of_pieces {p : Path} (h : p.pieces = [""]) : p.text = "" := by
  have hsplit : p.text.toList.splitOn '/' = [[]] := by
    have hlist := congrArg (List.map String.toList) h
    rw [Path.pieces, List.map_map] at hlist
    simpa [Function.comp_def] using hlist
  have htext : ['/'].intercalate (p.text.toList.splitOn '/') = p.text.toList :=
    List.intercalate_splitOn '/'
  rw [hsplit, List.intercalate_singleton] at htext
  exact String.toList_inj.mp htext.symm

/-- A plain name at the end of a path is one more step. -/
theorem components_join (p : Path) {name : String} (h : IsPlain name) :
    (p.join name).components = p.components ++ [.normal name] := by
  have hname : (Component.ofPiece? name).toList = [.normal name] := by
    rw [ofPiece?_of_isPlain h]
    rfl
  unfold Path.join
  split
  · rename_i hend
    by_cases hempty : p.text = ""
    · have hbefore : p.pieces = [""] := by
        rw [← pieces_of_not_mem (by decide : '/' ∉ "".toList), ← hempty]
      rw [hempty, String.empty_append, components_eq, components_eq, hbefore,
        pieces_of_not_mem h.2.2]
      exact stepsOfPieces_of_isPlain (by simpa using h)
    · -- the slash at the end of the path has the name behind it
      obtain ⟨front, hfront⟩ : ∃ front, p.text.toList = front ++ ['/'] := by
        simpa [hempty, List.getLast?_eq_some_iff] using hend
      have htext : p.text = String.ofList front ++ "/" ++ "" := by
        rw [← String.toList_inj, hfront]
        simp
      have hsteps : p.components = stepsBefore (Path.mk (String.ofList front)).pieces := by
        have hslash := components_append_slash (String.ofList front) (by decide : '/' ∉ "".toList)
        rw [← htext] at hslash
        exact hslash.trans (List.append_nil _)
      rw [hsteps, htext, String.append_empty, components_append_slash _ h.2.2, hname]
  · rename_i hend
    have hne : p.pieces ≠ [""] := by
      intro heq
      exact hend (by simp [text_of_pieces heq])
    rw [components_append_slash _ h.2.2, hname, stepsBefore, if_neg hne, components_eq]

/-- Plain names at the end of a path are its last steps. -/
theorem components_foldl_join (p : Path) {names : List String}
    (h : ∀ name ∈ names, IsPlain name) :
    (names.foldl Path.join p).components = p.components ++ names.map .normal := by
  induction names generalizing p with
  | nil => simp
  | cons name rest ih =>
    rw [List.foldl_cons, ih _ fun other hother => h other (List.mem_cons_of_mem name hother),
      components_join p (h name List.mem_cons_self), List.append_assoc, List.map_cons,
      List.singleton_append]

/-- The way from a path to one with plain names at its end. -/
theorem below?_foldl_join (p : Path) {names : List String} (h : ∀ name ∈ names, IsPlain name) :
    p.below? (names.foldl Path.join p) = some ⟨"/".intercalate names⟩ := by
  have hsteps := components_foldl_join p h
  have hbegins : p.components.isPrefixOf (names.foldl Path.join p).components := by
    rw [hsteps, List.isPrefixOf_iff_prefix]
    exact List.prefix_append _ _
  have hdrop : (names.foldl Path.join p).components.drop p.components.length =
      names.map .normal := by
    rw [hsteps, List.drop_left]
  rw [Path.below?, if_pos hbegins, hdrop]
  cases names with
  | nil => rfl
  | cons name rest =>
    have htexts : ((name :: rest).map Component.normal).map Component.text = name :: rest := by
      rw [List.map_map]
      exact List.map_id _
    rw [Path.ofComponents, htexts]
    rintro others heq
    cases heq

/-! ### Extensions -/

theorem splitExtension_append {stem extension : String} (hstem : stem ≠ "")
    (hextension : '.' ∉ extension.toList) :
    splitExtension (stem ++ "." ++ extension) = (stem, some extension) := by
  have hreversed : (stem ++ "." ++ extension).toList.reverse =
      extension.toList.reverse ++ '.' :: stem.toList.reverse := by
    simp
  have hbehind : ∀ c ∈ extension.toList.reverse, decide (c ≠ '.') = true := by
    intro c hc
    rw [decide_eq_true_eq]
    rintro rfl
    exact hextension (List.mem_reverse.mp hc)
  obtain ⟨c, rest, hrest⟩ : ∃ c rest, stem.toList.reverse = c :: rest :=
    List.exists_cons_of_ne_nil (by simpa using hstem)
  have hdot : (extension.toList.reverse ++ '.' :: stem.toList.reverse).dropWhile (· ≠ '.') =
      '.' :: c :: rest := by
    rw [List.dropWhile_append_of_pos hbehind, List.dropWhile_cons_of_neg (by decide), hrest]
  have htake : (extension.toList.reverse ++ '.' :: stem.toList.reverse).takeWhile (· ≠ '.') =
      extension.toList.reverse := by
    rw [List.takeWhile_append_of_pos hbehind, List.takeWhile_cons_of_neg (by decide),
      List.append_nil]
  simp only [splitExtension, hreversed, hdot, htake]
  rw [← hrest, List.reverse_reverse, List.reverse_reverse, String.ofList_toList,
    String.ofList_toList]

/-- A name with an extension is a text, a dot and the extension. -/
theorem eq_of_splitExtension {name extension : String}
    (h : (splitExtension name).2 = some extension) :
    ∃ stem, stem ≠ "" ∧ '.' ∉ extension.toList ∧ name = stem ++ "." ++ extension := by
  simp only [splitExtension] at h
  split at h
  · cases h
  · cases h
  · rename_i dot before hbefore hdrop
    have hdot : dot = '.' := by
      have hhead := List.head?_dropWhile_not (· ≠ '.') name.toList.reverse
      rw [hdrop] at hhead
      simpa using hhead
    have hall := List.all_takeWhile (p := (· ≠ '.')) (l := name.toList.reverse)
    have hname := List.takeWhile_append_dropWhile (p := (· ≠ '.')) (l := name.toList.reverse)
    rw [hdrop, hdot] at hname
    generalize name.toList.reverse.takeWhile (· ≠ '.') = behind at h hall hname
    cases h
    refine ⟨String.ofList before.reverse, ?_, ?_, ?_⟩
    · intro hempty
      exact hbefore (by simpa using congrArg String.toList hempty)
    · intro hmem
      rw [String.toList_ofList, List.mem_reverse] at hmem
      exact absurd (List.all_eq_true.mp hall '.' hmem) (by decide)
    · have hreverse := congrArg List.reverse hname
      rw [List.reverse_reverse] at hreverse
      rw [← String.toList_inj, ← hreverse]
      simp

/-- A name that does not begin with a dot stands for itself. -/
theorem isPlain_of_head? {name : String} (hne : name ≠ "") (hdot : name.toList.head? ≠ some '.')
    (hslash : '/' ∉ name.toList) : IsPlain name := by
  refine ⟨?_, ?_, hslash⟩
  · have hhere : name ≠ "." := by
      rintro rfl
      exact hdot rfl
    simp [isIdle, hne, hhere]
  · rintro rfl
    exact hdot rfl

theorem fileName?_of_pieces {p : Path} {dirs : List String} {name : String}
    (h : p.pieces = dirs ++ [name]) (hname : IsPlain name) :
    p.fileName? = some (String.join (dirs.map (· ++ "/")), name) := by
  rw [Path.fileName?, h, List.reverse_append, List.reverse_singleton, List.singleton_append,
    List.dropWhile_cons_of_neg (by simp [hname.1])]
  simp only [if_neg hname.2.1, List.reverse_reverse]

theorem setExtension_nil {p : Path} {before name : String}
    (h : p.fileName? = some (before, name)) :
    p.setExtension "" = ⟨before ++ (splitExtension name).1⟩ := by
  simp only [Path.setExtension, h, if_true, String.append_empty]

section Extension

variable {dirs : List String} {stem extension : String}

/-- Texts that begin with a name that begins with no dot. -/
theorem isPlain_append (hne : stem ≠ "") (hdot : stem.toList.head? ≠ some '.')
    (hslash : '/' ∉ stem.toList) {rest : String} (hrest : '/' ∉ rest.toList) :
    IsPlain (stem ++ rest) := by
  have hchars : stem.toList ≠ [] := by
    intro hempty
    exact hne (String.toList_inj.mp hempty)
  refine isPlain_of_head? ?_ ?_ ?_
  · intro hempty
    have hlist := congrArg String.toList hempty
    rw [String.toList_append] at hlist
    exact hchars (List.append_eq_nil_iff.mp hlist).1
  · rw [String.toList_append, List.head?_append_of_ne_nil _ hchars]
    exact hdot
  · rw [String.toList_append, List.mem_append]
    rintro (hmem | hmem)
    · exact hslash hmem
    · exact hrest hmem

/-- The extension of the last name is taken off. -/
theorem withExtension_nil (hdirs : ∀ dir ∈ dirs, '/' ∉ dir.toList) (hne : stem ≠ "")
    (hhidden : stem.toList.head? ≠ some '.') (hslash : '/' ∉ stem.toList)
    (hextension : '.' ∉ extension.toList) (hplain : '/' ∉ extension.toList) :
    (Path.mk ("/".intercalate (dirs ++ [stem ++ "." ++ extension]))).withExtension "" =
      ⟨"/".intercalate (dirs ++ [stem])⟩ := by
  -- the file names of the path and of the path without the extension
  have hfileName : ∀ rest : String, '/' ∉ rest.toList →
      (Path.mk ("/".intercalate (dirs ++ [stem ++ rest]))).fileName? =
        some (String.join (dirs.map (· ++ "/")), stem ++ rest) := by
    intro rest hrest
    have hname := isPlain_append hne hhidden hslash hrest
    refine fileName?_of_pieces (pieces_intercalate (by simp) ?_) hname
    intro name hmem
    rcases List.mem_append.mp hmem with hmem | hmem
    · exact hdirs name hmem
    · rw [List.mem_singleton] at hmem
      exact hmem ▸ hname.2.2
  have hlong := hfileName ("." ++ extension) (by simpa using hplain)
  have hshort := hfileName "." (by decide)
  rw [← String.append_assoc] at hlong
  have hcut : (Path.mk ("/".intercalate (dirs ++ [stem ++ "." ++ extension]))).extension? =
      some extension := by
    rw [Path.extension?, hlong, Option.bind_some]
    exact congrArg Prod.snd (splitExtension_append hne hextension)
  have htake : String.ofList (("/".intercalate (dirs ++ [stem ++ "." ++ extension])).toList.take
      (("/".intercalate (dirs ++ [stem ++ "." ++ extension])).toList.length - extension.length)) =
      "/".intercalate (dirs ++ [stem ++ "."]) := by
    rw [intercalate_concat, intercalate_concat, ← String.append_assoc, String.toList_append,
      List.length_append, String.length_toList, String.length_toList, Nat.add_sub_cancel,
      ← String.length_toList, List.take_left, String.ofList_toList]
  have hdot : splitExtension (stem ++ ".") = (stem, some "") := by
    have hsplit := @splitExtension_append stem "" hne (by simp)
    rwa [String.append_empty] at hsplit
  simp only [Path.withExtension, hcut, htake, setExtension_nil hshort, hdot]
  rw [intercalate_concat]

end Extension

end HackVm
