/-
Programs that are loaded from a tree of source files.

In a directory no two entries have one name (`Node.IsTree`), so no two ways from a directory to a
source file are the same (`sources_spec`). The steps of a file below the directory are the names on
the way to it, the last one without its extension (`unitSteps_foldl_join`), and they are read off the
name of its unit. So no two units have one name, the names are symbols, and the instructions that
were read pass the check:

* **`translate_of_loadUnits`** — what is loaded from source files translates.
-/
import HackVm.CommandLine.Load
import HackVm.Proofs.Blocks
import HackVm.Proofs.Places
import HackVm.Proofs.UnitNames
import HackVm.Proofs.UnitReading
import Mathlib.Data.List.Forall2
import Mathlib.Data.List.Nodup

namespace HackVm

/-! ### Trees of files -/

mutual
/-- A tree of files in which the entries of every directory have plain names of their own. -/
def Node.IsTree : Node → Prop
  | .file _ => True
  | .dir entries => AreEntries entries
/-- Entries that have plain names, each its own, and are trees. -/
def AreEntries : List (String × Node) → Prop
  | [] => True
  | (name, node) :: rest =>
    IsPlain name ∧ name ∉ rest.map Prod.fst ∧ node.IsTree ∧ AreEntries rest
end

theorem isTree_of_mem {entries : List (String × Node)} (h : AreEntries entries)
    {entry : String × Node} (hmem : entry ∈ entries) : entry.2.IsTree := by
  induction entries with
  | nil => cases hmem
  | cons first rest ih =>
    obtain ⟨-, -, hnode, hrest⟩ := h
    rcases List.mem_cons.mp hmem with rfl | hmem
    · exact hnode
    · exact ih hrest hmem

/-- What names lead to in a tree is a tree. -/
theorem isTree_of_get? {node found : Node} {names : List String} (h : node.IsTree)
    (hfound : node.get? names = some found) : found.IsTree := by
  induction names generalizing node with
  | nil =>
    cases node <;> cases hfound <;> exact h
  | cons name rest ih =>
    cases node with
    | file content => cases hfound
    | dir entries =>
      rw [get?_cons] at hfound
      obtain ⟨next, hnext, hfound⟩ := Option.bind_eq_some_iff.mp hfound
      obtain ⟨before, after, hentries, -⟩ := List.lookup_eq_some_iff.mp hnext
      have hmem : (name, next) ∈ entries := by simp [hentries]
      exact ih (isTree_of_mem h hmem) hfound

theorem isTree_of_dir? {disk : Disk} (h : disk.root.IsTree) {input : Path} {dir : Node}
    (hdir : disk.dir? input = some dir) : dir.IsTree := by
  obtain ⟨place, entries, -, hget, rfl⟩ := dir?_eq_some_iff.mp hdir
  exact isTree_of_get? h hget

/-! ### Ways to source files -/

/-- Names that lead to a source file: those of directories, and then that of the file. -/
inductive IsWay : List String → Prop where
  | file {name : String} (hplain : IsPlain name) (hhidden : ¬ isHidden name)
      (hsource : isSource name) : IsWay [name]
  | dir {name : String} {names : List String} (hplain : IsPlain name) (h : IsWay names) :
      IsWay (name :: names)

/-- The ways to source files that begin with an entry of a directory. -/
def waysFrom (path : Path) (name : String) (node : Node) : List (List String) :=
  if isHidden name then []
  else if node.isDir && (path.join name).isWalkable then
    (node.sources (path.join name)).map (name :: ·)
  else if isSource name then [[name]]
  else []

theorem sourcesAmong_cons (path : Path) (name : String) (node : Node)
    (rest : List (String × Node)) :
    sourcesAmong path ((name, node) :: rest) =
      waysFrom path name node ++ sourcesAmong path rest := by
  rw [sourcesAmong]
  rfl

theorem waysFrom_spec {path : Path} {name : String} {node : Node} (hplain : IsPlain name)
    (hbelow : (node.sources (path.join name)).Nodup ∧
      ∀ names ∈ node.sources (path.join name), IsWay names) :
    (waysFrom path name node).Nodup ∧
      ∀ names ∈ waysFrom path name node, IsWay names ∧ names.head? = some name := by
  unfold waysFrom
  by_cases hhidden : isHidden name
  · rw [if_pos hhidden]
    exact ⟨List.nodup_nil, by simp⟩
  · rw [if_neg hhidden]
    split
    · refine ⟨hbelow.1.map List.cons_injective, ?_⟩
      intro names hnames
      obtain ⟨others, hothers, rfl⟩ := List.mem_map.mp hnames
      exact ⟨.dir hplain (hbelow.2 others hothers), List.head?_cons⟩
    · by_cases hsource : isSource name
      · rw [if_pos hsource]
        refine ⟨List.nodup_singleton _, ?_⟩
        intro names hnames
        rw [List.mem_singleton] at hnames
        subst hnames
        exact ⟨.file hplain hhidden hsource, List.head?_cons⟩
      · rw [if_neg hsource]
        exact ⟨List.nodup_nil, by simp⟩

mutual
/-- The source files in a directory and below it, each with a way of its own. -/
theorem sources_spec (path : Path) (node : Node) (h : node.IsTree) :
    (node.sources path).Nodup ∧ ∀ names ∈ node.sources path, IsWay names := by
  cases node with
  | file content => exact ⟨List.nodup_nil, by simp [Node.sources]⟩
  | dir entries =>
    rw [Node.sources]
    obtain ⟨hnodup, hmem⟩ := sourcesAmong_spec path entries h
    exact ⟨hnodup, fun names hnames => (hmem names hnames).1⟩
/-- The ways to source files among entries begin with the names of the entries. -/
theorem sourcesAmong_spec (path : Path) (entries : List (String × Node)) (h : AreEntries entries) :
    (sourcesAmong path entries).Nodup ∧ ∀ names ∈ sourcesAmong path entries,
      IsWay names ∧ ∃ name ∈ entries.map Prod.fst, names.head? = some name := by
  match entries, h with
  | [], _ => exact ⟨List.nodup_nil, by simp [sourcesAmong]⟩
  | (name, node) :: rest, ⟨hplain, hnew, hnode, hrest⟩ =>
    obtain ⟨hnodup, hmem⟩ := sourcesAmong_spec path rest hrest
    obtain ⟨hfirst, hway⟩ := waysFrom_spec hplain (sources_spec (path.join name) node hnode)
    rw [sourcesAmong_cons]
    constructor
    · refine List.nodup_append.mpr ⟨hfirst, hnodup, ?_⟩
      -- the ways that begin with the entry begin with a name that no other entry has
      rintro names hnames others hothers rfl
      obtain ⟨-, other, hother, hhead⟩ := hmem names hothers
      rw [(hway names hnames).2] at hhead
      cases hhead
      exact hnew hother
    · intro names hnames
      rw [List.map_cons]
      rcases List.mem_append.mp hnames with hnames | hnames
      · exact ⟨(hway names hnames).1, name, List.mem_cons_self, (hway names hnames).2⟩
      · obtain ⟨hothers, other, hother, hhead⟩ := hmem names hnames
        exact ⟨hothers, other, List.mem_cons_of_mem name hother, hhead⟩
end

/-! ### Names of units -/

/-- A way to a source file is a way through directories and a name with the extension. -/
theorem exists_stem {names : List String} (h : IsWay names) :
    ∃ dirs stem, names = dirs ++ [stem ++ "." ++ sourceExtension] ∧ (∀ dir ∈ dirs, IsPlain dir) ∧
      stem ≠ "" ∧ stem.toList.head? ≠ some '.' ∧ '/' ∉ stem.toList := by
  induction h with
  | @file name hplain hhidden hsource =>
    have hextension : (splitExtension name).2 = some sourceExtension := by
      simpa [isSource] using hsource
    obtain ⟨stem, hne, -, rfl⟩ := eq_of_splitExtension hextension
    refine ⟨[], stem, rfl, by simp, hne, ?_, ?_⟩
    · intro hhead
      refine hhidden ?_
      have hchars : stem.toList ≠ [] := fun hempty => hne (String.toList_inj.mp hempty)
      rw [isHidden, String.append_assoc, String.toList_append,
        List.head?_append_of_ne_nil _ hchars, hhead]
      rfl
    · intro hslash
      exact hplain.2.2 (by simp [hslash])
  | @dir name names hplain _ ih =>
    obtain ⟨dirs, stem, rfl, hdirs, hstem⟩ := ih
    refine ⟨name :: dirs, stem, rfl, ?_, hstem⟩
    intro dir hdir
    rcases List.mem_cons.mp hdir with rfl | hdir
    · exact hplain
    · exact hdirs dir hdir

/-- The steps of a source file below a directory are the names on the way, without the
extension. -/
theorem unitSteps_foldl_join (input : Path) {dirs : List String} {stem : String}
    (hdirs : ∀ dir ∈ dirs, IsPlain dir) (hne : stem ≠ "") (hhidden : stem.toList.head? ≠ some '.')
    (hslash : '/' ∉ stem.toList) :
    unitSteps input ((dirs ++ [stem ++ "." ++ sourceExtension]).foldl Path.join input) =
      dirs ++ [stem] := by
  have hnames : ∀ rest : String, '/' ∉ rest.toList →
      ∀ name ∈ dirs ++ [stem ++ rest], IsPlain name := by
    intro rest hrest name hmem
    rcases List.mem_append.mp hmem with hmem | hmem
    · exact hdirs name hmem
    · rw [List.mem_singleton] at hmem
      exact hmem ▸ isPlain_append hne hhidden hslash hrest
  have hlong := hnames ("." ++ sourceExtension) (by decide)
  have hshort := hnames "" (by decide)
  rw [← String.append_assoc] at hlong
  rw [String.append_empty] at hshort
  rw [unitSteps, below?_foldl_join input hlong, Option.getD_some,
    withExtension_nil (fun dir hdir => (hdirs dir hdir).2.2) hne hhidden hslash (by decide)
      (by decide),
    components_eq, pieces_intercalate (by simp) fun name hmem => (hshort name hmem).2.2,
    stepsOfPieces_of_isPlain hshort, List.map_map]
  exact List.map_id _

/-- Source files below a directory have units of one name only if they are the same. -/
theorem eq_of_unitName_eq {input : Path} {names others : List String} (h : IsWay names)
    (h' : IsWay others)
    (heq : unitName input (names.foldl Path.join input) =
      unitName input (others.foldl Path.join input)) : names = others := by
  obtain ⟨dirs, stem, rfl, hdirs, hne, hhidden, hslash⟩ := exists_stem h
  obtain ⟨dirs', stem', rfl, hdirs', hne', hhidden', hslash'⟩ := exists_stem h'
  have hsteps := congrArg stepsOf heq
  rw [stepsOf_unitName, stepsOf_unitName, unitSteps_foldl_join input hdirs hne hhidden hslash,
    unitSteps_foldl_join input hdirs' hne' hhidden' hslash'] at hsteps
  obtain ⟨rfl, hstem⟩ := List.append_inj' hsteps rfl
  cases hstem
  rfl

theorem nodup_unitNames (input : Path) {dir : Node} (h : dir.IsTree) :
    ((sourceFiles input dir).map (unitName input)).Nodup := by
  obtain ⟨hnodup, hway⟩ := sources_spec input dir h
  have hsorted := List.mergeSort_perm (dir.sources input) inOrder
  rw [sourceFiles, List.map_map]
  refine List.Nodup.map_on ?_ (hsorted.nodup_iff.mpr hnodup)
  intro names hnames others hothers heq
  rw [Function.comp_apply, Function.comp_apply] at heq
  have hnames := hway names (hsorted.mem_iff.mp hnames)
  have hothers := hway others (hsorted.mem_iff.mp hothers)
  exact eq_of_unitName_eq hnames hothers heq

/-! ### Loading -/

/-- Members of a list have what follows from being related to a member of another list. -/
theorem forall_of_forall₂ {α β : Type} {R : α → β → Prop} {P : α → Prop} {xs : List α} {ys : List β}
    (h : List.Forall₂ R xs ys) (hp : ∀ x y, R x y → P x) : ∀ x ∈ xs, P x := by
  have hboth : List.Forall₂ (fun x y => P x ∧ R x y) xs ys :=
    h.imp fun x y hxy => ⟨hp x y hxy, hxy⟩
  exact ((List.forall₂_and_left xs ys).mp hboth).1

section

variable {disk : Disk} {strict : Bool} {root file : Path} {us : List SourceUnit}

theorem loadSource_eq_ok_iff {u : SourceUnit} :
    (loadSource disk strict root file).value = .ok u ↔ ∃ content source,
      disk.read file = .ok content ∧ String.fromUTF8? ⟨content.toArray⟩ = some source ∧
        (SourceUnit.read (unitName root file) source strict).value = .ok u := by
  rw [loadSource, Disk.readText]
  cases disk.read file with
  | error e => simp
  | ok content =>
    cases hsource : String.fromUTF8? ⟨content.toArray⟩ with
    | none => simp [hsource]
    | some source =>
      simp only [hsource, Except.ok.injEq, exists_and_left, exists_eq_left', Option.some.injEq,
        Logged.map]
      cases (SourceUnit.read (unitName root file) source strict).value <;> simp [Except.mapError]

theorem loadSources_eq_ok_iff {files : List Path} :
    (loadSources disk strict root files).value = .ok us ↔
      List.Forall₂ (fun file u => (loadSource disk strict root file).value = .ok u) files us := by
  induction files generalizing us with
  | nil => simp [loadSources, eq_comm]
  | cons file rest ih =>
    rw [loadSources, List.forall₂_cons_left_iff]
    cases hfirst : (loadSource disk strict root file).value with
    | error e => simp
    | ok u =>
      simp only [map_eq_ok_iff, ih, Except.ok.injEq, exists_and_left, exists_eq_left']

/-- A unit that is loaded has the name of its file, and is such as a session accepts. -/
theorem loadSource_spec {u : SourceUnit} (h : (loadSource disk strict root file).value = .ok u) :
    u.name = unitName root file ∧ u.Legal := by
  obtain ⟨content, source, -, -, hread⟩ := loadSource_eq_ok_iff.mp h
  have hname := name_of_read hread
  exact ⟨hname, hname ▸ isSymbol_unitName root file, check_of_read hread⟩

theorem loadSources_spec {files : List Path}
    (h : (loadSources disk strict root files).value = .ok us) :
    us.map SourceUnit.name = files.map (unitName root) ∧ ∀ u ∈ us, u.Legal := by
  rw [loadSources_eq_ok_iff] at h
  induction h with
  | nil => exact ⟨rfl, by simp⟩
  | cons hfirst _ ih =>
    obtain ⟨hname, hlegal⟩ := loadSource_spec hfirst
    refine ⟨?_, List.forall_mem_cons.mpr ⟨hlegal, ih.2⟩⟩
    rw [List.map_cons, List.map_cons, hname, ih.1]

end

/-- The units that are loaded from a source file, or from a directory of them, translate: no name
of a unit is refused or taken, and no instruction is refused. -/
theorem translate_of_loadUnits {disk : Disk} {options : Options} {input : Path}
    {us : List SourceUnit} (hdisk : disk.root.IsTree)
    (hinput : (disk.dir? input).isSome ∨ input.extension? = some sourceExtension)
    (h : (loadUnits disk options.strict input).value = .ok us) :
    ∃ lines, (translate options us).value = .ok lines := by
  have hsources : ∃ root files,
      (loadSources disk options.strict root files).value = .ok us ∧
        (files.map (unitName root)).Nodup := by
    unfold loadUnits at h
    split at h
    · rename_i dir hdir
      simp only at h
      split at h
      · cases h
      · exact ⟨input, _, h, nodup_unitNames input (isTree_of_dir? hdisk hdir)⟩
    · rename_i hdir
      have hextension : input.extension? = some sourceExtension := by
        simpa [hdir] using hinput
      rw [if_pos hextension] at h
      exact ⟨input.parent, [input], h, List.nodup_singleton _⟩
  obtain ⟨root, files, hload, hnodup⟩ := hsources
  obtain ⟨hnames, hlegal⟩ := loadSources_spec hload
  exact ⟨_, translate_eq_ok_iff.mpr ⟨hlegal, hnames ▸ hnodup, rfl⟩⟩

/-- A file, one in a directory below, and one that is hidden. -/
def nestedEntries : List (String × Node) :=
  [("b_1", .dir [("2é.vm", .file [97, 100, 100])]), (".c.vm", .file [97]),
    ("a.b.vm", .file [110, 111, 116])]

/-- The units in the two files that are not hidden. -/
def nestedUnits : List SourceUnit :=
  [⟨"a.b", [⟨1, .unary .not⟩]⟩, ⟨"b__1:_32_C3_A9", [⟨1, .binary .add⟩]⟩]

theorem translate_of_loadUnits_nested :
    let disk : Disk := ⟨.dir [("prog", .dir nestedEntries)], []⟩
    disk.root.IsTree ∧ (disk.dir? ⟨"prog"⟩).isSome ∧
      (loadUnits disk false ⟨"prog"⟩).value = .ok nestedUnits ∧
      ∃ lines, (translate {} nestedUnits).value = .ok lines := by
  intro disk
  have htree : disk.root.IsTree := by
    simp only [disk, nestedEntries, Node.IsTree, AreEntries]
    decide
  have hdir : disk.dir? ⟨"prog"⟩ = some (.dir nestedEntries) := rfl
  have hsources : (Node.dir nestedEntries).sources ⟨"prog"⟩ = [["b_1", "2é.vm"], ["a.b.vm"]] := by
    decide +kernel
  have horder : inOrder ["b_1", "2é.vm"] ["a.b.vm"] = false := by
    decide +kernel
  have hsorted : [["b_1", "2é.vm"], ["a.b.vm"]].mergeSort inOrder =
      [["a.b.vm"], ["b_1", "2é.vm"]] := by
    simp [List.mergeSort, List.MergeSort.Internal.splitInTwo, horder]
  have hfiles : sourceFiles ⟨"prog"⟩ (.dir nestedEntries) =
      [⟨"prog/a.b.vm"⟩, ⟨"prog/b_1/2é.vm"⟩] := by
    rw [sourceFiles, hsources, hsorted]
    decide +kernel
  have hread : (loadSources disk false ⟨"prog"⟩ [⟨"prog/a.b.vm"⟩, ⟨"prog/b_1/2é.vm"⟩]).value =
      .ok nestedUnits := by
    decide +kernel
  have hload : (loadUnits disk false ⟨"prog"⟩).value = .ok nestedUnits := by
    simp only [loadUnits, hdir, hfiles]
    exact hread
  have hsome : (disk.dir? ⟨"prog"⟩).isSome := by
    rw [hdir]
    rfl
  have hlines := @translate_of_loadUnits disk {} _ _ htree (.inl hsome) hload
  exact ⟨htree, hsome, hload, hlines⟩

end HackVm
