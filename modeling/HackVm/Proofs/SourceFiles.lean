/-
The source files of a directory.

Names lead to a source file if they lead to a file with the extension and none of them is hidden
(`Node.IsSourceFile`). Which of them are found depends on the paths of the directories on the way
only: all of them are found but those below a directory whose path is too long to be walked
(`mem_sources_iff`). They are put in the order of their names, step by step (`pairwise_sorted`), and
that order does not depend on how they were found (`sorted_eq`).

* **`loaded_of_directory`** — the units that are loaded from a directory are those in its source
  files, in the order of their names;
* **`loadUnits_of_sameEntries`** — the order in which directories list their entries does not matter.
-/
import HackVm.Proofs.SourceTree
import Mathlib.Data.List.Lex
import Mathlib.Data.String.Basic

namespace HackVm

/-! ### The order of ways -/

/-- Ways are put in lexicographic order. -/
theorem inOrder_iff (names others : List String) : inOrder names others ↔ names ≤ others := by
  rw [← not_lt]
  change _ ↔ ¬ List.Lex (· < ·) others names
  induction names generalizing others with
  | nil => simp [inOrder]
  | cons name rest ih =>
    cases others with
    | nil => simp [inOrder]
    | cons other more =>
      rw [inOrder, List.cons_lex_cons_iff]
      rcases lt_trichotomy name other with hlt | rfl | hgt
      · simp [compare_lt_iff_lt.mpr hlt, hlt.not_gt, hlt.ne']
      · simpa using ih more
      · simp [compare_gt_iff_gt.mpr hgt, hgt]

theorem pairwise_sorted {ways : List (List String)} (h : ways.Nodup) :
    (ways.mergeSort inOrder).Pairwise (· < ·) := by
  have hle : (ways.mergeSort inOrder).Pairwise (inOrder · ·) := by
    refine List.pairwise_mergeSort ?_ ?_ ways
    · intro first second third h h'
      rw [inOrder_iff] at h h' ⊢
      exact h.trans h'
    · intro first second
      rw [Bool.or_eq_true, inOrder_iff, inOrder_iff]
      exact le_total first second
  have hne : (ways.mergeSort inOrder).Pairwise (· ≠ ·) :=
    (List.mergeSort_perm ways inOrder).nodup_iff.mpr h
  refine (hle.and hne).imp ?_
  rintro names others ⟨hle, hne⟩
  exact lt_of_le_of_ne ((inOrder_iff names others).mp hle) hne

/-- Ways are put in the same order however they were found. -/
theorem sorted_eq {ways others : List (List String)} (h : ways.Nodup) (h' : others.Nodup)
    (hmem : ∀ names, names ∈ ways ↔ names ∈ others) :
    ways.mergeSort inOrder = others.mergeSort inOrder := by
  have hperm : (ways.mergeSort inOrder).Perm (others.mergeSort inOrder) :=
    (List.mergeSort_perm _ _).trans
      (((List.perm_ext_iff_of_nodup h h').mpr hmem).trans (List.mergeSort_perm _ _).symm)
  exact hperm.eq_of_pairwise (fun _ _ _ _ hlt hlt' => absurd hlt hlt'.not_gt) (pairwise_sorted h)
    (pairwise_sorted h')

/-! ### Ways that are found -/

/-- Names that lead from a directory to a source file in it or below it: to a file with the
extension, without any hidden name on the way. -/
structure Node.IsSourceFile (dir : Node) (names : List String) : Prop where
  file : ∃ content, dir.get? names = some (.file content)
  shown : ∀ name ∈ names, isHidden name = false
  extension : ∃ name, names.getLast? = some name ∧ isSource name

/-- Names that are found from a directory with a path, in which are the given entries: they lead
through directories that can be walked to something that has the extension and is no such
directory. -/
def IsFound (path : Path) (entryAt : List String → Option Entry) : List String → Prop
  | [] => False
  | name :: rest =>
    isHidden name = false ∧
      if entryAt [name] = some .dir ∧ (path.join name).isWalkable then
        IsFound (path.join name) (fun names => entryAt (name :: names)) rest
      else rest = [] ∧ isSource name ∧ (entryAt [name]).isSome

theorem mem_sourcesAmong_iff (path : Path) {entries : List (String × Node)} (h : AreEntries entries)
    (name : String) (rest : List String) :
    name :: rest ∈ sourcesAmong path entries ↔
      ∃ child, entries.lookup name = some child ∧ name :: rest ∈ waysFrom path name child := by
  induction entries with
  | nil => simp [sourcesAmong]
  | cons entry others ih =>
    obtain ⟨key, node⟩ := entry
    obtain ⟨hplain, hnew, hnode, hothers⟩ := h
    have hhead := (waysFrom_spec hplain (sources_spec (path.join key) node hnode)).2
    rw [sourcesAmong_cons, List.mem_append, ih hothers, List.lookup_cons]
    by_cases hkey : name = key
    · subst hkey
      have hnone : others.lookup name = none := by
        rw [List.lookup_eq_none_iff]
        rintro ⟨key, other⟩ hmem
        rw [bne_iff_ne]
        rintro rfl
        exact hnew (List.mem_map_of_mem hmem)
      simp [hnone]
    · have hnot : name :: rest ∉ waysFrom path key node := by
        intro hmem
        exact hkey (Option.some.inj (hhead _ hmem).2)
      simp [beq_eq_false_iff_ne.mpr hkey, hnot]

theorem mem_waysFrom_iff (path : Path) (name : String) (node : Node) (rest : List String) :
    name :: rest ∈ waysFrom path name node ↔ isHidden name = false ∧
      if node.isDir && (path.join name).isWalkable then rest ∈ node.sources (path.join name)
      else rest = [] ∧ isSource name := by
  rw [waysFrom]
  by_cases hhidden : isHidden name
  · simp [hhidden]
  · rw [if_neg hhidden]
    split
    · simp [hhidden]
    · split <;> simp [*]

/-- Which ways to source files are found depends on the entries only. -/
theorem mem_sources_iff (path : Path) {node : Node} (h : node.IsTree) (names : List String) :
    names ∈ node.sources path ↔ IsFound path node.entryAt names := by
  induction names generalizing path node with
  | nil =>
    rw [IsFound, iff_false]
    intro hmem
    cases (sources_spec path node h).2 [] hmem
  | cons name rest ih =>
    cases node with
    | file content => simp [Node.sources, IsFound]
    | dir entries =>
      rw [Node.sources, mem_sourcesAmong_iff path h, IsFound, entryAt_dir_cons]
      simp only [entryAt_dir_cons]
      cases hchild : entries.lookup name with
      | none => simp
      | some child =>
        have hentry : child.entry = .dir ↔ child.isDir := by
          cases child <;> simp [Node.entry, Node.isDir]
        have hget : (Node.dir entries).get? [name] = some child := by
          rw [get?_cons, hchild]
          cases child <;> rfl
        have htree := isTree_of_get? h hget
        simp only [Option.some.injEq, exists_eq_left', mem_waysFrom_iff, Option.bind_some,
          entryAt_nil, hentry, Bool.and_eq_true, ih _ htree, Option.isSome_some, and_true]

/-- A path that can be walked can be walked without the names at its end. -/
theorem isWalkable_of_join {p : Path} (hempty : p.text ≠ "") {name : String}
    (h : (p.join name).isWalkable) : p.isWalkable := by
  obtain ⟨rest, hrest⟩ : ∃ rest, (p.join name).text = p.text ++ rest := by
    rw [Path.join]
    split
    · exact ⟨name, rfl⟩
    · exact ⟨"/" ++ name, String.append_assoc⟩
  rw [isWalkable_iff, check_eq_ok_iff] at h ⊢
  obtain ⟨hnul, -, hsize⟩ := h
  rw [hrest, String.toList_append, List.mem_append, not_or] at hnul
  rw [hrest, String.utf8ByteSize_append] at hsize
  exact ⟨hnul.1, hempty, by omega⟩

theorem isWalkable_of_foldl_join {p : Path} (hempty : p.text ≠ "") {names : List String}
    (h : (names.foldl Path.join p).isWalkable) : p.isWalkable := by
  induction names generalizing p with
  | nil => exact h
  | cons name rest ih => exact isWalkable_of_join hempty (ih (text_join_ne hempty name) h)

theorem isFound_file_iff {path : Path} (hpath : path.isWalkable) {node : Node}
    {names : List String} {content : List UInt8}
    (hfile : node.entryAt names = some (.file content)) :
    IsFound path node.entryAt names ↔
      ((∀ name ∈ names, isHidden name = false) ∧
        ∃ name, names.getLast? = some name ∧ isSource name) ∧
      (names.dropLast.foldl Path.join path).isWalkable := by
  induction names generalizing path node with
  | nil => simp [IsFound]
  | cons name rest ih =>
    cases node with
    | file content' => cases hfile
    | dir entries =>
      rw [entryAt_dir_cons] at hfile
      obtain ⟨child, hchild, hfile⟩ := Option.bind_eq_some_iff.mp hfile
      have hbelow : (fun names => (Node.dir entries).entryAt (name :: names)) = child.entryAt := by
        funext names
        rw [entryAt_dir_cons, hchild, Option.bind_some]
      have hentry : (Node.dir entries).entryAt [name] = some child.entry := by
        rw [entryAt_dir_cons, hchild, Option.bind_some, entryAt_nil]
      rw [IsFound, hbelow, hentry]
      cases rest with
      | nil =>
        -- the name is that of the file
        rw [entryAt_nil] at hfile
        rw [hfile]
        simpa [isWalkable_iff] using fun _ _ => isWalkable_iff.mp hpath
      | cons second more =>
        have hdir : child.entry = .dir := by
          cases child with
          | file content' => cases hfile
          | dir entries' => rfl
        have hempty := (check_eq_ok_iff.mp (isWalkable_iff.mp hpath)).2.1
        have hlast : (name :: second :: more).getLast? = (second :: more).getLast? :=
          List.getLast?_cons_cons
        rw [hdir, hlast, List.dropLast_cons_cons, List.foldl_cons, List.forall_mem_cons]
        by_cases hwalk : (path.join name).isWalkable
        · have hrest := ih hwalk hfile
          rw [if_pos ⟨rfl, hwalk⟩, hrest]
          simp only [and_assoc]
        · rw [if_neg (by simp [hwalk])]
          constructor
          · rintro ⟨-, hnil, -⟩
            cases hnil
          · rintro ⟨-, hbehind⟩
            exact absurd (isWalkable_of_foldl_join (text_join_ne hempty name) hbehind) hwalk

/-- A source file is found if the directory that it is in can be walked to. -/
theorem isFound_iff {path : Path} (hpath : path.isWalkable) {node : Node} {names : List String}
    {content : List UInt8} (hget : node.get? names = some (.file content)) :
    IsFound path node.entryAt names ↔
      node.IsSourceFile names ∧ (names.dropLast.foldl Path.join path).isWalkable := by
  rw [isFound_file_iff hpath (entryAt_eq_file_iff.mpr hget)]
  refine and_congr_left' ⟨?_, fun h => ⟨h.shown, h.extension⟩⟩
  rintro ⟨hshown, hextension⟩
  exact ⟨⟨content, hget⟩, hshown, hextension⟩

/-! ### Loading -/

section

variable {disk : Disk} {strict : Bool} {input : Path} {dir : Node} {us : List SourceUnit}

/-- Whether a unit is the one in the source file that names lead to from a directory. -/
def IsUnitOf (input : Path) (dir : Node) (strict : Bool) (names : List String) (u : SourceUnit) :
    Prop :=
  ∃ content source, dir.get? names = some (.file content) ∧
    String.fromUTF8? ⟨content.toArray⟩ = some source ∧
    (SourceUnit.read (unitName input (names.foldl Path.join input)) source strict).value = .ok u

theorem isPlain_of_isWay {names : List String} (h : IsWay names) :
    ∀ name ∈ names, IsPlain name := by
  induction h with
  | file hplain _ _ =>
    intro name hname
    rw [List.mem_singleton] at hname
    exact hname ▸ hplain
  | dir hplain _ ih => exact List.forall_mem_cons.mpr ⟨hplain, ih⟩

/-- The units that are loaded from a directory are in the source files that are found. -/
theorem units_of_loadUnits (htree : dir.IsTree) (hdir : disk.dir? input = some dir)
    (h : (loadUnits disk strict input).value = .ok us) :
    dir.sources input ≠ [] ∧
      List.Forall₂ (IsUnitOf input dir strict) ((dir.sources input).mergeSort inOrder) us := by
  simp only [loadUnits, hdir] at h
  split at h
  · cases h
  · rename_i hfiles
    refine ⟨?_, ?_⟩
    · intro hnil
      exact hfiles (by simp [sourceFiles, hnil])
    · rw [loadSources_eq_ok_iff, sourceFiles, List.forall₂_map_left_iff] at h
      have hplain : ∀ names ∈ (dir.sources input).mergeSort inOrder,
          ∀ name ∈ names, IsPlain name := by
        intro names hnames
        exact isPlain_of_isWay
          ((sources_spec input dir htree).2 names ((List.mergeSort_perm _ _).mem_iff.mp hnames))
      refine ((List.forall₂_and_left _ _).mpr ⟨hplain, h⟩).imp ?_
      rintro names u ⟨hnames, hload⟩
      obtain ⟨content, source, hread, hsource, hunit⟩ := loadSource_eq_ok_iff.mp hload
      exact ⟨content, source, get?_of_read hdir hnames hread, hsource, hunit⟩

theorem isWalkable_of_dir? (h : disk.dir? input = some dir) : input.isWalkable := by
  obtain ⟨place, entries, hplace, -, -⟩ := dir?_eq_some_iff.mp h
  exact isWalkable_iff.mpr (locate_eq_ok_iff.mp hplace).1

theorem loaded_of_directory (htree : disk.root.IsTree) (hdir : disk.dir? input = some dir)
    (h : (loadUnits disk strict input).value = .ok us) :
    ∃ ways : List (List String), ways ≠ [] ∧ ways.Pairwise (· < ·) ∧
      (∀ names, names ∈ ways ↔
        dir.IsSourceFile names ∧ (names.dropLast.foldl Path.join input).isWalkable) ∧
      List.Forall₂ (IsUnitOf input dir strict) ways us := by
  have hdirTree := isTree_of_dir? htree hdir
  obtain ⟨hne, hunits⟩ := units_of_loadUnits hdirTree hdir h
  have hperm := List.mergeSort_perm (dir.sources input) inOrder
  have hfile : ∀ names ∈ (dir.sources input).mergeSort inOrder,
      ∃ content, dir.get? names = some (.file content) :=
    forall_of_forall₂ hunits fun names u ⟨content, _, hget, _⟩ => ⟨content, hget⟩
  have hpath := isWalkable_of_dir? hdir
  refine ⟨_, ?_, pairwise_sorted (sources_spec input dir hdirTree).1, ?_, hunits⟩
  · intro hnil
    rw [hnil] at hperm
    exact hne hperm.symm.eq_nil
  · intro names
    rw [hperm.mem_iff, mem_sources_iff input hdirTree]
    constructor
    · intro hfound
      obtain ⟨content, hget⟩ := hfile names
        (hperm.mem_iff.mpr ((mem_sources_iff input hdirTree names).mpr hfound))
      exact (isFound_iff hpath hget).mp hfound
    · rintro ⟨hsource, hwalk⟩
      obtain ⟨content, hget⟩ := hsource.file
      exact (isFound_iff hpath hget).mpr ⟨hsource, hwalk⟩

end

/-! ### The order of listings -/

theorem sourceFiles_of_sameEntries {dir dir' : Node} (h : dir.SameEntries dir') (htree : dir.IsTree)
    (htree' : dir'.IsTree) (input : Path) : sourceFiles input dir = sourceFiles input dir' := by
  rw [sourceFiles, sourceFiles]
  congr 1
  refine sorted_eq (sources_spec input dir htree).1 (sources_spec input dir' htree').1 ?_
  intro names
  rw [mem_sources_iff input htree, mem_sources_iff input htree', funext h]

section

variable {disk other : Disk} (h : disk.SameEntries other) (htree : disk.root.IsTree)
  (htree' : other.root.IsTree)

include h

theorem loadSources_of_sameEntries (strict : Bool) (root : Path) (files : List Path) :
    loadSources disk strict root files = loadSources other strict root files := by
  have hfile : ∀ file, loadSource disk strict root file = loadSource other strict root file := by
    intro file
    rw [loadSource, loadSource, Disk.readText, Disk.readText, h.read_eq]
  induction files with
  | nil => rfl
  | cons file rest ih => simp only [loadSources, hfile, ih]

include htree htree'

/-- What is loaded does not depend on the order in which directories list their entries. -/
theorem loadUnits_of_sameEntries (strict : Bool) (input : Path) :
    loadUnits disk strict input = loadUnits other strict input := by
  unfold loadUnits
  cases hdir : disk.dir? input with
  | none =>
    have hdir' : other.dir? input = none := by
      by_contra hsome
      obtain ⟨dir', hdir'⟩ := Option.ne_none_iff_exists'.mp hsome
      obtain ⟨dir, hdir'', -⟩ := h.symm.exists_dir? hdir'
      rw [hdir] at hdir''
      cases hdir''
    simp only [hdir', loadSources_of_sameEntries h, h.read_eq]
  | some dir =>
    obtain ⟨dir', hdir', hsame⟩ := h.exists_dir? hdir
    have hfiles := sourceFiles_of_sameEntries hsame (isTree_of_dir? htree hdir)
      (isTree_of_dir? htree' hdir') input
    simp only [hdir', hfiles, loadSources_of_sameEntries h]

end

end HackVm
