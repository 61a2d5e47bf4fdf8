/-
How much is loaded.

A disk has a size: the bytes of its files, and one for each file and directory (`Node.size`). What
is loaded from a disk is bounded by it. The number of source files is at most the size
(`length_sources_le`), and so is the number of bytes in each. The name of a unit is longer than the
path of its file by a constant factor only (`size_unitName_le`), and paths that lead to files are
short. So a bundle has room for the units that are loaded from a disk of less than `2 ^ 64` bytes
(`fits_of_loadUnits`).
-/
import HackVm.Proofs.Extensions
import HackVm.Proofs.ShortestBytes
import HackVm.Proofs.SourceFiles

namespace HackVm

/-! ### Names of units -/

/-- The bytes of texts, and one for each. -/
def weight (texts : List String) : Nat :=
  (texts.map fun text => text.utf8ByteSize + 1).sum

@[simp] theorem weight_nil : weight [] = 0 := rfl

@[simp] theorem weight_cons (text : String) (rest : List String) :
    weight (text :: rest) = text.utf8ByteSize + 1 + weight rest := by
  simp [weight]

theorem utf8Len_le (cs : List Char) : String.utf8Len cs ≤ 4 * cs.length := by
  induction cs with
  | nil => exact Nat.le_refl 0
  | cons c rest ih =>
    have hfour := c.utf8Size_le_four
    rw [String.utf8Len_cons, List.length_cons]
    omega

theorem length_escapeChar_le (first : Bool) (c : Char) :
    (escapeChar first c).length ≤ 3 * c.utf8Size := by
  have hpos := c.utf8Size_pos
  rcases escapeChar_cases first c with ⟨-, heq⟩ | ⟨-, heq⟩ | heq
  · rw [heq, List.length_cons, List.length_singleton]
    omega
  · rw [heq, List.length_singleton]
    omega
  · have hbyte : ∀ b : UInt8, (escapeByte b).length = 3 := fun b => rfl
    rw [heq, List.length_flatMap]
    simp [hbyte, String.length_utf8EncodeChar, Nat.mul_comm]

theorem length_escapeStep_le (text : List Char) :
    (escapeStep text).length ≤ 3 * String.utf8Len text := by
  have hrest : ∀ rest : List Char,
      (rest.flatMap (escapeChar false)).length ≤ 3 * String.utf8Len rest := by
    intro rest
    induction rest with
    | nil => exact Nat.le_refl 0
    | cons c rest ih =>
      have hfirst := length_escapeChar_le false c
      rw [List.flatMap_cons, List.length_append, String.utf8Len_cons]
      omega
  cases text with
  | nil => exact Nat.le_refl 0
  | cons c rest =>
    have hfirst := length_escapeChar_le true c
    have hrest := hrest rest
    rw [escapeStep, List.length_append, String.utf8Len_cons]
    omega

theorem length_escaped_le (steps : List String) : (escaped steps).length ≤ 3 * weight steps := by
  induction steps with
  | nil => exact Nat.zero_le _
  | cons step rest ih =>
    have hstep := length_escapeStep_le step.toList
    rw [← String.utf8ByteSize_ofList, String.ofList_toList] at hstep
    rw [weight_cons]
    cases rest with
    | nil =>
      rw [escaped, List.map_singleton, List.intercalate_singleton]
      omega
    | cons second more =>
      rw [escaped, List.map_cons] at ih
      rw [escaped, List.map_cons, List.map_cons, List.intercalate_cons_cons]
      simp only [List.length_append, List.length_singleton]
      omega

theorem size_intercalate {texts : List String} (h : texts ≠ []) :
    ("/".intercalate texts).utf8ByteSize + 1 = weight texts := by
  induction texts with
  | nil => exact absurd rfl h
  | cons text rest ih =>
    cases rest with
    | nil => simp
    | cons second more =>
      have hrest := ih (by simp)
      rw [String.intercalate_cons_of_ne_nil (by simp), weight_cons, ← hrest,
        String.utf8ByteSize_append, String.utf8ByteSize_append]
      rfl

theorem weight_pieces (p : Path) : weight p.pieces = p.text.utf8ByteSize + 1 := by
  have hne : p.pieces ≠ [] := by
    simp [Path.pieces, List.splitOn_ne_nil]
  rw [← size_intercalate hne, intercalate_pieces]

theorem weight_filterMap_le (pieces : List String) :
    weight ((pieces.filterMap Component.ofPiece?).map Component.text) ≤ weight pieces := by
  induction pieces with
  | nil => exact Nat.le_refl 0
  | cons piece rest ih =>
    rw [weight_cons]
    cases hpiece : Component.ofPiece? piece with
    | none =>
      rw [List.filterMap_cons_none hpiece]
      omega
    | some c =>
      have htext : c.text = piece := by
        unfold Component.ofPiece? at hpiece
        split at hpiece
        · cases hpiece
        · split at hpiece
          · rename_i hup
            cases hpiece
            exact hup.symm
          · cases hpiece
            rfl
      rw [List.filterMap_cons_some hpiece, List.map_cons, weight_cons, htext]
      omega

theorem weight_components_le (p : Path) :
    weight (p.components.map Component.text) ≤ p.text.utf8ByteSize + 2 := by
  have hpieces := weight_pieces p
  rw [components_eq]
  unfold stepsOfPieces
  split
  · rename_i piece rest heq
    have hrest := weight_filterMap_le (piece :: rest)
    rw [heq, weight_cons] at hpieces
    rw [List.map_cons, weight_cons]
    have hroot : Component.root.text.utf8ByteSize = 1 := rfl
    have hempty : "".utf8ByteSize = 0 := rfl
    omega
  · rename_i rest heq
    have hrest := weight_filterMap_le rest
    rw [heq, weight_cons] at hpieces
    rw [List.map_cons, weight_cons]
    have hhere : Component.here.text.utf8ByteSize = 1 := rfl
    have hdot : ".".utf8ByteSize = 1 := rfl
    omega
  · have hall := weight_filterMap_le p.pieces
    omega

theorem size_ofComponents_le (steps : List Component) :
    (Path.ofComponents steps).text.utf8ByteSize ≤ weight (steps.map Component.text) := by
  have hsize : ∀ texts, ("/".intercalate texts).utf8ByteSize ≤ weight texts := by
    intro texts
    cases texts with
    | nil => exact Nat.le_refl 0
    | cons text rest =>
      have heq := size_intercalate (List.cons_ne_nil text rest)
      omega
  unfold Path.ofComponents
  split
  · rename_i rest
    have hrest := hsize (rest.map Component.text)
    have hroot : Component.root.text.utf8ByteSize = 1 := rfl
    have hslash : "/".utf8ByteSize = 1 := rfl
    rw [String.utf8ByteSize_append, List.map_cons, weight_cons]
    omega
  · exact hsize _

theorem weight_drop_le (texts : List String) (n : Nat) : weight (texts.drop n) ≤ weight texts := by
  conv_rhs => rw [← List.take_append_drop n texts, weight, List.map_append, List.sum_append]
  exact Nat.le_add_left _ _

theorem size_relativePath_le (root file : Path) :
    (relativePath root file).text.utf8ByteSize ≤ file.text.utf8ByteSize + 2 := by
  unfold relativePath Path.below?
  split
  · have hsteps := size_ofComponents_le (file.components.drop root.components.length)
    have hdrop := weight_drop_le (file.components.map Component.text) root.components.length
    have hall := weight_components_le file
    rw [List.map_drop] at hsteps
    rw [Option.getD_some]
    omega
  · exact Nat.le_add_right _ 2

theorem size_stem_le (name : String) :
    (splitExtension name).1.utf8ByteSize ≤ name.utf8ByteSize := by
  refine utf8ByteSize_le_of_sublist ?_
  unfold splitExtension
  simp only
  split
  · exact List.Sublist.refl _
  · exact List.Sublist.refl _
  · rename_i dot stem hnil hdrop
    have hsuffix : (dot :: stem).Sublist name.toList.reverse := hdrop ▸ List.dropWhile_sublist _
    rw [String.toList_ofList]
    simpa using ((List.sublist_cons_self dot stem).trans hsuffix).reverse

theorem size_withExtension_le (p : Path) :
    (p.withExtension "").text.utf8ByteSize ≤ p.text.utf8ByteSize + 1 := by
  have hset : (p.setExtension "").text.utf8ByteSize ≤ p.text.utf8ByteSize := by
    cases hfile : p.fileName? with
    | none => rw [Path.setExtension, hfile]
    | some found =>
      obtain ⟨before, name⟩ := found
      obtain ⟨-, tail, -, -, -, -, htext⟩ := exists_of_fileName? hfile
      have hstem := size_stem_le name
      rw [setExtension_nil hfile, htext]
      simp only [String.utf8ByteSize_append]
      omega
  rw [withExtension_nil_eq]
  split
  · have hdot : ".".utf8ByteSize = 1 := rfl
    rw [String.utf8ByteSize_append]
    omega
  · omega

/-- The name of a unit is longer than the path of its file by a constant factor only. -/
theorem size_unitName_le (root file : Path) :
    (unitName root file).utf8ByteSize ≤ 12 * (file.text.utf8ByteSize + 6) := by
  have hrelative := size_relativePath_le root file
  have hextension := size_withExtension_le (relativePath root file)
  have hsteps : weight (unitSteps root file) ≤
      ((relativePath root file).withExtension "").text.utf8ByteSize + 2 :=
    weight_components_le _
  have hescaped := length_escaped_le (unitSteps root file)
  have hlength : (unitName root file).toList.length ≤ 3 * weight (unitSteps root file) + 1 := by
    rw [toList_unitName]
    split
    · exact Nat.le_add_left 1 _
    · omega
  have hchars := utf8Len_le (unitName root file).toList
  rw [← String.utf8ByteSize_ofList, String.ofList_toList] at hchars
  omega

/-! ### Trees -/

mutual
/-- The bytes of the files in a tree, and one for each file and directory. -/
def Node.size : Node → Nat
  | .file content => content.length + 1
  | .dir entries => sizeAmong entries + 1
/-- The size of all trees among entries. -/
def sizeAmong : List (String × Node) → Nat
  | [] => 0
  | (_, node) :: rest => node.size + sizeAmong rest
end

theorem size_le_of_lookup {entries : List (String × Node)} {name : String} {node : Node}
    (h : entries.lookup name = some node) : node.size ≤ sizeAmong entries := by
  induction entries with
  | nil => cases h
  | cons entry rest ih =>
    obtain ⟨key, other⟩ := entry
    rw [List.lookup_cons] at h
    rw [sizeAmong]
    split at h
    · cases h
      omega
    · have hrest := ih h
      omega

/-- What is below a node is not larger. -/
theorem size_le_of_get? {node found : Node} {names : List String}
    (h : node.get? names = some found) : found.size ≤ node.size := by
  induction names generalizing node with
  | nil =>
    cases node <;> cases h <;> exact Nat.le_refl _
  | cons name rest ih =>
    cases node with
    | file content => cases h
    | dir entries =>
      rw [get?_cons] at h
      obtain ⟨child, hchild, hfound⟩ := Option.bind_eq_some_iff.mp h
      have hsize := size_le_of_lookup hchild
      have hbelow := ih hfound
      rw [Node.size]
      omega

theorem length_lt_of_read {disk : Disk} {p : Path} {content : List UInt8}
    (h : disk.read p = .ok content) : content.length < disk.root.size := by
  obtain ⟨place, -, hfile⟩ := read_eq_ok_iff.mp h
  have hsize := size_le_of_get? (entryAt_eq_file_iff.mp hfile)
  rw [Node.size] at hsize
  omega

mutual
/-- There are at most as many source files in a directory as the size of the tree. -/
theorem length_sources_le (path : Path) (node : Node) : (node.sources path).length ≤ node.size := by
  cases node with
  | file content => exact Nat.zero_le _
  | dir entries =>
    have hamong := length_sourcesAmong_le path entries
    rw [Node.sources, Node.size]
    omega
theorem length_sourcesAmong_le (path : Path) (entries : List (String × Node)) :
    (sourcesAmong path entries).length ≤ sizeAmong entries := by
  match entries with
  | [] => exact Nat.le_refl 0
  | (name, node) :: rest =>
    have hrest := length_sourcesAmong_le path rest
    have hbelow := length_sources_le (path.join name) node
    have hpos : 1 ≤ node.size := by
      cases node <;> rw [Node.size] <;> omega
    have hfirst : (waysFrom path name node).length ≤ node.size := by
      unfold waysFrom
      split
      · exact Nat.zero_le _
      · split
        · rwa [List.length_map]
        · split
          · exact hpos
          · exact Nat.zero_le _
    rw [sourcesAmong_cons, List.length_append, sizeAmong]
    omega
end

/-! ### Loading -/

theorem fits_of_decode {input : List UInt8} {us : List SourceUnit}
    (h : Bundle.decode input = .ok us) : Bundle.Fits us := by
  obtain ⟨rest, hrest⟩ := Bundle.decode_eq_ok_iff.mp h
  obtain ⟨used, -, hfits, -⟩ := Bundle.takes_units input us rest hrest
  exact hfits

/-- The bundle of units for which there is room is read as the units. -/
theorem decode_encode {us : List SourceUnit} (h : Bundle.Fits us) :
    Bundle.decode (Bundle.encode us) = .ok us := by
  have hwhole := (Bundle.reads_units h).whole []
  rw [List.append_nil] at hwhole
  exact Bundle.decode_eq_ok_iff.mpr ⟨[], hwhole⟩

section

variable {disk : Disk} (hsize : disk.root.size < 2 ^ 64) {strict : Bool} {root input file : Path}

include hsize

/-- A bundle has room for the unit in a source file. -/
theorem fits_of_loadSource {u : SourceUnit}
    (h : (loadSource disk strict root file).value = .ok u) : u.Fits := by
  obtain ⟨content, source, hread, hsource, hunit⟩ := loadSource_eq_ok_iff.mp h
  obtain ⟨place, hplace, -⟩ := read_eq_ok_iff.mp hread
  obtain ⟨-, -, hshort⟩ := check_eq_ok_iff.mp (locate_eq_ok_iff.mp hplace).1
  have hname := size_unitName_le root file
  have hlength := length_lt_of_read hread
  have hbytes : source.utf8ByteSize = content.length := by
    rw [← Bundle.toUTF8_of_fromUTF8? hsource]
    simp
  refine fits_of_read hunit ?_ ?_
  · rw [pathLimit] at hshort
    omega
  · omega

theorem fits_of_loadSources {files : List Path} (hfiles : files.length < 2 ^ 64)
    {us : List SourceUnit} (h : (loadSources disk strict root files).value = .ok us) :
    Bundle.Fits us := by
  rw [loadSources_eq_ok_iff] at h
  exact ⟨h.length_eq ▸ hfiles,
    forall_of_forall₂ h.flip fun u file hload => fits_of_loadSource hsize hload⟩

/-- A bundle has room for the units that are loaded from a disk, if these bytes can be counted in 64
bits. -/
theorem fits_of_loadUnits {us : List SourceUnit}
    (h : (loadUnits disk strict input).value = .ok us) : Bundle.Fits us := by
  unfold loadUnits at h
  split at h
  · rename_i dir hdir
    obtain ⟨place, entries, -, hget, rfl⟩ := dir?_eq_some_iff.mp hdir
    have hlength := length_sources_le input (.dir entries)
    have htree := size_le_of_get? hget
    simp only at h
    split at h
    · cases h
    · refine fits_of_loadSources hsize ?_ h
      rw [sourceFiles, List.length_map, (List.mergeSort_perm _ _).length_eq]
      omega
  · split at h
    · exact fits_of_loadSources hsize (by simp) h
    · split at h
      · split at h
        · cases h
        · rename_i content hread
          cases hdecode : Bundle.decode content with
          | error e => simp [hdecode, Except.mapError] at h
          | ok vs =>
            obtain rfl : vs = us := by simpa [hdecode, Except.mapError] using h
            exact fits_of_decode hdecode
      · cases h

end

end HackVm
