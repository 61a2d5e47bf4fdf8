/-
Source texts and the units that they are read as.

A unit that is read from a text has the name that was asked for, and all its instructions pass the
check of instructions that come from elsewhere (`check_of_read`). It is no larger than the text: its
names are parts of the text, and its line numbers count the lines of the text, so a bundle has room
for it (`fits_of_read`). In the other direction a unit whose instructions pass the check has a
source, the texts of its instructions one on each line (`SourceUnit.source`):

* **`read_source`** — the source of a unit is read as the instructions of the unit.
-/
import HackVm.Proofs.LineReading
import HackVm.Proofs.SelfDelimiting

namespace HackVm

open Text

/-! ### What is read -/

/-- Each instruction that is read stands on a line, and its number is that of one of the lines. -/
theorem mem_readLines {name : String} {strict : Bool} {number : Nat} {texts : List String}
    {ls : List SourceLine}
    (h : (SourceUnit.readLines name strict number texts).value = .ok ls) :
    ls.length ≤ texts.length ∧ ∀ l ∈ ls, l.number < number + texts.length ∧
      ∃ text ∈ texts, readLine text = .ok (.instruction l.instruction) := by
  induction texts generalizing number ls with
  | nil =>
    cases h
    exact ⟨Nat.le_refl 0, by simp⟩
  | cons text rest ih =>
    -- what is read from the other lines stands on one of all lines
    have hrest : ∀ {ls' : List SourceLine},
        (SourceUnit.readLines name strict (number + 1) rest).value = .ok ls' →
        ls'.length ≤ rest.length ∧ ∀ l ∈ ls', l.number < number + (text :: rest).length ∧
          ∃ line ∈ text :: rest, readLine line = .ok (.instruction l.instruction) := by
      intro ls' hls'
      obtain ⟨hlength, hmem⟩ := ih hls'
      refine ⟨hlength, ?_⟩
      intro l hl
      obtain ⟨hnumber, line, hline, hread⟩ := hmem l hl
      rw [List.length_cons]
      exact ⟨by omega, line, List.mem_cons_of_mem text hline, hread⟩
    rw [SourceUnit.readLines] at h
    split at h
    · cases h
    · obtain ⟨hlength, hmem⟩ := hrest h
      exact ⟨Nat.le_succ_of_le hlength, hmem⟩
    · rename_i i hi
      obtain ⟨ls', hls', rfl⟩ := map_eq_ok_iff.mp h
      obtain ⟨hlength, hmem⟩ := hrest hls'
      refine ⟨Nat.succ_le_succ hlength, ?_⟩
      intro l hl
      rcases List.mem_cons.mp hl with rfl | hl
      · exact ⟨Nat.lt_add_of_pos_right (Nat.succ_pos _), text, List.mem_cons_self, hi⟩
      · exact hmem l hl
    · split at h
      · cases h
      · obtain ⟨hlength, hmem⟩ := hrest h
        exact ⟨Nat.le_succ_of_le hlength, hmem⟩

section Read

variable {name source : String} {strict : Bool} {u : SourceUnit}

theorem exists_readLines_of_read (h : (SourceUnit.read name source strict).value = .ok u) :
    ∃ ls, (SourceUnit.readLines name strict 1 ((lines source.toList).map String.ofList)).value =
      .ok ls ∧ u = ⟨name, ls⟩ :=
  map_eq_ok_iff.mp h

theorem name_of_read (h : (SourceUnit.read name source strict).value = .ok u) : u.name = name := by
  obtain ⟨ls, -, rfl⟩ := exists_readLines_of_read h
  rfl

/-- The instructions of a unit that is read pass the check. -/
theorem check_of_read (h : (SourceUnit.read name source strict).value = .ok u) :
    ∀ i ∈ u.instructions, i.check = .ok () := by
  obtain ⟨ls, hls, rfl⟩ := exists_readLines_of_read h
  intro i hi
  obtain ⟨l, hl, rfl⟩ := List.mem_map.mp hi
  obtain ⟨-, text, -, hread⟩ := (mem_readLines hls).2 l hl
  exact (readLine_checked hread).1

theorem nameSize_le {i : Instruction} {bound : Nat}
    (h : ∀ name, i.name? = some name → name.utf8ByteSize ≤ bound) : i.nameSize ≤ bound := by
  cases i with
  | label name | goto name | ifGoto name | function name _ | call name _ => exact h name rfl
  | _ => exact Nat.zero_le bound

/-- A bundle has room for the unit that is read from a text if it has for the text. -/
theorem fits_of_read (h : (SourceUnit.read name source strict).value = .ok u)
    (hname : name.utf8ByteSize < 2 ^ 64) (hsource : source.utf8ByteSize < 2 ^ 64) : u.Fits := by
  obtain ⟨ls, hls, rfl⟩ := exists_readLines_of_read h
  obtain ⟨hlength, hmem⟩ := mem_readLines hls
  have hlines := length_lines_le source.toList
  have hchars := length_toList_le source
  rw [List.length_map] at hlength
  refine ⟨hname, Nat.lt_of_le_of_lt (by omega : ls.length ≤ source.utf8ByteSize) hsource, ?_⟩
  intro l hl
  obtain ⟨hnumber, text, htext, hread⟩ := hmem l hl
  rw [List.length_map] at hnumber
  refine ⟨by omega, Nat.lt_of_le_of_lt (nameSize_le ?_) hsource⟩
  intro operand hoperand
  obtain ⟨line, hline, rfl⟩ := List.mem_map.mp htext
  have hword := (readLine_checked hread).2 operand hoperand
  rw [String.toList_ofList] at hword
  exact utf8ByteSize_le_of_sublist
    ((sublist_of_mem_words_strip hword).trans (sublist_of_mem_lines hline))

end Read

/-! ### The source of a unit -/

/-- A source text for a unit: the texts of its instructions with a line feed between two. -/
def SourceUnit.source (u : SourceUnit) : String :=
  "\n".intercalate (u.instructions.map Instruction.text)

theorem readLines_texts (name : String) (strict : Bool) (number : Nat) {is : List Instruction}
    (h : ∀ i ∈ is, i.check = .ok ()) :
    ∃ ls, SourceUnit.readLines name strict number (is.map Instruction.text) = ⟨[], .ok ls⟩ ∧
      ls.map SourceLine.instruction = is := by
  induction is generalizing number with
  | nil => exact ⟨[], rfl, rfl⟩
  | cons i rest ih =>
    obtain ⟨ls, hread, hls⟩ := ih (number + 1) fun j hj => h j (List.mem_cons_of_mem i hj)
    refine ⟨⟨number, i⟩ :: ls, ?_, by rw [List.map_cons, hls]⟩
    simp only [List.map_cons, SourceUnit.readLines, readLine_text (h i List.mem_cons_self), hread]
    rfl

/-- The source of a unit whose instructions pass the check is read without a word as a unit with
the name and the instructions. -/
theorem read_source {u : SourceUnit} (h : ∀ i ∈ u.instructions, i.check = .ok ())
    (strict : Bool) :
    ∃ ls, SourceUnit.read u.name u.source strict = ⟨[], .ok ⟨u.name, ls⟩⟩ ∧
      ls.map SourceLine.instruction = u.instructions := by
  have hlines : lines u.source.toList = (u.instructions.map Instruction.text).map String.toList := by
    rw [SourceUnit.source, String.toList_intercalate]
    refine lines_intercalate ?_
    intro text htext
    obtain ⟨line, hline, rfl⟩ := List.mem_map.mp htext
    obtain ⟨i, hi, rfl⟩ := List.mem_map.mp hline
    have hcheck := h i hi
    refine ⟨?_, ?_, ?_⟩
    · intro hempty
      have hwords := words_strip_text hcheck
      rw [hempty] at hwords
      exact absurd hwords (by simp [strip, beforeSlashes, trim, words])
    · intro hc
      exact absurd (isCodeChar_of_mem_text hcheck hc) (by decide)
    · intro hlast
      exact absurd (isCodeChar_of_mem_text hcheck (List.mem_of_getLast? hlast)) (by decide)
  obtain ⟨ls, hread, hls⟩ := readLines_texts u.name strict 1 h
  refine ⟨ls, ?_, hls⟩
  have htexts : (lines u.source.toList).map String.ofList = u.instructions.map Instruction.text := by
    rw [hlines, map_ofList_map_toList]
  rw [SourceUnit.read, htexts, hread]
  rfl

end HackVm
