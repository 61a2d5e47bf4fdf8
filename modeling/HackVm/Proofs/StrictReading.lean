/-
Strict and lenient reading of source texts.

Every line of a source text is settled by itself: it holds an instruction, is skipped with a
warning, ends the reading with an error (`offence?`), or adds nothing. The reading goes on to the
first line with an error, and without one it gives the instructions of all lines (`readLines_eq`). A
lenient reading takes for a warning what a strict one takes for an error, and that is the only
difference. As the lines behind the first error are not read, the text behind that line does not
matter (`read_eq_of_error`):

* **`strict_or_lenient`** — how the strict and the lenient reading of a text are related.
-/
import HackVm.Proofs.Texts
import HackVm.SourceUnit.Reader
import Mathlib.Data.List.TakeWhile

namespace HackVm

open Text

/-! ### Lines -/

/-- The lines of a source text with their numbers, counted from one. -/
def numberedLines (source : String) : List (String × Nat) :=
  ((lines source.toList).map String.ofList).zipIdx 1

/-- The instruction that a numbered line holds. -/
def instructionOn? (line : String × Nat) : Option SourceLine :=
  match readLine line.1 with
  | .ok (.instruction i) => some ⟨line.2, i⟩
  | _ => none

/-- The warning that a numbered line is skipped. -/
def skippedOn? (name : String) (line : String × Nat) : Option Event :=
  match readLine line.1 with
  | .ok (.unknownOpcode word) => some (.skippedOpcode name line.2 word)
  | _ => none

/-- The error that a numbered line ends the reading with. -/
def offence? (name : String) (strict : Bool) (line : String × Nat) : Option TranslateError :=
  match readLine line.1 with
  | .error e => some (.malformedLine name line.2 e)
  | .ok (.unknownOpcode word) => if strict then some (.unknownOpcode name line.2 word) else none
  | _ => none

theorem map_eq_error_iff {ε α β : Type} {f : α → β} {r : Except ε α} {e : ε} :
    r.map f = .error e ↔ r = .error e := by
  cases r <;> simp [Except.map]

/-- The lines are read up to the first with an error. -/
theorem readLines_eq (name : String) (strict : Bool) (number : Nat) (texts : List String) :
    SourceUnit.readLines name strict number texts =
      ⟨((texts.zipIdx number).takeWhile fun line => (offence? name strict line).isNone).filterMap
          (skippedOn? name),
        match (texts.zipIdx number).findSome? (offence? name strict) with
        | some e => .error e
        | none => .ok ((texts.zipIdx number).filterMap instructionOn?)⟩ := by
  induction texts generalizing number with
  | nil => rfl
  | cons text rest ih =>
    rw [List.zipIdx_cons, SourceUnit.readLines, ih (number + 1)]
    cases hline : readLine text with
    | error e => simp [offence?, hline]
    | ok reading =>
      cases reading with
      | blank => simp [offence?, skippedOn?, instructionOn?, hline]
      | instruction i =>
        have hoffence : offence? name strict (text, number) = none := by rw [offence?, hline]
        cases hrest : (rest.zipIdx (number + 1)).findSome? (offence? name strict) <;>
          simp [hoffence, hrest, skippedOn?, instructionOn?, hline, Logged.map, Except.map]
      | unknownOpcode word =>
        cases strict <;> simp [offence?, skippedOn?, instructionOn?, hline, Logged.after]

section ReadLines

variable {name : String} {strict : Bool} {number : Nat} {texts : List String}

/-- The first of some lines that has an error, if there is one. -/
theorem forall_or_exists_offence (name : String) (strict : Bool) (ls : List (String × Nat)) :
    (∀ line ∈ ls, offence? name strict line = none) ∨
      ∃ front line rest e, ls = front ++ line :: rest ∧
        (∀ l ∈ front, offence? name strict l = none) ∧ offence? name strict line = some e := by
  cases hfind : ls.findSome? (offence? name strict) with
  | none => exact .inl (List.findSome?_eq_none_iff.mp hfind)
  | some e =>
    obtain ⟨front, line, rest, hlines, hline, hfront⟩ := List.findSome?_eq_some_iff.mp hfind
    exact .inr ⟨front, line, rest, e, hlines, hfront, hline⟩

/-- Lines without an error are all read. -/
theorem readLines_of_forall (h : ∀ line ∈ texts.zipIdx number, offence? name strict line = none) :
    SourceUnit.readLines name strict number texts =
      ⟨(texts.zipIdx number).filterMap (skippedOn? name),
        .ok ((texts.zipIdx number).filterMap instructionOn?)⟩ := by
  rw [readLines_eq, List.findSome?_eq_none_iff.mpr h,
    List.takeWhile_eq_self_iff.mpr fun line hline => by simp [h line hline]]

/-- The first line with an error ends the reading. -/
theorem readLines_of_offence {front rest : List (String × Nat)} {line : String × Nat}
    {e : TranslateError} (hlines : texts.zipIdx number = front ++ line :: rest)
    (hfront : ∀ l ∈ front, offence? name strict l = none)
    (hline : offence? name strict line = some e) :
    SourceUnit.readLines name strict number texts =
      ⟨front.filterMap (skippedOn? name), .error e⟩ := by
  have hfind : (texts.zipIdx number).findSome? (offence? name strict) = some e :=
    List.findSome?_eq_some_iff.mpr ⟨front, line, rest, hlines, hline, hfront⟩
  rw [readLines_eq, hfind, hlines, List.takeWhile_append_of_pos fun l hl => by simp [hfront l hl],
    List.takeWhile_cons_of_neg (by simp [hline]), List.append_nil]

theorem exists_offence_of_readLines {e : TranslateError}
    (h : (SourceUnit.readLines name strict number texts).value = .error e) :
    ∃ front line rest, texts.zipIdx number = front ++ line :: rest ∧
      (∀ l ∈ front, offence? name strict l = none) ∧ offence? name strict line = some e := by
  rcases forall_or_exists_offence name strict (texts.zipIdx number) with hnone |
    ⟨front, line, rest, e', hlines, hfront, hline⟩
  · rw [readLines_of_forall hnone] at h
    cases h
  · rw [readLines_of_offence hlines hfront hline] at h
    cases h
    exact ⟨front, line, rest, hlines, hfront, hline⟩

end ReadLines

section Read

variable {name source : String} {strict : Bool}

theorem read_of_forall (h : ∀ line ∈ numberedLines source, offence? name strict line = none) :
    SourceUnit.read name source strict =
      ⟨(numberedLines source).filterMap (skippedOn? name),
        .ok ⟨name, (numberedLines source).filterMap instructionOn?⟩⟩ := by
  rw [SourceUnit.read, readLines_of_forall h]
  rfl

theorem read_of_offence {front rest : List (String × Nat)} {line : String × Nat}
    {e : TranslateError} (hlines : numberedLines source = front ++ line :: rest)
    (hfront : ∀ l ∈ front, offence? name strict l = none)
    (hline : offence? name strict line = some e) :
    SourceUnit.read name source strict = ⟨front.filterMap (skippedOn? name), .error e⟩ := by
  rw [SourceUnit.read, readLines_of_offence hlines hfront hline]
  rfl

/-- The error of a reading is that of the first line that has one. -/
theorem exists_offence_of_read {e : TranslateError}
    (h : (SourceUnit.read name source strict).value = .error e) :
    ∃ front line rest, numberedLines source = front ++ line :: rest ∧
      (∀ l ∈ front, offence? name strict l = none) ∧ offence? name strict line = some e := by
  exact exists_offence_of_readLines (map_eq_error_iff.mp h)

/-- A reading that succeeds finds no error, and reads all lines. -/
theorem forall_of_read {u : SourceUnit}
    (h : (SourceUnit.read name source strict).value = .ok u) :
    (∀ line ∈ numberedLines source, offence? name strict line = none) ∧
      u = ⟨name, (numberedLines source).filterMap instructionOn?⟩ := by
  rcases forall_or_exists_offence name strict (numberedLines source) with hnone |
    ⟨front, line, rest, e, hlines, hfront, hline⟩
  · rw [read_of_forall hnone] at h
    cases h
    exact ⟨hnone, rfl⟩
  · rw [read_of_offence hlines hfront hline] at h
    cases h

/-- The numbers of lines increase. -/
theorem pairwise_numberedLines (source : String) :
    (numberedLines source).Pairwise fun line other => line.2 < other.2 := by
  have hnumbers : ((numberedLines source).map Prod.snd).Pairwise (· < ·) := by
    rw [numberedLines, List.zipIdx_map_snd]
    exact List.pairwise_lt_range'
  exact List.pairwise_map.mp hnumbers

/-- The lines behind one have greater numbers. -/
theorem lt_of_numberedLines_eq {front rest : List (String × Nat)} {line : String × Nat}
    (h : numberedLines source = front ++ line :: rest) : ∀ l ∈ rest, line.2 < l.2 := by
  have hpairs := pairwise_numberedLines source
  rw [h] at hpairs
  exact (List.pairwise_cons.mp (List.pairwise_append.mp hpairs).2.1).1

/-! ### Strict and lenient reading -/

/-- A line without an error for a strict reading has none for a lenient one, and is not skipped. -/
theorem offence?_lenient_of_none {line : String × Nat} (h : offence? name true line = none) :
    offence? name false line = none ∧ skippedOn? name line = none := by
  unfold offence? at h ⊢
  unfold skippedOn?
  cases hline : readLine line.1 with
  | error e => simp [hline] at h
  | ok reading => cases reading <;> simp_all

/-- An error of a strict reading is one of a lenient reading as well, or a warning there. -/
theorem offence?_lenient_of_some {line : String × Nat} {e : TranslateError}
    (h : offence? name true line = some e) :
    (∃ cause, e = .malformedLine name line.2 cause ∧ offence? name false line = some e) ∨
      ∃ word, e = .unknownOpcode name line.2 word ∧ offence? name false line = none ∧
        skippedOn? name line = some (.skippedOpcode name line.2 word) := by
  unfold offence? at h ⊢
  unfold skippedOn?
  cases hline : readLine line.1 with
  | error cause =>
    rw [hline] at h
    exact .inl ⟨cause, (Option.some.inj h).symm, h⟩
  | ok reading =>
    rw [hline] at h
    cases reading with
    | unknownOpcode word => exact .inr ⟨word, (Option.some.inj h).symm, rfl, rfl⟩
    | blank | instruction i => cases h

/-- The errors of a lenient reading are malformed lines. -/
theorem eq_malformedLine_of_offence? {line : String × Nat} {e : TranslateError}
    (h : offence? name false line = some e) : ∃ cause, e = .malformedLine name line.2 cause := by
  unfold offence? at h
  cases hline : readLine line.1 with
  | error cause =>
    rw [hline] at h
    exact ⟨cause, (Option.some.inj h).symm⟩
  | ok reading =>
    rw [hline] at h
    cases reading <;> cases h

theorem line?_of_offence {line : String × Nat} {e : TranslateError}
    (h : offence? name strict line = some e) : e.line? = some line.2 := by
  unfold offence? at h
  split at h
  · cases h
    rfl
  · split at h <;> cases h
    rfl
  · cases h

theorem filterMap_skippedOn?_eq_nil {front : List (String × Nat)}
    (h : ∀ line ∈ front, offence? name true line = none) :
    front.filterMap (skippedOn? name) = [] :=
  List.filterMap_eq_nil_iff.mpr fun line hline => (offence?_lenient_of_none (h line hline)).2

theorem eq_skippedOpcode_of_mem {ls : List (String × Nat)} {event : Event}
    (h : event ∈ ls.filterMap (skippedOn? name)) :
    ∃ line ∈ ls, ∃ word, event = .skippedOpcode name line.2 word := by
  obtain ⟨line, hline, hevent⟩ := List.mem_filterMap.mp h
  refine ⟨line, hline, ?_⟩
  unfold skippedOn? at hevent
  split at hevent
  · rename_i word _
    exact ⟨word, (Option.some.inj hevent).symm⟩
  · cases hevent

/-- A strict reading that succeeds has a lenient one without warnings beside it. -/
theorem lenient_of_strict_ok {u : SourceUnit}
    (h : (SourceUnit.read name source true).value = .ok u) :
    SourceUnit.read name source false = ⟨[], .ok u⟩ := by
  obtain ⟨hnone, rfl⟩ := forall_of_read h
  rw [read_of_forall fun line hline => (offence?_lenient_of_none (hnone line hline)).1,
    filterMap_skippedOn?_eq_nil hnone]

/-- A malformed line that ends a strict reading ends a lenient one, which has no warnings then. -/
theorem lenient_of_strict_malformed {unit : String} {n : Nat} {cause : LineError}
    (h : (SourceUnit.read name source true).value = .error (.malformedLine unit n cause)) :
    SourceUnit.read name source false = ⟨[], .error (.malformedLine unit n cause)⟩ := by
  obtain ⟨front, line, rest, hlines, hfront, hline⟩ := exists_offence_of_read h
  rcases offence?_lenient_of_some hline with ⟨cause', -, hlenient⟩ | ⟨word, hword, -, -⟩
  · rw [read_of_offence hlines (fun l hl => (offence?_lenient_of_none (hfront l hl)).1) hlenient,
      filterMap_skippedOn?_eq_nil hfront]
  · cases hword

/-- If a strict reading takes the lines before one that a lenient reading skips, then the first
warning of the lenient reading is for that line. -/
theorem exists_filterMap_skippedOn?_eq {front ls : List (String × Nat)} {line : String × Nat}
    {word : String} (hfront : ∀ l ∈ front, offence? name true l = none)
    (hskipped : skippedOn? name line = some (.skippedOpcode name line.2 word))
    (hbehind : ∀ l ∈ ls, line.2 < l.2) :
    ∃ others, (front ++ line :: ls).filterMap (skippedOn? name) =
        .skippedOpcode name line.2 word :: others ∧
      ∀ event ∈ others, ∃ k other, line.2 < k ∧ event = .skippedOpcode name k other := by
  refine ⟨ls.filterMap (skippedOn? name), ?_, ?_⟩
  · rw [List.filterMap_append, filterMap_skippedOn?_eq_nil hfront, List.nil_append,
      List.filterMap_cons_some hskipped]
  · intro event hevent
    obtain ⟨l, hl, other, rfl⟩ := eq_skippedOpcode_of_mem hevent
    exact ⟨l.2, other, hbehind l hl, rfl⟩

/-- Where a strict reading ends with an unknown opcode, a lenient one has its first warning, and it
may fail only behind. -/
theorem lenient_of_strict_unknown {unit : String} {n : Nat} {word : String}
    (h : (SourceUnit.read name source true).value = .error (.unknownOpcode unit n word)) :
    (∃ others, (SourceUnit.read name source false).log = .skippedOpcode name n word :: others ∧
      ∀ event ∈ others, ∃ k other, n < k ∧ event = .skippedOpcode name k other) ∧
    ((∃ u, (SourceUnit.read name source false).value = .ok u) ∨
      ∃ k cause, n < k ∧
        (SourceUnit.read name source false).value = .error (.malformedLine name k cause)) := by
  obtain ⟨front, line, rest, hlines, hfront, hline⟩ := exists_offence_of_read h
  rcases offence?_lenient_of_some hline with ⟨cause, hcause, -⟩ | ⟨word', hword, hnone, hskipped⟩
  · cases hcause
  cases hword
  have hbehind := lt_of_numberedLines_eq hlines
  have hlenient : ∀ l ∈ front, offence? name false l = none :=
    fun l hl => (offence?_lenient_of_none (hfront l hl)).1
  rcases forall_or_exists_offence name false rest with hrest |
    ⟨middle, last, others, e, hsplit, hmiddle, hlast⟩
  · have hall : ∀ l ∈ numberedLines source, offence? name false l = none := by
      rw [hlines]
      exact List.forall_mem_append.mpr ⟨hlenient, List.forall_mem_cons.mpr ⟨hnone, hrest⟩⟩
    rw [read_of_forall hall, hlines]
    exact ⟨exists_filterMap_skippedOn?_eq hfront hskipped hbehind, .inl ⟨_, rfl⟩⟩
  · have hread : ∀ l ∈ front ++ line :: middle, offence? name false l = none :=
      List.forall_mem_append.mpr ⟨hlenient, List.forall_mem_cons.mpr ⟨hnone, hmiddle⟩⟩
    have hall : numberedLines source = (front ++ line :: middle) ++ last :: others := by
      rw [hlines, hsplit, List.append_assoc, List.cons_append]
    rw [hsplit] at hbehind
    obtain ⟨hnear, hfar⟩ := List.forall_mem_append.mp hbehind
    obtain ⟨cause, rfl⟩ := eq_malformedLine_of_offence? hlast
    rw [read_of_offence hall hread hlast]
    exact ⟨exists_filterMap_skippedOn?_eq hfront hskipped hnear,
      .inr ⟨last.2, cause, (List.forall_mem_cons.mp hfar).1, rfl⟩⟩

end Read

/-! ### The text behind an error -/

section Lines

variable {name : String} {strict : Bool} {number : Nat} {texts others : List String}

/-- Lines behind an error are not read. -/
theorem readLines_append_of_error {e : TranslateError}
    (h : (SourceUnit.readLines name strict number texts).value = .error e) (behind : List String) :
    SourceUnit.readLines name strict number (texts ++ behind) =
      SourceUnit.readLines name strict number texts := by
  obtain ⟨front, line, rest, hlines, hfront, hline⟩ := exists_offence_of_readLines h
  have hall : (texts ++ behind).zipIdx number =
      front ++ line :: (rest ++ behind.zipIdx (number + texts.length)) := by
    rw [List.zipIdx_append, hlines, List.append_assoc, List.cons_append]
  rw [readLines_of_offence hall hfront hline, readLines_of_offence hlines hfront hline]

/-- A blank line at the end adds nothing. -/
theorem readLines_concat_blank {text : String} (h : readLine text = .ok .blank) :
    SourceUnit.readLines name strict number (texts ++ [text]) =
      SourceUnit.readLines name strict number texts := by
  induction texts generalizing number with
  | nil => simp [SourceUnit.readLines, h]
  | cons first rest ih => simp only [List.cons_append, SourceUnit.readLines, ih]

/-- Of a line only what it holds matters. -/
theorem readLines_congr (h : texts.map readLine = others.map readLine) :
    SourceUnit.readLines name strict number texts =
      SourceUnit.readLines name strict number others := by
  induction texts generalizing number others with
  | nil =>
    rw [List.map_nil, eq_comm, List.map_eq_nil_iff] at h
    rw [h]
  | cons text rest ih =>
    cases others with
    | nil => cases h
    | cons other more =>
      obtain ⟨htext, hrest⟩ := List.cons.inj h
      simp only [SourceUnit.readLines, htext, ih hrest]

end Lines

theorem trim_concat_blank {c : Char} (hc : isBlank c) (text : List Char) :
    trim (text ++ [c]) = trim text := by
  rw [trim, trim, List.dropWhile_append]
  split
  · rename_i hempty
    rw [List.dropWhile_cons_of_pos hc, List.isEmpty_iff.mp hempty]
    rfl
  · rw [List.reverse_append, List.reverse_singleton, List.singleton_append,
      List.dropWhile_cons_of_pos hc]

/-- A character at the end of a line that is no slash is the last one before the comment, or a part
of the comment. -/
theorem beforeSlashes_concat {c : Char} (hc : c ≠ '/') (line : List Char) :
    beforeSlashes (line ++ [c]) = beforeSlashes line ∨
      beforeSlashes (line ++ [c]) = beforeSlashes line ++ [c] := by
  fun_induction beforeSlashes line with
  | case1 rest => exact .inl rfl
  | case2 first rest hslashes ih =>
    have hfirst : beforeSlashes (first :: rest ++ [c]) = first :: beforeSlashes (rest ++ [c]) := by
      rw [List.cons_append, beforeSlashes]
      intro behind hslash hbehind
      cases rest with
      | nil => exact hc (List.cons.inj hbehind).1
      | cons second more => exact hslashes more hslash (by rw [(List.cons.inj hbehind).1])
    rw [hfirst]
    rcases ih with ih | ih
    · exact .inl (by rw [ih])
    · exact .inr (by rw [ih, List.cons_append])
  | case3 => exact .inr (by simp [beforeSlashes])

/-- A carriage return at the end of a line does not matter. -/
theorem readLine_dropReturn (line : List Char) :
    readLine (String.ofList (dropReturn line)) = readLine (String.ofList line) := by
  have hstrip : strip (dropReturn line) = strip line := by
    unfold dropReturn
    split
    · rename_i hlast
      obtain ⟨front, rfl⟩ := List.getLast?_eq_some_iff.mp hlast
      rw [List.dropLast_concat]
      unfold strip
      rcases beforeSlashes_concat (by decide : '\r' ≠ '/') front with heq | heq
      · rw [heq]
      · rw [heq, trim_concat_blank (by decide)]
    · rfl
  simp only [readLine, String.toList_ofList, hstrip]

/-- The pieces of a text between line feeds. -/
def feedPieces (source : String) : List String :=
  (source.toList.splitOn '\n').map String.ofList

theorem readLine_nil : readLine (String.ofList []) = .ok .blank := by
  simp [readLine, strip, beforeSlashes, trim, words]

/-- A text is read piece by piece. -/
theorem read_eq_readLines_feedPieces (name source : String) (strict : Bool) :
    SourceUnit.read name source strict =
      (SourceUnit.readLines name strict 1 (feedPieces source)).map fun r =>
        r.map (SourceUnit.mk name) := by
  obtain ⟨front, last, hpieces⟩ : ∃ front last, source.toList.splitOn '\n' = front ++ [last] :=
    ⟨_, _, (List.dropLast_append_getLast (List.splitOn_ne_nil '\n' source.toList)).symm⟩
  have hlines : lines source.toList =
      front.map dropReturn ++ if last = [] then [] else [last] := by
    rw [lines, hpieces, List.dropLast_concat, List.getLast?_concat]
    by_cases hempty : last = [] <;> simp [hempty]
  have hfront : ((front.map dropReturn).map String.ofList).map readLine =
      (front.map String.ofList).map readLine := by
    simp only [List.map_map, Function.comp_def, readLine_dropReturn]
  rw [SourceUnit.read, feedPieces, hlines, hpieces]
  congr 1
  rw [List.map_append, List.map_append, List.map_singleton]
  by_cases hempty : last = []
  · rw [if_pos hempty, hempty, readLines_concat_blank readLine_nil, List.map_nil, List.append_nil]
    exact readLines_congr hfront
  · rw [if_neg hempty]
    refine readLines_congr ?_
    rw [List.map_append, List.map_append, hfront, List.map_singleton]

/-- A line feed ends the pieces before it. -/
theorem feedPieces_append (front behind : String) :
    feedPieces (front ++ "\n" ++ behind) = feedPieces front ++ feedPieces behind := by
  have htext : (front ++ "\n" ++ behind).toList = front.toList ++ '\n' :: behind.toList := by
    simp
  rw [feedPieces, htext, List.splitOn_append_cons_self, List.map_append]
  rfl

/-- The lines of a text before a line feed or the end. -/
def BeginsWithLines (front text : String) : Prop :=
  text = front ∨ ∃ behind, text = front ++ "\n" ++ behind

theorem feedPieces_of_beginsWithLines {front text : String} (h : BeginsWithLines front text) :
    ∃ behind, feedPieces text = feedPieces front ++ behind := by
  rcases h with rfl | ⟨behind, rfl⟩
  · exact ⟨[], (List.append_nil _).symm⟩
  · exact ⟨feedPieces behind, feedPieces_append front behind⟩

/-- The first pieces of a text as a text. -/
theorem exists_beginsWithLines {source : String} {front behind : List String} (hne : front ≠ [])
    (h : feedPieces source = front ++ behind) :
    ∃ text, feedPieces text = front ∧ BeginsWithLines text source := by
  refine ⟨"\n".intercalate front, ?_, ?_⟩
  · have hfeed : ∀ piece ∈ front.map String.toList, '\n' ∉ piece := by
      intro piece hpiece
      obtain ⟨text, htext, rfl⟩ := List.mem_map.mp hpiece
      have hmem : text ∈ feedPieces source := by simp [h, htext]
      obtain ⟨chars, hchars, rfl⟩ := List.mem_map.mp hmem
      rw [String.toList_ofList]
      exact not_mem_of_mem_splitOn hchars
    have htext : ("\n".intercalate front).toList = ['\n'].intercalate (front.map String.toList) :=
      String.toList_intercalate
    rw [feedPieces, htext, List.splitOn_intercalate '\n' hfeed (by simpa using hne),
      map_ofList_map_toList]
  · have htext : "\n".intercalate (feedPieces source) = source := intercalate_splitOn rfl source
    rw [BeginsWithLines, ← htext, h]
    by_cases hbehind : behind = []
    · exact .inl (by rw [hbehind, List.append_nil])
    · exact .inr ⟨"\n".intercalate behind, intercalate_append "\n" hne hbehind⟩

/-- An error and what was told before it depend only on the text up to the line of the error. -/
theorem read_eq_of_error {name source : String} {strict : Bool} {e : TranslateError}
    (h : (SourceUnit.read name source strict).value = .error e) :
    ∃ front, e.line? = some (feedPieces front).length ∧ BeginsWithLines front source ∧
      ∀ other, BeginsWithLines front other →
        SourceUnit.read name other strict = SourceUnit.read name source strict := by
  rw [read_eq_readLines_feedPieces] at h
  obtain ⟨before, line, rest, hlines, hbefore, hline⟩ :=
    exists_offence_of_readLines (map_eq_error_iff.mp h)
  -- the pieces up to the one with the error
  have hpieces : feedPieces source = (before ++ [line]).map Prod.fst ++ rest.map Prod.fst := by
    rw [← List.zipIdx_map_fst 1 (feedPieces source), hlines, List.append_cons, List.map_append]
  obtain ⟨front, hfront, hsource⟩ := exists_beginsWithLines (by simp) hpieces
  have hzip : (feedPieces front).zipIdx 1 = before ++ line :: [] := by
    rw [hpieces, List.zipIdx_append] at hlines
    rw [hfront]
    exact List.append_inj_left (hlines.trans (List.append_cons before line rest)) (by simp)
  have herror := congrArg Logged.value (readLines_of_offence hzip hbefore hline)
  have hread : ∀ other, BeginsWithLines front other →
      SourceUnit.read name other strict =
        (SourceUnit.readLines name strict 1 (feedPieces front)).map fun r =>
          r.map (SourceUnit.mk name) := by
    intro other hother
    obtain ⟨behind, hbehind⟩ := feedPieces_of_beginsWithLines hother
    rw [read_eq_readLines_feedPieces, hbehind, readLines_append_of_error herror]
  refine ⟨front, ?_, hsource, fun other hother =>
    (hread other hother).trans (hread source hsource).symm⟩
  have hindex : ((feedPieces front).zipIdx 1)[before.length]? = some line := by simp [hzip]
  rw [List.getElem?_zipIdx, Option.map_eq_some_iff] at hindex
  obtain ⟨text, -, rfl⟩ := hindex
  rw [line?_of_offence hline, hfront, List.length_map, List.length_append, Nat.add_comm]
  rfl

/-! ### The two readings of a text -/

theorem instructionOn?_eq_some_iff {line : String × Nat} {l : SourceLine} :
    instructionOn? line = some l ↔
      readLine line.1 = .ok (.instruction l.instruction) ∧ line.2 = l.number := by
  unfold instructionOn?
  split
  · rename_i i hline
    rw [hline, Option.some.injEq]
    constructor
    · rintro rfl
      exact ⟨rfl, rfl⟩
    · rintro ⟨hi, hn⟩
      cases hi
      rw [hn]
  · rename_i hline
    constructor
    · intro h
      cases h
    · rintro ⟨hread, -⟩
      exact absurd hread (hline _)

/-- The instructions of a text stand on its lines, with the numbers of these in their order. -/
theorem instructionsOn_spec (source : String) :
    (((numberedLines source).filterMap instructionOn?).map SourceLine.number).Pairwise (· < ·) ∧
      ∀ l, l ∈ (numberedLines source).filterMap instructionOn? ↔
        ∃ text, (text, l.number) ∈ numberedLines source ∧
          readLine text = .ok (.instruction l.instruction) := by
  constructor
  · rw [List.pairwise_map, List.pairwise_filterMap]
    refine (pairwise_numberedLines source).imp ?_
    intro line other hlt l hl l' hl'
    rwa [← (instructionOn?_eq_some_iff.mp hl).2, ← (instructionOn?_eq_some_iff.mp hl').2]
  · intro l
    rw [List.mem_filterMap]
    constructor
    · rintro ⟨⟨text, n⟩, hmem, hl⟩
      obtain ⟨hread, rfl⟩ := instructionOn?_eq_some_iff.mp hl
      exact ⟨text, hmem, hread⟩
    · rintro ⟨text, hmem, hread⟩
      exact ⟨(text, l.number), hmem, instructionOn?_eq_some_iff.mpr ⟨hread, rfl⟩⟩

/-- An error is that of the first line that has one, and depends only on the text up to that
line. -/
theorem first_offence_of_read {name source : String} {strict : Bool} {e : TranslateError}
    (h : (SourceUnit.read name source strict).value = .error e) :
    ∃ text n, (text, n) ∈ numberedLines source ∧ offence? name strict (text, n) = some e ∧
      (∀ line ∈ numberedLines source, line.2 < n → offence? name strict line = none) ∧
      ∃ front, (feedPieces front).length = n ∧ BeginsWithLines front source ∧
        ∀ other, BeginsWithLines front other →
          SourceUnit.read name other strict = SourceUnit.read name source strict := by
  obtain ⟨before, ⟨text, n⟩, rest, hlines, hbefore, hline⟩ := exists_offence_of_read h
  obtain ⟨front, hnumber, hsource, hother⟩ := read_eq_of_error h
  rw [line?_of_offence hline, Option.some.injEq] at hnumber
  refine ⟨text, n, by simp [hlines], hline, ?_, front, hnumber.symm, hsource, hother⟩
  intro other hmem hlt
  have hbehind := lt_of_numberedLines_eq hlines
  rw [hlines] at hmem
  rcases List.mem_append.mp hmem with hmem | hmem
  · exact hbefore other hmem
  · rcases List.mem_cons.mp hmem with rfl | hmem
    · exact absurd hlt (Nat.lt_irrefl _)
    · exact absurd hlt (Nat.lt_asymm (hbehind other hmem))

/-- What a strict reading takes, a lenient one takes without a warning. If a malformed line ends the
strict reading then it ends the lenient one; if an unknown opcode does then the lenient reading
skips it with its first warning, and fails at most at a line behind. A lenient reading that succeeds
gives the instructions of the lines and their numbers in order, and one warning for each line that
it skips. And an error is always that of the first line that has one, whatever stands behind. -/
theorem strict_or_lenient (name source : String) :
    (∀ u, (SourceUnit.read name source true).value = .ok u →
      (SourceUnit.read name source false).value = .ok u ∧
        (SourceUnit.read name source false).log = []) ∧
    (∀ unit n cause,
      (SourceUnit.read name source true).value = .error (.malformedLine unit n cause) →
      (SourceUnit.read name source false).value = .error (.malformedLine unit n cause)) ∧
    (∀ unit n word,
      (SourceUnit.read name source true).value = .error (.unknownOpcode unit n word) →
      (∃ others, (SourceUnit.read name source false).log = .skippedOpcode name n word :: others ∧
        ∀ event ∈ others, ∃ k other, n < k ∧ event = .skippedOpcode name k other) ∧
      ((∃ u, (SourceUnit.read name source false).value = .ok u) ∨
        ∃ k cause, n < k ∧
          (SourceUnit.read name source false).value = .error (.malformedLine name k cause))) ∧
    (∀ u, (SourceUnit.read name source false).value = .ok u →
      u.name = name ∧ (u.lines.map SourceLine.number).Pairwise (· < ·) ∧
      (∀ l, l ∈ u.lines ↔ ∃ text, (text, l.number) ∈ numberedLines source ∧
        readLine text = .ok (.instruction l.instruction)) ∧
      (SourceUnit.read name source false).log =
        (numberedLines source).filterMap (skippedOn? name)) ∧
    ∀ strict e, (SourceUnit.read name source strict).value = .error e →
      ∃ text n, (text, n) ∈ numberedLines source ∧ offence? name strict (text, n) = some e ∧
        (∀ line ∈ numberedLines source, line.2 < n → offence? name strict line = none) ∧
        ∃ front, (feedPieces front).length = n ∧ BeginsWithLines front source ∧
          ∀ other, BeginsWithLines front other →
            SourceUnit.read name other strict = SourceUnit.read name source strict := by
  refine ⟨?_, ?_, fun unit n word h => lenient_of_strict_unknown h, ?_,
    fun strict e h => first_offence_of_read h⟩
  · intro u h
    rw [lenient_of_strict_ok h]
    exact ⟨rfl, rfl⟩
  · intro unit n cause h
    rw [lenient_of_strict_malformed h]
  · intro u h
    obtain ⟨hnone, rfl⟩ := forall_of_read h
    obtain ⟨hnumbers, hmem⟩ := instructionsOn_spec source
    exact ⟨rfl, hnumbers, hmem, by rw [read_of_forall hnone]⟩

/-- An unknown opcode, a blank line, and a malformed line behind. -/
def nopSource : String := "not\r\nnop // none\n\nneg\npush"

theorem strict_or_lenient_nopSource :
    (SourceUnit.read "Main" nopSource true).value = .error (.unknownOpcode "Main" 2 "nop") ∧
      (∃ others, (SourceUnit.read "Main" nopSource false).log =
        .skippedOpcode "Main" 2 "nop" :: others) ∧
      (SourceUnit.read "Main" nopSource false).value =
        .error (.malformedLine "Main" 5 ⟨.missingOperand "push" 2 0, "push"⟩) ∧
      (∃ front, (feedPieces front).length = 2 ∧ BeginsWithLines front nopSource ∧
        SourceUnit.read "Main" front true = SourceUnit.read "Main" nopSource true) ∧
      (SourceUnit.read "Main" "not\nnop\n\nneg" false).value =
        .ok ⟨"Main", [⟨1, .unary .not⟩, ⟨4, .unary .neg⟩]⟩ ∧
      (SourceUnit.read "Main" "not\nnop\n\nneg" false).log =
        (numberedLines "not\nnop\n\nneg").filterMap (skippedOn? "Main") := by
  have hstrict : (SourceUnit.read "Main" nopSource true).value =
      .error (.unknownOpcode "Main" 2 "nop") := by
    decide +kernel
  have hfails : (SourceUnit.read "Main" nopSource false).value =
      .error (.malformedLine "Main" 5 ⟨.missingOperand "push" 2 0, "push"⟩) := by
    decide +kernel
  have hlenient : (SourceUnit.read "Main" "not\nnop\n\nneg" false).value =
      .ok ⟨"Main", [⟨1, .unary .not⟩, ⟨4, .unary .neg⟩]⟩ := by
    decide +kernel
  obtain ⟨-, -, hunknown, -, herror⟩ := strict_or_lenient "Main" nopSource
  obtain ⟨⟨others, hlog, -⟩, -⟩ := hunknown _ _ _ hstrict
  obtain ⟨text, n, -, hoffence, -, front, hlength, hfront, hother⟩ := herror true _ hstrict
  obtain rfl : n = 2 := Option.some.inj (line?_of_offence hoffence).symm
  obtain ⟨-, -, -, hlog'⟩ := (strict_or_lenient "Main" "not\nnop\n\nneg").2.2.2.1 _ hlenient
  exact ⟨hstrict, ⟨others, hlog⟩, hfails, ⟨front, hlength, hfront, hother front (.inl rfl)⟩,
    hlenient, hlog'⟩

end HackVm
