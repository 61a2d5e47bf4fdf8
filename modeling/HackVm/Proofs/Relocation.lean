/-
The code of a unit in any place.

All that a unit finds in a session, the names of other units aside, are the numbers that its labels
take. So its lines, with every number replaced by what it is more than at the beginning of the unit
(`relative`), are the same in every session. The lines of a program are those of its units one after
the other, each numbered from where the units before it ended (`unitBlock`):

* **`units_relocatable`** — two sessions add the same lines for a unit up to numbers, and number
  them by its comparisons and calls; in another order the units of a program keep their lines up to
  numbers, and the code that begins a program moves the calls by one.
-/
import HackVm.Proofs.Renumbering
import Mathlib.Data.List.Perm.Basic

namespace HackVm

open Assembly Template

/-! ### One unit -/

/-- A line with numbers that count from given ones on. -/
def relative (labels : Labels) : String → String :=
  renumberText fun kind => -(labels.next kind : Int)

theorem shifted_relative (labels : Labels) :
    labels.Shifted (fun kind => -(labels.next kind : Int)) {} := by
  intro kind
  have hzero : ({} : Labels).next kind = 0 := by cases kind <;> rfl
  rw [hzero]
  exact (Int.add_right_neg _).symm

theorem isKnown_of_mem_codeFrom {scope : Scope} {labels : Labels} {is : List Instruction} :
    ∀ l ∈ codeFrom scope labels is, l.isKnown := by
  rw [codeFrom_eq]
  exact isKnown_of_mem_flatMap

section UnitCode

variable {u : SourceUnit} {labels : Labels}

theorem legal_of_mem_blocksFrom_unit (hu : u.Legal) :
    ∀ b ∈ blocksFrom ⟨u.name, none⟩ labels u.instructions, b.Legal :=
  legal_of_mem_blocksFrom ⟨u.name, none⟩ hu.1 hu.1 hu.2

/-- The printed lines of a legal unit with other numbers are its lines renumbered. -/
theorem printed_codeFrom_renumber {d : LabelKind → Int} {labels' : Labels} (hu : u.Legal)
    (h : labels.Shifted d labels') (annotate : Bool) :
    printed annotate (codeFrom ⟨u.name, none⟩ labels' u.instructions) =
      (printed annotate (codeFrom ⟨u.name, none⟩ labels u.instructions)).map (renumberText d) := by
  rw [codeFrom_renumber (legal_of_mem_blocksFrom_unit hu) h,
    printed_renumber d annotate isKnown_of_mem_codeFrom]

/-- The lines of a legal unit are the same up to the numbers that they begin with. -/
theorem map_relative_codeFrom (hu : u.Legal) (annotate : Bool) :
    (printed annotate (codeFrom ⟨u.name, none⟩ labels u.instructions)).map (relative labels) =
      printed annotate (codeFrom ⟨u.name, none⟩ {} u.instructions) :=
  (printed_codeFrom_renumber hu (shifted_relative labels) annotate).symm

end UnitCode

/-! ### Numbers -/

/-- Instructions take a number for each that has labels of the kind. -/
theorem Labels.next_afterAll (labels : Labels) (is : List Instruction) (kind : LabelKind) :
    (labels.afterAll is).next kind =
      labels.next kind + is.countP (fun i => i.labelKind? = some kind) := by
  induction is generalizing labels with
  | nil => rfl
  | cons i rest ih =>
    have := ih (labels.after i)
    rw [Labels.next_after] at this
    rw [List.countP_cons]
    simp only [Labels.afterAll, List.foldl_cons, decide_eq_true_eq] at this ⊢
    omega

/-- The made-up labels of an instruction are of its kind and have its number. -/
theorem number_of_mem_madeUp {scope : Scope} {labels : Labels} {i : Instruction} {name : String}
    (h : name ∈ (Block.instruction scope labels i).madeUp) :
    i.labelKind? = some (labelKindOf name) ∧
      serialNumber name = labels.next (labelKindOf name) := by
  cases i with
  | compare op =>
    obtain ⟨part, hpart, rfl⟩ := List.mem_map.mp h
    rw [labelKindOf_compareLabel op hpart, serialNumber_eq (toList_compareLabel op part _)]
    exact ⟨rfl, rfl⟩
  | call callee n =>
    rw [List.mem_singleton.mp h, labelKindOf_returnLabel,
      serialNumber_eq (toList_returnLabel callee _)]
    exact ⟨rfl, rfl⟩
  | _ => exact absurd h List.not_mem_nil

/-- An instruction that takes a number declares a made-up label. -/
theorem exists_mem_madeUp {scope : Scope} {labels : Labels} {i : Instruction} {kind : LabelKind}
    (h : i.labelKind? = some kind) : ∃ name, name ∈ (Block.instruction scope labels i).madeUp := by
  cases i with
  | compare op => exact ⟨_, List.mem_cons_self⟩
  | call callee n => exact ⟨_, List.mem_cons_self⟩
  | _ => cases h

/-- The made-up labels in the printed code of an instruction are of its kind and have its number. -/
theorem number_of_mem_printed {scope : Scope} {labels : Labels} {i : Instruction}
    (hb : (Block.instruction scope labels i).Legal) {annotate : Bool} {name : String}
    (hmade : IsMadeUp name) (h : "@" ++ name ∈ printed annotate (i.code scope labels) ∨
      "(" ++ name ++ ")" ∈ printed annotate (i.code scope labels)) :
    i.labelKind? = some (labelKindOf name) ∧
      serialNumber name = labels.next (labelKindOf name) := by
  have hproper : ∀ l ∈ i.code scope labels, l.Proper := fun l hl => proper_of_mem_code hb hl
  rw [address_mem_printed_iff hproper, label_mem_printed_iff hproper] at h
  rcases h with h | h
  · exact number_of_mem_madeUp (mem_madeUp_of_refers hb hmade (refers_of_mem_symbols h))
  · exact number_of_mem_madeUp (mem_madeUp_of_mem_label? hb hmade h)

/-- The printed code of an instruction that takes a number declares a made-up label. -/
theorem exists_label_printed {scope : Scope} {labels : Labels} {i : Instruction}
    (hb : (Block.instruction scope labels i).Legal) {kind : LabelKind}
    (h : i.labelKind? = some kind) (annotate : Bool) :
    ∃ name, IsMadeUp name ∧ "(" ++ name ++ ")" ∈ printed annotate (i.code scope labels) := by
  obtain ⟨name, hname⟩ :
      ∃ name, name ∈ (Block.instruction scope labels i).madeUp := exists_mem_madeUp h
  have hproper : ∀ l ∈ i.code scope labels, l.Proper := fun l hl => proper_of_mem_code hb hl
  refine ⟨name, isMadeUp_of_mem_madeUp hname, (label_mem_printed_iff hproper).mpr ?_⟩
  have hlabels := filterMap_label?_code (.instruction scope labels i)
  rw [Block.code] at hlabels
  rw [hlabels]
  exact List.mem_append_right _ hname

/-! ### Programs -/

/-- The numbers that are next at the beginning of a unit of a program. -/
def labelsBefore (labels : Labels) (units : List SourceUnit) (u : SourceUnit) : Labels :=
  labels.afterAll ((units.takeWhile (· ≠ u)).flatMap SourceUnit.instructions)

/-- The printed lines of a unit of a program. -/
def unitBlock (options : Options) (units : List SourceUnit) (u : SourceUnit) : List String :=
  printed options.annotate (codeFrom ⟨u.name, none⟩
    (labelsBefore (Session.start options).labels units u) u.instructions)

theorem Labels.afterAll_append (labels : Labels) (first second : List Instruction) :
    labels.afterAll (first ++ second) = (labels.afterAll first).afterAll second :=
  List.foldl_append

/-- The code of a program is that of its units, each with the numbers at its beginning. -/
theorem flatMap_programFrom (labels : Labels) {units : List SourceUnit} (h : units.Nodup) :
    (programFrom labels units).flatMap Block.code = units.flatMap fun u =>
      codeFrom ⟨u.name, none⟩ (labelsBefore labels units u) u.instructions := by
  induction units generalizing labels with
  | nil => rfl
  | cons u rest ih =>
    obtain ⟨hu, hrest⟩ := List.nodup_cons.mp h
    have hhead : labelsBefore labels (u :: rest) u = labels := by
      rw [labelsBefore, List.takeWhile_cons_of_neg (by simp)]
      rfl
    have htail : ∀ v ∈ rest, labelsBefore labels (u :: rest) v =
        labelsBefore (labels.afterAll u.instructions) rest v := by
      intro v hv
      have hne : u ≠ v := by
        rintro rfl
        exact hu hv
      rw [labelsBefore, List.takeWhile_cons_of_pos (by simpa using hne), List.flatMap_cons,
        Labels.afterAll_append, labelsBefore]
    rw [programFrom, List.flatMap_append, ← codeFrom_eq, ih _ hrest, List.flatMap_cons, hhead]
    congr 1
    refine List.flatMap_congr ?_
    intro v hv
    rw [htail v hv]

theorem printed_flatMap {α : Type} (annotate : Bool) (xs : List α) (f : α → List Line) :
    printed annotate (xs.flatMap f) = xs.flatMap fun x => printed annotate (f x) := by
  induction xs with
  | nil => cases annotate <;> rfl
  | cons x rest ih => rw [List.flatMap_cons, printed_append, ih, List.flatMap_cons]

/-- The lines of a program are those that begin it and those of its units. -/
theorem printed_program (options : Options) {units : List SourceUnit} (h : units.Nodup) :
    printed options.annotate ((program options units).flatMap Block.code) =
      (Session.start options).printed ++ units.flatMap (unitBlock options units) := by
  rw [← Session.lines_appendAll_start, Session.lines_appendAll, printed_append,
    flatMap_programFrom _ h, printed_flatMap, Session.printed, Session.options_start]
  rfl

/-- Whether a session accepts a unit is told by the names that it knows. -/
theorem Session.accepts_congr {s t : Session} (h : s.units = t.units) (u : SourceUnit) :
    s.accepts u = t.accepts u := by
  rw [Session.accepts_eq, Session.accepts_eq, h]

theorem error_addUnits {s t : Session} (h : s.units = t.units) {units : List SourceUnit}
    {e : TranslateError} (he : (s.addUnits units).value = .error e) :
    (t.addUnits units).value = .error e := by
  induction units generalizing s t with
  | nil => cases he
  | cons u rest ih =>
    unfold Session.addUnits Session.addUnit at he ⊢
    rw [Session.accepts_congr h] at he
    cases hu : t.accepts u with
    | error e' => simpa [hu] using he
    | ok value =>
      have hunits : (s.append u).units = (t.append u).units := by
        rw [Session.append, Session.append, h]
      simp only [hu] at he ⊢
      exact ih hunits he

/-- The differences that the code at the beginning makes: its call takes a number. -/
def bootstrapShift : LabelKind → Int
  | .compare => 0
  | .call => 1

theorem programFrom_renumber {d : LabelKind → Int} {labels labels' : Labels}
    {units : List SourceUnit} (hlegal : ∀ u ∈ units, u.Legal) (h : labels.Shifted d labels') :
    (programFrom labels' units).flatMap Block.code =
      ((programFrom labels units).flatMap Block.code).map (Line.renumber d) := by
  induction units generalizing labels labels' with
  | nil => rfl
  | cons u rest ih =>
    have hrest := ih (fun v hv => hlegal v (by simp [hv])) (h.afterAll u.instructions)
    have hu := codeFrom_renumber (legal_of_mem_blocksFrom_unit (hlegal u (by simp))) h
    rw [programFrom, programFrom, List.flatMap_append, List.flatMap_append, List.map_append, hrest,
      ← codeFrom_eq, ← codeFrom_eq, hu]

/-- A program that begins with a call is refused as without it, or it is the same behind the code
for the call, with the numbers of calls moved by one. -/
theorem translate_bootstrap (options : Options) (units : List SourceUnit) :
    (translate { options with bootstrap := true } units).value =
      (translate { options with bootstrap := false } units).value.map fun lines =>
        printed options.annotate (bootstrap options.stackBase options.entry 0) ++
          lines.map (renumberText bootstrapShift) := by
  cases hplain : (translate { options with bootstrap := false } units).value with
  | error e =>
    have hunits : (Session.start { options with bootstrap := false }).units =
        (Session.start { options with bootstrap := true }).units := rfl
    unfold translate Logged.map at hplain ⊢
    cases hadd : ((Session.start { options with bootstrap := false }).addUnits units).value with
    | ok s => simp [hadd, Except.map] at hplain
    | error e' =>
      obtain rfl : e' = e := by simpa [hadd, Except.map] using hplain
      simp [error_addUnits hunits hadd, Except.map]
  | ok lines =>
    obtain ⟨hlegal, hnodup, rfl⟩ := translate_eq_ok_iff.mp hplain
    refine translate_eq_ok_iff.mpr ⟨hlegal, hnodup, ?_⟩
    have hshift : Labels.Shifted bootstrapShift {} (Labels.take {} .call) := by
      intro kind
      cases kind <;> rfl
    have hprogram : (program { options with bootstrap := true } units).flatMap Block.code =
        bootstrap options.stackBase options.entry 0 ++
          ((program { options with bootstrap := false } units).flatMap Block.code).map
            (Line.renumber bootstrapShift) :=
      congrArg (bootstrap options.stackBase options.entry 0 ++ ·)
        (programFrom_renumber hlegal hshift)
    rw [hprogram, printed_append, printed_renumber bootstrapShift _ isKnown_of_mem_flatMap]

/-! ### Units in any place -/

/-- An instruction of a legal unit is a legal block where it stands. -/
theorem legal_of_instructions_eq {u : SourceUnit} (hu : u.Legal) (labels : Labels)
    {before after : List Instruction} {i : Instruction}
    (h : u.instructions = before ++ i :: after) :
    (Block.instruction ((before.foldl Scope.enter ⟨u.name, none⟩).enter i)
      (labels.afterAll before) i).Legal := by
  have hmem : Block.instruction ((before.foldl Scope.enter ⟨u.name, none⟩).enter i)
      (labels.afterAll before) i ∈ blocksFrom ⟨u.name, none⟩ labels u.instructions := by
    rw [h, blocksFrom_append, blocksFrom]
    exact List.mem_append_right _ List.mem_cons_self
  exact legal_of_mem_blocksFrom_unit hu _ hmem

/-- What a session adds for a unit depends on the session only in its numbers, and these are
counted: first, the lines that two sessions add are the same relative to the numbers that they begin
with; second, of each kind as many numbers are taken as the unit has instructions with labels of the
kind, and such an instruction has the number that those before it have left; third, in another order
the units of a program translate as well, and each keeps its lines relative to its numbers; fourth,
with the code that begins a program the lines are those without it, the numbers of calls moved by
one. -/
theorem units_relocatable :
    (∀ (s s' t t' : Session) (u : SourceUnit), (s.addUnit u).value = .ok s' →
      (t.addUnit u).value = .ok t' → s.options.annotate = t.options.annotate →
      ∃ a b, s'.printed = s.printed ++ a ∧ t'.printed = t.printed ++ b ∧
        a.map (relative s.labels) = b.map (relative t.labels)) ∧
    (∀ (s s' : Session) (u : SourceUnit), (s.addUnit u).value = .ok s' →
      (∀ kind, s'.labels.next kind =
        s.labels.next kind + u.instructions.countP fun i => i.labelKind? = some kind) ∧
      ∀ before i after, u.instructions = before ++ i :: after → ∃ front code back,
        s'.printed = s.printed ++ (front ++ code ++ back) ∧
        front = printed s.options.annotate (codeFrom ⟨u.name, none⟩ s.labels before) ∧
        code = printed s.options.annotate
          (i.code ((before.foldl Scope.enter ⟨u.name, none⟩).enter i) (s.labels.afterAll before)) ∧
        (i.labelKind?.isSome → ∃ name, IsMadeUp name ∧ "(" ++ name ++ ")" ∈ code) ∧
        ∀ name, IsMadeUp name → ("@" ++ name ∈ code ∨ "(" ++ name ++ ")" ∈ code) →
          i.labelKind? = some (labelKindOf name) ∧
          serialNumber name = s.labels.next (labelKindOf name) +
            before.countP fun j => j.labelKind? = some (labelKindOf name)) ∧
    (∀ (options : Options) (units units' : List SourceUnit) (lines : List String),
      units.Perm units' → (translate options units).value = .ok lines →
      lines = (Session.start options).printed ++ units.flatMap (unitBlock options units) ∧
      (translate options units').value =
        .ok ((Session.start options).printed ++ units'.flatMap (unitBlock options units')) ∧
      ∀ u ∈ units,
        (unitBlock options units u).map
            (relative (labelsBefore (Session.start options).labels units u)) =
          (unitBlock options units' u).map
            (relative (labelsBefore (Session.start options).labels units' u))) ∧
    ∀ (options : Options) (units : List SourceUnit),
      (translate { options with bootstrap := true } units).value =
        (translate { options with bootstrap := false } units).value.map fun lines =>
          printed options.annotate (bootstrap options.stackBase options.entry 0) ++
            lines.map (renumberText bootstrapShift) := by
  refine ⟨?_, ?_, ?_, translate_bootstrap⟩
  · intro s s' t t' u hs ht hannotate
    obtain ⟨⟨hlegal, -⟩, rfl⟩ := Session.addUnit_eq_ok_iff.mp hs
    obtain ⟨-, rfl⟩ := Session.addUnit_eq_ok_iff.mp ht
    refine ⟨_, _, s.printed_append_unit u, t.printed_append_unit u, ?_⟩
    rw [map_relative_codeFrom hlegal, map_relative_codeFrom hlegal, hannotate]
  · intro s s' u hs
    obtain ⟨⟨hlegal, -⟩, rfl⟩ := Session.addUnit_eq_ok_iff.mp hs
    refine ⟨s.labels.next_afterAll u.instructions, ?_⟩
    intro before i after hu
    have hb := legal_of_instructions_eq hlegal s.labels hu
    refine ⟨_, _, printed s.options.annotate (codeFrom ((before.foldl Scope.enter
      ⟨u.name, none⟩).enter i) ((s.labels.afterAll before).after i) after), ?_, rfl, rfl, ?_, ?_⟩
    · rw [s.printed_append_unit u, hu, codeFrom_append, codeFrom, printed_append, printed_append,
        List.append_assoc]
    · intro hkind
      obtain ⟨kind, hkind⟩ := Option.isSome_iff_exists.mp hkind
      exact exists_label_printed hb hkind _
    · intro name hmade hmem
      obtain ⟨hkind, hnumber⟩ := number_of_mem_printed hb hmade hmem
      exact ⟨hkind, by rw [hnumber, Labels.next_afterAll]⟩
  · intro options units units' lines hperm h
    obtain ⟨hlegal, hnodup, rfl⟩ := translate_eq_ok_iff.mp h
    have hnodup' : (units'.map SourceUnit.name).Nodup := (hperm.map _).nodup_iff.mp hnodup
    refine ⟨printed_program options hnodup.of_map, ?_, ?_⟩
    · rw [← printed_program options hnodup'.of_map]
      refine translate_eq_ok_iff.mpr ⟨?_, hnodup', rfl⟩
      intro u hu
      exact hlegal u (hperm.mem_iff.mpr hu)
    · intro u hu
      rw [unitBlock, unitBlock, map_relative_codeFrom (hlegal u hu),
        map_relative_codeFrom (hlegal u hu)]

/-- A unit with two comparisons and a call between them. -/
def comparesAndCalls : SourceUnit :=
  ⟨"Main", [⟨1, .compare .eq⟩, ⟨2, .call "Main" 0⟩, ⟨3, .compare .gt⟩]⟩

/-- In a session that begins with a call and in one that holds a comparison. -/
theorem units_relocatable_comparesAndCalls :
    ∃ s t s' t' : Session, s.labels = ⟨0, 1⟩ ∧ t.labels = ⟨1, 0⟩ ∧
      (s.addUnit comparesAndCalls).value = .ok s' ∧
      (t.addUnit comparesAndCalls).value = .ok t' ∧
      (∃ a b, s'.printed = s.printed ++ a ∧ t'.printed = t.printed ++ b ∧
        a.map (relative s.labels) = b.map (relative t.labels)) ∧
      t'.labels.next .compare = 1 + 2 ∧
      ∃ lines, (translate {} [comparesAndCalls, ⟨"Other", []⟩]).value = .ok lines ∧
        (translate {} [⟨"Other", []⟩, comparesAndCalls]).value.isOk := by
  obtain ⟨hlines, hnumbers, horder, -⟩ := units_relocatable
  let s := Session.start {}
  let t := (Session.start { bootstrap := false }).append ⟨"Other", [⟨1, .compare .lt⟩]⟩
  have hs : (s.addUnit comparesAndCalls).value = .ok (s.append comparesAndCalls) := rfl
  have ht : (t.addUnit comparesAndCalls).value = .ok (t.append comparesAndCalls) := rfl
  obtain ⟨lines, h⟩ :
      ∃ lines, (translate {} [comparesAndCalls, ⟨"Other", []⟩]).value = .ok lines := ⟨_, rfl⟩
  have hother := (horder {} _ [⟨"Other", []⟩, comparesAndCalls] lines (.swap _ _ _) h).2.1
  exact ⟨s, t, _, _, rfl, rfl, hs, ht, hlines s _ t _ comparesAndCalls hs ht rfl,
    (hnumbers t _ comparesAndCalls ht).1 .compare, lines, h, by rw [hother]; rfl⟩

end HackVm
