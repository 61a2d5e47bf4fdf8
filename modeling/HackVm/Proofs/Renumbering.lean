/-
Other numbers for the labels that the translator makes up.

A made-up label ends in its number, and a second dollar sign tells the label that a call returns to
from those of a comparison (`labelKindOf`). To renumber a name is to add a difference to its number,
one for each kind (`renumberName`); lines and their texts are renumbered name by name
(`Line.renumber`, `renumberText`). The numbers are all that the code of a legal unit has from what
was translated before it:

* **`codeFrom_renumber`** — instructions translated with other numbers have the same code,
  renumbered by the differences;
* **`printed_renumber`** — lines are renumbered before or after they are printed.
-/
import HackVm.Proofs.GeneratedLabels

namespace HackVm

open Assembly Machine Template

/-! ### Names -/

/-- The kind of a made-up label. That of a call holds a dollar sign behind the first one. -/
def labelKindOf (name : String) : LabelKind :=
  if '$' ∈ name.toList.tail then .call else .compare

/-- The number at the end of a name, zero if there is none. -/
def serialNumber (name : String) : Nat :=
  (Text.readNat (serial name)).getD 0

/-- A name without the digits at its end. -/
def stem (name : String) : String :=
  String.ofList (name.toList.reverse.dropWhile Char.isDigit).reverse

/-- A name with another number, if it is a made-up label. -/
def renumberName (d : LabelKind → Int) (name : String) : String :=
  if IsMadeUp name then stem name ++ toString (serialNumber name + d (labelKindOf name)) else name

theorem stem_eq {name : String} {front : List Char} {id : Nat}
    (h : name.toList = front ++ '.' :: Nat.toDigits 10 id) :
    stem name = String.ofList (front ++ ['.']) := by
  obtain ⟨hreverse, hdigits⟩ := reverse_eq_of_number h
  rw [stem, hreverse, List.dropWhile_append_of_pos hdigits]
  simp

theorem serialNumber_eq {name : String} {front : List Char} {id : Nat}
    (h : name.toList = front ++ '.' :: Nat.toDigits 10 id) : serialNumber name = id := by
  rw [serialNumber, serial_eq h, Text.readNat_toDigits, Option.getD_some]

/-- A made-up label is renumbered to what it would be with the other number. -/
theorem renumberName_eq {d : LabelKind → Int} {name other : String} {front : List Char}
    {id id' : Nat} (hmade : IsMadeUp name) (h : name.toList = front ++ '.' :: Nat.toDigits 10 id)
    (h' : other.toList = front ++ '.' :: Nat.toDigits 10 id')
    (hid : (id' : Int) = id + d (labelKindOf name)) : renumberName d name = other := by
  rw [renumberName, if_pos hmade, stem_eq h, serialNumber_eq h, ← hid, ← String.toList_inj, h']
  have hnumber : toString (id' : Int) = toString id' := rfl
  simp [hnumber]

theorem labelKindOf_compareLabel (op : CompareOp) {part : String} (h : part ∈ compareParts)
    (id : Nat) : labelKindOf (compareLabel op part id) = .compare := by
  refine if_neg ?_
  intro hmem
  exact not_isSymbolChar_dollar (isSymbolChar_of_mem_tail_compareLabel op h id hmem)

theorem labelKindOf_returnLabel (name : String) (id : Nat) :
    labelKindOf (returnLabel name id) = .call := by
  refine if_pos ?_
  rw [toList_returnLabel]
  simp

section Numbers

variable {d : LabelKind → Int} {id id' : Nat}

theorem renumberName_compareLabel (op : CompareOp) {part : String} (h : part ∈ compareParts)
    (hid : (id' : Int) = id + d .compare) :
    renumberName d (compareLabel op part id) = compareLabel op part id' := by
  refine renumberName_eq (isMadeUp_compareLabel op part id) (toList_compareLabel op part id)
    (toList_compareLabel op part id') ?_
  rw [labelKindOf_compareLabel op h, hid]

theorem renumberName_returnLabel (name : String) (hid : (id' : Int) = id + d .call) :
    renumberName d (returnLabel name id) = returnLabel name id' := by
  refine renumberName_eq (isMadeUp_returnLabel name id) (toList_returnLabel name id)
    (toList_returnLabel name id') ?_
  rw [labelKindOf_returnLabel, hid]

theorem renumberName_of_not_isMadeUp {name : String} (h : ¬ IsMadeUp name) :
    renumberName d name = name :=
  if_neg h

end Numbers

/-! ### Lines -/

/-- A line with other numbers in the made-up label that it loads or declares. -/
def Assembly.Line.renumber (d : LabelKind → Int) : Line → Line
  | .label name => .label (renumberName d name)
  | .command (.address symbol) => .command (.address (renumberName d symbol))
  | l => l

/-- A line of text with other numbers in the made-up label that it loads or declares. -/
def renumberText (d : LabelKind → Int) (line : String) : String :=
  match line.toList with
  | '@' :: symbol => "@" ++ renumberName d (String.ofList symbol)
  | text =>
    match parenthesized? text with
    | some name => "(" ++ renumberName d (String.ofList name) ++ ")"
    | none => line

theorem isFrame_renumber (d : LabelKind → Int) (l : Line) :
    (l.renumber d).isFrame = l.isFrame := by
  cases l with
  | command c => cases c <;> rfl
  | _ => rfl

theorem renumberText_eq_self {d : LabelKind → Int} {line : String} {c : Char} {rest : List Char}
    (h : line.toList = c :: rest) (hat : c ≠ '@') (hparen : c ≠ '(') :
    renumberText d line = line := by
  unfold renumberText
  split
  · rename_i heq
    exact absurd (List.cons.inj (h.symm.trans heq)).1 hat
  · rw [h, parenthesized?_cons hparen]

/-- The text of a renumbered line is the renumbered text. -/
theorem renumberText_text (d : LabelKind → Int) {l : Line} (h : l.isKnown) :
    renumberText d l.text = (l.renumber d).text := by
  cases l with
  | opening title =>
    have htext : (Line.opening title).text.toList = '/' :: '/' :: ' ' :: title.toList := by
      simp [Line.text]
    exact renumberText_eq_self htext (by decide) (by decide)
  | closing title =>
    have htext : (Line.closing title).text.toList = '/' :: '/' :: ' ' :: '~' :: title.toList := by
      simp [Line.text]
    exact renumberText_eq_self htext (by decide) (by decide)
  | label name => simp [renumberText, parenthesized?, Line.renumber, Line.text]
  | verbatim text => cases h
  | command c =>
    cases c with
    | address symbol => simp [renumberText, Line.renumber, Line.text, Command.text]
    | compute dest comp jump =>
      obtain ⟨c, rest, htext, -, hparen, hat⟩ := head?_command_text dest comp jump
      exact renumberText_eq_self htext hat hparen

/-- Lines are renumbered before or after they are printed. -/
theorem printed_renumber (d : LabelKind → Int) (annotate : Bool) {ls : List Line}
    (h : ∀ l ∈ ls, l.isKnown) :
    printed annotate (ls.map (Line.renumber d)) = (printed annotate ls).map (renumberText d) := by
  have hkept : kept annotate (ls.map (Line.renumber d)) =
      (kept annotate ls).map (Line.renumber d) := by
    unfold kept
    split
    · rfl
    · rw [List.filter_map]
      congr 1
      refine List.filter_congr ?_
      intro l _
      rw [Function.comp_apply, isFrame_renumber]
  rw [printed, hkept, printed, List.map_map, List.map_map]
  refine List.map_congr_left ?_
  intro l hl
  exact (renumberText_text d (h l (mem_of_mem_kept hl))).symm

/-- The names on a line. -/
def Assembly.Line.names (l : Line) : List String :=
  l.symbol?.toList ++ l.label?.toList

/-- Lines without made-up labels are not changed. -/
theorem map_renumber_eq_self {d : LabelKind → Int} {ls : List Line}
    (h : ∀ l ∈ ls, ∀ name ∈ l.names, ¬ IsMadeUp name) : ls.map (Line.renumber d) = ls := by
  refine (List.map_congr_left ?_).trans (List.map_id ls)
  intro l hl
  have hl := h l hl
  cases l with
  | label name =>
    rw [Line.renumber, renumberName_of_not_isMadeUp (hl name List.mem_cons_self)]
    rfl
  | command c =>
    cases c with
    | address symbol =>
      rw [Line.renumber, renumberName_of_not_isMadeUp (hl symbol List.mem_cons_self)]
      rfl
    | compute dest comp jump => rfl
  | _ => rfl

/-! ### Templates -/

section Templates

variable {d : LabelKind → Int} {id id' : Nat}

theorem renumber_load (d : LabelKind → Int) (symbol : String) :
    (load symbol).renumber d = load (renumberName d symbol) := rfl

theorem renumber_label (d : LabelKind → Int) (name : String) :
    (Line.label name).renumber d = .label (renumberName d name) := rfl

theorem compare_renumber (op : CompareOp) (hid : (id' : Int) = id + d .compare) :
    (compare op id).map (Line.renumber d) = compare op id' := by
  have hlabel : ∀ part ∈ compareParts,
      renumberName d (compareLabel op part id) = compareLabel op part id' :=
    fun part hpart => renumberName_compareLabel op hpart hid
  simp only [compareParts, List.mem_cons, List.not_mem_nil, or_false, forall_eq_or_imp, forall_eq]
    at hlabel
  obtain ⟨hneg, hsub, htest, htrue, hend⟩ := hlabel
  have hpops : (popTo scratchA ++ popTo scratchB).map (Line.renumber d) =
      popTo scratchA ++ popTo scratchB := map_renumber_eq_self (by decide)
  have hzero : (pushConstant 0).map (Line.renumber d) = pushConstant 0 :=
    map_renumber_eq_self (by decide)
  have hone : (pushConstant (-1)).map (Line.renumber d) = pushConstant (-1) :=
    map_renumber_eq_self (by decide)
  have hA : renumberName d scratchA = scratchA := renumberName_of_not_isMadeUp (by decide)
  have hB : renumberName d scratchB = scratchB := renumberName_of_not_isMadeUp (by decide)
  unfold Template.compare
  rw [List.map_append, List.map_append, List.map_append, List.map_append, List.map_append, hpops,
    hzero, hone]
  simp only [List.map_cons, List.map_nil, renumber_load, renumber_label, hneg, hsub, htest, htrue,
    hend, hA, hB]
  rfl

theorem call_renumber {name : String} (hname : ¬ IsMadeUp name) (args : UInt16)
    (hid : (id' : Int) = id + d .call) :
    (call name args id).map (Line.renumber d) = call name args id' := by
  have hreturn : renumberName d (returnLabel name id) = returnLabel name id' :=
    renumberName_returnLabel name hid
  have hcallee : renumberName d name = name := renumberName_of_not_isMadeUp hname
  have hsize : renumberName d (toString (args.toNat + 5)) = toString (args.toNat + 5) :=
    renumberName_of_not_isMadeUp (not_isMadeUp_toString _)
  have hcell : ∀ cell ∈ templateCells, renumberName d cell = cell := by
    intro cell hcell
    have hall : ∀ cell ∈ templateCells, ¬ IsMadeUp cell := by decide
    exact renumberName_of_not_isMadeUp (hall cell hcell)
  have hpush : pushD.map (Line.renumber d) = pushD := map_renumber_eq_self (by decide)
  have hframe : (frame.flatMap pushCell).map (Line.renumber d) = frame.flatMap pushCell :=
    map_renumber_eq_self (by decide)
  unfold call
  rw [List.map_append, List.map_append, List.map_append, hpush, hframe]
  simp only [List.map_cons, List.map_nil, renumber_load, renumber_label, loadNumber, hreturn,
    hcallee, hsize, hcell "SP" (by decide), hcell "ARG" (by decide), hcell "LCL" (by decide)]
  rfl

theorem renumber_framed (d : LabelKind → Int) (title : String) (body : List Line) :
    (framed title body).map (Line.renumber d) = framed title (body.map (Line.renumber d)) := by
  simp [framed, Line.renumber]

end Templates

/-! ### Instructions -/

/-- Whether numbers for labels differ from others by given differences. -/
def Labels.Shifted (d : LabelKind → Int) (labels labels' : Labels) : Prop :=
  ∀ kind, (labels'.next kind : Int) = labels.next kind + d kind

theorem Labels.next_take (labels : Labels) (kind other : LabelKind) :
    (labels.take kind).next other = labels.next other + if kind = other then 1 else 0 := by
  cases kind <;> cases other <;> rfl

theorem Labels.next_after (labels : Labels) (i : Instruction) (kind : LabelKind) :
    (labels.after i).next kind =
      labels.next kind + if i.labelKind? = some kind then 1 else 0 := by
  unfold Labels.after
  cases i.labelKind? with
  | none => simp
  | some taken => simp [Labels.next_take]

variable {d : LabelKind → Int} {labels labels' : Labels}

/-- An instruction takes as many numbers whatever they are. -/
theorem Labels.Shifted.after (h : labels.Shifted d labels') (i : Instruction) :
    (labels.after i).Shifted d (labels'.after i) := by
  intro kind
  have := h kind
  rw [Labels.next_after, Labels.next_after]
  omega

theorem Labels.Shifted.afterAll (h : labels.Shifted d labels') (is : List Instruction) :
    (labels.afterAll is).Shifted d (labels'.afterAll is) := by
  induction is generalizing labels labels' with
  | nil => exact h
  | cons i rest ih => exact ih (h.after i)

theorem madeUp_eq_nil {scope : Scope} {i : Instruction} (h : i.labelKind? = none) :
    (Block.instruction scope labels i).madeUp = [] := by
  cases i <;> first | rfl | cases h

/-- The names that a legal block has on its lines and that are made up are made up for it. -/
theorem mem_madeUp_of_mem_names {b : Block} (hb : b.Legal) {l : Line} (hl : l ∈ b.code)
    {name : String} (hname : name ∈ l.names) (hmade : IsMadeUp name) : name ∈ b.madeUp := by
  rcases List.mem_append.mp hname with hsymbol | hlabel
  · refine mem_madeUp_of_refers hb hmade (refers_of_mem_symbols ?_)
    exact List.mem_filterMap.mpr ⟨l, hl, Option.mem_toList.mp hsymbol⟩
  · refine mem_madeUp_of_mem_label? hb hmade ?_
    exact List.mem_filterMap.mpr ⟨l, hl, Option.mem_toList.mp hlabel⟩

/-- The code of an instruction with other numbers is its code renumbered. -/
theorem code_renumber {scope : Scope} {i : Instruction}
    (hb : (Block.instruction scope labels i).Legal) (h : labels.Shifted d labels') :
    i.code scope labels' = (i.code scope labels).map (Line.renumber d) := by
  cases hkind : i.labelKind? with
  | none =>
    -- the numbers are not used, and there is nothing to renumber
    have hsame : i.code scope labels' = i.code scope labels := by
      cases i <;> first | rfl | cases hkind
    rw [hsame, map_renumber_eq_self]
    intro l hl name hname hmade
    have hmem := mem_madeUp_of_mem_names hb hl hname hmade
    rw [madeUp_eq_nil hkind] at hmem
    exact List.not_mem_nil hmem
  | some kind =>
    cases i with
    | compare op =>
      rw [Instruction.code, Instruction.code, renumber_framed]
      exact congrArg _ (compare_renumber op (h .compare)).symm
    | call callee n =>
      have hcallee : ¬ IsMadeUp callee := not_isMadeUp_of_isSymbol (isSymbol_of_readSymbol hb.2.2)
      rw [Instruction.code, Instruction.code, renumber_framed]
      exact congrArg _ (call_renumber hcallee n (h .call)).symm
    | _ => cases hkind

/-- The code of instructions with other numbers is their code renumbered. -/
theorem codeFrom_renumber {scope : Scope} {is : List Instruction}
    (hlegal : ∀ b ∈ blocksFrom scope labels is, b.Legal) (h : labels.Shifted d labels') :
    codeFrom scope labels' is = (codeFrom scope labels is).map (Line.renumber d) := by
  -- each instruction leaves the numbers to the next with the differences unchanged
  induction is generalizing scope labels labels' with
  | nil => rfl
  | cons i rest ih =>
    have hrest := ih (fun b hb => hlegal b (List.mem_cons_of_mem _ hb)) (h.after i)
    rw [codeFrom, codeFrom, List.map_append, ← hrest,
      ← code_renumber (hlegal _ List.mem_cons_self) h]

end HackVm
