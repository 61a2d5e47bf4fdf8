/-
Printed lines are read back.

A line of assembly is proper if its names are made of the characters of symbols
and of dollar signs and its jump is a known one (`Line.Proper`). What the machine
reads from the text of a proper line is what was written:

* **`item?_text`** — a comment is read as nothing, a label as its name and a command as its text;
* **`readCommand_text`** — the text of a command is read as the command;
* **`load_printed`** — to load printed lines is to lay out their labels and to resolve their
  commands, with the comments of frames or without.
-/
import HackVm.Proofs.Symbols
import Mathlib.Data.List.TakeWhile

namespace HackVm

open Assembly Machine Text

/-- A line that the machine reads as it was meant. -/
def Assembly.Line.Proper : Line → Prop
  | .opening _ | .closing _ => True
  | .label name => IsTargetName name
  | .command (.address symbol) => IsTargetName symbol
  | .command (.compute _ _ jump) => ∀ condition, jump ≠ .unknown condition
  | .verbatim _ => False

/-- The name that a line declares. -/
def Assembly.Line.label? : Line → Option String
  | .label name => some name
  | _ => none

/-- The command on a line. -/
def Assembly.Line.command? : Line → Option Command
  | .command c => some c
  | _ => none

/-- The commands on lines. -/
def commands (ls : List Line) : List Command :=
  ls.filterMap Line.command?

/-- What the machine reads on a line. -/
def Assembly.Line.item? : Line → Option Item
  | .label name => some (.label name)
  | .command c => some (.command c.text.toList)
  | _ => none

/-! ### Texts without blanks and comments -/

/-- A character that is part of the code wherever it stands. -/
def IsCodeChar (c : Char) : Prop :=
  c ≠ '/' ∧ isBlank c = false

instance (c : Char) : Decidable (IsCodeChar c) :=
  inferInstanceAs (Decidable (_ ∧ _))

theorem isCodeChar_of_isSymbolChar {c : Char} (h : isSymbolChar c) : IsCodeChar c := by
  constructor
  · rintro rfl
    exact absurd h (by decide)
  · -- letters and digits lie between the ranges of blanks
    simp only [isBlank, blankRanges, List.any_cons, List.any_nil, Bool.or_false,
      Bool.or_eq_false_iff, Bool.and_eq_false_iff, decide_eq_false_iff_not]
    have hkinds : isSymbolChar c = (c.isUpper || c.isLower || c.isDigit ||
        c = '_' || c = '.' || c = ':') := rfl
    have hupper : c.isUpper = decide (c.val ≥ 'A'.val ∧ c.val ≤ 'Z'.val) := rfl
    have hlower : c.isLower = (c.val ≥ 'a'.val && c.val ≤ 'z'.val) := rfl
    simp only [hkinds, hupper, hlower, Char.isDigit, Bool.or_eq_true, Bool.and_eq_true,
      decide_eq_true_eq] at h
    rcases h with (((((h | h) | h) | rfl) | rfl) | rfl)
    · have h₁ : 65 ≤ c.toNat := h.1
      have h₂ : c.toNat ≤ 90 := h.2
      omega
    · have h₁ : 97 ≤ c.toNat := h.1
      have h₂ : c.toNat ≤ 122 := h.2
      omega
    · have h₁ : 48 ≤ c.toNat := h.1
      have h₂ : c.toNat ≤ 57 := h.2
      omega
    all_goals decide

theorem isCodeChar_of_isTargetName {name : String} (h : IsTargetName name) :
    ∀ c ∈ name.toList, IsCodeChar c := by
  intro c hc
  rcases h c hc with hsymbol | rfl
  · exact isCodeChar_of_isSymbolChar hsymbol
  · exact ⟨by decide, by decide⟩

theorem beforeSlashes_eq {text : List Char} (h : ∀ c ∈ text, c ≠ '/') :
    beforeSlashes text = text := by
  induction text with
  | nil => rfl
  | cons c rest ih =>
    have hc : c ≠ '/' := h c (by simp)
    rw [beforeSlashes, ih fun d hd => h d (by simp [hd])]
    -- only two slashes begin a comment
    rintro rest' rfl
    exact absurd rfl hc

theorem trim_eq {text : List Char} (h : ∀ c ∈ text, isBlank c = false) : trim text = text := by
  have hdrop : ∀ xs : List Char, (∀ c ∈ xs, isBlank c = false) → xs.dropWhile isBlank = xs := by
    intro xs hxs
    cases xs with
    | nil => rfl
    | cons c rest => simp [hxs c (by simp)]
  rw [trim, hdrop text h, hdrop _ (by simpa using h), List.reverse_reverse]

theorem strip_eq {text : List Char} (h : ∀ c ∈ text, IsCodeChar c) : strip text = text := by
  rw [strip, beforeSlashes_eq fun c hc => (h c hc).1, trim_eq fun c hc => (h c hc).2]

theorem strip_comment (rest : List Char) : strip ('/' :: '/' :: rest) = [] := rfl

/-! ### Cutting a text -/

theorem cutAt_append {c : Char} {left right : List Char} (h : c ∉ left) :
    cutAt c (left ++ c :: right) = some (left, right) := by
  have hleft : ∀ d ∈ left, decide (d ≠ c) = true := by
    intro d hd
    simpa using fun heq : d = c => h (heq ▸ hd)
  unfold cutAt
  rw [List.dropWhile_append_of_pos hleft, List.takeWhile_append_of_pos hleft]
  simp

theorem cutAt_eq_none {c : Char} {text : List Char} (h : c ∉ text) : cutAt c text = none := by
  have htext : ∀ d ∈ text, decide (d ≠ c) = true := by
    intro d hd
    simpa using fun heq : d = c => h (heq ▸ hd)
  unfold cutAt
  rw [List.dropWhile_eq_nil_iff.mpr htext]

/-! ### Commands -/

/-- The characters that computing commands are written with. -/
def commandChars : List Char :=
  "ADM01-+!&|=;JGTEQLNP".toList

theorem isCodeChar_of_mem_commandChars {c : Char} (h : c ∈ commandChars) : IsCodeChar c := by
  have hall : ∀ c ∈ commandChars, IsCodeChar c := List.all_iff_forall_prop.mp (by decide)
  exact hall c h

theorem mem_commandChars_comp (comp : Comp) :
    ∀ c ∈ comp.text.toList, c ∈ commandChars ∧ c ≠ ';' ∧ c ≠ '=' := by
  refine List.all_iff_forall_prop.mp ?_
  cases comp <;> (try cases ‹Source›) <;> decide

theorem comp_text_ne_nil (comp : Comp) : comp.text.toList ≠ [] := by
  cases comp <;> (try cases ‹Source›) <;> decide

/-- The letters of a destination. -/
def destLetters (dest : Dest) : String :=
  (if dest.a then "A" else "") ++ (if dest.m then "M" else "") ++ (if dest.d then "D" else "")

theorem mem_destLetters (dest : Dest) :
    ∀ c ∈ (destLetters dest).toList, c ∈ commandChars ∧ c ≠ ';' ∧ c ≠ '=' := by
  refine List.all_iff_forall_prop.mp ?_
  obtain ⟨a, m, d⟩ := dest
  cases a <;> cases m <;> cases d <;> decide

theorem contains_destLetters (dest : Dest) :
    (⟨(destLetters dest).toList.contains 'A', (destLetters dest).toList.contains 'M',
      (destLetters dest).toList.contains 'D'⟩ : Dest) = dest := by
  obtain ⟨a, m, d⟩ := dest
  cases a <;> cases m <;> cases d <;> decide

theorem dest_text_eq (dest : Dest) :
    dest.text = if destLetters dest = "" then "" else destLetters dest ++ "=" := rfl

/-- The assignment of a command is cut at the equals sign into its places and its computation. -/
theorem cutAt_assignment (dest : Dest) (comp : Comp) :
    (cutAt '=' (dest.text.toList ++ comp.text.toList)).getD
        ([], dest.text.toList ++ comp.text.toList) =
      ((destLetters dest).toList, comp.text.toList) := by
  have hcomp : '=' ∉ comp.text.toList := by
    intro h
    exact (mem_commandChars_comp comp _ h).2.2 rfl
  have hdest : '=' ∉ (destLetters dest).toList := by
    intro h
    exact (mem_destLetters dest _ h).2.2 rfl
  rw [dest_text_eq]
  split
  · -- without a place there is no equals sign either
    rename_i hempty
    rw [hempty]
    simp [cutAt_eq_none hcomp]
  · rw [show (destLetters dest ++ "=").toList ++ comp.text.toList =
        (destLetters dest).toList ++ '=' :: comp.text.toList by simp, cutAt_append hdest]
    rfl

theorem mem_commandChars_dest (dest : Dest) :
    ∀ c ∈ dest.text.toList, c ∈ commandChars ∧ c ≠ ';' := by
  refine List.all_iff_forall_prop.mp ?_
  obtain ⟨a, m, d⟩ := dest
  cases a <;> cases m <;> cases d <;> decide

theorem mem_commandChars_jump {jump : Jump} (h : ∀ condition, jump ≠ .unknown condition) :
    ∀ c ∈ jump.text.toList, c ∈ commandChars := by
  cases jump with
  | unknown condition => exact absurd rfl (h condition)
  | _ => exact List.all_iff_forall_prop.mp (by decide)

theorem mem_commandChars_compute {dest : Dest} {comp : Comp} {jump : Jump}
    (h : ∀ condition, jump ≠ .unknown condition) :
    ∀ c ∈ (Command.compute dest comp jump).text.toList, c ∈ commandChars := by
  intro c hc
  simp only [Command.text, String.toList_append, List.mem_append] at hc
  rcases hc with (hc | hc) | hc
  · exact (mem_commandChars_dest dest c hc).1
  · exact (mem_commandChars_comp comp c hc).1
  · exact mem_commandChars_jump h c hc

theorem not_mem_assignment (dest : Dest) (comp : Comp) :
    ';' ∉ dest.text.toList ++ comp.text.toList := by
  intro hmem
  rcases List.mem_append.mp hmem with hmem | hmem
  · exact (mem_commandChars_dest dest _ hmem).2 rfl
  · exact (mem_commandChars_comp comp _ hmem).2.1 rfl

theorem toList_compute (dest : Dest) (comp : Comp) (jump : Jump) :
    (Command.compute dest comp jump).text.toList =
      (dest.text.toList ++ comp.text.toList) ++ jump.text.toList := by
  simp [Command.text]

/-- A command with a jump is cut at the semicolon into its assignment and the jump, and one without
a jump holds no semicolon. -/
theorem cutAt_compute (dest : Dest) (comp : Comp) {jump : Jump}
    (h : ∀ condition, jump ≠ .unknown condition) :
    (cutAt ';' (Command.compute dest comp jump).text.toList = none ∧ jump = .never) ∨
      ∃ word : String, Jump.ofMnemonic word = jump ∧
        cutAt ';' (Command.compute dest comp jump).text.toList =
          some (dest.text.toList ++ comp.text.toList, word.toList) := by
  rw [toList_compute]
  cases hword : jump.mnemonic? with
  | none =>
    have hnever : jump = .never := by cases jump <;> first | rfl | cases hword
    exact .inl ⟨by simp [Jump.text, hword, cutAt_eq_none (not_mem_assignment dest comp)], hnever⟩
  | some word =>
    have hback : Jump.ofMnemonic word = jump := by
      cases jump with
      | unknown condition => exact absurd rfl (h condition)
      | _ => cases hword <;> rfl
    refine .inr ⟨word, hback, ?_⟩
    rw [show jump.text.toList = ';' :: word.toList by simp [Jump.text, hword]]
    exact cutAt_append (not_mem_assignment dest comp)

/-- A computing command is read back from its text. -/
theorem readCompute?_text (dest : Dest) (comp : Comp) {jump : Jump}
    (h : ∀ condition, jump ≠ .unknown condition) :
    readCompute? (Command.compute dest comp jump).text.toList =
      some (.compute dest comp jump) := by
  have hblank : ((Command.compute dest comp jump).text.toList).filter (fun c => !isBlank c) =
      (Command.compute dest comp jump).text.toList := by
    rw [List.filter_eq_self]
    intro c hc
    simp [(isCodeChar_of_mem_commandChars (mem_commandChars_compute h c hc)).2]
  unfold readCompute?
  rcases cutAt_compute dest comp h with ⟨hcut, rfl⟩ | ⟨word, hback, hcut⟩
  · have hplain : (Command.compute dest comp .never).text.toList =
        dest.text.toList ++ comp.text.toList := by simp [toList_compute, Jump.text, Jump.mnemonic?]
    simp only [hblank, hcut]
    simp only [hplain, cutAt_assignment, String.ofList_toList, Comp.ofText?_text,
      contains_destLetters, Option.map_some]
  · simp only [hblank, hcut, cutAt_assignment, String.ofList_toList, Comp.ofText?_text,
      contains_destLetters, Option.map_some, hback]

/-- A computing command begins with a letter of its places or with its computation. -/
theorem head?_command_text (dest : Dest) (comp : Comp) (jump : Jump) :
    ∃ c rest, (Command.compute dest comp jump).text.toList = c :: rest ∧
      IsCodeChar c ∧ c ≠ '(' ∧ c ≠ '@' := by
  have hfront : ∀ c ∈ dest.text.toList ++ comp.text.toList,
      IsCodeChar c ∧ c ≠ '(' ∧ c ≠ '@' := by
    intro c hc
    have hmem : c ∈ commandChars := by
      rcases List.mem_append.mp hc with hc | hc
      · exact (mem_commandChars_dest dest c hc).1
      · exact (mem_commandChars_comp comp c hc).1
    have hall : ∀ c ∈ commandChars, c ≠ '(' ∧ c ≠ '@' := List.all_iff_forall_prop.mp (by decide)
    exact ⟨isCodeChar_of_mem_commandChars hmem, hall c hmem⟩
  cases hcons : dest.text.toList ++ comp.text.toList with
  | nil => exact absurd (List.append_eq_nil_iff.mp hcons).2 (comp_text_ne_nil comp)
  | cons c rest =>
    refine ⟨c, rest ++ jump.text.toList, ?_, hfront c (by simp [hcons])⟩
    simp only [Command.text, String.toList_append, hcons, List.cons_append]

/-- A command is read back from its text. -/
theorem readCommand_text {c : Command} (h : (Line.command c).Proper) :
    readCommand c.text.toList = .ok c := by
  cases c with
  | address symbol =>
    rw [show (Command.address symbol).text.toList = '@' :: symbol.toList by simp [Command.text]]
    simp [readCommand]
  | compute dest comp jump =>
    obtain ⟨first, rest, htext, -, -, hat⟩ :=
      head?_command_text dest comp jump
    have hread := readCompute?_text dest comp h
    rw [htext] at hread ⊢
    unfold readCommand
    split
    · rename_i heq
      exact absurd (List.cons.inj heq).1 hat
    · rw [hread]

/-! ### Lines -/

theorem isCodeChar_command_text {c : Command} (h : (Line.command c).Proper) :
    ∀ ch ∈ c.text.toList, IsCodeChar ch := by
  cases c with
  | address symbol =>
    intro ch hch
    rw [show (Command.address symbol).text.toList = '@' :: symbol.toList by simp [Command.text]]
      at hch
    rcases List.mem_cons.mp hch with rfl | hch
    · exact ⟨by decide, by decide⟩
    · exact isCodeChar_of_isTargetName h ch hch
  | compute dest comp jump =>
    intro ch hch
    exact isCodeChar_of_mem_commandChars (mem_commandChars_compute h ch hch)

theorem head?_command {c : Command} :
    ∃ first rest, c.text.toList = first :: rest ∧ IsCodeChar first ∧ first ≠ '(' := by
  cases c with
  | address symbol =>
    exact ⟨'@', symbol.toList, by simp [Command.text], ⟨by decide, by decide⟩, by decide⟩
  | compute dest comp jump =>
    obtain ⟨first, rest, htext, hcode, hparen, -⟩ :=
      head?_command_text dest comp jump
    exact ⟨first, rest, htext, hcode, hparen⟩

theorem parenthesized?_cons {c : Char} (h : c ≠ '(') (rest : List Char) :
    parenthesized? (c :: rest) = none := by
  unfold parenthesized?
  split
  · rename_i heq
    exact absurd (List.cons.inj heq).1 h
  · rfl

theorem item?_label {name : String} (h : IsTargetName name) :
    Machine.item? (Line.label name).text = some (.label name) := by
  have htext : (Line.label name).text.toList = '(' :: (name.toList ++ [')']) := by
    simp [Line.text]
  have hcode : ∀ c ∈ '(' :: (name.toList ++ [')']), IsCodeChar c := by
    intro c hc
    simp only [List.mem_cons, List.mem_append, List.not_mem_nil, or_false] at hc
    rcases hc with rfl | hc | rfl
    · exact ⟨by decide, by decide⟩
    · exact isCodeChar_of_isTargetName h c hc
    · exact ⟨by decide, by decide⟩
  unfold Machine.item?
  rw [htext, strip_eq hcode]
  simp [parenthesized?]

/-- What the machine reads from a printed line is what stands on it. -/
theorem item?_text {l : Line} (h : l.Proper) : Machine.item? l.text = l.item? := by
  cases l with
  | opening title =>
    rw [show (Line.opening title).text = "// " ++ title from rfl]
    simp [Machine.item?, strip_comment, Line.item?]
  | closing title =>
    rw [show (Line.closing title).text = "// ~" ++ title from rfl]
    simp [Machine.item?, strip_comment, Line.item?]
  | label name => exact item?_label h
  | command c =>
    obtain ⟨first, rest, htext, -, hparen⟩ := head?_command (c := c)
    have hstrip := strip_eq (isCodeChar_command_text h)
    rw [htext] at hstrip
    simp [Machine.item?, Line.text, Line.item?, htext, hstrip, parenthesized?_cons hparen]
  | verbatim text => exact h.elim

/-- The comments of frames are read as nothing, so it does not matter whether they are printed. -/
theorem filterMap_item?_printed (annotate : Bool) {ls : List Line} (h : ∀ l ∈ ls, l.Proper) :
    (printed annotate ls).filterMap Machine.item? = ls.filterMap Line.item? := by
  induction ls with
  | nil => cases annotate <;> rfl
  | cons l rest ih =>
    have hrest := ih fun m hm => h m (by simp [hm])
    have hl := item?_text (h l (by simp))
    rw [show l :: rest = [l] ++ rest from rfl, printed_append, List.filterMap_append, hrest,
      List.filterMap_append]
    congr 1
    -- the comment of a frame is read as nothing, whether it is printed or not
    cases hframe : l.isFrame with
    | false => cases annotate <;> simp [printed, kept, hframe, hl, List.filterMap_cons]
    | true =>
      have hnone : l.item? = none := by cases l <;> first | rfl | cases hframe
      cases annotate <;> simp [printed, kept, hframe, hl, hnone]

/-! ### Lines that load or declare a name -/

/-- The symbol that a line loads. -/
def Assembly.Line.symbol? : Line → Option String
  | .command (.address symbol) => some symbol
  | _ => none

theorem text_eq_address_iff {l : Line} (h : l.Proper) (name : String) :
    l.text = "@" ++ name ↔ l.symbol? = some name := by
  rw [← String.toList_inj]
  have hname : ("@" ++ name).toList = '@' :: name.toList := by simp
  rw [hname]
  cases l with
  | opening title => simp [Line.text, Line.symbol?]
  | closing title => simp [Line.text, Line.symbol?]
  | label other => simp [Line.text, Line.symbol?]
  | verbatim text => exact h.elim
  | command c =>
    cases c with
    | address symbol => simp [Line.text, Line.symbol?, Command.text, String.toList_inj]
    | compute dest comp jump =>
      obtain ⟨first, rest, htext, -, -, hat⟩ :=
        head?_command_text dest comp jump
      simp [Line.text, Line.symbol?, htext, hat]

theorem text_eq_label_iff {l : Line} (h : l.Proper) (name : String) :
    l.text = "(" ++ name ++ ")" ↔ l.label? = some name := by
  rw [← String.toList_inj]
  have hname : ("(" ++ name ++ ")").toList = '(' :: (name.toList ++ [')']) := by simp
  rw [hname]
  cases l with
  | opening title => simp [Line.text, Line.label?]
  | closing title => simp [Line.text, Line.label?]
  | label other => simp [Line.text, Line.label?, String.toList_inj]
  | verbatim text => exact h.elim
  | command c =>
    obtain ⟨first, rest, htext, -, hparen⟩ := head?_command (c := c)
    simp [Line.text, Line.label?, htext, hparen]

/-- Printing keeps every line that is no comment. -/
theorem filterMap_kept {α : Type} {f : Line → Option α} (hf : ∀ l : Line, l.isFrame → f l = none)
    (annotate : Bool) (ls : List Line) : (kept annotate ls).filterMap f = ls.filterMap f := by
  cases annotate with
  | true => rfl
  | false =>
    rw [kept, if_neg Bool.false_ne_true, List.filterMap_filter]
    congr 1
    funext l
    cases hl : l.isFrame <;> simp [hf, hl]

theorem mem_of_mem_kept {annotate : Bool} {ls : List Line} {l : Line}
    (h : l ∈ kept annotate ls) : l ∈ ls := by
  unfold kept at h
  split at h
  · exact h
  · exact (List.mem_filter.mp h).1

/-- Printing keeps a line that is no comment. -/
theorem text_mem_printed {annotate : Bool} {ls : List Line} {l : Line} (hl : l ∈ ls)
    (hframe : l.isFrame = false) : l.text ∈ printed annotate ls := by
  refine List.mem_map_of_mem ?_
  unfold kept
  split
  · exact hl
  · exact List.mem_filter.mpr ⟨hl, by simp [hframe]⟩

theorem label?_of_isFrame {l : Line} (h : l.isFrame) : l.label? = none := by
  cases l <;> first | rfl | cases h

theorem command?_of_isFrame {l : Line} (h : l.isFrame) : l.command? = none := by
  cases l <;> first | rfl | cases h

theorem symbol?_of_isFrame {l : Line} (h : l.isFrame) : l.symbol? = none := by
  cases l <;> first | rfl | cases h

theorem address_mem_printed_iff {annotate : Bool} {ls : List Line} (h : ∀ l ∈ ls, l.Proper)
    {name : String} :
    "@" ++ name ∈ printed annotate ls ↔ name ∈ ls.filterMap Line.symbol? := by
  rw [← filterMap_kept (fun _ => symbol?_of_isFrame) annotate ls, printed, List.mem_map,
    List.mem_filterMap]
  refine exists_congr ?_
  intro l
  refine and_congr_right ?_
  intro hl
  exact text_eq_address_iff (h l (mem_of_mem_kept hl)) name

theorem label_mem_printed_iff {annotate : Bool} {ls : List Line} (h : ∀ l ∈ ls, l.Proper)
    {name : String} :
    "(" ++ name ++ ")" ∈ printed annotate ls ↔ name ∈ ls.filterMap Line.label? := by
  rw [← filterMap_kept (fun _ => label?_of_isFrame) annotate ls, printed, List.mem_map,
    List.mem_filterMap]
  refine exists_congr ?_
  intro l
  refine and_congr_right ?_
  intro hl
  exact text_eq_label_iff (h l (mem_of_mem_kept hl)) name

/-- A name stands on as many printed lines as a label as it is declared. -/
theorem count_label_printed {annotate : Bool} {ls : List Line} (h : ∀ l ∈ ls, l.Proper)
    (name : String) :
    (printed annotate ls).count ("(" ++ name ++ ")") = (ls.filterMap Line.label?).count name := by
  rw [← filterMap_kept (fun _ => label?_of_isFrame) annotate ls, printed]
  have hkept : ∀ l ∈ kept annotate ls, l.Proper := by
    intro l hl
    exact h l (mem_of_mem_kept hl)
  -- what is printed is any list of proper lines from here on
  generalize kept annotate ls = ks at hkept ⊢
  induction ks with
  | nil => rfl
  | cons l rest ih =>
    have hrest := ih fun m hm => hkept m (by simp [hm])
    have hl := text_eq_label_iff (hkept l (by simp)) name
    rw [List.map_cons, List.count_cons, hrest]
    cases hlabel : l.label? with
    | none =>
      rw [hlabel] at hl
      simp [List.filterMap_cons_none hlabel, hl]
    | some other =>
      rw [hlabel] at hl
      simp [List.filterMap_cons_some hlabel, List.count_cons, hl]

/-- Whether a line of text is neither a comment nor a label. -/
def isCodeLine (line : String) : Bool :=
  !(['/', '/'].isPrefixOf line.toList || ['('].isPrefixOf line.toList)

theorem isCodeLine_text {l : Line} (h : l.Proper) : isCodeLine l.text = l.command?.isSome := by
  cases l with
  | opening title => simp [isCodeLine, Line.text, Line.command?]
  | closing title => simp [isCodeLine, Line.text, Line.command?]
  | label name => simp [isCodeLine, Line.text, Line.command?]
  | command c =>
    obtain ⟨first, rest, htext, hcode, hparen⟩ := head?_command (c := c)
    simp [isCodeLine, Line.text, Line.command?, htext, List.isPrefixOf, hparen.symm,
      hcode.1.symm]
  | verbatim text => exact h.elim

/-- The printed lines that are neither comments nor labels are as many as the commands. -/
theorem countP_isCodeLine_printed (annotate : Bool) {ls : List Line} (h : ∀ l ∈ ls, l.Proper) :
    (printed annotate ls).countP isCodeLine = (commands ls).length := by
  rw [commands, ← filterMap_kept (fun _ => command?_of_isFrame) annotate ls, printed,
    List.countP_map, List.length_filterMap_eq_countP]
  refine List.countP_congr ?_
  intro l hl
  rw [Function.comp_apply, isCodeLine_text (h l (mem_of_mem_kept hl))]

/-! ### Loading -/

/-- The layout of the labels of lines. -/
def layOut (ls : List Line) : Except LoadError Layout :=
  (ls.filterMap Line.item?).foldlM Layout.add {}

theorem mapM_readCommand {ls : List Line} (h : ∀ l ∈ ls, l.Proper) :
    ((ls.filterMap Line.item?).filterMap Item.command?).mapM readCommand =
      .ok (ls.filterMap Line.command?) := by
  induction ls with
  | nil => rfl
  | cons l rest ih =>
    have hrest := ih fun m hm => h m (by simp [hm])
    cases l with
    | command c =>
      simp [Line.item?, Item.command?, Line.command?, readCommand_text (h (.command c) (by simp)),
        hrest, bind, Except.bind, pure, Except.pure]
    | verbatim text => exact (h (.verbatim text) (by simp)).elim
    | _ => simpa [Line.item?, Item.command?, Line.command?, List.filterMap_cons] using hrest

/-- To load printed lines is to lay out their labels and to resolve their commands. -/
theorem load_printed (annotate : Bool) {ls : List Line} (h : ∀ l ∈ ls, l.Proper) :
    load (printed annotate ls) =
      (layOut ls).map fun layout =>
        { code := resolve layout.labels (ls.filterMap Line.command?),
          labels := layout.labels } := by
  unfold load layOut
  simp only [filterMap_item?_printed annotate h]
  cases (ls.filterMap Line.item?).foldlM Layout.add {} with
  | error e => rfl
  | ok layout => simp [mapM_readCommand h, bind, Except.bind, Except.map, pure, Except.pure]

end HackVm
