/-
The names that stand in an assembly program.

Names of the program are symbols, so they hold no dollar sign. A label of the
program is its scope, a dollar sign and its name; a label that the translator
makes up begins with a dollar sign (`IsMadeUp`) and ends in its number. From
this follows that names of different kinds differ:

* **`not_isMadeUp_of_isSymbol`**, **`not_isMadeUp_label`**, **`not_isMadeUp_static`** — no name of
  the program is a made-up label;
* **`label_ne_of_isSymbol`** — a label of the program is no symbol;
* **`number_eq_of_compareLabel_eq`**, **`number_eq_of_returnLabel_eq`**,
  **`compareLabel_ne_returnLabel`** — made-up labels that are equal have one number and one kind;
* **`fixed?_of_isMadeUp`**, **`fixed?_label`**, **`fixed?_static`** — none of them is read as a
  number or as a cell that has a name of its own.
-/
import HackVm.Assembly.Template
import HackVm.Machine.Loader
import HackVm.Symbol
import Mathlib.Data.Bool.AllAny

namespace HackVm

open Assembly Machine Template

/-- A name made of the characters of symbols and of dollar signs. -/
def IsTargetName (name : String) : Prop :=
  ∀ c ∈ name.toList, isSymbolChar c ∨ c = '$'

/-- A name that begins with a dollar sign, as the labels do that the translator makes up. -/
def IsMadeUp (name : String) : Prop :=
  name.toList.head? = some '$'

instance (name : String) : Decidable (IsMadeUp name) :=
  inferInstanceAs (Decidable (_ = _))

/-! ### Characters -/

theorem isSymbolChar_of_isDigit {c : Char} (h : c.isDigit) : isSymbolChar c := by
  simp [isSymbolChar, Char.isAlphanum, h]

theorem not_isSymbolChar_dollar : ¬ isSymbolChar '$' := by decide

theorem isSymbolChar_of_mem {name : String} (h : isSymbol name) {c : Char}
    (hc : c ∈ name.toList) : isSymbolChar c := by
  unfold isSymbol at h
  cases hname : name.toList with
  | nil => simp [hname] at hc
  | cons first rest =>
    simp only [hname, isSymbolText, Bool.and_eq_true, List.all_eq_true] at h
    rw [hname] at hc
    rcases List.mem_cons.mp hc with rfl | hc
    · exact h.1.2
    · exact h.2 c hc

/-- A symbol begins with a character that may stand in one and is no digit. -/
theorem exists_cons_of_isSymbol {name : String} (h : isSymbol name) :
    ∃ c rest, name.toList = c :: rest ∧ isSymbolChar c ∧ ¬ c.isDigit := by
  unfold isSymbol at h
  cases hname : name.toList with
  | nil => simp [hname, isSymbolText] at h
  | cons c rest =>
    simp only [hname, isSymbolText, Bool.and_eq_true, Bool.not_eq_true'] at h
    exact ⟨c, rest, rfl, h.1.2, by simp [h.1.1]⟩

theorem isSymbolChar_of_mem_toDigits {n : Nat} {c : Char} (hc : c ∈ Nat.toDigits 10 n) :
    isSymbolChar c :=
  isSymbolChar_of_isDigit (Nat.isDigit_of_mem_toDigits (by decide) (by decide) hc)

theorem isDigit_of_mem_toString {n : Nat} {c : Char} (h : c ∈ (toString n).toList) : c.isDigit :=
  Nat.isDigit_of_mem_toDigits (b := 10) (n := n) (by decide) (by decide) (by simpa using h)

theorem toDigits_inj {m n : Nat} (h : Nat.toDigits 10 m = Nat.toDigits 10 n) : m = n := by
  have := congrArg (Text.readNat ·) h
  simpa [Text.readNat_toDigits] using this

/-! ### Names of the program -/

theorem isTargetName_of_isSymbol {name : String} (h : isSymbol name) : IsTargetName name :=
  fun _ hc => .inl (isSymbolChar_of_mem h hc)

theorem isTargetName_append {first second : String} (h₁ : IsTargetName first)
    (h₂ : IsTargetName second) : IsTargetName (first ++ second) := by
  intro c hc
  rw [String.toList_append, List.mem_append] at hc
  exact hc.elim (h₁ c) (h₂ c)

theorem isTargetName_toString (n : Nat) : IsTargetName (toString n) := by
  intro c hc
  exact .inl (isSymbolChar_of_mem_toDigits (by simpa using hc))

theorem isTargetName_label {scope : Scope} {name : String}
    (hs : isSymbol (scope.function.getD scope.unit)) (hn : isSymbol name) :
    IsTargetName (scope.label name) := by
  have hdollar : IsTargetName "$" := by
    intro c hc
    exact .inr (by simpa using hc)
  exact isTargetName_append (isTargetName_append (isTargetName_of_isSymbol hs) hdollar)
    (isTargetName_of_isSymbol hn)

theorem isTargetName_static {scope : Scope} (hs : isSymbol scope.unit) (i : UInt16) :
    IsTargetName (scope.static i) := by
  have hdot : IsTargetName "." := by
    intro c hc
    obtain rfl : c = '.' := by simpa using hc
    exact .inl (by decide)
  exact isTargetName_append (isTargetName_append (isTargetName_of_isSymbol hs) hdot)
    (isTargetName_toString _)

/-- A name that begins as a symbol does is none that the translator makes up. -/
theorem not_isMadeUp_append {name : String} (h : isSymbol name) (rest : String) :
    ¬ IsMadeUp (name ++ rest) := by
  obtain ⟨c, tail, hname, hc, -⟩ := exists_cons_of_isSymbol h
  simp only [IsMadeUp, String.toList_append, hname, List.cons_append, List.head?_cons,
    Option.some.injEq]
  rintro rfl
  exact not_isSymbolChar_dollar hc

theorem not_isMadeUp_of_isSymbol {name : String} (h : isSymbol name) : ¬ IsMadeUp name := by
  simpa using not_isMadeUp_append h ""

theorem not_isMadeUp_label {scope : Scope} (h : isSymbol (scope.function.getD scope.unit))
    (name : String) : ¬ IsMadeUp (scope.label name) := by
  rw [Scope.label, String.append_assoc]
  exact not_isMadeUp_append h _

theorem not_isMadeUp_static {scope : Scope} (h : isSymbol scope.unit) (i : UInt16) :
    ¬ IsMadeUp (scope.static i) := by
  rw [Scope.static, String.append_assoc]
  exact not_isMadeUp_append h _

/-- A label of the program holds a dollar sign, which no symbol does. -/
theorem label_ne_of_isSymbol {scope : Scope} {name symbol : String} (h : isSymbol symbol) :
    scope.label name ≠ symbol := by
  rintro rfl
  exact not_isSymbolChar_dollar (isSymbolChar_of_mem h (by simp [Scope.label]))

/-- A static word is named by characters of symbols only, so no label of the program is. -/
theorem label_ne_static {scope other : Scope} {name : String} {i : UInt16}
    (h : isSymbol other.unit) : scope.label name ≠ other.static i := by
  intro heq
  -- the dollar sign would have to stand in the unit's name, be the dot, or be a digit
  have hmem : '$' ∈ (other.static i).toList := heq ▸ by simp [Scope.label]
  simp only [Scope.static, String.toList_append, List.mem_append] at hmem
  rcases hmem with (hmem | hmem) | hmem
  · exact not_isSymbolChar_dollar (isSymbolChar_of_mem h hmem)
  · simp at hmem
  · exact not_isSymbolChar_dollar (isSymbolChar_of_mem_toDigits (by simpa using hmem))

/-! ### Labels that the translator makes up -/

/-- The parts of a comparison that have a label. -/
def compareParts : List String :=
  ["LNEG", "SUB", "TEST", "TRUE", "END"]

theorem isSymbolChar_of_mem_compareParts {part : String} (h : part ∈ compareParts) :
    ∀ c ∈ part.toList, isSymbolChar c := by
  have hall : ∀ part ∈ compareParts, part.toList.all isSymbolChar := by decide
  exact List.all_eq_true.mp (hall part h)

theorem isSymbolChar_of_mem_keyword (op : CompareOp) :
    ∀ c ∈ op.keyword.toUpper.toList, isSymbolChar c := by
  refine List.all_eq_true.mp ?_
  cases op <;> simp only [CompareOp.keyword, String.toUpper, String.toList_map] <;> decide

theorem toList_compareLabel (op : CompareOp) (part : String) (id : Nat) :
    (compareLabel op part id).toList =
      '$' :: (op.keyword.toUpper.toList ++ '_' :: part.toList) ++ '.' :: Nat.toDigits 10 id := by
  simp [compareLabel]

theorem toList_returnLabel (name : String) (id : Nat) :
    (returnLabel name id).toList =
      '$' :: (name.toList ++ ['$', 'r', 'e', 't']) ++ '.' :: Nat.toDigits 10 id := by
  simp [returnLabel]

theorem isMadeUp_compareLabel (op : CompareOp) (part : String) (id : Nat) :
    IsMadeUp (compareLabel op part id) := by
  simp [IsMadeUp, toList_compareLabel]

theorem isMadeUp_returnLabel (name : String) (id : Nat) : IsMadeUp (returnLabel name id) := by
  simp [IsMadeUp, toList_returnLabel]

/-- Behind its first dollar sign the label of a comparison holds characters of symbols only. -/
theorem isSymbolChar_of_mem_tail_compareLabel (op : CompareOp) {part : String}
    (h : part ∈ compareParts) (id : Nat) {c : Char}
    (hc : c ∈ (compareLabel op part id).toList.tail) : isSymbolChar c := by
  rw [toList_compareLabel, List.cons_append, List.tail_cons] at hc
  simp only [List.mem_append, List.mem_cons] at hc
  rcases hc with (hc | rfl | hc) | rfl | hc
  · exact isSymbolChar_of_mem_keyword op c hc
  · decide
  · exact isSymbolChar_of_mem_compareParts h c hc
  · decide
  · exact isSymbolChar_of_mem_toDigits hc

theorem isTargetName_compareLabel {op : CompareOp} {part : String} (h : part ∈ compareParts)
    (id : Nat) : IsTargetName (compareLabel op part id) := by
  intro c hc
  have hcons : (compareLabel op part id).toList =
      '$' :: (compareLabel op part id).toList.tail := by simp [toList_compareLabel]
  rw [hcons] at hc
  rcases List.mem_cons.mp hc with rfl | hc
  · exact .inr rfl
  · exact .inl (isSymbolChar_of_mem_tail_compareLabel op h _ hc)

theorem isTargetName_returnLabel {name : String} (h : isSymbol name) (id : Nat) :
    IsTargetName (returnLabel name id) := by
  refine isTargetName_append (isTargetName_append (isTargetName_append ?_
    (isTargetName_of_isSymbol h)) ?_) (isTargetName_toString id)
  · intro c hc
    exact .inr (by simpa using hc)
  · exact List.all_iff_forall_prop.mp (by decide)

/-- The decimal digits at the end of a name. -/
def serial (name : String) : List Char :=
  (name.toList.reverse.takeWhile Char.isDigit).reverse

/-- Read backwards, a name with a number behind a dot begins with digits up to the dot. -/
theorem reverse_eq_of_number {name : String} {front : List Char} {id : Nat}
    (h : name.toList = front ++ '.' :: Nat.toDigits 10 id) :
    name.toList.reverse = (Nat.toDigits 10 id).reverse ++ '.' :: front.reverse ∧
      ∀ c ∈ (Nat.toDigits 10 id).reverse, c.isDigit := by
  refine ⟨by simp [h], ?_⟩
  intro c hc
  exact Nat.isDigit_of_mem_toDigits (by decide) (by decide) (List.mem_reverse.mp hc)

/-- A number behind a dot is all of the digits at the end. -/
theorem serial_eq {name : String} {front : List Char} {id : Nat}
    (h : name.toList = front ++ '.' :: Nat.toDigits 10 id) : serial name = Nat.toDigits 10 id := by
  obtain ⟨hreverse, hdigits⟩ := reverse_eq_of_number h
  rw [serial, hreverse, List.takeWhile_append_of_pos hdigits]
  simp

@[simp] theorem serial_compareLabel (op : CompareOp) (part : String) (id : Nat) :
    serial (compareLabel op part id) = Nat.toDigits 10 id :=
  serial_eq (toList_compareLabel op part id)

@[simp] theorem serial_returnLabel (name : String) (id : Nat) :
    serial (returnLabel name id) = Nat.toDigits 10 id :=
  serial_eq (toList_returnLabel name id)

theorem number_eq_of_compareLabel_eq {op op' : CompareOp} {part part' : String} {id id' : Nat}
    (h : compareLabel op part id = compareLabel op' part' id') : id = id' :=
  toDigits_inj (by simpa using congrArg serial h)

theorem number_eq_of_returnLabel_eq {name name' : String} {id id' : Nat}
    (h : returnLabel name id = returnLabel name' id') : id = id' :=
  toDigits_inj (by simpa using congrArg serial h)

theorem compareLabel_part_inj {op : CompareOp} {part part' : String} {id : Nat}
    (h : compareLabel op part id = compareLabel op part' id) : part = part' := by
  have := congrArg String.toList h
  simp only [toList_compareLabel, List.cons_append, List.append_assoc, List.cons.injEq, true_and,
    List.append_cancel_left_eq, List.append_cancel_right_eq] at this
  exact String.toList_inj.mp this

/-- The label of a return site holds a second dollar sign, which that of a comparison does not. -/
theorem compareLabel_ne_returnLabel {op : CompareOp} {part name : String} {id id' : Nat}
    (h : part ∈ compareParts) : compareLabel op part id ≠ returnLabel name id' := by
  intro heq
  refine not_isSymbolChar_dollar (isSymbolChar_of_mem_tail_compareLabel op h id ?_)
  rw [heq, toList_returnLabel]
  simp

/-! ### What the machine takes names for -/

theorem readAddress_cons {c : Char} {rest : List Char} (hdigit : ¬ c.isDigit) (hplus : c ≠ '+') :
    readAddress (c :: rest) = none := by
  unfold readAddress
  split
  · rename_i heq
    exact absurd (List.cons.inj heq).1 hplus
  · simp [Text.readUInt16, Text.readNat, Text.allDigits, hdigit]

theorem isDigit_of_mem_readAddress {text : List Char} {value : Word}
    (h : readAddress text = some value) {c : Char} (hc : c ∈ text) : c.isDigit ∨ c = '+' := by
  have hread : ∀ digits, (Text.readUInt16 digits).isSome → ∀ c ∈ digits, c.isDigit := by
    intro digits hsome
    by_cases hall : Text.allDigits digits
    · simpa [Text.allDigits] using hall
    · simp [Text.readUInt16, Text.readNat, hall] at hsome
  unfold readAddress at h
  split at h
  · rename_i rest
    rcases List.mem_cons.mp hc with rfl | hc
    · exact .inr rfl
    · exact .inl (hread rest (by cases hr : Text.readUInt16 rest <;> simp_all) c hc)
  · exact .inl (hread text (by cases hr : Text.readUInt16 text <;> simp_all) c hc)

/-- The cells that have names of their own are named by letters, digits and a plus sign. -/
theorem predefined?_eq_none {name : String} {c : Char} (hc : c ∈ name.toList)
    (halnum : ¬ c.isAlphanum) (hplus : c ≠ '+') : predefined? name = none := by
  have hword : ∀ word : String, word.toList.all Char.isAlphanum → c ∉ word.toList := by
    intro word hall hmem
    exact halnum (List.all_eq_true.mp hall c hmem)
  unfold predefined?
  split
  -- the seven words hold no such character, nor does a number behind an R
  iterate 7 exact absurd hc (hword _ (by decide))
  split
  · rename_i number hname
    rw [Option.filter_eq_none_iff]
    intro value hvalue
    rw [hname] at hc
    rcases List.mem_cons.mp hc with rfl | hc
    · exact absurd (by decide) halnum
    · rcases isDigit_of_mem_readAddress hvalue hc with hdigit | rfl
      · exact absurd (by simp [Char.isAlphanum, hdigit]) halnum
      · exact absurd rfl hplus
  · rfl

/-- A name that is neither a number nor a cell stands for the place of its label. -/
theorem fixed?_eq {labels : Std.TreeMap String Word} {name : String}
    (hnumber : readAddress name.toList = none) (hcell : predefined? name = none) :
    fixed? labels name = labels[name]? := by
  simp [fixed?, hnumber, hcell]

theorem readAddress_of_isSymbol {name : String} (h : isSymbol name) (rest : String) :
    readAddress (name ++ rest).toList = none := by
  obtain ⟨c, tail, hname, hc, hdigit⟩ := exists_cons_of_isSymbol h
  rw [String.toList_append, hname, List.cons_append]
  refine readAddress_cons hdigit ?_
  rintro rfl
  exact absurd hc (by decide)

theorem predefined?_of_isMadeUp {name : String} (h : IsMadeUp name) : predefined? name = none :=
  predefined?_eq_none (c := '$') (List.mem_of_mem_head? h) (by decide) (by decide)

theorem fixed?_of_isMadeUp (labels : Std.TreeMap String Word) {name : String}
    (h : IsMadeUp name) : fixed? labels name = labels[name]? := by
  refine fixed?_eq ?_ (predefined?_of_isMadeUp h)
  unfold IsMadeUp at h
  obtain ⟨rest, hname⟩ : ∃ rest, name.toList = '$' :: rest :=
    List.head?_eq_some_iff.mp h
  rw [hname]
  exact readAddress_cons (by decide) (by decide)

theorem fixed?_label (labels : Std.TreeMap String Word) {scope : Scope}
    (h : isSymbol (scope.function.getD scope.unit)) (name : String) :
    fixed? labels (scope.label name) = labels[scope.label name]? := by
  refine fixed?_eq ?_ (predefined?_eq_none (c := '$') (by simp [Scope.label]) (by decide)
    (by decide))
  rw [Scope.label, String.append_assoc]
  exact readAddress_of_isSymbol h _

theorem fixed?_static (labels : Std.TreeMap String Word) {scope : Scope}
    (h : isSymbol scope.unit) (i : UInt16) :
    fixed? labels (scope.static i) = labels[scope.static i]? := by
  refine fixed?_eq ?_ (predefined?_eq_none (c := '.') (by simp [Scope.static]) (by decide)
    (by decide))
  rw [Scope.static, String.append_assoc]
  exact readAddress_of_isSymbol h _

theorem fixed?_of_isSymbol (labels : Std.TreeMap String Word) {name : String}
    (h : isSymbol name) (hcell : predefined? name = none) : fixed? labels name = labels[name]? :=
  fixed?_eq (by simpa using readAddress_of_isSymbol h "") hcell

end HackVm
