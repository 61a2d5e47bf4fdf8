/-
The names of units.

A step of a path is escaped character by character. Every escaped character is made of characters of
symbols, none of them a colon, and the first one of a step is no digit, so the name of a unit is a
symbol whatever the paths are (`isSymbol_unitName`). Escaped bytes are read back one after the other
(`unescape_escapeStep`), and the colons tell the steps apart:

* **`stepsOf_unitName`** — the steps of a file are read off the name of its unit.
-/
import HackVm.Proofs.Symbols
import HackVm.Proofs.Texts
import HackVm.UnitName

namespace HackVm

/-- The steps that the name of a unit is made of. -/
def unitSteps (root file : Path) : List String :=
  (((root.below? file).getD file).withExtension "").components.map Component.text

/-! ### Steps of paths -/

/-- A piece of a path that means something is not empty. -/
theorem text_ne_nil_of_ofPiece? {piece : String} {c : Component}
    (h : Component.ofPiece? piece = some c) : c.text.toList ≠ [] := by
  unfold Component.ofPiece? at h
  by_cases hidle : isIdle piece
  · rw [if_pos hidle] at h
    cases h
  · rw [if_neg hidle] at h
    by_cases hup : piece = ".."
    · rw [if_pos hup] at h
      cases h
      decide
    · rw [if_neg hup] at h
      cases h
      intro hempty
      have hpiece : piece = "" := String.toList_inj.mp hempty
      exact hidle (by rw [hpiece]; rfl)

theorem text_ne_nil_of_mem_components {p : Path} {c : Component} (h : c ∈ p.components) :
    c.text.toList ≠ [] := by
  have hpiece : ∀ pieces : List String, c ∈ pieces.filterMap Component.ofPiece? →
      c.text.toList ≠ [] := by
    intro pieces hmem
    obtain ⟨piece, -, hc⟩ := List.mem_filterMap.mp hmem
    exact text_ne_nil_of_ofPiece? hc
  unfold Path.components at h
  split at h
  · rcases List.mem_cons.mp h with rfl | h
    · decide
    · exact hpiece _ h
  · rcases List.mem_cons.mp h with rfl | h
    · decide
    · exact hpiece _ h
  · exact hpiece _ h

theorem ne_nil_of_mem_unitSteps {root file : Path} {step : String}
    (h : step ∈ unitSteps root file) : step.toList ≠ [] := by
  obtain ⟨c, hc, rfl⟩ := List.mem_map.mp h
  exact text_ne_nil_of_mem_components hc

/-! ### Escaped characters -/

/-- The number that a hexadecimal digit stands for. -/
def hexValue (c : Char) : Nat :=
  if c.isDigit then c.toNat - 48 else c.toNat - 55

theorem hexDigit_spec {n : Nat} (h : n < 16) :
    isSymbolChar (Nat.digitChar n).toUpper ∧ (Nat.digitChar n).toUpper ≠ ':' ∧
      (Nat.digitChar n).toUpper ≠ '_' ∧ hexValue (Nat.digitChar n).toUpper = n := by
  have hall : ∀ n : Fin 16, isSymbolChar (Nat.digitChar n).toUpper ∧
      (Nat.digitChar n).toUpper ≠ ':' ∧ (Nat.digitChar n).toUpper ≠ '_' ∧
      hexValue (Nat.digitChar n).toUpper = n := by
    decide
  exact hall ⟨n, h⟩

/-- A character that an escaped step may hold. -/
def IsEscapeChar (c : Char) : Prop :=
  isSymbolChar c ∧ c ≠ ':'

theorem isEscapeChar_of_mem_escapeByte {b : UInt8} {c : Char} (h : c ∈ escapeByte b) :
    IsEscapeChar c := by
  have hb := b.toNat_lt
  have hhigh := hexDigit_spec (by omega : b.toNat / 16 < 16)
  have hlow := hexDigit_spec (by omega : b.toNat % 16 < 16)
  simp only [escapeByte, List.mem_cons, List.not_mem_nil, or_false] at h
  rcases h with rfl | rfl | rfl
  · exact ⟨by decide, by decide⟩
  · exact ⟨hhigh.1, hhigh.2.1⟩
  · exact ⟨hlow.1, hlow.2.1⟩

/-- A character that stands for itself is one of a symbol, and has one byte. -/
structure IsKept (first : Bool) (c : Char) : Prop where
  escapeChar : IsEscapeChar c
  ne_underscore : c ≠ '_'
  digit : first → ¬ c.isDigit
  ascii : c.utf8Size = 1

theorem utf8Size_of_isAlphanum {c : Char} (h : c.isAlphanum) : c.utf8Size = 1 := by
  have hkinds : c.isAlphanum = (c.isUpper || c.isLower || c.isDigit) := rfl
  have hupper : c.isUpper = decide (c.val ≥ 'A'.val ∧ c.val ≤ 'Z'.val) := rfl
  have hlower : c.isLower = (c.val ≥ 'a'.val && c.val ≤ 'z'.val) := rfl
  rw [Char.utf8Size_eq_one_iff]
  simp only [hkinds, hupper, hlower, Char.isDigit, Bool.or_eq_true, Bool.and_eq_true,
    decide_eq_true_eq] at h
  rcases h with (h | h) | h
  · exact UInt32.le_trans h.2 (by decide)
  · exact UInt32.le_trans h.2 (by decide)
  · exact UInt32.le_trans h.2 (by decide)

/-- An underscore is doubled, and any other character is kept or escaped byte by byte. -/
theorem escapeChar_cases (first : Bool) (c : Char) :
    (c = '_' ∧ escapeChar first c = ['_', '_']) ∨
      (IsKept first c ∧ escapeChar first c = [c]) ∨
      escapeChar first c = (String.utf8EncodeChar c).flatMap escapeByte := by
  by_cases hunderscore : c = '_'
  · exact .inl ⟨hunderscore, if_pos hunderscore⟩
  · rw [escapeChar, if_neg hunderscore]
    by_cases hkept : (c.isAlphanum && !(first && c.isDigit)) || c = '.'
    · refine .inr (.inl ⟨?_, if_pos hkept⟩)
      rw [Bool.or_eq_true, Bool.and_eq_true, decide_eq_true_eq] at hkept
      rcases hkept with ⟨halphanum, hfirst⟩ | rfl
      · refine ⟨⟨by simp [isSymbolChar, halphanum], ?_⟩, hunderscore, ?_,
          utf8Size_of_isAlphanum halphanum⟩
        · rintro rfl
          exact absurd halphanum (by decide)
        · rintro rfl
          simpa using hfirst
      · exact ⟨⟨by decide, by decide⟩, hunderscore, fun _ => by decide, by decide⟩
    · exact .inr (.inr (if_neg hkept))

theorem isEscapeChar_of_mem_escapeChar {first : Bool} {c d : Char}
    (h : d ∈ escapeChar first c) : IsEscapeChar d := by
  rcases escapeChar_cases first c with ⟨-, heq⟩ | ⟨hkept, heq⟩ | heq
  · rw [heq] at h
    obtain rfl : d = '_' := by simpa using h
    exact ⟨by decide, by decide⟩
  · rw [heq, List.mem_singleton] at h
    exact h ▸ hkept.escapeChar
  · rw [heq] at h
    obtain ⟨b, -, hd⟩ := List.mem_flatMap.mp h
    exact isEscapeChar_of_mem_escapeByte hd

theorem isEscapeChar_of_mem_escapeStep {text : List Char} {d : Char}
    (h : d ∈ escapeStep text) : IsEscapeChar d := by
  cases text with
  | nil => cases h
  | cons c rest =>
    rcases List.mem_append.mp h with h | h
    · exact isEscapeChar_of_mem_escapeChar h
    · obtain ⟨c', -, hd⟩ := List.mem_flatMap.mp h
      exact isEscapeChar_of_mem_escapeChar hd

/-- An escaped step does not begin with a digit. -/
theorem exists_cons_escapeStep {text : List Char} (h : text ≠ []) :
    ∃ d tail, escapeStep text = d :: tail ∧ ¬ d.isDigit := by
  obtain ⟨c, rest, rfl⟩ := List.exists_cons_of_ne_nil h
  have hfirst : ∃ d tail, escapeChar true c = d :: tail ∧ ¬ d.isDigit := by
    rcases escapeChar_cases true c with ⟨-, heq⟩ | ⟨hkept, heq⟩ | heq
    · exact ⟨'_', ['_'], heq, by decide⟩
    · exact ⟨c, [], heq, hkept.digit rfl⟩
    · obtain ⟨b, bytes, hbytes⟩ :=
        List.exists_cons_of_ne_nil (String.utf8EncodeChar_ne_nil (c := c))
      exact ⟨'_', _, by rw [heq, hbytes]; rfl, by decide⟩
  obtain ⟨d, tail, hd, hdigit⟩ := hfirst
  exact ⟨d, tail ++ rest.flatMap (escapeChar false), by rw [escapeStep, hd]; rfl, hdigit⟩

/-! ### Names -/

/-- Escaped steps with a colon between two. -/
def escaped (steps : List String) : List Char :=
  [':'].intercalate (steps.map fun step => escapeStep step.toList)

theorem isSymbolChar_of_mem_escaped {steps : List String} {c : Char} (h : c ∈ escaped steps) :
    isSymbolChar c := by
  rcases mem_intercalate h with rfl | ⟨piece, hpiece, hc⟩
  · decide
  · obtain ⟨step, -, rfl⟩ := List.mem_map.mp hpiece
    exact (isEscapeChar_of_mem_escapeStep hc).1

theorem exists_cons_escaped {step : String} (h : step.toList ≠ []) (rest : List String) :
    ∃ d tail, escaped (step :: rest) = d :: tail ∧ ¬ d.isDigit := by
  obtain ⟨d, tail, hd, hdigit⟩ := exists_cons_escapeStep h
  rw [escaped, List.map_cons, hd]
  cases rest with
  | nil => exact ⟨d, tail, List.intercalate_singleton, hdigit⟩
  | cons second more =>
    rw [List.map_cons, List.intercalate_cons_cons, List.cons_append, List.cons_append]
    exact ⟨d, _, rfl, hdigit⟩

/-- The escaped steps are the name, unless there are no steps. -/
theorem toList_unitName (root file : Path) :
    (unitName root file).toList =
      if unitSteps root file = [] then ['_'] else escaped (unitSteps root file) := by
  have hname : unitName root file =
      let name := ":".intercalate
        ((unitSteps root file).map fun step => String.ofList (escapeStep step.toList))
      if name = "" then "_" else name := rfl
  have hchars : (":".intercalate ((unitSteps root file).map fun step =>
      String.ofList (escapeStep step.toList))).toList = escaped (unitSteps root file) := by
    rw [String.toList_intercalate, List.map_map, escaped]
    simp only [Function.comp_def, String.toList_ofList]
    rfl
  have hsteps : ∀ step ∈ unitSteps root file, step.toList ≠ [] :=
    fun step h => ne_nil_of_mem_unitSteps h
  rw [hname]
  generalize unitSteps root file = steps at hchars hsteps
  cases steps with
  | nil => rfl
  | cons step rest =>
    obtain ⟨d, tail, hd, -⟩ := exists_cons_escaped (hsteps step List.mem_cons_self) rest
    rw [if_neg (List.cons_ne_nil step rest), if_neg, hchars]
    intro hempty
    rw [hempty, hd] at hchars
    cases hchars

/-- The name of a unit is a symbol, whatever the paths are. -/
theorem isSymbol_unitName (root file : Path) : isSymbol (unitName root file) := by
  have hsteps : ∀ step ∈ unitSteps root file, step.toList ≠ [] :=
    fun step h => ne_nil_of_mem_unitSteps h
  rw [isSymbol, toList_unitName]
  generalize unitSteps root file = steps at hsteps
  cases steps with
  | nil => decide
  | cons step rest =>
    obtain ⟨d, tail, hd, hdigit⟩ := exists_cons_escaped (hsteps step List.mem_cons_self) rest
    have hchars : ∀ c ∈ d :: tail, isSymbolChar c :=
      fun c hc => isSymbolChar_of_mem_escaped (hd ▸ hc)
    rw [if_neg (List.cons_ne_nil step rest), hd, isSymbolText]
    simp only [Bool.and_eq_true, Bool.not_eq_true', Bool.eq_false_iff, List.all_eq_true]
    exact ⟨⟨hdigit, hchars d List.mem_cons_self⟩, fun c hc => hchars c (List.mem_cons_of_mem d hc)⟩

/-! ### Reading names -/

/-- The bytes of a step, read off an escaped text. -/
def unescape : List Char → List UInt8
  | [] => []
  | '_' :: '_' :: rest => 95 :: unescape rest
  | '_' :: high :: low :: rest => UInt8.ofNat (16 * hexValue high + hexValue low) :: unescape rest
  | c :: rest => c.val.toUInt8 :: unescape rest

/-- The steps read off the name of a unit. -/
def stepsOf (name : String) : List String :=
  if name = "_" then []
  else (name.toList.splitOn ':').map fun part =>
    (String.fromUTF8? ⟨(unescape part).toArray⟩).getD ""

theorem unescape_cons {c : Char} (h : c ≠ '_') (rest : List Char) :
    unescape (c :: rest) = c.val.toUInt8 :: unescape rest := by
  rw [unescape]
  · intro rest' hc
    exact absurd hc h
  · intro high low rest' hc
    exact absurd hc h

theorem unescape_escapeByte_append (b : UInt8) (rest : List Char) :
    unescape (escapeByte b ++ rest) = b :: unescape rest := by
  have hb := b.toNat_lt
  obtain ⟨-, -, hne, hhigh⟩ := hexDigit_spec (by omega : b.toNat / 16 < 16)
  obtain ⟨-, -, -, hlow⟩ := hexDigit_spec (by omega : b.toNat % 16 < 16)
  show unescape ('_' :: _ :: _ :: rest) = _
  rw [unescape, hhigh, hlow, Nat.div_add_mod, UInt8.ofNat_toNat]
  -- the first digit is no second underscore
  exact hne

theorem unescape_escapeBytes_append (bytes : List UInt8) (rest : List Char) :
    unescape (bytes.flatMap escapeByte ++ rest) = bytes ++ unescape rest := by
  induction bytes with
  | nil => rfl
  | cons b others ih =>
    rw [List.flatMap_cons, List.append_assoc, unescape_escapeByte_append, ih, List.cons_append]

theorem unescape_escapeChar_append (first : Bool) (c : Char) (rest : List Char) :
    unescape (escapeChar first c ++ rest) = String.utf8EncodeChar c ++ unescape rest := by
  rcases escapeChar_cases first c with ⟨rfl, heq⟩ | ⟨hkept, heq⟩ | heq
  · rw [heq]
    rfl
  · rw [heq, List.singleton_append, unescape_cons hkept.ne_underscore,
      String.utf8EncodeChar_eq_singleton hkept.ascii, List.singleton_append]
  · rw [heq, unescape_escapeBytes_append]

/-- The bytes of a step are read back. -/
theorem unescape_escapeStep (text : List Char) :
    unescape (escapeStep text) = text.flatMap String.utf8EncodeChar := by
  have hrest : ∀ rest : List Char,
      unescape (rest.flatMap (escapeChar false)) = rest.flatMap String.utf8EncodeChar := by
    intro rest
    induction rest with
    | nil => rfl
    | cons c others ih =>
      rw [List.flatMap_cons, unescape_escapeChar_append, ih, List.flatMap_cons]
  cases text with
  | nil => rfl
  | cons c rest => rw [escapeStep, unescape_escapeChar_append, hrest, List.flatMap_cons]

/-- The bytes of a text are those of its characters. -/
theorem toUTF8_eq_flatMap (s : String) :
    s.toUTF8.data.toList = s.toList.flatMap String.utf8EncodeChar := by
  have hbytes : s.toUTF8 = (s.toList.flatMap String.utf8EncodeChar).toByteArray := by
    rw [String.toUTF8_eq_toByteArray, ← String.utf8Encode_toList]
    rfl
  rw [hbytes, List.data_toByteArray]

/-- No step is escaped as the name of a unit without steps. -/
theorem escapeStep_ne_underscore (text : List Char) : escapeStep text ≠ ['_'] := by
  cases text with
  | nil => decide
  | cons c rest =>
    rw [escapeStep]
    rcases escapeChar_cases true c with ⟨-, heq⟩ | ⟨hkept, heq⟩ | heq
    · simp [heq]
    · simp [heq, hkept.ne_underscore]
    · obtain ⟨b, bytes, hbytes⟩ :=
        List.exists_cons_of_ne_nil (String.utf8EncodeChar_ne_nil (c := c))
      simp [heq, hbytes, escapeByte]

theorem splitOn_escaped {steps : List String} (h : steps ≠ []) :
    (escaped steps).splitOn ':' = steps.map fun step => escapeStep step.toList := by
  refine List.splitOn_intercalate ':' ?_ (by simpa using h)
  intro piece hpiece hcolon
  obtain ⟨step, -, rfl⟩ := List.mem_map.mp hpiece
  exact (isEscapeChar_of_mem_escapeStep hcolon).2 rfl

/-- The steps of a file are read off the name of its unit. -/
theorem stepsOf_unitName (root file : Path) :
    stepsOf (unitName root file) = unitSteps root file := by
  have hname := toList_unitName root file
  by_cases hsteps : unitSteps root file = []
  · rw [if_pos hsteps] at hname
    have hunderscore : unitName root file = "_" := String.toList_inj.mp hname
    rw [hunderscore, hsteps]
    rfl
  · rw [if_neg hsteps] at hname
    have hsplit := splitOn_escaped hsteps
    have hne : unitName root file ≠ "_" := by
      intro hunderscore
      rw [← hname, hunderscore] at hsplit
      have hmem : ['_'] ∈ (unitSteps root file).map fun step => escapeStep step.toList :=
        hsplit ▸ List.mem_cons_self
      obtain ⟨step, -, hstep⟩ := List.mem_map.mp hmem
      exact escapeStep_ne_underscore step.toList hstep
    rw [stepsOf, if_neg hne, hname, hsplit, List.map_map]
    refine (List.map_congr_left ?_).trans (List.map_id _)
    intro step _
    simp only [Function.comp_apply, unescape_escapeStep, ← toUTF8_eq_flatMap, fromUTF8?_toUTF8]
    rfl

end HackVm
