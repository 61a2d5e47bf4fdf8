/-
What the arguments of the program ask for.

An option that has no spelling with one dash is looked for among the arguments before two dashes
(`optionsOf`). A flag is raised if and only if one of them is its name, and a value is given if and
only if one of them is the name with the value behind an equals sign, or the name and the value
follow each other (`IsGiven`). An argument that begins with two dashes adds to the scan what it
spells and nothing else (`long_spec`), and no other argument adds anything to these options but the
value that is awaited (`short_spec`, `reads_of_value`). So the scan holds what all arguments up to
two dashes spell (`holdsSoFar_of_foldlM`), and behind them nothing is added (`keeps_of_foldlM`).

* **`has_iff_of_parse`** — which flags are raised;
* **`value?_iff_of_parse`** — which values are given;
* **`areAskedBy_of_parse`** — the settings of the translator that the arguments ask for.
-/
import HackVm.CommandLine.Args
import HackVm.Proofs.Places
import Mathlib.Data.List.TakeWhile

namespace HackVm

/-- The arguments among which options are looked for: those before two dashes. -/
def optionsOf (arguments : List String) : List String :=
  arguments.takeWhile (· ≠ "--")

/-- Whether an option is given a value, attached to its name or as the next argument. -/
def IsGiven (name value : String) (options : List String) : Prop :=
  "--" ++ name ++ "=" ++ value ∈ options ∨ ["--" ++ name, value] <:+: options

instance (name value : String) (options : List String) : Decidable (IsGiven name value options) :=
  inferInstanceAs (Decidable (_ ∨ _))

/-- Whether settings of the translator are those that arguments ask for. -/
structure Options.AreAskedBy (options : Options) (arguments : List String) : Prop where
  bootstrap : options.bootstrap = true ↔ "--no-bootstrap" ∉ optionsOf arguments
  annotate : options.annotate = true ↔ "--no-annotate" ∉ optionsOf arguments
  strict : options.strict = true ↔ "--strict" ∈ optionsOf arguments
  entry : ∀ name, IsGiven "entry" name (optionsOf arguments) → options.entry = name
  defaultEntry : (∀ name, ¬ IsGiven "entry" name (optionsOf arguments)) → options.entry = "Sys.init"
  stackBase : options.stackBase = 256

/-- No other settings are asked for. -/
theorem Options.AreAskedBy.unique {options other : Options} {arguments : List String}
    (h : options.AreAskedBy arguments) (h' : other.AreAskedBy arguments) : options = other := by
  have hentry : options.entry = other.entry := by
    by_cases hgiven : ∃ name, IsGiven "entry" name (optionsOf arguments)
    · obtain ⟨name, hname⟩ := hgiven
      rw [h.entry name hname, h'.entry name hname]
    · rw [h.defaultEntry (not_exists.mp hgiven), h'.defaultEntry (not_exists.mp hgiven)]
  have hbootstrap := Bool.eq_iff_iff.mpr (h.bootstrap.trans h'.bootstrap.symm)
  have hannotate := Bool.eq_iff_iff.mpr (h.annotate.trans h'.annotate.symm)
  have hstrict := Bool.eq_iff_iff.mpr (h.strict.trans h'.strict.symm)
  have hbase := h.stackBase.trans h'.stackBase.symm
  cases options
  cases other
  simp_all

namespace CommandLine

/-! ### Spellings of options -/

/-- The name of an option behind two dashes; the input has none. -/
def Meaning.name : Meaning → String
  | .slot .input => ""
  | .slot .output => "output"
  | .slot .entry => "entry"
  | .slot .emitIr => "emit-ir"
  | .flag .noBootstrap => "no-bootstrap"
  | .flag .strict => "strict"
  | .flag .noAnnotate => "no-annotate"
  | .flag .dump => "dump"
  | .flag .noColor => "no-color"
  | .flag .verbose => "verbose"
  | .flag .quiet => "quiet"
  | .flag .help => "help"
  | .flag .version => "version"

/-- Whether an option is spelled with two dashes only. -/
def Meaning.isLong : Meaning → Bool
  | .flag .verbose | .flag .quiet | .flag .help | .flag .version => false
  | .slot .input | .slot .output => false
  | _ => true

theorem isLong_of_short? {c : Char} {meaning : Meaning} (h : short? c = some meaning) :
    meaning.isLong = false := by
  unfold short? at h
  split at h <;> cases h <;> rfl

theorem name_of_long? {name : String} {meaning : Meaning} (h : long? name = some meaning) :
    name = meaning.name := by
  unfold long? at h
  split at h <;> cases h <;> rfl

theorem name_injective : Function.Injective Meaning.name := by
  have hinverse (meaning : Meaning) : (long? meaning.name).getD (.slot .input) = meaning := by
    rcases meaning with flag | slot
    · cases flag <;> rfl
    · cases slot <;> rfl
  intro meaning meaning' h
  rw [← hinverse meaning, h, hinverse]

theorem eq_of_dropWhile_eq_cons {α : Type} [DecidableEq α] {a b : α} {xs rest : List α}
    (h : xs.dropWhile (· ≠ a) = b :: rest) : b = a := by
  have hhead := List.head?_dropWhile_not (fun x => decide (x ≠ a)) xs
  rw [h] at hhead
  simpa using hhead

theorem equals_notMem_name (meaning : Meaning) : '=' ∉ meaning.name.toList := by
  rcases meaning with flag | slot
  · cases flag <;> decide
  · cases slot <;> decide

/-- What an argument that begins with two dashes is met as. -/
inductive Met where
  | flag (flag : Flag)
  /-- A place, for which the value is the next argument. -/
  | place (slot : Slot)
  /-- A place and the value for it. -/
  | value (slot : Slot) (value : String)

/-- The option that was met. -/
def Met.meaning : Met → Meaning
  | .flag f => .flag f
  | .place slot | .value slot _ => .slot slot

/-- What stands behind the name of an option. -/
def Met.attached : Met → String
  | .flag _ | .place _ => ""
  | .value _ v => "=" ++ v

/-- The argument that is met so. -/
def Met.spelling (met : Met) : String :=
  "--" ++ met.meaning.name ++ met.attached

theorem spelling_flag (f : Flag) : (Met.flag f).spelling = "--" ++ (Meaning.flag f).name :=
  String.append_empty

theorem spelling_place (slot : Slot) :
    (Met.place slot).spelling = "--" ++ (Meaning.slot slot).name :=
  String.append_empty

theorem spelling_value (slot : Slot) (v : String) :
    (Met.value slot v).spelling = "--" ++ (Meaning.slot slot).name ++ "=" ++ v :=
  String.append_assoc.symm

theorem spelling_injective : Function.Injective Met.spelling := by
  intro met met' h
  have hlist : met.meaning.name.toList ++ met.attached.toList =
      met'.meaning.name.toList ++ met'.attached.toList := by
    simpa [Met.spelling] using congrArg String.toList h
  -- the name ends where the first equals sign stands
  have htake (met : Met) : (met.meaning.name.toList ++ met.attached.toList).takeWhile (· ≠ '=') =
      met.meaning.name.toList := by
    rw [List.takeWhile_append_of_pos]
    · cases met <;> simp [Met.attached]
    · rintro c hc
      simpa using fun heq : c = '=' => equals_notMem_name _ (heq ▸ hc)
  have hname : met.meaning = met'.meaning := by
    refine name_injective (String.toList_inj.mp ?_)
    rw [← htake met, hlist, htake met']
  rw [hname] at hlist
  have hattached := String.toList_inj.mp (List.append_cancel_left hlist)
  cases met <;> cases met' <;> simp_all [Met.meaning, Met.attached]

/-! ### What was given so far -/

/-- Whether a flag was met. -/
def Draft.has (d : Draft) : Flag → Bool
  | .noBootstrap => d.noBootstrap
  | .strict => d.strict
  | .noAnnotate => d.noAnnotate
  | .dump => d.dump
  | .noColor => d.noColor
  | .verbose => 0 < d.verbose
  | .quiet => d.quiet
  | .help | .version => false

/-- The value in a place. -/
def Draft.value? (d : Draft) : Slot → Option String
  | .input => d.input.map Path.text
  | .output => d.output.map Path.text
  | .entry => d.entry
  | .emitIr => d.emitIr.map Path.text

/-- Whether a value was met for a place, and may still have to be put there. -/
def Scan.Given (s : Scan) (slot : Slot) (value : String) : Prop :=
  s.draft.value? slot = some value ∨ s.pending = some (slot, some value)

/-- Whether a scan awaits the value for a place. -/
def Scan.Awaits (s : Scan) (slot : Slot) : Prop :=
  s.pending = some (slot, none)

/-- Whether a scan differs from another, which awaits no value, in one thing that was met. -/
structure Scan.Adds (s s' : Scan) (met : Met) : Prop where
  settled : ∀ slot, ¬ s.Awaits slot
  escaped : s'.escaped = s.escaped
  has : ∀ flag, s'.draft.has flag ↔ s.draft.has flag ∨ met = .flag flag
  awaits : ∀ slot, s'.Awaits slot ↔ met = .place slot
  given : ∀ slot value, s'.Given slot value ↔ s.Given slot value ∨ met = .value slot value

theorem once_eq_ok {given : Bool} {d d' : Draft} (h : once given d = .ok d') : d' = d := by
  unfold once at h
  split at h
  · cases h
  · exact (Except.ok.inj h).symm

theorem raise_spec {d d' : Draft} {flag : Flag} (h : d.raise flag = .ok d') :
    (∀ other, d'.has other ↔ d.has other ∨ flag = other) ∧
      ∀ slot, d'.value? slot = d.value? slot := by
  cases flag with
  | help | version => cases h
  | verbose =>
    cases h
    exact ⟨fun other => by cases other <;> simp [Draft.has], fun slot => by cases slot <;> rfl⟩
  | _ =>
    cases once_eq_ok h
    exact ⟨fun other => by cases other <;> simp [Draft.has], fun slot => by cases slot <;> rfl⟩

theorem path_eq_ok {old filled : Option Path} {value : String} (h : path old value = .ok filled) :
    old = none ∧ filled = some ⟨value⟩ := by
  unfold path at h
  split at h
  · cases h
  · next hnone =>
    split at h
    · cases h
    · exact ⟨by simpa using hnone, (Except.ok.inj h).symm⟩

theorem fill_spec {d d' : Draft} {slot : Slot} {value : String} (h : d.fill slot value = .ok d') :
    d.value? slot = none ∧ (∀ flag, d'.has flag = d.has flag) ∧
      ∀ other, d'.value? other = if other = slot then some value else d.value? other := by
  cases slot with
  | entry =>
    simp only [Draft.fill] at h
    split at h
    · cases h
    · next hnone =>
      cases h
      exact ⟨by simpa [Draft.value?] using hnone, fun flag => by cases flag <;> rfl,
        fun other => by cases other <;> rfl⟩
  | _ =>
    obtain ⟨filled, hfilled, hd⟩ := bind_eq_ok_iff.mp h
    obtain ⟨hnone, rfl⟩ := path_eq_ok hfilled
    cases hd
    exact ⟨by simp [Draft.value?, hnone], fun flag => by cases flag <;> rfl,
      fun other => by cases other <;> rfl⟩

section

variable {s s' : Scan}

/-- What is settled is what was met, and no value is awaited then. -/
theorem settle_spec {d : Draft} (h : s.settle = .ok d) :
    (∀ slot, ¬ s.Awaits slot) ∧ (∀ flag, d.has flag = s.draft.has flag) ∧
      ∀ slot value, d.value? slot = some value ↔ s.Given slot value := by
  unfold Scan.settle at h
  unfold Scan.Awaits Scan.Given
  split at h
  · next hpending =>
    cases h
    simp [hpending]
  · cases h
  · next slot value hpending =>
    obtain ⟨hnone, hhas, hvalue⟩ := fill_spec h
    refine ⟨by simp [hpending], hhas, fun other value' => ?_⟩
    rw [hvalue, hpending]
    by_cases hother : other = slot
    · subst hother
      simp [hnone]
    · simp [hother, Ne.symm hother]

/-! ### What one argument adds -/

/-- What is met is added to what was settled before. -/
theorem adds_of_settle {met : Met} {d : Draft} (hd : s.settle = .ok d)
    (hescaped : s'.escaped = s.escaped)
    (hhas : ∀ flag, s'.draft.has flag ↔ d.has flag ∨ met = .flag flag)
    (hawaits : ∀ slot, s'.Awaits slot ↔ met = .place slot)
    (hgiven : ∀ slot value,
      s'.Given slot value ↔ d.value? slot = some value ∨ met = .value slot value) :
    s.Adds s' met := by
  obtain ⟨hsettled, hsame, hmet⟩ := settle_spec hd
  exact ⟨hsettled, hescaped, fun flag => by rw [hhas, hsame], hawaits,
    fun slot value => by rw [hgiven, hmet]⟩

theorem adds_flag {flag : Flag} (h : s.raise flag = .ok s') : s.Adds s' (.flag flag) := by
  obtain ⟨d, hd, h⟩ := bind_eq_ok_iff.mp h
  obtain ⟨d', hd', h⟩ := bind_eq_ok_iff.mp h
  cases h
  obtain ⟨hraised, hvalue⟩ := raise_spec hd'
  exact adds_of_settle hd rfl (by simp [hraised]) (by simp [Scan.Awaits])
    (by simp [Scan.Given, hvalue])

theorem adds_place {slot : Slot} (h : s.await slot = .ok s') : s.Adds s' (.place slot) := by
  obtain ⟨d, hd, h⟩ := bind_eq_ok_iff.mp h
  cases h
  exact adds_of_settle hd rfl (by simp) (by simp [Scan.Awaits]) (by simp [Scan.Given])

theorem adds_value {slot : Slot} {value : String} (h : s.fill slot value = .ok s') :
    s.Adds s' (.value slot value) := by
  obtain ⟨d, hd, h⟩ := bind_eq_ok_iff.mp h
  obtain ⟨d', hd', h⟩ := bind_eq_ok_iff.mp h
  cases h
  obtain ⟨hnone, hhas, hvalue⟩ := fill_spec hd'
  refine adds_of_settle hd rfl (by simp [hhas]) (by simp [Scan.Awaits]) ?_
  intro other value'
  rw [Scan.Given, hvalue]
  by_cases hother : other = slot
  · subst hother
    simp [hnone]
  · simp [hother, Ne.symm hother]

theorem adds_input {value : String} (h : s.positional value = .ok s') :
    s.Adds s' (.value .input value) := by
  unfold Scan.positional at h
  split at h
  · cases h
  · obtain ⟨d, hd, h⟩ := bind_eq_ok_iff.mp h
    cases h
    exact adds_of_settle hd rfl (by simp) (by simp [Scan.Awaits]) (by simp [Scan.Given])

/-- Whether a scan holds what another does, but for options with other spellings. -/
structure Scan.Keeps (s s' : Scan) : Prop where
  escaped : s'.escaped = s.escaped
  has : ∀ flag, (Meaning.flag flag).isLong → s'.draft.has flag = s.draft.has flag
  given : ∀ slot, (Meaning.slot slot).isLong → ∀ value, s'.Given slot value ↔ s.Given slot value

theorem Scan.Keeps.trans {s'' : Scan} (h : s.Keeps s') (h' : s'.Keeps s'') : s.Keeps s'' where
  escaped := h'.escaped.trans h.escaped
  has flag hflag := (h'.has flag hflag).trans (h.has flag hflag)
  given slot hslot value := (h'.given slot hslot value).trans (h.given slot hslot value)

theorem ne_of_isLong {met : Met} (other : Met) (hmet : met.meaning.isLong = false)
    (hother : other.meaning.isLong) : met ≠ other := by
  rintro rfl
  exact Bool.false_ne_true (hmet.symm.trans hother)

theorem Scan.Adds.keeps {met : Met} (h : s.Adds s' met) (hmet : met.meaning.isLong = false) :
    s.Keeps s' ∧ ∀ slot, (Meaning.slot slot).isLong → ¬ s'.Awaits slot := by
  refine ⟨⟨h.escaped, fun flag hflag => ?_, fun slot hslot value => ?_⟩, fun slot hslot => ?_⟩
  · rw [Bool.eq_iff_iff, h.has, or_iff_left (ne_of_isLong (.flag flag) hmet hflag)]
  · rw [h.given, or_iff_left (ne_of_isLong (.value slot value) hmet hslot)]
  · rw [h.awaits]
    exact ne_of_isLong (.place slot) hmet hslot

/-- The first of some options behind one dash is a flag, and others may follow, or it takes all of
them or the next argument. -/
theorem short_cons {c : Char} {rest : List Char} (h : s.short (c :: rest) = .ok s') :
    ∃ met next, s.Adds next met ∧ met.meaning.isLong = false ∧
      (next = s' ∨ next.short rest = .ok s') := by
  unfold Scan.short at h
  split at h
  · cases h
  · next flag hflag =>
    obtain ⟨next, hnext, hrest⟩ := bind_eq_ok_iff.mp h
    exact ⟨_, next, adds_flag hnext, isLong_of_short? hflag, .inr hrest⟩
  · next slot hslot => exact ⟨_, s', adds_place h, isLong_of_short? hslot, .inl rfl⟩
  · next slot value hslot => exact ⟨_, s', adds_value h, isLong_of_short? hslot, .inl rfl⟩
  · next slot hslot _ _ => exact ⟨_, s', adds_value h, isLong_of_short? hslot, .inl rfl⟩

/-- Options behind one dash are met while no value is awaited, and await only values for options
with such a spelling. -/
theorem short_spec {cs : List Char} (h : s.short cs = .ok s') :
    s.Keeps s' ∧ (cs ≠ [] → ∀ slot, ¬ s.Awaits slot) ∧
      ∀ slot, (Meaning.slot slot).isLong → s'.Awaits slot → cs = [] ∧ s.Awaits slot := by
  induction cs generalizing s with
  | nil =>
    cases h
    exact ⟨⟨rfl, fun _ _ => rfl, fun _ _ _ => .rfl⟩, nofun, fun _ _ hawaits => ⟨rfl, hawaits⟩⟩
  | cons c rest ih =>
    obtain ⟨met, next, hadds, hmet, hnext⟩ := short_cons h
    obtain ⟨hkeeps, hawaits⟩ := hadds.keeps hmet
    rcases hnext with rfl | hrest
    · exact ⟨hkeeps, fun _ => hadds.settled, fun slot hslot h => absurd h (hawaits slot hslot)⟩
    · obtain ⟨hkeeps', -, hawaits'⟩ := ih hrest
      exact ⟨hkeeps.trans hkeeps', fun _ => hadds.settled,
        fun slot hslot h => absurd (hawaits' slot hslot h).2 (hawaits slot hslot)⟩

/-- An option behind two dashes adds what it spells. -/
theorem long_spec {text : List Char} (h : s.long text = .ok s') :
    ∃ met, s.Adds s' met ∧ met.spelling = "--" ++ String.ofList text := by
  have hspelling {met : Met}
      (hname : long? (String.ofList (text.takeWhile (· ≠ '='))) = some met.meaning)
      (hrest : text.dropWhile (· ≠ '=') = met.attached.toList) :
      met.spelling = "--" ++ String.ofList text := by
    rw [Met.spelling, ← name_of_long? hname, ← String.toList_inj]
    simp only [String.toList_append, String.toList_ofList, ← hrest, List.append_assoc,
      List.takeWhile_append_dropWhile]
  unfold Scan.long at h
  dsimp only at h
  split at h
  · cases h
  · next flag hname hrest => exact ⟨_, adds_flag h, hspelling hname hrest⟩
  · cases h
  · next slot hname hrest => exact ⟨_, adds_place h, hspelling hname hrest⟩
  · next slot c value hname hrest =>
    obtain rfl := eq_of_dropWhile_eq_cons hrest
    exact ⟨_, adds_value h, hspelling hname (hrest.trans (by simp [Met.attached]))⟩

/-- What an argument is before two dashes. -/
theorem next_cases {arg : String} (h : s.next arg = .ok s') (hescaped : s.escaped = false)
    (harg : arg ≠ "--") :
    (∃ text, arg = "--" ++ String.ofList text ∧ s.long text = .ok s') ∨
      ¬ ['-', '-'] <+: arg.toList ∧
        ((∃ c rest, s.short (c :: rest) = .ok s') ∨ s.value arg = .ok s') := by
  unfold Scan.next at h
  rw [if_neg (by simp [hescaped])] at h
  split at h
  · next htext => exact absurd (String.toList_inj.mp htext) harg
  · next text _ htext =>
    refine .inl ⟨text, ?_, h⟩
    rw [← String.toList_inj, htext]
    simp
  · next c rest _ hdash htext =>
    refine .inr ⟨?_, .inl ⟨c, rest, h⟩⟩
    rw [htext]
    simpa using fun hc => hdash hc.symm
  · next _ hlong _ =>
    refine .inr ⟨?_, .inr h⟩
    rintro ⟨text, htext⟩
    exact hlong text htext.symm

/-- Whether a scan differs from another in what an argument spells, or in the value that it is. -/
structure Scan.Reads (s s' : Scan) (arg : String) : Prop where
  escaped : s'.escaped = s.escaped
  has : ∀ flag, (Meaning.flag flag).isLong →
    (s'.draft.has flag ↔ s.draft.has flag ∨ arg = "--" ++ (Meaning.flag flag).name)
  awaits : ∀ slot, (Meaning.slot slot).isLong →
    (s'.Awaits slot ↔ arg = "--" ++ (Meaning.slot slot).name)
  given : ∀ slot, (Meaning.slot slot).isLong → ∀ value,
    (s'.Given slot value ↔ s.Given slot value ∨
      arg = "--" ++ (Meaning.slot slot).name ++ "=" ++ value ∨ s.Awaits slot ∧ arg = value)

theorem Scan.Adds.reads {met : Met} (h : s.Adds s' met) : s.Reads s' met.spelling where
  escaped := h.escaped
  has flag _ := by rw [h.has, ← spelling_flag, spelling_injective.eq_iff]
  awaits slot _ := by rw [h.awaits, ← spelling_place, spelling_injective.eq_iff]
  given slot _ value := by
    rw [h.given, ← spelling_value, spelling_injective.eq_iff]
    simp [h.settled slot]

/-- An argument that does not begin with two dashes is no name of an option. -/
theorem ne_append_of_dashes {arg : String} (h : ¬ ['-', '-'] <+: arg.toList) (text : String) :
    arg ≠ "--" ++ text := by
  rintro rfl
  simp at h

theorem Scan.Keeps.reads {arg : String} (h : s.Keeps s')
    (hdashes : ¬ ['-', '-'] <+: arg.toList)
    (hawaits : ∀ slot, (Meaning.slot slot).isLong → ¬ s'.Awaits slot)
    (hsettled : ∀ slot, ¬ s.Awaits slot) : s.Reads s' arg where
  escaped := h.escaped
  has flag hflag := by simp [h.has flag hflag, ne_append_of_dashes hdashes]
  awaits slot hslot := by simp [hawaits slot hslot, ne_append_of_dashes hdashes]
  given slot hslot value := by
    simp [h.given slot hslot, String.append_assoc, ne_append_of_dashes hdashes, hsettled slot]

theorem reads_of_value {arg : String} (h : s.value arg = .ok s')
    (hdashes : ¬ ['-', '-'] <+: arg.toList) : s.Reads s' arg := by
  unfold Scan.value at h
  split at h
  · next slot hpending =>
    -- the value that was awaited
    cases h
    have hgiven (other : Slot) (value : String) :
        Scan.Given { s with pending := some (slot, some arg) } other value ↔
          s.Given other value ∨ s.Awaits other ∧ arg = value := by
      simp [Scan.Given, Scan.Awaits, hpending]
    exact {
      escaped := rfl
      has flag _ := by simp [ne_append_of_dashes hdashes]
      awaits other _ := by simp [Scan.Awaits, ne_append_of_dashes hdashes]
      given other _ value := by simp [hgiven, String.append_assoc, ne_append_of_dashes hdashes] }
  · have hadds := adds_input h
    obtain ⟨hkeeps, hawaits⟩ := hadds.keeps rfl
    exact hkeeps.reads hdashes hawaits hadds.settled

theorem reads_of_next {arg : String} (h : s.next arg = .ok s') (hescaped : s.escaped = false)
    (harg : arg ≠ "--") : s.Reads s' arg := by
  rcases next_cases h hescaped harg with ⟨text, rfl, hlong⟩ | ⟨hdashes, ⟨c, rest, hshort⟩ | hvalue⟩
  · obtain ⟨met, hadds, hmet⟩ := long_spec hlong
    exact hmet ▸ hadds.reads
  · obtain ⟨hkeeps, hsettled, hawaits⟩ := short_spec hshort
    exact hkeeps.reads hdashes (fun slot hslot h => by simpa using (hawaits slot hslot h).1)
      (hsettled (by simp))
  · exact reads_of_value hvalue hdashes

/-! ### What all arguments add -/

/-- Whether a scan holds what options spell. -/
structure Scan.Holds (s : Scan) (options : List String) : Prop where
  has : ∀ flag, (Meaning.flag flag).isLong →
    (s.draft.has flag ↔ "--" ++ (Meaning.flag flag).name ∈ options)
  given : ∀ slot, (Meaning.slot slot).isLong → ∀ value,
    (s.Given slot value ↔ IsGiven (Meaning.slot slot).name value options)

/-- Whether a scan holds what options spell, and reads on after the last of them. -/
structure Scan.HoldsSoFar (s : Scan) (options : List String) : Prop extends s.Holds options where
  escaped : s.escaped = false
  awaits : ∀ slot, (Meaning.slot slot).isLong →
    (s.Awaits slot ↔ options.getLast? = some ("--" ++ (Meaning.slot slot).name))

theorem pair_infix_concat_iff {α : Type} {a b c : α} {xs : List α} :
    [a, b] <:+: xs ++ [c] ↔ [a, b] <:+: xs ∨ xs.getLast? = some a ∧ c = b := by
  have hsuffix : [a, b] <:+ xs ++ [c] ↔ xs.getLast? = some a ∧ c = b := by
    rw [List.getLast?_eq_some_iff]
    constructor
    · rintro ⟨ys, hys⟩
      rw [List.append_cons] at hys
      obtain ⟨rfl, hlast⟩ := List.append_inj' hys rfl
      exact ⟨⟨ys, rfl⟩, (List.head_eq_of_cons_eq hlast).symm⟩
    · rintro ⟨⟨ys, rfl⟩, rfl⟩
      exact ⟨ys, by simp⟩
  rw [List.infix_concat_iff, hsuffix, or_comm]

theorem isGiven_concat_iff {name value arg : String} {options : List String} :
    IsGiven name value (options ++ [arg]) ↔
      IsGiven name value options ∨ arg = "--" ++ name ++ "=" ++ value ∨
        options.getLast? = some ("--" ++ name) ∧ arg = value := by
  rw [IsGiven, IsGiven, pair_infix_concat_iff, List.mem_append, List.mem_singleton, or_or_or_comm,
    eq_comm]

theorem holdsSoFar_nil : ({} : Scan).HoldsSoFar [] where
  has flag _ := by cases flag <;> simp [Draft.has]
  given slot _ value := by cases slot <;> simp [Scan.Given, Draft.value?, IsGiven]
  escaped := rfl
  awaits slot _ := by simp [Scan.Awaits]

theorem Scan.Reads.holdsSoFar {arg : String} {options : List String} (hreads : s.Reads s' arg)
    (h : s.HoldsSoFar options) : s'.HoldsSoFar (options ++ [arg]) where
  has flag hflag := by
    rw [hreads.has flag hflag, h.has flag hflag, List.mem_append, List.mem_singleton, eq_comm]
  given slot hslot value := by
    rw [hreads.given slot hslot, h.given slot hslot, h.awaits slot hslot, isGiven_concat_iff]
  escaped := hreads.escaped.trans h.escaped
  awaits slot hslot := by
    rw [hreads.awaits slot hslot, List.getLast?_concat, Option.some_inj]

theorem holdsSoFar_of_foldlM {options rest : List String} (hs : s.HoldsSoFar options)
    (hrest : "--" ∉ rest) (h : rest.foldlM Scan.next s = .ok s') :
    s'.HoldsSoFar (options ++ rest) := by
  induction rest generalizing s options with
  | nil =>
    cases h
    rwa [List.append_nil]
  | cons arg rest ih =>
    obtain ⟨next, hnext, h⟩ := bind_eq_ok_iff.mp h
    obtain ⟨harg, hrest⟩ := not_or.mp (mt List.mem_cons.mpr hrest)
    have hreads := reads_of_next hnext hs.escaped (Ne.symm harg)
    simpa using ih (hreads.holdsSoFar hs) hrest h

/-- Behind two dashes there are no options. -/
theorem keeps_of_foldlM {behind : List String} (hescaped : s.escaped = true)
    (h : behind.foldlM Scan.next s = .ok s') : s.Keeps s' := by
  induction behind generalizing s with
  | nil =>
    cases h
    exact ⟨rfl, fun _ _ => rfl, fun _ _ _ => .rfl⟩
  | cons arg rest ih =>
    obtain ⟨next, hnext, h⟩ := bind_eq_ok_iff.mp h
    rw [Scan.next, if_pos hescaped] at hnext
    have hkeeps := ((adds_input hnext).keeps rfl).1
    exact hkeeps.trans (ih (hkeeps.escaped.trans hescaped) h)

theorem holds_of_foldlM {arguments : List String} (h : arguments.foldlM Scan.next {} = .ok s) :
    s.Holds (optionsOf arguments) := by
  have hsplit : optionsOf arguments ++ arguments.dropWhile (· ≠ "--") = arguments :=
    List.takeWhile_append_dropWhile
  have hoptions : "--" ∉ optionsOf arguments := fun hmem => by
    simpa using (List.mem_takeWhile_imp hmem)
  rw [← hsplit, List.foldlM_append] at h
  obtain ⟨held, hheld, h⟩ := bind_eq_ok_iff.mp h
  have hholds := holdsSoFar_of_foldlM holdsSoFar_nil hoptions hheld
  rw [List.nil_append] at hholds
  cases hbehind : arguments.dropWhile (· ≠ "--") with
  | nil =>
    rw [hbehind] at h
    cases h
    exact hholds.toHolds
  | cons arg behind =>
    obtain rfl := eq_of_dropWhile_eq_cons hbehind
    rw [hbehind] at h
    obtain ⟨escaped, hescaped, h⟩ := bind_eq_ok_iff.mp h
    rw [Scan.next, if_neg (by simp [hholds.escaped])] at hescaped
    cases hescaped
    have hkeeps := keeps_of_foldlM rfl h
    exact ⟨fun flag hflag => by rw [hkeeps.has flag hflag, hholds.has flag hflag],
      fun slot hslot value => (hkeeps.given slot hslot value).trans (hholds.given slot hslot value)⟩

end

end CommandLine

open CommandLine

/-- Arguments as a draft that is finished. -/
def Args.draft (args : Args) : Draft :=
  { args.toChoices with input := some args.input }

theorem draft_of_finish {d : Draft} {args : Args} (h : d.finish = .ok args) : args.draft = d := by
  unfold Draft.finish at h
  split at h
  · cases h
  · next input hinput =>
    cases h
    rw [Args.draft, ← hinput]

section

variable {arguments : List String} {args : Args} (h : Args.parse arguments = .ok args)

include h

theorem parse_spec :
    ∃ s : Scan, s.Holds (optionsOf arguments) ∧ s.settle = .ok args.draft := by
  obtain ⟨s, hs, h⟩ := bind_eq_ok_iff.mp h
  obtain ⟨d, hd, h⟩ := bind_eq_ok_iff.mp h
  exact ⟨s, holds_of_foldlM hs, draft_of_finish h ▸ hd⟩

/-- A flag is raised if and only if its name is among the options. -/
theorem has_iff_of_parse (flag : Flag) (hflag : (Meaning.flag flag).isLong) :
    args.draft.has flag ↔ "--" ++ (Meaning.flag flag).name ∈ optionsOf arguments := by
  obtain ⟨s, hholds, hd⟩ := parse_spec h
  rw [(settle_spec hd).2.1, hholds.has flag hflag]

/-- A value is in its place if and only if it is given among the options. -/
theorem value?_iff_of_parse (slot : Slot) (hslot : (Meaning.slot slot).isLong) (value : String) :
    args.draft.value? slot = some value ↔
      IsGiven (Meaning.slot slot).name value (optionsOf arguments) := by
  obtain ⟨s, hholds, hd⟩ := parse_spec h
  rw [(settle_spec hd).2.2, hholds.given slot hslot]

theorem dump_iff_of_parse : args.dump = true ↔ "--dump" ∈ optionsOf arguments :=
  has_iff_of_parse h .dump rfl

theorem emitIr_iff_of_parse (file : Path) :
    args.emitIr = some file ↔ IsGiven "emit-ir" file.text (optionsOf arguments) := by
  have htext : args.emitIr = some file ↔ args.emitIr.map Path.text = some file.text := by
    obtain ⟨text⟩ := file
    cases args.emitIr with
    | none => simp
    | some path =>
      cases path
      simp
  exact htext.trans (value?_iff_of_parse h .emitIr rfl file.text)

example :
    let options := optionsOf ["-v", "--emit-ir", "b", "--", "--emit-ir=c"]
    IsGiven "emit-ir" "b" options ∧ ¬ IsGiven "emit-ir" "c" options := by
  decide

/-- The translator is set as the arguments ask for. -/
theorem areAskedBy_of_parse : args.options.AreAskedBy arguments := by
  have hbootstrap : args.noBootstrap ↔ "--no-bootstrap" ∈ optionsOf arguments :=
    has_iff_of_parse h .noBootstrap rfl
  have hannotate : args.noAnnotate ↔ "--no-annotate" ∈ optionsOf arguments :=
    has_iff_of_parse h .noAnnotate rfl
  have hentry (name : String) :
      args.entry = some name ↔ IsGiven "entry" name (optionsOf arguments) :=
    value?_iff_of_parse h .entry rfl name
  refine {
    bootstrap := by simp [Args.options, ← hbootstrap]
    annotate := by simp [Args.options, ← hannotate]
    strict := has_iff_of_parse h .strict rfl
    entry := fun name hname => by simp [Args.options, (hentry name).mpr hname]
    defaultEntry := fun hnone => ?_
    stackBase := rfl }
  have hunset : args.entry = none :=
    Option.eq_none_iff_forall_ne_some.mpr fun name hname => hnone name ((hentry name).mp hname)
  simp [Args.options, hunset]

end

end HackVm
