/-
The ways into the translator.

A program may be added to a session source by source, or read as units that are translated together,
or its units may be written to a bundle and read back before. A session that reads a source adds the
unit that is read (`Session.addSources_eq_ok_iff`), a bundle gives back the units that it was made
of, and a unit is added like its source (`Session.addSource_of_addUnit`):

* **`routes_agree`** — the three ways succeed together, with the same lines; and what a session
  takes as a unit it takes as a source, so that no bundle has lines that no source has.
-/
import HackVm.Proofs.Blocks
import HackVm.Proofs.UnitReading

namespace HackVm

/-- The units that named source texts are read as, if each of them can be read. -/
def readSources (strict : Bool) (sources : List (String × String)) :
    Except TranslateError (List SourceUnit) :=
  sources.mapM fun source => (SourceUnit.read source.1 source.2 strict).value

/-- Whether names and texts and their number are counted in 64 bits. -/
def SourcesFit (sources : List (String × String)) : Prop :=
  sources.length < 2 ^ 64 ∧
    ∀ source ∈ sources, source.1.utf8ByteSize < 2 ^ 64 ∧ source.2.utf8ByteSize < 2 ^ 64

instance (sources : List (String × String)) : Decidable (SourcesFit sources) :=
  inferInstanceAs (Decidable (_ ∧ _))

/-! ### Sources and units -/

theorem readSources_cons_eq_ok_iff {strict : Bool} {source : String × String}
    {rest : List (String × String)} {us : List SourceUnit} :
    readSources strict (source :: rest) = .ok us ↔
      ∃ u others, (SourceUnit.read source.1 source.2 strict).value = .ok u ∧
        readSources strict rest = .ok others ∧ us = u :: others := by
  unfold readSources
  rw [List.mapM_cons]
  cases (SourceUnit.read source.1 source.2 strict).value with
  | error e => simp [bind, Except.bind]
  | ok u =>
    cases rest.mapM fun source => (SourceUnit.read source.1 source.2 strict).value with
    | error e => simp [bind, Except.bind]
    | ok others => simp [bind, Except.bind, pure, Except.pure, eq_comm]

/-- A session that takes a source takes the unit that is read from it. -/
theorem Session.addSource_eq_ok_iff {s t : Session} {name source : String} :
    (s.addSource name source).value = .ok t ↔
      ∃ u, (SourceUnit.read name source s.options.strict).value = .ok u ∧
        (s.addUnit u).value = .ok t := by
  simp only [Session.addSource]
  cases (SourceUnit.read name source s.options.strict).value with
  | error e => simp
  | ok u => simp

theorem Session.options_addUnit {s t : Session} {u : SourceUnit}
    (h : (s.addUnit u).value = .ok t) : t.options = s.options := by
  obtain ⟨-, rfl⟩ := Session.addUnit_eq_ok_iff.mp h
  rfl

theorem Session.addUnits_cons_eq_ok_iff {s t : Session} {u : SourceUnit}
    {rest : List SourceUnit} :
    (s.addUnits (u :: rest)).value = .ok t ↔
      ∃ next, (s.addUnit u).value = .ok next ∧ (next.addUnits rest).value = .ok t := by
  rw [Session.addUnits]
  cases (s.addUnit u).value with
  | error e => simp
  | ok next => simp

theorem Session.addSources_cons_eq_ok_iff {s t : Session} {source : String × String}
    {rest : List (String × String)} :
    (s.addSources (source :: rest)).value = .ok t ↔
      ∃ next, (s.addSource source.1 source.2).value = .ok next ∧
        (next.addSources rest).value = .ok t := by
  rw [Session.addSources]
  cases (s.addSource source.1 source.2).value with
  | error e => simp
  | ok next => simp

/-- A session takes sources if all of them can be read and it takes the units. -/
theorem Session.addSources_eq_ok_iff {s t : Session} {sources : List (String × String)} :
    (s.addSources sources).value = .ok t ↔
      ∃ us, readSources s.options.strict sources = .ok us ∧ (s.addUnits us).value = .ok t := by
  induction sources generalizing s with
  | nil =>
    constructor
    · intro h
      exact ⟨[], rfl, h⟩
    · rintro ⟨us, hus, h⟩
      cases hus
      exact h
  | cons source rest ih =>
    rw [Session.addSources_cons_eq_ok_iff]
    constructor
    · rintro ⟨next, hsource, hrest⟩
      obtain ⟨u, hu, hnext⟩ := Session.addSource_eq_ok_iff.mp hsource
      obtain ⟨us, hus, hunits⟩ := ih.mp hrest
      rw [Session.options_addUnit hnext] at hus
      refine ⟨u :: us, readSources_cons_eq_ok_iff.mpr ⟨u, us, hu, hus, rfl⟩, ?_⟩
      exact Session.addUnits_cons_eq_ok_iff.mpr ⟨next, hnext, hunits⟩
    · rintro ⟨all, hall, hunits⟩
      obtain ⟨u, us, hu, hus, rfl⟩ := readSources_cons_eq_ok_iff.mp hall
      obtain ⟨next, hnext, hrest⟩ := Session.addUnits_cons_eq_ok_iff.mp hunits
      refine ⟨next, Session.addSource_eq_ok_iff.mpr ⟨u, hu, hnext⟩, ih.mpr ⟨us, ?_, hrest⟩⟩
      rw [Session.options_addUnit hnext]
      exact hus

/-- The lines for sources are those for the units that they are read as. -/
theorem addSources_start_eq_ok_iff {options : Options} {sources : List (String × String)}
    {lines : List String} :
    ((Session.start options).addSources sources).value.map Session.printed = .ok lines ↔
      ∃ us, readSources options.strict sources = .ok us ∧
        (translate options us).value = .ok lines := by
  simp only [translate, Logged.map, map_eq_ok_iff, Session.addSources_eq_ok_iff,
    Session.options_start]
  constructor
  · rintro ⟨t, ⟨us, hus, ht⟩, hlines⟩
    exact ⟨us, hus, t, ht, hlines⟩
  · rintro ⟨us, hus, t, ht, hlines⟩
    exact ⟨t, ⟨us, hus, ht⟩, hlines⟩

/-! ### Bundles -/

theorem mem_readSources {strict : Bool} {sources : List (String × String)} {us : List SourceUnit}
    (h : readSources strict sources = .ok us) :
    us.length = sources.length ∧ ∀ u ∈ us, ∃ source ∈ sources,
      (SourceUnit.read source.1 source.2 strict).value = .ok u := by
  induction sources generalizing us with
  | nil =>
    cases h
    exact ⟨rfl, by simp⟩
  | cons source rest ih =>
    obtain ⟨u, others, hu, hothers, rfl⟩ := readSources_cons_eq_ok_iff.mp h
    obtain ⟨hlength, hmem⟩ := ih hothers
    refine ⟨congrArg Nat.succ hlength, ?_⟩
    intro v hv
    rcases List.mem_cons.mp hv with rfl | hv
    · exact ⟨source, List.mem_cons_self, hu⟩
    · obtain ⟨other, hother, hread⟩ := hmem v hv
      exact ⟨other, List.mem_cons_of_mem source hother, hread⟩

/-- Units that are read from sources are read back from their bundle. -/
theorem decode_encode_readSources {strict : Bool} {sources : List (String × String)}
    {us : List SourceUnit} (hfit : SourcesFit sources) (h : readSources strict sources = .ok us) :
    Bundle.decode (Bundle.encode us) = .ok us := by
  obtain ⟨hlength, hmem⟩ := mem_readSources h
  have hfits : Bundle.Fits us := by
    refine ⟨hlength ▸ hfit.1, ?_⟩
    intro u hu
    obtain ⟨source, hsource, hread⟩ := hmem u hu
    exact fits_of_read hread (hfit.2 source hsource).1 (hfit.2 source hsource).2
  have hwhole := (Bundle.reads_units hfits).whole []
  rw [List.append_nil] at hwhole
  rw [Bundle.decode, hwhole]
  rfl

/-! ### Units as sources -/

/-- A session takes the source of a unit that it takes, and is the same then. -/
theorem Session.addSource_of_addUnit {s t : Session} {u : SourceUnit}
    (h : (s.addUnit u).value = .ok t) : (s.addSource u.name u.source).value = .ok t := by
  obtain ⟨⟨hlegal, hnew⟩, rfl⟩ := Session.addUnit_eq_ok_iff.mp h
  obtain ⟨ls, hread, hls⟩ := read_source hlegal.2 s.options.strict
  have hvalue := congrArg Logged.value hread
  refine Session.addSource_eq_ok_iff.mpr ⟨⟨u.name, ls⟩, hvalue, ?_⟩
  -- the line numbers may differ, but the lines of assembly do not depend on them
  have hinstructions : (SourceUnit.mk u.name ls).instructions = u.instructions := hls
  have hread : (SourceUnit.mk u.name ls).Legal := ⟨hlegal.1, hinstructions.symm ▸ hlegal.2⟩
  refine Session.addUnit_eq_ok_iff.mpr ⟨⟨hread, hnew⟩, ?_⟩
  simp only [Session.append, Session.unitLines, hinstructions]

theorem Session.addSources_of_addUnits {s t : Session} {us : List SourceUnit}
    (h : (s.addUnits us).value = .ok t) :
    (s.addSources (us.map fun u => (u.name, u.source))).value = .ok t := by
  induction us generalizing s with
  | nil => exact h
  | cons u rest ih =>
    obtain ⟨next, hnext, hrest⟩ := Session.addUnits_cons_eq_ok_iff.mp h
    rw [List.map_cons]
    exact Session.addSources_cons_eq_ok_iff.mpr
      ⟨next, Session.addSource_of_addUnit hnext, ih hrest⟩

/-- Named sources that are added one after the other give the lines that the units give that they
are read as, and so do these after they were written to a bundle and read back; if one way fails
then all do. A session that takes a unit, wherever the unit comes from, takes the source of it and
has the same lines then, and the lines for units are those for their sources. -/
theorem routes_agree (options : Options) :
    (∀ sources lines,
      (((Session.start options).addSources sources).value.map Session.printed = .ok lines ↔
        ∃ us, readSources options.strict sources = .ok us ∧
          (translate options us).value = .ok lines) ∧
      (SourcesFit sources →
        (((Session.start options).addSources sources).value.map Session.printed = .ok lines ↔
          ∃ us vs, readSources options.strict sources = .ok us ∧
            Bundle.decode (Bundle.encode us) = .ok vs ∧
            (translate options vs).value = .ok lines))) ∧
    (∀ (s t : Session) (u : SourceUnit), (s.addUnit u).value = .ok t →
      (s.addSource u.name u.source).value = .ok t) ∧
    ∀ us lines, (translate options us).value = .ok lines →
      ((Session.start options).addSources (us.map fun u => (u.name, u.source))).value.map
        Session.printed = .ok lines := by
  refine ⟨?_, ?_, ?_⟩
  · intro sources lines
    refine ⟨addSources_start_eq_ok_iff, ?_⟩
    intro hfit
    rw [addSources_start_eq_ok_iff]
    constructor
    · rintro ⟨us, hus, hlines⟩
      exact ⟨us, us, hus, decode_encode_readSources hfit hus, hlines⟩
    · rintro ⟨us, vs, hus, hvs, hlines⟩
      rw [decode_encode_readSources hfit hus] at hvs
      cases hvs
      exact ⟨us, hus, hlines⟩
  · intro s t u h
    exact Session.addSource_of_addUnit h
  · intro us lines h
    obtain ⟨t, ht, hlines⟩ := map_eq_ok_iff.mp h
    exact map_eq_ok_iff.mpr ⟨t, Session.addSources_of_addUnits ht, hlines⟩

/-- Two sources, the first with comments, blanks, letters of either case and a word that is
skipped. -/
def counterSources : List (String × String) :=
  [("Counter", "// one up\nPUSH\n\tpush STATIC 0 // old\r\npush constant -1\nsub\npop static 0"),
    ("Main", "goto end\nlabel end")]

/-- The units that the two sources are read as. -/
def counterUnits : List SourceUnit :=
  [⟨"Counter", [⟨3, .pushStatic 0⟩, ⟨4, .pushConstant (-1)⟩, ⟨5, .binary .sub⟩, ⟨6, .popStatic 0⟩]⟩,
    ⟨"Main", [⟨1, .goto "end"⟩, ⟨2, .label "end"⟩]⟩]

/-- A unit whose line numbers are those of no source. -/
def jumpUnit : SourceUnit :=
  ⟨"A.B", [⟨7, .label "x:y"⟩, ⟨3, .popTemp 7⟩, ⟨3, .pushConstant (-32768)⟩]⟩

theorem routes_agree_counter :
    SourcesFit counterSources ∧ readSources false counterSources = .ok counterUnits ∧
      (∃ lines, (translate {} counterUnits).value = .ok lines ∧
        ((Session.start {}).addSources counterSources).value.map Session.printed = .ok lines ∧
        (∃ us vs, readSources false counterSources = .ok us ∧
          Bundle.decode (Bundle.encode us) = .ok vs ∧ (translate {} vs).value = .ok lines) ∧
        ((Session.start {}).addSources (counterUnits.map fun u => (u.name, u.source))).value.map
          Session.printed = .ok lines) ∧
      ∃ t, ((Session.start {}).addUnit jumpUnit).value = .ok t ∧
        ((Session.start {}).addSource "A.B" jumpUnit.source).value = .ok t := by
  have hfit : SourcesFit counterSources := by
    decide +kernel
  have hread : readSources false counterSources = .ok counterUnits := by
    decide +kernel
  obtain ⟨lines, hlines⟩ : ∃ lines, (translate {} counterUnits).value = .ok lines := ⟨_, rfl⟩
  obtain ⟨t, ht⟩ : ∃ t, ((Session.start {}).addUnit jumpUnit).value = .ok t := ⟨_, rfl⟩
  obtain ⟨hroutes, hunit, hunits⟩ := routes_agree {}
  have hsources := (hroutes counterSources lines).1.mpr ⟨counterUnits, hread, hlines⟩
  exact ⟨hfit, hread, ⟨lines, hlines, hsources, ((hroutes counterSources lines).2 hfit).mp hsources,
    hunits counterUnits lines hlines⟩, t, ht, hunit _ t jumpUnit ht⟩

end HackVm
