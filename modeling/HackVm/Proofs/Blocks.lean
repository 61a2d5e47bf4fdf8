/-
A program as a sequence of blocks.

A block is the code that begins a program, or the code of one instruction in its
scope (`Block`). The lines of a program are those of its blocks, one after the
other:

* **`program`** — the blocks of a list of units;
* **`translate_eq_ok_iff`** — units translate if they are legal and have names of their own, and
  their lines are then those of `program`;
* **`Session.attempts_eq`** — what a session holds after any requests, refused ones among them, is
  what it holds after the units that it accepted.

What a block declares and refers to is read off its instruction: functions
(`Block.function?`, `Block.callee?`), labels of the program (`Block.label?`,
`Block.target?`), static words (`Block.static?`) and labels that the translator
makes up (`Block.madeUp`).
-/
import HackVm.Proofs.Symbols
import HackVm.Session

namespace HackVm

open Assembly

/-- The code that begins a program, or the code of an instruction: where it stands, and the numbers
that its labels take. -/
inductive Block where
  | bootstrap (stackBase : UInt16) (entry : String) (id : Nat)
  | instruction (scope : Scope) (labels : Labels) (i : Instruction)
  deriving DecidableEq, Repr

/-- The lines of a block. -/
def Block.code : Block → List Line
  | .bootstrap stackBase entry id => HackVm.bootstrap stackBase entry id
  | .instruction scope labels i => i.code scope labels

/-- The blocks of a sequence of instructions that begins in a scope. -/
def blocksFrom (scope : Scope) (labels : Labels) : List Instruction → List Block
  | [] => []
  | i :: rest =>
    .instruction (scope.enter i) labels i :: blocksFrom (scope.enter i) (labels.after i) rest

/-- The blocks of units, the first of which takes the given numbers. -/
def programFrom (labels : Labels) : List SourceUnit → List Block
  | [] => []
  | u :: rest =>
    blocksFrom ⟨u.name, none⟩ labels u.instructions ++
      programFrom (labels.afterAll u.instructions) rest

/-- The blocks of a program. -/
def program (options : Options) (units : List SourceUnit) : List Block :=
  if options.bootstrap then
    .bootstrap options.stackBase options.entry 0 :: programFrom (Labels.take {} .call) units
  else programFrom {} units

/-! ### What blocks declare and refer to -/

/-- The function that a block declares. -/
def Block.function? : Block → Option String
  | .instruction _ _ (.function name _) => some name
  | _ => none

/-- The label of the program that a block declares. -/
def Block.label? : Block → Option String
  | .instruction scope _ (.label name) => some (scope.label name)
  | _ => none

/-- The label of the program that a block jumps to. -/
def Block.target? : Block → Option String
  | .instruction scope _ (.goto name) | .instruction scope _ (.ifGoto name) =>
    some (scope.label name)
  | _ => none

/-- The function that a block calls. -/
def Block.callee? : Block → Option String
  | .bootstrap _ entry _ => some entry
  | .instruction _ _ (.call name _) => some name
  | _ => none

/-- The static word that a block pushes or pops into. -/
def Block.static? : Block → Option String
  | .instruction scope _ (.pushStatic i) | .instruction scope _ (.popStatic i) =>
    some (scope.static i)
  | _ => none

/-- The labels that the translator makes up for a block. -/
def Block.madeUp : Block → List String
  | .bootstrap _ entry id => [Template.returnLabel entry id]
  | .instruction _ labels (.compare op) =>
    compareParts.map fun part => Template.compareLabel op part labels.compare
  | .instruction _ labels (.call name _) => [Template.returnLabel name labels.call]
  | _ => []

/-! ### Legal units -/

/-- A unit whose name is a symbol and whose instructions are such as a source line holds. -/
def SourceUnit.Legal (u : SourceUnit) : Prop :=
  isSymbol u.name ∧ ∀ i ∈ u.instructions, i.check = .ok ()

/-- A block all of whose names are symbols, and whose instruction is such as a source line holds. -/
def Block.Legal : Block → Prop
  | .bootstrap _ entry _ => isSymbol entry
  | .instruction scope _ i =>
    isSymbol scope.unit ∧ isSymbol (scope.function.getD scope.unit) ∧ i.check = .ok ()

theorem isSymbol_of_readSymbol {name : String}
    (h : (readSymbol name).map (fun _ => ()) = .ok ()) : isSymbol name := by
  unfold readSymbol at h
  split at h
  · assumption
  · cases h

theorem legal_of_mem_blocksFrom {is : List Instruction} (scope : Scope) {labels : Labels}
    (hunit : isSymbol scope.unit) (hscope : isSymbol (scope.function.getD scope.unit))
    (his : ∀ i ∈ is, i.check = .ok ()) : ∀ b ∈ blocksFrom scope labels is, b.Legal := by
  induction is generalizing scope labels with
  | nil => simp [blocksFrom]
  | cons i rest ih =>
    have hi : i.check = .ok () := his i (by simp)
    -- a function begins a scope of its own, whose name was checked with the instruction
    have henter : isSymbol (scope.enter i).unit ∧
        isSymbol ((scope.enter i).function.getD (scope.enter i).unit) := by
      cases i with
      | function name n => exact ⟨hunit, isSymbol_of_readSymbol hi⟩
      | _ => exact ⟨hunit, hscope⟩
    intro b hb
    rcases List.mem_cons.mp hb with rfl | hb
    · exact ⟨henter.1, henter.2, hi⟩
    · exact ih _ henter.1 henter.2 (fun j hj => his j (by simp [hj])) b hb

theorem legal_of_mem_programFrom {units : List SourceUnit} {labels : Labels}
    (h : ∀ u ∈ units, u.Legal) : ∀ b ∈ programFrom labels units, b.Legal := by
  induction units generalizing labels with
  | nil => simp [programFrom]
  | cons u rest ih =>
    intro b hb
    obtain ⟨hname, hchecks⟩ := h u (by simp)
    rcases List.mem_append.mp hb with hb | hb
    · exact legal_of_mem_blocksFrom ⟨u.name, none⟩ hname hname hchecks b hb
    · exact ih (fun v hv => h v (by simp [hv])) b hb

theorem legal_of_mem_program {options : Options} {units : List SourceUnit}
    (hentry : isSymbol options.entry) (h : ∀ u ∈ units, u.Legal) :
    ∀ b ∈ program options units, b.Legal := by
  intro b hb
  unfold program at hb
  split at hb
  · rcases List.mem_cons.mp hb with rfl | hb
    · exact hentry
    · exact legal_of_mem_programFrom h b hb
  · exact legal_of_mem_programFrom h b hb

/-! ### Lines of a session -/

theorem codeFrom_eq (scope : Scope) (labels : Labels) (is : List Instruction) :
    codeFrom scope labels is = (blocksFrom scope labels is).flatMap Block.code := by
  induction is generalizing scope labels with
  | nil => rfl
  | cons i rest ih => simp [codeFrom, blocksFrom, ih, Block.code]

theorem blocksFrom_append (scope : Scope) (labels : Labels) (first second : List Instruction) :
    blocksFrom scope labels (first ++ second) = blocksFrom scope labels first ++
      blocksFrom (first.foldl Scope.enter scope) (labels.afterAll first) second := by
  induction first generalizing scope labels with
  | nil => rfl
  | cons i rest ih =>
    rw [List.cons_append, blocksFrom, blocksFrom, ih, List.cons_append]
    rfl

theorem codeFrom_append (scope : Scope) (labels : Labels) (first second : List Instruction) :
    codeFrom scope labels (first ++ second) = codeFrom scope labels first ++
      codeFrom (first.foldl Scope.enter scope) (labels.afterAll first) second := by
  rw [codeFrom_eq, blocksFrom_append, List.flatMap_append, ← codeFrom_eq, ← codeFrom_eq]

theorem exists_programFrom_append (labels : Labels) (earlier : List SourceUnit) :
    ∃ next, ∀ later, programFrom labels (earlier ++ later) =
      programFrom labels earlier ++ programFrom next later := by
  induction earlier generalizing labels with
  | nil => exact ⟨labels, fun _ => rfl⟩
  | cons u rest ih =>
    obtain ⟨next, hnext⟩ := ih (labels.afterAll u.instructions)
    refine ⟨next, fun later => ?_⟩
    rw [List.cons_append, programFrom, programFrom, hnext, List.append_assoc]

/-- The blocks of the first units are the same whatever units follow. -/
theorem exists_program_append (options : Options) (earlier : List SourceUnit) :
    ∃ next, ∀ later, program options (earlier ++ later) =
      program options earlier ++ programFrom next later := by
  unfold program
  split
  · obtain ⟨next, hnext⟩ := exists_programFrom_append (Labels.take {} .call) earlier
    exact ⟨next, fun later => by rw [hnext, List.cons_append]⟩
  · exact exists_programFrom_append {} earlier

/-- A session with units at its end, which it is not asked about. -/
def Session.appendAll (s : Session) (units : List SourceUnit) : Session :=
  units.foldl Session.append s

theorem Session.options_start (options : Options) :
    (Session.start options).options = options := by
  unfold Session.start
  split <;> rfl

theorem Session.units_start (options : Options) : (Session.start options).units = [] := by
  unfold Session.start
  split <;> rfl

/-- A session prints the lines of a unit behind those of before. -/
theorem Session.printed_append_unit (s : Session) (u : SourceUnit) :
    (s.append u).printed =
      s.printed ++
        Assembly.printed s.options.annotate (codeFrom ⟨u.name, none⟩ s.labels u.instructions) :=
  printed_append _ _ _

theorem Session.options_appendAll (s : Session) (units : List SourceUnit) :
    (s.appendAll units).options = s.options := by
  induction units generalizing s with
  | nil => rfl
  | cons u rest ih => exact ih (s.append u)

theorem Session.lines_appendAll (s : Session) (units : List SourceUnit) :
    (s.appendAll units).lines = s.lines ++ (programFrom s.labels units).flatMap Block.code := by
  induction units generalizing s with
  | nil => simp [Session.appendAll, programFrom]
  | cons u rest ih =>
    have := ih (s.append u)
    simp only [Session.appendAll, List.foldl_cons] at this ⊢
    rw [this]
    simp [Session.append, Session.unitLines, codeFrom_eq, programFrom]

theorem Session.lines_appendAll_start (options : Options) (units : List SourceUnit) :
    ((Session.start options).appendAll units).lines =
      (program options units).flatMap Block.code := by
  rw [Session.lines_appendAll, program, Session.start]
  split
  · rfl
  · rfl

theorem Session.printed_appendAll_start (options : Options) (units : List SourceUnit) :
    ((Session.start options).appendAll units).printed =
      Assembly.printed options.annotate ((program options units).flatMap Block.code) := by
  rw [Session.printed, Session.options_appendAll, Session.lines_appendAll_start,
    Session.options_start]

/-! ### Accepted units -/

theorem SourceUnit.check_eq_ok_iff (u : SourceUnit) :
    u.check = .ok () ↔ ∀ i ∈ u.instructions, i.check = .ok () := by
  unfold SourceUnit.check SourceUnit.instructions
  -- the check stops at the first instruction that fails it
  induction u.lines with
  | nil => simp; rfl
  | cons l rest ih =>
    rw [List.forM_eq_forM, List.forM_cons]
    rw [List.forM_eq_forM] at ih
    cases hl : l.instruction.check with
    | error cause =>
      constructor
      · intro h
        cases h
      · intro h
        cases hl.symm.trans (h l.instruction (by simp))
    | ok value =>
      have hcons : (∀ i ∈ (l :: rest).map SourceLine.instruction, i.check = .ok ()) ↔
          ∀ i ∈ rest.map SourceLine.instruction, i.check = .ok () := by simp [hl]
      exact ih.trans hcons.symm

/-- A unit is asked for its name, then for its instructions, and last for whether it is new. -/
theorem Session.accepts_eq (s : Session) (u : SourceUnit) :
    s.accepts u =
      if isSymbol u.name then
        match u.check with
        | .error e => .error e
        | .ok () => if u.name ∈ s.units then .error (.duplicateUnit u.name) else .ok ()
      else .error (.invalidUnitName u.name) := by
  unfold Session.accepts
  by_cases hname : isSymbol u.name
  · cases hcheck : u.check with
    | error e => simp [hname, bind, Except.bind]
    | ok value =>
      by_cases hmem : u.name ∈ s.units
      · simp [hname, hmem, bind, Except.bind, throw, throwThe, MonadExceptOf.throw]
      · simp [hname, hmem, bind, Except.bind, pure, Except.pure]
  · simp [hname, bind, Except.bind, throw, throwThe, MonadExceptOf.throw]

theorem Session.accepts_eq_ok_iff (s : Session) (u : SourceUnit) :
    s.accepts u = .ok () ↔ u.Legal ∧ u.name ∉ s.units := by
  rw [Session.accepts_eq, SourceUnit.Legal, ← SourceUnit.check_eq_ok_iff]
  by_cases hname : isSymbol u.name
  · cases hcheck : u.check with
    | error e => simp [hname]
    | ok value => by_cases hmem : u.name ∈ s.units <;> simp [hname, hmem]
  · simp [hname]

theorem Session.addUnit_eq_ok_iff {s t : Session} {u : SourceUnit} :
    (s.addUnit u).value = .ok t ↔ (u.Legal ∧ u.name ∉ s.units) ∧ t = s.append u := by
  rw [← Session.accepts_eq_ok_iff, Session.addUnit]
  cases s.accepts u <;> simp [eq_comm]

theorem Session.addUnits_eq_ok_iff {s t : Session} {units : List SourceUnit} :
    (s.addUnits units).value = .ok t ↔
      (∀ u ∈ units, u.Legal) ∧ (units.map SourceUnit.name).Nodup ∧
        (∀ u ∈ units, u.name ∉ s.units) ∧ t = s.appendAll units := by
  induction units generalizing s with
  | nil => simp [Session.addUnits, Session.appendAll, eq_comm]
  | cons u rest ih =>
    rw [Session.addUnits]
    cases hu : (s.addUnit u).value with
    | error e =>
      have hnot : ¬ (u.Legal ∧ u.name ∉ s.units) := by
        intro h
        rw [Session.addUnit_eq_ok_iff.mpr ⟨h, rfl⟩] at hu
        cases hu
      simp only [reduceCtorEq, false_iff]
      rintro ⟨hlegal, -, hnew, -⟩
      exact hnot ⟨hlegal u (by simp), hnew u (by simp)⟩
    | ok s' =>
      obtain ⟨⟨hlegal, hnew⟩, rfl⟩ := Session.addUnit_eq_ok_iff.mp hu
      -- the names that the rest must avoid are those of before and that of `u`
      have hunits : (s.append u).units = u.name :: s.units := rfl
      rw [ih, hunits]
      simp only [List.mem_cons, not_or, List.map_cons, List.nodup_cons, List.mem_map,
        forall_eq_or_imp, Session.appendAll, List.foldl_cons, hlegal, hnew, true_and,
        not_false_eq_true]
      constructor
      · rintro ⟨h₁, h₂, h₃, h₄⟩
        refine ⟨h₁, ⟨?_, h₂⟩, fun v hv => (h₃ v hv).2, h₄⟩
        rintro ⟨v, hv, hname⟩
        exact (h₃ v hv).1 hname
      · rintro ⟨h₁, ⟨h₀, h₂⟩, h₃, h₄⟩
        refine ⟨h₁, h₂, ?_, h₄⟩
        intro v hv
        exact ⟨fun hname => h₀ ⟨v, hv, hname⟩, h₃ v hv⟩

/-- Units translate if they are legal and no two of them have one name, and not otherwise; their
lines are those of their blocks. -/
theorem translate_eq_ok_iff {options : Options} {units : List SourceUnit} {lines : List String} :
    (translate options units).value = .ok lines ↔
      (∀ u ∈ units, u.Legal) ∧ (units.map SourceUnit.name).Nodup ∧
        lines = printed options.annotate ((program options units).flatMap Block.code) := by
  rw [← Session.printed_appendAll_start]
  unfold translate Logged.map
  cases hs : ((Session.start options).addUnits units).value with
  | error e =>
    simp only [Except.map, reduceCtorEq, false_iff]
    rintro ⟨hlegal, hnodup, -⟩
    have hnew : ∀ u ∈ units, u.name ∉ (Session.start options).units := by
      simp [Session.units_start]
    rw [Session.addUnits_eq_ok_iff.mpr ⟨hlegal, hnodup, hnew, rfl⟩] at hs
    cases hs
  | ok s =>
    obtain ⟨hlegal, hnodup, -, rfl⟩ := Session.addUnits_eq_ok_iff.mp hs
    simp only [Except.map, Except.ok.injEq, hnodup, true_and]
    constructor
    · intro h
      exact ⟨hlegal, h.symm⟩
    · rintro ⟨-, h⟩
      exact h.symm

/-! ### Requests, some of which are refused -/

/-- What a session is asked to add. -/
inductive Request where
  | unit (u : SourceUnit)
  | source (name text : String)

/-- The unit that a request holds, if its text can be read. -/
def Request.unit? (strict : Bool) : Request → Option SourceUnit
  | .unit u => some u
  | .source name text => (SourceUnit.read name text strict).value.toOption

/-- What a session answers to a request. -/
def Session.answer (s : Session) : Request → Except TranslateError Session
  | .unit u => (s.addUnit u).value
  | .source name text => (s.addSource name text).value

/-- A session after a request; a refused one leaves it as it was. -/
def Session.attempt (s : Session) (r : Request) : Session :=
  match s.answer r with
  | .ok t => t
  | .error _ => s

/-- A session after requests, one after the other. -/
def Session.attempts (s : Session) (rs : List Request) : Session :=
  rs.foldl Session.attempt s

/-- The units that a session accepts among requests, in order. -/
def Session.accepted (s : Session) : List Request → List SourceUnit
  | [] => []
  | r :: rest =>
    match s.answer r with
    | .ok t => (r.unit? s.options.strict).toList ++ t.accepted rest
    | .error _ => s.accepted rest

/-- A request that is not refused adds its unit, which is legal and new. -/
theorem Session.answer_eq_ok {s t : Session} {r : Request} (h : s.answer r = .ok t) :
    ∃ u, r.unit? s.options.strict = some u ∧ u.Legal ∧ u.name ∉ s.units ∧ t = s.append u := by
  cases r with
  | unit u =>
    obtain ⟨⟨hlegal, hnew⟩, ht⟩ := Session.addUnit_eq_ok_iff.mp h
    exact ⟨u, rfl, hlegal, hnew, ht⟩
  | source name text =>
    simp only [Session.answer, Session.addSource] at h
    cases hread : (SourceUnit.read name text s.options.strict).value with
    | error e => simp [hread] at h
    | ok u =>
      rw [hread] at h
      obtain ⟨⟨hlegal, hnew⟩, ht⟩ := Session.addUnit_eq_ok_iff.mp h
      exact ⟨u, by simp [Request.unit?, hread, Except.toOption], hlegal, hnew, ht⟩

theorem Session.legal_of_mem_accepted (s : Session) (rs : List Request) :
    ∀ u ∈ s.accepted rs, u.Legal := by
  induction rs generalizing s with
  | nil => simp [Session.accepted]
  | cons r rest ih =>
    intro u hu
    rw [Session.accepted] at hu
    split at hu
    · rename_i t hanswer
      obtain ⟨v, hv, hlegal, -, -⟩ := Session.answer_eq_ok hanswer
      rw [hv] at hu
      rcases List.mem_append.mp hu with hu | hu
      · rwa [show u = v by simpa using hu]
      · exact ih _ u hu
    · exact ih _ u hu

/-- After any requests a session is as if it had been given the units that it accepted. -/
theorem Session.attempts_eq (s : Session) (rs : List Request) :
    s.attempts rs = s.appendAll (s.accepted rs) := by
  -- the session changes along the requests, so the induction is for any that it begins with
  induction rs generalizing s with
  | nil => rfl
  | cons r rest ih =>
    have ih' := ih (s.attempt r)
    unfold Session.attempts at ih' ⊢
    rw [List.foldl_cons, ih', Session.accepted, Session.attempt]
    cases hanswer : s.answer r with
    | error e => rfl
    | ok t =>
      obtain ⟨u, hu, -, -, rfl⟩ := Session.answer_eq_ok hanswer
      simp [hu, Session.appendAll]

end HackVm
