/-
Requests to a session, step by step.

To add a unit a session takes several steps (`SourceUnit.steps`): it checks the name and every
instruction, enters the name among those of its units, and writes the code of one instruction after
the other. A step that fails ends the request, and what the steps before it did stays done
(`Session.performAll`). All checks come before the first change, so nothing was done then:

* **`Session.handle_eq`** — step by step a session answers as `Session.answer` does, and is
  unchanged if that is an error;
* **`handle_atomic`** — a refused request leaves no trace in the session, in the answers to other
  requests or in the program, and its unit is accepted when corrected unless its name is taken;
* **`refused_name_taken`** — the name of a refused unit may be taken, also when that is not why it
  was refused.
-/
import HackVm.Proofs.Blocks

namespace HackVm

open Assembly

/-! ### Steps -/

/-- A step of adding a unit: a check or a change of the session. -/
inductive UnitStep where
  | checkName (name : String)
  | checkLine (unit : String) (line : SourceLine)
  | register (name : String)
  | emit (scope : Scope) (i : Instruction)

/-- A session after a step, and the error if the step fails. -/
def Session.perform (s : Session) : UnitStep → Session × Option TranslateError
  | .checkName name => (s, if isSymbol name then none else some (.invalidUnitName name))
  | .checkLine unit line =>
    match line.instruction.check with
    | .ok () => (s, none)
    | .error cause => (s, some (.malformedLine unit line.number ⟨cause, line.instruction.text⟩))
  | .register name =>
    if name ∈ s.units then (s, some (.duplicateUnit name))
    else ({ s with units := name :: s.units }, none)
  | .emit scope i =>
    ({ s with lines := s.lines ++ i.code scope s.labels, labels := s.labels.after i }, none)

/-- A session after steps up to the first that fails, and its error. -/
def Session.performAll (s : Session) : List UnitStep → Session × Option TranslateError
  | [] => (s, none)
  | step :: rest =>
    match s.perform step with
    | (t, none) => t.performAll rest
    | (t, some e) => (t, some e)

/-- The steps that write the code of instructions. -/
def emissions (scope : Scope) : List Instruction → List UnitStep
  | [] => []
  | i :: rest => .emit (scope.enter i) i :: emissions (scope.enter i) rest

/-- The steps of adding a unit. -/
def SourceUnit.steps (u : SourceUnit) : List UnitStep :=
  .checkName u.name :: u.lines.map (.checkLine u.name) ++
    .register u.name :: emissions ⟨u.name, none⟩ u.instructions

/-- A session after a request, and the error if the request is refused. -/
def Session.handle (s : Session) : Request → Session × Option TranslateError
  | .unit u => s.performAll u.steps
  | .source name text =>
    match (SourceUnit.read name text s.options.strict).value with
    | .ok u => s.performAll u.steps
    | .error e => (s, some e)

/-! ### All steps of a unit -/

/-- What a session is after an answer, and the error of the answer. -/
def Session.settle (s : Session) : Except TranslateError Session → Session × Option TranslateError
  | .ok t => (t, none)
  | .error e => (s, some e)

theorem Session.performAll_append (s : Session) (first second : List UnitStep) :
    s.performAll (first ++ second) =
      match s.performAll first with
      | (t, none) => t.performAll second
      | (t, some e) => (t, some e) := by
  induction first generalizing s with
  | nil => rfl
  | cons step rest ih =>
    rw [List.cons_append, Session.performAll, Session.performAll]
    rcases s.perform step with ⟨t, _ | e⟩
    · exact ih t
    · rfl

/-- The checks of instructions change nothing. -/
theorem Session.performAll_checkLine (s : Session) (u : SourceUnit) :
    s.performAll (u.lines.map (.checkLine u.name)) = s.settle (u.check.map fun _ => s) := by
  unfold SourceUnit.check
  induction u.lines with
  | nil => rfl
  | cons line rest ih =>
    rw [List.map_cons, Session.performAll, Session.perform, List.forM_eq_forM, List.forM_cons]
    cases hline : line.instruction.check with
    | ok value => exact ih
    | error cause => rfl

theorem Session.performAll_emissions (s : Session) (scope : Scope) (is : List Instruction) :
    s.performAll (emissions scope is) =
      ({ s with lines := s.lines ++ codeFrom scope s.labels is, labels := s.labels.afterAll is },
        none) := by
  induction is generalizing s scope with
  | nil => simp [emissions, Session.performAll, codeFrom, Labels.afterAll]
  | cons i rest ih =>
    simp only [emissions, Session.performAll, Session.perform, ih, codeFrom, Labels.afterAll,
      List.foldl_cons, List.append_assoc]

/-- Step by step a unit is added if it is accepted, and otherwise nothing is changed. -/
theorem Session.performAll_steps (s : Session) (u : SourceUnit) :
    s.performAll u.steps = s.settle (s.addUnit u).value := by
  unfold SourceUnit.steps Session.addUnit
  rw [Session.performAll_append, Session.performAll, Session.perform, Session.accepts_eq]
  by_cases hname : isSymbol u.name
  · simp only [hname, if_true, Session.performAll_checkLine]
    cases hcheck : u.check with
    | error e => rfl
    | ok value =>
      -- all checks are passed, and the session is still as it was
      by_cases htaken : u.name ∈ s.units
      · simp [Session.settle, Except.map, Session.performAll, Session.perform, htaken]
      · simp [Session.settle, Except.map, Session.performAll, Session.perform, htaken,
          Session.performAll_emissions, Session.append, Session.unitLines]
  · simp [hname, Session.settle]

/-- Step by step a session answers a request as it does at once. -/
theorem Session.handle_eq (s : Session) (r : Request) : s.handle r = s.settle (s.answer r) := by
  cases r with
  | unit u => exact s.performAll_steps u
  | source name text =>
    simp only [Session.handle, Session.answer, Session.addSource]
    cases (SourceUnit.read name text s.options.strict).value with
    | error e => rfl
    | ok u => exact s.performAll_steps u

/-- A request is refused and nothing is changed, or it holds a unit that is legal and new, which is
added. -/
theorem Session.handle_cases (s : Session) (r : Request) :
    (∃ e, s.handle r = (s, some e)) ∨
      ∃ u, r.unit? s.options.strict = some u ∧ u.Legal ∧ u.name ∉ s.units ∧
        s.handle r = (s.append u, none) := by
  rw [Session.handle_eq]
  cases hanswer : s.answer r with
  | error e => exact .inl ⟨e, rfl⟩
  | ok t =>
    obtain ⟨u, hu, hlegal, hnew, rfl⟩ := Session.answer_eq_ok hanswer
    exact .inr ⟨u, hu, hlegal, hnew, rfl⟩

/-! ### Names of units -/

/-- The name of the unit that a request is about. -/
def Request.name : Request → String
  | .unit u => u.name
  | .source name _ => name

theorem name_eq_of_unit? {strict : Bool} {r : Request} {u : SourceUnit}
    (h : r.unit? strict = some u) : u.name = r.name := by
  cases r with
  | unit v =>
    obtain rfl : v = u := Option.some.inj h
    rfl
  | source name text =>
    simp only [Request.unit?, SourceUnit.read, Logged.map] at h
    cases hlines : (SourceUnit.readLines name strict 1
        ((Text.lines text.toList).map String.ofList)).value with
    | error e => simp [hlines, Except.map, Except.toOption] at h
    | ok ls =>
      obtain rfl : SourceUnit.mk name ls = u := by
        simpa [hlines, Except.map, Except.toOption] using h
      rfl

/-- A request that can be read as a unit is answered as one for the unit. -/
theorem Session.answer_of_unit? {s : Session} {r : Request} {u : SourceUnit}
    (h : r.unit? s.options.strict = some u) : s.answer r = (s.addUnit u).value := by
  cases r with
  | unit v =>
    obtain rfl : v = u := Option.some.inj h
    rfl
  | source name text =>
    simp only [Request.unit?] at h
    simp only [Session.answer, Session.addSource]
    cases hread : (SourceUnit.read name text s.options.strict).value with
    | error e => simp [hread, Except.toOption] at h
    | ok v =>
      obtain rfl : v = u := by simpa [hread, Except.toOption] using h
      rfl

/-- A legal unit is refused only if its name is taken. -/
theorem Session.addUnit_of_legal {s : Session} {u : SourceUnit} (h : u.Legal) :
    (s.addUnit u).value =
      if u.name ∈ s.units then .error (.duplicateUnit u.name) else .ok (s.append u) := by
  have hcheck : u.check = .ok () := (SourceUnit.check_eq_ok_iff u).mpr h.2
  rw [Session.addUnit, Session.accepts_eq, if_pos h.1, hcheck]
  by_cases htaken : u.name ∈ s.units
  · simp [htaken]
  · simp [htaken]

/-- The error for a request that holds a legal unit. -/
theorem Session.error_of_legal {s : Session} {r : Request} {u : SourceUnit}
    (hu : r.unit? s.options.strict = some u) (h : u.Legal) :
    (s.handle r).2 = if r.name ∈ s.units then some (.duplicateUnit r.name) else none := by
  rw [Session.handle_eq, Session.answer_of_unit? hu, Session.addUnit_of_legal h,
    name_eq_of_unit? hu]
  split <;> rfl

/-! ### Many requests -/

/-- A request with its error, if it was refused, and the lines that were added for it. -/
structure Exchange where
  request : Request
  error? : Option TranslateError
  lines : List String

/-- What happens at a request. -/
def Session.exchange (s : Session) (r : Request) : Exchange :=
  { request := r, error? := (s.handle r).2,
    lines := (s.handle r).1.printed.drop s.printed.length }

/-- What happens at requests, one after the other. -/
def Session.transcript (s : Session) : List Request → List Exchange
  | [] => []
  | r :: rest => s.exchange r :: (s.handle r).1.transcript rest

/-- A session after requests, one after the other. -/
def Session.served (s : Session) (rs : List Request) : Session :=
  rs.foldl (fun t r => (t.handle r).1) s

/-- The requests that are not refused, and what happens at them. -/
def Session.successes (s : Session) (rs : List Request) : List Exchange :=
  (s.transcript rs).filter fun x => x.error?.isNone

section Requests

variable {s t : Session} {r : Request} {rest : List Request}

theorem Session.transcript_cons (s : Session) (r : Request) (rest : List Request) :
    s.transcript (r :: rest) = s.exchange r :: (s.handle r).1.transcript rest := rfl

theorem Session.served_cons (s : Session) (r : Request) (rest : List Request) :
    s.served (r :: rest) = (s.handle r).1.served rest := rfl

theorem Session.successes_cons_of_error {e : TranslateError} (h : s.handle r = (t, some e)) :
    s.successes (r :: rest) = t.successes rest := by
  rw [Session.successes, Session.transcript, h]
  exact List.filter_cons_of_neg (by simp [Session.exchange, h])

theorem Session.successes_cons_of_none (h : s.handle r = (t, none)) :
    s.successes (r :: rest) = s.exchange r :: t.successes rest := by
  rw [Session.successes, Session.transcript, h]
  exact List.filter_cons_of_pos (by simp [Session.exchange, h])

/-- Step by step a session ends as it does when it answers at once. -/
theorem Session.served_eq_attempts (s : Session) (rs : List Request) :
    s.served rs = s.attempts rs := by
  have hsame : (fun (t : Session) (r : Request) => (t.handle r).1) = Session.attempt := by
    funext t r
    rw [Session.handle_eq, Session.attempt]
    cases t.answer r <;> rfl
  rw [Session.served, hsame, Session.attempts]

/-- A request only adds lines. -/
theorem Session.printed_prefix_handle (s : Session) (r : Request) :
    s.printed <+: (s.handle r).1.printed := by
  rcases s.handle_cases r with ⟨e, h⟩ | ⟨u, -, -, -, h⟩
  · exact ⟨[], by rw [List.append_nil, h]⟩
  · rw [h]
    exact ⟨_, (s.printed_append_unit u).symm⟩

/-- The names that a session knows are those of before and of the requests that are not refused. -/
theorem Session.mem_units_served {rs : List Request} {name : String} :
    name ∈ (s.served rs).units ↔
      name ∈ s.units ∨ name ∈ (s.successes rs).map fun x => x.request.name := by
  induction rs generalizing s with
  | nil => simp [Session.served, Session.successes, Session.transcript]
  | cons r rest ih =>
    rw [Session.served_cons, ih]
    rcases s.handle_cases r with ⟨e, h⟩ | ⟨u, hu, -, -, h⟩
    · rw [Session.successes_cons_of_error h, h]
    · have hunits : (s.append u).units = r.name :: s.units := by
        rw [← name_eq_of_unit? hu]
        rfl
      rw [Session.successes_cons_of_none h, h, hunits, List.map_cons, List.mem_cons, List.mem_cons]
      exact or_assoc.trans or_left_comm

/-- Without the requests that are refused the same happens at the others, and a session ends as it
does with them. -/
theorem Session.transcript_successes (s : Session) (rs : List Request) :
    s.transcript ((s.successes rs).map Exchange.request) = s.successes rs ∧
      s.served ((s.successes rs).map Exchange.request) = s.served rs := by
  induction rs generalizing s with
  | nil => exact ⟨rfl, rfl⟩
  | cons r rest ih =>
    obtain ⟨htranscript, hserved⟩ := ih (s.handle r).1
    rcases s.handle_cases r with ⟨e, h⟩ | ⟨u, -, -, -, h⟩
    · -- the session is as it was, and the rest goes on from it
      rw [h] at htranscript hserved
      rw [Session.successes_cons_of_error h, Session.served_cons, h]
      exact ⟨htranscript, hserved⟩
    · have hhandle : s.handle (s.exchange r).request = (s.append u, none) := h
      rw [h] at htranscript hserved
      rw [Session.successes_cons_of_none h, List.map_cons, Session.transcript_cons,
        Session.served_cons, Session.served_cons, hhandle, h, htranscript]
      exact ⟨rfl, hserved⟩

end Requests

/-- A session that was started with options and given requests. -/
def reached (options : Options) (earlier : List Request) : Session :=
  (Session.start options).served earlier

theorem options_reached (options : Options) (earlier : List Request) :
    (reached options earlier).options = options := by
  rw [reached, Session.served_eq_attempts, Session.attempts_eq, Session.options_appendAll,
    Session.options_start]

/-- The names of the units that were accepted among requests. -/
def takenNames (options : Options) (earlier : List Request) : List String :=
  ((Session.start options).successes earlier).map fun x => x.request.name

/-- A request only adds lines. If it is refused, the session is as it was; a correction, which is a
request about the same name that holds a legal unit, is then accepted, or refused because a unit was
accepted before under the name. The requests that are refused may be left out: the same happens at
the others, and the session ends the same way. -/
theorem handle_atomic (options : Options) (earlier : List Request) (r : Request) :
    (reached options earlier).printed <+: ((reached options earlier).handle r).1.printed ∧
    (∀ e, ((reached options earlier).handle r).2 = some e →
      ((reached options earlier).handle r).1 = reached options earlier ∧
      ∀ (correction : Request) (u : SourceUnit), correction.name = r.name →
        correction.unit? options.strict = some u → u.Legal →
        (((reached options earlier).handle r).1.handle correction).2 =
          if r.name ∈ takenNames options earlier then some (.duplicateUnit r.name) else none) ∧
    (Session.start options).transcript
        (((Session.start options).successes earlier).map Exchange.request) =
      (Session.start options).successes earlier ∧
    reached options (((Session.start options).successes earlier).map Exchange.request) =
      reached options earlier := by
  refine ⟨Session.printed_prefix_handle _ r, ?_, Session.transcript_successes _ earlier⟩
  intro e he
  have hsame : ((reached options earlier).handle r).1 = reached options earlier := by
    rcases (reached options earlier).handle_cases r with ⟨e', h⟩ | ⟨u, -, -, -, h⟩
    · rw [h]
    · rw [h] at he
      cases he
  refine ⟨hsame, ?_⟩
  intro correction u hname hu hlegal
  have hunits : r.name ∈ (reached options earlier).units ↔ r.name ∈ takenNames options earlier := by
    rw [reached, Session.mem_units_served, Session.units_start]
    simp [takenNames]
  rw [hsame, Session.error_of_legal (by rw [options_reached]; exact hu) hlegal, hname]
  simp only [hunits]

/-- A malformed source is refused, and its correction is accepted. -/
theorem handle_atomic_corrected :
    let s := reached {} [.source "Main" "eq"]
    (∃ e, (s.handle (.source "Other" "foo bar baz")).2 = some e) ∧
      (s.handle (.source "Other" "foo bar baz")).1 = s ∧
      ((s.handle (.source "Other" "foo bar baz")).1.handle (.source "Other" "gt")).2 = none := by
  obtain ⟨e, he⟩ : ∃ e, ((reached {} [.source "Main" "eq"]).handle
      (.source "Other" "foo bar baz")).2 = some e := ⟨_, rfl⟩
  obtain ⟨hsame, hcorrection⟩ := (handle_atomic {} [.source "Main" "eq"]
    (.source "Other" "foo bar baz")).2.1 e he
  have hlegal : (SourceUnit.mk "Other" [⟨1, .compare .gt⟩]).Legal :=
    ⟨by decide, List.forall_mem_singleton.mpr rfl⟩
  have haccepted := hcorrection (.source "Other" "gt") _ rfl rfl hlegal
  exact ⟨⟨e, he⟩, hsame, haccepted⟩

/-- A malformed source whose name is taken is refused because of its line, and then every correction
of it because of its name. -/
theorem refused_name_taken :
    (∃ e, ((reached {} [.source "Main" ""]).handle (.source "Main" "foo bar baz")).2 =
      some (.malformedLine "Main" 1 e)) ∧
    ∀ (correction : Request) (u : SourceUnit), correction.name = "Main" →
      correction.unit? false = some u → u.Legal →
      ((reached {} [.source "Main" "", .source "Main" "foo bar baz"]).handle correction).2 =
        some (.duplicateUnit "Main") := by
  refine ⟨⟨_, rfl⟩, ?_⟩
  intro correction u hname hu hlegal
  have htaken : "Main" ∈ (reached {} [.source "Main" "", .source "Main" "foo bar baz"]).units := by
    decide +kernel
  rw [Session.error_of_legal (by rw [options_reached]; exact hu) hlegal, hname, if_pos htaken]

end HackVm
