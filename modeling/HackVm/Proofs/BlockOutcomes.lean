/-
How a walk through the code of a block ends.

A block is installed in a program if its code stands there and its labels name
their places (`Block.Installed`). From the beginning of its code the machine then
walks to one place outside of it, and what it leaves in memory is what the block
does (`Block.effect`). Only a comparison jumps inside its own code; it chooses
between the difference of its operands and their signs (`gap`).

* **`Block.outcome`** — the walk ends as the block's effect says, or in a fault where there is none.
-/
import HackVm.Proofs.TemplateEffects

namespace HackVm

open Assembly Machine Template

/-! ### Comparing -/

/-- The word whose sign a comparison looks at: the difference, unless it could overflow. -/
def gap (x y : Word) : Word :=
  if x.toInt < 0 then if y.toInt < 0 then x - y else -1
  else if 0 ≤ y.toInt then x - y else 1

/-- The sign of the gap is that of the difference of the numbers. -/
theorem toInt_gap (x y : Word) :
    (0 < (gap x y).toInt ↔ y.toInt < x.toInt) ∧ ((gap x y).toInt = 0 ↔ x = y) ∧
      ((gap x y).toInt < 0 ↔ x.toInt < y.toInt) := by
  have hx₁ : -2 ^ 15 ≤ x.toInt := BitVec.le_toInt x
  have hx₂ : x.toInt < 2 ^ 15 := BitVec.toInt_lt
  have hy₁ : -2 ^ 15 ≤ y.toInt := BitVec.le_toInt y
  have hy₂ : y.toInt < 2 ^ 15 := BitVec.toInt_lt
  have hsub : (x - y).toInt = (x.toInt - y.toInt).bmod (2 ^ 16) := BitVec.toInt_sub
  have hone : (1 : Word).toInt = 1 := by decide
  have hminus : (-1 : Word).toInt = -1 := by decide
  rw [← BitVec.toInt_inj]
  rw [Int.bmod_def] at hsub
  unfold gap
  split
  · split
    · omega
    · rw [hminus]
      omega
  · split
    · omega
    · rw [hone]
      omega

/-- The jump of a comparison is taken if the words compare as asked. -/
theorem holds?_gap (op : CompareOp) (x y : Word) :
    holds? op.jump (gap x y) = .ok (decide (op.Holds x y)) := by
  obtain ⟨hgt, heq, hlt⟩ := toInt_gap x y
  cases op with
  | eq => exact congrArg Except.ok (decide_eq_decide.mpr heq)
  | gt => exact congrArg Except.ok (decide_eq_decide.mpr hgt)
  | lt => exact congrArg Except.ok (decide_eq_decide.mpr hlt)

/-- The code of a comparison, cut at its jumps and labels. -/
theorem compare_code (value : String → Word) (op : CompareOp) (id : Nat) :
    ops value (compare op id) =
      ops value (popTo scratchA ++ popTo scratchB ++
        [Template.load scratchB, setD (.y .m), Template.load (compareLabel op "LNEG" id)]) ++
      [.compute {} .d .lt] ++
      ops value [Template.load scratchA, setD (.y .m), Template.load (compareLabel op "SUB" id)] ++
      [.compute {} .d .ge] ++
      ops value [setD .one, Template.load (compareLabel op "TEST" id)] ++
      [.compute {} .zero .always] ++
      ops value [Template.load scratchA, setD (.y .m), Template.load (compareLabel op "SUB" id)] ++
      [.compute {} .d .lt] ++
      ops value [setD .minusOne, Template.load (compareLabel op "TEST" id)] ++
      [.compute {} .zero .always] ++
      ops value [Template.load scratchB, setD (.y .m), Template.load scratchA,
        setD (.dMinusY .m)] ++
      ops value [Template.load (compareLabel op "TRUE" id)] ++
      [.compute {} .d op.jump] ++
      (ops value (pushNumber 0 ++ [Template.load (compareLabel op "END" id)]) ++
        [.compute {} .zero .always]) ++
      ops value (pushNumber (-1)) := by
  have hend : ops value [Line.label (compareLabel op "END" id)] = [] := rfl
  unfold Template.compare pushConstant
  simp only [ops_append, ops_framed, List.append_assoc, hend, List.append_nil]
  generalize ops value (pushNumber 0) = zero
  generalize ops value (pushNumber (-1)) = minusOne
  rfl

/-- A comparison whose code stands at a place and whose labels name their places in it. -/
structure CompareAt (p : Machine.Program) (value : String → Word) (op : CompareOp) (id lo : Nat) :
    Prop where
  code : CodeAt p lo (ops value (compare op id))
  lneg : (value (compareLabel op "LNEG" id)).toNat = lo + 23
  sub : (value (compareLabel op "SUB" id)).toNat = lo + 30
  test : (value (compareLabel op "TEST" id)).toNat = lo + 34
  yes : (value (compareLabel op "TRUE" id)).toNat = lo + 45
  done : (value (compareLabel op "END" id)).toNat = lo + 50

namespace CompareAt

variable {p : Machine.Program} {value : String → Word} {op : CompareOp} {id lo : Nat}

/-- The pieces of the code of a comparison, each in its place. -/
theorem pieces (hc : CompareAt p value op id lo) :
    CodeAt p lo (ops value (popTo scratchA ++ popTo scratchB ++
        [Template.load scratchB, setD (.y .m), Template.load (compareLabel op "LNEG" id)])) ∧
      p.code[lo + 15]? = some (.compute {} .d .lt) ∧
      CodeAt p (lo + 16) (ops value [Template.load scratchA, setD (.y .m),
        Template.load (compareLabel op "SUB" id)]) ∧
      p.code[lo + 19]? = some (.compute {} .d .ge) ∧
      CodeAt p (lo + 20) (ops value [setD .one, Template.load (compareLabel op "TEST" id)]) ∧
      p.code[lo + 22]? = some (.compute {} .zero .always) ∧
      CodeAt p (lo + 23) (ops value [Template.load scratchA, setD (.y .m),
        Template.load (compareLabel op "SUB" id)]) ∧
      p.code[lo + 26]? = some (.compute {} .d .lt) ∧
      CodeAt p (lo + 27) (ops value [setD .minusOne, Template.load (compareLabel op "TEST" id)]) ∧
      p.code[lo + 29]? = some (.compute {} .zero .always) ∧
      CodeAt p (lo + 30) (ops value [Template.load scratchB, setD (.y .m), Template.load scratchA,
        setD (.dMinusY .m)]) ∧
      CodeAt p (lo + 34) (ops value [Template.load (compareLabel op "TRUE" id)]) ∧
      p.code[lo + 35]? = some (.compute {} .d op.jump) ∧
      CodeAt p (lo + 36) (ops value (pushNumber 0 ++ [Template.load (compareLabel op "END" id)]) ++
        [.compute {} .zero .always]) ∧
      CodeAt p (lo + 45) (ops value (pushNumber (-1))) := by
  have hcode := hc.code
  have hfront : (ops value (popTo scratchA ++ popTo scratchB ++
    [Template.load scratchB, setD (.y .m), Template.load (compareLabel op "LNEG" id)])).length =
      15 := rfl
  rw [compare_code] at hcode
  simp only [codeAt_append, CodeAt, and_true, and_assoc, List.length_append, List.length_cons,
    List.length_nil, hfront] at hcode ⊢
  exact hcode

/-- From the last jump on, `-1` or `0` is pushed. -/
theorem outcome_test (h : Standard value) (hc : CompareAt p value op id lo) {m : Memory}
    {a d : Word} {taken : Bool} (htaken : holds? op.jump d = .ok taken) :
    Outcome p lo (lo + 50) ⟨m, a, d, lo + 34⟩
      ((m.push (if taken then -1 else 0)).map fun m => (m, lo + 50)) := by
  obtain ⟨-, -, -, -, -, -, -, -, -, -, -, hload, hjump, hfalse, htrue⟩ := hc.pieces
  refine outcome_of_execute (t := ⟨m, value (compareLabel op "TRUE" id), d, lo + 35⟩) hload
    (List.all_eq_true.mp rfl) (by simp) (by simp [ops, commands, Line.command?, Template.load])
    rfl fun _ => ?_
  refine outcome_of_jump _ hjump rfl htaken ?_ ?_
  · rw [hc.yes]
    dsimp only
    split <;> omega
  · cases taken with
    | true =>
      have hpush := does_pushNumber h (-1) m (value (compareLabel op "TRUE" id)) d (lo + 45)
      simp only [↓reduceIte, hc.yes]
      rw [show (m.push (-1)) = _ from hpush.symm, Option.map_map]
      exact outcome_straight (by simp [ops, commands, pushNumber, Line.command?, Template.load])
        htrue (List.all_eq_true.mp rfl) (Nat.le_add_right lo 45) rfl
    | false =>
      have hpush := (does_pushNumber h 0).goto (compareLabel op "END" id) m
        (value (compareLabel op "TRUE" id)) d (lo + 36)
      rw [hc.done] at hpush
      refine outcome_leaving hfalse (List.all_eq_true.mp rfl) (Nat.le_add_right lo 36)
        (show lo + 36 + 8 < lo + 50 by omega) hpush fun m' pc heq => ?_
      obtain ⟨_, -, hpc⟩ := Option.map_eq_some_iff.mp heq
      cases hpc
      omega

/-- The word pushed is the result of the comparison if the gap is in the data register. -/
theorem outcome_gap (h : Standard value) (hc : CompareAt p value op id lo) (m : Memory)
    (a x y : Word) :
    Outcome p lo (lo + 50) ⟨m, a, gap x y, lo + 34⟩
      ((m.push (op.eval x y)).map fun m => (m, lo + 50)) := by
  have htest := hc.outcome_test h (m := m) (a := a) (holds?_gap op x y)
  simpa only [decide_eq_true_eq, CompareOp.eval] using htest

theorem outcome_sub (h : Standard value) (hc : CompareAt p value op id lo) {m : Memory}
    {a d x y : Word} (hx : m[14]? = some x) (hy : m[13]? = some y) (hgap : gap x y = x - y) :
    Outcome p lo (lo + 50) ⟨m, a, d, lo + 30⟩
      ((m.push (op.eval x y)).map fun m => (m, lo + 50)) := by
  obtain ⟨-, -, -, -, -, -, -, -, -, -, hsub, -⟩ := hc.pieces
  refine outcome_of_execute (t := ⟨m, 13, x - y, lo + 34⟩) hsub (List.all_eq_true.mp rfl)
    (Nat.le_add_right lo 30) (show lo + 30 + 4 < lo + 50 by omega) ?_ fun _ => ?_
  · simp [scratchA, scratchB, h.scratchA, h.scratchB, fetch?, source?, Machine.eval, hx, hy]
  · rw [← hgap]
    exact hc.outcome_gap h m 13 x y

/-- Where the sign of the left word is known: the right word is loaded, and either its sign tells
that the difference does not overflow or a word of the sign of the left one stands for it. -/
theorem outcome_arm (h : Standard value) (hc : CompareAt p value op id lo) {m : Memory}
    {x y w : Word} (hx : m[14]? = some x) (hy : m[13]? = some y) {place : Nat} {comp : Comp}
    {jump : Jump} {same : Bool} (hlow : lo ≤ place) (hhigh : place + 7 ≤ lo + 30)
    (hload : CodeAt p place (ops value [Template.load scratchA, setD (.y .m),
      Template.load (compareLabel op "SUB" id)]))
    (hjump : p.code[place + 3]? = some (.compute {} .d jump))
    (hset : CodeAt p (place + 4) (ops value [setD comp,
      Template.load (compareLabel op "TEST" id)]))
    (hleave : p.code[place + 6]? = some (.compute {} .zero .always))
    (hword : execute (ops value [setD comp, Template.load (compareLabel op "TEST" id)])
      ⟨m, value (compareLabel op "SUB" id), y, place + 4⟩ =
        some ⟨m, value (compareLabel op "TEST" id), w, place + 6⟩)
    (hholds : holds? jump y = .ok same) (hgap : gap x y = if same then x - y else w)
    (a d : Word) :
    Outcome p lo (lo + 50) ⟨m, a, d, place⟩
      ((m.push (op.eval x y)).map fun m => (m, lo + 50)) := by
  refine outcome_of_execute (t := ⟨m, value (compareLabel op "SUB" id), y, place + 3⟩) hload
    (List.all_eq_true.mp rfl) hlow (show place + 3 < lo + 50 by omega)
    (by simp [scratchA, h.scratchA, fetch?, source?, Machine.eval, hy]) fun _ => ?_
  refine outcome_of_jump same hjump rfl hholds ?_ ?_
  · simp only [hc.sub]
    split <;> omega
  · cases same with
    | true =>
      simp only [↓reduceIte, hc.sub]
      exact hc.outcome_sub h hx hy hgap
    | false =>
      refine outcome_of_execute hset (List.all_eq_true.mp rfl) (show lo ≤ place + 4 by omega)
        (show place + 6 < lo + 50 by omega) hword fun _ => ?_
      refine outcome_of_jump true hleave rfl rfl ?_ ?_
      · simp only [↓reduceIte, hc.test]
        omega
      · simp only [↓reduceIte, hc.test]
        obtain rfl : gap x y = w := hgap
        exact hc.outcome_gap h m _ x y

/-- Behind the two pops, the result of the comparison is pushed. -/
theorem outcome_popped (h : Standard value) (hc : CompareAt p value op id lo) {m : Memory}
    {x y : Word} (hx : m[14]? = some x) (hy : m[13]? = some y) :
    Outcome p lo (lo + 50) ⟨m, value (compareLabel op "LNEG" id), x, lo + 15⟩
      ((m.push (op.eval x y)).map fun m => (m, lo + 50)) := by
  obtain ⟨-, hleft, hpos, hposJump, hone, honeJump, hneg, hnegJump, hminus, hminusJump, -⟩ :=
    hc.pieces
  refine outcome_of_jump (decide (x.toInt < 0)) hleft rfl rfl ?_ ?_
  · simp only [decide_eq_true_eq, hc.lneg]
    split <;> omega
  · simp only [decide_eq_true_eq, hc.lneg]
    split
    · rename_i hx₀
      have hgap : gap x y = if decide (y.toInt < 0) then x - y else -1 := by simp [gap, hx₀]
      exact hc.outcome_arm h hx hy (Nat.le_add_right lo 23) le_rfl hneg hnegJump hminus hminusJump
        rfl rfl hgap _ _
    · rename_i hx₀
      have hgap : gap x y = if decide (0 ≤ y.toInt) then x - y else 1 := by simp [gap, hx₀]
      exact hc.outcome_arm h hx hy (Nat.le_add_right lo 16) (by omega) hpos hposJump hone honeJump
        rfl rfl hgap _ _

/-- A comparison pops two words and pushes its result. -/
theorem outcome (h : Standard value) (hc : CompareAt p value op id lo) (m : Memory) (a d : Word) :
    Outcome p lo (lo + 50) ⟨m, a, d, lo⟩
      ((m.compare op.eval).map fun m => (m, lo + 50)) := by
  obtain ⟨hfront, -⟩ := hc.pieces
  have hexec : execute (ops value (popTo scratchA ++ popTo scratchB ++
      [Template.load scratchB, setD (.y .m), Template.load (compareLabel op "LNEG" id)]))
        ⟨m, a, d, lo⟩ = (m.popInto 13).bind fun m => (m.popInto 14).bind fun m =>
          m[14]?.map fun x => ⟨m, value (compareLabel op "LNEG" id), x, lo + 15⟩ := by
    simp [execute_popTo h, scratchA, scratchB, h.scratchA, h.scratchB, fetch?, source?,
      Machine.eval, Option.map_eq_bind, Option.bind_assoc]
  have hfault := fun hnone => outcome_of_execute_eq_none (s := ⟨m, a, d, lo⟩) hfront
    (List.all_eq_true.mp rfl) le_rfl (show lo + 15 ≤ lo + 50 by omega) hnone
  rw [hexec] at hfault
  cases h₁ : m.popInto 13 with
  | none =>
    rw [show m.compare op.eval = none by simp [Memory.compare, h₁]]
    exact hfault (by rw [h₁]; rfl)
  | some m₁ =>
    cases h₂ : m₁.popInto 14 with
    | none =>
      rw [show m.compare op.eval = none by simp [Memory.compare, h₁, h₂]]
      exact hfault (by rw [h₁, Option.bind_some, h₂]; rfl)
    | some m₂ =>
      have hx : m₂[14]? = some m₂[14] := rfl
      have hy : m₂[13]? = some m₂[13] := rfl
      have hcompare : m.compare op.eval = m₂.push (op.eval m₂[14] m₂[13]) := by
        simp [Memory.compare, h₁, h₂, hx, hy]
      rw [hcompare]
      refine outcome_of_execute hfront (List.all_eq_true.mp rfl) le_rfl
        (show lo + 15 < lo + 50 by omega) ?_ fun _ => hc.outcome_popped h hx hy
      rw [hexec, h₁, Option.bind_some, h₂, Option.bind_some, hx, Option.map_some]

end CompareAt

/-! ### Blocks in a program -/

/-- The labels that lines declare, each with the place of the command behind it. -/
def labelPlaces : Nat → List Line → List (String × Nat)
  | _, [] => []
  | place, .label name :: rest => (name, place) :: labelPlaces place rest
  | place, .command _ :: rest => labelPlaces (place + 1) rest
  | place, _ :: rest => labelPlaces place rest

theorem labelPlaces_append (place : Nat) (first second : List Line) :
    labelPlaces place (first ++ second) =
      labelPlaces place first ++ labelPlaces (place + (commands first).length) second := by
  induction first generalizing place with
  | nil => rfl
  | cons l rest ih =>
    cases l with
    | label name => exact congrArg _ (ih place)
    | command c =>
      have hcount : (commands (.command c :: rest)).length = (commands rest).length + 1 := rfl
      rw [hcount, Nat.add_comm _ 1, ← Nat.add_assoc]
      exact ih (place + 1)
    | _ => exact ih place

/-- A block whose code stands at a place and whose labels name their places in it. -/
structure Block.Installed (p : Machine.Program) (value : String → Word) (b : Block) (lo : Nat) :
    Prop where
  code : CodeAt p lo (ops value b.code)
  fits : lo + b.size ≤ 65535
  places : ∀ x ∈ labelPlaces lo b.code, value x.1 = BitVec.ofNat 16 x.2

/-- What a block does to memory and where it leads, if the next block is at the given place. -/
def Block.effect (value : String → Word) (next : Nat) (b : Block) (m : Memory) :
    Option (Memory × Nat) :=
  match b with
  | .bootstrap base entry _ => do
    let m ← m.put? 0 base.toBitVec
    let m ← m.call (BitVec.ofNat 16 next) 5
    return (m, (value entry).toNat)
  | .instruction scope _ i =>
    match i with
    | .goto name => some (m, (value (scope.label name)).toNat)
    | .ifGoto name =>
      m.pop.map fun r => (r.2, if r.1 = 0 then next else (value (scope.label name)).toNat)
    | .call name args =>
      (m.call (BitVec.ofNat 16 next) (value (toString (args.toNat + 5)))).map fun m =>
        (m, (value name).toNat)
    | .return => m.leave.map fun r => (r.1, r.2.toNat)
    | i => (i.change value scope m).map fun m => (m, next)

theorem length_ops (value : String → Word) (b : Block) : (ops value b.code).length = b.size :=
  List.length_map _

/-- A comparison that is installed names its places. -/
theorem compareAt_of_installed {p : Machine.Program} {value : String → Word} {scope : Scope}
    {labels : Labels} {op : CompareOp} {lo : Nat}
    (h : (Block.instruction scope labels (.compare op)).Installed p value lo) :
    CompareAt p value op labels.compare lo := by
  have hfits : lo + 50 ≤ 65535 := h.fits
  have hplaces : ∀ part k, k ≤ 50 → (compareLabel op part labels.compare, lo + k) ∈
      labelPlaces lo (Block.instruction scope labels (.compare op)).code →
      (value (compareLabel op part labels.compare)).toNat = lo + k := by
    intro part k hk hmem
    rw [h.places _ hmem, BitVec.toNat_ofNat]
    omega
  have hlist : labelPlaces lo (Block.instruction scope labels (.compare op)).code =
      [(compareLabel op "LNEG" labels.compare, lo + 23),
        (compareLabel op "SUB" labels.compare, lo + 30),
        (compareLabel op "TEST" labels.compare, lo + 34),
        (compareLabel op "TRUE" labels.compare, lo + 45),
        (compareLabel op "END" labels.compare, lo + 50)] := rfl
  rw [hlist] at hplaces
  have hcode := h.code
  rw [Block.code, Instruction.code, ops_framed] at hcode
  exact ⟨hcode, hplaces _ 23 (by omega) (by simp), hplaces _ 30 (by omega) (by simp),
    hplaces _ 34 (by omega) (by simp), hplaces _ 45 (by omega) (by simp),
    hplaces _ 50 (by omega) (by simp)⟩

theorem isStraight_pushNumber (value : String → Word) (n : Int16) :
    (ops value (pushNumber n)).all Op.isStraight := by
  unfold pushNumber loadD
  split
  · rfl
  · split
    · rfl
    · split <;> rfl

theorem isStraight_zeros (value : String → Word) (n : Nat) :
    (ops value (List.replicate n (pushConstant 0)).flatten).all Op.isStraight := by
  induction n with
  | zero => rfl
  | succ n ih =>
    rw [List.replicate_succ, List.flatten_cons, ops_append, List.all_append, ih, pushConstant,
      ops_framed, isStraight_pushNumber]
    rfl

/-- The code of an instruction that is followed by the next one has no jump. -/
theorem isStraight_body (value : String → Word) (scope : Scope) (labels : Labels) {i : Instruction}
    (hi : i.isStraight) : (ops value (body scope labels i)).all Op.isStraight := by
  cases i with
  | pushConstant n => exact isStraight_pushNumber value n
  | function name n => exact isStraight_zeros value n.toNat
  | binary op => cases op <;> rfl
  | unary op => cases op <;> rfl
  | pushSegment _ _ | popSegment _ _ | pushStatic _ | popStatic _ | pushPointer _ | popPointer _
  | pushTemp _ | popTemp _ | label _ => rfl
  | _ => cases hi

section Outcome

variable {p : Machine.Program} {value : String → Word} {lo : Nat} {b : Block}

/-- The outcome of a block whose last instruction may jump, by what its code executes to. -/
theorem outcome_of_result (hb : b.Installed p value lo) (hsize : b.size ≠ 0)
    (hstraight : ((ops value b.code).dropLast).all Op.isStraight) {m : Memory} {a d : Word}
    {r : Option (Memory × Nat)}
    (hr : (execute (ops value b.code) ⟨m, a, d, lo⟩).map State.result = r)
    (hout : ∀ m pc, r = some (m, pc) → ¬ (lo < pc ∧ pc < lo + b.size)) :
    Outcome p lo (lo + b.size) ⟨m, a, d, lo⟩ r := by
  refine outcome_rest ?_ hb.code (List.all_eq_true.mp hstraight) le_rfl ?_ hr hout
  · rw [← List.length_pos_iff, length_ops]
    omega
  · rw [length_ops]

theorem outcome_of_isStraight (h : Standard value) {scope : Scope} {labels : Labels}
    {i : Instruction} (hi : i.isStraight) (hcheck : i.check = .ok ())
    (hb : (Block.instruction scope labels i).Installed p value lo)
    (hsize : (Block.instruction scope labels i).size ≠ 0) (m : Memory) (a d : Word) :
    Outcome p lo (lo + (Block.instruction scope labels i).size) ⟨m, a, d, lo⟩
      ((i.change value scope m).map fun m =>
        (m, lo + (Block.instruction scope labels i).size)) := by
  have hops : ops value (Block.instruction scope labels i).code =
      ops value (body scope labels i) := ops_framed value _ _
  have hlength := length_ops value (Block.instruction scope labels i)
  rw [hops] at hlength
  rw [← does_body h labels hi hcheck m a d lo, Option.map_map]
  have hcode : CodeAt p lo (ops value (body scope labels i)) := hops ▸ hb.code
  refine outcome_straight ?_ hcode
    (List.all_eq_true.mp (isStraight_body value scope labels hi)) le_rfl ?_
  · rw [← List.length_pos_iff]
    omega
  · rw [hlength]

/-- The code of a call returns behind itself. -/
theorem value_returnLabel {scope : Scope} {labels : Labels} {name : String} {args : UInt16}
    (hb : (Block.instruction scope labels (.call name args)).Installed p value lo) :
    value (returnLabel name labels.call) =
      BitVec.ofNat 16 (lo + (Block.instruction scope labels (.call name args)).size) := by
  have hlist : labelPlaces lo (Block.instruction scope labels (.call name args)).code =
      [(returnLabel name labels.call,
        lo + (Block.instruction scope labels (.call name args)).size)] := rfl
  exact hb.places (returnLabel name labels.call,
    lo + (Block.instruction scope labels (.call name args)).size) (by simp [hlist])

theorem value_returnLabel_bootstrap {base : UInt16} {entry : String} {id : Nat}
    (hb : (Block.bootstrap base entry id).Installed p value lo) :
    value (returnLabel entry id) = BitVec.ofNat 16 (lo + (Block.bootstrap base entry id).size) := by
  have hlist : labelPlaces lo (Block.bootstrap base entry id).code =
      [(returnLabel entry id, lo + (Block.bootstrap base entry id).size)] := rfl
  exact hb.places (returnLabel entry id, lo + (Block.bootstrap base entry id).size)
    (by simp [hlist])

theorem execute_bootstrap (h : Standard value) (base : UInt16) (entry : String) (id : Nat)
    (m : Memory) (a d : Word) (pc : Nat) :
    (execute (ops value (HackVm.bootstrap base entry id)) ⟨m, a, d, pc⟩).map State.result =
      (m.put? 0 base.toBitVec).bind fun m =>
        (m.call (value (returnLabel entry id)) 5).map fun m => (m, (value entry).toNat) := by
  have hfront : execute (ops value
      [loadNumber base.toNat, setD (.y .a), Template.load "SP", setM .d]) ⟨m, a, d, pc⟩ =
        (m.put? 0 base.toBitVec).map fun m => ⟨m, 0, base.toBitVec, pc + 4⟩ := by
    simp [number_index h, h.sp, fetch?, source?, Machine.eval, Option.map_eq_bind]
  have hfive : value (toString ((0 : UInt16).toNat + 5)) = 5 := h.number 5 (by omega)
  rw [HackVm.bootstrap, ops_framed, execute_ops_append, hfront, ops_framed]
  cases m.put? 0 base.toBitVec with
  | none => rfl
  | some m =>
    have hcall := execute_call h entry 0 id m 0 base.toBitVec (pc + 4)
    rw [hfive] at hcall
    exact hcall

/-- From the beginning of its code, a block that is installed is walked through as its effect says,
if that leads out of the block. -/
theorem Block.outcome (h : Standard value) (hlegal : b.Legal) (hb : b.Installed p value lo)
    (hsize : b.size ≠ 0) (m : Memory) (a d : Word)
    (hout : ∀ m' pc, b.effect value (lo + b.size) m = some (m', pc) →
      ¬ (lo < pc ∧ pc < lo + b.size)) :
    Outcome p lo (lo + b.size) ⟨m, a, d, lo⟩ (b.effect value (lo + b.size) m) := by
  cases b with
  | bootstrap base entry id =>
    refine outcome_of_result hb hsize rfl ?_ hout
    refine (execute_bootstrap h base entry id m a d lo).trans ?_
    rw [value_returnLabel_bootstrap hb]
    simp [Block.effect, Option.map_eq_bind]
  | instruction scope labels i =>
    cases i with
    | compare op => exact (compareAt_of_installed hb).outcome h m a d
    | goto name => exact outcome_of_result hb hsize rfl rfl hout
    | ifGoto name =>
      refine outcome_of_result hb hsize rfl ?_ hout
      rw [Block.code, Instruction.code, ops_framed]
      exact execute_ifGoto h (scope.label name) m a d lo
    | call name args =>
      refine outcome_of_result hb hsize rfl ?_ hout
      rw [Block.code, Instruction.code, ops_framed]
      refine (execute_call h name args labels.call m a d lo).trans ?_
      rw [value_returnLabel hb]
      rfl
    | «return» =>
      refine outcome_of_result hb hsize rfl ?_ hout
      rw [Block.code, Instruction.code, ops_framed]
      exact execute_ret h m a d lo
    | _ => exact outcome_of_isStraight h rfl hlegal.2.2 hb hsize m a d

end Outcome

end HackVm
