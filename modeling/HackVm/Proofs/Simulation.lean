/-
The target machine follows the stack machine.

A state of the target machine mirrors one of the stack machine if its counter is at
the address of the block that comes next and if their memories agree outside the
scratch cells (`Mirrors`). Whatever block the stack machine carries out, the target
machine walks through its code to a state that mirrors the next one
(`mirrors_step`), and so it follows every run (`mirrors_reaches`).

* **`translate_simulates`** — what the translator prints for linked units is loaded as a program
  that follows every run of the stack machine, and halts where that has come to the end.
-/
import HackVm.Proofs.Agreement

namespace HackVm

open Assembly Machine Template

namespace StackMachine

/-- Whether a state of the target machine is between two blocks where the stack machine is, with
the same memory but for the scratch cells. -/
structure Mirrors (bs : List Block) (c : Config) (s : State) : Prop where
  place : s.pc = address bs c.place
  memory : Agree c.memory s.memory

section Blocks

variable {p : Machine.Program} {value : String → Word} {bs : List Block}

/-- An exit leads to the address of the block that comes next. -/
theorem target_of_land (h : Loaded p value bs) {i j : Nat} {exit : Exit}
    (hland : land bs i exit = some j) :
    exit.target value (address bs (i + 1)) = address bs j := by
  cases exit with
  | next =>
    cases hland
    rfl
  | label symbol =>
    obtain ⟨hj, hb, -⟩ := List.findIdx?_eq_some_iff_getElem.mp hland
    have hget := List.getElem?_eq_getElem hj
    exact (congrArg BitVec.toNat (h.label hget (of_decide_eq_true hb))).trans
      (h.toNat_address hget).1
  | function name =>
    obtain ⟨hj, hb, -⟩ := List.findIdx?_eq_some_iff_getElem.mp hland
    have hget := List.getElem?_eq_getElem hj
    exact (congrArg BitVec.toNat (h.function hget (of_decide_eq_true hb))).trans
      (h.toNat_address hget).1
  | address w =>
    have := List.find?_some (p := fun j => decide (address bs j = w.toNat)) hland
    exact (of_decide_eq_true this).symm

/-- An instruction without code does nothing. -/
theorem change_of_size_eq_zero (h : Standard value) {scope : Scope} {labels : Labels}
    {i : Instruction} (hi : i.isStraight) (hcheck : i.check = .ok ())
    (hsize : (Block.instruction scope labels i).size = 0) (μ : Memory) :
    i.change value scope μ = some μ := by
  have hops : ops value (body scope labels i) = [] := by
    rw [← List.length_eq_zero_iff, ← hsize, ← length_ops value, Block.code, Instruction.code,
      ops_framed]
  rw [← does_body h labels hi hcheck μ 0 0 0, hops]
  rfl

/-- A block without code does nothing. -/
theorem effect_of_size_eq_zero (h : Standard value) {b : Block} (hlegal : b.Legal)
    (hsize : b.size = 0) (next : Nat) (μ : Memory) :
    b.effect value next μ = some (μ, next) := by
  cases b with
  | bootstrap base entry id => cases hsize
  | instruction scope labels i =>
    have hchange := fun hi => change_of_size_eq_zero h hi hlegal.2.2 hsize μ
    cases i with
    | compare op => cases hsize
    | goto name => cases hsize
    | ifGoto name => cases hsize
    | call name args => cases hsize
    | «return» => cases hsize
    | _ => exact congrArg (Option.map fun m => (m, next)) (hchange rfl)

/-- Behind a block without code comes the next one. -/
theorem exit_of_size_eq_zero {b : Block} (hsize : b.size = 0) {next : Word} {m m' : Memory}
    {exit : Exit} (hrun : run bs next b m = some (m', exit)) : exit = .next := by
  cases b with
  | bootstrap base entry id => cases hsize
  | instruction scope labels i =>
    cases i with
    | label name => cases hrun; rfl
    | goto name => cases hsize
    | ifGoto name => cases hsize
    | call name args => cases hsize
    | «return» => cases hsize
    | _ =>
      obtain ⟨_, -, heq⟩ := Option.map_eq_some_iff.mp hrun
      cases heq
      rfl

/-- The target machine walks through the code of the block that the stack machine carries out. If
the block has no code, it stays where it is. -/
theorem mirrors_step (h : Loaded p value bs) (hlegal : ∀ b ∈ bs, b.Legal) {c d : Config}
    {s : State} (hc : Mirrors bs c s) (hstep : step bs c = some d) :
    ∃ t, Mirrors bs d t ∧
      ((∃ u, Steps p s u ∧ Machine.Reaches p u t) ∨ s = t ∧ d.place = c.place + 1) := by
  simp only [step, Option.bind_eq_bind, Option.bind_eq_some_iff, Option.pure_def,
    Option.some.injEq] at hstep
  obtain ⟨b, hb, ⟨m, exit⟩, hrun, j, hland, rfl⟩ := hstep
  have hmem := List.mem_of_getElem? hb
  obtain ⟨μ, heffect, hagree⟩ := hc.memory.run h hmem hrun
  by_cases hsize : b.size = 0
  · -- nothing is to be done, and the next block has the same address
    obtain rfl := exit_of_size_eq_zero hsize hrun
    cases hland
    rw [effect_of_size_eq_zero h.standard (hlegal b hmem) hsize] at heffect
    cases heffect
    have hplace : address bs c.place = address bs (c.place + 1) := by
      rw [address_succ hb, hsize, Nat.add_zero]
    exact ⟨s, ⟨hc.place.trans hplace, hagree⟩, .inr ⟨rfl, rfl⟩⟩
  · rw [target_of_land h hland, address_succ hb] at heffect
    have hinstalled := h.installed c.place b hb
    have houtcome := b.outcome h.standard (hlegal b hmem) hinstalled hsize s.memory s.a s.d
      fun m' pc heq => by
        rw [heffect, Option.some.injEq, Prod.mk.injEq] at heq
        exact heq.2 ▸ not_inside hb
    obtain ⟨t, hwalk, ht⟩ := (houtcome (μ, address bs j)).mpr heffect
    rw [← hc.place] at hwalk
    obtain ⟨rfl, hpc⟩ := Prod.mk.inj ht
    exact ⟨t, ⟨hpc, hagree⟩, .inl hwalk.exists_steps⟩

/-- The target machine follows every run of the stack machine. -/
theorem mirrors_reaches (h : Loaded p value bs) (hlegal : ∀ b ∈ bs, b.Legal) {c d : Config}
    {s : State} (hc : Mirrors bs c s) (hreach : Reaches bs c d) :
    ∃ t, Machine.Reaches p s t ∧ Mirrors bs d t := by
  induction hreach with
  | refl => exact ⟨s, .refl, hc⟩
  | tail _ hstep ih =>
    obtain ⟨u, hsu, hu⟩ := ih
    obtain ⟨t, ht, ⟨v, huv, hvt⟩ | ⟨rfl, -⟩⟩ := mirrors_step h hlegal hu hstep
    · exact ⟨t, hsu.trans (.head huv hvt), ht⟩
    · exact ⟨u, hsu, ht⟩

/-- While the stack machine goes on, so does the target machine: blocks without code are passed
one after the other, until there is one with code. -/
theorem exists_steps_of_endless (h : Loaded p value bs) (hlegal : ∀ b ∈ bs, b.Legal) {c : Config}
    {s : State} (hc : Mirrors bs c s) (hendless : Endless bs c) :
    ∃ u t d, Steps p s u ∧ Machine.Reaches p u t ∧ Mirrors bs d t ∧ Endless bs d := by
  obtain ⟨n, hn⟩ : ∃ n, n = bs.length - c.place := ⟨_, rfl⟩
  induction n using Nat.strong_induction_on generalizing c s with
  | _ n ih =>
    obtain ⟨d, hstep⟩ := hendless c .refl
    have hd : Endless bs d := fun e he => hendless e (.head hstep he)
    obtain ⟨t, ht, ⟨u, hsu, hut⟩ | ⟨rfl, hplace⟩⟩ := mirrors_step h hlegal hc hstep
    · exact ⟨u, t, d, hsu, hut, ht, hd⟩
    · have hlt := place_lt_of_step hstep
      exact ih _ (by omega) ht hd rfl

end Blocks

/-! ### Translated programs -/

/-- What the translator prints for linked units is loaded, if it fits into the memory for
instructions, and the target machine follows the stack machine from every state that mirrors one:
it reaches a state that mirrors what the stack machine reaches, and halts there if that is the end
of the program, and it goes on forever if the stack machine does. -/
theorem translate_simulates {options : Options} {units : List SourceUnit} {lines : List String}
    (hentry : isSymbol options.entry) (h : (translate options units).value = .ok lines)
    (hlinked : Linked (program options units)) (hfits : lines.countP isCodeLine ≤ 65535) :
    ∃ p, load lines = .ok p ∧ ∀ c s, Mirrors (program options units) c s →
      (∀ d, Reaches (program options units) c d →
        ∃ t, Machine.Reaches p s t ∧ Mirrors (program options units) d t ∧
          (d.place = (program options units).length →
            ∃ n, ∀ limit, n < limit → Machine.run p limit s = (t, .ok n))) ∧
      (Endless (program options units) c → ∀ limit,
        ∃ t, Machine.run p limit s = (t, .error (.stillRunning limit))) := by
  obtain ⟨p, value, hload, hloaded⟩ := exists_loaded_of_translate hentry h hlinked hfits
  have hlegal := legal_of_mem_program hentry (translate_eq_ok_iff.mp h).1
  refine ⟨p, hload, fun c s hc => ⟨fun d hd => ?_, fun hendless limit => ?_⟩⟩
  · obtain ⟨t, hst, ht⟩ := mirrors_reaches hloaded hlegal hc hd
    refine ⟨t, hst, ht, fun hend => run_of_reaches hst ?_⟩
    rw [ht.place, hend, hloaded.size]
  · -- at every moment the machine is on its way to a state that mirrors one of the endless run
    refine run_of_endless (P := fun s => ∃ t d, Machine.Reaches p s t ∧
      Mirrors (program options units) d t ∧ Endless (program options units) d) ?_
      ⟨s, c, .refl, hc, hendless⟩ limit
    rintro s ⟨t, d, hst, ht, hd⟩
    cases hst using Relation.ReflTransGen.head_induction_on with
    | refl =>
      obtain ⟨u, v, e, htu, huv, hv, he⟩ := exists_steps_of_endless hloaded hlegal ht hd
      exact ⟨u, htu, v, e, huv, hv, he⟩
    | head hsu hut _ => exact ⟨_, hsu, t, d, hut, ht, hd⟩

/-- A unit that pushes a seven. -/
def seven : SourceUnit :=
  ⟨"Main", [⟨1, .pushConstant 7⟩]⟩

/-- A program whose first function calls one that returns a seven, puts it into a static word and
goes on forever. The seven goes through a local word, around a loop. -/
def looping : List SourceUnit :=
  [⟨"Sys", [⟨1, .function "Sys.init" 0⟩, ⟨2, .call "Main.seven" 0⟩, ⟨3, .popStatic 0⟩,
      ⟨4, .label "END"⟩, ⟨5, .goto "END"⟩]⟩,
    ⟨"Main", [⟨1, .function "Main.seven" 1⟩, ⟨2, .label "LOOP"⟩, ⟨3, .pushSegment .local 0⟩,
      ⟨4, .ifGoto "DONE"⟩, ⟨5, .pushConstant 7⟩, ⟨6, .popSegment .local 0⟩, ⟨7, .goto "LOOP"⟩,
      ⟨8, .label "DONE"⟩, ⟨9, .pushSegment .local 0⟩, ⟨10, .return⟩]⟩]

/-- The program comes to its last loop with the seven in the first static word. -/
theorem after_looping : (after (program {} looping) 17 ⟨State.initial.memory, 0⟩).map
    (fun c => (c.place, c.memory[0]?, c.memory[16]?)) = some (4, some 261, some 7) := by
  decide +kernel

/-- The first program halts with a seven on the stack, the second runs forever with a seven in its
static word. -/
theorem translate_simulates_seven :
    (∃ lines p t n, (translate { bootstrap := false } [seven]).value = .ok lines ∧
      Machine.load lines = .ok p ∧
      Machine.run p (n + 1) (State.initial.poke 0 256) = (t, .ok n) ∧
      t.memory[256]? = some 7) ∧
      ∃ lines p t, (translate {} looping).value = .ok lines ∧ Machine.load lines = .ok p ∧
        Machine.Reaches p State.initial t ∧ t.pc = address (program {} looping) 4 ∧
        t.memory[0]? = some 261 ∧ t.memory[16]? = some 7 ∧
        ∀ limit, ∃ u, Machine.run p limit State.initial = (u, .error (.stillRunning limit)) := by
  constructor
  · have hlegal : seven.Legal := by
      simp only [SourceUnit.Legal]
      decide
    obtain ⟨lines, hlines⟩ :
        ∃ lines, (translate { bootstrap := false } [seven]).value = .ok lines :=
      ⟨_, translate_eq_ok_iff.mpr ⟨by simpa using hlegal, by decide, rfl⟩⟩
    have hlinked : Linked (program { bootstrap := false } [seven]) :=
      ⟨⟨by decide, by decide, by decide, by decide, by decide⟩, by decide⟩
    have hfits : lines.countP isCodeLine ≤ 65535 := by
      obtain ⟨-, -, rfl⟩ := translate_eq_ok_iff.mp hlines
      decide
    obtain ⟨p, hload, hp⟩ := translate_simulates (by decide) hlines hlinked hfits
    have hsp : (State.initial.poke 0 256).memory[0]? = some 256 :=
      Vector.getElem?_setIfInBounds_self_of_lt (by decide)
    have hstep : ∀ m m', push m (7 : Int16).toBitVec = some m' →
        step (program { bootstrap := false } [seven]) ⟨m, 0⟩ = some ⟨m', 1⟩ := fun m m' hpush =>
      step_eq (b := .instruction ⟨"Main", none⟩ {} (.pushConstant 7)) rfl
        (congrArg (Option.map fun m => (m, Exit.next)) hpush) rfl
    have hreach := hstep _ _ (push_eq hsp (by decide) (by decide) _)
    obtain ⟨t, -, ht, hend⟩ :=
      (hp ⟨(State.initial.poke 0 256).memory, 0⟩ _ ⟨rfl, fun _ _ => rfl⟩).1 _ (.single hreach)
    obtain ⟨n, hn⟩ := hend rfl
    refine ⟨lines, p, t, n, hlines, hload, hn _ (Nat.lt_succ_self n), ?_⟩
    rw [← ht.memory 256 (by decide), Vector.getElem?_setIfInBounds_ne (by decide)]
    exact Vector.getElem?_setIfInBounds_self_of_lt (by decide)
  · have hlegal : ∀ u ∈ looping, u.Legal := by
      simp only [SourceUnit.Legal]
      decide
    obtain ⟨lines, hlines⟩ : ∃ lines, (translate {} looping).value = .ok lines :=
      ⟨_, translate_eq_ok_iff.mpr ⟨hlegal, by decide, rfl⟩⟩
    have hlinked : Linked (program {} looping) :=
      ⟨⟨by decide, by decide, by decide, by decide, by decide⟩, by decide⟩
    have hfits : lines.countP isCodeLine ≤ 65535 := by
      obtain ⟨-, -, rfl⟩ := translate_eq_ok_iff.mp hlines
      decide +kernel
    obtain ⟨p, hload, hp⟩ := translate_simulates (by decide) hlines hlinked hfits
    obtain ⟨⟨m, place⟩, hafter, heq⟩ := Option.map_eq_some_iff.mp after_looping
    simp only [Prod.mk.injEq] at heq
    obtain ⟨rfl, hsp, hstatic⟩ := heq
    obtain ⟨hreaches, hendless⟩ :=
      hp ⟨State.initial.memory, 0⟩ State.initial ⟨rfl, fun _ _ => rfl⟩
    obtain ⟨t, hst, ht, -⟩ := hreaches _ (reaches_of_after hafter)
    have hloop : Endless (program {} looping) ⟨m, 4⟩ := endless_of_loop (d := ⟨m, 5⟩) rfl rfl
    refine ⟨lines, p, t, hlines, hload, hst, ht.place, ?_, ?_,
      hendless (endless_of_after hafter hloop)⟩
    · rw [← ht.memory 0 (by decide), hsp]
    · rw [← ht.memory 16 (by decide), hstatic]

/-- The cells that have names of their own, each by one name. -/
def cellNames : List String :=
  ["SP", "LCL", "ARG", "THIS", "THAT", "SCREEN", "KBD"] ++
    (List.range 16).map fun n => "R" ++ toString n

/-- A unit that calls a function with another name of cell 7. -/
def misnamed : SourceUnit :=
  ⟨"Main", [⟨1, .call "R007" 0⟩, ⟨2, .function "R007" 0⟩]⟩

/-- A program is loaded by resolving the commands of its blocks. -/
theorem code_of_load {options : Options} {units : List SourceUnit} {lines : List String}
    (hentry : isSymbol options.entry) (h : (translate options units).value = .ok lines)
    {p : Machine.Program} (hload : Machine.load lines = .ok p) :
    ∃ (labels : Std.TreeMap String Word) (cs : List Command),
      p.code =
        (ops (symbolValue labels cs) ((program options units).flatMap Block.code)).toArray := by
  rw [load_of_translate hentry h] at hload
  cases hlayout : layOut ((program options units).flatMap Block.code) with
  | error e => rw [hlayout] at hload; cases hload
  | ok layout =>
    rw [hlayout] at hload
    cases hload
    exact ⟨layout.labels, _, resolve_eq ..⟩

/-- A call of a function that has the name of cell 7 leads back into its own code. -/
theorem pc_lt_of_misnamed_call {p : Machine.Program} {front : List Op} (hlength : front.length = 45)
    (hstraight : front.all Op.isStraight)
    (hcode : p.code = (front ++ [Op.address 7, Op.compute {} .zero .always]).toArray) {s t : State}
    (hreach : Machine.Reaches p s t) (hs : s.pc = 0) : t.pc < 47 ∧ (t.pc = 46 → t.a = 7) := by
  induction hreach with
  | refl => exact ⟨by omega, by omega⟩
  | @tail u v _ hstep ih =>
    obtain ⟨hlt, hcell⟩ := ih
    rw [Steps, Machine.step] at hstep
    rcases Nat.lt_trichotomy u.pc 45 with hpc | hpc | hpc
    · have hop : p.code[u.pc]? = some front[u.pc] := by
        rw [hcode, List.getElem?_toArray, List.getElem?_append_left (by omega),
          List.getElem?_eq_getElem]
      rw [hop] at hstep
      have := pc_of_isStraight (List.all_eq_true.mp hstraight _ (List.getElem_mem _)) hstep
      omega
    · have hop : p.code[u.pc]? = some (.address 7) := by
        rw [hcode, List.getElem?_toArray, List.getElem?_append_right (by omega), hlength, hpc]
        rfl
      rw [hop] at hstep
      cases hstep
      exact ⟨by simp [hpc], fun _ => rfl⟩
    · have hpc : u.pc = 46 := by omega
      have hop : p.code[u.pc]? = some (.compute {} .zero .always) := by
        rw [hcode, List.getElem?_toArray, List.getElem?_append_right (by omega), hlength, hpc]
        rfl
      rw [hop] at hstep
      have hjump : v.pc = u.a.toNat := by
        cases hstep
        rfl
      rw [hcell hpc] at hjump
      have hseven : (7 : Word).toNat = 7 := rfl
      omega

/-- It is not enough that no function has one of the listed names. -/
theorem exists_reaches_not_mirrored :
    ∃ lines p c d s, (translate { bootstrap := false } [misnamed]).value = .ok lines ∧
      Declared (program { bootstrap := false } [misnamed]) ∧
      (∀ name ∈ (program { bootstrap := false } [misnamed]).filterMap Block.function?,
        name ∉ cellNames) ∧
      lines.countP isCodeLine ≤ 65535 ∧ Machine.load lines = .ok p ∧
      Mirrors (program { bootstrap := false } [misnamed]) c s ∧
      Reaches (program { bootstrap := false } [misnamed]) c d ∧
      ∀ t, Machine.Reaches p s t → ¬ Mirrors (program { bootstrap := false } [misnamed]) d t := by
  have hlegal : misnamed.Legal := by
    simp only [SourceUnit.Legal]
    decide
  obtain ⟨lines, hlines⟩ :
      ∃ lines, (translate { bootstrap := false } [misnamed]).value = .ok lines :=
    ⟨_, translate_eq_ok_iff.mpr ⟨by simpa using hlegal, by decide, rfl⟩⟩
  have hfits : lines.countP isCodeLine ≤ 65535 := by
    obtain ⟨-, -, rfl⟩ := translate_eq_ok_iff.mp hlines
    decide
  obtain ⟨p, hload⟩ := (exists_load_iff (by decide) hlines).mpr ⟨by decide, by decide⟩
  obtain ⟨labels, cs, hcode⟩ := code_of_load (by decide) hlines hload
  have hseven : symbolValue labels cs "R007" = 7 :=
    symbolValue_of_fixed? (fixed?_of_predefined? labels (by decide) (by decide))
  generalize symbolValue labels cs = value at hcode hseven
  have hsplit : ops value ((program { bootstrap := false } [misnamed]).flatMap Block.code) =
      (ops value (Template.call "R007" 0 0)).take 45 ++ [Op.address (value "R007"),
        Op.compute {} .zero .always] := rfl
  rw [hsplit, hseven] at hcode
  have hroom : Room (State.initial.poke 0 256).memory 5 :=
    ⟨256, Vector.getElem?_setIfInBounds_self_of_lt (by decide), by decide, by decide⟩
  have hstep : ∀ m, Room m 5 → ∃ m',
      step (program { bootstrap := false } [misnamed]) ⟨m, 0⟩ = some ⟨m', 1⟩ := by
    intro m hm
    obtain ⟨m', hm'⟩ := hm.call (BitVec.ofNat 16 47) 0 (by decide)
    exact ⟨m', step_eq (b := .instruction ⟨"Main", none⟩ {} (.call "R007" 0)) rfl
      (congrArg (Option.map fun m => (m, Exit.function "R007")) hm')
      (show land _ 0 (.function "R007") = some 1 by decide)⟩
  obtain ⟨m', hm'⟩ := hstep _ hroom
  refine ⟨lines, p, ⟨(State.initial.poke 0 256).memory, 0⟩, ⟨m', 1⟩, State.initial.poke 0 256,
    hlines, ⟨by decide, by decide, by decide, by decide, by decide⟩, by decide, hfits, hload,
    ⟨rfl, fun _ _ => rfl⟩, .single hm', fun t ht hmirrors => ?_⟩
  have hpc : t.pc = 47 := hmirrors.place
  have := (pc_lt_of_misnamed_call rfl rfl hcode ht rfl).1
  omega

end StackMachine

end HackVm
