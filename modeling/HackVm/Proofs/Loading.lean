/-
Loading the lines of blocks.

The layout of lines succeeds if no label is declared twice (`layOutFrom_ok_iff`),
and then a label names the command behind it (`label_eq`). The code of the
program is that of the commands, each symbol in the place of its value
(`resolve_eq`): that of a number, a cell or a label, and for a variable its place
in the order of first uses (`symbolValue`).

* **`load_translated`** — what the translator prints can be loaded if and only if no function and
  no label of the program is declared twice, and it then never jumps on an unknown condition.
-/
import HackVm.Machine.Run
import HackVm.Proofs.GeneratedLabels
import Mathlib.Data.List.Induction

namespace HackVm

open Assembly Machine Template

/-! ### Labels -/

/-- The layout of lines behind a layout. -/
def layOutFrom (layout : Layout) (ls : List Line) : Except LoadError Layout :=
  (ls.filterMap Line.item?).foldlM Layout.add layout

theorem layOutFrom_append (layout : Layout) (first second : List Line) :
    layOutFrom layout (first ++ second) =
      (layOutFrom layout first).bind fun next => layOutFrom next second := by
  simp only [layOutFrom, List.filterMap_append, List.foldlM_append]
  rfl

/-- The layout of a line alone. -/
def Machine.Layout.addLine (layout : Layout) (l : Line) : Except LoadError Layout :=
  match l with
  | .label name => layout.add (.label name)
  | .command _ => .ok { layout with size := layout.size + 1 }
  | _ => .ok layout

theorem layOutFrom_cons (layout : Layout) (l : Line) (rest : List Line) :
    layOutFrom layout (l :: rest) =
      (layout.addLine l).bind fun next => layOutFrom next rest := by
  cases l <;> rfl

theorem addLine_label {layout : Layout} {name : String} (h : name ∉ layout.labels) :
    layout.addLine (.label name) = .ok { layout with
      labels := layout.labels.insert name (BitVec.ofNat 16 layout.size) } := by
  simp [Layout.addLine, Layout.add, h]

theorem addLine_label_of_mem {layout : Layout} {name : String} (h : name ∈ layout.labels) :
    layout.addLine (.label name) = .error (.duplicateLabel name) := by
  simp [Layout.addLine, Layout.add, h]

/-- Lines can be laid out if they declare no label twice and none that is there already, and
otherwise such a label is the error. -/
theorem layOutFrom_spec (layout : Layout) (ls : List Line) :
    match layOutFrom layout ls with
    | .ok _ => (ls.filterMap Line.label?).Nodup ∧
        ∀ name ∈ ls.filterMap Line.label?, name ∉ layout.labels
    | .error e => ∃ name, e = .duplicateLabel name ∧ name ∈ ls.filterMap Line.label? ∧
        (name ∈ layout.labels ∨ 2 ≤ (ls.filterMap Line.label?).count name) := by
  -- what is declared on the lines passed is among the labels of the layout
  induction ls generalizing layout with
  | nil => exact ⟨List.nodup_nil, fun _ h => absurd h List.not_mem_nil⟩
  | cons l rest ih =>
    rw [layOutFrom_cons]
    cases l with
    | label name =>
      rw [List.filterMap_cons_some (f := Line.label?) rfl]
      by_cases hmem : name ∈ layout.labels
      · rw [addLine_label_of_mem hmem]
        exact ⟨name, rfl, by simp, .inl hmem⟩
      · rw [addLine_label hmem]
        have hrest := ih { layout with
          labels := layout.labels.insert name (BitVec.ofNat 16 layout.size) }
        simp only [Except.bind]
        split at hrest
        · obtain ⟨hnodup, hnew⟩ := hrest
          simp only [Std.TreeMap.mem_insert, not_or] at hnew
          refine ⟨List.nodup_cons.mpr ⟨?_, hnodup⟩, ?_⟩
          · intro h
            exact (hnew name h).1 (by simp)
          · intro other h
            rcases List.mem_cons.mp h with rfl | h
            · exact hmem
            · exact (hnew other h).2
        · obtain ⟨other, rfl, hother, hwhy⟩ := hrest
          refine ⟨other, rfl, List.mem_cons_of_mem _ hother, ?_⟩
          simp only [Std.TreeMap.mem_insert, Std.LawfulEqCmp.compare_eq_iff_eq] at hwhy
          rcases hwhy with (rfl | hthere) | htwice
          · have := List.count_pos_iff.mpr hother
            exact .inr (by rw [List.count_cons_self]; omega)
          · exact .inl hthere
          · exact .inr (htwice.trans List.count_le_count_cons)
    | _ => exact ih _

/-- Lines can be laid out if and only if they declare no label twice. -/
theorem layOut_ok_iff (ls : List Line) :
    (∃ layout, layOut ls = .ok layout) ↔ (ls.filterMap Line.label?).Nodup := by
  have hspec := layOutFrom_spec {} ls
  change match layOut ls with | .ok _ => _ | .error e => _ at hspec
  cases hlayout : layOut ls with
  | ok layout =>
    rw [hlayout] at hspec
    exact ⟨fun _ => hspec.1, fun _ => ⟨layout, rfl⟩⟩
  | error e =>
    rw [hlayout] at hspec
    obtain ⟨name, -, -, hwhy⟩ := hspec
    constructor
    · rintro ⟨_, h⟩
      cases h
    · intro hnodup
      -- no label is there in the beginning, so the one to blame is declared twice
      have htwice := hwhy.resolve_left (Std.TreeMap.not_mem_emptyc)
      have := List.nodup_iff_count_le_one.mp hnodup name
      omega

/-- If lines cannot be laid out, a label that is declared twice is to blame. -/
theorem layOut_error {ls : List Line} {e : LoadError} (h : layOut ls = .error e) :
    ∃ name, e = .duplicateLabel name ∧ 2 ≤ (ls.filterMap Line.label?).count name := by
  have hspec := layOutFrom_spec {} ls
  change match layOut ls with | .ok _ => _ | .error e => _ at hspec
  rw [h] at hspec
  obtain ⟨name, he, -, hwhy⟩ := hspec
  exact ⟨name, he, hwhy.resolve_left (Std.TreeMap.not_mem_emptyc)⟩

theorem layOutFrom_ok {ls : List Line} (layout : Layout) {next : Layout}
    (h : layOutFrom layout ls = .ok next) :
    next.size = layout.size + (commands ls).length ∧
      ∀ name, name ∉ ls.filterMap Line.label? → next.labels[name]? = layout.labels[name]? := by
  induction ls generalizing layout with
  | nil => cases h; exact ⟨rfl, fun _ _ => rfl⟩
  | cons l rest ih =>
    rw [layOutFrom_cons] at h
    cases l with
    | label name =>
      by_cases hmem : name ∈ layout.labels
      · rw [addLine_label_of_mem hmem] at h
        cases h
      · rw [addLine_label hmem] at h
        obtain ⟨hsize, hlabels⟩ := ih _ h
        refine ⟨hsize, ?_⟩
        intro other hother
        rw [List.filterMap_cons_some (f := Line.label?) rfl, List.mem_cons, not_or] at hother
        rw [hlabels other hother.2, Std.TreeMap.getElem?_insert]
        simp [Ne.symm hother.1]
    | command c =>
      obtain ⟨hsize, hlabels⟩ := ih _ h
      refine ⟨?_, hlabels⟩
      have hcount : (commands (.command c :: rest)).length = (commands rest).length + 1 := rfl
      rw [hsize, hcount]
      exact Nat.add_right_comm _ _ _
    | _ => exact ih _ h

/-- A label names the command behind it. -/
theorem label_eq {first second : List Line} {name : String} {layout : Layout}
    (h : layOut (first ++ .label name :: second) = .ok layout) :
    layout.labels[name]? = some (BitVec.ofNat 16 (commands first).length) := by
  change layOutFrom {} _ = _ at h
  rw [layOutFrom_append] at h
  cases hfirst : layOutFrom {} first with
  | error e => rw [hfirst] at h; cases h
  | ok before =>
    rw [hfirst] at h
    change layOutFrom before (.label name :: second) = _ at h
    rw [layOutFrom_cons] at h
    by_cases hmem : name ∈ before.labels
    · rw [addLine_label_of_mem hmem] at h
      cases h
    · rw [addLine_label hmem] at h
      change layOutFrom _ second = _ at h
      -- the label is there already, so the lines behind it do not declare it again
      have hspec := layOutFrom_spec { before with
        labels := before.labels.insert name (BitVec.ofNat 16 before.size) } second
      rw [h] at hspec
      have hnot : name ∉ second.filterMap Line.label? := by
        intro hname
        exact hspec.2 name hname (Std.TreeMap.mem_insert_self)
      have hsize : before.size = 0 + (commands first).length := (layOutFrom_ok _ hfirst).1
      rw [(layOutFrom_ok _ h).2 name hnot, Std.TreeMap.getElem?_insert_self, hsize, Nat.zero_add]

/-- A name that is not declared names nothing. -/
theorem label_eq_none {ls : List Line} {name : String} {layout : Layout}
    (h : layOut ls = .ok layout) (hname : name ∉ ls.filterMap Line.label?) :
    layout.labels[name]? = none := by
  rw [(layOutFrom_ok {} h).2 name hname]
  exact Std.TreeMap.getElem?_emptyc

/-! ### Symbols -/

/-- The symbol that a command loads. -/
def Assembly.Command.symbol? : Command → Option String
  | .address symbol => some symbol
  | .compute .. => none

theorem filterMap_symbol?_commands (ls : List Line) :
    (commands ls).filterMap Command.symbol? = ls.filterMap Line.symbol? := by
  rw [commands, List.filterMap_filterMap]
  congr 1
  funext l
  cases l with
  | command c => cases c <;> rfl
  | _ => rfl

/-- The variables of commands, in the order of their first uses. -/
def variableNames (labels : Std.TreeMap String Word) (cs : List Command) : List String :=
  ((cs.filterMap Command.symbol?).filter fun name => (fixed? labels name).isNone).eraseDups

/-- The value that a symbol has among commands. -/
def symbolValue (labels : Std.TreeMap String Word) (cs : List Command) (symbol : String) : Word :=
  (fixed? labels symbol).getD (BitVec.ofNat 16 (16 + (variableNames labels cs).idxOf symbol))

/-- A command with its symbol resolved. -/
def resolved (value : String → Word) : Command → Op
  | .address symbol => .address (value symbol)
  | .compute dest comp jump => .compute dest comp jump

theorem mem_variableNames {labels : Std.TreeMap String Word} {cs : List Command} {name : String} :
    name ∈ variableNames labels cs ↔
      name ∈ cs.filterMap Command.symbol? ∧ fixed? labels name = none := by
  simp [variableNames]

theorem variableNames_concat (labels : Std.TreeMap String Word) (cs : List Command) (c : Command) :
    variableNames labels (cs ++ [c]) = variableNames labels cs ++
      (c.symbol?.toList.filter fun name =>
        (fixed? labels name).isNone && name ∉ variableNames labels cs) := by
  unfold variableNames
  rw [List.filterMap_append, List.filter_append, List.eraseDups_append]
  congr 1
  cases c with
  | compute dest comp jump => rfl
  | address symbol =>
    simp only [Command.symbol?, List.filterMap_cons, List.filterMap_nil, Option.toList_some,
      List.filter_cons, List.filter_nil, List.mem_eraseDups]
    generalize (cs.filterMap Command.symbol?).filter _ = front
    cases h : (fixed? labels symbol).isNone with
    | false => rfl
    | true => by_cases hmem : symbol ∈ front <;> simp [List.removeAll, hmem, List.eraseDups_cons]

/-- A symbol of commands keeps its value when others follow. -/
theorem symbolValue_append {labels : Std.TreeMap String Word} {cs : List Command} {name : String}
    (h : name ∈ cs.filterMap Command.symbol?) (rest : List Command) :
    symbolValue labels (cs ++ rest) name = symbolValue labels cs name := by
  unfold symbolValue
  cases hfixed : fixed? labels name with
  | some value => rfl
  | none =>
    have hmem : name ∈ variableNames labels cs := mem_variableNames.mpr ⟨h, hfixed⟩
    have hfront : ∃ others,
        variableNames labels (cs ++ rest) = variableNames labels cs ++ others := by
      unfold variableNames
      rw [List.filterMap_append, List.filter_append, List.eraseDups_append]
      exact ⟨_, rfl⟩
    obtain ⟨others, heq⟩ := hfront
    rw [heq, List.idxOf_append_of_mem hmem]

/-- Whether a map holds the cells of variables: from 16 on, in their order. -/
def Holds (vars : Variables) (names : List String) : Prop :=
  vars.size = names.length ∧
    ∀ name, vars[name]? =
      if name ∈ names then some (BitVec.ofNat 16 (16 + names.idxOf name)) else none

/-- Resolving a symbol gives its value, and the variables are those that it adds to. -/
theorem holds_resolve {labels : Std.TreeMap String Word} {cs : List Command} {vars : Variables}
    (h : Holds vars (variableNames labels cs)) (symbol : String) :
    (vars.resolve labels symbol).1 = symbolValue labels (cs ++ [.address symbol]) symbol ∧
      Holds (vars.resolve labels symbol).2 (variableNames labels (cs ++ [.address symbol])) := by
  obtain ⟨hsize, hget⟩ := h
  rw [symbolValue, variableNames_concat]
  simp only [Command.symbol?, Option.toList_some, List.filter_cons, List.filter_nil]
  unfold Variables.resolve
  cases hfixed : fixed? labels symbol with
  | some value => simpa using ⟨hsize, hget⟩
  | none =>
    rw [hget symbol]
    by_cases hmem : symbol ∈ variableNames labels cs
    · simpa [hmem] using ⟨hsize, hget⟩
    · -- the symbol is a new variable, and the last of them
      simp only [hmem, ↓reduceIte, Option.isNone_none, not_false_eq_true, decide_true,
        Bool.and_self, Option.getD_none]
      have hplace : (variableNames labels cs ++ [symbol]).idxOf symbol =
          (variableNames labels cs).length := by
        rw [List.idxOf_append_of_notMem hmem]
        simp
      refine ⟨by rw [hplace, hsize], ?_, ?_⟩
      · have hnew : symbol ∉ vars := by
          rw [Std.TreeMap.mem_iff_isSome_getElem?, hget, if_neg hmem]
          exact Bool.false_ne_true
        simp [Std.TreeMap.size_insert, hnew, hsize]
      · intro name
        rw [Std.TreeMap.getElem?_insert, hget]
        simp only [Std.LawfulEqCmp.compare_eq_iff_eq]
        by_cases hname : symbol = name
        · subst hname
          simp [hplace, hsize]
        · by_cases hthere : name ∈ variableNames labels cs
          · simp [hname, hthere, List.idxOf_append_of_mem]
          · simp [hname, Ne.symm hname, hthere]

/-- The code of a program is that of its commands, each symbol in the place of its value. -/
theorem resolve_eq (labels : Std.TreeMap String Word) (cs : List Command) :
    resolve labels cs = (cs.map (resolved (symbolValue labels cs))).toArray := by
  suffices h : ∃ vars, Holds vars (variableNames labels cs) ∧
      cs.foldl (resolveCommand labels) (({} : Variables), #[]) =
        (vars, (cs.map (resolved (symbolValue labels cs))).toArray) by
    obtain ⟨vars, -, hfold⟩ := h
    rw [resolve, hfold]
  -- commands are added at the end, as the fold over them resolves one after the other
  induction cs using List.reverseRecOn with
  | nil => exact ⟨{}, ⟨rfl, fun _ => Std.TreeMap.getElem?_emptyc⟩, rfl⟩
  | append_singleton cs c ih =>
    obtain ⟨vars, hvars, hfold⟩ := ih
    have hcode : cs.map (resolved (symbolValue labels (cs ++ [c]))) =
        cs.map (resolved (symbolValue labels cs)) := by
      refine List.map_congr_left ?_
      intro d hd
      cases d with
      | compute dest comp jump => rfl
      | address symbol =>
        rw [resolved, resolved, symbolValue_append (List.mem_filterMap.mpr ⟨_, hd, rfl⟩)]
    rw [List.foldl_append, hfold, List.map_append, hcode]
    cases c with
    | compute dest comp jump =>
      refine ⟨vars, ?_, by simp [resolveCommand, resolved]⟩
      rw [variableNames_concat]
      simpa [Command.symbol?] using hvars
    | address symbol =>
      obtain ⟨hvalue, hnext⟩ := holds_resolve hvars symbol
      exact ⟨_, hnext, by simp [resolveCommand, resolved, hvalue]⟩

/-! ### Labels of blocks -/

/-- The labels that blocks declare are functions, labels of the program and made-up labels. -/
theorem count_label?_flatMap (bs : List Block) (name : String) :
    ((bs.flatMap Block.code).filterMap Line.label?).count name =
      (bs.filterMap Block.function?).count name + (bs.filterMap Block.label?).count name +
        (bs.flatMap Block.madeUp).count name := by
  have hcons : ∀ (f : Block → Option String) (b : Block) (rest : List Block),
      ((b :: rest).filterMap f).count name =
        (f b).toList.count name + (rest.filterMap f).count name := by
    intro f b rest
    cases hb : f b with
    | none => simp [List.filterMap_cons_none hb]
    | some other => simp [List.filterMap_cons_some hb, List.count_cons, Nat.add_comm]
  induction bs with
  | nil => rfl
  | cons b rest ih =>
    simp only [List.flatMap_cons, List.filterMap_append, List.count_append, filterMap_label?_code,
      hcons, ih]
    omega

theorem mem_label?_flatMap_iff {bs : List Block} {name : String} :
    name ∈ (bs.flatMap Block.code).filterMap Line.label? ↔
      name ∈ bs.filterMap Block.function? ∨ name ∈ bs.filterMap Block.label? ∨
        name ∈ bs.flatMap Block.madeUp := by
  rw [← List.count_pos_iff, ← List.count_pos_iff, ← List.count_pos_iff, ← List.count_pos_iff,
    count_label?_flatMap]
  omega

/-- The lines of blocks declare the name of a static word only if a function has it. -/
theorem static_mem_label?_iff {bs : List Block} {scope : Scope} (hscope : isSymbol scope.unit)
    (i : UInt16) :
    scope.static i ∈ (bs.flatMap Block.code).filterMap Line.label? ↔
      scope.static i ∈ bs.filterMap Block.function? := by
  rw [mem_label?_flatMap_iff]
  constructor
  · rintro (hfunction | hlabel | hmade)
    · exact hfunction
    · obtain ⟨b, -, hlabel⟩ := List.mem_filterMap.mp hlabel
      unfold Block.label? at hlabel
      split at hlabel
      · exact absurd (Option.some.inj hlabel) (label_ne_static hscope)
      · cases hlabel
    · obtain ⟨b, -, hmade⟩ := List.mem_flatMap.mp hmade
      exact absurd (isMadeUp_of_mem_madeUp hmade) (not_isMadeUp_static hscope i)
  · exact fun hfunction => .inl hfunction

/-- A name is declared as a function, as a label of the program or as a made-up label, and not in
two of these ways; as a made-up label it is declared once. -/
theorem declared_one_way {bs : List Block} {labels : Labels} (hbs : Numbered labels bs)
    (hlegal : ∀ b ∈ bs, b.Legal) (name : String) :
    ((bs.filterMap Block.function?).count name = 0 ∨ (bs.filterMap Block.label?).count name = 0) ∧
      ((bs.flatMap Block.madeUp).count name = 0 ∨ (bs.flatMap Block.madeUp).count name = 1 ∧
        (bs.filterMap Block.function?).count name = 0 ∧
        (bs.filterMap Block.label?).count name = 0) := by
  have hnames : ∀ {b : Block}, b ∈ bs → IsMadeUp name → name ∉ b.names := by
    intro b hb hname hmem
    exact not_isMadeUp_of_mem_names (hlegal _ hb) hmem hname
  constructor
  · -- a function is a symbol, and no label is
    by_cases hfunction : name ∈ bs.filterMap Block.function?
    · refine .inr (List.count_eq_zero.mpr ?_)
      intro hlabel
      obtain ⟨b, hb, hfunction⟩ := List.mem_filterMap.mp hfunction
      obtain ⟨c, hc, hlabel⟩ := List.mem_filterMap.mp hlabel
      obtain ⟨scope, -, l, rfl⟩ := exists_label_of_label? (hlegal c hc) hlabel
      exact label_ne_of_isSymbol (isSymbol_of_function? (hlegal b hb) hfunction) rfl
    · exact .inl (List.count_eq_zero.mpr hfunction)
  · by_cases hmade : name ∈ bs.flatMap Block.madeUp
    · obtain ⟨d, -, hd⟩ := List.mem_flatMap.mp hmade
      have hname : IsMadeUp name := isMadeUp_of_mem_madeUp hd
      refine .inr ⟨List.count_eq_one_of_mem (nodup_madeUp hbs) hmade,
        List.count_eq_zero.mpr ?_, List.count_eq_zero.mpr ?_⟩
      · intro hfunction
        obtain ⟨b, hb, hfunction⟩ := List.mem_filterMap.mp hfunction
        exact hnames hb hname (by simp [Block.names, hfunction])
      · intro hlabel
        obtain ⟨b, hb, hlabel⟩ := List.mem_filterMap.mp hlabel
        exact hnames hb hname (by simp [Block.names, hlabel])
    · exact .inl (List.count_eq_zero.mpr hmade)

/-- The lines of blocks declare no label twice if and only if no function and no label of the
program is declared twice. -/
theorem nodup_label?_iff {bs : List Block} {labels : Labels} (hbs : Numbered labels bs)
    (hlegal : ∀ b ∈ bs, b.Legal) :
    ((bs.flatMap Block.code).filterMap Line.label?).Nodup ↔
      (bs.filterMap Block.function?).Nodup ∧ (bs.filterMap Block.label?).Nodup := by
  simp only [List.nodup_iff_count_le_one, count_label?_flatMap]
  constructor
  · intro h
    constructor
    · intro name
      have := h name
      omega
    · intro name
      have := h name
      omega
  · rintro ⟨hfunctions, hlabels⟩ name
    have hway := declared_one_way hbs hlegal name
    have := hfunctions name
    have := hlabels name
    omega

/-! ### What a loaded program can fail with -/

/-- A run ends in a fault only if a step does. -/
theorem exists_step_of_advance_fault {p : Machine.Program} {isOver : State → Bool}
    {limit taken : Nat} {s t : State} {f : Fault}
    (h : advance p isOver limit taken s = (t, .fault f)) : ∃ u v, step p u = (v, some f) := by
  induction limit generalizing taken s with
  | zero => cases h
  | succ limit ih =>
    rw [advance] at h
    split at h
    · cases h
    · -- the step is a fault itself, or the run goes on to one
      split at h
      · exact ih h
      · rename_i v fault hstep
        cases h
        exact ⟨s, _, hstep⟩

/-- A step fails on a condition only if its command has a condition that is unknown. -/
theorem exists_unknown_of_step {p : Machine.Program} {s t : State} {condition : String}
    (h : step p s = (t, some (.badJump condition))) :
    ∃ dest comp, Op.compute dest comp (.unknown condition) ∈ p.code := by
  unfold step at h
  split at h
  · rename_i op hop
    cases op with
    | address value => cases h
    | compute dest comp jump =>
      simp only [Op.step] at h
      split at h
      · -- reading memory fails for an address only
        rename_i hoperand
        cases h
        unfold State.operand at hoperand
        split at hoperand
        · split at hoperand <;> cases hoperand
        · cases hoperand
      · split at h
        · cases h
        · split at h
          · rename_i hholds
            cases h
            unfold holds? at hholds
            split at hholds <;> cases hholds
            exact ⟨dest, comp, Array.mem_of_getElem? hop⟩
          · cases h
  · cases h

/-- A jump in a loaded program is one that was written. -/
theorem mem_of_mem_resolve {labels : Std.TreeMap String Word} {cs : List Command} {dest : Dest}
    {comp : Comp} {jump : Jump} (h : Op.compute dest comp jump ∈ resolve labels cs) :
    Command.compute dest comp jump ∈ cs := by
  rw [resolve_eq, List.mem_toArray] at h
  obtain ⟨c, hc, heq⟩ := List.mem_map.mp h
  cases c with
  | address symbol => cases heq
  | compute dest' comp' jump' => cases heq; exact hc

/-! ### Loading what is translated -/

/-- What the translator prints is loaded by laying out its labels and resolving its commands. -/
theorem load_of_translate {options : Options} {units : List SourceUnit} {lines : List String}
    (hentry : isSymbol options.entry) (h : (translate options units).value = .ok lines) :
    load lines = (layOut ((program options units).flatMap Block.code)).map fun layout =>
      { code := resolve layout.labels (commands ((program options units).flatMap Block.code))
        labels := layout.labels } := by
  obtain ⟨hlegal, -, rfl⟩ := translate_eq_ok_iff.mp h
  exact load_printed _ (proper_of_mem_flatMap (legal_of_mem_program hentry hlegal))

theorem exists_load_iff {options : Options} {units : List SourceUnit} {lines : List String}
    (hentry : isSymbol options.entry) (h : (translate options units).value = .ok lines) :
    (∃ p, load lines = .ok p) ↔ ((program options units).filterMap Block.function?).Nodup ∧
      ((program options units).filterMap Block.label?).Nodup := by
  have hlegal := legal_of_mem_program hentry (translate_eq_ok_iff.mp h).1
  rw [← nodup_label?_iff (numbered_program options units) hlegal, ← layOut_ok_iff,
    load_of_translate hentry h]
  cases layOut ((program options units).flatMap Block.code) with
  | error e =>
    constructor
    · rintro ⟨_, h⟩
      cases h
    · rintro ⟨_, h⟩
      cases h
  | ok layout => exact ⟨fun _ => ⟨layout, rfl⟩, fun _ => ⟨_, rfl⟩⟩

theorem duplicate_of_load_error {options : Options} {units : List SourceUnit} {lines : List String}
    (hentry : isSymbol options.entry) (h : (translate options units).value = .ok lines)
    {e : LoadError} (he : load lines = .error e) :
    ∃ name, e = .duplicateLabel name ∧
      (2 ≤ ((program options units).filterMap Block.function?).count name ∨
        2 ≤ ((program options units).filterMap Block.label?).count name) := by
  have hlegal := legal_of_mem_program hentry (translate_eq_ok_iff.mp h).1
  rw [load_of_translate hentry h] at he
  cases hlayout : layOut ((program options units).flatMap Block.code) with
  | ok layout => rw [hlayout] at he; cases he
  | error cause =>
    rw [hlayout] at he
    cases he
    obtain ⟨name, rfl, htwice⟩ := layOut_error hlayout
    rw [count_label?_flatMap] at htwice
    have hway := declared_one_way (numbered_program options units) hlegal name
    exact ⟨name, rfl, by omega⟩

/-- Every jump of a loaded program is one of a block, and the conditions of those are known. -/
theorem step_ne_badJump {options : Options} {units : List SourceUnit} {lines : List String}
    (hentry : isSymbol options.entry) (h : (translate options units).value = .ok lines)
    {p : Machine.Program} (hp : load lines = .ok p) (s t : State) (condition : String) :
    step p s ≠ (t, some (.badJump condition)) := by
  intro hstep
  obtain ⟨dest, comp, hmem⟩ := exists_unknown_of_step hstep
  rw [load_of_translate hentry h] at hp
  cases hlayout : layOut ((program options units).flatMap Block.code) with
  | error cause => rw [hlayout] at hp; cases hp
  | ok layout =>
    rw [hlayout] at hp
    cases hp
    obtain ⟨l, hl, hcommand⟩ := List.mem_filterMap.mp (mem_of_mem_resolve hmem)
    obtain ⟨b, -, hl⟩ := List.mem_flatMap.mp hl
    have hknown := isKnown_of_mem_code hl
    unfold Line.command? at hcommand
    split at hcommand <;> cases hcommand
    cases hknown

theorem run_ne_fault {p : Machine.Program} {f : Fault} (hstep : ∀ s t, step p s ≠ (t, some f))
    (limit : Nat) (s : State) :
    (run p limit s).2 ≠ .error (.fault f) ∧
      ∀ label, (runTo p label limit s).2 ≠ .error (.fault f) := by
  have hadvance : ∀ isOver, (advance p isOver limit 0 s).2 ≠ .fault f := by
    intro isOver hfault
    obtain ⟨u, v, hu⟩ := exists_step_of_advance_fault (Prod.ext rfl hfault)
    exact hstep u v hu
  have hsteps : ∀ {ending : Ending} {unfinished : RunError}, (∀ f, unfinished ≠ .fault f) →
      ending.steps unfinished = .error (.fault f) → ending = .fault f := by
    intro ending unfinished hnot hending
    cases ending with
    | «over» steps => cases hending
    | fault f => cases hending; rfl
    | unfinished => cases hending; exact absurd rfl (hnot _)
  refine ⟨?_, ?_⟩
  · intro hrun
    exact hadvance _ (hsteps (by simp) hrun)
  · intro label hrun
    unfold runTo at hrun
    split at hrun
    · cases hrun
    · exact hadvance _ (hsteps (by simp) hrun)

/-- What the translator prints can be loaded if and only if no function and no label of the program
is declared twice. If one is, loading names it. The loaded program, from whatever state and for
however long it runs, never meets a condition that is unknown. -/
theorem load_translated {options : Options} {units : List SourceUnit} {lines : List String}
    (hentry : isSymbol options.entry) (h : (translate options units).value = .ok lines) :
    ((∃ p, load lines = .ok p) ↔
        ((program options units).filterMap Block.function?).Nodup ∧
          ((program options units).filterMap Block.label?).Nodup) ∧
      (∀ e, load lines = .error e → ∃ name, e = .duplicateLabel name ∧
        (2 ≤ ((program options units).filterMap Block.function?).count name ∨
          2 ≤ ((program options units).filterMap Block.label?).count name)) ∧
      ∀ p, load lines = .ok p → ∀ (s : State) (limit : Nat) (condition : String),
        (run p limit s).2 ≠ .error (.fault (.badJump condition)) ∧
          ∀ label, (runTo p label limit s).2 ≠ .error (.fault (.badJump condition)) := by
  refine ⟨exists_load_iff hentry h, ?_, ?_⟩
  · intro e he
    exact duplicate_of_load_error hentry h he
  · intro p hp s limit condition
    exact run_ne_fault (fun u v => step_ne_badJump hentry h hp u v condition) limit s

/-- A unit that counts down from three. -/
def countdown : SourceUnit :=
  ⟨"Main", [⟨1, .pushConstant 3⟩, ⟨2, .label "LOOP"⟩, ⟨3, .pushConstant 1⟩, ⟨4, .binary .sub⟩,
    ⟨5, .popStatic 0⟩, ⟨6, .pushStatic 0⟩, ⟨7, .pushStatic 0⟩, ⟨8, .pushConstant 0⟩,
    ⟨9, .compare .gt⟩, ⟨10, .ifGoto "LOOP"⟩]⟩

theorem load_translated_countdown :
    ∃ lines, (translate { bootstrap := false } [countdown]).value = .ok lines ∧
      ∃ p, load lines = .ok p := by
  have hlegal : countdown.Legal := by
    simp only [SourceUnit.Legal]
    decide
  obtain ⟨lines, hlines⟩ :
      ∃ lines, (translate { bootstrap := false } [countdown]).value = .ok lines :=
    ⟨_, translate_eq_ok_iff.mpr ⟨by simpa using hlegal, by decide, rfl⟩⟩
  exact ⟨lines, hlines, (load_translated (by decide) hlines).1.mpr ⟨by decide, by decide⟩⟩

end HackVm
