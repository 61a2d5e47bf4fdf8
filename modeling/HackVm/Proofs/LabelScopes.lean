/-
Scopes of labels.

A scope is the body of a function, or the code of a unit before its first function. An
instruction with a label stands in the scope that the functions before it in its unit
leave (`LabelSite.scope_eq`), and its symbol is made of the name of that scope and of its
label. The dollar sign tells the two apart (`LabelSite.symbol_eq_symbol_iff`), so symbols are
equal if and only if labels and names of scopes are.

* **`LabelSite.symbol_eq_iff`** — if all functions have different names, two symbols are equal if
  and only if the labels are and the scopes are one, or one of them is the code of a unit before
  its functions and the other is the body of a function with the name of that unit.

The exception does occur: in `nestedName` the code of a unit and its function share a label.
-/
import HackVm.Proofs.Blocks
import HackVm.Proofs.PrintedLines
import Mathlib.Data.List.Nodup
import Mathlib.Data.List.Pairwise

namespace HackVm

open Assembly

/-- The function that an instruction begins. -/
def Instruction.function? : Instruction → Option String
  | .function name _ => some name
  | _ => none

/-- The label that an instruction declares or jumps to, as it stands in the source. -/
def Instruction.label? : Instruction → Option String
  | .label name | .goto name | .ifGoto name => some name
  | _ => none

/-- The functions of a unit. -/
def SourceUnit.functions (u : SourceUnit) : List String :=
  u.instructions.filterMap Instruction.function?

/-- An instruction with a label and its place in a unit. -/
structure LabelSite where
  unit : SourceUnit
  /-- The instructions before it in the unit. -/
  before : List Instruction
  instruction : Instruction
  after : List Instruction
  name : String
  instructions_eq : unit.instructions = before ++ instruction :: after
  label?_eq : instruction.label? = some name

namespace LabelSite

variable (site : LabelSite)

/-- The functions that begin before a site in its unit. -/
def functions : List String :=
  site.before.filterMap Instruction.function?

/-- The scope that the instructions before a site leave. -/
def scope : Scope :=
  site.before.foldl Scope.enter ⟨site.unit.name, none⟩

/-- The symbol that is emitted for the label at a site. -/
def symbol : String :=
  site.scope.label site.name

/-- The line on which the symbol of a site is declared or loaded. -/
def line : String :=
  match site.instruction with
  | .label _ => "(" ++ site.symbol ++ ")"
  | _ => "@" ++ site.symbol

/-- Whether the code of a site stands in lines behind that of the units and of the instructions
before it, and holds the line of the site. -/
def EmittedIn (options : Options) (units : List SourceUnit) (lines : List String) : Prop :=
  ∃ earlier later labels code rest, units = earlier ++ site.unit :: later ∧
    code = printed options.annotate
      (site.instruction.code site.scope (labels.afterAll site.before)) ∧
    lines = printed options.annotate ((program options earlier).flatMap Block.code ++
      codeFrom ⟨site.unit.name, none⟩ labels site.before) ++ code ++ rest ∧
    site.line ∈ code

/-- Whether two sites stand in one scope: in one unit, and behind as many functions of it. -/
def SameScope (other : LabelSite) : Prop :=
  site.unit = other.unit ∧ site.functions.length = other.functions.length

/-- Whether a site stands before the functions of its unit, and another in a function with the name
of that unit. -/
def MeetsFunction (other : LabelSite) : Prop :=
  site.functions = [] ∧ other.functions.getLast? = some site.unit.name

instance (other : LabelSite) : Decidable (site.SameScope other) :=
  inferInstanceAs (Decidable (_ ∧ _))

instance (other : LabelSite) : Decidable (site.MeetsFunction other) :=
  inferInstanceAs (Decidable (_ ∧ _))

/-! ### Scopes -/

theorem foldl_enter (scope : Scope) (is : List Instruction) :
    is.foldl Scope.enter scope =
      { scope with
        function := ((is.filterMap Instruction.function?).getLast?).or scope.function } := by
  induction is generalizing scope with
  | nil => rfl
  | cons i rest ih =>
    rw [List.foldl_cons, ih]
    -- a function sets the scope that is left if no other follows
    cases i with
    | function name n =>
      rw [List.filterMap_cons_some (f := Instruction.function?) rfl, List.getLast?_cons]
      cases (rest.filterMap Instruction.function?).getLast? <;> rfl
    | _ => rfl

/-- The scope of a site is that of the last function before it. -/
theorem scope_eq : site.scope = ⟨site.unit.name, site.functions.getLast?⟩ := by
  rw [scope, foldl_enter, Option.or_none]
  rfl

theorem instruction_cases : site.instruction = .label site.name ∨
    site.instruction = .goto site.name ∨ site.instruction = .ifGoto site.name := by
  have hlabel := site.label?_eq
  cases hi : site.instruction <;> rw [hi] at hlabel <;> cases hlabel
  · exact .inl rfl
  · exact .inr (.inl rfl)
  · exact .inr (.inr rfl)

/-- An instruction with a label leaves its scope as it is. -/
theorem enter_instruction : site.scope.enter site.instruction = site.scope := by
  rcases site.instruction_cases with h | h | h <;> rw [h] <;> rfl

theorem functions_isPrefix : site.functions <+: site.unit.functions := by
  rw [SourceUnit.functions, site.instructions_eq, List.filterMap_append]
  exact List.prefix_append _ _

/-- The name of the scope of a site. -/
def scopeName : String :=
  site.functions.getLast?.getD site.unit.name

theorem symbol_eq : site.symbol = site.scopeName ++ "$" ++ site.name := by
  rw [symbol, scope_eq]
  rfl

end LabelSite

/-! ### Symbols -/

theorem isSymbol_of_mem_functions {u : SourceUnit} (h : u.Legal) {name : String}
    (hname : name ∈ u.functions) : isSymbol name := by
  obtain ⟨i, hi, hfunction⟩ := List.mem_filterMap.mp hname
  have hcheck := h.2 i hi
  unfold Instruction.function? at hfunction
  split at hfunction <;> cases hfunction
  exact isSymbol_of_readSymbol hcheck

theorem dollar_not_mem {name : String} (h : isSymbol name) : '$' ∉ name.toList := by
  intro hmem
  exact not_isSymbolChar_dollar (isSymbolChar_of_mem h hmem)

namespace LabelSite

variable {site other : LabelSite} {units : List SourceUnit}

theorem isSymbol_name (h : site.unit.Legal) : isSymbol site.name := by
  have hcheck := h.2 site.instruction (site.instructions_eq ▸ by simp)
  rcases site.instruction_cases with hi | hi | hi <;> rw [hi] at hcheck <;>
    exact isSymbol_of_readSymbol hcheck

theorem isSymbol_scopeName (h : site.unit.Legal) : isSymbol site.scopeName := by
  unfold scopeName
  cases hlast : site.functions.getLast? with
  | none => exact h.1
  | some f =>
    exact isSymbol_of_mem_functions h
      (site.functions_isPrefix.subset (List.mem_of_getLast? hlast))

/-- The dollar sign tells the name of the scope from the label. -/
theorem symbol_eq_symbol_iff (h : site.unit.Legal) :
    site.symbol = other.symbol ↔ site.scopeName = other.scopeName ∧ site.name = other.name := by
  have hlist : ∀ s : LabelSite, s.symbol.toList = s.scopeName.toList ++ '$' :: s.name.toList := by
    intro s
    simp [symbol_eq]
  rw [← String.toList_inj, hlist, hlist, List.append_cons_inj_of_notMem
    (dollar_not_mem (isSymbol_scopeName h)) (dollar_not_mem (isSymbol_name h)),
    String.toList_inj, String.toList_inj]
  simp

/-! ### Names of scopes -/

/-- Sites in one scope are behind the same functions. -/
theorem SameScope.functions_eq (h : site.SameScope other) : site.functions = other.functions := by
  obtain ⟨hunit, hlength⟩ := h
  have hother := other.functions_isPrefix
  rw [← hunit] at hother
  exact (List.prefix_of_prefix_length_le site.functions_isPrefix hother hlength.le).eq_of_length
    hlength

/-- A function is the last of the functions up to one place only. -/
theorem length_eq_of_getLast? {xs ys zs : List String} (hzs : zs.Nodup) (hxs : xs <+: zs)
    (hys : ys <+: zs) {name : String} (hx : xs.getLast? = some name)
    (hy : ys.getLast? = some name) : xs.length = ys.length := by
  -- the last of a front part stands at the same place in the whole list
  have hplace : ∀ {ws : List String}, ws <+: zs → ws.getLast? = some name →
      0 < ws.length ∧ zs[ws.length - 1]? = some name := by
    rintro ws ⟨rest, rfl⟩ hlast
    rw [List.getLast?_eq_getElem?] at hlast
    have hlt := (List.getElem?_eq_some_iff.mp hlast).1
    exact ⟨by omega, by rw [List.getElem?_append_left hlt, hlast]⟩
  obtain ⟨hxpos, hxplace⟩ := hplace hxs hx
  obtain ⟨hypos, hyplace⟩ := hplace hys hy
  have hlt := (List.getElem?_eq_some_iff.mp hxplace).1
  have := (List.getElem?_inj hlt hzs).mp (hxplace.trans hyplace.symm)
  omega

/-- A function of two units makes them one, if all functions have different names. -/
theorem unit_eq_of_mem_functions (hfunctions : (units.flatMap SourceUnit.functions).Nodup)
    {u v : SourceUnit} (hu : u ∈ units) (hv : v ∈ units) {name : String}
    (hname : name ∈ u.functions) (hname' : name ∈ v.functions) : u = v := by
  by_contra hne
  have : Std.Symm (Function.onFun List.Disjoint SourceUnit.functions) :=
    ⟨fun _ _ h => List.disjoint_symm h⟩
  exact (List.nodup_flatMap.mp hfunctions).2.forall hu hv hne hname hname'

/-- Scopes have one name if they are one, or if one of them is the code of a unit before its
functions and the other is the body of a function named like that unit. -/
theorem scopeName_eq_iff (hnames : (units.map SourceUnit.name).Nodup)
    (hfunctions : (units.flatMap SourceUnit.functions).Nodup) (hsite : site.unit ∈ units)
    (hother : other.unit ∈ units) :
    site.scopeName = other.scopeName ↔
      site.SameScope other ∨ site.MeetsFunction other ∨ other.MeetsFunction site := by
  constructor
  · intro h
    unfold scopeName at h
    cases hlast : site.functions.getLast? with
    | none =>
      have hnil := List.getLast?_eq_none_iff.mp hlast
      cases hlast' : other.functions.getLast? with
      | none =>
        -- both are the code of a unit before its functions
        have hnil' := List.getLast?_eq_none_iff.mp hlast'
        rw [hlast, hlast'] at h
        exact .inl ⟨List.inj_on_of_nodup_map hnames hsite hother h, by rw [hnil, hnil']⟩
      | some g =>
        -- the unit has the name of the other site's function
        rw [hlast, hlast'] at h
        exact .inr (.inl ⟨hnil, hlast'.trans (congrArg some h.symm)⟩)
    | some f =>
      cases hlast' : other.functions.getLast? with
      | none =>
        have hnil' := List.getLast?_eq_none_iff.mp hlast'
        rw [hlast, hlast'] at h
        exact .inr (.inr ⟨hnil', hlast.trans (congrArg some h)⟩)
      | some g =>
        -- both are in a function, and functions with one name are one
        rw [hlast, hlast'] at h
        obtain rfl : f = g := h
        have hunit := unit_eq_of_mem_functions hfunctions hsite hother
          (site.functions_isPrefix.subset (List.mem_of_getLast? hlast))
          (other.functions_isPrefix.subset (List.mem_of_getLast? hlast'))
        refine .inl ⟨hunit, ?_⟩
        have hnodup := (List.nodup_flatMap.mp hfunctions).1 site.unit hsite
        exact length_eq_of_getLast? hnodup site.functions_isPrefix
          (hunit ▸ other.functions_isPrefix) hlast hlast'
  · rintro (hsame | ⟨hnil, hlast⟩ | ⟨hnil, hlast⟩)
    · rw [scopeName, scopeName, hsame.functions_eq, hsame.1]
    · rw [scopeName, scopeName, hnil, hlast]
      rfl
    · rw [scopeName, scopeName, hnil, hlast]
      rfl

/-! ### Lines -/

variable {options : Options} {lines : List String}

theorem line_mem_printed (site : LabelSite) (annotate : Bool) (labels : Labels) :
    site.line ∈ printed annotate (site.instruction.code site.scope labels) := by
  unfold line
  rcases site.instruction_cases with h | h | h <;> rw [h]
  · exact text_mem_printed (l := .label site.symbol)
      (List.mem_cons_of_mem _ List.mem_cons_self) rfl
  · exact text_mem_printed (l := Template.load site.symbol)
      (List.mem_cons_of_mem _ List.mem_cons_self) rfl
  · -- the condition is popped before the symbol is loaded
    exact text_mem_printed (l := Template.load site.symbol)
      (List.mem_cons_of_mem _ (List.mem_append_left _ (List.mem_append_right _ List.mem_cons_self)))
      rfl

/-- The code of a site stands in the lines of the program. -/
theorem emittedIn (site : LabelSite) (h : (translate options units).value = .ok lines)
    (hsite : site.unit ∈ units) : site.EmittedIn options units lines := by
  obtain ⟨-, -, rfl⟩ := translate_eq_ok_iff.mp h
  obtain ⟨earlier, later, rfl⟩ := List.append_of_mem hsite
  obtain ⟨labels, hprogram⟩ := exists_program_append options earlier
  -- the code of the unit is cut before and behind the site
  have hunit : codeFrom ⟨site.unit.name, none⟩ labels site.unit.instructions =
      codeFrom ⟨site.unit.name, none⟩ labels site.before ++
        (site.instruction.code site.scope (labels.afterAll site.before) ++
          codeFrom site.scope ((labels.afterAll site.before).after site.instruction) site.after) := by
    rw [site.instructions_eq, codeFrom_append]
    change _ ++ codeFrom site.scope _ (site.instruction :: site.after) = _
    rw [codeFrom, site.enter_instruction]
  refine ⟨earlier, later, labels, _, printed options.annotate
    (codeFrom site.scope ((labels.afterAll site.before).after site.instruction) site.after ++
      (programFrom (labels.afterAll site.unit.instructions) later).flatMap Block.code), rfl, rfl, ?_,
    site.line_mem_printed _ _⟩
  rw [hprogram, programFrom, List.flatMap_append, List.flatMap_append, ← codeFrom_eq, hunit]
  simp only [printed_append, List.append_assoc]

/-- The symbols of two instructions with labels, each emitted where the instruction stands, are equal
if and only if the labels are and the scopes are one, or one scope is the code of a unit before its
functions and the other is the body of a function with the name of that unit. -/
theorem symbol_eq_iff (h : (translate options units).value = .ok lines)
    (hfunctions : (units.flatMap SourceUnit.functions).Nodup) {site other : LabelSite}
    (hsite : site.unit ∈ units) (hother : other.unit ∈ units) :
    site.EmittedIn options units lines ∧ other.EmittedIn options units lines ∧
      (site.symbol = other.symbol ↔ site.name = other.name ∧
        (site.SameScope other ∨ site.MeetsFunction other ∨ other.MeetsFunction site)) := by
  obtain ⟨hlegal, hnames, -⟩ := translate_eq_ok_iff.mp h
  refine ⟨site.emittedIn h hsite, other.emittedIn h hother, ?_⟩
  rw [symbol_eq_symbol_iff (hlegal _ hsite), scopeName_eq_iff hnames hfunctions hsite hother,
    and_comm]

/-- A unit of two functions that use one label. -/
def twoLoops : SourceUnit :=
  ⟨"Main", [⟨1, .function "f" 0⟩, ⟨2, .label "L"⟩, ⟨3, .function "g" 0⟩, ⟨4, .goto "L"⟩]⟩

/-- The label in the first function. -/
def firstLoop : LabelSite :=
  ⟨twoLoops, [.function "f" 0], .label "L", [.function "g" 0, .goto "L"], "L", rfl, rfl⟩

/-- The jump in the second function. -/
def secondLoop : LabelSite :=
  ⟨twoLoops, [.function "f" 0, .label "L", .function "g" 0], .goto "L", [], "L", rfl, rfl⟩

theorem symbol_eq_iff_twoLoops :
    ∃ lines, (translate {} [twoLoops]).value = .ok lines ∧
      ([twoLoops].flatMap SourceUnit.functions).Nodup ∧
      firstLoop.EmittedIn {} [twoLoops] lines ∧ secondLoop.EmittedIn {} [twoLoops] lines ∧
      firstLoop.name = secondLoop.name ∧ firstLoop.symbol ≠ secondLoop.symbol := by
  have hfunctions : ([twoLoops].flatMap SourceUnit.functions).Nodup := by decide
  obtain ⟨lines, hlines⟩ : ∃ lines, (translate {} [twoLoops]).value = .ok lines := ⟨_, rfl⟩
  have hfirstUnit : firstLoop.unit ∈ [twoLoops] := by decide
  have hsecondUnit : secondLoop.unit ∈ [twoLoops] := by decide
  obtain ⟨hfirst, hsecond, hsymbol⟩ := symbol_eq_iff hlines hfunctions hfirstUnit hsecondUnit
  refine ⟨lines, hlines, hfunctions, hfirst, hsecond, rfl, ?_⟩
  intro heq
  exact absurd (hsymbol.mp heq).2 (by decide)

/-- A unit with a function of its own name. -/
def nestedName : SourceUnit :=
  ⟨"Main", [⟨1, .label "X"⟩, ⟨2, .function "Main" 0⟩, ⟨3, .label "X"⟩]⟩

/-- The label before the function. -/
def outerLabel : LabelSite :=
  ⟨nestedName, [], .label "X", [.function "Main" 0, .label "X"], "X", rfl, rfl⟩

/-- The label in the function. -/
def innerLabel : LabelSite :=
  ⟨nestedName, [.label "X", .function "Main" 0], .label "X", [], "X", rfl, rfl⟩

/-- Labels in two scopes have one symbol, so the program cannot be loaded. -/
theorem nestedName_scopes_meet :
    ¬ outerLabel.SameScope innerLabel ∧ outerLabel.symbol = innerLabel.symbol ∧
      ([nestedName].flatMap SourceUnit.functions).Nodup ∧
      ∃ lines, (translate {} [nestedName]).value = .ok lines ∧
        outerLabel.EmittedIn {} [nestedName] lines ∧ innerLabel.EmittedIn {} [nestedName] lines ∧
        Machine.load lines = .error (.duplicateLabel "Main$X") := by
  obtain ⟨lines, hlines⟩ : ∃ lines, (translate {} [nestedName]).value = .ok lines := ⟨_, rfl⟩
  refine ⟨by decide, by decide, by decide, lines, hlines, outerLabel.emittedIn hlines (by decide),
    innerLabel.emittedIn hlines (by decide), ?_⟩
  cases hlines
  rfl

end LabelSite

end HackVm
