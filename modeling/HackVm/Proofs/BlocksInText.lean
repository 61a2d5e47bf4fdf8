/-
Blocks that stand in any text.

The lines of a block may stand between any others, and what the machine reads on those is
nothing that the block depends on: if the text is loaded, the code of the block stands where
the commands before it end (`codeAt_of_load`), and the labels that were made up for it name
their places in it.

* **`installed_of_load`** — a block that declares made-up labels only is installed in every text
  that is loaded and fits into the memory for instructions;
* **`reaches_of_outcome`**, **`reaches_of_execute`** — how its code ends is how the machine goes on.
-/
import HackVm.Proofs.AssemblyText
import HackVm.Proofs.Linking

namespace HackVm

open Assembly Machine

/-- The number of commands that the machine reads in a text. -/
def codeSize (lines : List String) : Nat :=
  (commands (readText lines)).length

theorem codeSize_append (first second : List String) :
    codeSize (first ++ second) = codeSize first + codeSize second := by
  simp [codeSize, commands]

/-- A loaded program has as many instructions as commands are read. -/
theorem size_of_load {lines : List String} {p : Machine.Program} (h : load lines = .ok p) :
    p.code.size = codeSize lines := by
  obtain ⟨layout, -, rfl⟩ := exists_layout_of_load h
  simp [resolve_eq, codeSize]

theorem exists_load_of_isOk (lines : List String) (h : (load lines).isOk) :
    ∃ p, load lines = .ok p := by
  cases hload : load lines with
  | error e =>
    rw [hload] at h
    cases h
  | ok p => exact ⟨p, rfl⟩

/-- A printed line declares what it was meant to, and the comments of a frame declare nothing. -/
theorem labelPlaces_readText_line {l : Line} (annotate : Bool) (h : l.Proper) (place : Nat) :
    labelPlaces place (readText (printed annotate [l])) = labelPlaces place [l] := by
  have hread := ofText_text h
  cases hframe : l.isFrame with
  | false =>
    have hprinted : printed annotate [l] = [l.text] := by
      cases annotate <;> simp [printed, kept, hframe]
    rw [hframe, if_neg Bool.false_ne_true] at hread
    rw [hprinted, readText_cons, hread]
    rfl
  | true =>
    have hnone : labelPlaces place [l] = [] := by cases l <;> first | rfl | cases hframe
    rw [hframe, if_pos rfl] at hread
    rw [hnone]
    cases annotate with
    | false => simp [printed, kept, hframe, readText, labelPlaces]
    | true =>
      show labelPlaces place [Line.ofText l.text] = []
      rw [hread]
      rfl

section Printed

variable {ls : List Line} (annotate : Bool) (h : ∀ l ∈ ls, l.Proper)

include h

theorem commands_readText_printed : commands (readText (printed annotate ls)) = commands ls :=
  filterMap_readText_printed (fun _ => command?_of_isFrame) annotate h

/-- Labels name the same places in printed lines as in the lines themselves. -/
theorem labelPlaces_readText_printed (place : Nat) :
    labelPlaces place (readText (printed annotate ls)) = labelPlaces place ls := by
  induction ls generalizing place with
  | nil => cases annotate <;> rfl
  | cons l rest ih =>
    obtain ⟨hl, hrest⟩ := List.forall_mem_cons.mp h
    have hcommands : commands (readText (printed annotate [l])) = commands [l] :=
      commands_readText_printed annotate (List.forall_mem_singleton.mpr hl)
    rw [← List.singleton_append, printed_append, readText_append, labelPlaces_append,
      labelPlaces_append, labelPlaces_readText_line annotate hl, hcommands, ih hrest]

end Printed

/-! ### Installed blocks -/

section Loaded

variable {before after : List String} {annotate : Bool} {p : Machine.Program} {ls : List Line}
  {b : Block}

/-- In a loaded text the code of printed lines stands behind the commands before them. -/
theorem codeAt_of_load (hload : load (before ++ printed annotate ls ++ after) = .ok p)
    (h : ∀ l ∈ ls, l.Proper) :
    CodeAt p (codeSize before)
      (ops (p.valueIn (before ++ printed annotate ls ++ after)) ls) := by
  have hsplit : commands (readText (before ++ printed annotate ls ++ after)) =
      commands (readText before) ++ commands ls ++ commands (readText after) := by
    rw [readText_append, readText_append, commands, List.filterMap_append, List.filterMap_append]
    exact congrArg (fun middle => _ ++ middle ++ _) (commands_readText_printed annotate h)
  obtain ⟨layout, -, rfl⟩ := exists_layout_of_load hload
  generalize hvalue : Program.valueIn _ (before ++ printed annotate ls ++ after) = value
  have hlength : ((commands (readText before)).map (resolved value)).length = codeSize before :=
    List.length_map _
  rw [← hlength]
  refine codeAt_of_eq_append _ _ ((commands (readText after)).map (resolved value)) ?_
  rw [ops, ← List.map_append, ← List.map_append, ← hsplit, ← hvalue]
  exact resolve_eq _ _

/-- A made-up label on printed lines stands for its place in a loaded text. -/
theorem valueIn_of_mem_labelPlaces
    (hload : load (before ++ printed annotate ls ++ after) = .ok p) (h : ∀ l ∈ ls, l.Proper)
    {x : String × Nat} (hx : x ∈ labelPlaces (codeSize before) ls) (hmade : IsMadeUp x.1) :
    p.valueIn (before ++ printed annotate ls ++ after) x.1 = BitVec.ofNat 16 x.2 := by
  obtain ⟨layout, hlayout, rfl⟩ := exists_layout_of_load hload
  refine symbolValue_of_fixed? ?_
  rw [fixed?_of_isMadeUp _ hmade]
  refine label_eq_of_mem_labelPlaces hlayout ?_
  rw [readText_append, readText_append, labelPlaces_append, labelPlaces_append, Nat.zero_add,
    labelPlaces_readText_printed annotate h]
  exact List.mem_append_left _ (List.mem_append_right _ hx)

/-- A block that declares made-up labels only is installed wherever its lines stand in a loaded
text that fits into the memory for instructions. -/
theorem installed_of_load (hload : load (before ++ printed annotate b.code ++ after) = .ok p)
    (hproper : ∀ l ∈ b.code, l.Proper)
    (hmade : ∀ name ∈ b.code.filterMap Line.label?, IsMadeUp name)
    (hfits : p.code.size ≤ 65535) :
    b.Installed p (p.valueIn (before ++ printed annotate b.code ++ after)) (codeSize before) := by
  have hsize : codeSize (printed annotate b.code) = b.size :=
    congrArg List.length (commands_readText_printed annotate hproper)
  refine ⟨codeAt_of_load hload hproper, ?_, ?_⟩
  · rw [size_of_load hload, codeSize_append, codeSize_append, hsize] at hfits
    omega
  · intro x hx
    exact valueIn_of_mem_labelPlaces hload hproper hx
      (hmade x.1 (mem_label?_of_mem_labelPlaces hx))

end Loaded

/-! ### What is reached -/

section Reaches

variable {p : Machine.Program}

theorem reaches_of_outcome {lo hi : Nat} {s : State} {m : Memory} {pc : Nat}
    (h : Outcome p lo hi s (some (m, pc))) : ∃ t, Reaches p s t ∧ t.memory = m ∧ t.pc = pc := by
  obtain ⟨t, hwalk, hresult⟩ := (h (m, pc)).mpr rfl
  obtain ⟨u, hfirst, hrest⟩ := hwalk.exists_steps
  exact ⟨t, .head hfirst hrest, congrArg Prod.fst hresult, congrArg Prod.snd hresult⟩

/-- Instructions of which only the last may jump are carried out in their order. -/
theorem reaches_of_execute {front : List Op} {s t : State} (hcode : CodeAt p s.pc front)
    (hstraight : ∀ op ∈ front.dropLast, op.isStraight) (h : execute front s = some t) :
    Reaches p s t := by
  induction front generalizing s with
  | nil =>
    cases h
    exact .refl
  | cons op rest ih =>
    obtain ⟨hop, hrest⟩ := hcode
    have hstep : step p s = op.step s := by simp [step, hop]
    rw [execute] at h
    split at h
    · rename_i u hu
      cases rest with
      | nil =>
        cases h
        exact .single (hstep.trans hu)
      | cons next others =>
        have hpc := pc_of_isStraight (hstraight op List.mem_cons_self) hu
        exact .head (hstep.trans hu)
          (ih (hpc ▸ hrest) (fun o ho => hstraight o (List.mem_cons_of_mem op ho)) h)
    · cases h

end Reaches

end HackVm
