/-
What the machine reads in a text.

A line of text holds nothing, a label, a command, or what is none of these
(`Assembly.Line.ofText`). A text is loaded by laying out the labels and resolving the
commands that are read in it (`exists_layout_of_load`), whatever else its lines hold, so in a
loaded text each command stands behind those that are read before it
(`code_of_load_append`).

What the translator writes is read as it was meant (`ofText_text`), and therefore:

* **`filterMap_readText_printed`** — what is read in printed lines is what stands on them;
* **`isMadeUp_of_ofText`** — even a label that is not read as it was meant is read as a made-up one
  if it was made up.
-/
import HackVm.Proofs.Loading

namespace HackVm

open Assembly Machine Text

/-! ### Reading a line -/

/-- What the machine reads on a line of text. A line that holds nothing is a comment to it. -/
def Assembly.Line.ofText (text : String) : Line :=
  match Machine.item? text with
  | none => .opening ""
  | some (.label name) => .label name
  | some (.command code) =>
    match readCommand code with
    | .ok c => .command c
    | .error _ => .verbatim text

/-- What the machine reads in a text. -/
def readText (lines : List String) : List Line :=
  lines.map Line.ofText

@[simp] theorem readText_append (first second : List String) :
    readText (first ++ second) = readText first ++ readText second :=
  List.map_append

theorem readText_cons (text : String) (rest : List String) :
    readText (text :: rest) = Line.ofText text :: readText rest := rfl

/-! ### Loading a text -/

/-- If the commands of a text can be read, no line of it is without a meaning, and the labels are
laid out as those that are read. -/
theorem readText_of_mapM {lines : List String} {cs : List Command}
    (h : ((lines.filterMap Machine.item?).filterMap Item.command?).mapM readCommand = .ok cs) :
    cs = commands (readText lines) ∧ ∀ layout,
      (lines.filterMap Machine.item?).foldlM Layout.add layout =
        layOutFrom layout (readText lines) := by
  induction lines generalizing cs with
  | nil => cases h; exact ⟨rfl, fun _ => rfl⟩
  | cons text rest ih =>
    rw [readText_cons]
    unfold Line.ofText
    cases hitem : Machine.item? text with
    | none =>
      rw [List.filterMap_cons_none hitem] at h ⊢
      exact ih h
    | some item =>
      rw [List.filterMap_cons_some hitem] at h ⊢
      cases item with
      | label name =>
        obtain ⟨hcs, hlayout⟩ := ih h
        refine ⟨hcs, fun layout => ?_⟩
        rw [List.foldlM_cons, layOutFrom_cons]
        simp only [hlayout]
        rfl
      | command code =>
        rw [List.filterMap_cons_some (f := Item.command?) rfl, List.mapM_cons] at h
        -- the command is read, and so are those behind it
        cases hcode : readCommand code with
        | error e => rw [hcode] at h; cases h
        | ok c =>
          rw [hcode] at h
          cases hrest : ((rest.filterMap Machine.item?).filterMap Item.command?).mapM
              readCommand with
          | error e => rw [hrest] at h; cases h
          | ok ds =>
            rw [hrest] at h
            cases h
            obtain ⟨rfl, hlayout⟩ := ih hrest
            simp only [hcode]
            refine ⟨rfl, fun layout => ?_⟩
            rw [List.foldlM_cons, layOutFrom_cons]
            simp only [hlayout]
            rfl

/-- A loaded text is the resolution of the commands that are read in it, with the labels that are
read in it. -/
theorem exists_layout_of_load {lines : List String} {p : Machine.Program}
    (h : load lines = .ok p) : ∃ layout, layOut (readText lines) = .ok layout ∧
      p = { code := resolve layout.labels (commands (readText lines)), labels := layout.labels } := by
  unfold load at h
  cases hlayout : (lines.filterMap Machine.item?).foldlM Layout.add {} with
  | error e => simp [hlayout, bind, Except.bind] at h
  | ok layout =>
    cases hcs : ((lines.filterMap Machine.item?).filterMap Item.command?).mapM readCommand with
    | error e => simp [hlayout, hcs, bind, Except.bind] at h
    | ok cs =>
      obtain ⟨rfl, hread⟩ := readText_of_mapM hcs
      refine ⟨layout, (hread {}).symm.trans hlayout, ?_⟩
      simp only [hlayout, hcs, bind, Except.bind, pure, Except.pure, Except.ok.injEq] at h
      exact h.symm

/-- The value of a symbol in a loaded text. -/
def Machine.Program.valueIn (p : Machine.Program) (lines : List String) (name : String) : Word :=
  symbolValue p.labels (commands (readText lines)) name

/-- In a loaded text a command stands behind those that are read before it. -/
theorem code_of_load_append {before middle after : List String} {p : Machine.Program}
    (h : load (before ++ middle ++ after) = .ok p) {k : Nat} {c : Command}
    (hk : (commands (readText middle))[k]? = some c) :
    p.code[(commands (readText before)).length + k]? =
      some (resolved (p.valueIn (before ++ middle ++ after)) c) := by
  obtain ⟨layout, -, rfl⟩ := exists_layout_of_load h
  have hsplit : commands (readText (before ++ middle ++ after)) =
      commands (readText before) ++
        (commands (readText middle) ++ commands (readText after)) := by
    simp [commands]
  have hlt : k < (commands (readText middle)).length := (List.getElem?_eq_some_iff.mp hk).1
  have hplace : (commands (readText (before ++ middle ++ after)))[
      (commands (readText before)).length + k]? = some c := by
    rw [hsplit, List.getElem?_append_right (Nat.le_add_right _ _), Nat.add_sub_cancel_left,
      List.getElem?_append_left hlt, hk]
  rw [resolve_eq, List.getElem?_toArray, List.getElem?_map, hplace]
  rfl

/-! ### Lines of the translator -/

/-- Code characters at the front of a text stay there when its comment and its blanks are cut. -/
theorem exists_strip_append (front : List Char) (h : ∀ c ∈ front, IsCodeChar c)
    (rest : List Char) : ∃ rest', strip (front ++ rest) = front ++ rest' := by
  have hbefore : ∃ r, beforeSlashes (front ++ rest) = front ++ r := by
    induction front with
    | nil => exact ⟨_, rfl⟩
    | cons c front ih =>
      obtain ⟨r, hr⟩ := ih fun d hd => h d (by simp [hd])
      refine ⟨r, ?_⟩
      rw [List.cons_append, beforeSlashes, hr, List.cons_append]
      -- only two slashes begin a comment
      rintro rest' rfl
      exact absurd rfl (h _ (by simp)).1
  obtain ⟨r, hr⟩ := hbefore
  have hfront : ∀ xs : List Char, (∀ c ∈ xs, c ∈ front) → xs.dropWhile isBlank = xs := by
    intro xs hxs
    cases xs with
    | nil => rfl
    | cons c xs => simp [(h c (hxs c (by simp))).2]
  rw [strip, trim, hr]
  cases front with
  | nil => exact ⟨_, rfl⟩
  | cons c front =>
    have hkeep : ((c :: front) ++ r).dropWhile isBlank = (c :: front) ++ r := by
      simp [(h c (by simp)).2]
    refine ⟨(r.reverse.dropWhile isBlank).reverse, ?_⟩
    rw [hkeep, List.reverse_append, List.dropWhile_append]
    split
    · rename_i hempty
      rw [List.isEmpty_iff.mp hempty, hfront _ fun d hd => List.mem_reverse.mp hd,
        List.reverse_reverse]
      simp
    · rw [List.reverse_append, List.reverse_reverse]

/-- What is written to be read is read as it was meant. -/
theorem ofText_text {l : Line} (h : l.Proper) :
    Line.ofText l.text = if l.isFrame then .opening "" else l := by
  have hitem := item?_text h
  unfold Line.ofText
  cases l with
  | verbatim text => exact h.elim
  | command c =>
    rw [hitem]
    simp [Line.item?, Line.isFrame, readCommand_text h]
  | _ => rw [hitem]; rfl

/-- What is read in printed lines is what stands on them. -/
theorem filterMap_readText_printed {α : Type} {f : Line → Option α}
    (hf : ∀ l : Line, l.isFrame → f l = none) (annotate : Bool) {ls : List Line}
    (h : ∀ l ∈ ls, l.Proper) :
    (readText (printed annotate ls)).filterMap f = ls.filterMap f := by
  rw [← filterMap_kept hf annotate ls, readText, printed, List.map_map, List.filterMap_map]
  refine List.filterMap_congr fun l hl => ?_
  rw [Function.comp_apply, Function.comp_apply, ofText_text (h l (mem_of_mem_kept hl))]
  cases hframe : l.isFrame with
  | true => rw [if_pos rfl, hf l hframe]; exact hf _ rfl
  | false => rfl

theorem ofText_command_ne_label (c : Command) (name : String) :
    Line.ofText (Line.command c).text ≠ .label name := by
  obtain ⟨first, rest, htext, hcode, hparen⟩ := head?_command (c := c)
  obtain ⟨rest', hstrip⟩ := exists_strip_append [first] (by simpa using hcode) rest
  have hitem : Machine.item? (Line.command c).text = some (.command (first :: rest')) := by
    rw [List.singleton_append] at hstrip
    simp [Machine.item?, Line.text, htext, hstrip, parenthesized?_cons hparen]
  rw [Line.ofText, hitem]
  simp only
  split <;> simp

/-- Of the lines that the translator writes only a label is read as a label. -/
theorem exists_label_of_ofText {l : Line} (hl : l.isKnown) {name : String}
    (h : Line.ofText l.text = .label name) : ∃ declared, l = .label declared := by
  cases l with
  | label declared => exact ⟨declared, rfl⟩
  | command c => exact absurd h (ofText_command_ne_label c name)
  | verbatim text => cases hl
  | opening title => rw [ofText_text (l := .opening title) trivial] at h; cases h
  | closing title => rw [ofText_text (l := .closing title) trivial] at h; cases h

theorem head?_of_parenthesized? {c : Char} {rest name : List Char} (hc : c ≠ ')')
    (h : parenthesized? ('(' :: c :: rest) = some name) : name.head? = some c := by
  simp only [parenthesized?] at h
  split at h
  · rename_i hlast
    cases h
    -- the closing parenthesis is not the character itself, so this one is kept
    cases rest with
    | nil => exact absurd (by simpa using hlast) hc
    | cons d rest => rfl
  · cases h

/-- A made-up label is read as a made-up label, or as no label at all. -/
theorem isMadeUp_of_ofText {made name : String} (hmade : IsMadeUp made)
    (h : Line.ofText (Line.label made).text = .label name) : IsMadeUp name := by
  obtain ⟨tail, htail⟩ := List.head?_eq_some_iff.mp hmade
  have htext : (Line.label made).text.toList = ['(', '$'] ++ (tail ++ [')']) := by
    simp [Line.text, htail]
  -- the parenthesis and the dollar sign are read, whatever becomes of the rest
  obtain ⟨rest, hstrip⟩ := exists_strip_append ['(', '$']
    (List.all_iff_forall_prop.mp (by decide)) (tail ++ [')'])
  have hcode : strip (Line.label made).text.toList = '(' :: '$' :: rest := by
    rw [htext, hstrip]
    rfl
  unfold Line.ofText at h
  cases hparen : parenthesized? ('(' :: '$' :: rest) with
  | none =>
    have hitem : Machine.item? (Line.label made).text = some (.command ('(' :: '$' :: rest)) := by
      simp [Machine.item?, hcode, hparen]
    rw [hitem] at h
    simp only at h
    split at h <;> cases h
  | some inner =>
    have hitem : Machine.item? (Line.label made).text = some (.label (String.ofList inner)) := by
      simp [Machine.item?, hcode, hparen]
    rw [hitem] at h
    cases h
    rw [IsMadeUp, String.toList_ofList]
    exact head?_of_parenthesized? (by decide) hparen

end HackVm
