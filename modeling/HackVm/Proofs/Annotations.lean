/-
The comments around the code of instructions.

A comment `// t` is the beginning of a frame with the title `t`, and `// ~t` is its end. `scan`
reads lines with the titles of the frames that are open; it fails if a frame ends that is not the
innermost open one, if a line is in no frame, or if a frame stays open, and otherwise gives the
titles of the outermost frames (`outermost?`). The lines of a template are nested frames and plain
lines (`WellFramed`), and reading them inside a frame changes nothing (`scan_wellFramed`):

* **`annotations_erasable`** — the annotated lines of a program are frames with the texts of its
  instructions as titles, and without the comments they are its plain lines, which are loaded as the
  annotated ones are;
* **`load_filter_isComment`** — comments do not change what is loaded, whatever the lines.
-/
import HackVm.Proofs.BlockLines

namespace HackVm

open Assembly Machine Template

/-- Whether a line of text is a comment. -/
def isComment (line : String) : Bool :=
  ['/', '/'].isPrefixOf line.toList

/-- The titles of the outermost frames of lines, inside frames with the given titles, the innermost
first. -/
def scan : List String → List String → Option (List String)
  | [], [] => some []
  | _ :: _, [] => none
  | stack, line :: rest =>
    match line.toList with
    | '/' :: '/' :: ' ' :: '~' :: title =>
      match stack with
      | [] => none
      | inner :: outer => if inner = String.ofList title then scan outer rest else none
    | '/' :: '/' :: ' ' :: title =>
      let title := String.ofList title
      (scan (title :: stack) rest).map fun titles =>
        if stack.isEmpty then title :: titles else titles
    | '/' :: '/' :: _ => none
    | _ => if stack.isEmpty then none else scan stack rest

/-- The titles of the outermost frames of lines, if the frames are well nested and every line is in
one. -/
def outermost? (lines : List String) : Option (List String) :=
  scan [] lines

/-- A text that can be told from the end of a frame when it is a title. -/
def IsTitle (text : String) : Prop :=
  text.toList.head? ≠ some '~'

/-! ### Reading one line -/

section Scan

variable {title : String} {stack rest : List String}

theorem scan_closing : scan (title :: stack) (("// ~" ++ title) :: rest) = scan stack rest := by
  simp [scan]

theorem scan_opening (h : IsTitle title) :
    scan stack (("// " ++ title) :: rest) =
      (scan (title :: stack) rest).map fun titles =>
        if stack.isEmpty then title :: titles else titles := by
  have hline : ("// " ++ title).toList = '/' :: '/' :: ' ' :: title.toList := by simp
  rw [scan]
  split
  · rename_i heq
    simp only [hline, List.cons.injEq, true_and] at heq
    rw [IsTitle, heq] at h
    exact absurd rfl h
  · rename_i heq
    simp only [hline, List.cons.injEq, true_and] at heq
    rw [← heq, String.ofList_toList]
  · rename_i hnot heq
    rw [hline] at heq
    exact absurd (List.cons.inj (List.cons.inj heq).2).2.symm (hnot _)
  · rename_i hnot
    exact absurd hline (hnot _)

theorem scan_plain {line : String} (h : isComment line = false) (hstack : stack ≠ []) :
    scan stack (line :: rest) = scan stack rest := by
  have hslashes : ∀ text, line.toList ≠ '/' :: '/' :: text := by
    intro text heq
    simp [isComment, heq] at h
  rw [scan]
  split
  · exact absurd ‹_› (hslashes _)
  · exact absurd ‹_› (hslashes _)
  · exact absurd ‹_› (hslashes _)
  · simp [hstack]

end Scan

/-! ### WellFramed frames -/

/-- Whether a line is neither a comment of a frame nor one that stands as it was written. -/
def Assembly.Line.isPlain (l : Line) : Bool :=
  l.isKnown && !l.isFrame

/-- Plain lines and frames, one after the other and nested. -/
inductive WellFramed : List Line → Prop where
  | nil : WellFramed []
  | plain {l : Line} {rest : List Line} (hl : l.isPlain) (hrest : WellFramed rest) :
      WellFramed (l :: rest)
  | frame {title : String} {body rest : List Line} (htitle : IsTitle title)
      (hbody : WellFramed body) (hrest : WellFramed rest) : WellFramed (framed title body ++ rest)

theorem WellFramed.append {first second : List Line} (h₁ : WellFramed first)
    (h₂ : WellFramed second) : WellFramed (first ++ second) := by
  induction h₁ with
  | nil => exact h₂
  | plain hl _ ih => exact .plain hl ih
  | frame htitle hbody _ _ ih =>
    rw [List.append_assoc]
    exact .frame htitle hbody ih

theorem WellFramed.framed {title : String} {body : List Line} (htitle : IsTitle title)
    (hbody : WellFramed body) : WellFramed (framed title body) := by
  simpa using WellFramed.frame htitle hbody .nil

theorem wellFramed_of_all {ls : List Line} (h : ls.all Line.isPlain) : WellFramed ls := by
  induction ls with
  | nil => exact .nil
  | cons l rest ih =>
    rw [List.all_cons, Bool.and_eq_true] at h
    exact .plain h.1 (ih h.2)

/-- A line of the translator is a comment only if it belongs to a frame. -/
theorem isComment_text {l : Line} (h : l.isKnown) : isComment l.text = l.isFrame := by
  cases l with
  | opening title => simp [isComment, Line.text, Line.isFrame]
  | closing title => simp [isComment, Line.text, Line.isFrame]
  | label name => simp [isComment, Line.text, Line.isFrame, List.isPrefixOf]
  | verbatim text => cases h
  | command c =>
    obtain ⟨first, rest, htext, hcode, -⟩ := head?_command (c := c)
    simp [isComment, Line.text, Line.isFrame, htext, List.isPrefixOf, hcode.1.symm]

theorem printed_framed (title : String) (body : List Line) :
    printed true (framed title body) =
      ("// " ++ title) :: (printed true body ++ ["// ~" ++ title]) := by
  simp [printed, kept, framed, Line.text]

/-- Inside a frame nested lines are read over. -/
theorem scan_wellFramed {ls : List Line} (h : WellFramed ls) {stack : List String}
    (hstack : stack ≠ []) (rest : List String) :
    scan stack (printed true ls ++ rest) = scan stack rest := by
  induction h generalizing stack rest with
  | nil => rfl
  | plain hl _ ih =>
    rename_i l ls _
    rw [Line.isPlain, Bool.and_eq_true, Bool.not_eq_true'] at hl
    have htext : isComment l.text = false := by rw [isComment_text hl.1, hl.2]
    have hprinted : printed true (l :: ls) = l.text :: printed true ls := rfl
    rw [hprinted, List.cons_append, scan_plain htext hstack, ih hstack]
  | frame htitle _ _ ihbody ihrest =>
    rename_i title body ls _ _
    -- the body is read inside the frame, and the rest where the frame stands
    rw [printed_append, printed_framed, List.append_assoc, List.cons_append, List.append_assoc,
      scan_opening htitle, ihbody (List.cons_ne_nil _ _), List.singleton_append, scan_closing,
      ihrest hstack]
    simp [hstack]

/-- A frame that is in no other is one of the outermost. -/
theorem scan_framed {title : String} {body : List Line} (htitle : IsTitle title)
    (hbody : WellFramed body) (rest : List String) :
    scan [] (printed true (framed title body) ++ rest) = (scan [] rest).map (title :: ·) := by
  rw [printed_framed, List.cons_append, List.append_assoc, scan_opening htitle,
    scan_wellFramed hbody (List.cons_ne_nil _ _), List.singleton_append, scan_closing]
  rfl

/-! ### Templates -/

theorem exists_text_eq (i : Instruction) : ∃ more, i.text = i.opcode ++ more := by
  unfold Instruction.text
  cases i.operands with
  | nil => exact ⟨"", by simp⟩
  | cons operand rest =>
    refine ⟨" " ++ " ".intercalate (operand :: rest), ?_⟩
    rw [String.intercalate_cons_cons, String.append_assoc]

/-- The text of an instruction begins with its opcode, and so with a letter. -/
theorem isTitle_text (i : Instruction) : IsTitle i.text := by
  obtain ⟨more, htext⟩ := exists_text_eq i
  rw [IsTitle, htext, String.toList_append]
  cases i with
  | binary op => cases op <;> simp [Instruction.opcode, BinaryOp.keyword]
  | unary op => cases op <;> simp [Instruction.opcode, UnaryOp.keyword]
  | compare op => cases op <;> simp [Instruction.opcode, CompareOp.keyword]
  | _ => simp [Instruction.opcode]

theorem wellFramed_pushNumber (n : Int16) : WellFramed (pushNumber n) := by
  refine wellFramed_of_all ?_
  unfold pushNumber loadD
  split
  · rfl
  · split
    · rfl
    · split <;> rfl

theorem wellFramed_pushConstant (n : Int16) : WellFramed (pushConstant n) :=
  .framed (isTitle_text _) (wellFramed_pushNumber n)

theorem wellFramed_zeros (n : Nat) : WellFramed (List.replicate n (pushConstant 0)).flatten := by
  induction n with
  | zero => exact .nil
  | succ n ih =>
    rw [List.replicate_succ, List.flatten_cons]
    exact (wellFramed_pushConstant 0).append ih

theorem wellFramed_compare (op : CompareOp) (id : Nat) : WellFramed (compare op id) := by
  unfold Template.compare
  refine (((WellFramed.append ?_ (wellFramed_pushConstant 0)).append (wellFramed_of_all rfl)).append
    (wellFramed_pushConstant (-1))).append (wellFramed_of_all rfl)
  cases op <;> exact wellFramed_of_all rfl

/-- The lines of an instruction inside its frame are nested. -/
theorem wellFramed_body (scope : Scope) (labels : Labels) (i : Instruction) :
    WellFramed (body scope labels i) := by
  cases i with
  | pushConstant n => exact wellFramed_pushNumber n
  | function name n => exact .plain rfl (wellFramed_zeros n.toNat)
  | binary op => cases op <;> exact wellFramed_of_all rfl
  | unary op => cases op <;> exact wellFramed_of_all rfl
  | compare op => exact wellFramed_compare op _
  | _ => exact wellFramed_of_all rfl

theorem wellFramed_call (name : String) (args : UInt16) (id : Nat) :
    WellFramed (call name args id) :=
  wellFramed_of_all rfl

/-! ### Programs -/

/-- The title of the frame of a block. -/
def Block.title : Block → String
  | .bootstrap .. => "bootstrap"
  | .instruction _ _ i => i.text

/-- The code of a block is a frame with nested lines in it. -/
theorem exists_code_eq (b : Block) :
    ∃ body, b.code = framed b.title body ∧ IsTitle b.title ∧ WellFramed body := by
  cases b with
  | bootstrap base entry id =>
    have hcall := (wellFramed_call entry 0 id).framed (isTitle_text (.call entry 0))
    refine ⟨_, rfl, ?_, (wellFramed_of_all rfl).append hcall⟩
    simp [IsTitle, Block.title]
  | instruction scope labels i => exact ⟨_, rfl, isTitle_text i, wellFramed_body scope labels i⟩

theorem outermost?_blocks (bs : List Block) :
    outermost? (printed true (bs.flatMap Block.code)) = some (bs.map Block.title) := by
  unfold outermost?
  induction bs with
  | nil => rfl
  | cons b rest ih =>
    obtain ⟨body, hcode, htitle, hbody⟩ := exists_code_eq b
    rw [List.flatMap_cons, hcode, printed_append, scan_framed htitle hbody, ih]
    rfl

/-- The titles of the frames of a program: that of the code that begins it, and the texts of its
instructions. -/
def titles (options : Options) (units : List SourceUnit) : List String :=
  (if options.bootstrap then ["bootstrap"] else []) ++
    units.flatMap fun u => u.instructions.map Instruction.text

theorem map_title_blocksFrom (scope : Scope) (labels : Labels) (is : List Instruction) :
    (blocksFrom scope labels is).map Block.title = is.map Instruction.text := by
  induction is generalizing scope labels with
  | nil => rfl
  | cons i rest ih => rw [blocksFrom, List.map_cons, ih, List.map_cons, Block.title]

theorem map_title_programFrom (labels : Labels) (units : List SourceUnit) :
    (programFrom labels units).map Block.title =
      units.flatMap fun u => u.instructions.map Instruction.text := by
  induction units generalizing labels with
  | nil => rfl
  | cons u rest ih =>
    rw [programFrom, List.map_append, map_title_blocksFrom, ih, List.flatMap_cons]

theorem map_title_program (options : Options) (units : List SourceUnit) :
    (program options units).map Block.title = titles options units := by
  unfold program titles
  split
  · rw [List.map_cons, map_title_programFrom]
    rfl
  · rw [map_title_programFrom, List.nil_append]

/-- The lines that are printed without comments are those with them that are no comments. -/
theorem printed_false_eq_filter {ls : List Line} (h : ∀ l ∈ ls, l.isKnown) :
    printed false ls = (printed true ls).filter fun line => !isComment line := by
  have hkept : kept false ls = ls.filter fun l => !isComment l.text := by
    refine List.filter_congr ?_
    intro l hl
    rw [isComment_text (h l hl)]
  rw [printed, hkept, printed, List.filter_map]
  rfl

theorem item?_of_isComment {line : String} (h : isComment line) : Machine.item? line = none := by
  obtain ⟨rest, hline⟩ := List.isPrefixOf_iff_prefix.mp h
  rw [Machine.item?, ← hline]
  rfl

/-- Comments do not change what is loaded. -/
theorem load_filter_isComment (lines : List String) :
    load (lines.filter fun line => !isComment line) = load lines := by
  have hitems : (lines.filter fun line => !isComment line).filterMap Machine.item? =
      lines.filterMap Machine.item? := by
    rw [List.filterMap_filter]
    congr 1
    funext line
    cases hcomment : isComment line with
    | false => simp
    | true => simp [item?_of_isComment hcomment]
  rw [Machine.load, Machine.load, hitems]

/-- Whenever units translate, they do with comments and without. The comments are well nested, every
other line is inside a frame, and the titles of the outermost frames are those of the code that
begins the program and of the instructions of the units, in order. Without its comments the program
is what is printed without them, and both are loaded as the same program or with the same error. -/
theorem annotations_erasable {options : Options} {units : List SourceUnit} {lines : List String}
    (h : (translate options units).value = .ok lines) :
    ∃ annotated plain,
      (translate { options with annotate := true } units).value = .ok annotated ∧
      (translate { options with annotate := false } units).value = .ok plain ∧
      outermost? annotated = some (titles options units) ∧
      plain = annotated.filter (fun line => !isComment line) ∧
      load plain = load annotated := by
  obtain ⟨hlegal, hnodup, -⟩ := translate_eq_ok_iff.mp h
  have hknown : ∀ l ∈ (program options units).flatMap Block.code, l.isKnown :=
    isKnown_of_mem_flatMap
  have hplain := printed_false_eq_filter hknown
  refine ⟨printed true ((program options units).flatMap Block.code),
    printed false ((program options units).flatMap Block.code),
    translate_eq_ok_iff.mpr ⟨hlegal, hnodup, rfl⟩, translate_eq_ok_iff.mpr ⟨hlegal, hnodup, rfl⟩,
    ?_, hplain, ?_⟩
  · rw [outermost?_blocks, map_title_program]
  · rw [hplain, load_filter_isComment]

/-- A unit whose instructions have frames inside their frames. -/
def nestedFrames : SourceUnit :=
  ⟨"Main", [⟨1, .function "Sys.init" 2⟩, ⟨2, .compare .eq⟩, ⟨3, .call "Sys.init" 0⟩]⟩

theorem annotations_erasable_nestedFrames :
    ∃ annotated plain,
      (translate {} [nestedFrames]).value = .ok annotated ∧
      (translate { annotate := false } [nestedFrames]).value = .ok plain ∧
      outermost? annotated =
        some ["bootstrap", "function Sys.init 2", "eq", "call Sys.init 0"] ∧
      plain = annotated.filter (fun line => !isComment line) ∧
      load plain = load annotated := by
  obtain ⟨lines, h⟩ : ∃ lines, (translate {} [nestedFrames]).value = .ok lines := ⟨_, rfl⟩
  have htitles : titles {} [nestedFrames] =
      ["bootstrap", "function Sys.init 2", "eq", "call Sys.init 0"] := by decide +kernel
  rw [← htitles]
  exact annotations_erasable h

end HackVm
