/-
Texts that are cut into pieces.

The words of a text, its lines and the code on a line are parts of the text: they hold characters of
it in their order, so they are no longer than the text, and there are no more of them than
characters. Pieces with the right character between two are cut apart again (`words_intercalate`,
`lines_intercalate`).
-/
import HackVm.Text.Blank
import Mathlib.Data.String.Basic

namespace HackVm

open Text

/-! ### Pieces -/

theorem mem_intercalate {α : Type} {a d : α} {pieces : List (List α)}
    (h : a ∈ [d].intercalate pieces) : a = d ∨ ∃ piece ∈ pieces, a ∈ piece := by
  induction pieces with
  | nil => simp at h
  | cons piece others ih =>
    cases others with
    | nil =>
      rw [List.intercalate_singleton] at h
      exact .inr ⟨piece, List.mem_cons_self, h⟩
    | cons second more =>
      rw [List.intercalate_cons_cons, List.append_assoc, List.mem_append, List.mem_append,
        List.mem_singleton] at h
      rcases h with h | h | h
      · exact .inr ⟨piece, List.mem_cons_self, h⟩
      · exact .inl h
      · rcases ih h with h | ⟨p, hp, h⟩
        · exact .inl h
        · exact .inr ⟨p, List.mem_cons_of_mem piece hp, h⟩

theorem map_ofList_map_toList (texts : List String) :
    (texts.map String.toList).map String.ofList = texts := by
  rw [List.map_map]
  exact (List.map_congr_left fun _ _ => String.ofList_toList).trans (List.map_id texts)

/-- A piece of a text is empty, or one of the text behind the first character, or such a piece with
the first character before it, which is no separator then. -/
theorem mem_splitOnP_cons {p : Char → Bool} {c : Char} {rest piece : List Char}
    (h : piece ∈ (c :: rest).splitOnP p) :
    piece = [] ∨ piece ∈ rest.splitOnP p ∨
      p c = false ∧ ∃ behind ∈ rest.splitOnP p, piece = c :: behind := by
  rw [List.splitOnP_cons_eq_if_modifyHead] at h
  by_cases hc : p c
  · rw [if_pos hc] at h
    exact (List.mem_cons.mp h).imp_right .inl
  · obtain ⟨first, others, hpieces⟩ := List.exists_cons_of_ne_nil (List.splitOnP_ne_nil p rest)
    rw [if_neg hc, hpieces, List.modifyHead_cons] at h
    rw [hpieces]
    rcases List.mem_cons.mp h with rfl | h
    · exact .inr (.inr ⟨by simpa using hc, first, List.mem_cons_self, rfl⟩)
    · exact .inr (.inl (List.mem_cons_of_mem first h))

/-- A piece of a text holds characters of the text in their order. -/
theorem sublist_of_mem_splitOnP {p : Char → Bool} {text piece : List Char}
    (h : piece ∈ text.splitOnP p) : piece.Sublist text := by
  induction text generalizing piece with
  | nil =>
    rw [List.splitOnP_nil, List.mem_singleton] at h
    rw [h]
  | cons c rest ih =>
    rcases mem_splitOnP_cons h with rfl | h | ⟨-, behind, hbehind, rfl⟩
    · exact List.nil_sublist _
    · exact (ih h).cons c
    · exact (ih hbehind).cons_cons c

/-- A piece of a text holds no separator. -/
theorem not_of_mem_splitOnP {p : Char → Bool} {text piece : List Char}
    (h : piece ∈ text.splitOnP p) : ∀ c ∈ piece, p c = false := by
  induction text generalizing piece with
  | nil =>
    rw [List.splitOnP_nil, List.mem_singleton] at h
    simp [h]
  | cons c rest ih =>
    rcases mem_splitOnP_cons h with rfl | h | ⟨hc, behind, hbehind, rfl⟩
    · exact List.forall_mem_nil _
    · exact ih h
    · exact List.forall_mem_cons.mpr ⟨hc, ih hbehind⟩

theorem not_mem_of_mem_splitOn {c : Char} {text piece : List Char}
    (h : piece ∈ text.splitOn c) : c ∉ piece := by
  intro hc
  rw [List.splitOn_eq_splitOnP] at h
  simpa using not_of_mem_splitOnP h c hc

/-- Where two texts meet, the last piece of one and the first of the other are one piece. -/
theorem exists_splitOn_append (c : Char) (front behind : List Char) :
    ∃ init last first more, front.splitOn c = init ++ [last] ∧ behind.splitOn c = first :: more ∧
      (front ++ behind).splitOn c = init ++ (last ++ first) :: more := by
  obtain ⟨first, more, hbehind⟩ :=
    List.exists_cons_of_ne_nil (List.splitOn_ne_nil c behind)
  induction front with
  | nil => exact ⟨[], [], first, more, List.splitOn_nil c, hbehind, hbehind⟩
  | cons d rest ih =>
    obtain ⟨init, last, first', more', hfront, hfirst, happend⟩ := ih
    rw [hbehind] at hfirst
    cases hfirst
    rw [List.cons_append, List.splitOn_cons_eq_if_modifyHead, List.splitOn_cons_eq_if_modifyHead,
      hfront, happend, hbehind]
    by_cases hd : d == c
    · exact ⟨[] :: init, last, first, more, by simp [hd], rfl, by simp [hd]⟩
    · cases init with
      | nil => exact ⟨[], d :: last, first, more, by simp [hd], rfl, by simp [hd]⟩
      | cons piece others =>
        exact ⟨(d :: piece) :: others, last, first, more, by simp [hd], rfl, by simp [hd]⟩

theorem intercalate_append (sep : String) {front behind : List String} (hfront : front ≠ [])
    (hbehind : behind ≠ []) :
    sep.intercalate (front ++ behind) =
      sep.intercalate front ++ sep ++ sep.intercalate behind := by
  induction front with
  | nil => exact absurd rfl hfront
  | cons first rest ih =>
    cases rest with
    | nil => rw [List.singleton_append, String.intercalate_cons_of_ne_nil hbehind,
        String.intercalate_singleton]
    | cons second more =>
      rw [List.cons_append, String.intercalate_cons_of_ne_nil (by simp), ih (by simp),
        String.intercalate_cons_of_ne_nil (List.cons_ne_nil second more)]
      simp only [String.append_assoc]

/-- The pieces of a text with the separator between two are the text. -/
theorem intercalate_splitOn {sep : String} {c : Char} (h : sep.toList = [c]) (text : String) :
    sep.intercalate ((text.toList.splitOn c).map String.ofList) = text := by
  have htexts : ((text.toList.splitOn c).map String.ofList).map String.toList =
      text.toList.splitOn c := by
    rw [List.map_map]
    exact (List.map_congr_left fun _ _ => String.toList_ofList).trans (List.map_id _)
  rw [← String.toList_inj, String.toList_intercalate, htexts, h]
  exact List.intercalate_splitOn c

/-- The pieces before the last one end in a separator each. -/
theorem length_splitOnP_add_le {p : Char → Bool} {text last : List Char}
    (h : (text.splitOnP p).getLast? = some last) :
    (text.splitOnP p).length + last.length ≤ text.length + 1 := by
  induction text generalizing last with
  | nil =>
    rw [List.splitOnP_nil, List.getLast?_singleton, Option.some.injEq] at h
    simp [← h]
  | cons c rest ih =>
    obtain ⟨first, others, hpieces⟩ := List.exists_cons_of_ne_nil (List.splitOnP_ne_nil p rest)
    rw [List.splitOnP_cons_eq_if_modifyHead] at h ⊢
    rw [hpieces] at h ih ⊢
    by_cases hc : p c
    · rw [if_pos hc, List.getLast?_cons_cons] at h
      have hrest := ih h
      rw [if_pos hc]
      simp only [List.length_cons] at hrest ⊢
      omega
    · rw [if_neg hc, List.modifyHead_cons] at h ⊢
      cases others with
      | nil =>
        have hrest := ih List.getLast?_singleton
        rw [List.getLast?_singleton, Option.some.injEq] at h
        rw [← h]
        simp only [List.length_cons, List.length_nil] at hrest ⊢
        omega
      | cons second more =>
        rw [List.getLast?_cons_cons] at h
        have hrest := ih (by rwa [List.getLast?_cons_cons])
        simp only [List.length_cons] at hrest ⊢
        omega

/-! ### Words -/

/-- A blank ends the words before it. -/
theorem words_append_blank (before : List Char) {c : Char} (hc : isBlank c) (after : List Char) :
    words (before ++ c :: after) = words before ++ words after := by
  simp only [words, List.splitOnP_append_cons before after hc, List.filter_append]

theorem words_cons_blank {c : Char} (hc : isBlank c) (after : List Char) :
    words (c :: after) = words after :=
  words_append_blank [] hc after

theorem words_concat_blank (before : List Char) {c : Char} (hc : isBlank c) :
    words (before ++ [c]) = words before := by
  have hnone : words [] = [] := rfl
  rw [words_append_blank before hc [], hnone, List.append_nil]

theorem words_dropWhile (text : List Char) : words (text.dropWhile isBlank) = words text := by
  induction text with
  | nil => rfl
  | cons c rest ih =>
    by_cases hc : isBlank c
    · rw [List.dropWhile_cons_of_pos hc, ih, words_cons_blank hc]
    · rw [List.dropWhile_cons_of_neg hc]

theorem words_reverse_dropWhile (text : List Char) :
    words (text.dropWhile isBlank).reverse = words text.reverse := by
  induction text with
  | nil => rfl
  | cons c rest ih =>
    by_cases hc : isBlank c
    · rw [List.dropWhile_cons_of_pos hc, ih, List.reverse_cons, words_concat_blank _ hc]
    · rw [List.dropWhile_cons_of_neg hc]

theorem words_trim (text : List Char) : words (trim text) = words text := by
  rw [trim, words_reverse_dropWhile, List.reverse_reverse, words_dropWhile]

/-- The words of a line are those before its comment. -/
theorem words_strip (line : List Char) : words (strip line) = words (beforeSlashes line) :=
  words_trim _

/-- A text without blanks, unless it is empty, is one word. -/
theorem words_eq_singleton {word : List Char} (hne : word ≠ [])
    (h : ∀ c ∈ word, isBlank c = false) : words word = [word] := by
  rw [words, List.splitOnP_eq_singleton h]
  simp [hne]

/-- Words with a blank between two are read apart. -/
theorem words_intercalate {c : Char} (hc : isBlank c) {ws : List (List Char)}
    (h : ∀ w ∈ ws, w ≠ [] ∧ ∀ d ∈ w, isBlank d = false) : words ([c].intercalate ws) = ws := by
  induction ws with
  | nil => rfl
  | cons w rest ih =>
    obtain ⟨hne, hw⟩ := h w List.mem_cons_self
    have hrest := ih fun v hv => h v (List.mem_cons_of_mem w hv)
    cases rest with
    | nil => rw [List.intercalate_singleton, words_eq_singleton hne hw]
    | cons v others =>
      rw [List.intercalate_cons_cons, List.append_assoc, List.singleton_append,
        words_append_blank w hc, words_eq_singleton hne hw, hrest, List.singleton_append]

theorem sublist_of_mem_words {text word : List Char} (h : word ∈ words text) :
    word.Sublist text :=
  sublist_of_mem_splitOnP (List.mem_of_mem_filter h)

theorem beforeSlashes_sublist (line : List Char) : (beforeSlashes line).Sublist line := by
  fun_induction beforeSlashes line with
  | case1 rest => exact List.nil_sublist _
  | case2 c rest hslashes ih => exact ih.cons_cons c
  | case3 => exact List.Sublist.refl []

/-- The words on a line hold characters of the line in their order. -/
theorem sublist_of_mem_words_strip {line word : List Char} (h : word ∈ words (strip line)) :
    word.Sublist line := by
  rw [words_strip] at h
  exact (sublist_of_mem_words h).trans (beforeSlashes_sublist line)

/-! ### Lines -/

theorem dropReturn_sublist (line : List Char) : (dropReturn line).Sublist line := by
  unfold dropReturn
  split
  · exact List.dropLast_sublist line
  · exact List.Sublist.refl line

/-- A line of a text holds characters of the text in their order. -/
theorem sublist_of_mem_lines {text line : List Char} (h : line ∈ lines text) :
    line.Sublist text := by
  rcases List.mem_append.mp h with h | h
  · obtain ⟨piece, hpiece, rfl⟩ := List.mem_map.mp h
    exact (dropReturn_sublist piece).trans
      (sublist_of_mem_splitOnP (List.dropLast_subset _ hpiece))
  · have hlast := List.mem_of_mem_filter h
    rw [Option.mem_toList] at hlast
    exact sublist_of_mem_splitOnP (List.mem_of_getLast? hlast)

/-- A text has no more lines than characters. -/
theorem length_lines_le (text : List Char) : (lines text).length ≤ text.length := by
  obtain ⟨last, hlast⟩ : ∃ last, (text.splitOn '\n').getLast? = some last :=
    ⟨_, List.getLast?_eq_some_getLast (List.splitOn_ne_nil '\n' text)⟩
  have hpieces : (text.splitOn '\n').length + last.length ≤ text.length + 1 :=
    length_splitOnP_add_le hlast
  have hpos := List.length_pos_iff.mpr (List.splitOn_ne_nil '\n' text)
  simp only [lines, hlast, List.length_append, List.length_map, List.length_dropLast,
    Option.toList_some]
  by_cases hempty : last = []
  · simp only [hempty, List.isEmpty_nil, Bool.not_true, List.filter_cons_of_neg,
      List.filter_nil, List.length_nil, Bool.false_eq_true, not_false_eq_true]
    rw [hempty, List.length_nil] at hpieces
    omega
  · have hchars := List.length_pos_iff.mpr hempty
    have hfilter := List.length_filter_le (fun line : List Char => !line.isEmpty) [last]
    rw [List.length_singleton] at hfilter
    omega

/-- Lines with a line feed between two are read apart. -/
theorem lines_intercalate {texts : List (List Char)}
    (h : ∀ text ∈ texts, text ≠ [] ∧ '\n' ∉ text ∧ text.getLast? ≠ some '\r') :
    lines (['\n'].intercalate texts) = texts := by
  by_cases hnil : texts = []
  · subst hnil
    rfl
  · have hreturns : texts.dropLast.map dropReturn = texts.dropLast := by
      refine (List.map_congr_left ?_).trans (List.map_id _)
      intro text htext
      exact if_neg (h text (List.dropLast_subset texts htext)).2.2
    have hlast := List.getLast?_eq_some_getLast hnil
    have hne : (texts.getLast hnil).isEmpty = false :=
      List.isEmpty_eq_false_iff.mpr (h _ (List.getLast_mem hnil)).1
    rw [lines, List.splitOn_intercalate '\n' (fun text ht => (h text ht).2.1) hnil]
    simp only [hreturns, hlast, Option.toList_some, List.filter_cons, hne, Bool.not_false,
      if_true, List.filter_nil]
    exact List.dropLast_append_getLast hnil

/-! ### Bytes -/

/-- The bytes of a text are taken for the text. -/
theorem fromUTF8?_toUTF8 (s : String) : String.fromUTF8? ⟨s.toUTF8.data.toList.toArray⟩ = some s := by
  rw [String.fromUTF8?, dif_pos (by simpa using s.isValidUTF8)]
  rfl

theorem utf8ByteSize_le_of_sublist {short long : String}
    (h : short.toList.Sublist long.toList) : short.utf8ByteSize ≤ long.utf8ByteSize := by
  have hle := String.utf8Len_le_of_sublist h
  rwa [← String.utf8ByteSize_ofList, ← String.utf8ByteSize_ofList, String.ofList_toList,
    String.ofList_toList] at hle

theorem length_toList_le (text : String) : text.toList.length ≤ text.utf8ByteSize := by
  have hlen : ∀ cs : List Char, cs.length ≤ String.utf8Len cs := by
    intro cs
    induction cs with
    | nil => exact Nat.le_refl 0
    | cons c rest ih =>
      have hpos := Char.utf8Size_pos c
      rw [List.length_cons, String.utf8Len_cons]
      omega
  have hle := hlen text.toList
  rwa [← String.utf8ByteSize_ofList, String.ofList_toList] at hle

end HackVm
