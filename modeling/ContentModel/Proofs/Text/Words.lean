import ContentModel.Proofs.Text.Blank

/-!
# Words between blanks

The words of a text are found one after the other: blanks are skipped, then everything up to the
next blank is a word. This file says the same without an order of steps:

> **the words are the pieces between the blanks, without the empty ones** (`Text.words_eq_pieces`).

A text that is cut at a blank has the words of both parts (`Text.pieces_append_blank`), and all else
about words follows from that. In particular trimming a text changes no word of it
(`Text.words_trim`).
-/

set_option autoImplicit false

namespace ContentModel.Text

variable {c : Char} {core text word : List Char}

/-- What stands between the blanks of a text and is not empty. -/
def pieces (text : List Char) : List (List Char) := (text.splitOnP isBlank).filter (· ≠ [])

theorem pieces_nil : pieces [] = [] := by
  rw [pieces, List.splitOnP_nil]
  rfl

/-- **A blank is the end of a word**, if it is not in front of all words. -/
theorem pieces_append_blank (before after : List Char) (hc : isBlank c = true) :
    pieces (before ++ c :: after) = pieces before ++ pieces after := by
  rw [pieces, List.splitOnP_append_cons before after hc, List.filter_append, ← pieces, ← pieces]

theorem pieces_cons_blank (hc : isBlank c = true) (text : List Char) :
    pieces (c :: text) = pieces text := by
  have hsplit := pieces_append_blank [] text hc
  rwa [pieces_nil, List.nil_append, List.nil_append] at hsplit

theorem pieces_of_blanks (h : ∀ c ∈ text, isBlank c = true) : pieces text = [] := by
  induction text with
  | nil => exact pieces_nil
  | cons c text ih =>
    rw [List.forall_mem_cons] at h
    rw [pieces_cons_blank h.1, ih h.2]

theorem pieces_of_word (hne : word ≠ []) (h : ∀ c ∈ word, isBlank c = false) :
    pieces word = [word] := by
  rw [pieces, List.splitOnP_eq_singleton h]
  exact List.filter_cons_of_pos (decide_eq_true hne)

/-- **The words** are the pieces between the blanks. -/
theorem words_eq_pieces (text : List Char) : words text = pieces text := by
  fun_induction words text with
  | case1 => exact pieces_nil.symm
  | case2 c r hc ih => rw [pieces_cons_blank hc, ih]
  | case3 c r hc ih =>
    have hword : ∀ d ∈ c :: r.takeWhile (!isBlank ·), isBlank d = false := by
      intro d hd
      rcases List.mem_cons.1 hd with rfl | hd
      · exact Bool.eq_false_iff.2 hc
      · simpa using List.mem_takeWhile_imp hd
    have hsplit : c :: r = (c :: r.takeWhile (!isBlank ·)) ++ r.dropWhile (!isBlank ·) := by
      rw [List.cons_append, List.takeWhile_append_dropWhile]
    rw [ih, hsplit]
    cases hrest : r.dropWhile (!isBlank ·) with
    | nil => rw [List.append_nil, pieces_of_word (List.cons_ne_nil _ _) hword, pieces_nil]
    | cons b rest =>
      have hb : isBlank b = true := by
        have hstop := List.head?_dropWhile_not (!isBlank ·) r
        rw [hrest] at hstop
        simpa using hstop
      rw [pieces_append_blank _ _ hb, pieces_of_word (List.cons_ne_nil _ _) hword,
        pieces_cons_blank hb, List.singleton_append]

/-! ## Words of a text between blanks -/

theorem pieces_append_blanks (core : List Char) {back : List Char}
    (h : ∀ c ∈ back, isBlank c = true) :
    pieces (core ++ back) = pieces core := by
  cases back with
  | nil => rw [List.append_nil]
  | cons c back =>
    rw [List.forall_mem_cons] at h
    rw [pieces_append_blank _ _ h.1, pieces_of_blanks h.2, List.append_nil]

theorem pieces_blanks_append {front : List Char} (h : ∀ c ∈ front, isBlank c = true)
    (core : List Char) :
    pieces (front ++ core) = pieces core := by
  induction front with
  | nil => rw [List.nil_append]
  | cons c front ih =>
    rw [List.forall_mem_cons] at h
    rw [List.cons_append, pieces_cons_blank h.1, ih h.2]

theorem Padded.pieces_eq (h : Padded core text) : pieces text = pieces core := by
  obtain ⟨front, back, rfl, hfront, hback⟩ := h
  rw [pieces_append_blanks _ hback, pieces_blanks_append hfront]

/-- **Trimming** takes no word away. -/
theorem words_trim (text : List Char) : words (trim text) = words text := by
  rw [words_eq_pieces, words_eq_pieces, (padded_trim text).pieces_eq]

end ContentModel.Text
