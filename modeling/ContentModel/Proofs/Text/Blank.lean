import ContentModel.Text.Blank
import Mathlib.Data.List.DropRight

/-!
# What is left of a text without its blanks

Trimming takes the blanks off one end of a text and then, on the reversed text, off the other. What
is left can be said without taking any steps:

> **the trimmed text is the part between two runs of blanks that has no blank at either end of
> itself** (`Text.trim_eq_iff`),

of which there is exactly one. A word or a numeral has no blank anywhere, so it is what is left
wherever it stands between blanks (`Text.Padded.trim_eq`).
-/

set_option autoImplicit false

namespace ContentModel.Text

variable {core text : List Char}

/-- The text is the core with blanks before and after it. -/
def Padded (core text : List Char) : Prop :=
  ∃ front back, text = front ++ core ++ back ∧ (∀ c ∈ front, isBlank c = true) ∧
    ∀ c ∈ back, isBlank c = true

/-- The text neither begins nor ends with a blank. -/
def Trimmed (text : List Char) : Prop :=
  (∀ c ∈ text.head?, isBlank c = false) ∧ ∀ c ∈ text.getLast?, isBlank c = false

theorem trim_eq_rdropWhile (text : List Char) :
    trim text = (text.dropWhile isBlank).rdropWhile isBlank := rfl

theorem padded_trim (text : List Char) : Padded (trim text) text := by
  refine ⟨text.takeWhile isBlank, (text.dropWhile isBlank).rtakeWhile isBlank, ?_, ?_, ?_⟩
  · rw [trim_eq_rdropWhile, List.append_assoc, List.rdropWhile_append_rtakeWhile,
      List.takeWhile_append_dropWhile]
  · exact fun c hc => List.mem_takeWhile_imp hc
  · exact fun c hc => List.mem_rtakeWhile_imp hc

theorem trimmed_trim (text : List Char) : Trimmed (trim text) := by
  rw [trim_eq_rdropWhile]
  constructor
  · intro c hc
    -- the second pass leaves a beginning of what the first one leaves, so its head is where the
    -- first stopped
    obtain ⟨back, hback⟩ := List.rdropWhile_prefix isBlank (text.dropWhile isBlank)
    have hstop := List.head?_dropWhile_not isBlank text
    rw [← hback, List.head?_append, Option.mem_def.1 hc] at hstop
    exact hstop
  · intro c hc
    obtain ⟨hne, hlast⟩ := List.mem_getLast?_eq_getLast hc
    have hstop := List.rdropWhile_last_not isBlank (text.dropWhile isBlank) hne
    rw [hlast]
    exact Bool.eq_false_iff.2 hstop

theorem Padded.trim_eq_of_trimmed (h : Padded core text) (hcore : Trimmed core) :
    trim text = core := by
  obtain ⟨front, back, rfl, hfront, hback⟩ := h
  rw [trim_eq_rdropWhile, List.append_assoc, List.dropWhile_append_of_pos hfront]
  cases core with
  | nil =>
    have hnil : back.dropWhile isBlank = [] := List.dropWhile_eq_nil_iff.2 hback
    rw [List.nil_append, hnil, List.rdropWhile_nil]
  | cons c cs =>
    have hhead : ¬ isBlank c = true := Bool.eq_false_iff.1 (hcore.1 c rfl)
    have hlast : ∀ hne : c :: cs ≠ [], ¬ isBlank ((c :: cs).getLast hne) = true :=
      fun hne => Bool.eq_false_iff.1 (hcore.2 _ (List.getLast?_eq_some_getLast hne))
    have hreversed : ∀ c ∈ back.reverse, isBlank c = true :=
      fun c hc => hback c (List.mem_reverse.1 hc)
    rw [List.cons_append, List.dropWhile_cons_of_neg hhead, ← List.cons_append, List.rdropWhile,
      List.reverse_append, List.dropWhile_append_of_pos hreversed]
    exact List.rdropWhile_eq_self_iff.2 hlast

/-- **Trimming**: what is left is the one part between blanks that has no blank at either end. -/
theorem trim_eq_iff : trim text = core ↔ Padded core text ∧ Trimmed core := by
  constructor
  · rintro rfl
    exact ⟨padded_trim text, trimmed_trim text⟩
  · rintro ⟨h, hcore⟩
    exact h.trim_eq_of_trimmed hcore

/-- A text without blanks is found again between blanks. -/
theorem Padded.trim_eq (h : Padded core text) (hcore : ∀ c ∈ core, isBlank c = false) :
    trim text = core :=
  h.trim_eq_of_trimmed
    ⟨fun c hc => hcore c (List.mem_of_head? hc), fun c hc => hcore c (List.mem_of_getLast? hc)⟩

end ContentModel.Text
