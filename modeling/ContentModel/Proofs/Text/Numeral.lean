import ContentModel.Proofs.Text.Blank
import ContentModel.Text.Numeral
import Mathlib.Data.List.Induction

/-!
# What numerals stand for

The grammar of numerals, given rule by rule, and the readers of `Text.Numeral` against it. A digit
stands for its value, and a run of digits with one more digit behind it for ten times as much and
that digit; a sign may stand in front. The readers go over the digits once and add up, then look
whether the number is in the range asked for:

> **a numeral is read exactly if the grammar gives it a value in the range, and as that value**
> (`Text.natural?_eq_some_iff`, `Text.integer?_eq_some_iff`).

No bound on the length of the text is needed: the range is one of values, and leading zeros do not
add to the value (`Text.Digits.zeros`).
-/

set_option autoImplicit false

namespace ContentModel.Text

/-! ## 1. The grammar -/

/-- Runs of decimal digits, with the number that each stands for. -/
inductive Digits : List Char → ℕ → Prop
  | one {d : ℕ} (hd : d < 10) : Digits [d.digitChar] d
  | more {cs : List Char} {n d : ℕ} (h : Digits cs n) (hd : d < 10) :
    Digits (cs ++ [d.digitChar]) (10 * n + d)

/-- A run of digits, or one with a plus sign in front. -/
inductive Unsigned : List Char → ℕ → Prop
  | plain {cs : List Char} {n : ℕ} (h : Digits cs n) : Unsigned cs n
  | plus {cs : List Char} {n : ℕ} (h : Digits cs n) : Unsigned ('+' :: cs) n

/-- What may stand without a sign, or a run of digits with a minus sign in front. -/
inductive Signed : List Char → ℤ → Prop
  | unsigned {cs : List Char} {n : ℕ} (h : Unsigned cs n) : Signed cs n
  | minus {cs : List Char} {n : ℕ} (h : Digits cs n) : Signed ('-' :: cs) (-n)

variable {cs : List Char} {c : Char} {n d : ℕ}

/-! ## 2. Digits -/

theorem isDigit_iff : c.isDigit = true ↔ ∃ d, d < 10 ∧ c = d.digitChar := by
  constructor
  · intro h
    obtain ⟨hlow, hhigh⟩ : 48 ≤ c.toNat ∧ c.toNat ≤ 57 := Char.isDigit_iff_toNat.1 h
    have hd : c.toNat - 48 < 10 := by omega
    refine ⟨c.toNat - 48, hd, Char.toNat_inj.1 ?_⟩
    rw [Nat.toNat_digitChar_of_lt_ten hd]
    omega
  · rintro ⟨d, hd, rfl⟩
    simp [Nat.isDigit_digitChar, hd]

theorem toNat_digitChar_sub (hd : d < 10) : d.digitChar.toNat - '0'.toNat = d := by
  rw [Nat.toNat_digitChar_of_lt_ten hd]
  exact Nat.add_sub_cancel_left 48 d

theorem digitsValue_concat (cs : List Char) (hd : d < 10) :
    digitsValue (cs ++ [d.digitChar]) = 10 * digitsValue cs + d := by
  rw [digitsValue, List.foldl_append, List.foldl_cons, List.foldl_nil, toNat_digitChar_sub hd]
  rfl

theorem digits?_eq_some_iff_all :
    digits? cs = some n ↔ cs ≠ [] ∧ (∀ c ∈ cs, c.isDigit = true) ∧ digitsValue cs = n := by
  have hrun : (!cs.isEmpty && cs.all Char.isDigit) = true ↔
      cs ≠ [] ∧ ∀ c ∈ cs, c.isDigit = true := by
    simp [List.all_eq_true]
  rw [digits?, Option.ite_none_right_eq_some, Option.some.injEq, hrun, and_assoc]

theorem Digits.digits? (h : Digits cs n) : digits? cs = some n := by
  rw [digits?_eq_some_iff_all]
  induction h with
  | one hd =>
    have hvalue := digitsValue_concat [] hd
    exact ⟨List.cons_ne_nil _ _, by simp [Nat.isDigit_digitChar, hd], hvalue.trans (Nat.zero_add _)⟩
  | more h hd ih =>
    obtain ⟨-, hall, hvalue⟩ := ih
    refine ⟨by simp, ?_, by rw [digitsValue_concat _ hd, hvalue]⟩
    intro c hc
    rcases List.mem_append.1 hc with hc | hc
    · exact hall c hc
    · exact isDigit_iff.2 ⟨_, hd, List.mem_singleton.1 hc⟩

theorem digits_of_isDigit (hne : cs ≠ []) (hall : ∀ c ∈ cs, c.isDigit = true) :
    Digits cs (digitsValue cs) := by
  induction cs using List.reverseRecOn with
  | nil => exact absurd rfl hne
  | append_singleton cs c ih =>
    obtain ⟨d, hd, rfl⟩ := isDigit_iff.1 (hall c (by simp))
    rw [digitsValue_concat cs hd]
    by_cases hnil : cs = []
    · rw [hnil]
      have hzero : 10 * digitsValue [] + d = d := Nat.zero_add d
      rw [hzero]
      exact .one hd
    · exact .more (ih hnil fun c hc => hall c (List.mem_append_left _ hc)) hd

theorem digits?_eq_some_iff : digits? cs = some n ↔ Digits cs n := by
  constructor
  · intro h
    obtain ⟨hne, hall, rfl⟩ := digits?_eq_some_iff_all.1 h
    exact digits_of_isDigit hne hall
  · exact Digits.digits?

/-- A zero in front does not count. -/
theorem Digits.zero (h : Digits cs n) : Digits ('0' :: cs) n := by
  induction h with
  | one hd =>
    have hzero : Digits ['0'] 0 := Digits.one (show 0 < 10 by decide)
    simpa using hzero.more hd
  | more h hd ih => exact ih.more hd

theorem Digits.zeros (h : Digits cs n) (k : ℕ) : Digits (List.replicate k '0' ++ cs) n := by
  induction k with
  | zero => exact h
  | succ k ih => exact ih.zero

/-- The decimal text of a number is a run of digits that stands for it. -/
theorem digits_toDigits (n : ℕ) : Digits (Nat.toDigits 10 n) n := by
  induction n using Nat.strongRecOn with
  | ind n ih =>
    by_cases hlt : n < 10
    · rw [Nat.toDigits_of_lt_base hlt]
      exact .one hlt
    · have hle : 10 ≤ n := Nat.le_of_not_lt hlt
      rw [Nat.toDigits_of_base_le (by decide) hle]
      have hsplit := (ih (n / 10) (by omega)).more (Nat.mod_lt n (by decide))
      rwa [Nat.div_add_mod] at hsplit

/-! ## 3. Signs -/

theorem Digits.isDigit (h : Digits cs n) : ∀ c ∈ cs, c.isDigit = true :=
  (digits?_eq_some_iff_all.1 h.digits?).2.1

/-- No sign is a digit. -/
theorem not_digits_cons (hc : c.isDigit = false) : ¬ Digits (c :: cs) n := by
  intro h
  have hdigit := h.isDigit c List.mem_cons_self
  rw [hc] at hdigit
  cases hdigit

/-- **Unsigned numerals**: what is read is what the grammar gives, where it is in the range. -/
theorem natural?_eq_some_iff {top : ℕ} : natural? top cs = some n ↔ Unsigned cs n ∧ n ≤ top := by
  unfold natural?
  dsimp only
  rw [Option.filter_eq_some_iff, decide_eq_true_eq]
  refine and_congr_left fun _ => ?_
  split
  · rw [digits?_eq_some_iff]
    constructor
    · exact .plus
    · rintro (h | h)
      · exact absurd h (not_digits_cons rfl)
      · exact h
  · rename_i hplus
    rw [digits?_eq_some_iff]
    constructor
    · exact .plain
    · rintro (h | h)
      · exact h
      · exact absurd rfl (hplus _)

/-- **Signed numerals**: what is read is what the grammar gives, where it is in the range. -/
theorem integer?_eq_some_iff {bottom top v : ℤ} :
    integer? bottom top cs = some v ↔ Signed cs v ∧ bottom ≤ v ∧ v ≤ top := by
  unfold integer?
  dsimp only
  rw [Option.filter_eq_some_iff, Bool.and_eq_true, decide_eq_true_eq, decide_eq_true_eq]
  refine and_congr_left fun _ => ?_
  split
  · simp only [Option.map_eq_some_iff, digits?_eq_some_iff]
    constructor
    · rintro ⟨n, h, rfl⟩
      exact .unsigned (.plus h)
    · rintro ((h | h) | _)
      · exact absurd h (not_digits_cons rfl)
      · exact ⟨_, h, rfl⟩
  · simp only [Option.map_eq_some_iff, Option.bind_eq_bind, Option.bind_eq_some_iff,
      digits?_eq_some_iff]
    constructor
    · rintro ⟨_, ⟨n, h, ⟨⟩⟩, rfl⟩
      exact .minus h
    · rintro ((h | _) | h)
      · exact absurd h (not_digits_cons rfl)
      · exact ⟨_, ⟨_, h, rfl⟩, rfl⟩
  · rename_i hplus hminus
    simp only [Option.map_eq_some_iff, digits?_eq_some_iff]
    constructor
    · rintro ⟨n, h, rfl⟩
      exact .unsigned (.plain h)
    · rintro ((h | h) | h)
      · exact ⟨_, h, rfl⟩
      · exact absurd rfl (hplus _)
      · exact absurd rfl (hminus _)

/-! ## 4. Numerals between blanks -/

theorem Digits.isBlank (h : Digits cs n) : ∀ c ∈ cs, isBlank c = false := by
  have hdigit : ∀ d, d < 10 → Text.isBlank d.digitChar = false := by decide
  intro c hc
  obtain ⟨d, hd, rfl⟩ := isDigit_iff.1 (h.isDigit c hc)
  exact hdigit d hd

theorem Unsigned.isBlank (h : Unsigned cs n) : ∀ c ∈ cs, isBlank c = false := by
  cases h with
  | plain h => exact h.isBlank
  | plus h => exact List.forall_mem_cons.2 ⟨by decide, h.isBlank⟩

theorem Signed.isBlank {v : ℤ} (h : Signed cs v) : ∀ c ∈ cs, isBlank c = false := by
  cases h with
  | unsigned h => exact h.isBlank
  | minus h => exact List.forall_mem_cons.2 ⟨by decide, h.isBlank⟩

end ContentModel.Text
