import ContentModel.Proofs.Occurs.Lax

/-!
# Numbers in either attribute

A non-negative integer may stand in either of the two occurrence attributes, and one would have it
mean the same bound in both. The lower bound is read as a signed integer and the upper one as an
unsigned one, and so

> **they are read alike, except for zero with a minus sign** (`Text.signed_natCast_iff`).

That one number has its literals `-0`, `-00` and so on as the signed grammar gives them; the
unsigned grammar gives no literal that begins with a minus sign, whatever it may stand for. So the
lower attribute takes them for zero and the upper one refuses them (`Occurs.literals_alike_iff`).
-/

set_option autoImplicit false

namespace ContentModel

/-! ## 1. Literals of zero -/

namespace Text

variable {cs : List Char} {n : ℕ}

theorem Digits.eq_zeros (h : Digits cs n) (hn : n = 0) : ∃ k, cs = List.replicate (k + 1) '0' := by
  induction h with
  | @one d hd =>
    rw [hn]
    exact ⟨0, rfl⟩
  | @more cs n d h hd ih =>
    obtain ⟨rfl, rfl⟩ : n = 0 ∧ d = 0 := by omega
    obtain ⟨k, rfl⟩ := ih rfl
    exact ⟨k + 1, List.replicate_succ'.symm⟩

/-- Zero is written with zeros and nothing else. -/
theorem digits_zero_iff : Digits cs 0 ↔ ∃ k, cs = List.replicate (k + 1) '0' := by
  constructor
  · exact fun h => h.eq_zeros rfl
  · rintro ⟨k, rfl⟩
    have hzero : Digits ['0'] 0 := Digits.one (show 0 < 10 by decide)
    rw [List.replicate_succ']
    exact hzero.zeros k

/-- A minus sign before zeros. -/
def MinusZero (cs : List Char) : Prop := ∃ k, cs = '-' :: List.replicate (k + 1) '0'

theorem MinusZero.signed (h : MinusZero cs) : Signed cs 0 := by
  obtain ⟨k, rfl⟩ := h
  exact .minus (digits_zero_iff.2 ⟨k, rfl⟩)

/-- No unsigned literal begins with a minus sign. -/
theorem MinusZero.not_unsigned (h : MinusZero cs) : ¬ Unsigned cs n := by
  obtain ⟨k, rfl⟩ := h
  intro h
  cases h with
  | plain h => exact not_digits_cons rfl h

/-- **A literal of a natural number** needs its sign only where the sign says nothing. -/
theorem signed_natCast_iff : Signed cs n ↔ Unsigned cs n ∨ n = 0 ∧ MinusZero cs := by
  constructor
  · generalize hv : (n : ℤ) = v
    rintro (@⟨cs, m, h⟩ | @⟨cs, m, h⟩)
    · rw [Int.natCast_inj.1 hv]
      exact .inl h
    · obtain ⟨rfl, rfl⟩ : n = 0 ∧ m = 0 := by omega
      obtain ⟨k, rfl⟩ := digits_zero_iff.1 h
      exact .inr ⟨rfl, k, rfl⟩
  · rintro (h | ⟨rfl, h⟩)
    · exact .unsigned h
    · exact h.signed

end Text

/-! ## 2. The two attributes -/

namespace Occurs

open Text

variable {s : String} {n : UInt32}

theorem spellsMin_zero : SpellsMin (some "0") 0 :=
  spellsMin_some_iff.2 (.unsigned (.plain (digits_zero_iff.2 ⟨0, by decide⟩)))

theorem spellsMax_unbounded : SpellsMax (some "unbounded") .unbounded :=
  spellsMax_some_unbounded_iff.2 (by decide)

/-- What the lower attribute stands for beside an upper one that leaves it free. -/
theorem exists_read_min_iff :
    (∃ o, read (some s) (some "unbounded") = .ok o ∧ o.min = n) ↔ SpellsMin (some s) n := by
  constructor
  · rintro ⟨o, ho, rfl⟩
    exact (read_eq_ok_iff.1 ho).1
  · intro h
    exact ⟨⟨n, .unbounded, trivial⟩, read_eq_ok_iff.2 ⟨h, spellsMax_unbounded⟩, rfl⟩

/-- What the upper attribute stands for beside a lower one that leaves it free. -/
theorem exists_read_max_iff :
    (∃ o, read (some "0") (some s) = .ok o ∧ o.max = .finite n) ↔
      SpellsMax (some s) (.finite n) := by
  constructor
  · rintro ⟨o, ho, hmax⟩
    rw [← hmax]
    exact (read_eq_ok_iff.1 ho).2
  · intro h
    exact ⟨⟨0, .finite n, Bound.finite_zero_le _⟩, read_eq_ok_iff.2 ⟨spellsMin_zero, h⟩, rfl⟩

theorem spellsMin_iff :
    SpellsMin (some s) n ↔ SpellsMax (some s) (.finite n) ∨ n = 0 ∧ MinusZero (trim s.toList) := by
  have hzero : n = 0 ↔ n.toNat = 0 := UInt32.toNat_inj.symm
  rw [spellsMin_some_iff, spellsMax_some_finite_iff, signed_natCast_iff, hzero]

theorem not_spellsMax_of_minusZero (h : MinusZero (trim s.toList)) (high : Bound) :
    ¬ SpellsMax (some s) high := by
  intro hspells
  cases high with
  | finite n => exact h.not_unsigned (spellsMax_some_finite_iff.1 hspells)
  | unbounded =>
    obtain ⟨k, hk⟩ := h
    rw [spellsMax_some_unbounded_iff, hk] at hspells
    exact absurd (List.cons.inj hspells).1 (by decide)

/-- The lower attribute takes a zero with a minus sign for zero, and the upper one for no number at
all. -/
theorem read_of_minusZero (h : MinusZero (trim s.toList)) :
    read (some s) (some "unbounded") = .ok .zeroOrMore ∧
    read (some "0") (some s) = .error .maxMalformed := by
  constructor
  · exact read_eq_ok_iff.2 ⟨spellsMin_iff.2 (.inr ⟨rfl, h⟩), spellsMax_unbounded⟩
  · have hword : trim s.toList ≠ "unbounded".toList :=
      fun e => not_spellsMax_of_minusZero h .unbounded (spellsMax_some_unbounded_iff.2 e)
    have hnumber : natural? (Bound.size - 1) (trim s.toList) = none :=
      Option.eq_none_iff_forall_ne_some.2 fun _ hm => h.not_unsigned (natural?_eq_some_iff.1 hm).1
    rw [read_eq_error_iff_faults, readLax_eq, readMin_of_spells spellsMin_zero, readMax_some,
      if_neg hword, hnumber]
    rfl

/-! ## 3. Literals in either attribute -/

/-- **The two attributes read literals alike**, except for one literal of one number. What the upper
attribute takes for a number, the lower one takes for the same number; and a text stands for a
number in both or in neither exactly if the number is not zero or the text is not a minus sign
before zeros. Such a text is zero in the lower attribute and refused as malformed in the upper
one. -/
theorem literals_alike_iff (s : String) (n : UInt32) :
    (((∃ o, read (some s) (some "unbounded") = .ok o ∧ o.min = n) ↔
        ∃ o, read (some "0") (some s) = .ok o ∧ o.max = .finite n) ↔
      ¬ (n = 0 ∧ MinusZero (trim s.toList))) ∧
    ((∃ o, read (some "0") (some s) = .ok o ∧ o.max = .finite n) →
      ∃ o, read (some s) (some "unbounded") = .ok o ∧ o.min = n) ∧
    (MinusZero (trim s.toList) →
      read (some s) (some "unbounded") = .ok .zeroOrMore ∧
        read (some "0") (some s) = .error .maxMalformed) := by
  rw [exists_read_min_iff, exists_read_max_iff, spellsMin_iff]
  refine ⟨?_, .inl, read_of_minusZero⟩
  constructor
  · rintro halike ⟨hn, h⟩
    exact not_spellsMax_of_minusZero h _ (halike.1 (.inr ⟨hn, h⟩))
  · exact or_iff_left

/-- The literal `+007` is seven in both attributes, and `-00` is zero in the lower one alone. -/
theorem literals_alike_iff_seven :
    (∃ o, read (some "0") (some "+007") = .ok o ∧ o.max = .finite 7) ∧
      (∃ o, read (some "+007") (some "unbounded") = .ok o ∧ o.min = 7) ∧
      MinusZero (trim " -00\n".toList) ∧
      read (some "0") (some " -00\n") = .error .maxMalformed := by
  have hseven : ∃ o, read (some "0") (some "+007") = .ok o ∧ o.max = .finite 7 :=
    ⟨⟨0, .finite 7, Bound.finite_zero_le _⟩, by decide, rfl⟩
  have hzero : MinusZero (trim " -00\n".toList) := ⟨1, by decide⟩
  exact ⟨hseven, (literals_alike_iff "+007" 7).2.1 hseven, hzero,
    ((literals_alike_iff " -00\n" 0).2.2 hzero).2⟩

/-- Zero may be written with a minus sign, and then the two attributes disagree about it. -/
theorem not_literals_alike :
    ¬ ∀ (s : String) (n : UInt32),
      (∃ o, read (some s) (some "unbounded") = .ok o ∧ o.min = n) ↔
        ∃ o, read (some "0") (some s) = .ok o ∧ o.max = .finite n := by
  intro halike
  obtain ⟨o, ho, -⟩ := (halike "-0" 0).1 ⟨.zeroOrMore, by decide, rfl⟩
  have hrefused : read (some "0") (some "-0") = .error .maxMalformed := by decide
  rw [hrefused] at ho
  cases ho

end Occurs

end ContentModel
