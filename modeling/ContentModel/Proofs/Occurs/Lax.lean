import ContentModel.Proofs.Occurs.Attributes

/-!
# Lax reading of the occurrence attributes

Lax reading always gives a range, also from attributes that spell none, and reports what was wrong
beside it. This file says which range that is:

> **an attribute that spells no bound is taken for 1, and an upper bound below the lower one is
> given up** (`Occurs.exists_taken`),

and that nothing of the kind goes unreported: without a fault the range is the one that is spelled
(`Occurs.faults_eq_nil_iff`), so that strict reading, which fails with the first fault, gives the
same range where it gives one.
-/

set_option autoImplicit false

namespace ContentModel.Occurs

open Text

variable {min max : Option String}

/-! ## 1. The bounds that are taken -/

/-- What is spelled, or the default if nothing is. -/
def Taken {α : Type} (spells : α → Prop) (default bound : α) : Prop :=
  spells bound ∨ (∀ other, ¬ spells other) ∧ bound = default

/-- A reader takes what is spelled, or the default, if it reads all spellings and falls back to the
default. -/
theorem taken_of {α : Type} {spells : α → Prop} {default bound : α}
    (hspelled : ∀ other, spells other → bound = other)
    (hnone : (∀ other, ¬ spells other) → bound = default) : Taken spells default bound := by
  by_cases h : ∃ other, spells other
  · obtain ⟨other, hother⟩ := h
    exact .inl (hspelled other hother ▸ hother)
  · rw [not_exists] at h
    exact .inr ⟨h, hnone h⟩

theorem taken_readMin (min : Option String) : Taken (SpellsMin min) 1 (readMin min).1 := by
  apply taken_of
  · intro n hn
    rw [readMin_of_spells hn]
  · exact fun h => (readMin_of_not_spells h).1

theorem taken_readMax (low : UInt32) (max : Option String) :
    Taken (SpellsMax max) (.finite 1) (readMax low max).1 :=
  taken_of (fun _ hb => (readMax_of_spells low hb).1) fun h => (readMax_of_not_spells low h).1

@[simp] theorem widened_min (low : UInt32) (high : Bound) : (widened low high).min = low := by
  unfold widened
  split <;> rfl

@[simp] theorem widened_max (low : UInt32) (high : Bound) :
    (widened low high).max = if Bound.finite low ≤ high then high else .unbounded := by
  unfold widened
  split <;> rfl

/-- **The lax range** reaches from the lower bound that is taken to the upper one, and has no upper
end where the two are out of order. -/
theorem exists_taken (min max : Option String) :
    ∃ low high, Taken (SpellsMin min) 1 low ∧ Taken (SpellsMax max) (.finite 1) high ∧
      (readLax min max).1.min = low ∧
      (readLax min max).1.max = if Bound.finite low ≤ high then high else .unbounded :=
  ⟨_, _, taken_readMin min, taken_readMax _ max, widened_min _ _, widened_max _ _⟩

/-! ## 2. Faults -/

/-- **Nothing is replaced without a fault**, and nothing that is spelled is at fault. -/
theorem faults_eq_nil_iff :
    (readLax min max).2 = [] ↔
      SpellsMin min (readLax min max).1.min ∧ SpellsMax max (readLax min max).1.max := by
  constructor
  · intro h
    exact read_eq_ok_iff.1 (read_eq_ok_iff_faults.2 ⟨h, rfl⟩)
  · rintro ⟨hmin, hmax⟩
    exact congrArg Prod.snd (readLax_of_spells hmin hmax)

theorem read_eq_error_iff_faults {fault : ParseCause} :
    read min max = .error fault ↔ (readLax min max).2.head? = some fault := by
  unfold read
  rcases readLax min max with ⟨lax, _ | ⟨first, faults⟩⟩
  · simp
  · simp

/-- **Strict and lax reading agree.** The lax range is never empty: it reaches from the lower bound
that is taken to the upper one, or has no upper end where these are out of order. Strict reading
gives that range if there is no fault, and fails with the first fault otherwise. There is no fault
exactly if the ends of the range are spelled; so a range without an upper end that was not asked for
comes with a fault. -/
theorem strict_agrees_with_lax (min max : Option String) :
    let lax := readLax min max
    Bound.finite lax.1.min ≤ lax.1.max ∧
    (∃ low high, Taken (SpellsMin min) 1 low ∧ Taken (SpellsMax max) (.finite 1) high ∧
      lax.1.min = low ∧
      lax.1.max = if Bound.finite low ≤ high then high else .unbounded) ∧
    (∀ o, read min max = .ok o ↔ lax.2 = [] ∧ o = lax.1) ∧
    (∀ fault, read min max = .error fault ↔ lax.2.head? = some fault) ∧
    (lax.2 = [] ↔ SpellsMin min lax.1.min ∧ SpellsMax max lax.1.max) ∧
    (lax.1.max = .unbounded → (max.map fun s => trim s.toList) ≠ some "unbounded".toList →
      lax.2 ≠ []) := by
  intro lax
  have htaken := exists_taken min max
  refine ⟨?_, htaken, fun o => read_eq_ok_iff_faults, fun fault => read_eq_error_iff_faults,
    faults_eq_nil_iff, ?_⟩
  · obtain ⟨low, high, -, -, hmin, hmax⟩ := htaken
    rw [hmin, hmax]
    split
    · assumption
    · exact Bound.le_unbounded _
  · intro hunbounded hword hfaults
    have hspelled := (faults_eq_nil_iff.1 hfaults).2
    rw [hunbounded] at hspelled
    -- the word is the only spelling of no upper end
    cases max with
    | none => cases hspelled
    | some s => exact hword (congrArg some (spellsMax_some_unbounded_iff.1 hspelled))

/-- An upper bound below the lower one is given up, and strict reading fails for it. -/
theorem strict_agrees_with_lax_reversed :
    let lax := readLax (some "5") (some "3")
    lax.1.max = .unbounded ∧ lax.2 ≠ [] ∧ read (some "5") (some "3") = .error .maxBelowMin := by
  intro lax
  obtain ⟨-, -, -, herror, -, hsilent⟩ := strict_agrees_with_lax (some "5") (some "3")
  have hunbounded : lax.1.max = .unbounded := by decide
  exact ⟨hunbounded, hsilent hunbounded (by decide), (herror _).2 (by decide)⟩

end ContentModel.Occurs
