import ContentModel.ModelGroup.Restriction
import ContentModel.Proofs.Bound.Exact

/-!
# Restriction is inclusion

A range admits the counts between its ends. Whether it restricts another is decided by a list of
rules on the ends, the first of which that applies has the say; one of them passes a range that ends
at zero before any upper end is compared. This file says what the verdict means:

> **a range restricts another exactly if every count that it admits is admitted by the other**
> (`Occurs.restricts_iff_counts_subset`).

From right to left this needs that no range is empty: the range itself has to supply the counts that
show where it begins and how far it reaches. That is what a range is built with
(`Occurs.min_le_max`), and it is also why no two ranges admit the same counts
(`Occurs.counts_injective`), so that restriction is an order.
-/

set_option autoImplicit false

namespace ContentModel

namespace Occurs

variable {a b c : Occurs}

/-! ## 1. The counts of a range -/

/-- The counts that the range admits. -/
def counts (o : Occurs) : Set ℕ := {n | o.min.toNat ≤ n ∧ (n : ℕ∞) ≤ o.max.toENat}

theorem toNat_min_mem_counts (a : Occurs) : a.min.toNat ∈ a.counts :=
  ⟨le_rfl, Bound.le_iff_toENat_le.1 a.min_le_max⟩

/-! ## 2. Inclusion -/

/-- **Where a range lies** can be seen from its counts: the least of them is its lower end, and they
go as far as its upper end does. -/
theorem counts_subset_iff : a.counts ⊆ b.counts ↔ b.min ≤ a.min ∧ a.max ≤ b.max := by
  constructor
  · intro h
    have hleast := h a.toNat_min_mem_counts
    refine ⟨UInt32.le_iff_toNat_le.2 hleast.1, ?_⟩
    rw [Bound.le_iff_toENat_le, ← ENat.forall_natCast_le_iff_le]
    intro n hn
    rcases Nat.le_total a.min.toNat n with hmin | hmin
    · exact (h ⟨hmin, hn⟩).2
    · exact le_trans (Nat.cast_le.2 hmin) hleast.2
  · rintro ⟨hmin, hmax⟩ n hn
    refine ⟨le_trans (UInt32.le_iff_toNat_le.1 hmin) hn.1, ?_⟩
    exact le_trans hn.2 (Bound.le_iff_toENat_le.1 hmax)

theorem counts_injective : Function.Injective counts := by
  intro a b h
  obtain ⟨hmin, hmax⟩ := counts_subset_iff.1 (le_of_eq h)
  obtain ⟨hmin', hmax'⟩ := counts_subset_iff.1 (le_of_eq h.symm)
  cases a
  cases b
  cases UInt32.le_antisymm hmin' hmin
  cases Bound.le_antisymm hmax hmax'
  rfl

/-! ## 3. Restriction -/

/-- The rules come to a comparison of the ends. The one for a range that ends at zero is no
exception to it, since every upper end is at least zero. -/
theorem restricts_iff : a.restricts b = true ↔ b.min ≤ a.min ∧ a.max ≤ b.max := by
  unfold restricts
  by_cases hmin : a.min < b.min
  · simp [hmin]
  · rw [if_neg hmin, and_iff_right (UInt32.not_lt.1 hmin)]
    split
    · rename_i hzero
      rw [hzero]
      exact iff_of_true rfl (Bound.finite_zero_le _)
    · rename_i hmax _
      rw [hmax]
      exact iff_of_true rfl (Bound.le_unbounded _)
    · rename_i n ha hb
      rw [ha, hb]
      exact iff_of_false Bool.false_ne_true (Bound.not_unbounded_le_finite n)
    · rename_i m n _ ha hb
      rw [ha, hb]
      exact decide_eq_true_iff

/-- **Restriction is inclusion.** -/
theorem restricts_iff_counts_subset : a.restricts b = true ↔ a.counts ⊆ b.counts :=
  restricts_iff.trans counts_subset_iff.symm

theorem restricts_refl (a : Occurs) : a.restricts a = true :=
  restricts_iff_counts_subset.2 subset_rfl

theorem restricts_trans (hab : a.restricts b = true) (hbc : b.restricts c = true) :
    a.restricts c = true := by
  rw [restricts_iff_counts_subset] at hab hbc ⊢
  exact hab.trans hbc

theorem restricts_antisymm (hab : a.restricts b = true) (hba : b.restricts a = true) : a = b := by
  rw [restricts_iff_counts_subset] at hab hba
  exact counts_injective (hab.antisymm hba)

/-- A leaf is compared by its declared range, with a group as with any other particle. -/
theorem restricts_leaf (l : Leaf) (p : Particle) :
    (Particle.leaf l).restricts p = l.occurs.restricts p.occurs := rfl

/-- **Restriction orders the ranges by the counts that they admit**: a range restricts another
exactly if every count that it admits is admitted by the other. A leaf of whatever kind is compared
with any particle, and with a bare range, by the counts that the two declare; so leaves are ordered
as well, up to the range that they declare. -/
theorem restriction_is_inclusion :
    (∀ a b : Occurs, a.restricts b = true ↔ ∀ n : ℕ, n ∈ a.counts → n ∈ b.counts) ∧
    (∀ a : Occurs, a.restricts a = true) ∧
    (∀ a b c : Occurs, a.restricts b = true → b.restricts c = true → a.restricts c = true) ∧
    (∀ a b : Occurs, a.restricts b = true → b.restricts a = true → a = b) ∧
    ∀ l : Leaf,
      (∀ base : Occurs, (Particle.leaf l).restrictsBounds base = true ↔
        l.occurs.counts ⊆ base.counts) ∧
      (∀ p : Particle, (Particle.leaf l).restricts p = true ↔ l.occurs.counts ⊆ p.occurs.counts) ∧
      (Particle.leaf l).restricts (.leaf l) = true ∧
      (∀ (k : Leaf) (p : Particle), (Particle.leaf l).restricts (.leaf k) = true →
        (Particle.leaf k).restricts p = true → (Particle.leaf l).restricts p = true) ∧
      ∀ k : Leaf, (Particle.leaf l).restricts (.leaf k) = true →
        (Particle.leaf k).restricts (.leaf l) = true →
        l.occurs = k.occurs := by
  refine ⟨fun a b => restricts_iff_counts_subset, restricts_refl, fun a b c => restricts_trans,
    fun a b => restricts_antisymm, fun l => ?_⟩
  refine ⟨fun base => restricts_iff_counts_subset, ?_, ?_, ?_, ?_⟩
  · intro p
    rw [restricts_leaf]
    exact restricts_iff_counts_subset
  · rw [restricts_leaf]
    exact restricts_refl _
  · intro k p hlk hkp
    rw [restricts_leaf] at hlk hkp ⊢
    exact restricts_trans hlk hkp
  · intro k hlk hkl
    rw [restricts_leaf] at hlk hkl
    exact restricts_antisymm hlk hkl

/-- An element that must not occur restricts a wildcard for at most one, since zero is within reach
of it, and so whatever that one restricts, a group without an upper end for instance; the wildcard
does not restrict the element. -/
theorem restriction_is_inclusion_prohibited :
    let never : Leaf := .element ⟨⟨none, "a"⟩, .prohibited, none⟩
    let one : Leaf := .wildcard ⟨.any, .optional⟩
    let many : Particle := .group ⟨.choice, .zeroOrMore, []⟩
    (Particle.leaf never).restricts (.leaf one) = true ∧ (Particle.leaf one).restricts many = true ∧
      (Particle.leaf never).restricts many = true ∧
      (Particle.leaf one).restricts (.leaf never) = false := by
  intro never one many
  obtain ⟨-, -, -, -, hleaves⟩ := restriction_is_inclusion
  obtain ⟨-, hnone, -, htrans, hanti⟩ := hleaves never
  have hzero : (Particle.leaf never).restricts (.leaf one) = true := by
    rw [hnone]
    rintro n ⟨-, hn⟩
    exact ⟨Nat.zero_le n, le_trans hn (Nat.cast_le.2 (by decide))⟩
  have hmany : (Particle.leaf one).restricts many = true := by
    rw [(hleaves one).2.1]
    exact fun n _ => ⟨Nat.zero_le n, le_top⟩
  refine ⟨hzero, hmany, htrans one many hzero hmany, ?_⟩
  rw [Bool.eq_false_iff]
  intro hback
  exact absurd (hanti one hzero hback) (by decide)

end Occurs

end ContentModel
