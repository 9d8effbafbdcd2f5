import ContentModel.Proofs.Restriction.Exact
import ContentModel.Proofs.Tree
import Mathlib.Algebra.BigOperators.Ring.Finset
import Mathlib.Algebra.Order.BigOperators.Group.List

/-!
# Totals

What a particle adds up to is a number that can be reached by expanding it: a leaf gives any number
in its range, and a group is repeated as often as its range allows, each round giving a number of
every particle or, in a choice, of one (`Particle.Total`). This file relates the numbers that can be
reached to the two ends computed by recursion over the tree (`Particle.least`, `Particle.greatest`):

> **the ends are those of the totals** (`Particle.total_bounds`, `ModelGroup.endsReached`): every
> total lies between them, the lower one is a total, and the totals come as close to the upper one
> as there are numbers, provided that no group is childless.
-/

set_option autoImplicit false

namespace ContentModel

/-! ## 1. Expanding a particle -/

mutual

/-- A number that the particle can add up to. -/
inductive Particle.Total : Particle → ℕ → Prop
  | leaf {l : Leaf} {n : ℕ} (hmin : l.occurs.min.toNat ≤ n)
    (hmax : (n : ℕ∞) ≤ l.occurs.max.toENat) :
    Particle.Total (.leaf l) n
  /-- One number for each repetition of the group. -/
  | group {g : ModelGroup} {rounds : List ℕ} (hmin : g.occurs.min.toNat ≤ rounds.length)
      (hmax : (rounds.length : ℕ∞) ≤ g.occurs.max.toENat) (h : ∀ n ∈ rounds, ModelGroup.Round g n) :
    Particle.Total (.group g) rounds.sum

/-- A number that one repetition of the group can give. -/
inductive ModelGroup.Round : ModelGroup → ℕ → Prop
  | choice {g : ModelGroup} {p : Particle} {n : ℕ} (hc : g.compositor = .choice)
    (hp : p ∈ g.particles)
      (h : Particle.Total p n) : ModelGroup.Round g n
  | every {g : ModelGroup} {ns : List ℕ} (hc : g.compositor ≠ .choice)
      (h : List.Forall₂ Particle.Total g.particles ns) : ModelGroup.Round g ns.sum

end

/-- No group of the tree is childless. -/
def ModelGroup.Populated (g : ModelGroup) : Prop :=
  ∀ spot h, g.subgroup? spot = some h → h.particles ≠ []

theorem ModelGroup.populated_iff {g : ModelGroup} :
    g.Populated ↔ g.particles ≠ [] ∧ ∀ h, .group h ∈ g.particles → h.Populated := by
  constructor
  · intro hg
    refine ⟨hg [] g rfl, fun h hm spot k hs => ?_⟩
    obtain ⟨i, hi⟩ := ModelGroup.exists_subgroup?_of_mem hm
    exact hg (i :: spot) k ((hi spot).trans hs)
  · rintro ⟨hne, hbelow⟩ spot k hs
    cases spot with
    | nil =>
      cases hs
      exact hne
    | cons i spot =>
      obtain ⟨h, hi, hs⟩ := ModelGroup.subgroup?_cons_eq_some.1 hs
      exact hbelow h (List.mem_of_getElem? hi) spot k hs

/-! ## 2. The ends -/

mutual

/-- The least that the particle adds up to. -/
def Particle.least : Particle → ℕ
  | .leaf l => l.occurs.min.toNat
  | .group ⟨c, o, ps⟩ => o.min.toNat * c.roundMin (Particle.leastAll ps)

def Particle.leastAll : List Particle → List ℕ
  | [] => []
  | p :: ps => p.least :: Particle.leastAll ps

end

mutual

/-- The most that the particle adds up to. -/
noncomputable def Particle.greatest : Particle → ℕ∞
  | .leaf l => l.occurs.max.toENat
  | .group ⟨c, o, ps⟩ => o.max.toENat * c.roundMax (Particle.greatestAll ps)

noncomputable def Particle.greatestAll : List Particle → List ℕ∞
  | [] => []
  | p :: ps => p.greatest :: Particle.greatestAll ps

end

namespace Particle

theorem least_leaf (l : Leaf) : (leaf l).least = l.occurs.min.toNat := by rw [least]

theorem greatest_leaf (l : Leaf) : (leaf l).greatest = l.occurs.max.toENat := by rw [greatest]

theorem leastAll_eq (ps : List Particle) : leastAll ps = ps.map least := by
  induction ps with
  | nil => rw [leastAll, List.map_nil]
  | cons p ps ih => rw [leastAll, ih, List.map_cons]

theorem greatestAll_eq (ps : List Particle) : greatestAll ps = ps.map greatest := by
  induction ps with
  | nil => rw [greatestAll, List.map_nil]
  | cons p ps ih => rw [greatestAll, ih, List.map_cons]

theorem least_group (g : ModelGroup) :
    (group g).least = g.occurs.min.toNat * g.compositor.roundMin (g.particles.map least) := by
  cases g
  rw [least, leastAll_eq]

theorem greatest_group (g : ModelGroup) :
    (group g).greatest =
      g.occurs.max.toENat * g.compositor.roundMax (g.particles.map greatest) := by
  cases g
  rw [greatest, greatestAll_eq]

end Particle

theorem Compositor.roundMin_of_ne {c : Compositor} (hc : c ≠ .choice) (mins : List ℕ) :
    c.roundMin mins = mins.sum := by
  cases c with
  | choice => exact absurd rfl hc
  | sequence | all => rfl

theorem Compositor.roundMax_of_ne {c : Compositor} (hc : c ≠ .choice) (maxima : List ℕ∞) :
    c.roundMax maxima = maxima.sum := by
  cases c with
  | choice => exact absurd rfl hc
  | sequence | all => rfl

theorem Compositor.roundMin_singleton (c : Compositor) (n : ℕ) : c.roundMin [n] = n := by
  cases c with
  | choice => rfl
  | sequence | all => exact List.sum_singleton

theorem Compositor.roundMax_singleton (c : Compositor) (x : ℕ∞) : c.roundMax [x] = x := by
  cases c with
  | choice => rfl
  | sequence | all => exact List.sum_singleton

/-! ## 3. Every total lies between the ends -/

namespace ModelGroup

variable {g : ModelGroup} {lo : Particle → ℕ} {hi : Particle → ℕ∞}

/-- One round of a group whose particles keep between two ends. -/
theorem round_bounds (h : ∀ p ∈ g.particles, ∀ n, p.Total n → lo p ≤ n ∧ (n : ℕ∞) ≤ hi p) {n : ℕ}
    (hn : g.Round n) :
    g.compositor.roundMin (g.particles.map lo) ≤ n ∧
      (n : ℕ∞) ≤ g.compositor.roundMax (g.particles.map hi) := by
  cases hn with
  | @choice _ p _ hc hp hn =>
    obtain ⟨hlo, hhi⟩ := h p hp n hn
    rw [hc]
    exact ⟨Nat.le_trans (List.min?_getD_le_of_mem (List.mem_map_of_mem hp)) hlo,
      le_trans hhi (le_max?_getD (List.mem_map_of_mem hp))⟩
  | @every _ ns hc hns =>
    rw [Compositor.roundMin_of_ne hc, Compositor.roundMax_of_ne hc, Nat.cast_list_sum]
    generalize g.particles = ps at h hns
    induction hns with
    | nil => exact ⟨Nat.le_refl _, le_refl _⟩
    | @cons p n ps ns hn _ ih =>
      obtain ⟨hlo, hhi⟩ := h p List.mem_cons_self n hn
      obtain ⟨ihlo, ihhi⟩ := ih fun q hq => h q (List.mem_cons_of_mem p hq)
      simp only [List.map_cons, List.sum_cons]
      exact ⟨Nat.add_le_add hlo ihlo, add_le_add hhi ihhi⟩

/-- All rounds of such a group. -/
theorem total_bounds_of (h : ∀ p ∈ g.particles, ∀ n, p.Total n → lo p ≤ n ∧ (n : ℕ∞) ≤ hi p) {n : ℕ}
    (hn : (Particle.group g).Total n) :
    g.occurs.min.toNat * g.compositor.roundMin (g.particles.map lo) ≤ n ∧
      (n : ℕ∞) ≤ g.occurs.max.toENat * g.compositor.roundMax (g.particles.map hi) := by
  cases hn with
  | @group _ rounds hmin hmax hrounds =>
    have hround := fun n hn => round_bounds h (hrounds n hn)
    constructor
    · calc g.occurs.min.toNat * g.compositor.roundMin (g.particles.map lo)
        _ ≤ rounds.length * g.compositor.roundMin (g.particles.map lo) :=
          Nat.mul_le_mul_right _ hmin
        _ ≤ rounds.sum := List.card_nsmul_le_sum rounds _ fun n hn => (hround n hn).1
    · calc ((rounds.sum : ℕ) : ℕ∞)
        _ = (rounds.map Nat.cast).sum := Nat.cast_list_sum rounds
        _ ≤ (rounds.map Nat.cast).length • g.compositor.roundMax (g.particles.map hi) :=
          List.sum_le_card_nsmul _ _ (List.forall_mem_map.2 fun n hn => (hround n hn).2)
        _ = (rounds.length : ℕ∞) * g.compositor.roundMax (g.particles.map hi) := by
          rw [List.length_map, nsmul_eq_mul]
        _ ≤ g.occurs.max.toENat * g.compositor.roundMax (g.particles.map hi) :=
          mul_le_mul_left hmax _

end ModelGroup

theorem Particle.total_leaf_iff {l : Leaf} {n : ℕ} :
    (Particle.leaf l).Total n ↔ l.occurs.min.toNat ≤ n ∧ (n : ℕ∞) ≤ l.occurs.max.toENat := by
  constructor
  · intro h
    cases h with
    | leaf hmin hmax => exact ⟨hmin, hmax⟩
  · rintro ⟨hmin, hmax⟩
    exact .leaf hmin hmax

/-- **Every total lies between the ends**, by induction over the tree. -/
theorem Particle.total_bounds (p : Particle) :
    ∀ n, p.Total n → p.least ≤ n ∧ (n : ℕ∞) ≤ p.greatest := by
  induction p using Particle.induction with
  | leaf l =>
    intro n hn
    rw [Particle.least_leaf, Particle.greatest_leaf]
    exact Particle.total_leaf_iff.1 hn
  | group g ih =>
    intro n hn
    rw [Particle.least_group, Particle.greatest_group]
    exact ModelGroup.total_bounds_of ih hn

/-! ## 4. The ends are reached -/

/-- The least number is a total, and no number up to the greatest is above all totals. -/
structure Particle.EndsReached (p : Particle) : Prop where
  least : p.Total p.least
  greatest : ∀ m : ℕ, (m : ℕ∞) ≤ p.greatest → ∃ n, m ≤ n ∧ p.Total n

/-- What no total goes above, the greatest does not either. -/
theorem Particle.EndsReached.greatest_le {p : Particle} (hp : p.EndsReached) {x : ℕ∞}
    (h : ∀ n, p.Total n → (n : ℕ∞) ≤ x) : p.greatest ≤ x := by
  refine ENat.forall_natCast_le_iff_le.1 fun m hm => ?_
  obtain ⟨n, hmn, hn⟩ := hp.greatest m hm
  exact le_trans (Nat.cast_le.2 hmn) (h n hn)

theorem exists_add_of_le_add {m : ℕ} {x y : ℕ∞} (h : (m : ℕ∞) ≤ x + y) :
    ∃ a b : ℕ, (a : ℕ∞) ≤ x ∧ (b : ℕ∞) ≤ y ∧ m ≤ a + b := by
  cases x with
  | top => exact ⟨m, 0, le_top, zero_le, Nat.le_add_right m 0⟩
  | coe a =>
    cases y with
    | top => exact ⟨0, m, zero_le, le_top, Nat.le_add_left m 0⟩
    | coe b =>
      rw [← ENat.natCast_add, Nat.cast_le] at h
      exact ⟨a, b, le_refl _, le_refl _, h⟩

theorem exists_mul_of_le_mul {m : ℕ} {x y : ℕ∞} (h : (m : ℕ∞) ≤ x * y) :
    ∃ a b : ℕ, (a : ℕ∞) ≤ x ∧ (b : ℕ∞) ≤ y ∧ m ≤ a * b := by
  rcases Nat.eq_zero_or_pos m with rfl | hm
  · exact ⟨0, 0, zero_le, zero_le, Nat.le_refl 0⟩
  · -- neither factor is zero, so a single round or a single number is enough of an infinite one
    have hx : x ≠ 0 := by
      rintro rfl
      rw [zero_mul] at h
      exact absurd (Nat.cast_le.1 h) (Nat.not_le.2 hm)
    have hy : y ≠ 0 := by
      rintro rfl
      rw [mul_zero] at h
      exact absurd (Nat.cast_le.1 h) (Nat.not_le.2 hm)
    cases x with
    | top => exact ⟨m, 1, le_top, Order.one_le_iff_ne_zero.2 hy, Nat.le_of_eq (Nat.mul_one m).symm⟩
    | coe a =>
      cases y with
      | top => exact ⟨1, m, Order.one_le_iff_ne_zero.2 hx, le_top,
        Nat.le_of_eq (Nat.one_mul m).symm⟩
      | coe b =>
        rw [← ENat.natCast_mul, Nat.cast_le] at h
        exact ⟨a, b, le_refl _, le_refl _, h⟩

namespace ModelGroup

/-- Rounds that are all alike. -/
theorem total_mul_of_round {g : ModelGroup} {k r : ℕ} (hmin : g.occurs.min.toNat ≤ k)
    (hmax : (k : ℕ∞) ≤ g.occurs.max.toENat) (hr : g.Round r) :
    (Particle.group g).Total (k * r) := by
  have hsum : (List.replicate k r).sum = k * r := List.sum_replicate_nat
  rw [← hsum]
  refine .group ?_ ?_ fun n hn => ?_
  · rw [List.length_replicate]
    exact hmin
  · rw [List.length_replicate]
    exact hmax
  · rw [List.eq_of_mem_replicate hn]
    exact hr

theorem round_least {g : ModelGroup} (hne : g.particles ≠ [])
    (h : ∀ p ∈ g.particles, p.EndsReached) :
    g.Round (g.compositor.roundMin (g.particles.map Particle.least)) := by
  by_cases hc : g.compositor = .choice
  · rw [hc]
    show g.Round ((g.particles.map Particle.least).min?.getD 0)
    cases hm : (g.particles.map Particle.least).min? with
    | none => exact absurd (List.map_eq_nil_iff.1 (List.min?_eq_none_iff.1 hm)) hne
    | some n =>
      obtain ⟨p, hp, rfl⟩ := List.mem_map.1 (List.min?_mem hm)
      exact .choice hc hp (h p hp).least
  · rw [Compositor.roundMin_of_ne hc]
    exact .every hc (List.forall₂_map_right_iff.2 (List.forall₂_same.2 fun p hp => (h p hp).least))

theorem exists_forall₂_total {ps : List Particle} (h : ∀ p ∈ ps, p.EndsReached) :
    ∀ m : ℕ, (m : ℕ∞) ≤ (ps.map Particle.greatest).sum →
      ∃ ns, List.Forall₂ Particle.Total ps ns ∧ m ≤ ns.sum := by
  induction ps with
  | nil =>
    intro m hm
    exact ⟨[], .nil, Nat.cast_le.1 hm⟩
  | cons p ps ih =>
    intro m hm
    rw [List.map_cons, List.sum_cons] at hm
    obtain ⟨a, b, ha, hb, hab⟩ := exists_add_of_le_add hm
    obtain ⟨n, han, hn⟩ := (h p List.mem_cons_self).greatest a ha
    obtain ⟨ns, hns, hbn⟩ := ih (fun q hq => h q (List.mem_cons_of_mem p hq)) b hb
    refine ⟨n :: ns, .cons hn hns, ?_⟩
    rw [List.sum_cons]
    omega

theorem exists_round_ge {g : ModelGroup} (hne : g.particles ≠ [])
    (h : ∀ p ∈ g.particles, p.EndsReached) {m : ℕ}
    (hm : (m : ℕ∞) ≤ g.compositor.roundMax (g.particles.map Particle.greatest)) :
    ∃ n, m ≤ n ∧ g.Round n := by
  by_cases hc : g.compositor = .choice
  · rw [hc] at hm
    change (m : ℕ∞) ≤ (g.particles.map Particle.greatest).max?.getD 0 at hm
    cases hx : (g.particles.map Particle.greatest).max? with
    | none => exact absurd (List.map_eq_nil_iff.1 (List.max?_eq_none_iff.1 hx)) hne
    | some x =>
      rw [hx] at hm
      obtain ⟨p, hp, rfl⟩ := List.mem_map.1 (List.max?_mem hx)
      obtain ⟨n, hmn, hn⟩ := (h p hp).greatest m hm
      exact ⟨n, hmn, .choice hc hp hn⟩
  · rw [Compositor.roundMax_of_ne hc] at hm
    obtain ⟨ns, hns, hmn⟩ := exists_forall₂_total h m hm
    exact ⟨ns.sum, hmn, .every hc hns⟩

/-- **One group**: the ends of its particles make its own. -/
theorem endsReached_of {g : ModelGroup} (hne : g.particles ≠ [])
    (h : ∀ p ∈ g.particles, p.EndsReached) : (Particle.group g).EndsReached := by
  have horder : (g.occurs.min.toNat : ℕ∞) ≤ g.occurs.max.toENat :=
    Bound.le_iff_toENat_le.1 g.occurs.min_le_max
  constructor
  · rw [Particle.least_group]
    exact total_mul_of_round (Nat.le_refl _) horder (round_least hne h)
  · intro m hm
    rw [Particle.greatest_group] at hm
    obtain ⟨k, r, hk, hr, hkr⟩ := exists_mul_of_le_mul hm
    obtain ⟨n, hrn, hn⟩ := exists_round_ge hne h hr
    -- the range may call for more rounds than the number does
    have hrounds : ((max k g.occurs.min.toNat : ℕ) : ℕ∞) ≤ g.occurs.max.toENat :=
      max_rec' (fun i : ℕ => (i : ℕ∞) ≤ g.occurs.max.toENat) hk horder
    refine ⟨max k g.occurs.min.toNat * n, ?_, total_mul_of_round (le_max_right _ _) hrounds hn⟩
    exact Nat.le_trans hkr (Nat.mul_le_mul (le_max_left _ _) hrn)

end ModelGroup

theorem Particle.endsReached_leaf (l : Leaf) : (Particle.leaf l).EndsReached := by
  have horder : (l.occurs.min.toNat : ℕ∞) ≤ l.occurs.max.toENat :=
    Bound.le_iff_toENat_le.1 l.occurs.min_le_max
  constructor
  · rw [Particle.least_leaf]
    exact .leaf (Nat.le_refl _) horder
  · intro m hm
    rw [Particle.greatest_leaf] at hm
    refine ⟨max m l.occurs.min.toNat, le_max_left _ _, .leaf (le_max_right _ _) ?_⟩
    exact max_rec' (fun i : ℕ => (i : ℕ∞) ≤ l.occurs.max.toENat) hm horder

/-- **The ends are reached** where no group is childless, by induction over the tree. -/
theorem ModelGroup.endsReached {g : ModelGroup} (hg : g.Populated) :
    (Particle.group g).EndsReached := by
  induction g using ModelGroup.induction with
  | step g ih =>
    refine ModelGroup.endsReached_of (populated_iff.1 hg).1 fun p hp => ?_
    cases p with
    | leaf l => exact Particle.endsReached_leaf l
    | group h => exact ih h hp ((populated_iff.1 hg).2 h hp)

end ContentModel
