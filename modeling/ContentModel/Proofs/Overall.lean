import ContentModel.Proofs.Bound.Exact
import ContentModel.Proofs.Enclosing.Exact

/-!
# Overall bounds along a chain of groups

The overall bounds of a particle are folds over the groups around it, and by
`ModelGroup.enclosing_eq_around` those are the groups that its position leads through
(`ModelGroup.chain`). So whoever moves a particle about has to compare two chains:

> **`Overall.Same`**: two chains give every particle the same overall bounds.

Of a group in a chain only two things matter, its range and whether it offers another branch
(`ModelGroup.branches`); and a group that occurs once and offers none does not matter at all.
-/

set_option autoImplicit false

namespace ContentModel

/-! ## 1. Chains -/

/-- The groups that a position leads through, outermost first. -/
def ModelGroup.chain (g : ModelGroup) (way : Position) : List ModelGroup :=
  (g.around way).map (·.group)

theorem ModelGroup.chain_cons_of {g h : ModelGroup} {i : Nat} (way : Position)
    (hi : g.particles[i]? = some (.group h)) : g.chain (i :: way) = g :: h.chain way := by
  rw [chain, around_cons_of way hi, List.map_cons, chain]

/-- Below its head, a chain depends only on the particle that the first step leads to. -/
theorem ModelGroup.exists_chain_tail {g g' : ModelGroup} {i i' : Nat} (way : Position)
    (h : g'.particles[i']? = g.particles[i]?) :
    ∃ tail, g.chain (i :: way) = g :: tail ∧ g'.chain (i' :: way) = g' :: tail := by
  unfold chain
  rw [around, around, h]
  exact ⟨_, List.map_cons, List.map_cons⟩

theorem ModelGroup.particle?_cons_congr {g g' : ModelGroup} {i i' : Nat} (way : Position)
    (h : g'.particles[i']? = g.particles[i]?) :
    g'.particle? (i' :: way) = g.particle? (i :: way) := by
  cases way with
  | nil => rw [particle?_single, particle?_single, h]
  | cons j way =>
    apply Option.ext
    intro p
    rw [particle?_cons_cons_eq_some, particle?_cons_cons_eq_some, h]

theorem ModelGroup.ne_nil_of_particle?_leaf {g : ModelGroup} {way : Position} {l : Leaf}
    (h : g.particle? way = some (.leaf l)) : way ≠ [] := by
  intro e
  rw [e] at h
  cases h

section

variable {g : ModelGroup} {p : Particle} {way : Position} {limit : DepthLimit}

theorem ModelGroup.overallMin_eq (hp : g.particle? way = some p) (hway : way ≠ [])
    (hfit : g.height ≤ limit.max + 1) :
    g.overallMin ⟨p, some way⟩ limit = .ok (Overall.min p.occurs.min (g.chain way)) := by
  obtain ⟨i, way, rfl⟩ := List.exists_cons_of_ne_nil hway
  rw [overallMin, enclosing_eq_around hp hfit]
  rfl

theorem ModelGroup.overallMax_eq (hp : g.particle? way = some p) (hway : way ≠ [])
    (hfit : g.height ≤ limit.max + 1) :
    g.overallMax ⟨p, some way⟩ limit = .ok (Overall.max p.occurs.max (g.chain way)) := by
  obtain ⟨i, way, rfl⟩ := List.exists_cons_of_ne_nil hway
  rw [overallMax, enclosing_eq_around hp hfit]
  rfl

end

/-! ## 2. What a chain does to a bound -/

/-- Another branch of the group may be taken instead of the particle's. -/
def ModelGroup.branches (g : ModelGroup) : Prop :=
  g.compositor = .choice ∧ g.particles.length > 1

theorem ModelGroup.branches_putAt_cons {t inner : ModelGroup} {a : Nat} (h : ModelGroup)
    (spot : Position) (ha : t.particles[a]? = some (.group inner)) :
    (t.putAt h (a :: spot)).branches ↔ t.branches := by
  rw [putAt_cons_of h spot ha]
  unfold branches
  rw [List.length_set]

namespace Overall

variable {g g' : ModelGroup} {xs ys zs : List ModelGroup}

theorem min_cons_of_branches (h : g.branches) (own : UInt32) (xs : List ModelGroup) :
    Overall.min own (g :: xs) = 0 := by
  rw [Overall.min]
  exact if_pos h

theorem min_cons_of_not_branches (h : ¬ g.branches) (own : UInt32) (xs : List ModelGroup) :
    Overall.min own (g :: xs) =
      Overall.min
        (UInt32.ofNat (Nat.min (own.toNat * g.occurs.min.toNat) (Bound.size - 1))) xs := by
  rw [Overall.min]
  exact if_neg h

theorem max_cons (own : Bound) (g : ModelGroup) (xs : List ModelGroup) :
    Overall.max own (g :: xs) =
      Overall.max (if own = .unbounded then .unbounded else own.mul g.occurs.max) xs := rfl

/-- Two chains that leave every particle the same overall bounds. -/
structure Same (xs ys : List ModelGroup) : Prop where
  min : ∀ own, Overall.min own ys = Overall.min own xs
  max : ∀ own, Overall.max own ys = Overall.max own xs

theorem Same.refl (xs : List ModelGroup) : Same xs xs := ⟨fun _ => rfl, fun _ => rfl⟩

theorem Same.trans (h : Same xs ys) (h' : Same ys zs) : Same xs zs :=
  ⟨fun own => (h'.min own).trans (h.min own), fun own => (h'.max own).trans (h.max own)⟩

/-- Heads need not be the same, if only they have the same range and both branch or neither does. -/
theorem Same.cons (hoccurs : g'.occurs = g.occurs) (hbranches : g'.branches ↔ g.branches)
    (h : Same xs ys) : Same (g :: xs) (g' :: ys) := by
  constructor
  · intro own
    by_cases hb : g.branches
    · rw [min_cons_of_branches hb, min_cons_of_branches (hbranches.2 hb)]
    · rw [min_cons_of_not_branches hb, min_cons_of_not_branches (mt hbranches.1 hb), hoccurs, h.min]
  · intro own
    rw [max_cons, max_cons, hoccurs, h.max]

theorem min_cons_of_once (honce : g.occurs = .once) (hbranches : ¬ g.branches) (own : UInt32)
    (xs : List ModelGroup) : Overall.min own (g :: xs) = Overall.min own xs := by
  have hone : g.occurs.min.toNat = 1 := by
    rw [honce]
    rfl
  have hle : own.toNat ≤ Bound.size - 1 := Nat.le_sub_one_of_lt (Bound.toNat_lt_size own)
  have hmin : own.toNat.min (Bound.size - 1) = own.toNat := Nat.min_eq_left hle
  rw [min_cons_of_not_branches hbranches, hone, Nat.mul_one, hmin, UInt32.ofNat_toNat]

theorem max_cons_of_once (honce : g.occurs = .once) (own : Bound) (xs : List ModelGroup) :
    Overall.max own (g :: xs) = Overall.max own xs := by
  rw [max_cons, honce]
  cases own with
  | finite n =>
    have hmul : (Bound.finite n).mul (.finite 1) = .finite n := by
      show Bound.ofNat (n.toNat * 1) = _
      rw [Nat.mul_one, Bound.ofNat_toNat]
    rw [if_neg Bound.noConfusion]
    exact congrArg (Overall.max · xs) hmul
  | unbounded => rw [if_pos rfl]

theorem same_of_once (honce : g.occurs = .once) (hbranches : ¬ g.branches) (xs : List ModelGroup) :
    Same (g :: xs) xs :=
  ⟨fun own => (min_cons_of_once honce hbranches own xs).symm,
    fun own => (max_cons_of_once honce own xs).symm⟩

end Overall

end ContentModel
