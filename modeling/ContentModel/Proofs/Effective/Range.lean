import ContentModel.Proofs.DepthLimit.Raised
import ContentModel.Proofs.Effective.Barren

/-!
# When the effective bounds are a range

The two effective bounds of a group come from separate computations over the same items, and the
lower one should be at most the upper one. Where anything can occur in the group it is: the lower
bound is at most the declared one, and the upper one at least that. What is left are groups in which
nothing can occur. Their upper bound is zero, and

> **the bounds are out of order exactly in hollow groups**
> (`ModelGroup.effectiveMin_le_effectiveMax_iff`), which have to occur though nothing can occur in
> them.

A hollow group has a hollow item, unless it is a choice without items (`ModelGroup.Vacuous`), of
whose particles nothing is left once they are dissolved; there is then no item that could make its
lower bound zero. So the bounds are in order throughout a tree exactly if there is no such choice in
it.

Which limit the bounds were found under does not matter: once found, they are the exact ones, since
a higher limit does not change them.
-/

set_option autoImplicit false

namespace ContentModel

/-! ## 1. Hollow groups -/

/-- Nothing can occur in the group, but it has to occur, and an item of it as well: each of them, in
a choice. -/
inductive Particle.Hollow : Particle → Prop
  | choice {g : ModelGroup} (compositor : g.compositor = .choice) (min : g.occurs.min ≠ 0)
    (particles : g.particles ≠ []) (items : ∀ i ∈ g.flat, Hollow i) : Hollow (.group g)
  | other {g : ModelGroup} {i : Particle} (compositor : g.compositor ≠ .choice)
    (min : g.occurs.min ≠ 0) (barren : (Particle.group g).Barren) (mem : i ∈ g.flat)
    (item : Hollow i) : Hollow (.group g)

/-- A choice that has to occur and holds particles, none of which leaves an item. -/
def ModelGroup.Vacuous (g : ModelGroup) : Prop :=
  g.compositor = .choice ∧ g.occurs.min ≠ 0 ∧ g.particles ≠ [] ∧ g.flat = []

theorem ModelGroup.Vacuous.hollow {g : ModelGroup} (h : g.Vacuous) : (Particle.group g).Hollow := by
  obtain ⟨hc, hmin, hps, hflat⟩ := h
  apply Particle.Hollow.choice hc hmin hps
  simp [hflat]

/-- Going from items to their items, one comes to a choice that has none. -/
theorem Particle.Hollow.exists_vacuous {p : Particle} (h : p.Hollow) :
    ∀ g, p = .group g → ∃ way k, g.subgroup? way = some k ∧ k.Vacuous := by
  have below : ∀ {g : ModelGroup} {i : Particle}, i ∈ g.flat → i.Hollow →
      (∀ h, i = .group h → ∃ way k, h.subgroup? way = some k ∧ k.Vacuous) →
      ∃ way k, g.subgroup? way = some k ∧ k.Vacuous := by
    intro g i hi hhollow hvacuous
    obtain ⟨h, rfl⟩ : ∃ h, i = .group h := by
      cases hhollow <;> exact ⟨_, rfl⟩
    obtain ⟨way, k, hk, hkv⟩ := hvacuous h rfl
    obtain ⟨j, way', hway'⟩ := ModelGroup.exists_subgroup?_of_mem_flat hi
    refine ⟨j :: way' ++ way, k, ?_, hkv⟩
    rw [ModelGroup.subgroup?_append, hway']
    exact hk
  induction h with
  | @choice g hc hmin hps hitems ih =>
    rintro _ ⟨⟩
    cases hflat : g.flat with
    | nil => exact ⟨[], g, rfl, hc, hmin, hps, hflat⟩
    | cons i rest =>
      have hi : i ∈ g.flat := by simp [hflat]
      exact below hi (hitems i hi) (ih i hi)
  | other _ _ _ hi hitem ih =>
    rintro _ ⟨⟩
    exact below hi hitem ih

/-! ## 2. The exact bounds -/

namespace Particle

/-- **Hollow particles by their bounds**, by induction over the items. -/
theorem hollow_iff {p : Particle} : p.Hollow ↔ p.exactMax = 0 ∧ p.exactMin ≠ 0 := by
  induction p using Particle.itemInduction with
  | leaf l =>
    have hrange : ¬ ((leaf l).exactMax = 0 ∧ (leaf l).exactMin ≠ 0) := by
      rw [exactMax_leaf, exactMin_leaf, Bound.toENat_eq_zero]
      rintro ⟨hmax, hmin⟩
      apply Occurs.max_ne_zero_of_min _ hmax
      intro hzero
      simp [hzero] at hmin
    exact iff_of_false nofun hrange
  | group g ih =>
    rw [ne_eq, ModelGroup.exactMin_eq_zero_iff, ModelGroup.plainlyEmptiable_iff, not_or, not_or]
    constructor
    · intro h
      cases h with
      | choice hc hmin hps hitems =>
        have hzero : ∀ i ∈ g.flat, i.exactMax = 0 := fun i hi => ((ih i hi).1 (hitems i hi)).1
        have hasks : ¬ g.compositor.Asks (·.exactMin = 0) g.flat := by
          rw [hc, Compositor.asks_choice]
          rintro ⟨i, hi, hi₀⟩
          exact ((ih i hi).1 (hitems i hi)).2 hi₀
        exact ⟨exactMax_group_eq_zero_iff.2 (.inr hzero), ⟨hmin, hps⟩, hasks⟩
      | other hc hmin hbarren hi hitem =>
        have hasks : ¬ g.compositor.Asks (·.exactMin = 0) g.flat := by
          rw [Compositor.asks_of_ne hc]
          exact fun hall => ((ih _ hi).1 hitem).2 (hall _ hi)
        have hps := ModelGroup.particles_ne_nil_of_item hi
        exact ⟨(exactMax_eq_zero_iff _).2 hbarren, ⟨hmin, hps⟩, hasks⟩
    · rintro ⟨hmax, ⟨hmin, hps⟩, hasks⟩
      have hown := Occurs.max_ne_zero_of_min hmin
      have hzero : ∀ i ∈ g.flat, i.exactMax = 0 :=
        (exactMax_group_eq_zero_iff.1 hmax).resolve_left hown
      by_cases hc : g.compositor = .choice
      · rw [hc, Compositor.asks_choice] at hasks
        apply Hollow.choice hc hmin hps
        intro i hi
        exact (ih i hi).2 ⟨hzero i hi, fun hi₀ => hasks ⟨i, hi, hi₀⟩⟩
      · rw [Compositor.asks_of_ne hc] at hasks
        obtain ⟨i, hi, hi₀⟩ : ∃ i ∈ g.flat, i.exactMin ≠ 0 := by simpa using hasks
        exact Hollow.other hc hmin ((exactMax_eq_zero_iff _).1 hmax) hi
          ((ih i hi).2 ⟨hzero i hi, hi₀⟩)

/-- Where anything can occur in a particle, its bounds lie on either side of those that it
declares. -/
theorem exactMin_le_exactMax {p : Particle} (h : p.exactMax ≠ 0) :
    (p.exactMin : ℕ∞) ≤ p.exactMax := by
  have hdeclared : ∀ o : Occurs, (o.min.toNat : ℕ∞) ≤ o.max.toENat :=
    fun o => Bound.le_iff_toENat_le.1 o.min_le_max
  cases p with
  | leaf l =>
    rw [exactMin_leaf, exactMax_leaf]
    exact hdeclared l.occurs
  | group g =>
    have hmin : (group g).exactMin ≤ g.occurs.min.toNat := by
      rw [exactMin_group]
      split
      · exact Nat.zero_le _
      · exact Compositor.exactLower_le _ _ _
    calc ((group g).exactMin : ℕ∞)
      _ ≤ g.occurs.min.toNat := Nat.cast_le.2 hmin
      _ ≤ g.occurs.max.toENat := hdeclared g.occurs
      _ ≤ (group g).exactMax := le_exactMax_group h

end Particle

/-! ## 3. The bounds that were found -/

namespace ModelGroup

variable {g t : ModelGroup} {limit : DepthLimit} {lower : UInt32} {upper : Bound}

/-- Bounds that were found are the exact ones, whatever the limit. -/
theorem effective_of_ok (hd : g.declared = true) (hmin : g.effectiveMin 0 limit = .ok lower)
    (hmax : g.effectiveMax 0 limit = .ok upper) :
    lower = UInt32.ofNat (Particle.group g).exactMin ∧
    upper = .ofENat (Particle.group g).exactMax := by
  let roomy : DepthLimit := ⟨limit.max + g.height⟩
  have hle : limit.max ≤ roomy.max := Nat.le_add_right _ _
  have hfit : g.height ≤ roomy.max := Nat.le_add_left _ _
  obtain ⟨hmin', hmax'⟩ := effective_ok hd hfit
  have hlower : g.effectiveMin 0 roomy = g.effectiveMin 0 limit :=
    (Particle.group g).effectiveMin_of_le hle 0 (by simp [Particle.effectiveMin, hmin, settled_ok])
  have hupper : g.effectiveMax 0 roomy = g.effectiveMax 0 limit :=
    (Particle.group g).effectiveMax_of_le hle 0 (by simp [Particle.effectiveMax, hmax, settled_ok])
  rw [hmin', hmin, Except.ok.injEq] at hlower
  rw [hmax', hmax, Except.ok.injEq] at hupper
  exact ⟨hlower.symm, hupper.symm⟩

/-- **One group.** -/
theorem le_iff_not_hollow (hd : g.declared = true) (hmin : g.effectiveMin 0 limit = .ok lower)
    (hmax : g.effectiveMax 0 limit = .ok upper) :
    .finite lower ≤ upper ↔ ¬ (Particle.group g).Hollow := by
  obtain ⟨rfl, rfl⟩ := effective_of_ok hd hmin hmax
  have hsize := (Particle.group g).exactMin_lt_size
  rw [Particle.hollow_iff, ← Bound.ofNat_of_lt hsize, ← Bound.ofENat_coe]
  by_cases hzero : (Particle.group g).exactMax = 0
  · rw [hzero, Bound.ofENat_zero, Bound.ofENat_le_iff, Bound.toENat_eq_zero.2 rfl]
    simp
  · refine iff_of_true (Bound.ofENat_le_ofENat (Particle.exactMin_le_exactMax hzero)) ?_
    exact fun h => hzero h.1

/-- **When the effective bounds are a range.** Found under whatever limit, the bounds of a tree of
elements and wildcards are in order exactly if the tree is not hollow. Those of all groups in a tree
are, under every limit, exactly if none of the groups is a choice that has to occur and holds
particles but has no items. -/
theorem effectiveMin_le_effectiveMax_iff (hd : t.declared = true) :
    (∀ limit lower upper, t.effectiveMin 0 limit = .ok lower → t.effectiveMax 0 limit = .ok upper →
      (.finite lower ≤ upper ↔ ¬ (Particle.group t).Hollow)) ∧
    ((∀ way g, t.subgroup? way = some g → ∀ limit lower upper, g.effectiveMin 0 limit = .ok lower →
        g.effectiveMax 0 limit = .ok upper → .finite lower ≤ upper) ↔
      ∀ way g, t.subgroup? way = some g → ¬ g.Vacuous) := by
  refine ⟨fun limit lower upper => le_iff_not_hollow hd, ?_, ?_⟩
  · intro hordered way g hg hvacuous
    have hdg := declared_subgroup? hg hd
    have hfit : g.height ≤ (⟨g.height⟩ : DepthLimit).max := Nat.le_refl _
    obtain ⟨hmin, hmax⟩ := effective_ok hdg hfit
    exact (le_iff_not_hollow hdg hmin hmax).1 (hordered way g hg _ _ _ hmin hmax) hvacuous.hollow
  · intro hnone way g hg limit lower upper hmin hmax
    rw [le_iff_not_hollow (declared_subgroup? hg hd) hmin hmax]
    intro hhollow
    obtain ⟨further, k, hk, hkv⟩ := hhollow.exists_vacuous g rfl
    apply hnone (way ++ further) k _ hkv
    rw [subgroup?_append, hg]
    exact hk

/-- A choice between two sequences with nothing in them: the one is dissolved like the other, and
then there is no item that could be left out. -/
theorem not_effectiveMin_le_effectiveMax :
    ¬ ∀ (g : ModelGroup) (limit : DepthLimit) (lower : UInt32) (upper : Bound), g.declared = true →
      g.effectiveMin 0 limit = .ok lower → g.effectiveMax 0 limit = .ok upper →
      .finite lower ≤ upper := by
  intro h
  let nothing : ModelGroup := .childless .sequence .once
  let g : ModelGroup := ⟨.choice, .once, [.group nothing, .group nothing]⟩
  have hd : g.declared = true := by decide
  have hvacuous : g.Vacuous := ⟨rfl, by decide, List.cons_ne_nil _ _, rfl⟩
  have hfit : g.height ≤ DepthLimit.standard.max := by decide
  obtain ⟨hmin, hmax⟩ := effective_ok hd hfit
  exact (le_iff_not_hollow hd hmin hmax).1 (h g _ _ _ hd hmin hmax) hvacuous.hollow

/-- The same choice beside an optional element: the sequence of the two has its bounds in order,
since the element can occur, but not all groups in it have. -/
theorem effectiveMin_le_effectiveMax_iff_beside_an_element :
    let nothing : ModelGroup := .childless .sequence .once
    let c : ModelGroup := ⟨.choice, .once, [.group nothing, .group nothing]⟩
    let a : Leaf := .element ⟨⟨none, "a"⟩, .optional, none⟩
    let t : ModelGroup := ⟨.sequence, .once, [.group c, .leaf a]⟩
    t.declared = true ∧ t.effectiveMin 0 .standard = .ok 1 ∧
      (∀ upper, t.effectiveMax 0 .standard = .ok upper → .finite 1 ≤ upper) ∧
      ¬ ∀ way g, t.subgroup? way = some g →
        ∀ limit lower upper, g.effectiveMin 0 limit = .ok lower →
        g.effectiveMax 0 limit = .ok upper → .finite lower ≤ upper := by
  intro nothing c a t
  have hd : t.declared = true := by decide
  obtain ⟨hroot, hgroups⟩ := effectiveMin_le_effectiveMax_iff hd
  have hvacuous : c.Vacuous := ⟨rfl, by decide, List.cons_ne_nil _ _, rfl⟩
  have hmin : t.effectiveMin 0 .standard = .ok 1 := by
    have hc : (Particle.group c).exactMin = 1 := by
      rw [Particle.exactMin_group, hvacuous.2.2.2]
      rfl
    have ht : (Particle.group t).exactMin = 1 := by
      have hflat : t.flat = [.group c, .leaf a] := rfl
      rw [Particle.exactMin_group, hflat]
      simp [hc, t, Compositor.exactLower, Compositor.Asks, Occurs.once]
    rw [(effective_ok hd (by decide)).1, ht]
    rfl
  have hsolid : ¬ (Particle.group t).Hollow := by
    intro h
    cases h with
    | choice hc => cases hc
    | other _ _ hbarren =>
      have hleaves : (Particle.group t).leaves = [a] := rfl
      have ha : a.occurs.max = .finite 0 := hbarren a (hleaves ▸ List.mem_singleton_self a)
      cases ha
  refine ⟨hd, hmin, fun upper hmax => (hroot _ _ _ hmin hmax).2 hsolid, fun h => ?_⟩
  exact hgroups.1 h [0] c rfl hvacuous

end ModelGroup

end ContentModel
