import ContentModel.Proofs.Effective.Exact
import ContentModel.Proofs.Walk.Leaves

/-!
# Groups in which nothing can occur

The effective upper bound of a group is computed over its items, by scaling, by taking maxima and by
leaving them aside when several items have to be there; and what does not fit becomes unbounded. A
walk over the leaves of the group does nothing of the kind, and goes into other groups on the way.
One question has the same answer for both:

> **the upper bound is zero exactly if none of the leaves can occur**
> (`Particle.exactMax_eq_zero_iff`),

as far as the walk comes to them, which is what a prohibited group keeps it from. No step of the
computation makes a zero of anything else: where some item can occur, the upper bound of the group
is at least what the group declares (`Compositor.le_exactUpper`).
-/

set_option autoImplicit false

namespace ContentModel

/-! ## 1. One group -/

namespace Compositor

variable {own : ℕ∞} {items : List (ℕ∞ × ℕ)}

/-- Items that cannot occur do not count, and where there are no others, the group cannot either. -/
theorem exactUpper_of_forall_zero (c : Compositor) (h : ∀ r ∈ items, r.1 = 0) :
    c.exactUpper own items = 0 := by
  have hlive : items.filter (·.1 ≠ 0) = [] := by
    simpa [List.filter_eq_nil_iff] using h
  unfold exactUpper
  exact if_pos hlive

/-- Whatever the bounds of the items, once one of them can occur, the group can as often as it
declares. -/
theorem le_exactUpper (c : Compositor) (h : ∃ r ∈ items, r.1 ≠ 0) :
    own ≤ c.exactUpper own items := by
  have hlive : ∃ r, r ∈ items.filter (·.1 ≠ 0) := by simpa using h
  have hone : ∀ r ∈ items.filter (·.1 ≠ 0), 1 ≤ r.1 := by
    intro r hr
    apply Order.one_le_iff_ne_zero.2
    simpa using (List.mem_filter.1 hr).2
  unfold exactUpper
  dsimp only
  generalize items.filter (·.1 ≠ 0) = live at hlive hone ⊢
  obtain ⟨r, hr⟩ := hlive
  have hgreatest : 1 ≤ (live.map (·.1)).max?.getD 0 :=
    le_trans (hone r hr) (le_max?_getD (List.mem_map_of_mem hr))
  rw [if_neg (List.ne_nil_of_mem hr)]
  by_cases htop : own = ⊤
  · simp [htop]
  rw [if_neg htop]
  by_cases hc : c = .choice
  · rw [if_pos hc]
    exact le_mul_of_one_le_right' hgreatest
  rw [if_neg hc]
  -- none, one or several of the items have to be there
  split
  · exact le_mul_of_one_le_right' hgreatest
  · next firm hfirm =>
    have hmem : firm ∈ live.filter (·.2 ≠ 0) := hfirm ▸ List.mem_singleton_self firm
    exact le_mul_of_one_le_right' (hone firm (List.mem_of_mem_filter hmem))
  · exact le_rfl

end Compositor

namespace Particle

variable {g : ModelGroup}

theorem exactMax_group_of_zero (h : ∀ i ∈ g.flat, i.exactMax = 0) : (group g).exactMax = 0 := by
  rw [exactMax_group]
  split
  · rfl
  · apply Compositor.exactUpper_of_forall_zero
    simpa [exactRange] using h

/-- One item that can occur is enough. -/
theorem le_exactMax_of_item {i : Particle} (hmax : g.occurs.max ≠ .finite 0) (hi : i ∈ g.flat)
    (h : i.exactMax ≠ 0) : g.occurs.max.toENat ≤ (group g).exactMax := by
  have hps := ModelGroup.particles_ne_nil_of_item hi
  rw [exactMax_group, if_neg (by simp [hmax, hps])]
  apply Compositor.le_exactUpper
  exact ⟨i.exactRange, List.mem_map_of_mem hi, h⟩

theorem exactMax_group_eq_zero_iff :
    (group g).exactMax = 0 ↔ g.occurs.max = .finite 0 ∨ ∀ i ∈ g.flat, i.exactMax = 0 := by
  constructor
  · intro hzero
    by_cases hmax : g.occurs.max = .finite 0
    · exact .inl hmax
    right
    intro i hi
    by_contra hi₀
    have hle := le_exactMax_of_item hmax hi hi₀
    rw [hzero, nonpos_iff_eq_zero, Bound.toENat_eq_zero] at hle
    exact hmax hle
  · rintro (hmax | hitems)
    · simp [exactMax_group, hmax]
    · exact exactMax_group_of_zero hitems

/-- A group can occur as often as it declares, or not at all. -/
theorem le_exactMax_group (h : (group g).exactMax ≠ 0) :
    g.occurs.max.toENat ≤ (group g).exactMax := by
  rw [ne_eq, exactMax_group_eq_zero_iff, not_or] at h
  obtain ⟨hmax, hitems⟩ := h
  obtain ⟨i, hi, hi₀⟩ : ∃ i ∈ g.flat, i.exactMax ≠ 0 := by simpa using hitems
  exact le_exactMax_of_item hmax hi hi₀

end Particle

/-! ## 2. The leaves of a group, by way of its items -/

/-- Dissolving groups does not lose a leaf: what is dissolved may occur, unless there is nothing in
it. -/
theorem Particle.leaves_eq_flatMap_flat (p : Particle) :
    ∀ parent, p.leaves = (p.flat parent).flatMap leaves := by
  induction p using Particle.induction with
  | leaf l =>
    intro parent
    simp [flat_leaf]
  | group g ih =>
    intro parent
    rw [flat_group]
    by_cases hp : g.pointless parent = true
    · rw [if_pos hp, leaves_group, ModelGroup.leaves, ModelGroup.flat_eq, List.flatMap_assoc]
      by_cases he : g.occurs.empty = true
      · simp [he, ModelGroup.particles_eq_nil_of_pointless hp he]
      · rw [if_neg he, leavesAll_eq]
        exact List.flatMap_congr fun q hq => ih q hq g.compositor
    · simp [hp]

theorem ModelGroup.leaves_eq_flatMap_flat {g : ModelGroup} (hmax : g.occurs.max ≠ .finite 0) :
    g.leaves = g.flat.flatMap Particle.leaves := by
  have he : ¬ g.occurs.empty = true := fun e => hmax (beq_iff_eq.1 e)
  rw [leaves, if_neg he, Particle.leavesAll_eq, flat_eq, List.flatMap_assoc]
  exact List.flatMap_congr fun p _ => p.leaves_eq_flatMap_flat g.compositor

/-- None of the leaves that a walk comes to can occur. -/
def Particle.Barren (p : Particle) : Prop := ∀ l ∈ p.leaves, l.occurs.max = .finite 0

theorem Particle.barren_leaf {l : Leaf} : (leaf l).Barren ↔ l.occurs.max = .finite 0 := by
  simp [Barren, leaves_leaf]

theorem Particle.barren_group {g : ModelGroup} :
    (group g).Barren ↔ g.occurs.max = .finite 0 ∨ ∀ i ∈ g.flat, i.Barren := by
  unfold Barren
  rw [leaves_group]
  by_cases hmax : g.occurs.max = .finite 0
  · simp [ModelGroup.leaves, Occurs.empty, hmax]
  · rw [ModelGroup.leaves_eq_flatMap_flat hmax, or_iff_right hmax]
    simp only [List.mem_flatMap]
    constructor
    · intro h i hi l hl
      exact h l ⟨i, hi, hl⟩
    · rintro h l ⟨i, hi, hl⟩
      exact h i hi l hl

/-! ## 3. The whole tree -/

/-- **The upper bound is zero exactly if no leaf can occur**, by induction over the items. -/
theorem Particle.exactMax_eq_zero_iff (p : Particle) : p.exactMax = 0 ↔ p.Barren := by
  induction p using Particle.itemInduction with
  | leaf l => rw [exactMax_leaf, barren_leaf, Bound.toENat_eq_zero]
  | group g ih =>
    rw [exactMax_group_eq_zero_iff, barren_group]
    apply or_congr_right
    exact forall_congr' fun i => forall_congr' fun hi => ih i hi

/-- **A zero upper bound.** Under a limit that the tree stays within, the upper bound is found, the
walk over the leaves comes to its end, and the upper bound is zero exactly if none of the leaves
that the walk gives can occur. -/
theorem ModelGroup.effectiveMax_eq_zero_iff {g : ModelGroup} {limit : DepthLimit}
    (hd : g.declared = true) (hfit : g.height ≤ limit.max) :
    ∃ (upper : Bound) (leaves : List Leaf), g.effectiveMax 0 limit = .ok upper ∧
      (Walk.leaves g 0 limit).Gives (leaves.map .leaf) ∧
      (upper = .finite 0 ↔ ∀ l ∈ leaves, l.occurs.max = .finite 0) := by
  have hcovers : (Walk.leaves g 0 limit).trail.Covers limit (g.leaves.map .leaf) :=
    covers_leaves (by omega)
  refine ⟨_, g.leaves, (effective_ok hd hfit).2, ?_, ?_⟩
  · exact Walk.gives_iff.2 ⟨hcovers.ending, hcovers.particles⟩
  · rw [Bound.ofENat_eq_zero, Particle.exactMax_eq_zero_iff, Particle.Barren, Particle.leaves_group]

/-- A prohibited group with an element that may occur, and a group that has to occur twice, of an
element that may not: the one is not walked, the other gives a leaf that cannot occur. -/
theorem ModelGroup.effectiveMax_eq_zero_iff_prohibited_leaf :
    let shut : ModelGroup := ⟨.choice, .prohibited, [.leaf (.wildcard .anything)]⟩
    let a : Leaf := .element ⟨⟨none, "a"⟩, .prohibited, none⟩
    let twice : ModelGroup := ⟨.all, ⟨2, .unbounded, trivial⟩, [.leaf a]⟩
    let g : ModelGroup := ⟨.sequence, .oneOrMore, [.group shut, .group twice]⟩
    g.declared = true ∧ g.height ≤ DepthLimit.standard.max ∧
      (Walk.leaves g 0 .standard).Gives [.leaf a] ∧
      g.effectiveMax 0 .standard = .ok (.finite 0) := by
  intro shut a twice g
  have hd : g.declared = true := by decide
  have hfit : g.height ≤ DepthLimit.standard.max := by decide
  obtain ⟨upper, leaves, hupper, hgives, hzero⟩ := effectiveMax_eq_zero_iff hd hfit
  have hwalk : (Walk.leaves g 0 .standard).Gives [.leaf a] := by
    rw [Walk.gives_iff, Walk.trail_leaves]
    exact ⟨rfl, rfl⟩
  have hleaves : leaves.map Particle.leaf = [.leaf a] := by
    rw [Walk.gives_iff] at hgives hwalk
    exact hgives.2.symm.trans hwalk.2
  have hbarren : ∀ l ∈ leaves, l.occurs.max = .finite 0 := by
    intro l hl
    have hmem : Particle.leaf l ∈ [Particle.leaf a] := hleaves ▸ List.mem_map_of_mem hl
    cases List.mem_singleton.1 hmem
    rfl
  exact ⟨hd, hfit, hwalk, by rw [hupper, hzero.2 hbarren]⟩

end ContentModel
