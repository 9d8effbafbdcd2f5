import ContentModel.Proofs.Effective.Exact
import ContentModel.Proofs.Presence

/-!
# Two answers to whether a group may be absent

A group may be absent when its effective lower bound is zero, and it may be absent when it is
emptiable. The two are computed alike but not from the same list: the lower bound looks at the items
of the group, in which pointless groups are dissolved, and `ModelGroup.emptiable` at the particles
as they stand. So they can differ, in either direction (`not_effectiveMin_eq_zero_iff_emptiable`),
and

> **they agree throughout a tree exactly when no group of it is disturbed** by the dissolution of
> pointless groups (`effectiveMin_eq_zero_iff_emptiable`), which is to say that the items answer as
> the particles do.

The step is a fact about one group (`agrees_iff_undisturbed`): where the items agree with
themselves, the group does if and only if it is undisturbed.
-/

set_option autoImplicit false

namespace ContentModel

/-- What the compositor asks for is found among the items exactly when it is found among the
particles; nothing is asked of a group that is plainly emptiable. -/
def ModelGroup.Undisturbed (g : ModelGroup) : Prop :=
  g.plainlyEmptiable = true ∨
    (g.compositor.Asks (·.emptiable = true) g.flat ↔
      g.compositor.Asks (·.emptiable = true) g.particles)

instance (g : ModelGroup) : Decidable g.Undisturbed :=
  inferInstanceAs (Decidable (_ ∨ _))

/-- The lower bound is zero exactly when the particle is emptiable. -/
def Particle.Agrees (p : Particle) : Prop := p.exactMin = 0 ↔ p.emptiable = true

/-! ## 1. One group -/

theorem Particle.agrees_leaf {l : Leaf} (h : l.declared = true) : (Particle.leaf l).Agrees := by
  have hp : (Particle.leaf l).emptiable = (l.occurs.min == 0) := Leaf.emptiable_of_declared h
  unfold Particle.Agrees
  rw [Particle.exactMin_leaf, hp, beq_iff_eq]
  constructor
  · intro e
    exact UInt32.toNat_inj.1 e
  · intro e
    rw [e]
    rfl

/-- **One group.** Its two answers are the same question asked of the items and of the particles. -/
theorem ModelGroup.agrees_iff_undisturbed {g : ModelGroup} (hitems : ∀ i ∈ g.flat, i.Agrees) :
    (Particle.group g).Agrees ↔ g.Undisturbed := by
  have hflat : g.compositor.Asks (·.exactMin = 0) g.flat ↔
      g.compositor.Asks (·.emptiable = true) g.flat := Compositor.asks_congr _ hitems
  unfold Particle.Agrees ModelGroup.Undisturbed
  rw [ModelGroup.exactMin_eq_zero_iff, hflat, Particle.emptiable, ModelGroup.emptiable_iff]
  by_cases hplain : g.plainlyEmptiable = true
  · exact ⟨fun _ => .inl hplain, fun _ => ⟨fun _ => .inl hplain, fun _ => .inl hplain⟩⟩
  · rw [or_iff_right hplain, or_iff_right hplain, or_iff_right hplain]

/-! ## 2. A whole tree -/

theorem ModelGroup.agrees_of_mem_flat {g : ModelGroup} (hd : g.declared = true)
    (hbelow : ∀ i way h, g.subgroup? (i :: way) = some h → (Particle.group h).Agrees) :
    ∀ p ∈ g.flat, p.Agrees := by
  intro p hp
  cases p with
  | leaf l =>
    have hl := ModelGroup.declared_of_mem_flat hd hp
    rw [Particle.declared_leaf] at hl
    exact Particle.agrees_leaf hl
  | group h =>
    obtain ⟨i, way, hway⟩ := ModelGroup.exists_subgroup?_of_mem_flat hp
    exact hbelow i way h hway

/-- Where no group is disturbed, all groups agree. -/
theorem ModelGroup.agrees_of_undisturbed {g : ModelGroup} (hd : g.declared = true)
    (h : ∀ way k, g.subgroup? way = some k → k.Undisturbed) :
    ∀ way k, g.subgroup? way = some k → (Particle.group k).Agrees := by
  induction g using ModelGroup.induction with
  | step g ih =>
    have hbelow : ∀ i way k, g.subgroup? (i :: way) = some k → (Particle.group k).Agrees := by
      intro i way k hk
      obtain ⟨inner, hi, hk⟩ := ModelGroup.subgroup?_cons_eq_some.1 hk
      have hmem := List.mem_of_getElem? hi
      have hinner := ModelGroup.declared_iff.1 hd _ hmem
      rw [Particle.declared_group] at hinner
      refine ih inner hmem hinner ?_ way k hk
      intro further m hm
      exact h (i :: further) m (ModelGroup.subgroup?_cons_eq_some.2 ⟨inner, hi, hm⟩)
    intro way k hk
    cases way with
    | nil =>
      cases hk
      exact (ModelGroup.agrees_iff_undisturbed (ModelGroup.agrees_of_mem_flat hd hbelow)).2
        (h [] g rfl)
    | cons i way => exact hbelow i way k hk

theorem ModelGroup.effectiveMin_iff_agrees {g : ModelGroup} {limit : DepthLimit}
    (hd : g.declared = true) (hfit : g.height ≤ limit.max) :
    (g.effectiveMin 0 limit = .ok 0 ↔ g.emptiable = true) ↔ (Particle.group g).Agrees := by
  rw [(ModelGroup.effective_ok hd hfit).1, Except.ok.injEq,
    Bound.toUInt32_eq_zero (Particle.group g).exactMin_lt_size]
  rfl

/-- **When the two answers agree**: in all groups of a tree exactly when none is disturbed; and
where none below the root is, at the root exactly when the root is not. -/
theorem ModelGroup.effectiveMin_eq_zero_iff_emptiable {t : ModelGroup} {limit : DepthLimit}
    (hd : t.declared = true) (hfit : t.height ≤ limit.max) :
    ((∀ way h, t.subgroup? way = some h →
        (h.effectiveMin 0 limit = .ok 0 ↔ h.emptiable = true)) ↔
      ∀ way h, t.subgroup? way = some h → h.Undisturbed) ∧
    ((∀ i way h, t.subgroup? (i :: way) = some h → h.Undisturbed) →
      ((t.effectiveMin 0 limit = .ok 0 ↔ t.emptiable = true) ↔ t.Undisturbed)) := by
  have hgroup : ∀ way h, t.subgroup? way = some h →
      ((h.effectiveMin 0 limit = .ok 0 ↔ h.emptiable = true) ↔ (Particle.group h).Agrees) := by
    intro way h hs
    have := ModelGroup.height_subgroup?_le hs
    exact ModelGroup.effectiveMin_iff_agrees (ModelGroup.declared_subgroup? hs hd) (by omega)
  have hbelow : ∀ way g, t.subgroup? way = some g → ∀ further,
      g.subgroup? further = t.subgroup? (way ++ further) := by
    intro way g hs further
    rw [ModelGroup.subgroup?_append, hs, Option.bind_some]
  refine ⟨⟨?_, ?_⟩, ?_⟩
  · intro h way g hs
    have hitems : ∀ p ∈ g.flat, p.Agrees := by
      refine ModelGroup.agrees_of_mem_flat (ModelGroup.declared_subgroup? hs hd) ?_
      intro i further k hk
      rw [hbelow way g hs] at hk
      exact (hgroup _ k hk).1 (h _ k hk)
    exact (ModelGroup.agrees_iff_undisturbed hitems).1 ((hgroup way g hs).1 (h way g hs))
  · intro h way g hs
    exact (hgroup way g hs).2 (ModelGroup.agrees_of_undisturbed hd h way g hs)
  · intro h
    rw [hgroup [] t rfl]
    refine ModelGroup.agrees_iff_undisturbed (ModelGroup.agrees_of_mem_flat hd ?_)
    intro i way k hk
    refine ModelGroup.agrees_of_undisturbed (ModelGroup.declared_subgroup? hk hd) ?_ [] k rfl
    intro further m hm
    rw [hbelow (i :: way) k hk] at hm
    exact h i (way ++ further) m hm

/-- A choice between an element and a sequence in a sequence, of which the outer one is dissolved
for holding nothing else and the inner one for repeating it: the lower bound takes the optional `a`
for a branch of the choice. -/
theorem ModelGroup.not_effectiveMin_eq_zero_iff_emptiable :
    ¬ ∀ (g : ModelGroup) (limit : DepthLimit), g.declared = true → g.height ≤ limit.max →
      (g.effectiveMin 0 limit = .ok 0 ↔ g.emptiable = true) := by
  intro h
  let inner : ModelGroup := ⟨.sequence, .once,
    [.leaf (.element ⟨⟨none, "a"⟩, .optional, none⟩), .leaf (.element ⟨⟨none, "b"⟩, .once, none⟩)]⟩
  let outer : ModelGroup := ⟨.sequence, .once, [.group inner]⟩
  let g : ModelGroup := ⟨.choice, .once,
    [.group outer, .leaf (.element ⟨⟨none, "d"⟩, .once, none⟩)]⟩
  have hd : g.declared = true := by decide
  have hfit : g.height ≤ DepthLimit.standard.max := by decide
  have hagrees := (ModelGroup.effectiveMin_iff_agrees hd hfit).1 (h g .standard hd hfit)
  have hmin : (Particle.group g).exactMin = 0 := by
    rw [ModelGroup.exactMin_eq_zero_iff]
    refine .inr ⟨.leaf (.element ⟨⟨none, "a"⟩, .optional, none⟩), ?_, ?_⟩
    · exact List.mem_cons_self
    · exact Particle.exactMin_leaf _
  have hemptiable : ¬ g.emptiable = true := by
    simp [ModelGroup.emptiable_iff, ModelGroup.plainlyEmptiable, Compositor.Asks,
      Particle.emptiable, Leaf.emptiable, Occurs.emptiable, Occurs.once, Occurs.optional, g, outer,
      inner]
  exact hemptiable (hagrees.1 hmin)

/-- The optional element of a choice in a choice makes both of them emptiable, dissolved or not. -/
theorem ModelGroup.effectiveMin_eq_zero_iff_emptiable_choice_in_choice :
    let inner : ModelGroup := ⟨.choice, .once,
      [.leaf (.element ⟨⟨none, "a"⟩, .optional, none⟩),
        .leaf (.element ⟨⟨none, "b"⟩, .once, none⟩)]⟩
    let g : ModelGroup := ⟨.choice, .once,
      [.group inner, .leaf (.element ⟨⟨none, "d"⟩, .once, none⟩)]⟩
    g.declared = true ∧ g.height ≤ DepthLimit.standard.max ∧ g.flat ≠ g.particles ∧
      g.effectiveMin 0 .standard = .ok 0 ∧ g.emptiable = true := by
  intro inner g
  have hd : g.declared = true := by decide
  have hfit : g.height ≤ DepthLimit.standard.max := by decide
  have hinner : inner.emptiable = true :=
    ModelGroup.emptiable_iff.2 (.inr ⟨_, List.mem_cons_self, rfl⟩)
  have hundisturbed : ∀ way h, g.subgroup? way = some h → h.Undisturbed := by
    intro way h hs
    cases way with
    | nil =>
      cases hs
      refine .inr ⟨fun _ => ⟨.group inner, List.mem_cons_self, hinner⟩, fun _ => ?_⟩
      exact ⟨.leaf (.element ⟨⟨none, "a"⟩, .optional, none⟩), List.mem_cons_self, rfl⟩
    | cons i way =>
      obtain ⟨k, hi, hs⟩ := ModelGroup.subgroup?_cons_eq_some.1 hs
      have hk : k = inner := by
        rcases i with _ | _ | i <;> cases hi
        rfl
      rw [hk] at hs
      cases way with
      | nil =>
        cases hs
        exact .inr Iff.rfl
      | cons j way =>
        obtain ⟨k, hj, _⟩ := ModelGroup.subgroup?_cons_eq_some.1 hs
        rcases j with _ | _ | j <;> cases hj
  have hagrees := (ModelGroup.effectiveMin_eq_zero_iff_emptiable hd hfit).1.2 hundisturbed [] g rfl
  have hemptiable : g.emptiable = true :=
    ModelGroup.emptiable_iff.2 (.inr ⟨_, List.mem_cons_self, hinner⟩)
  have hflat : g.flat ≠ g.particles := fun e => absurd (congrArg List.length e) (by decide)
  exact ⟨hd, hfit, hflat, hagrees.2 hemptiable, hemptiable⟩

end ContentModel
