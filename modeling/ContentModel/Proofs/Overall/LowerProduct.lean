import ContentModel.Proofs.Overall.Range

/-!
# The overall lower bound as a product

The overall lower bound of a particle multiplies its own by those of the groups around it and stops
at the greatest number that a bound can be, at every step. It is the product in `ℕ`, stopped once:

> **a step that stopped does not show in the end** (`Overall.toNat_min_eq`), be it that more factors
> come or that one of them is zero,

which is where the lower bound differs from the upper one (`Overall.max_eq`), whose zeros can come
too late. A choice with another branch makes it zero wherever it is on the way, and nothing else
does but a factor (`Overall.min_eq_zero_iff`).
-/

set_option autoImplicit false

namespace ContentModel

/-! ## 1. Along a chain of groups -/

namespace Overall

variable {m : UInt32} {groups : List ModelGroup}

theorem min_of_branches (h : ∃ g ∈ groups, g.branches) (m : UInt32) : Overall.min m groups = 0 := by
  induction groups generalizing m with
  | nil => simp at h
  | cons g groups ih =>
    by_cases hbranches : g.branches
    · exact min_cons_of_branches hbranches m groups
    · rw [min_cons_eq_capped hbranches]
      apply ih
      simpa [hbranches] using h

/-- **The product is stopped once**, by induction over the chain. -/
theorem toNat_min_eq (h : ∀ g ∈ groups, ¬ g.branches) (m : UInt32) :
    (Overall.min m groups).toNat =
      Nat.min (m.toNat * (groups.map (·.occurs.min.toNat)).prod) (Bound.size - 1) := by
  induction groups generalizing m with
  | nil =>
    have hm := Bound.toNat_lt_size m
    simp only [Overall.min, List.map_nil, List.prod_nil, Nat.mul_one]
    exact (Nat.min_eq_left (Nat.le_sub_one_of_lt hm)).symm
  | cons g groups ih =>
    obtain ⟨hg, hgroups⟩ := List.forall_mem_cons.1 h
    rw [min_cons_eq_capped hg, ih hgroups, toNat_capped, List.map_cons, List.prod_cons,
      ← Nat.mul_assoc]
    generalize (groups.map (·.occurs.min.toNat)).prod = rest
    rw [Nat.mul_comm _ rest, Nat.mul_comm _ rest]
    exact min_mul_min rest _ _

theorem min_eq_zero_iff :
    Overall.min m groups = 0 ↔ m = 0 ∨ ∃ g ∈ groups, g.occurs.min = 0 ∨ g.branches := by
  rw [← not_iff_not, ← ne_eq, min_ne_zero_iff]
  simp [ModelGroup.Insists]

end Overall

/-! ## 2. Particles of a tree -/

namespace ModelGroup

variable {g : ModelGroup} {p : Particle} {i : Nat} {way : Position} {limit : DepthLimit}
  {around : List Ancestor}

/-- **The overall lower bound of a particle.** It is zero if a group around the particle is a choice
with another branch; and if none is, it is the product of the particle's lower bound and those of
the groups around it, or the greatest number that a bound can be, if that is less. So it is zero
exactly if one of these is. -/
theorem overallMin_eq_product (hp : g.particle? (i :: way) = some p)
    (hok : g.enclosing ⟨p, some (i :: way)⟩ limit = .ok around) :
    let groups := around.map (·.group)
    (groups.length = way.length + 1 ∧ ∀ k, k ≤ way.length →
      groups[k]? = g.subgroup? ((i :: way).take k)) ∧
    ∃ lower, g.overallMin ⟨p, some (i :: way)⟩ limit = .ok lower ∧
      ((∃ h ∈ groups, h.compositor = .choice ∧ h.particles.length > 1) → lower = 0) ∧
      ((∀ h ∈ groups, ¬ (h.compositor = .choice ∧ h.particles.length > 1)) →
        lower.toNat =
          Nat.min (p.occurs.min.toNat * (groups.map (·.occurs.min.toNat)).prod) (Bound.size - 1)) ∧
      (lower = 0 ↔ p.occurs.min = 0 ∨
        ∃ h ∈ groups, h.occurs.min = 0 ∨ (h.compositor = .choice ∧ h.particles.length > 1)) := by
  intro groups
  refine ⟨?_, _, (overall_of_enclosing_ok hok).1, ?_, ?_, ?_⟩
  · obtain ⟨hbranch, hgroup⟩ := around_spec hp
    rw [← enclosing_eq_ok hp hok] at hbranch hgroup
    have hlength := congrArg List.length hbranch
    simp only [List.length_map, List.length_cons] at hlength
    exact ⟨by simp [groups, hlength], by simpa [groups] using hgroup⟩
  · exact fun h => Overall.min_of_branches h _
  · exact fun h => Overall.toNat_min_eq h _
  · exact Overall.min_eq_zero_iff

/-- The product of `a` and the outermost group would not fit and stops at the greatest number; the
group in between may be left out, and that is seen all the same. -/
theorem overallMin_eq_product_optional_inside :
    let a : Particle := .leaf (.element ⟨⟨none, "a"⟩, ⟨65536, .unbounded, trivial⟩, none⟩)
    let inner : ModelGroup := ⟨.choice, .optional, [a]⟩
    let g : ModelGroup := ⟨.sequence, ⟨65536, .unbounded, trivial⟩, [a, .group inner]⟩
    g.particle? [0] = some a ∧ g.overallMin ⟨a, some [0]⟩ .standard = .ok 4294967295 ∧
      g.particle? [1, 0] = some a ∧ g.overallMin ⟨a, some [1, 0]⟩ .standard = .ok 0 := by
  intro a inner g
  have hp : g.particle? [0] = some a := rfl
  have hp' : g.particle? [1, 0] = some a := rfl
  have hok : g.enclosing ⟨a, some [0]⟩ .standard = .ok [⟨g, 0⟩] :=
    enclosing_eq_around hp (by decide)
  have hok' : g.enclosing ⟨a, some [1, 0]⟩ .standard = .ok [⟨g, 1⟩, ⟨inner, 0⟩] :=
    enclosing_eq_around hp' (by decide)
  obtain ⟨-, lower, hlower, -, hproduct, -⟩ := overallMin_eq_product hp hok
  obtain ⟨-, lower', hlower', -, -, hzero⟩ := overallMin_eq_product hp' hok'
  have hstopped : lower = 4294967295 := by
    rw [← UInt32.toNat_inj, hproduct (by simp [g])]
    decide +kernel
  have hleft : lower' = 0 := hzero.2 (.inr ⟨inner, by simp, .inl rfl⟩)
  exact ⟨hp, by rw [hlower, hstopped], hp', by rw [hlower', hleft]⟩

end ModelGroup

end ContentModel
