import ContentModel.Proofs.Overall.Product
import ContentModel.Proofs.Presence

/-!
# The overall bounds are a range, and a positive one is binding

The two overall bounds of a particle go the same way along the groups around it, but they run into
the end of the 32 bits differently: the lower one stops at the greatest number that a bound can be,
the upper one becomes unbounded. Nor do they stop for the same reasons on the way. Nevertheless

> **the lower bound never gets above the upper one** (`Overall.min_le_max`),

which is an invariant of the single step (`Overall.capped_le_running`). The lower bound also knows
something about the whole group. It is positive exactly if the particle has to be there and so has
every group around it, with nothing to choose instead (`Overall.min_ne_zero_iff`); and so

> **a group with a leaf whose overall lower bound is positive is not emptiable**
> (`ModelGroup.not_emptiable_of_particle`).
-/

set_option autoImplicit false

namespace ContentModel

/-- The group has to occur, and there is no other branch to take instead of the particle's. -/
def ModelGroup.Insists (g : ModelGroup) : Prop := g.occurs.min ≠ 0 ∧ ¬ g.branches

/-! ## 1. Along a chain of groups -/

namespace Overall

/-- The next lower bound is multiplied to the running product, which stops at the greatest number
that a bound can be. -/
def capped (m n : UInt32) : UInt32 := UInt32.ofNat (Nat.min (m.toNat * n.toNat) (Bound.size - 1))

theorem toNat_capped (m n : UInt32) :
    (capped m n).toNat = Nat.min (m.toNat * n.toNat) (Bound.size - 1) := by
  apply Bound.toNat_ofNat_of_lt
  exact Nat.lt_of_le_of_lt (Nat.min_le_right _ _) (Nat.sub_one_lt (by decide))

theorem capped_ne_zero_iff {m n : UInt32} : capped m n ≠ 0 ↔ m ≠ 0 ∧ n ≠ 0 := by
  have hsize : Bound.size - 1 ≠ 0 := by decide
  have hzero : Nat.min (m.toNat * n.toNat) (Bound.size - 1) = 0 ↔ m.toNat * n.toNat = 0 := by
    show Min.min _ _ = 0 ↔ _
    omega
  simp only [ne_eq, ← UInt32.toNat_inj, toNat_capped, UInt32.toNat_zero, hzero, Nat.mul_eq_zero,
    not_or]

theorem min_cons_eq_capped {g : ModelGroup} (h : ¬ g.branches) (own : UInt32)
    (groups : List ModelGroup) :
    Overall.min own (g :: groups) = Overall.min (capped own g.occurs.min) groups :=
  min_cons_of_not_branches h own groups

/-- A product that is stopped at the greatest number is at most the one that becomes unbounded
there. -/
theorem finite_capped_le (m n : UInt32) :
    .finite (capped m n) ≤ Bound.ofNat (m.toNat * n.toNat) := by
  rcases Nat.lt_or_ge (m.toNat * n.toNat) Bound.size with hfits | hlarge
  · rw [← Bound.ofNat_toNat]
    apply Bound.ofNat_le_ofNat
    rw [toNat_capped]
    exact Nat.min_le_left _ _
  · rw [Bound.ofNat_of_le hlarge]
    exact Bound.le_unbounded _

/-- **One step**: if the bounds were in order before, and those of the next group are, they are in
order afterwards. -/
theorem capped_le_running {m n : UInt32} {b c : Bound} (hb : .finite m ≤ b) (hc : .finite n ≤ c) :
    .finite (capped m n) ≤ running b c := by
  unfold running
  split
  · exact Bound.le_unbounded _
  · rw [Bound.le_iff_toENat_le] at hb hc
    have hle : ((m.toNat * n.toNat : ℕ) : ℕ∞) ≤ b.toENat * c.toENat := by
      rw [ENat.natCast_mul]
      exact mul_le_mul' hb hc
    apply Bound.le_trans (finite_capped_le m n)
    rw [Bound.mul_eq_ofENat, ← Bound.ofENat_coe]
    exact Bound.ofENat_le_ofENat hle

/-- **The overall bounds are in order**, by induction over the chain. -/
theorem min_le_max {m : UInt32} {b : Bound} (h : .finite m ≤ b) (groups : List ModelGroup) :
    .finite (Overall.min m groups) ≤ Overall.max b groups := by
  induction groups generalizing m b with
  | nil => exact h
  | cons g groups ih =>
    by_cases hbranches : g.branches
    · rw [min_cons_of_branches hbranches]
      exact Bound.finite_zero_le _
    · rw [min_cons_eq_capped hbranches, max_cons]
      exact ih (capped_le_running h g.occurs.min_le_max)

/-- **A positive lower bound**, by induction over the chain: nothing on the way made it zero. -/
theorem min_ne_zero_iff {m : UInt32} {groups : List ModelGroup} :
    Overall.min m groups ≠ 0 ↔ m ≠ 0 ∧ ∀ g ∈ groups, g.Insists := by
  induction groups generalizing m with
  | nil => simp [Overall.min]
  | cons g groups ih =>
    rw [List.forall_mem_cons]
    by_cases hbranches : g.branches
    · rw [min_cons_of_branches hbranches]
      exact iff_of_false (fun h => h rfl) fun h => h.2.1.2 hbranches
    · rw [min_cons_eq_capped hbranches, ih, capped_ne_zero_iff, ModelGroup.Insists,
        and_iff_left hbranches, and_assoc]

end Overall

/-! ## 2. What has to be there -/

namespace ModelGroup

/-- **One level**: a group that insists on a particle that is not emptiable is not emptiable
itself. -/
theorem Insists.not_emptiable {g : ModelGroup} {p : Particle} (hg : g.Insists)
    (hp : p ∈ g.particles) (he : p.emptiable = false) : g.emptiable = false := by
  obtain ⟨hmin, hbranches⟩ := hg
  rw [Bool.eq_false_iff, ne_eq, emptiable_iff, plainlyEmptiable_iff]
  rintro ((hzero | hnil) | hasks)
  · exact hmin hzero
  · rw [hnil] at hp
    exact absurd hp List.not_mem_nil
  · by_cases hc : g.compositor = .choice
    · -- the particle is the only branch of the choice
      have hone : g.particles.length ≤ 1 := Nat.not_lt.1 fun h => hbranches ⟨hc, h⟩
      obtain ⟨q, hq⟩ := List.length_eq_one_iff.1 (Nat.le_antisymm hone (List.length_pos_of_mem hp))
      rw [hq, Compositor.asks_singleton] at hasks
      rw [hq, List.mem_singleton] at hp
      simp [hp, hasks] at he
    · simp [(Compositor.asks_of_ne hc).1 hasks p hp] at he

/-- **All levels**, by induction over the position: if the groups around a particle that is not
emptiable all insist, the outermost of them is not emptiable. -/
theorem not_emptiable_of_particle {p : Particle} (he : p.emptiable = false) {way : Position} :
    ∀ {g : ModelGroup} {i : Nat}, g.particle? (i :: way) = some p →
      (∀ h ∈ g.chain (i :: way), h.Insists) → g.emptiable = false := by
  induction way with
  | nil =>
    intro g i hp hchain
    rw [particle?_single] at hp
    apply Insists.not_emptiable (hchain g ?_) (List.mem_of_getElem? hp) he
    simp [chain, around_single]
  | cons j way ih =>
    intro g i hp hchain
    obtain ⟨h, hi, hp⟩ := particle?_cons_cons_eq_some.1 hp
    rw [chain_cons_of _ hi, List.forall_mem_cons] at hchain
    have hinner : (Particle.group h).emptiable = false := ih hp hchain.2
    exact hchain.1.not_emptiable (List.mem_of_getElem? hi) hinner

variable {g : ModelGroup} {s : Sought} {limit : DepthLimit}

theorem overall_of_enclosing_error {e : Error} (h : g.enclosing s limit = .error e) :
    g.overallMin s limit = .error e ∧ g.overallMax s limit = .error e := by
  simp [overallMin, overallMax, h, Except.map]

theorem overall_of_enclosing_ok {around : List Ancestor} (h : g.enclosing s limit = .ok around) :
    g.overallMin s limit = .ok (Overall.min s.particle.occurs.min (around.map (·.group))) ∧
      g.overallMax s limit = .ok (Overall.max s.particle.occurs.max (around.map (·.group))) := by
  simp [overallMin, overallMax, h, Except.map]

/-- **The overall bounds of a particle belong together.** Either there are both, the lower one at
most the upper one, or neither is there, for the same reason; and if the lower one of some element
or wildcard of the tree is positive, the group is not emptiable. -/
theorem overall_consistent (g : ModelGroup) (s : Sought) (limit : DepthLimit) :
    ((∃ lo hi, g.overallMin s limit = .ok lo ∧ g.overallMax s limit = .ok hi ∧ .finite lo ≤ hi) ∨
      ∃ e, g.overallMin s limit = .error e ∧ g.overallMax s limit = .error e) ∧
    ∀ i way l lo, s = ⟨.leaf l, some (i :: way)⟩ → g.particle? (i :: way) = some (.leaf l) →
      l.declared = true → g.overallMin s limit = .ok lo → 0 < lo → g.emptiable = false := by
  constructor
  · rcases hfound : g.enclosing s limit with e | around
    · exact .inr ⟨e, overall_of_enclosing_error hfound⟩
    · obtain ⟨hmin, hmax⟩ := overall_of_enclosing_ok hfound
      exact .inl ⟨_, _, hmin, hmax, Overall.min_le_max s.particle.occurs.min_le_max _⟩
  · rintro i way l lo rfl hp hdeclared hlo hpos
    rcases hfound : g.enclosing ⟨.leaf l, some (i :: way)⟩ limit with e | around
    · simp [(overall_of_enclosing_error hfound).1] at hlo
    · rw [(overall_of_enclosing_ok hfound).1, enclosing_eq_ok hp hfound, Except.ok.injEq] at hlo
      have hne : lo ≠ 0 := UInt32.pos_iff_ne_zero.1 hpos
      rw [← hlo, Overall.min_ne_zero_iff] at hne
      obtain ⟨hmin, hinsist⟩ := hne
      refine not_emptiable_of_particle ?_ hp hinsist
      show l.emptiable = false
      rw [Leaf.emptiable_of_declared hdeclared]
      exact beq_false_of_ne hmin

/-- An element that has to be there 65536 times in a choice without alternative that has to be there
as often: the lower bound stops at the greatest number, where the upper one becomes unbounded. One
that may be there two or three times in a group that may be there up to four times has a finite
upper bound. -/
theorem overall_consistent_beyond_the_greatest :
    let a : Leaf := .element ⟨⟨none, "a"⟩, ⟨65536, .finite 65536, by decide⟩, none⟩
    let b : Leaf := .wildcard .anything
    let inner : ModelGroup := ⟨.choice, ⟨65536, .finite 65536, by decide⟩, [.leaf a]⟩
    let g : ModelGroup := ⟨.sequence, .once, [.leaf b, .group inner]⟩
    let s : Sought := ⟨.leaf a, some [1, 0]⟩
    let c : Leaf := .element ⟨⟨none, "c"⟩, ⟨2, .finite 3, by decide⟩, none⟩
    let h : ModelGroup := ⟨.sequence, ⟨1, .finite 4, by decide⟩, [.leaf c]⟩
    let t : Sought := ⟨.leaf c, some [0]⟩
    (g.overallMin s .standard = .ok 4294967295 ∧ g.overallMax s .standard = .ok .unbounded ∧
      g.emptiable = false) ∧
      h.overallMin t .standard = .ok 2 ∧ h.overallMax t .standard = .ok (.finite 12) ∧
      Bound.finite 2 ≤ .finite 12 ∧ h.emptiable = false := by
  intro a b inner g s c h t
  have hp : g.particle? [1, 0] = some (.leaf a) := rfl
  have hmin : g.overallMin s .standard = .ok 4294967295 := by
    rw [overallMin_eq hp (List.cons_ne_nil _ _) (by decide)]
    decide +kernel
  have hmax : g.overallMax s .standard = .ok .unbounded := by
    rw [overallMax_eq hp (List.cons_ne_nil _ _) (by decide)]
    decide +kernel
  have hq : h.particle? [0] = some (.leaf c) := rfl
  have hleast : h.overallMin t .standard = .ok 2 := by
    rw [overallMin_eq hq (List.cons_ne_nil _ _) (by decide)]
    decide +kernel
  have hgreatest : h.overallMax t .standard = .ok (.finite 12) := by
    rw [overallMax_eq hq (List.cons_ne_nil _ _) (by decide)]
    decide +kernel
  obtain ⟨-, hbinding⟩ := overall_consistent g s .standard
  obtain ⟨⟨lo, hi, hlo, hhi, hle⟩ | ⟨e, he, -⟩, hbound⟩ := overall_consistent h t .standard
  · obtain rfl := Except.ok.inj (hleast.symm.trans hlo)
    obtain rfl := Except.ok.inj (hgreatest.symm.trans hhi)
    exact ⟨⟨hmin, hmax, hbinding 1 [0] a _ rfl hp rfl hmin (by decide)⟩, hleast, hgreatest, hle,
      hbound 0 [] c _ rfl hq rfl hleast (by decide)⟩
  · exact nomatch hleast.symm.trans he

end ModelGroup

end ContentModel
