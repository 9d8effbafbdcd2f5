import ContentModel.Proofs.Tree
import ContentModel.Proofs.Walk.Recursive

/-!
# Items and leaves

The two manners of walking, without depths: the *items* of a group are its particles with every
pointless group replaced by its own items (`ModelGroup.flat`), where a group is judged against the
group that directly holds it, also when that one has been dissolved itself; its *leaves* are those
that no prohibited group cuts off (`ModelGroup.leaves`).

Where the tree is no higher than the depth limit allows, the walks hand out exactly these and end
without an error (`covers_items`, `covers_leaves`). A walk over items has one more thing to say,
which the effective bounds live on: each item is itself low enough to be walked from the depth it
was found at.
-/

set_option autoImplicit false

namespace ContentModel

/-! ## 1. Trails without errors -/

/-- The trail comes to its end, hands out the given particles in order, and none of them lies too
deep to be walked in its turn. -/
structure Trail.Covers (limit : DepthLimit) (t : Trail) (ps : List Particle) : Prop where
  ending : t.ending = .ok ()
  particles : t.items.map (·.particle) = ps
  fits : ∀ i ∈ t.items, i.depth + i.particle.nesting ≤ limit.max

namespace Trail

variable {limit : DepthLimit}

theorem covers_nothing : Covers limit nothing [] :=
  ⟨rfl, rfl, fun _ h => absurd h (by simp [nothing])⟩

theorem covers_single {p : Particle} {depth : Nat} (h : depth + p.nesting ≤ limit.max) :
    Covers limit ⟨[⟨p, depth⟩], .ok ()⟩ [p] := by
  refine ⟨rfl, rfl, ?_⟩
  intro i hi
  rw [List.mem_singleton.1 hi]
  exact h

theorem Covers.andThen {t t' : Trail} {ps ps' : List Particle} (h : Covers limit t ps)
    (h' : Covers limit t' ps') : Covers limit (t.andThen t') (ps ++ ps') := by
  obtain ⟨is, ending⟩ := t
  obtain ⟨rfl, rfl, hfits⟩ := h
  rw [andThen_ok]
  refine ⟨h'.ending, ?_, ?_⟩
  · rw [List.map_append, h'.particles]
  · intro i hi
    rcases List.mem_append.1 hi with hi | hi
    · exact hfits i hi
    · exact h'.fits i hi

theorem covers_trailAll {m : Manner} {parent : Compositor} {depth : Nat}
    {f : Particle → List Particle} : ∀ {ps : List Particle},
      (∀ p ∈ ps, Covers limit (p.trail m limit parent depth) (f p)) →
      Covers limit (Particle.trailAll m limit parent depth ps) (ps.flatMap f)
  | [], _ => covers_nothing
  | p :: ps, h => by
    rw [Particle.trailAll, List.flatMap_cons]
    exact (h p List.mem_cons_self).andThen
      (covers_trailAll fun q hq => h q (List.mem_cons_of_mem p hq))

end Trail

/-! ## 2. Items -/

mutual

/-- The particle as items of a group of the given compositor: a pointless group is dissolved. -/
def Particle.flat (parent : Compositor) : Particle → List Particle
  | .leaf l => [.leaf l]
  | .group ⟨c, o, ps⟩ =>
    if (⟨c, o, ps⟩ : ModelGroup).pointless parent then Particle.flatAll c ps
    else [.group ⟨c, o, ps⟩]

def Particle.flatAll (parent : Compositor) : List Particle → List Particle
  | [] => []
  | p :: ps => p.flat parent ++ Particle.flatAll parent ps

end

/-- The items of a group. -/
def ModelGroup.flat (g : ModelGroup) : List Particle := Particle.flatAll g.compositor g.particles

theorem Particle.flat_leaf (parent : Compositor) (l : Leaf) :
    (Particle.leaf l).flat parent = [.leaf l] := by rw [Particle.flat]

theorem Particle.flat_group (parent : Compositor) (g : ModelGroup) :
    (Particle.group g).flat parent = if g.pointless parent then g.flat else [.group g] := by
  cases g
  rw [Particle.flat]
  rfl

theorem Particle.flatAll_eq (parent : Compositor) (ps : List Particle) :
    Particle.flatAll parent ps = ps.flatMap (·.flat parent) := by
  induction ps with
  | nil => rw [Particle.flatAll, List.flatMap_nil]
  | cons p ps ih => rw [Particle.flatAll, List.flatMap_cons, ih]

theorem ModelGroup.flat_eq (g : ModelGroup) :
    g.flat = g.particles.flatMap (·.flat g.compositor) :=
  Particle.flatAll_eq g.compositor g.particles

/-- What holds of the particles of a group, and of the items of a group whenever it holds of its
particles, holds of all items. -/
theorem ModelGroup.forall_mem_flat {motive : Particle → Prop}
    (unfold : ∀ g : ModelGroup, motive (.group g) → ∀ p ∈ g.particles, motive p) (g : ModelGroup)
    (hg : ∀ p ∈ g.particles, motive p) : ∀ i ∈ g.flat, motive i := by
  induction g using ModelGroup.induction with
  | step g ih =>
    intro i hi
    rw [ModelGroup.flat_eq] at hi
    obtain ⟨p, hp, hi⟩ := List.mem_flatMap.1 hi
    cases p with
    | leaf l =>
      rw [Particle.flat_leaf, List.mem_singleton] at hi
      rw [hi]
      exact hg _ hp
    | group h =>
      rw [Particle.flat_group] at hi
      by_cases hq : h.pointless g.compositor = true
      · rw [if_pos hq] at hi
        exact ih h hp (unfold h (hg _ hp)) i hi
      · rw [if_neg hq, List.mem_singleton] at hi
        rw [hi]
        exact hg _ hp

theorem ModelGroup.declared_of_mem_flat {g : ModelGroup} (hd : g.declared = true) {i : Particle}
    (hi : i ∈ g.flat) : i.declared = true := by
  refine ModelGroup.forall_mem_flat (motive := fun p => p.declared = true) ?_ g
    (ModelGroup.declared_iff.1 hd) i hi
  intro h hh
  rw [Particle.declared_group] at hh
  exact ModelGroup.declared_iff.1 hh

theorem ModelGroup.sizeOf_lt_of_mem_flat {g : ModelGroup} {i : Particle} (hi : i ∈ g.flat) :
    sizeOf i < sizeOf g := by
  have hg : ∀ p ∈ g.particles, sizeOf p < sizeOf g := by
    intro p hp
    have := List.sizeOf_lt_of_mem hp
    have := g.sizeOf_particles_lt
    omega
  refine ModelGroup.forall_mem_flat (motive := fun p => sizeOf p < sizeOf g) ?_ g hg i hi
  intro h hh p hp
  have := List.sizeOf_lt_of_mem hp
  have := h.sizeOf_particles_lt
  rw [Particle.group.sizeOf_spec] at hh
  omega

theorem ModelGroup.particles_ne_nil_of_item {g : ModelGroup} {i : Particle} (hi : i ∈ g.flat) :
    g.particles ≠ [] := by
  intro hps
  simp [ModelGroup.flat_eq, hps] at hi

theorem ModelGroup.exists_subgroup?_of_mem_flat {g h : ModelGroup} (hi : .group h ∈ g.flat) :
    ∃ i way, g.subgroup? (i :: way) = some h := by
  have hg : ∀ p ∈ g.particles, ∀ h, p = .group h → ∃ i way, g.subgroup? (i :: way) = some h := by
    intro p hp h e
    rw [e] at hp
    obtain ⟨i, hw⟩ := ModelGroup.exists_subgroup?_of_mem hp
    exact ⟨i, [], hw []⟩
  refine ModelGroup.forall_mem_flat
    (motive := fun p => ∀ h, p = .group h → ∃ i way, g.subgroup? (i :: way) = some h) ?_ g hg _ hi
      h rfl
  intro k hk p hp h e
  rw [e] at hp
  obtain ⟨i, way, hway⟩ := hk k rfl
  obtain ⟨j, hw⟩ := ModelGroup.exists_subgroup?_of_mem hp
  refine ⟨i, way ++ [j], ?_⟩
  rw [← List.cons_append, ModelGroup.subgroup?_append, hway, Option.bind_some, hw]
  rfl

theorem Particle.covers_items {limit : DepthLimit} (p : Particle) :
    ∀ {parent : Compositor} {depth : Nat}, depth + p.nesting ≤ limit.max →
      (p.trail .items limit parent depth).Covers limit (p.flat parent) := by
  induction p using Particle.induction with
  | leaf l =>
    intro parent depth hfit
    rw [Particle.trail_leaf, Particle.flat_leaf]
    exact Trail.covers_single hfit
  | group g ih =>
    intro parent depth hfit
    have hfit' := hfit
    rw [Particle.nesting_group] at hfit'
    rw [Particle.trail_group, Depth.down_nat, Particle.flat_group,
      DepthLimit.check_of_le (by omega)]
    by_cases hp : g.pointless parent = true
    · have hv : Manner.items.visit parent g = .enter := if_pos hp
      rw [if_pos hp, hv, ModelGroup.flat_eq]
      refine Trail.covers_trailAll fun q hq => ih q hq ?_
      have := ModelGroup.nesting_le_height hq
      omega
    · have hv : Manner.items.visit parent g = .yield := if_neg hp
      rw [if_neg hp, hv]
      exact Trail.covers_single hfit

/-- **The walk over the items of a group**, found at a depth that leaves room for all of it. -/
theorem ModelGroup.covers_items {g : ModelGroup} {limit : DepthLimit} {depth : Nat}
    (hfit : depth + g.height ≤ limit.max) :
    (Walk.items g depth limit).trail.Covers limit g.flat := by
  unfold Walk.items
  have ho : Manner.items.opens g = true := rfl
  rw [Walk.trail_start, DepthLimit.check_of_le (by omega), ModelGroup.flat_eq]
  dsimp only
  rw [if_pos ho]
  refine Trail.covers_trailAll fun p hp => p.covers_items ?_
  have := ModelGroup.nesting_le_height hp
  omega

/-! ## 3. Leaves -/

mutual

/-- The leaves in a particle that no prohibited group cuts off, in document order. -/
def Particle.leaves : Particle → List Leaf
  | .leaf l => [l]
  | .group ⟨_, o, ps⟩ => if o.empty then [] else Particle.leavesAll ps

def Particle.leavesAll : List Particle → List Leaf
  | [] => []
  | p :: ps => p.leaves ++ Particle.leavesAll ps

end

/-- The leaves of a group; a prohibited group has none. -/
def ModelGroup.leaves (g : ModelGroup) : List Leaf :=
  if g.occurs.empty then [] else Particle.leavesAll g.particles

theorem Particle.leaves_leaf (l : Leaf) : (Particle.leaf l).leaves = [l] := by rw [Particle.leaves]

theorem Particle.leaves_group (g : ModelGroup) : (Particle.group g).leaves = g.leaves := by
  cases g
  rw [Particle.leaves]
  rfl

theorem Particle.leavesAll_eq (ps : List Particle) :
    Particle.leavesAll ps = ps.flatMap (·.leaves) := by
  induction ps with
  | nil => rw [Particle.leavesAll, List.flatMap_nil]
  | cons p ps ih => rw [Particle.leavesAll, List.flatMap_cons, ih]

theorem Particle.map_leavesAll (ps : List Particle) :
    (Particle.leavesAll ps).map Particle.leaf = ps.flatMap fun p => p.leaves.map Particle.leaf := by
  rw [Particle.leavesAll_eq, List.map_flatMap]

theorem Particle.covers_leaves {limit : DepthLimit} (p : Particle) :
    ∀ {parent : Compositor} {depth : Nat}, depth + p.nesting ≤ limit.max →
      (p.trail .leaves limit parent depth).Covers limit (p.leaves.map Particle.leaf) := by
  induction p using Particle.induction with
  | leaf l =>
    intro parent depth hfit
    rw [Particle.trail_leaf, Particle.leaves_leaf]
    exact Trail.covers_single hfit
  | group g ih =>
    intro parent depth hfit
    rw [Particle.nesting_group] at hfit
    rw [Particle.trail_group, Depth.down_nat, Particle.leaves_group, ModelGroup.leaves,
      DepthLimit.check_of_le (by omega)]
    by_cases he : g.occurs.empty = true
    · have hv : Manner.leaves.visit parent g = .pass := if_pos he
      rw [if_pos he, hv]
      exact Trail.covers_nothing
    · have hv : Manner.leaves.visit parent g = .enter := if_neg he
      rw [if_neg he, hv, Particle.map_leavesAll]
      refine Trail.covers_trailAll fun q hq => ih q hq ?_
      have := ModelGroup.nesting_le_height hq
      omega

/-- **The walk over the leaves of a group**, found at a depth that leaves room for all of it. -/
theorem ModelGroup.covers_leaves {g : ModelGroup} {limit : DepthLimit} {depth : Nat}
    (hfit : depth + g.height ≤ limit.max) :
    (Walk.leaves g depth limit).trail.Covers limit (g.leaves.map Particle.leaf) := by
  unfold Walk.leaves
  rw [Walk.trail_start, DepthLimit.check_of_le (by omega), ModelGroup.leaves]
  dsimp only
  by_cases he : g.occurs.empty = true
  · have ho : Manner.leaves.opens g = false := congrArg not he
    rw [if_pos he, ho]
    exact Trail.covers_nothing
  · have ho : Manner.leaves.opens g = true := congrArg not ((Bool.not_eq_true _).mp he)
    rw [if_neg he, if_pos ho, Particle.map_leavesAll]
    refine Trail.covers_trailAll fun p hp => p.covers_leaves ?_
    have := ModelGroup.nesting_le_height hp
    omega

end ContentModel
