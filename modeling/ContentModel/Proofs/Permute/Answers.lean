import ContentModel.Proofs.Effective.Splice
import ContentModel.Proofs.Restriction.Exact
import Mathlib.Data.List.FinRange
import Mathlib.Data.Multiset.Bind

/-!
# The order of the particles

Every query about a group takes its particles in order, and most stop as soon as they can. This file
says that the order does not show. What a group sees of a particle is its *view* (`Particle.View`),
and

> **a group that holds the same views in another order has the same view itself**
> (`Rearranged.view`).

All of its answers come from its compositor, its range and the views of its particles, and of these
it only matters how many there are of each. So the two groups are not told apart, wherever in a tree
they stand (`Rearranged.putAt`). Dissolving a group mixes its items with others, which is why a view
holds the exact ranges of the items as a multiset.
-/

set_option autoImplicit false

namespace ContentModel

/-! ## 1. Views -/

/-- What a group sees of a particle in it. -/
structure Particle.View where
  occurs : Occurs
  emptiable : Bool
  /-- Whether a group that holds nothing else may count as single. -/
  single : Bool
  declared : Bool
  nesting : Nat
  /-- The exact ranges of the items that the particle is in a group of the given compositor. -/
  ranges : Compositor → Multiset (ℕ∞ × ℕ)

noncomputable def Particle.view (p : Particle) : View where
  occurs := p.occurs
  emptiable := p.emptiable
  single := match p with
    | .leaf _ => true
    | .group h => h.single
  declared := p.declared
  nesting := p.nesting
  ranges parent := (p.flat parent).map Particle.exactRange

/-- The second group is the first with other particles, which have the same views in some order. -/
structure ModelGroup.Rearranged (g g' : ModelGroup) : Prop where
  compositor : g'.compositor = g.compositor
  occurs : g'.occurs = g.occurs
  views : (g'.particles.map Particle.view).Perm (g.particles.map Particle.view)

theorem ModelGroup.ranges_flat (g : ModelGroup) :
    (g.flat.map Particle.exactRange : Multiset (ℕ∞ × ℕ)) =
      (g.particles.map Particle.view : Multiset Particle.View).bind (·.ranges g.compositor) := by
  rw [flat_eq, List.map_flatMap, ← Multiset.coe_bind, ← Multiset.map_coe, Multiset.bind_map]
  rfl

namespace ModelGroup.Rearranged

variable {g g' : ModelGroup}

theorem length (h : Rearranged g g') : g'.particles.length = g.particles.length := by
  have hlen := h.views.length_eq
  rw [List.length_map, List.length_map] at hlen
  exact hlen

theorem nil (h : Rearranged g g') : g'.particles = [] ↔ g.particles = [] := by
  rw [← List.length_eq_zero_iff, ← List.length_eq_zero_iff, h.length]

theorem forall_iff (h : Rearranged g g') (P : Particle.View → Prop) :
    (∀ p ∈ g'.particles, P p.view) ↔ ∀ p ∈ g.particles, P p.view := by
  have hviews : (∀ v ∈ g'.particles.map Particle.view, P v) ↔
      ∀ v ∈ g.particles.map Particle.view, P v :=
    forall_congr' fun v => imp_congr_left h.views.mem_iff
  exact List.forall_mem_map.symm.trans (hviews.trans List.forall_mem_map)

theorem asks_iff (h : Rearranged g g') (c : Compositor) (P : Particle.View → Prop) :
    c.Asks (fun p => P p.view) g'.particles ↔ c.Asks (fun p => P p.view) g.particles := by
  have hviews := c.asks_perm (p := P) h.views
  rw [Compositor.asks_map, Compositor.asks_map] at hviews
  exact hviews

theorem emptiable (h : Rearranged g g') : g'.emptiable = g.emptiable := by
  rw [Bool.eq_iff_iff, emptiable_iff, emptiable_iff, plainlyEmptiable_iff, plainlyEmptiable_iff,
    h.nil, h.occurs, h.compositor]
  exact or_congr_right (h.asks_iff g.compositor (·.emptiable = true))

theorem single (h : Rearranged g g') : g'.single = g.single := by
  have halone : ∀ k : ModelGroup, (∀ m, k.particles = [.group m] → m.single = true) ↔
      ∀ v, k.particles.map Particle.view = [v] → v.single = true := by
    intro k
    constructor
    · intro hk v hv
      obtain ⟨p, hp, rfl⟩ := List.map_eq_singleton_iff.1 hv
      cases p with
      | leaf l => rfl
      | group m => exact hk m hp
    · intro hk m hm
      exact hk (Particle.group m).view (congrArg (List.map Particle.view) hm)
  rw [Bool.eq_iff_iff, single_iff, single_iff, h.occurs, Ne, Ne, h.nil, halone, halone]
  refine and_congr_right fun _ => and_congr_right fun _ => forall_congr' fun v => imp_congr_left ?_
  rw [← List.perm_singleton, ← List.perm_singleton]
  exact ⟨h.views.symm.trans, h.views.trans⟩

theorem empty (h : Rearranged g g') : g'.empty = g.empty := by
  rw [Bool.eq_iff_iff, empty_iff, empty_iff, h.nil, h.occurs]

theorem declared (h : Rearranged g g') : g'.declared = g.declared := by
  rw [Bool.eq_iff_iff, declared_iff, declared_iff]
  exact h.forall_iff (·.declared = true)

theorem height (h : Rearranged g g') : g'.height = g.height := by
  refine eq_of_forall_ge_iff fun n => ?_
  rw [height_le_iff, height_le_iff]
  exact h.forall_iff (·.nesting ≤ n)

theorem pointless (h : Rearranged g g') (parent : Compositor) :
    g'.pointless parent = g.pointless parent := by
  rw [pointless_eq, pointless_eq, h.length, h.occurs, h.compositor]

/-- What the particles declare adds up to the same. -/
theorem restrictsLeaf (h : Rearranged g g') (base : Occurs) :
    g'.restrictsLeaf base = g.restrictsLeaf base := by
  have hmins := h.views.map (·.occurs.min.toNat)
  have hmaxima := h.views.map (·.occurs.max.toENat)
  rw [List.map_map, List.map_map] at hmins hmaxima
  have hmin : g'.declaredMin = g.declaredMin := by
    rw [declaredMin, declaredMin, h.compositor, h.occurs]
    exact congrArg (_ * ·) (Compositor.roundMin_perm _ hmins)
  have hmax : g'.declaredMax = g.declaredMax := by
    rw [declaredMax, declaredMax, h.compositor, h.occurs]
    exact congrArg (_ * ·) (Compositor.roundMax_perm _ hmaxima)
  have hopen : g'.openEnded = false ↔ g.openEnded = false := by
    rw [openEnded_eq_false_iff, openEnded_eq_false_iff, h.occurs]
    exact and_congr_right fun _ => h.forall_iff (·.occurs.max ≠ .unbounded)
  by_cases hnil : g.particles = []
  · have hempty : g.particles.isEmpty = true := List.isEmpty_iff.2 hnil
    have hempty' : g'.particles.isEmpty = true := List.isEmpty_iff.2 (h.nil.2 hnil)
    rw [ModelGroup.restrictsLeaf, ModelGroup.restrictsLeaf, if_pos hempty, if_pos hempty']
  · rw [Bool.eq_iff_iff, restrictsLeaf_iff hnil, restrictsLeaf_iff (mt h.nil.1 hnil), hmin, hmax,
      hopen]

/-- The items are in another order too, as far as their exact ranges go. -/
theorem ranges (h : Rearranged g g') :
    (g'.flat.map Particle.exactRange).Perm (g.flat.map Particle.exactRange) := by
  rw [← Multiset.coe_eq_coe, ranges_flat, ranges_flat, h.compositor, Multiset.coe_eq_coe.2 h.views]

theorem exactRange (h : Rearranged g g') :
    (Particle.group g').exactRange = (Particle.group g).exactRange :=
  exactRange_congr h.compositor h.occurs h.nil h.ranges

/-- **The group around it sees no difference.** -/
theorem view (h : Rearranged g g') : (Particle.group g').view = (Particle.group g).view := by
  have hranges : ∀ parent, (((Particle.group g').flat parent).map Particle.exactRange).Perm
      (((Particle.group g).flat parent).map Particle.exactRange) := by
    intro parent
    rw [Particle.flat_group, Particle.flat_group, h.pointless]
    by_cases hp : g.pointless parent = true
    · rw [if_pos hp, if_pos hp]
      exact h.ranges
    · rw [if_neg hp, if_neg hp, List.map_singleton, List.map_singleton, h.exactRange]
  have hdeclared : (Particle.group g').declared = (Particle.group g).declared := by
    rw [Particle.declared_group, Particle.declared_group, h.declared]
  have hnesting : (Particle.group g').nesting = (Particle.group g).nesting := by
    rw [Particle.nesting_group, Particle.nesting_group, h.height]
  rw [Particle.View.mk.injEq]
  exact ⟨h.occurs, h.emptiable, h.single, hdeclared, hnesting,
    funext fun parent => Multiset.coe_eq_coe.2 (hranges parent)⟩

theorem put {t inner inner' : ModelGroup} {a : Nat} (ha : t.particles[a]? = some (.group inner))
    (h : Rearranged inner inner') :
    Rearranged t { t with particles := t.particles.set a (.group inner') } := by
  obtain ⟨hlt, hget⟩ := List.getElem?_eq_some_iff.1 ha
  refine ⟨rfl, rfl, ?_⟩
  rw [List.map_set, h.view, ← hget, ← List.map_set, List.set_getElem_self]

/-- **The whole tree.** -/
theorem putAt (h : Rearranged g g') : ∀ {spot : Position} {t : ModelGroup},
    t.subgroup? spot = some g → Rearranged t (t.putAt g' spot) :=
  related_putAt put h

end ModelGroup.Rearranged

/-! ## 2. Permutations -/

/-- The group with its particles in another order: the one at the index `i` comes to the index
`σ i`. -/
def ModelGroup.permute (g : ModelGroup) (σ : Equiv.Perm (Fin g.particles.length)) : ModelGroup :=
  { g with particles := List.ofFn fun j => g.particles.get (σ.symm j) }

theorem ModelGroup.rearranged_permute (g : ModelGroup) (σ : Equiv.Perm (Fin g.particles.length)) :
    Rearranged g (g.permute σ) := by
  have hperm : (g.permute σ).particles.Perm g.particles := by
    conv => rhs; rw [← List.ofFn_get g.particles]
    exact Equiv.Perm.ofFn_comp_perm σ.symm g.particles.get
  exact ⟨rfl, rfl, hperm.map Particle.view⟩

end ContentModel
