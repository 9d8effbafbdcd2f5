import ContentModel.Proofs.Enclosing.Exact
import ContentModel.Proofs.Walk.Encounters

/-!
# The particles of a tree, in document order

What a walk comes upon if it enters every group is every particle of the tree, each at its position
(`ModelGroup.places`). The listing is the yardstick for whatever claims to go through a model
without losing or repeating a particle:

> **it holds a particle with a position exactly when the particle stands there**
> (`ModelGroup.mem_places`), and its positions ascend (`ModelGroup.pairwise_places`), which is
> document order.
-/

set_option autoImplicit false

namespace ContentModel

/-! ## 1. The listing -/

/-- What was met, with its position. -/
def Encounter.place : Encounter → Position × Particle
  | .reached g spot => (spot, .group g)
  | .found p spot i => (spot ++ [i], p)

/-- The same place, seen from a group in which the tree stands at a position. -/
def Position.below (spot : Position) (place : Position × Particle) : Position × Particle :=
  (spot ++ place.1, place.2)

@[simp] theorem Encounter.place_under (i : Nat) (e : Encounter) :
    (e.under i).place = Position.below [i] e.place := by
  cases e with
  | reached g spot => rfl
  | found p spot k => rfl

theorem Position.below_below (spot further : Position) (place : Position × Particle) :
    below spot (below further place) = below (spot ++ further) place := by
  rw [below, below, below, List.append_assoc]

theorem Position.below_nil (place : Position × Particle) : below [] place = place := rfl

/-- The particles of a tree with their positions, the group itself first. -/
def ModelGroup.places (g : ModelGroup) : List (Position × Particle) :=
  (g.encounters fun _ _ => .enter).map Encounter.place

/-- The places of a particle that has the given index in a group. -/
def Particle.placesAt (i : Nat) : Particle → List (Position × Particle)
  | .leaf l => [([i], .leaf l)]
  | .group h => h.places.map (Position.below [i])

/-- The places of some particles of a group, from an index on. -/
def Particle.placesAll (i : Nat) : List Particle → List (Position × Particle)
  | [] => []
  | p :: ps => p.placesAt i ++ Particle.placesAll (i + 1) ps

theorem Particle.map_place_encounters (parent : Compositor) (i : Nat) (p : Particle) :
    (p.encounters (fun _ _ => .enter) parent i).map Encounter.place = p.placesAt i := by
  cases p with
  | leaf l =>
    rw [Particle.encounters_leaf]
    rfl
  | group h =>
    rw [Particle.encounters_group, List.map_map, Particle.placesAt, ModelGroup.places, List.map_map]
    refine List.map_congr_left fun e _ => ?_
    exact Encounter.place_under i e

theorem Particle.map_place_encountersAll (parent : Compositor) (i : Nat) (ps : List Particle) :
    (Particle.encountersAll (fun _ _ => .enter) parent i ps).map Encounter.place =
      Particle.placesAll i ps := by
  induction ps generalizing i with
  | nil =>
    rw [Particle.encountersAll]
    rfl
  | cons p ps ih =>
    rw [Particle.encountersAll, List.map_append, Particle.map_place_encounters, ih,
      Particle.placesAll]

theorem ModelGroup.places_eq (g : ModelGroup) :
    g.places = ([], .group g) :: Particle.placesAll 0 g.particles := by
  rw [places, encounters, List.map_cons, Particle.map_place_encountersAll]
  rfl

/-! ## 2. What it holds -/

namespace ModelGroup

variable {g h : ModelGroup} {p : Particle}

theorem particle?_of_getElem? {spot : Position} {i : Nat} (hp : h.particles[i]? = some p) :
    ∀ {g : ModelGroup}, g.subgroup? spot = some h → g.particle? (spot ++ [i]) = some p := by
  induction spot with
  | nil =>
    intro g hs
    cases hs
    rw [List.nil_append, particle?_single, hp]
  | cons j spot ih =>
    intro g hs
    obtain ⟨inner, hj, hs⟩ := subgroup?_cons_eq_some.1 hs
    have hne : spot ++ [i] ≠ [] := List.append_ne_nil_of_right_ne_nil spot (List.cons_ne_nil i [])
    obtain ⟨k, way, hway⟩ := List.exists_cons_of_ne_nil hne
    have hin := ih hs
    rw [List.cons_append]
    rw [hway] at hin ⊢
    exact particle?_cons_cons_eq_some.2 ⟨inner, hj, hin⟩

theorem particle?_of_subgroup? {spot : Position} :
    ∀ {g : ModelGroup}, g.subgroup? spot = some h → g.particle? spot = some (.group h) := by
  induction spot with
  | nil =>
    intro g hs
    cases hs
    rfl
  | cons i spot ih =>
    intro g hs
    obtain ⟨inner, hi, hs⟩ := subgroup?_cons_eq_some.1 hs
    cases spot with
    | nil =>
      cases hs
      rw [particle?_single, hi]
    | cons j spot => exact particle?_cons_cons_eq_some.2 ⟨inner, hi, ih hs⟩

theorem mem_placesAll {place : Position × Particle} {ps : List Particle} {k : Nat}
    (hp : ps[k]? = some p) :
    ∀ {i : Nat}, place ∈ p.placesAt (i + k) → place ∈ Particle.placesAll i ps := by
  induction ps generalizing k with
  | nil => cases hp
  | cons q ps ih =>
    intro i hplace
    rw [Particle.placesAll, List.mem_append]
    cases k with
    | zero =>
      cases hp
      exact .inl hplace
    | succ k =>
      rw [← Nat.add_assoc, Nat.add_right_comm] at hplace
      exact .inr (ih hp hplace)

theorem mem_places_of_particle? {way : Position} :
    ∀ {g : ModelGroup}, g.particle? way = some p → (way, p) ∈ g.places := by
  induction way with
  | nil =>
    intro g hp
    cases hp
    rw [places_eq]
    exact List.mem_cons_self
  | cons i way ih =>
    intro g hp
    rw [places_eq]
    refine List.mem_cons_of_mem _ ?_
    have below_of_mem : ∀ inner : ModelGroup, (way, p) ∈ inner.places →
        (i :: way, p) ∈ (Particle.group inner).placesAt i := by
      intro inner hin
      exact List.mem_map_of_mem (f := Position.below [i]) hin
    cases way with
    | nil =>
      rw [particle?_single] at hp
      refine mem_placesAll hp ?_
      rw [Nat.zero_add]
      cases p with
      | leaf l => exact List.mem_cons_self
      | group inner => exact below_of_mem inner (ih rfl)
    | cons j way =>
      obtain ⟨inner, hi, hp⟩ := particle?_cons_cons_eq_some.1 hp
      refine mem_placesAll hi ?_
      rw [Nat.zero_add]
      exact below_of_mem inner (ih hp)

/-- **What stands where**: exactly the particles that positions lead to are listed. -/
theorem mem_places {way : Position} : (way, p) ∈ g.places ↔ g.particle? way = some p := by
  refine ⟨fun hmem => ?_, mem_places_of_particle?⟩
  obtain ⟨e, he, hplace⟩ := List.mem_map.1 hmem
  have hat := g.at_of_mem_encounters e he
  cases e with
  | reached h spot =>
    cases hplace
    exact particle?_of_subgroup? hat
  | found q spot i =>
    cases hplace
    obtain ⟨h, hs, hi⟩ := hat
    exact particle?_of_getElem? hi hs

theorem pairwise_places (g : ModelGroup) : g.places.Pairwise (·.1 < ·.1) := by
  have hway : ∀ e : Encounter, e.place.1 = e.way := by
    intro e
    cases e with
    | reached h spot => rfl
    | found q spot i => rfl
  refine g.pairwise_encounters.map Encounter.place fun e f hlt => ?_
  rw [hway, hway]
  exact hlt

end ModelGroup

end ContentModel
