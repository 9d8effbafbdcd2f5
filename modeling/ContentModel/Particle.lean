import ContentModel.Compositor
import ContentModel.Leaf

/-!
# Particles and model groups

A content model is a tree: a group combines particles under one compositor and occurs within a
range, and a particle is a leaf or again a group. What is true of every particle is shown by
`Particle.induction`, whose step for a group speaks of the particles directly in it.
-/

set_option autoImplicit false

namespace ContentModel

mutual

/-- A leaf, or a nested group. -/
inductive Particle
  | leaf (l : Leaf)
  | group (g : ModelGroup)

/-- Particles under a compositor. -/
structure ModelGroup where
  compositor : Compositor
  occurs : Occurs
  particles : List Particle

end

/-- The particles of a group are less than the group, so a traversal that has entered it has less
left to do. -/
theorem ModelGroup.sizeOf_particles_lt (g : ModelGroup) : sizeOf g.particles < sizeOf g := by
  cases g
  simp only [ModelGroup.mk.sizeOf_spec]
  omega

theorem Particle.induction {motive : Particle → Prop} (leaf : ∀ l, motive (.leaf l))
    (group : ∀ g : ModelGroup, (∀ p ∈ g.particles, motive p) → motive (.group g))
    (p : Particle) : motive p :=
  match p with
  | .leaf l => leaf l
  | .group g => group g fun q _ => Particle.induction leaf group q
termination_by sizeOf p
decreasing_by
  rename_i hq
  have h₁ := List.sizeOf_lt_of_mem hq
  have h₂ := g.sizeOf_particles_lt
  simp only [Particle.group.sizeOf_spec]
  omega

/-! ## What a particle says of itself -/

def Particle.occurs : Particle → Occurs
  | .leaf l => l.occurs
  | .group g => g.occurs

def Particle.isGroup : Particle → Bool
  | .leaf _ => false
  | .group _ => true

def ModelGroup.text (g : ModelGroup) : String :=
  "ModelGroup(model='" ++ g.compositor.name ++ "', occurs=" ++ g.occurs.text ++ ")"

def Particle.text : Particle → String
  | .leaf l => l.text
  | .group g => g.text

def ModelGroup.childless (compositor : Compositor) (occurs : Occurs) : ModelGroup :=
  ⟨compositor, occurs, []⟩

end ContentModel
