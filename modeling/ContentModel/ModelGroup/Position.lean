import ContentModel.Particle

/-!
# Places in a content model

A position is the list of the indexes met on the way down from a group: the empty one is the group
itself. Particles that look alike are told apart by their positions. An edit rewrites the group at a
position and leaves everything beside the way down to it as it was; an index outside the group is
refused, and nothing changes then.
-/

set_option autoImplicit false

namespace ContentModel

/-- The way from a group down to a particle, index by index. -/
abbrev Position := List Nat

namespace ModelGroup

/-! ## 1. Looking -/

/-- The group at a position, if the way leads through groups to a group. -/
def subgroup? (g : ModelGroup) : Position → Option ModelGroup
  | [] => some g
  | i :: rest =>
    match g.particles[i]? with
    | some (.group h) => h.subgroup? rest
    | _ => none

def particle? (g : ModelGroup) : Position → Option Particle
  | [] => some (.group g)
  | i :: rest =>
    match g.particles[i]?, rest with
    | some p, [] => some p
    | some (.group h), j :: more => h.particle? (j :: more)
    | _, _ => none

/-! ## 2. Editing one group -/

/-- The group with one more particle at the end. -/
def append (g : ModelGroup) (p : Particle) : ModelGroup :=
  { g with particles := g.particles ++ [p] }

/-- The group with one more particle, which gets the index `i`. -/
def insert? (g : ModelGroup) (i : Nat) (p : Particle) : Option ModelGroup :=
  if i ≤ g.particles.length then some { g with particles := g.particles.insertIdx i p } else none

/-- The particle at an index, and the group without it. -/
def remove? (g : ModelGroup) (i : Nat) : Option (Particle × ModelGroup) :=
  g.particles[i]?.map fun p => (p, { g with particles := g.particles.eraseIdx i })

def replace? (g : ModelGroup) (i : Nat) (p : Particle) : Option ModelGroup :=
  if i < g.particles.length then some { g with particles := g.particles.set i p } else none

def clear (g : ModelGroup) : ModelGroup := { g with particles := [] }

def withOccurs (g : ModelGroup) (o : Occurs) : ModelGroup := { g with occurs := o }

/-! ## 3. Editing in a tree -/

/-- Puts a group in the place of the group at a position. -/
def putAt (g : ModelGroup) (h : ModelGroup) : Position → ModelGroup
  | [] => h
  | i :: rest =>
    match g.particles[i]? with
    | some (.group inner) =>
      { g with particles := g.particles.set i (.group (inner.putAt h rest)) }
    | _ => g

end ModelGroup

end ContentModel
