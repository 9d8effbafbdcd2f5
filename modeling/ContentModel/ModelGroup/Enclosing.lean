import ContentModel.Walk
import ContentModel.ModelGroup.Position

/-!
# The groups around a particle

The particles below a group are searched in document order for one that is known by its position,
so that another of the same looks is never mistaken for it. The answer is the chain of groups from
the receiver down to the one the particle stands in. A particle with no position below the receiver
is found nowhere, but the search goes on to the end all the same, and a group that lies too deep on
the way is an error before the particle is reported missing. The receiver and the groups directly in
it are always searched; the limit counts from the groups below those, and the error names the
receiver.

The overall bounds of a particle multiply its range by those of the groups around it.
-/

set_option autoImplicit false

namespace ContentModel

/-! ## 1. Search -/

/-- A particle to be looked for, with its position below the group that is searched if it has
one. -/
structure Sought where
  particle : Particle
  position : Option Position

/-- A group around a particle, with the index of the branch that leads to the particle. -/
structure Ancestor where
  group : ModelGroup
  branch : Nat

namespace Enclosing

/-- A group being searched: the particles from index `index` on are still to come, and `target` is
where the particle lies below this group, if it does. -/
structure Level where
  group : ModelGroup
  index : Nat
  rest : List Particle
  target : Option Position

noncomputable def weight : List Level → Nat
  | [] => 0
  | v :: above => 1 + sizeOf v.rest + weight above

/-- Where the particle lies below the group at an index, if it does. -/
def below (target : Option Position) (index : Nat) : Option Position :=
  match target with
  | some (i :: way) => if i = index then some way else none
  | _ => none

/-- Searches the innermost level and then those above it; `depth` is the number of those above, and
each of them stands at the group it was left for. -/
def search (limit : DepthLimit) (receiver missing : String) :
    Level → List Level → Nat → Except Error (List Ancestor)
  | ⟨_, _, [], _⟩, [], _ => .error (.model ⟨.notAParticle missing, some receiver⟩)
  | ⟨_, _, [], _⟩, v :: above, depth =>
    search limit receiver missing { v with index := v.index + 1 } above (depth - 1)
  | ⟨g, i, p :: rest, target⟩, above, depth =>
    if target = some [i] then
      .ok (((above.map fun v => ⟨v.group, v.index⟩).reverse) ++ [⟨g, i⟩])
    else match p with
      | .leaf _ => search limit receiver missing ⟨g, i + 1, rest, target⟩ above depth
      | .group h =>
        match limit.check depth with
        | .error e => .error (.depth { e with group := some receiver })
        | .ok _ =>
          search limit receiver missing ⟨h, 0, h.particles, below target i⟩
            (⟨g, i, rest, target⟩ :: above) (depth + 1)
termination_by v above => weight (v :: above)
decreasing_by
  · simp only [weight]
    omega
  · simp only [weight, List.cons.sizeOf_spec]
    omega
  · have := h.sizeOf_particles_lt
    simp only [weight, List.cons.sizeOf_spec,
      Particle.group.sizeOf_spec]
    omega

end Enclosing

def ModelGroup.enclosing (g : ModelGroup) (s : Sought) (limit : DepthLimit) :
    Except Error (List Ancestor) :=
  Enclosing.search limit g.text s.particle.text ⟨g, 0, g.particles, s.position⟩ [] 0

/-! ## 2. Overall bounds -/

/-- The lower bound of a particle that stands in a chain of groups, outermost first. Another branch
of a choice may be taken instead of the particle's. The product stops at the greatest number that a
bound can be. -/
def Overall.min (own : UInt32) : List ModelGroup → UInt32
  | [] => own
  | g :: inner =>
    if g.compositor = .choice ∧ g.particles.length > 1 then 0
    else Overall.min
      (UInt32.ofNat (Nat.min (own.toNat * g.occurs.min.toNat) (Bound.size - 1))) inner

/-- The upper bound of a particle that stands in a chain of groups, outermost first. Once unbounded,
it stays so. -/
def Overall.max (own : Bound) (groups : List ModelGroup) : Bound :=
  groups.foldl (fun b g => if b = .unbounded then .unbounded else b.mul g.occurs.max) own

/-- The lower bound of a particle within the whole group. -/
def ModelGroup.overallMin (g : ModelGroup) (s : Sought) (limit : DepthLimit) :
    Except Error UInt32 :=
  (g.enclosing s limit).map fun around =>
    Overall.min s.particle.occurs.min (around.map (·.group))

/-- The upper bound of a particle within the whole group. -/
def ModelGroup.overallMax (g : ModelGroup) (s : Sought) (limit : DepthLimit) :
    Except Error Bound :=
  (g.enclosing s limit).map fun around =>
    Overall.max s.particle.occurs.max (around.map (·.group))

end ContentModel
