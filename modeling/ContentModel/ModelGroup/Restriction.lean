import ContentModel.Particle

/-!
# Restriction of occurrence bounds

Whether a particle stays within the bounds of a base particle. Leaves compare their declared ranges,
and so do two groups. A group against anything else is compared by what it adds up to: how many
particles it calls for at least and admits at most, going by the declared ranges of the particles
directly in it. A group without particles restricts everything.
-/

set_option autoImplicit false

namespace ContentModel

namespace ModelGroup

/-- Where the count of particles called for stops growing. -/
def countTop : Nat := 18446744073709551615

/-- How many particles the group calls for at least: the least of a choice, the sum of any other
group, times the group's own lower bound. Counts stop at `countTop`, which is far above any
bound. -/
def minTotal (g : ModelGroup) : Nat :=
  let mins := g.particles.map fun p => p.occurs.min.toNat
  let once := match g.compositor with
    | .choice => mins.min?.getD 0
    | .sequence | .all => mins.foldl (fun n m => min (n + m) countTop) 0
  min (g.occurs.min.toNat * once) countTop

def maxTotal (g : ModelGroup) : Bound :=
  let maxima := g.particles.map fun p => p.occurs.max
  let once := match g.compositor with
    | .choice => maxima.max?.getD (.finite 0)
    | .sequence | .all => Bound.sum maxima
  g.occurs.max.mul once

/-- The group or a particle directly in it has no upper bound. -/
def openEnded (g : ModelGroup) : Bool :=
  g.occurs.max == .unbounded || g.particles.any fun p => p.occurs.max == .unbounded

/-- Whether the group restricts a particle that is no group. -/
def restrictsLeaf (g : ModelGroup) (base : Occurs) : Bool :=
  if g.particles.isEmpty then true
  else if g.openEnded then base.max == .unbounded && base.min.toNat ≤ g.minTotal
  else base.min.toNat ≤ g.minTotal && g.maxTotal ≤ base.max

def restrictsGroup (g base : ModelGroup) : Bool :=
  g.particles.isEmpty || g.occurs.restricts base.occurs

end ModelGroup

namespace Particle

def restrictsBounds : Particle → Occurs → Bool
  | .leaf l, base => l.occurs.restricts base
  | .group g, base => g.restrictsLeaf base

def restricts : Particle → Particle → Bool
  | .leaf l, base => l.occurs.restricts base.occurs
  | .group g, .leaf base => g.restrictsLeaf base.occurs
  | .group g, .group base => g.restrictsGroup base

end Particle

end ContentModel
