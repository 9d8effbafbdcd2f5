import ContentModel.ModelGroup.Effective
import ContentModel.ModelGroup.Enclosing
import ContentModel.Summary

/-!
# Summing up a content model

Every particle of a model is summed up, prohibited groups included. A group is described by its own
effective bounds, a leaf also by its bounds within the whole model, for which it is found again by
its position. The depth limit is that of the nesting, and it is checked before anything else is
asked of a group.
-/

set_option autoImplicit false

namespace ContentModel

namespace Summary

/-- What is known of a leaf that stands at a position in a model. -/
def ofLeaf (root : ModelGroup) (limit : DepthLimit) (position : Position) (l : Leaf) :
    Except Error ParticleSummary := do
  let min ← l.effectiveMin
  let max ← l.effectiveMax
  let sought : Sought := ⟨.leaf l, some position⟩
  let overallMin ← root.overallMin sought limit
  let overallMax ← root.overallMax sought limit
  return {
    kind := if l.name.isSome then "element" else "any"
    name := l.name.map ExpandedName.clark
    occurs := l.occurs.bounds
    effective := ⟨min, max⟩
    emptiable := l.emptiable
    single := l.occurs.single
    overall := some ⟨overallMin, overallMax⟩
    particles := [] }

mutual

/-- What is known of a group that stands at a position in a model; the length of the position is the
group's depth. -/
def ofSubgroup (root : ModelGroup) (limit : DepthLimit) (position : Position) :
    ModelGroup → Except Error ParticleSummary
  | ⟨compositor, occurs, particles⟩ => do
    (limit.check position.length).mapError .depth
    let parts ← ofParticles root limit position 0 particles
    let g : ModelGroup := ⟨compositor, occurs, particles⟩
    let min ← g.effectiveMin 0 limit
    let max ← g.effectiveMax 0 limit
    return {
      kind := compositor.name
      name := none
      occurs := occurs.bounds
      effective := ⟨min, max⟩
      emptiable := g.emptiable
      single := g.single
      overall := none
      particles := parts }

/-- What is known of the particles of a group from an index on. -/
def ofParticles (root : ModelGroup) (limit : DepthLimit) (position : Position) (index : Nat) :
    List Particle → Except Error (List ParticleSummary)
  | [] => .ok []
  | .leaf l :: rest => do
    let head ← ofLeaf root limit (position ++ [index]) l
    let tail ← ofParticles root limit position (index + 1) rest
    return head :: tail
  | .group g :: rest => do
    let head ← ofSubgroup root limit (position ++ [index]) g
    let tail ← ofParticles root limit position (index + 1) rest
    return head :: tail

end

def ofGroup (g : ModelGroup) (limit : DepthLimit) : Except Error Summary :=
  (ofSubgroup g limit [] g).map Summary.mk

end Summary

end ContentModel
