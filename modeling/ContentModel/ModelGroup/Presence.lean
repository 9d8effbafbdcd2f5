import ContentModel.Particle

/-!
# Emptiable, empty and single groups

A group is *emptiable* when it may be absent or match nothing: its lower bound is zero, it has no
particles, it is a choice with an emptiable branch, or all of its particles are emptiable. Models
may be nested deeper than a call stack, so the verdict is found by a scan over a stack of its own:
each level holds the particles that were not looked at yet, and a level ends as soon as one of its
particles decides it. `Particle.emptiable` asks the same of any particle.
-/

set_option autoImplicit false

namespace ContentModel

/-! ## 1. Emptiable -/

/-- The lower bound is zero or there is nothing to match, so the particles do not matter. -/
def ModelGroup.plainlyEmptiable (g : ModelGroup) : Bool :=
  g.occurs.emptiable || g.particles.isEmpty

namespace Presence

/-- A group being judged: what is left of its particles. A choice is decided by a particle that is
emptiable, any other group by one that is not; both are said by `choice`. -/
structure Level where
  choice : Bool
  rest : List Particle

noncomputable def weight : List Level → Nat
  | [] => 0
  | v :: above => 1 + sizeOf v.rest + weight above

/-- The levels that a verdict on the level below leaves undecided. -/
def undecided (verdict : Bool) (levels : List Level) : List Level :=
  levels.dropWhile (·.choice == verdict)

theorem weight_undecided_le (verdict : Bool) (levels : List Level) :
    weight (undecided verdict levels) ≤ weight levels := by
  induction levels with
  | nil => simp [undecided]
  | cons v vs ih =>
    unfold undecided at ih ⊢
    rw [List.dropWhile_cons]
    split
    · simp only [weight] at ih ⊢
      omega
    · exact Nat.le_refl _

/-- Judges the levels, innermost first; `verdict` is the one last given, and stands when no level is
left. -/
def scan : List Level → Bool → Bool
  | [], verdict => verdict
  | ⟨choice, []⟩ :: above, _ => scan (undecided (!choice) above) !choice
  | ⟨choice, .leaf l :: rest⟩ :: above, verdict =>
    if l.emptiable == choice then scan (undecided choice above) choice
    else scan (⟨choice, rest⟩ :: above) verdict
  | ⟨choice, .group g :: rest⟩ :: above, verdict =>
    if g.plainlyEmptiable then
      if choice then scan (undecided true above) true else scan (⟨choice, rest⟩ :: above) verdict
    else scan (⟨g.compositor == .choice, g.particles⟩ :: ⟨choice, rest⟩ :: above) verdict
termination_by levels => weight levels
decreasing_by
  · have := weight_undecided_le (!choice) above
    simp only [weight] at this ⊢
    omega
  · have := weight_undecided_le choice above
    simp only [weight] at this ⊢
    omega
  · simp only [weight, List.cons.sizeOf_spec]
    omega
  · have := weight_undecided_le true above
    simp only [weight] at this ⊢
    omega
  · simp only [weight, List.cons.sizeOf_spec]
    omega
  · have := g.sizeOf_particles_lt
    simp only [weight, List.cons.sizeOf_spec,
      Particle.group.sizeOf_spec]
    omega

end Presence

/-- Whether the group may be absent or match nothing. -/
def ModelGroup.emptiable (g : ModelGroup) : Bool :=
  g.plainlyEmptiable || Presence.scan [⟨g.compositor == .choice, g.particles⟩] true

/-- Whether the particle may be absent or match nothing. -/
def Particle.emptiable : Particle → Bool
  | .leaf l => l.emptiable
  | .group g => g.emptiable

/-! ## 2. Empty, single, multiple -/

/-- The group can match nothing but the absence of content. -/
def ModelGroup.empty (g : ModelGroup) : Bool := g.particles.isEmpty || g.occurs.empty

/-- The group occurs at most once, and where it has but one particle, that one does too if it is a
group. -/
def ModelGroup.single : ModelGroup → Bool
  | ⟨_, o, [.group g]⟩ => o.single && g.single
  | ⟨_, o, ps⟩ => o.single && !ps.isEmpty

def Particle.empty : Particle → Bool
  | .leaf l => l.occurs.empty
  | .group g => g.empty

/-- The particle occurs at most once, and may occur. -/
def Particle.single : Particle → Bool
  | .leaf l => l.occurs.single
  | .group g => g.single

def Particle.multiple (p : Particle) : Bool := !p.empty && !p.single

/-- After `n` occurrences, more have to follow. None at all is enough for an emptiable particle. -/
def Particle.missing (p : Particle) (n : UInt32) : Bool :=
  if n = 0 then !p.emptiable else p.occurs.missing n

/-! ## 3. Pointless groups -/

/-- Whether a group may be replaced by its particles where it stands in a group of the given
compositor: it holds none, or it occurs exactly once and either holds a single particle or combines
its particles as its parent does. -/
def ModelGroup.pointless (g : ModelGroup) (parent : Compositor) : Bool :=
  match g.particles with
  | [] => true
  | [_] => g.occurs == .once
  | _ => g.occurs == .once && g.compositor == parent && g.compositor != .all

end ContentModel
