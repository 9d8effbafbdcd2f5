import ContentModel.Occurs

/-!
# Summaries of content models

A summary holds what the bounds of a model come to, particle by particle, in plain values: it can be
kept, compared and written down without the model. Bounds in a summary are what was written; nobody
promises that they are in order.
-/

set_option autoImplicit false

namespace ContentModel

/-- A pair of bounds as written. -/
structure Bounds where
  min : UInt32
  max : Bound
  deriving DecidableEq

def Occurs.bounds (o : Occurs) : Bounds := ⟨o.min, o.max⟩

/-- What is known of a particle. -/
structure ParticleSummary where
  /-- The compositor of a group; `element` or `any` for a leaf. -/
  kind : String
  name : Option String
  occurs : Bounds
  effective : Bounds
  emptiable : Bool
  single : Bool
  /-- The bounds within the whole model, of leaves only. -/
  overall : Option Bounds
  particles : List ParticleSummary

/-- What is known of a model. -/
structure Summary where
  root : ParticleSummary

/-! ## 1. Comparing -/

namespace ParticleSummary

mutual

def decEq : (a b : ParticleSummary) → Decidable (a = b)
  | ⟨k, n, o, e, m, s, v, ps⟩, ⟨k', n', o', e', m', s', v', ps'⟩ =>
    have := decEqList ps ps'
    decidable_of_iff
      (k = k' ∧ n = n' ∧ o = o' ∧ e = e' ∧ m = m' ∧ s = s' ∧ v = v' ∧ ps = ps') (by simp)

def decEqList : (as bs : List ParticleSummary) → Decidable (as = bs)
  | [], [] => isTrue rfl
  | [], _ :: _ => isFalse (by simp)
  | _ :: _, [] => isFalse (by simp)
  | a :: as, b :: bs =>
    have := a.decEq b
    have := decEqList as bs
    decidable_of_iff (a = b ∧ as = bs) (by simp)

end

instance : DecidableEq ParticleSummary := decEq

end ParticleSummary

instance : DecidableEq Summary := fun a b =>
  decidable_of_iff (a.root = b.root) (by cases a; cases b; simp)

/-! ## 2. Going through -/

namespace ParticleSummary

noncomputable def weight : List ParticleSummary → Nat
  | [] => 0
  | p :: rest => sizeOf p + weight rest

theorem weight_append (ps qs : List ParticleSummary) :
    weight (ps ++ qs) = weight ps + weight qs := by
  induction ps with
  | nil => exact (Nat.zero_add _).symm
  | cons p ps ih => rw [List.cons_append, weight, weight, ih, Nat.add_assoc]

theorem weight_particles_lt (p : ParticleSummary) : weight p.particles < sizeOf p := by
  have key : ∀ ps : List ParticleSummary, weight ps ≤ sizeOf ps := by
    intro ps
    induction ps with
    | nil => exact Nat.zero_le _
    | cons p ps ih =>
      rw [weight, List.cons.sizeOf_spec]
      omega
  obtain ⟨kind, name, occurs, effective, emptiable, single, overall, particles⟩ := p
  have := key particles
  simp only [mk.sizeOf_spec]
  omega

/-- Goes through the particles on a stack. What lies directly below the one that is taken off comes
on the stack in its place. -/
def unstack : List ParticleSummary → List ParticleSummary
  | [] => []
  | p :: rest => p :: unstack (p.particles ++ rest)
termination_by stack => weight stack
decreasing_by
  have := p.weight_particles_lt
  rw [weight_append, weight]
  omega

end ParticleSummary

/-- All particles of a summary in document order, the root first. -/
def Summary.toList (s : Summary) : List ParticleSummary := ParticleSummary.unstack [s.root]

end ContentModel
