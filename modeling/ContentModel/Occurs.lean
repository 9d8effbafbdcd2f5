import ContentModel.Bound
import ContentModel.Error

/-!
# Occurrence ranges

How many times a particle may occur: at least `min` and at most `max` times. The two are in order by
construction, so a range always admits some count, and one range restricts another exactly when its
ends lie within the other's.
-/

set_option autoImplicit false

namespace ContentModel

/-- A range of counts that is never empty. -/
structure Occurs where
  min : UInt32
  max : Bound
  min_le_max : Bound.finite min ≤ max
  deriving DecidableEq

namespace Occurs

/-! ## 1. Ranges -/

/-- What has to occur may occur. -/
theorem max_ne_zero_of_min {o : Occurs} (h : o.min ≠ 0) : o.max ≠ .finite 0 := by
  intro hmax
  have hle := o.min_le_max
  rw [hmax] at hle
  exact h (UInt32.le_zero_iff.1 hle)

def once : Occurs := ⟨1, .finite 1, by decide⟩

def optional : Occurs := ⟨0, .finite 1, by decide⟩

def zeroOrMore : Occurs := ⟨0, .unbounded, by decide⟩

def oneOrMore : Occurs := ⟨1, .unbounded, by decide⟩

def prohibited : Occurs := ⟨0, .finite 0, by decide⟩

instance : Inhabited Occurs := ⟨once⟩

def ofBounds (min : UInt32) (max : Bound) : Except ParseCause Occurs :=
  if h : Bound.finite min ≤ max then .ok ⟨min, max, h⟩
  else match max with
    | .finite n => .error (.reversed min n)
    | .unbounded => absurd trivial h

def bound? (v : Int) : Option UInt32 :=
  if 0 ≤ v ∧ v < Bound.size then some (UInt32.ofNat v.toNat) else none

/-- The range between two integers; a missing upper end is unbounded. -/
def ofInts (min : Int) (max : Option Int) : Except ParseCause Occurs := do
  let some low := bound? min | .error .minOutOfRange
  match max with
  | none => ofBounds low .unbounded
  | some v =>
    let some high := bound? v | .error .maxMalformed
    ofBounds low (.finite high)

/-! ## 2. Predicates -/

def emptiable (o : Occurs) : Bool := o.min == 0

def empty (o : Occurs) : Bool := o.max == .finite 0

/-- The particle occurs at most once, and may occur. -/
def single (o : Occurs) : Bool := o.max == .finite 1

def multiple (o : Occurs) : Bool := !o.empty && !o.single

def ambiguous (o : Occurs) : Bool := o.max != .finite o.min

def univocal (o : Occurs) : Bool := !o.ambiguous

def missing (o : Occurs) (n : UInt32) : Bool := n < o.min

def full (o : Occurs) (n : UInt32) : Bool := o.max ≤ .finite n

def exceeded (o : Occurs) (n : UInt32) : Bool := !(Bound.finite n ≤ o.max : Bool)

/-- Whether the range stays within another. A range that ends at zero is taken to end within any
other, whether or not that one has an upper end. -/
def restricts (o base : Occurs) : Bool :=
  if o.min < base.min then false
  else match o.max, base.max with
    | .finite 0, _ => true
    | _, .unbounded => true
    | .unbounded, .finite _ => false
    | .finite m, .finite n => m ≤ n

def text (o : Occurs) : String := "(" ++ toString o.min.toNat ++ ", " ++ o.max.text ++ ")"

end Occurs

end ContentModel
