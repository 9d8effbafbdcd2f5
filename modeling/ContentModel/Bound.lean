/-!
# Upper bounds of a count

The greatest number of times something may occur is a 32-bit number or *unbounded*. Sums and
products are those of the naturals with infinity: zero times unbounded is zero, and a result that
does not fit into 32 bits is unbounded. Since every overflow ends in the greatest element, the order
in which a long sum or product is taken does not show.
-/

set_option autoImplicit false

namespace ContentModel

/-- The greatest number of times something may occur. -/
inductive Bound
  | finite (n : UInt32)
  | unbounded
  deriving DecidableEq

namespace Bound

def size : Nat := 4294967296

/-- The least bound that admits a count of `n`: the number itself where it fits. -/
def ofNat (n : Nat) : Bound :=
  if n < size then finite (UInt32.ofNat n) else unbounded

/-- A bound is at most another when it admits no count that the other refuses. -/
def le : Bound → Bound → Prop
  | _, unbounded => True
  | finite a, finite b => a ≤ b
  | unbounded, finite _ => False

instance : LE Bound := ⟨le⟩

instance decidableLE : DecidableRel ((· ≤ ·) : Bound → Bound → Prop)
  | finite _, unbounded => isTrue trivial
  | unbounded, unbounded => isTrue trivial
  | finite a, finite b => inferInstanceAs (Decidable (a ≤ b))
  | unbounded, finite _ => isFalse id

instance : Max Bound := ⟨fun a b => if a ≤ b then b else a⟩

def mul : Bound → Bound → Bound
  | finite a, finite b => ofNat (a.toNat * b.toNat)
  | finite a, unbounded => if a = 0 then finite 0 else unbounded
  | unbounded, finite b => if b = 0 then finite 0 else unbounded
  | unbounded, unbounded => unbounded

def add : Bound → Bound → Bound
  | finite a, finite b => ofNat (a.toNat + b.toNat)
  | _, _ => unbounded

def sum (bs : List Bound) : Bound := bs.foldr add (finite 0)

def text : Bound → String
  | finite n => toString n.toNat
  | unbounded => "unbounded"

end Bound

end ContentModel
