import ContentModel.Error

/-!
# Depth limits

A walk over a model counts how deep it is: the group it starts at has a depth chosen by the caller,
each nested group one more. A limit is the greatest depth a group may be reached at.

Whoever chooses a depth or a limit writes it as a machine word, and words wrap around. A calculation
that counts from its own root outwards never comes near the greatest word, so there a depth is a
plain number. `Depth` is what the two ways of counting have in common.
-/

set_option autoImplicit false

namespace ContentModel

/-! ## 1. Depths -/

/-- What depths are counted in. -/
class Depth (δ : Type) where
  toNat : δ → Nat
  /-- The depth so many levels further down. -/
  down : δ → Nat → δ
  down_zero : ∀ d, down d 0 = d
  down_down : ∀ d m n, down (down d m) n = down d (m + n)

instance : Depth Nat where
  toNat d := d
  down d n := d + n
  down_zero := Nat.add_zero
  down_down := Nat.add_assoc

@[simp] theorem Depth.down_nat (d n : Nat) : down d n = d + n := rfl

/-- Counted in machine words, a depth that no word can hold starts again from zero. -/
instance : Depth UInt64 where
  toNat := UInt64.toNat
  down d n := d + UInt64.ofNat n
  down_zero := UInt64.add_zero
  down_down d m n := by rw [UInt64.add_assoc, UInt64.ofNat_add]

/-! ## 2. Limits -/

/-- The greatest depth at which a group may be reached. -/
structure DepthLimit (δ : Type := Nat) where
  max : δ
  deriving DecidableEq

namespace DepthLimit

/-- The limit of walks for which nothing else was asked. -/
def standard : DepthLimit := ⟨15⟩

def strict : DepthLimit := ⟨8⟩

/-- For deep models that are known to be sound. -/
def permissive : DepthLimit := ⟨1000⟩

def check {δ : Type} [Depth δ] (limit : DepthLimit δ) (depth : δ) : Except DepthError Unit :=
  if Depth.toNat depth > Depth.toNat limit.max then
    .error ⟨Depth.toNat depth, Depth.toNat limit.max, none⟩
  else .ok ()

theorem check_of_le {limit : DepthLimit} {depth : Nat} (h : depth ≤ limit.max) :
    limit.check depth = .ok () := if_neg (Nat.not_lt.2 h)

theorem check_of_lt {limit : DepthLimit} {depth : Nat} (h : limit.max < depth) :
    limit.check depth = .error ⟨depth, limit.max, none⟩ := if_pos h

theorem le_of_check_ok {limit : DepthLimit} {depth : Nat} {u : Unit}
    (h : limit.check depth = .ok u) :
    depth ≤ limit.max := by
  refine Nat.not_lt.1 fun hlt => ?_
  rw [check_of_lt hlt] at h
  cases h

end DepthLimit

end ContentModel
