import ContentModel.Bound
import Mathlib.Data.ENat.Lattice

/-!
# Bounds and exact arithmetic

A bound is what 32 bits can tell of a natural number or infinity: `Bound.ofENat` keeps the numbers
that fit and sends all others to *unbounded*. The one fact that the rest of the development needs is
that this map loses nothing that a product or a maximum could notice later:

> **`ofENat` is a homomorphism.** A product of truncated factors is the truncated product, and the
> greatest of truncated numbers is the truncation of the greatest.

So a computation on bounds, however long, may be followed in `ℕ∞` and truncated once at its end. The
case that makes this more than a remark is zero: a product that has left the 32 bits, and so is
unbounded, still meets a zero later, and zero wins on either side.
-/

set_option autoImplicit false

namespace ContentModel

theorem le_max?_getD {xs : List ℕ∞} {x : ℕ∞} (h : x ∈ xs) : x ≤ xs.max?.getD 0 := by
  cases hm : xs.max? with
  | none =>
    rw [List.max?_eq_none_iff.1 hm] at h
    cases h
  | some m => exact (List.max?_eq_some_iff.1 hm).2 x h

/-- A factor that stops at the top of a product is no loss if the product stops there too. -/
theorem min_mul_min (m n top : ℕ) : min (m * min n top) top = min (m * n) top := by
  by_cases h : n ≤ top
  · rw [Nat.min_eq_left h]
  · rw [Nat.min_eq_right (Nat.le_of_not_le h)]
    rcases Nat.eq_zero_or_pos m with rfl | hm
    · rw [Nat.zero_mul, Nat.zero_mul]
    · have htop : top ≤ m * top := Nat.le_mul_of_pos_left top hm
      have hn : m * top ≤ m * n := Nat.mul_le_mul_left m (Nat.le_of_not_le h)
      rw [Nat.min_eq_right htop, Nat.min_eq_right (Nat.le_trans htop hn)]

namespace Bound

/-- The number that a bound stands for. -/
def toENat : Bound → ℕ∞
  | finite n => (n.toNat : ℕ∞)
  | unbounded => ⊤

/-- The bound that stands for a number: the number where it fits, and unbounded otherwise. -/
noncomputable def ofENat (x : ℕ∞) : Bound := ENat.recTopCoe unbounded ofNat x

@[simp] theorem ofENat_top : ofENat ⊤ = unbounded := rfl

@[simp] theorem ofENat_coe (n : ℕ) : ofENat (n : ℕ∞) = ofNat n := rfl

/-! ## 1. Numbers that fit -/

theorem ofNat_of_lt {n : ℕ} (h : n < size) : ofNat n = finite (UInt32.ofNat n) := if_pos h

theorem ofNat_of_le {n : ℕ} (h : size ≤ n) : ofNat n = unbounded := if_neg (Nat.not_lt.2 h)

theorem toNat_lt_size (n : UInt32) : n.toNat < size := n.toNat_lt

@[simp] theorem ofNat_toNat (n : UInt32) : ofNat n.toNat = finite n := by
  rw [ofNat_of_lt (toNat_lt_size n), UInt32.ofNat_toNat]

@[simp] theorem ofENat_toENat (b : Bound) : ofENat b.toENat = b := by
  cases b with
  | finite n => exact ofNat_toNat n
  | unbounded => rfl

theorem toNat_ofNat_of_lt {n : ℕ} (h : n < size) : (UInt32.ofNat n).toNat = n :=
  UInt32.toNat_ofNat_of_lt' h

theorem finite_injective {a b : UInt32} (h : finite a = finite b) : a = b := by
  cases h
  rfl

/-- Only zero is truncated to zero: what does not fit becomes unbounded, never small. -/
theorem ofNat_eq_zero {n : ℕ} : ofNat n = finite 0 ↔ n = 0 := by
  constructor
  · intro h
    by_cases hn : n < size
    · rw [ofNat_of_lt hn] at h
      have h₀ := congrArg UInt32.toNat (finite_injective h)
      rw [toNat_ofNat_of_lt hn] at h₀
      exact h₀
    · rw [ofNat_of_le (Nat.not_lt.1 hn)] at h
      cases h
  · intro h
    rw [h]
    exact ofNat_toNat 0

theorem ofENat_eq_zero {x : ℕ∞} : ofENat x = finite 0 ↔ x = 0 := by
  cases x with
  | top => exact ⟨fun h => Bound.noConfusion h, fun h => absurd h (by simp)⟩
  | coe n =>
    rw [ofENat_coe, ofNat_eq_zero]
    exact Nat.cast_eq_zero.symm

@[simp] theorem ofENat_zero : ofENat 0 = finite 0 := ofENat_eq_zero.2 rfl

theorem toENat_eq_zero {b : Bound} : b.toENat = 0 ↔ b = finite 0 := by
  rw [← ofENat_eq_zero, ofENat_toENat]

theorem toENat_eq_top {b : Bound} : b.toENat = ⊤ ↔ b = unbounded := by
  cases b with
  | finite n => exact ⟨fun h => absurd h (by simp [toENat]), fun h => Bound.noConfusion h⟩
  | unbounded => exact ⟨fun _ => rfl, fun _ => rfl⟩

/-! ## 2. Products -/

theorem unbounded_mul (b : Bound) :
    unbounded.mul b = if b = finite 0 then finite 0 else unbounded := by
  cases b with
  | finite n =>
    by_cases h : n = 0
    · rw [h]
      rfl
    · rw [mul, if_neg h, if_neg fun e => h (finite_injective e)]
  | unbounded => rfl

theorem mul_unbounded (b : Bound) :
    b.mul unbounded = if b = finite 0 then finite 0 else unbounded := by
  cases b with
  | finite n =>
    by_cases h : n = 0
    · rw [h]
      rfl
    · rw [mul, if_neg h, if_neg fun e => h (finite_injective e)]
  | unbounded => rfl

/-- Two numbers may be truncated before they are multiplied. One that does not fit makes the product
not fit either, unless the other is zero. -/
theorem ofNat_mul (m n : ℕ) : ofNat (m * n) = (ofNat m).mul (ofNat n) := by
  by_cases hm : m < size
  · by_cases hn : n < size
    · rw [ofNat_of_lt hm, ofNat_of_lt hn, mul, toNat_ofNat_of_lt hm, toNat_ofNat_of_lt hn]
    · have hn := Nat.not_lt.1 hn
      rw [ofNat_of_le hn, mul_unbounded]
      by_cases h₀ : m = 0
      · rw [if_pos (ofNat_eq_zero.2 h₀), h₀, Nat.zero_mul]
        exact ofNat_toNat 0
      · rw [if_neg (mt ofNat_eq_zero.1 h₀)]
        exact ofNat_of_le (Nat.le_trans hn (Nat.le_mul_of_pos_left n (Nat.pos_of_ne_zero h₀)))
  · have hm := Nat.not_lt.1 hm
    rw [ofNat_of_le hm, unbounded_mul]
    by_cases h₀ : n = 0
    · rw [if_pos (ofNat_eq_zero.2 h₀), h₀, Nat.mul_zero]
      exact ofNat_toNat 0
    · rw [if_neg (mt ofNat_eq_zero.1 h₀)]
      exact ofNat_of_le (Nat.le_trans hm (Nat.le_mul_of_pos_right m (Nat.pos_of_ne_zero h₀)))

/-- **A product may be truncated before or after it is taken.** -/
theorem ofENat_mul (x y : ℕ∞) : ofENat (x * y) = (ofENat x).mul (ofENat y) := by
  cases x with
  | top =>
    rw [ENat.top_mul', ofENat_top, unbounded_mul]
    by_cases h : y = 0
    · rw [if_pos h, if_pos (ofENat_eq_zero.2 h), ofENat_zero]
    · rw [if_neg h, if_neg (mt ofENat_eq_zero.1 h), ofENat_top]
  | coe m =>
    cases y with
    | top =>
      rw [ENat.mul_top', ofENat_top, mul_unbounded]
      by_cases h : (m : ℕ∞) = 0
      · rw [if_pos h, if_pos (ofENat_eq_zero.2 h), ofENat_zero]
      · rw [if_neg h, if_neg (mt ofENat_eq_zero.1 h), ofENat_top]
    | coe n =>
      rw [← ENat.natCast_mul, ofENat_coe, ofENat_coe, ofENat_coe]
      exact ofNat_mul m n

theorem mul_eq_ofENat (b c : Bound) : b.mul c = ofENat (b.toENat * c.toENat) := by
  rw [ofENat_mul, ofENat_toENat, ofENat_toENat]

/-! ## 3. Maxima -/

theorem le_unbounded (b : Bound) : b ≤ unbounded := by
  cases b <;> exact trivial

theorem not_unbounded_le_finite (n : UInt32) : ¬ unbounded ≤ finite n := fun h => h

theorem max_eq (a b : Bound) : max a b = if a ≤ b then b else a := rfl

theorem ofNat_le_ofNat {m n : ℕ} (h : m ≤ n) : ofNat m ≤ ofNat n := by
  by_cases hn : n < size
  · have hm := Nat.lt_of_le_of_lt h hn
    rw [ofNat_of_lt hm, ofNat_of_lt hn]
    show UInt32.ofNat m ≤ UInt32.ofNat n
    rw [UInt32.le_iff_toNat_le, toNat_ofNat_of_lt hm, toNat_ofNat_of_lt hn]
    exact h
  · rw [ofNat_of_le (Nat.not_lt.1 hn)]
    exact le_unbounded _

theorem le_antisymm {a b : Bound} (h : a ≤ b) (h' : b ≤ a) : a = b := by
  cases a with
  | finite m =>
    cases b with
    | finite n =>
      have hm : m ≤ n := h
      have hn : n ≤ m := h'
      rw [UInt32.le_antisymm hm hn]
    | unbounded => exact absurd h' (not_unbounded_le_finite m)
  | unbounded =>
    cases b with
    | finite n => exact absurd h (not_unbounded_le_finite n)
    | unbounded => rfl

theorem ofENat_le_ofENat {x y : ℕ∞} (h : x ≤ y) : ofENat x ≤ ofENat y := by
  cases y with
  | top => exact le_unbounded _
  | coe n =>
    cases x with
    | top => exact absurd h (by simp)
    | coe m => exact ofNat_le_ofNat (Nat.cast_le.1 h)

/-- **The greater of two numbers may be truncated before or after it is chosen.** -/
theorem ofENat_max (x y : ℕ∞) : ofENat (max x y) = max (ofENat x) (ofENat y) := by
  rw [max_eq]
  rcases le_total x y with h | h
  · rw [max_eq_right h, if_pos (ofENat_le_ofENat h)]
  · rw [max_eq_left h]
    by_cases h' : ofENat x ≤ ofENat y
    · rw [if_pos h']
      exact le_antisymm h' (ofENat_le_ofENat h)
    · rw [if_neg h']

theorem max?_perm {xs ys : List ℕ∞} (h : xs.Perm ys) : xs.max? = ys.max? := by
  refine Option.ext fun a => ?_
  rw [List.max?_eq_some_iff, List.max?_eq_some_iff, h.mem_iff]
  simp only [h.mem_iff]

theorem max?_map_ofENat (xs : List ℕ∞) : (xs.map ofENat).max? = xs.max?.map ofENat := by
  cases xs with
  | nil => rfl
  | cons x xs =>
    rw [List.map_cons, List.max?_cons', List.max?_cons', Option.map_some, Option.some.injEq]
    induction xs generalizing x with
    | nil => rfl
    | cons y ys ih => rw [List.map_cons, List.foldl_cons, List.foldl_cons, ← ofENat_max, ih]

/-! ## 4. Sums -/

theorem unbounded_add (b : Bound) : unbounded.add b = unbounded := by
  cases b <;> rfl

theorem add_unbounded (b : Bound) : b.add unbounded = unbounded := by
  cases b <;> rfl

/-- Two numbers may be truncated before they are added. -/
theorem ofNat_add (m n : ℕ) : ofNat (m + n) = (ofNat m).add (ofNat n) := by
  by_cases hm : m < size
  · by_cases hn : n < size
    · rw [ofNat_of_lt hm, ofNat_of_lt hn, add, toNat_ofNat_of_lt hm, toNat_ofNat_of_lt hn]
    · have hn := Nat.not_lt.1 hn
      rw [ofNat_of_le hn, add_unbounded]
      exact ofNat_of_le (Nat.le_trans hn (Nat.le_add_left n m))
  · have hm := Nat.not_lt.1 hm
    rw [ofNat_of_le hm, unbounded_add]
    exact ofNat_of_le (Nat.le_trans hm (Nat.le_add_right m n))

/-- **A sum may be truncated before or after it is taken.** -/
theorem ofENat_add (x y : ℕ∞) : ofENat (x + y) = (ofENat x).add (ofENat y) := by
  cases x with
  | top => rw [top_add, ofENat_top, unbounded_add]
  | coe m =>
    cases y with
    | top => rw [add_top, ofENat_top, add_unbounded]
    | coe n =>
      rw [← ENat.natCast_add, ofENat_coe, ofENat_coe, ofENat_coe]
      exact ofNat_add m n

theorem sum_map_ofENat (xs : List ℕ∞) : sum (xs.map ofENat) = ofENat xs.sum := by
  induction xs with
  | nil => exact ofENat_zero.symm
  | cons x xs ih =>
    rw [List.sum_cons, ofENat_add, ← ih]
    rfl

/-! ## 5. Comparisons -/

/-- A number is truncated to at most a bound exactly when it is at most the number that the bound
stands for. -/
theorem ofENat_le_iff {x : ℕ∞} {b : Bound} : ofENat x ≤ b ↔ x ≤ b.toENat := by
  constructor
  · intro h
    cases b with
    | unbounded => exact le_top
    | finite n =>
      cases x with
      | top => exact absurd h (not_unbounded_le_finite n)
      | coe m =>
        rw [ofENat_coe] at h
        by_cases hm : m < size
        · rw [ofNat_of_lt hm] at h
          have hmn : UInt32.ofNat m ≤ n := h
          rw [UInt32.le_iff_toNat_le, toNat_ofNat_of_lt hm] at hmn
          exact Nat.cast_le.2 hmn
        · rw [ofNat_of_le (Nat.not_lt.1 hm)] at h
          exact absurd h (not_unbounded_le_finite n)
  · intro h
    have := ofENat_le_ofENat h
    rwa [ofENat_toENat] at this

theorem le_iff_toENat_le {a b : Bound} : a ≤ b ↔ a.toENat ≤ b.toENat := by
  rw [← ofENat_le_iff, ofENat_toENat]

theorem finite_zero_le (b : Bound) : finite 0 ≤ b := by
  rw [le_iff_toENat_le, toENat_eq_zero.2 rfl]
  exact bot_le

theorem le_trans {a b c : Bound} (h : a ≤ b) (h' : b ≤ c) : a ≤ c := by
  rw [le_iff_toENat_le] at h h' ⊢
  exact h.trans h'

theorem eq_unbounded_of_size_le {b : Bound} (h : (size : ℕ∞) ≤ b.toENat) : b = unbounded := by
  cases b with
  | finite n => exact absurd (Nat.cast_le.1 h) (Nat.not_le.2 (toNat_lt_size n))
  | unbounded => rfl

theorem ofENat_eq_unbounded {x : ℕ∞} : ofENat x = unbounded ↔ (size : ℕ∞) ≤ x := by
  cases x with
  | top => exact ⟨fun _ => le_top, fun _ => rfl⟩
  | coe n =>
    rw [ofENat_coe, Nat.cast_le]
    constructor
    · intro h
      by_contra hlt
      rw [ofNat_of_lt (Nat.not_le.1 hlt)] at h
      cases h
    · exact ofNat_of_le

end Bound

end ContentModel
