import ContentModel.Proofs.Bound.Exact

/-!
# Folds of bounds

Products, sums and maxima of bounds are taken over lists of any length, and each step on the way may
leave the 32 bits. `Proofs.Bound.Exact` says that one step is a step on exact numbers, truncated.
This file draws the conclusion for whole folds:

> **a fold of bounds is the fold of the numbers they stand for, truncated once**
> (`Bound.product_map_ofENat`, `Bound.sum_map_ofENat`, `Bound.max?_map_ofENat`).

On exact numbers neither the order nor the grouping of the operands matters, so it does not matter
for bounds either, wherever the overflow happens and whatever zero is met after it. In particular a
sum may be taken from the left and be given up at the first summand that does not fit
(`Bound.sum_eq_foldlM`), and a maximum may be taken in one pass (`Bound.max?_eq_foldl`).
-/

set_option autoImplicit false

namespace ContentModel.Bound

variable {bs cs : List Bound}

/-! ## 1. Single products -/

/-- Every bound is what some number is truncated to. -/
theorem exists_ofENat (b : Bound) : ∃ x : ℕ∞, ofENat x = b := ⟨b.toENat, ofENat_toENat b⟩

protected theorem mul_comm (a b : Bound) : a.mul b = b.mul a := by
  rw [mul_eq_ofENat, mul_eq_ofENat, mul_comm]

/-- An overflow in one of the products is no matter, even where the third factor is zero. -/
protected theorem mul_assoc (a b c : Bound) : (a.mul b).mul c = a.mul (b.mul c) := by
  obtain ⟨x, rfl⟩ := exists_ofENat a
  obtain ⟨y, rfl⟩ := exists_ofENat b
  obtain ⟨z, rfl⟩ := exists_ofENat c
  rw [← ofENat_mul, ← ofENat_mul, ← ofENat_mul, ← ofENat_mul, mul_assoc]

/-! ## 2. Whole folds -/

/-- The product of some bounds, one after the other from the left. -/
def product (bs : List Bound) : Bound := bs.foldl mul (finite 1)

theorem foldl_mul_map_ofENat (x : ℕ∞) (xs : List ℕ∞) :
    (xs.map ofENat).foldl mul (ofENat x) = ofENat (x * xs.prod) := by
  induction xs generalizing x with
  | nil => rw [List.prod_nil, mul_one, List.map_nil, List.foldl_nil]
  | cons y ys ih => rw [List.map_cons, List.foldl_cons, ← ofENat_mul, ih, List.prod_cons, mul_assoc]

/-- **A product of any length may be truncated before or after it is taken.** -/
theorem product_map_ofENat (xs : List ℕ∞) : product (xs.map ofENat) = ofENat xs.prod := by
  have hone : ofENat 1 = finite 1 := ofENat_coe 1
  rw [product, ← hone, foldl_mul_map_ofENat, one_mul]

theorem map_ofENat_map_toENat (bs : List Bound) : (bs.map toENat).map ofENat = bs := by
  have hback : ofENat ∘ toENat = id := funext ofENat_toENat
  rw [List.map_map, hback, List.map_id]

/-- What comes out of a fold of truncated numbers does not depend on their order if it does not for
the numbers themselves. -/
theorem fold_perm {α β : Type} {fold : List Bound → β} {exact : List ℕ∞ → α} {truncate : α → β}
    (hfold : ∀ xs, fold (xs.map ofENat) = truncate (exact xs))
    (hexact : ∀ xs ys, xs.Perm ys → exact xs = exact ys) (h : bs.Perm cs) : fold bs = fold cs := by
  rw [← map_ofENat_map_toENat bs, ← map_ofENat_map_toENat cs, hfold, hfold,
    hexact _ _ (h.map toENat)]

/-- A fold of truncated numbers may be taken group by group if that is so for the numbers
themselves. -/
theorem fold_flatten {fold : List Bound → Bound} {exact : List ℕ∞ → ℕ∞}
    (hfold : ∀ xs, fold (xs.map ofENat) = ofENat (exact xs))
    (hexact : ∀ xss : List (List ℕ∞), exact xss.flatten = exact (xss.map exact))
    (bss : List (List Bound)) :
    fold bss.flatten = fold (bss.map fold) := by
  have hgroups : bss.map fold = ((bss.map (List.map toENat)).map exact).map ofENat := by
    rw [List.map_map, List.map_map]
    refine List.map_congr_left fun bs _ => ?_
    rw [Function.comp_apply, Function.comp_apply, ← hfold, map_ofENat_map_toENat]
  rw [hgroups, hfold, ← hexact, ← hfold, ← List.map_flatten, map_ofENat_map_toENat]

/-! ## 3. Maxima of groups -/

/-- The greatest number of all is the greatest of those that are greatest in their group. -/
theorem max?_flatten (xss : List (List ℕ∞)) :
    xss.flatten.max? = (xss.filterMap List.max?).max? := by
  refine Option.ext fun m => ?_
  rw [List.max?_eq_some_iff, List.max?_eq_some_iff]
  simp only [List.mem_flatten, List.mem_filterMap]
  constructor
  · rintro ⟨⟨xs, hxs, hm⟩, hle⟩
    refine ⟨⟨xs, hxs, List.max?_eq_some_iff.2 ⟨hm, fun x hx => hle x ⟨xs, hxs, hx⟩⟩⟩, ?_⟩
    rintro n ⟨ys, hys, hn⟩
    exact hle n ⟨ys, hys, List.max?_mem hn⟩
  · rintro ⟨⟨xs, hxs, hm⟩, hle⟩
    refine ⟨⟨xs, hxs, List.max?_mem hm⟩, ?_⟩
    rintro x ⟨ys, hys, hx⟩
    -- a group that holds something has a greatest member
    obtain ⟨n, hn⟩ := Option.isSome_iff_exists.1 (List.isSome_max?_of_mem hx)
    exact ((List.max?_eq_some_iff.1 hn).2 x hx).trans (hle n ⟨ys, hys, hn⟩)

/-- The same for bounds, a truncated maximum being the maximum of what is truncated. -/
theorem max?_flatten_bounds (bss : List (List Bound)) :
    bss.flatten.max? = (bss.filterMap List.max?).max? := by
  have hgroups : bss.filterMap List.max? =
      ((bss.map (List.map toENat)).filterMap List.max?).map ofENat := by
    rw [List.map_filterMap, List.filterMap_map]
    refine List.filterMap_congr fun bs _ => ?_
    rw [Function.comp_apply, ← max?_map_ofENat, map_ofENat_map_toENat]
  rw [hgroups, max?_map_ofENat, ← max?_flatten, ← max?_map_ofENat, ← List.map_flatten,
    map_ofENat_map_toENat]

/-! ## 4. Sums that stop -/

/-- One more summand, as long as the sum fits. -/
def addWithin (total : UInt32) : Bound → Option UInt32
  | finite n => if total.toNat + n.toNat < size then some (total + n) else none
  | unbounded => none

theorem addWithin_eq (total : UInt32) (b : Bound) :
    (addWithin total b).elim unbounded finite = (finite total).add b := by
  cases b with
  | unbounded => rfl
  | finite n =>
    rw [addWithin, add]
    split
    · rename_i hlt
      rw [ofNat_of_lt hlt, UInt32.ofNat_add, UInt32.ofNat_toNat, UInt32.ofNat_toNat]
      rfl
    · rename_i hge
      rw [ofNat_of_le (Nat.not_lt.1 hge)]
      rfl

protected theorem add_assoc (a b c : Bound) : (a.add b).add c = a.add (b.add c) := by
  obtain ⟨x, rfl⟩ := exists_ofENat a
  obtain ⟨y, rfl⟩ := exists_ofENat b
  obtain ⟨z, rfl⟩ := exists_ofENat c
  rw [← ofENat_add, ← ofENat_add, ← ofENat_add, ← ofENat_add, add_assoc]

/-- By induction over the summands: what has been added up so far is either all that the rest is
added to, or already beyond what the rest could change. -/
theorem foldlM_addWithin (total : UInt32) (bs : List Bound) :
    (bs.foldlM addWithin total).elim unbounded finite = (finite total).add (sum bs) := by
  induction bs generalizing total with
  | nil => exact (ofNat_toNat total).symm
  | cons b bs ih =>
    have hsum : sum (b :: bs) = b.add (sum bs) := rfl
    rw [List.foldlM_cons, hsum, ← Bound.add_assoc, ← addWithin_eq]
    cases addWithin total b with
    | none => exact (unbounded_add _).symm
    | some next => exact ih next

/-- **A sum may stop** at the first summand that is unbounded or takes it beyond 32 bits. -/
theorem sum_eq_foldlM (bs : List Bound) :
    sum bs = (bs.foldlM addWithin 0).elim unbounded finite := by
  obtain ⟨x, hx⟩ := exists_ofENat (sum bs)
  rw [foldlM_addWithin, ← hx, ← ofENat_zero, ← ofENat_add, zero_add]

/-! ## 5. Maxima one by one -/

/-- The greatest bound so far, one bound later. -/
def greater : Option Bound → Bound → Option Bound
  | _, unbounded | some unbounded, _ => some unbounded
  | none, finite n => some (finite n)
  | some (finite m), finite n => some (finite (max m n))

theorem greater_some (a b : Bound) : greater (some a) b = some (max a b) := by
  rw [max_eq]
  cases b with
  | unbounded => rw [if_pos (le_unbounded a), greater]
  | finite n => cases a with
    | unbounded =>
      rw [if_neg (not_unbounded_le_finite n)]
      rfl
    | finite m => exact congrArg some (apply_ite finite (m ≤ n) n m)

/-- **A maximum is found bound by bound**, where the first one that is unbounded decides. -/
theorem max?_eq_foldl (bs : List Bound) : bs.max? = bs.foldl greater none := by
  cases bs with
  | nil => rfl
  | cons b bs =>
    have hfirst : greater none b = some b := by cases b <;> rfl
    rw [List.max?_cons', List.foldl_cons, hfirst]
    exact (List.foldl_hom some greater_some).symm

/-! ## 6. The image of exact arithmetic -/

/-- **Bounds are the image of exact arithmetic.** Truncation to 32 bits commutes with products, with
sums and with maxima of any number of naturals or infinities, where zero times infinity is zero.
Hence a product may be regrouped and reordered although parts of it overflow, and so may folds: what
a list of bounds comes to depends neither on its order nor on whether it is taken in one go or group
by group. Both can be found in one pass from the left, where a sum may stop when it ceases to
fit. -/
theorem arithmetic_is_truncated :
    (∀ x y : ℕ∞, (ofENat x).mul (ofENat y) = ofENat (x * y)) ∧
    (∀ xs : List ℕ∞, product (xs.map ofENat) = ofENat xs.prod ∧
      sum (xs.map ofENat) = ofENat xs.sum ∧
      (xs.map ofENat).max? = xs.max?.map ofENat) ∧
    (∀ a b c : Bound, (a.mul b).mul c = a.mul (b.mul c) ∧ a.mul b = b.mul a) ∧
    (∀ bs cs : List Bound, bs.Perm cs →
      product bs = product cs ∧ sum bs = sum cs ∧ bs.max? = cs.max?) ∧
    (∀ bss : List (List Bound), product bss.flatten = product (bss.map product) ∧
      sum bss.flatten = sum (bss.map sum) ∧ bss.flatten.max? = (bss.filterMap List.max?).max?) ∧
    ∀ bs : List Bound, sum bs = (bs.foldlM addWithin 0).elim unbounded finite ∧
      bs.max? = bs.foldl greater none := by
  refine ⟨fun x y => (ofENat_mul x y).symm, ?_, ?_, ?_, ?_, ?_⟩
  · exact fun xs => ⟨product_map_ofENat xs, sum_map_ofENat xs, max?_map_ofENat xs⟩
  · exact fun a b c => ⟨Bound.mul_assoc a b c, Bound.mul_comm a b⟩
  · intro bs cs h
    refine ⟨?_, ?_, ?_⟩
    · exact fold_perm product_map_ofENat (fun _ _ h => h.prod_eq) h
    · exact fold_perm sum_map_ofENat (fun _ _ h => h.sum_eq) h
    · exact fold_perm max?_map_ofENat (fun _ _ h => max?_perm h) h
  · intro bss
    refine ⟨?_, ?_, max?_flatten_bounds bss⟩
    · exact fold_flatten product_map_ofENat (fun _ => List.prod_flatten) bss
    · exact fold_flatten sum_map_ofENat (fun _ => List.sum_flatten) bss
  · exact fun bs => ⟨sum_eq_foldlM bs, max?_eq_foldl bs⟩

/-- Two factors that overflow together come to zero with a third one, wherever it stands. -/
theorem arithmetic_is_truncated_overflow_before_zero :
    let bs := [finite 4294967295, finite 2, finite 0]
    let cs := [finite 0, finite 2, finite 4294967295]
    bs.Perm cs ∧ (finite 4294967295).mul (finite 2) = unbounded ∧ product bs = product cs ∧
      product cs = finite 0 := by
  intro bs cs
  have hperm : bs.Perm cs := by decide
  exact ⟨hperm, by decide, (arithmetic_is_truncated.2.2.2.1 bs cs hperm).1, by decide⟩

end ContentModel.Bound
