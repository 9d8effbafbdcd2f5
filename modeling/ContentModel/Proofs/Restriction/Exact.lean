import ContentModel.ModelGroup.Restriction
import ContentModel.Proofs.Bound.Exact

/-!
# Restriction of a leaf in exact arithmetic

A group restricts a leaf by what it adds up to, going by the ranges that the particles directly in
it declare. The counting stops short twice: minima stop at the top of 64 bits, maxima that leave the
32 bits become unbounded. Neither shows in the verdict:

> **a group restricts a leaf exactly when its declared totals, computed in `ℕ` and `ℕ∞`, lie within
> the leaf's range** (`restricts_iff_declared`).

For the minima that is because the top is above every bound, so that a total cut off at it passes
the same comparisons (`minTotal_eq`); for the maxima because truncation is a homomorphism
(`maxTotal_eq`).
-/

set_option autoImplicit false

namespace ContentModel

/-! ## 1. Declared totals -/

theorem min?_perm {xs ys : List ℕ} (h : xs.Perm ys) : xs.min? = ys.min? := by
  refine Option.ext fun a => ?_
  rw [List.min?_eq_some_iff, List.min?_eq_some_iff, h.mem_iff]
  simp only [h.mem_iff]

namespace Compositor

/-- What one round of a group adds up to at least, from what its particles do: the smallest in a
choice, the sum in any other group. -/
def roundMin : Compositor → List ℕ → ℕ
  | choice, mins => mins.min?.getD 0
  | sequence, mins | all, mins => mins.sum

/-- What one round of a group adds up to at most. -/
noncomputable def roundMax : Compositor → List ℕ∞ → ℕ∞
  | choice, maxima => maxima.max?.getD 0
  | sequence, maxima | all, maxima => maxima.sum

theorem roundMin_perm (c : Compositor) {mins mins' : List ℕ} (h : mins.Perm mins') :
    c.roundMin mins = c.roundMin mins' := by
  cases c with
  | choice => rw [roundMin, roundMin, min?_perm h]
  | sequence | all => exact h.sum_eq

theorem roundMax_perm (c : Compositor) {maxima maxima' : List ℕ∞} (h : maxima.Perm maxima') :
    c.roundMax maxima = c.roundMax maxima' := by
  cases c with
  | choice => rw [roundMax, roundMax, Bound.max?_perm h]
  | sequence | all => exact h.sum_eq

end Compositor

namespace ModelGroup

/-- What the group adds up to at least, by the ranges that its particles declare. -/
def declaredMin (g : ModelGroup) : ℕ :=
  g.occurs.min.toNat * g.compositor.roundMin (g.particles.map fun p => p.occurs.min.toNat)

/-- What the group adds up to at most, by the ranges that its particles declare. -/
noncomputable def declaredMax (g : ModelGroup) : ℕ∞ :=
  g.occurs.max.toENat * g.compositor.roundMax (g.particles.map fun p => p.occurs.max.toENat)

end ModelGroup

/-! ## 2. Counts that stop at the top -/

/-- A sum that stops at a top on the way is the sum stopped at the top at its end. -/
theorem foldl_min_add (top : ℕ) : ∀ (xs : List ℕ) {n : ℕ}, n ≤ top →
    xs.foldl (fun n m => min (n + m) top) n = min (n + xs.sum) top
  | [], n, h => (Nat.min_eq_left h).symm
  | x :: xs, n, h => by
    rw [List.foldl_cons, foldl_min_add top xs (Nat.min_le_right _ _), List.sum_cons]
    omega

namespace ModelGroup

theorem minTotal_eq (g : ModelGroup) : g.minTotal = min g.declaredMin countTop := by
  unfold minTotal declaredMin
  dsimp only
  cases g.compositor with
  | choice => rfl
  | sequence | all =>
    dsimp only [Compositor.roundMin]
    rw [foldl_min_add countTop _ (Nat.zero_le _), Nat.zero_add, min_mul_min]

theorem maxTotal_eq (g : ModelGroup) : g.maxTotal = Bound.ofENat g.declaredMax := by
  have hmaxima : (g.particles.map fun p => p.occurs.max) =
      (g.particles.map fun p => p.occurs.max.toENat).map Bound.ofENat := by
    rw [List.map_map]
    exact List.map_congr_left fun p _ => (Bound.ofENat_toENat p.occurs.max).symm
  unfold maxTotal declaredMax
  dsimp only
  rw [hmaxima, Bound.ofENat_mul, Bound.ofENat_toENat]
  congr 1
  cases g.compositor with
  | choice =>
    dsimp only [Compositor.roundMax]
    rw [Bound.max?_map_ofENat]
    cases (g.particles.map fun p => p.occurs.max.toENat).max? with
    | none => exact Bound.ofENat_zero.symm
    | some x => rfl
  | sequence | all => exact Bound.sum_map_ofENat _

/-! ## 3. The verdict -/

theorem openEnded_iff {g : ModelGroup} :
    g.openEnded = true ↔
      g.occurs.max = .unbounded ∨ ∃ p ∈ g.particles, p.occurs.max = .unbounded := by
  rw [openEnded, Bool.or_eq_true, beq_iff_eq, List.any_eq_true]
  simp only [beq_iff_eq]

/-- Any bound is far below the top of the count. -/
theorem le_minTotal_iff {g : ModelGroup} {n : UInt32} :
    n.toNat ≤ g.minTotal ↔ n.toNat ≤ g.declaredMin := by
  have htop : n.toNat ≤ countTop := Nat.le_trans (Nat.le_of_lt (Bound.toNat_lt_size n)) (by decide)
  rw [minTotal_eq, Nat.le_min, and_iff_left htop]

theorem restrictsLeaf_iff {g : ModelGroup} (hne : g.particles ≠ []) (base : Occurs) :
    g.restrictsLeaf base = true ↔
      base.min.toNat ≤ g.declaredMin ∧
        (base.max = .unbounded ∨ g.openEnded = false ∧ g.declaredMax ≤ base.max.toENat) := by
  rw [restrictsLeaf, if_neg (by rw [List.isEmpty_iff]; exact hne)]
  cases ho : g.openEnded with
  | true =>
    rw [if_pos rfl, Bool.and_eq_true, beq_iff_eq, decide_eq_true_eq, le_minTotal_iff]
    simp [and_comm]
  | false =>
    rw [if_neg Bool.false_ne_true, Bool.and_eq_true, decide_eq_true_eq, decide_eq_true_eq,
      le_minTotal_iff, maxTotal_eq, Bound.ofENat_le_iff]
    refine and_congr_right fun _ => ⟨fun h => .inr ⟨rfl, h⟩, ?_⟩
    rintro (h | ⟨-, h⟩)
    · rw [h]
      exact le_top
    · exact h

theorem openEnded_eq_false_iff {g : ModelGroup} :
    g.openEnded = false ↔
      g.occurs.max ≠ .unbounded ∧ ∀ p ∈ g.particles, p.occurs.max ≠ .unbounded := by
  rw [← Bool.not_eq_true, openEnded_iff, not_or]
  simp only [not_exists, not_and, ne_eq]

/-- **The verdict of a group on a particle that is no group**, a leaf or a bare range, is exact: its
declared totals are compared as the numbers they are, and only a range without an upper bound is
wide enough where the group or one of its particles has none. -/
theorem restricts_iff_declared {g : ModelGroup} (hne : g.particles ≠ []) (base : Occurs) :
    let within : Prop := base.min.toNat ≤ g.declaredMin ∧
      (base.max = .unbounded ∨
        g.occurs.max ≠ .unbounded ∧ (∀ p ∈ g.particles, p.occurs.max ≠ .unbounded) ∧
          g.declaredMax ≤ base.max.toENat)
    ((Particle.group g).restrictsBounds base = true ↔ within) ∧
      ∀ b : Leaf, b.occurs = base → ((Particle.group g).restricts (.leaf b) = true ↔ within) := by
  intro within
  have hwithin : g.restrictsLeaf base = true ↔ within := by
    rw [restrictsLeaf_iff hne, openEnded_eq_false_iff, and_assoc]
  refine ⟨hwithin, fun b hb => ?_⟩
  rw [← hb] at hwithin
  exact hwithin

/-- Two elements that have to be there in a sequence that has to be repeated as often as a range can
say: twice the greatest bound is called for, which is no loss against a range that begins there, and
too much for one that ends there. -/
theorem restricts_iff_declared_twice_the_greatest :
    let top : Occurs := ⟨4294967295, .finite 4294967295, by decide⟩
    let fromTop : Occurs := ⟨4294967295, .unbounded, by decide⟩
    let one : Particle := .leaf (.element ⟨⟨none, "a"⟩, .once, none⟩)
    let g : ModelGroup := ⟨.sequence, top, [one, one]⟩
    g.particles ≠ [] ∧ (Particle.group g).restrictsBounds fromTop = true ∧
      (Particle.group g).restricts (.leaf (.wildcard ⟨.any, top⟩)) = false := by
  intro top fromTop one g
  have hne : g.particles ≠ [] := List.cons_ne_nil _ _
  have hmax : ¬ g.declaredMax ≤ top.max.toENat := by
    have hround : g.compositor.roundMax (g.particles.map fun p => p.occurs.max.toENat) =
        (2 : ℕ) := by
      show ((1 : ℕ) : ℕ∞) + ((1 : ℕ) + 0) = (2 : ℕ)
      rw [add_zero, ← ENat.natCast_add]
    rw [declaredMax, hround]
    show ¬ ((4294967295 : ℕ) : ℕ∞) * (2 : ℕ) ≤ (4294967295 : ℕ)
    rw [← ENat.natCast_mul, Nat.cast_le]
    decide
  refine ⟨hne, ((restricts_iff_declared hne fromTop).1).2 ⟨by decide, .inl rfl⟩, ?_⟩
  refine Bool.eq_false_iff.2 fun h => ?_
  obtain ⟨-, h | ⟨-, -, h⟩⟩ :=
    ((restricts_iff_declared hne top).2 (.wildcard ⟨.any, top⟩) rfl).1 h
  · cases h
  · exact hmax h

end ModelGroup

end ContentModel
