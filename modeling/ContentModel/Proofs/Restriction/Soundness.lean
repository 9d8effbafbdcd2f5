import ContentModel.Proofs.Restriction.Totals

/-!
# When the restriction of a leaf is sound

A group that restricts a leaf should add up to no number that the leaf refuses. The check goes by
what the particles directly in the group declare, and a nested group can add up to more or less than
it declares: `sequence[sequence[a, b]]` declares a single item and gives two. So the verdict can be
wrong, and this file says when:

> **a group is right about every leaf exactly when the two ends of its totals lie within the ends
> that it declares** (`restrictsSoundly_iff`), as far as a range can tell them apart: no lower bound
> is above the greatest number of a range, and no upper bound is asked about where the declared one
> is unbounded.

It is right about every leaf, in particular, where every group directly in it keeps to the range
that it declares, as it does when it holds leaves only.
-/

set_option autoImplicit false

namespace ContentModel

/-- All numbers that the particle adds up to lie in the range. -/
def Particle.TotalsWithin (p : Particle) (o : Occurs) : Prop :=
  ∀ n, p.Total n → o.min.toNat ≤ n ∧ (n : ℕ∞) ≤ o.max.toENat

theorem Particle.totalsWithin_leaf (l : Leaf) : (Particle.leaf l).TotalsWithin l.occurs :=
  fun _ hn => Particle.total_leaf_iff.1 hn

/-- What a check by the two ends would compare. -/
theorem Particle.EndsReached.totalsWithin_iff {p : Particle} (hp : p.EndsReached) {o : Occurs} :
    p.TotalsWithin o ↔ o.min.toNat ≤ p.least ∧ p.greatest ≤ o.max.toENat := by
  constructor
  · intro h
    exact ⟨(h p.least hp.least).1, hp.greatest_le fun n hn => (h n hn).2⟩
  · rintro ⟨hmin, hmax⟩ n hn
    obtain ⟨hleast, hgreatest⟩ := p.total_bounds n hn
    exact ⟨Nat.le_trans hmin hleast, le_trans hgreatest hmax⟩

namespace ModelGroup

/-- The group adds up to no number that is outside the range of a leaf that it is said to
restrict. -/
def RestrictsSoundly (g : ModelGroup) : Prop :=
  ∀ b : Leaf, (Particle.group g).restricts (.leaf b) = true →
    (Particle.group g).TotalsWithin b.occurs

theorem restricts_leaf_iff {g : ModelGroup} (hne : g.particles ≠ []) (b : Leaf) :
    (Particle.group g).restricts (.leaf b) = true ↔
      b.occurs.min.toNat ≤ g.declaredMin ∧
        (b.occurs.max = .unbounded ∨ g.openEnded = false ∧ g.declaredMax ≤ b.occurs.max.toENat) :=
  restrictsLeaf_iff hne b.occurs

/-! ## 1. Leaves that put the verdict to the test -/

theorem exists_leaf_from {n : ℕ} (hn : n < Bound.size) :
    ∃ b : Leaf, b.occurs.min.toNat = n ∧ b.occurs.max = .unbounded :=
  ⟨.element ⟨⟨none, "b"⟩, ⟨UInt32.ofNat n, .unbounded, trivial⟩, none⟩, Bound.toNat_ofNat_of_lt hn,
    rfl⟩

theorem exists_leaf_to {n : ℕ} (hn : n < Bound.size) :
    ∃ b : Leaf, b.occurs.min.toNat = 0 ∧ b.occurs.max.toENat = n := by
  have horder : Bound.finite 0 ≤ Bound.finite (UInt32.ofNat n) := UInt32.zero_le
  refine ⟨.element ⟨⟨none, "b"⟩, ⟨0, .finite (UInt32.ofNat n), horder⟩, none⟩, rfl, ?_⟩
  exact congrArg Nat.cast (Bound.toNat_ofNat_of_lt hn)

variable {g : ModelGroup}

/-- A leaf that is required as often as the group declares, and no oftener. -/
theorem RestrictsSoundly.le_least (hs : g.RestrictsSoundly) (hg : g.Populated) :
    min g.declaredMin (Bound.size - 1) ≤ (Particle.group g).least := by
  have hlt : min g.declaredMin (Bound.size - 1) < Bound.size :=
    Nat.lt_of_le_of_lt (Nat.min_le_right _ _) (by decide)
  obtain ⟨b, hmin, hmax⟩ := exists_leaf_from hlt
  have hb : (Particle.group g).restricts (.leaf b) = true :=
    (restricts_leaf_iff (populated_iff.1 hg).1 b).2 ⟨hmin ▸ Nat.min_le_left _ _, .inl hmax⟩
  exact hmin ▸ ((endsReached hg).totalsWithin_iff.1 (hs b hb)).1

/-- A leaf that is allowed as often as the group declares, and no oftener. -/
theorem RestrictsSoundly.greatest_le (hs : g.RestrictsSoundly) (hg : g.Populated)
    (hclosed : g.openEnded = false) (hlt : g.declaredMax < Bound.size) :
    (Particle.group g).greatest ≤ g.declaredMax := by
  obtain ⟨n, hn⟩ := ENat.ne_top_iff_exists.1 (ne_top_of_lt hlt)
  rw [← hn, Nat.cast_lt] at hlt
  obtain ⟨b, hmin, hmax⟩ := exists_leaf_to hlt
  rw [← hn, ← hmax]
  have hb : (Particle.group g).restricts (.leaf b) = true := by
    refine (restricts_leaf_iff (populated_iff.1 hg).1 b).2
      ⟨hmin ▸ Nat.zero_le _, .inr ⟨hclosed, ?_⟩⟩
    exact le_of_eq (hn.symm.trans hmax.symm)
  exact ((endsReached hg).totalsWithin_iff.1 (hs b hb)).2

/-! ## 2. Groups that are right about every leaf -/

/-- A number lies in every range that the group restricts if no range sets it apart from the numbers
between the declared ends. -/
theorem within_of_restricts (hne : g.particles ≠ []) {b : Leaf}
    (hb : (Particle.group g).restricts (.leaf b) = true) {n : ℕ}
    (hmin : min g.declaredMin (Bound.size - 1) ≤ n)
    (hmax : g.openEnded = true ∨ (Bound.size : ℕ∞) ≤ g.declaredMax ∨ (n : ℕ∞) ≤ g.declaredMax) :
    b.occurs.min.toNat ≤ n ∧ (n : ℕ∞) ≤ b.occurs.max.toENat := by
  obtain ⟨hbmin, hbmax⟩ := (restricts_leaf_iff hne b).1 hb
  constructor
  · have hfits : b.occurs.min.toNat ≤ Bound.size - 1 := Nat.le_sub_one_of_lt (Bound.toNat_lt_size _)
    exact Nat.le_trans (Nat.le_min.2 ⟨hbmin, hfits⟩) hmin
  · rcases hbmax with hbmax | ⟨hclosed, hbmax⟩
    · rw [hbmax]
      exact le_top
    · rcases hmax with hopen | hbig | hmax
      · rw [hclosed] at hopen
        cases hopen
      · -- only an unbounded range reaches as far
        rw [Bound.eq_unbounded_of_size_le (le_trans hbig hbmax)]
        exact le_top
      · exact le_trans hmax hbmax

theorem restrictsSoundly_of_ends (hne : g.particles ≠ [])
    (hleast : min g.declaredMin (Bound.size - 1) ≤ (Particle.group g).least)
    (hgreatest : g.openEnded = true ∨ (Bound.size : ℕ∞) ≤ g.declaredMax ∨
      (Particle.group g).greatest ≤ g.declaredMax) : g.RestrictsSoundly := by
  intro b hb n hn
  obtain ⟨hmin, hmax⟩ := (Particle.group g).total_bounds n hn
  exact within_of_restricts hne hb (Nat.le_trans hleast hmin)
    (hgreatest.imp_right (Or.imp_right (le_trans hmax)))

/-- Where the groups directly in a group keep to the ranges they declare, its totals keep to its
declared ends. -/
theorem restrictsSoundly_of_totalsWithin (hne : g.particles ≠ [])
    (h : ∀ inner, .group inner ∈ g.particles → (Particle.group inner).TotalsWithin inner.occurs) :
    g.RestrictsSoundly := by
  have hall : ∀ p ∈ g.particles, p.TotalsWithin p.occurs := by
    intro p hp
    cases p with
    | leaf l => exact Particle.totalsWithin_leaf l
    | group inner => exact h inner hp
  intro b hb n hn
  obtain ⟨hmin, hmax⟩ := total_bounds_of hall hn
  exact within_of_restricts hne hb (Nat.le_trans (Nat.min_le_left _ _) hmin) (.inr (.inr hmax))

/-! ## 3. Around a single group -/

/-- The group with nothing around it but a group that occurs once. -/
def wrapped (g : ModelGroup) (c : Compositor) : ModelGroup := ⟨c, .once, [.group g]⟩

variable {c : Compositor}

theorem declaredMin_wrapped : (g.wrapped c).declaredMin = g.occurs.min.toNat := by
  show 1 * c.roundMin [g.occurs.min.toNat] = g.occurs.min.toNat
  rw [Compositor.roundMin_singleton, Nat.one_mul]

theorem declaredMax_wrapped : (g.wrapped c).declaredMax = g.occurs.max.toENat := by
  show (1 : ℕ) * c.roundMax [g.occurs.max.toENat] = g.occurs.max.toENat
  rw [Compositor.roundMax_singleton, Nat.cast_one, one_mul]

theorem least_wrapped : (Particle.group (g.wrapped c)).least = (Particle.group g).least := by
  rw [Particle.least_group]
  show 1 * c.roundMin [(Particle.group g).least] = (Particle.group g).least
  rw [Compositor.roundMin_singleton, Nat.one_mul]

theorem greatest_wrapped :
    (Particle.group (g.wrapped c)).greatest = (Particle.group g).greatest := by
  rw [Particle.greatest_group]
  show (1 : ℕ) * c.roundMax [(Particle.group g).greatest] = (Particle.group g).greatest
  rw [Compositor.roundMax_singleton, Nat.cast_one, one_mul]

theorem Populated.wrapped (hg : g.Populated) : (g.wrapped c).Populated := by
  refine populated_iff.2 ⟨List.cons_ne_nil _ _, fun h hm => ?_⟩
  cases List.mem_singleton.1 hm
  exact hg

/-- **Around a single group** the verdict is right only if that group keeps to the range it
declares. -/
theorem restrictsSoundly_wrapped_iff (hg : g.Populated) :
    (g.wrapped c).RestrictsSoundly ↔ (Particle.group g).TotalsWithin g.occurs := by
  constructor
  · intro hs
    refine (endsReached hg).totalsWithin_iff.2 ⟨?_, ?_⟩
    · have hleast := hs.le_least hg.wrapped
      have hmin : g.occurs.min.toNat ≤ Bound.size - 1 :=
        Nat.le_sub_one_of_lt (Bound.toNat_lt_size _)
      rwa [declaredMin_wrapped, least_wrapped, Nat.min_eq_left hmin] at hleast
    · cases hmax : g.occurs.max with
      | unbounded => exact le_top
      | finite n =>
        have hclosed : (g.wrapped c).openEnded = false := by
          refine openEnded_eq_false_iff.2 ⟨Bound.noConfusion, fun p hp => ?_⟩
          cases List.mem_singleton.1 hp
          exact hmax ▸ Bound.noConfusion
        have hlt : (g.wrapped c).declaredMax < Bound.size := by
          rw [declaredMax_wrapped, hmax]
          exact Nat.cast_lt.2 (Bound.toNat_lt_size n)
        have hgreatest := hs.greatest_le hg.wrapped hclosed hlt
        rwa [declaredMax_wrapped, greatest_wrapped, hmax] at hgreatest
  · intro h
    refine restrictsSoundly_of_totalsWithin (List.cons_ne_nil _ _) fun inner hm => ?_
    cases List.mem_singleton.1 hm
    exact h

/-- A sequence of `a` and `b`, which declares a single item. -/
def twoElements : ModelGroup :=
  ⟨.sequence, .once,
    [.leaf (.element ⟨⟨none, "a"⟩, .once, none⟩), .leaf (.element ⟨⟨none, "b"⟩, .once, none⟩)]⟩

theorem twoElements_populated : twoElements.Populated := by
  refine populated_iff.2 ⟨List.cons_ne_nil _ _, fun h hm => ?_⟩
  simp [twoElements] at hm

theorem twoElements_greatest : (Particle.group twoElements).greatest = (2 : ℕ) := by
  rw [Particle.greatest_group]
  show ((1 : ℕ) : ℕ∞) * ((1 : ℕ) + ((1 : ℕ) + 0)) = (2 : ℕ)
  rw [add_zero, ← ENat.natCast_add, ← ENat.natCast_mul]

theorem twoElements_not_totalsWithin :
    ¬ (Particle.group twoElements).TotalsWithin twoElements.occurs := by
  intro h
  have hle := ((endsReached twoElements_populated).totalsWithin_iff.1 h).2
  rw [twoElements_greatest] at hle
  exact absurd (Nat.cast_le.1 hle) (by decide)

/-- The second item is not seen through the sequence around it. -/
theorem not_restrictsSoundly : ¬ ∀ g : ModelGroup, g.Populated → g.RestrictsSoundly := by
  intro hall
  have hwrapped := hall (twoElements.wrapped .sequence) twoElements_populated.wrapped
  exact twoElements_not_totalsWithin
    ((restrictsSoundly_wrapped_iff twoElements_populated).1 hwrapped)

/-! ## 4. The condition in general -/

/-- **Soundness of the verdict on leaves**, for a group in which no group is childless. The verdict
folds the ranges that the particles directly in the group declare; carried down the whole tree, the
same fold gives the ends of the totals, and these have to lie between the declared ones. -/
theorem restrictsSoundly_iff (hg : g.Populated) :
    (g.RestrictsSoundly ↔
      min g.declaredMin (Bound.size - 1) ≤ (Particle.group g).least ∧
        (g.openEnded = true ∨ (Bound.size : ℕ∞) ≤ g.declaredMax ∨
          (Particle.group g).greatest ≤ g.declaredMax)) ∧
      ((∀ inner, .group inner ∈ g.particles → (Particle.group inner).TotalsWithin inner.occurs) →
        g.RestrictsSoundly) := by
  have hne : g.particles ≠ [] := (populated_iff.1 hg).1
  refine ⟨⟨fun hs => ⟨hs.le_least hg, ?_⟩, fun h => restrictsSoundly_of_ends hne h.1 h.2⟩,
    restrictsSoundly_of_totalsWithin hne⟩
  cases hopen : g.openEnded with
  | true => exact .inl rfl
  | false =>
    rcases le_or_gt (Bound.size : ℕ∞) g.declaredMax with hbig | hlt
    · exact .inr (.inl hbig)
    · exact .inr (.inr (hs.greatest_le hg hopen hlt))

/-- A choice between `a` and `b` in sequence and two times `c`: it gives two items either way and is
right about every leaf, though the sequence declares a single one. -/
theorem restrictsSoundly_iff_two_either_way :
    let c : Particle := .leaf (.element ⟨⟨none, "c"⟩, ⟨2, .finite 2, by decide⟩, none⟩)
    let g : ModelGroup := ⟨.choice, .once, [.group twoElements, c]⟩
    g.Populated ∧ ¬ (Particle.group twoElements).TotalsWithin twoElements.occurs ∧
    g.RestrictsSoundly := by
  intro c g
  have hg : g.Populated := by
    refine populated_iff.2 ⟨List.cons_ne_nil _ _, fun h hm => ?_⟩
    have hh : h = twoElements := by simpa [g, c] using hm
    exact hh ▸ twoElements_populated
  have hgreatest : (Particle.group g).greatest ≤ g.declaredMax := by
    rw [Particle.greatest_group]
    show ((1 : ℕ) : ℕ∞) * max (Particle.group twoElements).greatest (2 : ℕ) ≤
      ((1 : ℕ) : ℕ∞) * max (1 : ℕ) (2 : ℕ)
    rw [twoElements_greatest, max_self, max_eq_right (by decide)]
  exact ⟨hg, twoElements_not_totalsWithin,
    (restrictsSoundly_iff hg).1.2 ⟨by decide, .inr (.inr hgreatest)⟩⟩

end ModelGroup

end ContentModel
