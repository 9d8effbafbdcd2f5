import ContentModel.Proofs.Presence

/-!
# When more may be missing after more occurrences

A particle is missing after some occurrences if more have to follow. One would expect that not to
come back once it is over, and for a range it does not. For a group there are two measures of what
is enough: no occurrence at all is judged by whether the group is emptiable, any other number by the
lower bound that it declares. A group may be emptiable by what it holds and declare a lower bound
all the same, so

> **nothing is missing after no occurrence and something is after one exactly if an emptiable
> particle declares more than one** (`Particle.missing_again_iff`),

and between other numbers of occurrences that cannot be.
-/

set_option autoImplicit false

namespace ContentModel

/-! ## 1. Ranges -/

theorem Occurs.missing_iff {o : Occurs} {n : UInt32} : o.missing n = true ↔ n < o.min := by
  simp [Occurs.missing]

theorem Occurs.missing_mono {o : Occurs} {m n : UInt32} (hlt : m < n) (hm : o.missing m = false) :
    o.missing n = false := by
  rw [Bool.eq_false_iff, ne_eq, missing_iff] at hm ⊢
  exact fun hn => hm (UInt32.lt_trans hlt hn)

/-! ## 2. Particles -/

namespace Particle

variable {p : Particle} {m n : UInt32}

theorem missing_zero_eq_false_iff : p.missing 0 = false ↔ p.emptiable = true := by
  simp [missing]

theorem missing_of_ne_zero (hn : n ≠ 0) : p.missing n = p.occurs.missing n := by
  simp [missing, hn]

/-- **Two counts**: what is missing after the greater and not after the smaller one is what an
emptiable particle declares, and the smaller one is zero. -/
theorem missing_again_iff (hlt : m < n) :
    p.missing m = false ∧ p.missing n = true ↔ m = 0 ∧ p.emptiable = true ∧ n < p.occurs.min := by
  have hn : n ≠ 0 := UInt32.pos_iff_ne_zero.1 (UInt32.lt_of_le_of_lt UInt32.zero_le hlt)
  rw [missing_of_ne_zero hn, Occurs.missing_iff]
  by_cases hm : m = 0
  · rw [hm, missing_zero_eq_false_iff]
    exact (and_iff_right rfl).symm
  · rw [missing_of_ne_zero hm]
    refine iff_of_false ?_ fun h => hm h.1
    rintro ⟨henough, hmissing⟩
    have hstill := Occurs.missing_mono hlt henough
    rw [Occurs.missing_iff.2 hmissing] at hstill
    cases hstill

/-- Once nothing is missing, nothing will be. -/
def MissingOnce (p : Particle) : Prop :=
  ∀ m n : UInt32, m < n → p.missing m = false → p.missing n = false

/-- The counts that matter are zero and one. -/
theorem missingOnce_iff : p.MissingOnce ↔ ¬ (p.emptiable = true ∧ 1 < p.occurs.min) := by
  constructor
  · rintro h ⟨hemptiable, hmin⟩
    obtain ⟨henough, hmissing⟩ :=
      (missing_again_iff (m := 0) (n := 1) (by decide)).2 ⟨rfl, hemptiable, hmin⟩
    rw [h 0 1 (by decide) henough] at hmissing
    cases hmissing
  · intro h m n hlt henough
    rw [Bool.eq_false_iff]
    intro hmissing
    obtain ⟨rfl, hemptiable, hmin⟩ := (missing_again_iff hlt).1 ⟨henough, hmissing⟩
    apply h ⟨hemptiable, UInt32.lt_of_le_of_lt _ hmin⟩
    simpa [UInt32.le_iff_toNat_le, UInt32.lt_iff_toNat_lt, Nat.succ_le_iff] using hlt

theorem missingOnce_leaf {l : Leaf} (hd : l.declared = true) : (leaf l).MissingOnce := by
  rw [missingOnce_iff]
  rintro ⟨hemptiable, hmin⟩
  have hzero : l.occurs.min = 0 := by
    simpa [emptiable, Leaf.emptiable_of_declared hd, Occurs.emptiable] using hemptiable
  simp [occurs, hzero] at hmin

/-- A group that declares more than one is emptiable only by what it holds. -/
theorem missingOnce_group {g : ModelGroup} :
    (group g).MissingOnce ↔
      ¬ (1 < g.occurs.min ∧
        (g.particles = [] ∨ g.compositor.Asks (·.emptiable = true) g.particles)) := by
  rw [missingOnce_iff]
  apply not_congr
  rw [and_comm]
  apply and_congr_right
  intro hmin
  have hne : g.occurs.min ≠ 0 := by
    rintro hzero
    simp [occurs, hzero] at hmin
  rw [emptiable, ModelGroup.emptiable_iff, ModelGroup.plainlyEmptiable_iff, or_iff_right hne]

/-- **Once nothing is missing, nothing will be**, for ranges, elements and wildcards; and for any
particle from the first occurrence on. What was enough with no occurrence at all is too little after
some exactly if these are less than the particle declares. For a group that happens exactly if it
declares more than one and is emptiable by what it holds. -/
theorem missing_monotone :
    (∀ (o : Occurs) (m n : UInt32), m < n → o.missing m = false → o.missing n = false) ∧
    (∀ l : Leaf, l.declared = true → (leaf l).MissingOnce) ∧
    (∀ (p : Particle) (m n : UInt32), m < n → p.missing m = false →
      (p.missing n = true ↔ m = 0 ∧ n < p.occurs.min)) ∧
    ∀ g : ModelGroup, (group g).MissingOnce ↔
      ¬ (1 < g.occurs.min ∧
        (g.particles = [] ∨ g.compositor.Asks (·.emptiable = true) g.particles)) := by
  refine ⟨fun o m n => Occurs.missing_mono, fun l => missingOnce_leaf, ?_,
    fun g => missingOnce_group⟩
  intro p m n hlt henough
  have hagain := missing_again_iff (p := p) hlt
  rw [and_iff_right henough] at hagain
  rw [hagain]
  refine and_congr_right fun hm => and_iff_right ?_
  rw [hm] at henough
  exact missing_zero_eq_false_iff.1 henough

/-- A sequence of an optional element that has to occur three times: no occurrence is enough, one is
not. -/
theorem not_missing_monotone :
    ¬ ∀ (p : Particle) (m n : UInt32), m < n → p.missing m = false → p.missing n = false := by
  intro h
  let a : Leaf := .element ⟨⟨none, "a"⟩, .optional, none⟩
  let g : ModelGroup := ⟨.sequence, ⟨3, .finite 3, by decide⟩, [.leaf a]⟩
  have hasks : g.compositor.Asks (·.emptiable = true) g.particles := by
    rw [Compositor.asks_singleton]
    rfl
  exact missingOnce_group.1 (h (group g)) ⟨by decide, .inr hasks⟩

/-- A sequence that has to occur three times: of an element that has to occur in it, one occurrence
is too few as none is, and from three on it is enough; of an optional element, none is enough and
two are not. -/
theorem missing_monotone_of_three :
    let a : Leaf := .element ⟨⟨none, "a"⟩, .once, none⟩
    let b : Leaf := .element ⟨⟨none, "b"⟩, .optional, none⟩
    let three : Leaf → Particle := fun l => .group ⟨.sequence, ⟨3, .finite 3, by decide⟩, [.leaf l]⟩
    (leaf a).MissingOnce ∧ (three a).MissingOnce ∧ (three a).missing 3 = false ∧
    (three a).missing 4 = false ∧
      (three b).missing 0 = false ∧ (three b).missing 2 = true := by
  intro a b three
  obtain ⟨-, hleaf, hcounts, hgroup⟩ := missing_monotone
  have honce : (three a).MissingOnce := by
    rw [hgroup, Compositor.asks_singleton]
    rintro ⟨-, hnil | ha⟩
    · cases hnil
    · cases ha
  have hnone : (three b).missing 0 = false := by
    rw [missing_zero_eq_false_iff]
    refine ModelGroup.emptiable_iff.2 (.inr ?_)
    rw [Compositor.asks_singleton]
    rfl
  have htwo : (three b).missing 2 = true :=
    (hcounts (three b) 0 2 (by decide) hnone).2 ⟨rfl, by decide⟩
  exact ⟨hleaf a rfl, honce, rfl, honce 3 4 (by decide) rfl, hnone, htwo⟩

end Particle

end ContentModel
