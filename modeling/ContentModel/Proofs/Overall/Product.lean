import ContentModel.Proofs.Overall

/-!
# The overall upper bound as a product

The overall upper bound of a particle multiplies its own by those of the groups around it, from the
outermost inwards. That is nearly their product in `ℕ∞`, truncated once. But once the multiplication
has come to an unbounded value it looks at no further group, and so a prohibited group further in
does not set it back to zero:

> **the bound is the product, unless what comes before the first zero does not fit into 32 bits**
> (`ModelGroup.overallMax_eq_product`); then it is unbounded.

The order of the factors matters here, as it does not to `Bound.mul`, where zero wins on either
side.
-/

set_option autoImplicit false

namespace ContentModel

namespace Overall

/-! ## 1. The running product -/

/-- The product of some upper bounds. -/
noncomputable def product (bounds : List Bound) : ℕ∞ := (bounds.map Bound.toENat).prod

/-- The product of those that come before the first zero. -/
noncomputable def beforeZero (bounds : List Bound) : ℕ∞ :=
  product (bounds.takeWhile (· ≠ .finite 0))

/-- The next bound is multiplied to the running product. -/
def running (b c : Bound) : Bound := if b = .unbounded then .unbounded else b.mul c

theorem max_eq_foldl (own : Bound) (groups : List ModelGroup) :
    Overall.max own groups = (groups.map (·.occurs.max)).foldl running own := by
  rw [List.foldl_map]
  rfl

variable {b c : Bound} {bounds : List Bound}

theorem product_cons : product (c :: bounds) = c.toENat * product bounds := by
  rw [product, List.map_cons, List.prod_cons, product]

theorem beforeZero_cons_zero : beforeZero (.finite 0 :: bounds) = 1 := by
  rw [beforeZero, List.takeWhile_cons_of_neg (by simp)]
  rfl

theorem beforeZero_cons_of_ne (h : c ≠ .finite 0) :
    beforeZero (c :: bounds) = c.toENat * beforeZero bounds := by
  have hkeep : decide (c ≠ .finite 0) = true := decide_eq_true h
  rw [beforeZero, List.takeWhile_cons, if_pos hkeep, product_cons, beforeZero]

theorem beforeZero_ne_zero (bounds : List Bound) : beforeZero bounds ≠ 0 := by
  induction bounds with
  | nil => exact one_ne_zero
  | cons c bounds ih =>
    by_cases h : c = .finite 0
    · rw [h, beforeZero_cons_zero]
      exact one_ne_zero
    · rw [beforeZero_cons_of_ne h]
      exact mul_ne_zero (mt Bound.toENat_eq_zero.1 h) ih

theorem running_of_ne (h : c ≠ .finite 0) : running b c = b.mul c := by
  unfold running
  by_cases hb : b = .unbounded
  · rw [if_pos hb, hb, Bound.unbounded_mul, if_neg h]
  · rw [if_neg hb]

theorem running_zero_of_ne (h : b ≠ .unbounded) : running b (.finite 0) = .finite 0 := by
  have hmul := Bound.ofENat_mul b.toENat 0
  rw [mul_zero, Bound.ofENat_toENat, Bound.ofENat_zero] at hmul
  rw [running, if_neg h]
  exact hmul.symm

/-- A factor may be truncated on the way. -/
theorem ofENat_mul_toENat (b c : Bound) (x : ℕ∞) :
    Bound.ofENat ((b.mul c).toENat * x) = Bound.ofENat (b.toENat * (c.toENat * x)) := by
  rw [← mul_assoc, Bound.ofENat_mul, Bound.ofENat_mul, Bound.ofENat_mul, Bound.ofENat_toENat,
    Bound.ofENat_toENat, Bound.ofENat_toENat]

/-- **The running product**, by induction over the bounds: what it has come to before the first zero
decides whether the zero is seen. -/
theorem foldl_running (b : Bound) (bounds : List Bound) :
    bounds.foldl running b =
      if Bound.ofENat (b.toENat * beforeZero bounds) = .unbounded then .unbounded
      else .ofENat (b.toENat * product bounds) := by
  induction bounds generalizing b with
  | nil =>
    show b = if Bound.ofENat (b.toENat * 1) = .unbounded then .unbounded else .ofENat (b.toENat * 1)
    rw [mul_one, Bound.ofENat_toENat]
    split
    · assumption
    · rfl
  | cons c bounds ih =>
    rw [List.foldl_cons, ih, product_cons]
    by_cases hc : c = .finite 0
    · have hzero : (Bound.finite 0).toENat = 0 := Bound.toENat_eq_zero.2 rfl
      rw [hc, beforeZero_cons_zero, mul_one, Bound.ofENat_toENat, hzero, zero_mul, mul_zero]
      by_cases hb : b = .unbounded
      · have hrun : running b (.finite 0) = .unbounded := if_pos hb
        have htop : Bound.unbounded.toENat * beforeZero bounds = ⊤ :=
          ENat.top_mul (beforeZero_ne_zero bounds)
        rw [hrun, if_pos hb, htop]
        exact if_pos rfl
      · rw [running_zero_of_ne hb, if_neg hb, hzero, zero_mul, zero_mul, Bound.ofENat_zero]
        exact if_neg Bound.noConfusion
    · rw [running_of_ne hc, beforeZero_cons_of_ne hc, ofENat_mul_toENat, ofENat_mul_toENat]

/-- **The fold along a chain of groups**, the particle's own bound coming first. -/
theorem max_eq (own : Bound) (groups : List ModelGroup) :
    let bounds := own :: groups.map (·.occurs.max)
    Overall.max own groups =
      if (Bound.size : ℕ∞) ≤ beforeZero bounds then .unbounded else .ofENat (product bounds) := by
  intro bounds
  have hone : (Bound.finite 1).toENat = 1 := Nat.cast_one
  have hown : running (.finite 1) own = own := by
    have hmul := Bound.ofENat_mul 1 own.toENat
    rw [one_mul, ← hone, Bound.ofENat_toENat, Bound.ofENat_toENat] at hmul
    exact (if_neg Bound.noConfusion).trans hmul.symm
  have hfold := foldl_running (.finite 1) bounds
  rw [List.foldl_cons, hown, hone, one_mul, one_mul] at hfold
  rw [max_eq_foldl, hfold]
  simp only [Bound.ofENat_eq_unbounded]

end Overall

/-! ## 2. Particles of a tree -/

namespace ModelGroup

variable {g : ModelGroup} {p : Particle} {i : Nat} {way : Position} {limit : DepthLimit}
  {around : List Ancestor}

/-- A search that succeeds finds the groups that the position leads through. -/
theorem enclosing_eq_ok (hp : g.particle? (i :: way) = some p)
    (hok : g.enclosing ⟨p, some (i :: way)⟩ limit = .ok around) : around = g.around (i :: way) := by
  by_cases hclear : g.Clear (limit.max + 1) 0 (i :: way)
  · rw [enclosing_of_clear rfl hp hclear] at hok
    exact (Except.ok.inj hok).symm
  · rw [enclosing_of_not_clear rfl hp hclear] at hok
    cases hok

/-- **The overall upper bound of a particle.** Its own bound and those of the groups around it, from
the outermost inwards, are multiplied in exact arithmetic, and the product is truncated; but where
the product of those before the first zero is infinite or does not fit, the zero is not seen, and
the bound is unbounded. -/
theorem overallMax_eq_product (hp : g.particle? (i :: way) = some p)
    (hok : g.enclosing ⟨p, some (i :: way)⟩ limit = .ok around) :
    let bounds := p.occurs.max :: around.map (·.group.occurs.max)
    (around.length = way.length + 1 ∧
      ∀ k, k ≤ way.length → (around[k]?).map (·.group) = g.subgroup? ((i :: way).take k)) ∧
    g.overallMax ⟨p, some (i :: way)⟩ limit =
      .ok (if (Bound.size : ℕ∞) ≤ Overall.beforeZero bounds then .unbounded
        else .ofENat (Overall.product bounds)) := by
  intro bounds
  obtain ⟨hbranch, hgroup⟩ := around_spec hp
  have hlength := congrArg List.length hbranch
  rw [List.length_map, List.length_cons] at hlength
  have hbounds : bounds = p.occurs.max :: (around.map (·.group)).map (·.occurs.max) := by
    rw [List.map_map]
    rfl
  rw [overallMax, hok, hbounds, ← Overall.max_eq, enclosing_eq_ok hp hok]
  exact ⟨⟨hlength, hgroup⟩, rfl⟩

/-- A prohibited group around a wildcard of any number: the wildcard is unbounded before the zero
comes. -/
theorem not_overallMax_eq_product :
    ¬ ∀ (g : ModelGroup) (p : Particle) (i : Nat) (way : Position) (limit : DepthLimit)
        (around : List Ancestor), g.particle? (i :: way) = some p →
      g.enclosing ⟨p, some (i :: way)⟩ limit = .ok around →
      g.overallMax ⟨p, some (i :: way)⟩ limit =
        .ok (.ofENat (Overall.product (p.occurs.max :: around.map (·.group.occurs.max)))) := by
  intro hall
  let any : Particle := .leaf (.wildcard .anything)
  let g : ModelGroup := ⟨.sequence, .prohibited, [any]⟩
  have hp : g.particle? [0] = some any := rfl
  have hok : g.enclosing ⟨any, some [0]⟩ .standard = .ok [⟨g, 0⟩] :=
    enclosing_eq_around hp (by decide)
  have hmax : g.overallMax ⟨any, some [0]⟩ .standard = .ok .unbounded := by
    rw [overallMax, hok]
    rfl
  have hproduct :
      Overall.product (any.occurs.max :: [(⟨g, 0⟩ : Ancestor)].map (·.group.occurs.max)) = 0 := by
    show (⊤ : ℕ∞) * (((0 : ℕ) : ℕ∞) * 1) = 0
    rw [Nat.cast_zero, zero_mul, mul_zero]
  have hclaimed := hall g any 0 [] .standard _ hp hok
  rw [hmax, hproduct, Bound.ofENat_zero] at hclaimed
  cases hclaimed

/-- A zero that is seen: `a` may occur 65536 times in a group that may as often, which would be too
much to fit, but the group around that one is prohibited and comes first. -/
theorem overallMax_eq_product_prohibited_outside :
    let a : Particle := .leaf (.element ⟨⟨none, "a"⟩, ⟨0, .finite 65536, by decide⟩, none⟩)
    let inner : ModelGroup := ⟨.sequence, ⟨0, .finite 65536, by decide⟩, [a]⟩
    let g : ModelGroup := ⟨.sequence, .prohibited, [.group inner]⟩
    g.particle? [0, 0] = some a ∧
    g.enclosing ⟨a, some [0, 0]⟩ .standard = .ok [⟨g, 0⟩, ⟨inner, 0⟩] ∧
      g.overallMax ⟨a, some [0, 0]⟩ .standard = .ok (.finite 0) := by
  intro a inner g
  have hp : g.particle? [0, 0] = some a := rfl
  have hok : g.enclosing ⟨a, some [0, 0]⟩ .standard = .ok [⟨g, 0⟩, ⟨inner, 0⟩] :=
    enclosing_eq_around hp (by decide)
  obtain ⟨-, hmax⟩ := overallMax_eq_product hp hok
  have hbefore : Overall.beforeZero [.finite 65536, .finite 0, .finite 65536] = (65536 : ℕ) := by
    rw [Overall.beforeZero_cons_of_ne (by decide), Overall.beforeZero_cons_zero, mul_one]
    rfl
  have hfits : ¬ (Bound.size : ℕ∞) ≤
      Overall.beforeZero [.finite 65536, .finite 0, .finite 65536] := by
    rw [hbefore, Nat.cast_le]
    decide
  have hproduct : Overall.product [.finite 65536, .finite 0, .finite 65536] = 0 := by
    rw [Overall.product_cons, Overall.product_cons, Bound.toENat_eq_zero.2 rfl, zero_mul, mul_zero]
  refine ⟨hp, hok, hmax.trans (congrArg Except.ok ?_)⟩
  exact (if_neg hfits).trans (Bound.ofENat_eq_zero.2 hproduct)

end ModelGroup

end ContentModel
