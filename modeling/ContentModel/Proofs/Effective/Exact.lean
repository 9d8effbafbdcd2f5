import ContentModel.ModelGroup.Effective
import ContentModel.Proofs.Bound.Exact
import ContentModel.Proofs.Walk.Flat

/-!
# Effective bounds in exact arithmetic

The effective bounds of a group are found by a walk that counts how deep it is, stops at the first
item that settles the matter, and turns every number that leaves the 32 bits into *unbounded* on the
spot. This file states what they are without any of that: `Particle.exactMin` and
`Particle.exactMax` recurse over the items of a group (`ModelGroup.flat`) in `ℕ` and `ℕ∞`, and

> **the effective bounds are the exact ones, truncated once** (`effective_eq_exact`): for every tree
> of elements and wildcards, under every limit that its height stays within.

There is a lemma for each thing the computation does to a list of items: `Compositor.lower_ok` for
the lower bound, `Bound.scaledMax_map` and `Bound.upper_map` for the upper one. Truncation passes
through all of them because it is a homomorphism, and because only zero is truncated to zero, so the
items that are told apart before the truncation are told apart after it.
-/

set_option autoImplicit false

namespace ContentModel

/-! ## 1. The exact bounds -/

/-- The lower bound of a group from those of its items: zero where the items may all stay out, which
a choice allows for one of them alone. -/
def Compositor.exactLower (c : Compositor) (own : ℕ) (mins : List ℕ) : ℕ :=
  if c.Asks (· = 0) mins then 0 else own

theorem Compositor.exactLower_le (c : Compositor) (own : ℕ) (mins : List ℕ) :
    c.exactLower own mins ≤ own := by
  unfold Compositor.exactLower
  split
  · exact Nat.zero_le own
  · exact Nat.le_refl own

/-- The upper bound of a group from the upper and lower bounds of its items. Only items that can
occur at all are counted, and outside a choice a single one that has to be there settles it. -/
noncomputable def Compositor.exactUpper (c : Compositor) (own : ℕ∞) (items : List (ℕ∞ × ℕ)) : ℕ∞ :=
  let live := items.filter (·.1 ≠ 0)
  let greatest := (live.map (·.1)).max?.getD 0
  if live = [] then 0
  else if own = ⊤ then ⊤
  else if c = .choice then own * greatest
  else match live.filter (·.2 ≠ 0) with
    | [] => own * greatest
    | [firm] => own * firm.1
    | _ => own

theorem Compositor.exactLower_perm (c : Compositor) (own : ℕ) {mins mins' : List ℕ}
    (h : mins.Perm mins') :
    c.exactLower own mins = c.exactLower own mins' := by
  unfold exactLower
  by_cases ha : c.Asks (· = 0) mins
  · rw [if_pos ha, if_pos ((c.asks_perm h).1 ha)]
  · rw [if_neg ha, if_neg (mt (c.asks_perm h).2 ha)]

theorem Compositor.exactUpper_perm (c : Compositor) (own : ℕ∞) {items items' : List (ℕ∞ × ℕ)}
    (h : items.Perm items') : c.exactUpper own items = c.exactUpper own items' := by
  have hlive := h.filter (·.1 ≠ 0)
  unfold exactUpper
  dsimp only
  generalize items.filter (·.1 ≠ 0) = live at hlive ⊢
  generalize items'.filter (·.1 ≠ 0) = live' at hlive ⊢
  have hnil : live = [] ↔ live' = [] := by
    rw [← List.length_eq_zero_iff, ← List.length_eq_zero_iff, hlive.length_eq]
  have hfirm := hlive.filter (·.2 ≠ 0)
  rw [Bound.max?_perm (hlive.map (·.1))]
  simp only [hnil]
  -- whether one item has to be there, and which one it is then
  generalize live.filter (·.2 ≠ 0) = firm at hfirm ⊢
  generalize live'.filter (·.2 ≠ 0) = firm' at hfirm ⊢
  rcases firm with _ | ⟨r, _ | ⟨r₂, rest⟩⟩
  · rw [List.nil_perm.1 hfirm]
  · rw [List.singleton_perm.1 hfirm]
  · rcases firm' with _ | ⟨s, _ | ⟨s₂, rest'⟩⟩
    · cases hfirm.length_eq
    · cases hfirm.length_eq
    · rfl

namespace Particle

/-- The lower bound of a particle, its items taken into account. -/
def exactMin : Particle → ℕ
  | .leaf l => l.occurs.min.toNat
  | .group g =>
    if g.occurs.min = 0 || g.particles.isEmpty then 0
    else g.compositor.exactLower g.occurs.min.toNat (g.flat.attach.map fun ⟨i, _⟩ => i.exactMin)
termination_by p => sizeOf p
decreasing_by
  have := ModelGroup.sizeOf_lt_of_mem_flat ‹_›
  rw [Particle.group.sizeOf_spec]
  omega

/-- The upper bound of a particle, its items taken into account. -/
noncomputable def exactMax : Particle → ℕ∞
  | .leaf l => l.occurs.max.toENat
  | .group g =>
    if g.occurs.max = .finite 0 || g.particles.isEmpty then 0
    else g.compositor.exactUpper g.occurs.max.toENat
      (g.flat.attach.map fun ⟨i, _⟩ => (i.exactMax, i.exactMin))
termination_by p => sizeOf p
decreasing_by
  have := ModelGroup.sizeOf_lt_of_mem_flat ‹_›
  rw [Particle.group.sizeOf_spec]
  omega

/-- Both bounds of a particle, upper one first. -/
noncomputable def exactRange (p : Particle) : ℕ∞ × ℕ := (p.exactMax, p.exactMin)

theorem exactMin_leaf (l : Leaf) : (leaf l).exactMin = l.occurs.min.toNat := by rw [exactMin]

theorem exactMax_leaf (l : Leaf) : (leaf l).exactMax = l.occurs.max.toENat := by rw [exactMax]

theorem exactMin_group (g : ModelGroup) :
    (group g).exactMin =
      if g.occurs.min = 0 || g.particles.isEmpty then 0
      else g.compositor.exactLower g.occurs.min.toNat (g.flat.map exactMin) := by
  rw [exactMin, ← List.attach_map_val (l := g.flat) (f := exactMin)]

theorem exactMax_group (g : ModelGroup) :
    (group g).exactMax =
      if g.occurs.max = .finite 0 || g.particles.isEmpty then 0
      else g.compositor.exactUpper g.occurs.max.toENat (g.flat.map exactRange) := by
  rw [exactMax, ← List.attach_map_val (l := g.flat) (f := exactRange)]
  rfl

/-- Induction over items: of a group it may be assumed that the claim holds of its items. -/
theorem itemInduction {motive : Particle → Prop} (leaf : ∀ l, motive (.leaf l))
    (group : ∀ g : ModelGroup, (∀ i ∈ g.flat, motive i) → motive (.group g)) (p : Particle) :
    motive p :=
  match p with
  | .leaf l => leaf l
  | .group g => group g fun i hi =>
    have := ModelGroup.sizeOf_lt_of_mem_flat hi
    itemInduction leaf group i
termination_by sizeOf p
decreasing_by
  rw [Particle.group.sizeOf_spec]
  omega

/-- A lower bound is a declared one or zero, so it never leaves the 32 bits. -/
theorem exactMin_lt_size (p : Particle) : p.exactMin < Bound.size := by
  cases p with
  | leaf l =>
    rw [exactMin_leaf]
    exact Bound.toNat_lt_size _
  | group g =>
    rw [exactMin_group]
    split
    · decide
    · exact Nat.lt_of_le_of_lt (Compositor.exactLower_le _ _ _) (Bound.toNat_lt_size _)

end Particle

/-- The bounds of a group depend on its items only through their ranges, in any order. -/
theorem ModelGroup.exactRange_congr {g g' : ModelGroup} (hcompositor : g'.compositor = g.compositor)
    (hoccurs : g'.occurs = g.occurs) (hnil : g'.particles = [] ↔ g.particles = [])
    (hranges : (g'.flat.map Particle.exactRange).Perm (g.flat.map Particle.exactRange)) :
    (Particle.group g').exactRange = (Particle.group g).exactRange := by
  have hmins : (g'.flat.map Particle.exactMin).Perm (g.flat.map Particle.exactMin) := by
    have hsnd := hranges.map Prod.snd
    rw [List.map_map, List.map_map] at hsnd
    exact hsnd
  have hempty : g'.particles.isEmpty = g.particles.isEmpty := by
    rw [Bool.eq_iff_iff, List.isEmpty_iff, List.isEmpty_iff, hnil]
  unfold Particle.exactRange
  rw [Particle.exactMax_group, Particle.exactMax_group, Particle.exactMin_group,
    Particle.exactMin_group, hcompositor, hoccurs, hempty, Compositor.exactUpper_perm _ _ hranges,
    Compositor.exactLower_perm _ _ hmins]

theorem ModelGroup.exactMin_eq_zero_iff {g : ModelGroup} :
    (Particle.group g).exactMin = 0 ↔
      g.plainlyEmptiable = true ∨ g.compositor.Asks (·.exactMin = 0) g.flat := by
  rw [Particle.exactMin_group, ModelGroup.plainlyEmptiable, Occurs.emptiable]
  by_cases hz : (g.occurs.min = 0 || g.particles.isEmpty) = true
  · have hplain : (g.occurs.min == 0 || g.particles.isEmpty) = true := hz
    rw [if_pos hz]
    exact ⟨fun _ => .inl hplain, fun _ => rfl⟩
  · have hplain : ¬ (g.occurs.min == 0 || g.particles.isEmpty) = true := hz
    have hown : g.occurs.min.toNat ≠ 0 := by
      intro e
      apply hplain
      have hmin : g.occurs.min = 0 := UInt32.toNat_inj.1 e
      rw [hmin]
      rfl
    rw [if_neg hz, Compositor.exactLower]
    by_cases ha : g.compositor.Asks (·.exactMin = 0) g.flat
    · rw [if_pos ((Compositor.asks_map _ _).2 ha)]
      exact ⟨fun _ => .inr ha, fun _ => rfl⟩
    · rw [if_neg (mt (Compositor.asks_map _ _).1 ha)]
      constructor
      · intro e
        exact absurd e hown
      · intro h
        rcases h with h | h
        · exact absurd h hplain
        · exact absurd h ha

/-! ## 2. The lower bound -/

/-- The lower bound of a group whose items all tell theirs. -/
theorem Compositor.lower_ok {α : Type} {c : Compositor} {own : UInt32}
    {bound : α → Except Error UInt32} {f : α → UInt32} {xs : List α}
    (h : ∀ x ∈ xs, bound x = .ok (f x)) :
    c.lower own (.ok ()) bound xs =
      .ok (if c.Asks (f · = 0) xs then 0 else own) := by
  induction xs with
  | nil =>
    rw [lower]
    by_cases hc : c = .choice
    · simp [Asks, hc]
    · simp [Asks, hc]
  | cons x xs ih =>
    have ih := ih fun y hy => h y (List.mem_cons_of_mem x hy)
    rw [lower, h x List.mem_cons_self]
    dsimp only
    by_cases hc : c = .choice
    · by_cases hx : f x = 0
      · simp [Asks, hc, hx]
      · rw [if_pos hc, if_neg hx, ih]
        simp [Asks, hc, hx]
    · by_cases hx : f x = 0
      · rw [if_neg hc, if_pos hx, ih]
        simp [Asks, hc, hx]
      · simp [Asks, hc, hx]

theorem Bound.toUInt32_eq_zero {n : ℕ} (h : n < Bound.size) : UInt32.ofNat n = 0 ↔ n = 0 := by
  constructor
  · intro e
    have e := congrArg UInt32.toNat e
    rw [Bound.toNat_ofNat_of_lt h] at e
    exact e
  · intro e
    rw [e]
    rfl

/-- **The lower bound is the exact one**, found at any depth that leaves room for the particle. -/
theorem Particle.effectiveMin_eq (p : Particle) {limit : DepthLimit} :
    ∀ {depth : Nat}, p.declared = true → depth + p.nesting ≤ limit.max + 1 →
      p.effectiveMin depth limit = .ok (UInt32.ofNat p.exactMin) := by
  induction p using Particle.itemInduction with
  | leaf l =>
    intro depth hd _
    rw [Particle.declared_leaf] at hd
    rw [Particle.exactMin_leaf, UInt32.ofNat_toNat]
    exact Leaf.effectiveMin_of_declared hd
  | group g ih =>
    intro depth hd hfit
    rw [Particle.declared_group] at hd
    rw [Particle.nesting_group] at hfit
    show g.effectiveMin depth limit = _
    rw [ModelGroup.effectiveMin_eq, Particle.exactMin_group]
    by_cases hz : (g.occurs.min = 0 || g.particles.isEmpty) = true
    · rw [if_pos hz, if_pos hz]
      rfl
    · rw [if_neg hz, if_neg hz]
      have hcovers : (Walk.items g depth limit).trail.Covers limit g.flat :=
        ModelGroup.covers_items (by omega)
      obtain ⟨hending, hflat, hfits⟩ := hcovers
      -- each item is walked from one level below the group it was found in
      have hitem : ∀ i ∈ (Walk.items g depth limit).trail.items,
          i.particle.effectiveMin (i.depth + 1) limit = .ok (UInt32.ofNat i.particle.exactMin) := by
        intro i hi
        have hmem : i.particle ∈ g.flat := hflat ▸ List.mem_map_of_mem hi
        have := hfits i hi
        exact ih _ hmem (ModelGroup.declared_of_mem_flat hd hmem) (by omega)
      dsimp only
      rw [hending, Compositor.lower_ok hitem, Compositor.exactLower, ← hflat]
      have hasks : g.compositor.Asks (fun i : Item => UInt32.ofNat i.particle.exactMin = 0)
            (Walk.items g depth limit).trail.items ↔
          g.compositor.Asks (· = 0)
            (((Walk.items g depth limit).trail.items.map (·.particle)).map Particle.exactMin) := by
        rw [List.map_map, Compositor.asks_map]
        exact Compositor.asks_congr _ fun i _ =>
          Bound.toUInt32_eq_zero (Particle.exactMin_lt_size i.particle)
      by_cases ha : g.compositor.Asks (· = 0)
          (((Walk.items g depth limit).trail.items.map (·.particle)).map Particle.exactMin)
      · rw [if_pos (hasks.2 ha), if_pos ha]
        rfl
      · rw [if_neg (mt hasks.1 ha), if_neg ha, UInt32.ofNat_toNat]

/-! ## 3. The upper bound -/

theorem mapM_eq_ok {α β ε : Type} {f : α → Except ε β} {g : α → β} {xs : List α}
    (h : ∀ x ∈ xs, f x = .ok (g x)) : xs.mapM f = .ok (xs.map g) := by
  induction xs with
  | nil => rfl
  | cons x xs ih =>
    rw [List.mapM_cons, h x List.mem_cons_self, ih fun y hy => h y (List.mem_cons_of_mem x hy)]
    rfl

namespace Bound

theorem scaledMax_map (own : Bound) (xs : List ℕ∞) :
    own.scaledMax (xs.map ofENat) = ofENat (own.toENat * xs.max?.getD 0) := by
  rw [scaledMax, max?_map_ofENat, ofENat_mul, ofENat_toENat]
  cases xs.max? with
  | none => rw [Option.map_none, Option.getD_none, Option.getD_none, ofENat_zero]
  | some x => rfl

theorem upper_map (own : Bound) {items : List (ℕ∞ × ℕ)} (h : ∀ r ∈ items, r.2 < size) :
    own.upper (items.map fun r => (ofENat r.1, UInt32.ofNat r.2)) =
      ofENat (match items.filter (·.2 ≠ 0) with
        | [] => own.toENat * (items.map (·.1)).max?.getD 0
        | [firm] => own.toENat * firm.1
        | _ => own.toENat) := by
  -- a lower bound that fits is zero before the truncation when it is zero after it
  have hfirm : (items.map fun r => (ofENat r.1, UInt32.ofNat r.2)).filter (·.2 != 0) =
      (items.filter (·.2 ≠ 0)).map fun r => (ofENat r.1, UInt32.ofNat r.2) := by
    rw [List.filter_map]
    congr 1
    refine List.filter_congr ?_
    intro r hr
    have hz := toUInt32_eq_zero (h r hr)
    by_cases h₀ : r.2 = 0
    · simp [h₀]
    · simp [h₀, hz]
  rw [upper, hfirm]
  generalize items.filter (·.2 ≠ 0) = firm
  rcases firm with _ | ⟨firm, _ | ⟨other, more⟩⟩
  · show own.scaledMax _ = ofENat (own.toENat * (items.map (·.1)).max?.getD 0)
    rw [← scaledMax_map, List.map_map, List.map_map]
    rfl
  · show own.mul (ofENat firm.1) = ofENat (own.toENat * firm.1)
    rw [ofENat_mul, ofENat_toENat]
  · exact (ofENat_toENat own).symm

end Bound

theorem filter_zip_map {α β : Type} (f : α → β) (keep : β → Bool) (xs : List α) :
    (xs.zip (xs.map f)).filter (fun x => keep x.2) =
      (xs.filter fun x => keep (f x)).map fun x => (x, f x) := by
  induction xs with
  | nil => rfl
  | cons x xs ih =>
    rw [List.map_cons, List.zip_cons_cons, List.filter_cons, List.filter_cons, ih]
    by_cases hx : keep (f x) = true
    · rw [if_pos hx, if_pos hx, List.map_cons]
    · rw [if_neg hx, if_neg hx]

/-- What is left to do when the items are at hand, with the upper bounds of those that can occur. -/
theorem Bound.upper_of_live (c : Compositor) (own : Bound) {limit : DepthLimit} {live : List Item}
    (hmin : ∀ i ∈ live,
      i.particle.effectiveMin (i.depth + 1) limit = .ok (UInt32.ofNat i.particle.exactMin)) :
    (if live.isEmpty then pure (finite 0)
      else if own = unbounded then pure unbounded
      else if c = .choice then
        pure (own.scaledMax (live.map fun i => ofENat i.particle.exactMax))
      else do
        let minima ← live.mapM fun i => i.particle.effectiveMin (i.depth + 1) limit
        pure (own.upper ((live.map fun i => ofENat i.particle.exactMax).zip minima)) :
        Except Error Bound) =
      .ok (ofENat
        (let ranges := live.map (·.particle.exactRange)
        let greatest := (ranges.map (·.1)).max?.getD 0
        if ranges = [] then 0
        else if own.toENat = ⊤ then ⊤
        else if c = .choice then own.toENat * greatest
        else match ranges.filter (·.2 ≠ 0) with
          | [] => own.toENat * greatest
          | [firm] => own.toENat * firm.1
          | _ => own.toENat)) := by
  have hpairs : (live.map fun i => ofENat i.particle.exactMax).zip
        (live.map fun i => UInt32.ofNat i.particle.exactMin) =
      (live.map (·.particle.exactRange)).map fun r => (ofENat r.1, UInt32.ofNat r.2) := by
    rw [List.zip_map', List.map_map]
    rfl
  have hsize : ∀ r ∈ live.map (·.particle.exactRange), r.2 < size := by
    intro r hr
    obtain ⟨i, _, rfl⟩ := List.mem_map.1 hr
    exact i.particle.exactMin_lt_size
  have hgreatest : own.scaledMax (live.map fun i => ofENat i.particle.exactMax) =
      ofENat (own.toENat * ((live.map (·.particle.exactRange)).map (·.1)).max?.getD 0) := by
    rw [← scaledMax_map, List.map_map, List.map_map]
    rfl
  dsimp only
  by_cases hlive : live = []
  · rw [if_pos (List.isEmpty_iff.2 hlive), if_pos (List.map_eq_nil_iff.2 hlive), ofENat_zero]
    rfl
  · rw [if_neg (mt List.isEmpty_iff.1 hlive), if_neg (mt List.map_eq_nil_iff.1 hlive)]
    by_cases hown : own = unbounded
    · rw [if_pos hown, if_pos (toENat_eq_top.2 hown)]
      rfl
    · rw [if_neg hown, if_neg (mt toENat_eq_top.1 hown)]
      by_cases hc : c = .choice
      · rw [if_pos hc, if_pos hc, hgreatest]
        rfl
      · rw [if_neg hc, if_neg hc, mapM_eq_ok hmin]
        show Except.ok (own.upper _) = _
        rw [hpairs, upper_map own hsize]

/-- **The upper bound is the exact one, truncated**, found at any depth that leaves room for the
particle. -/
theorem Particle.effectiveMax_eq (p : Particle) {limit : DepthLimit} :
    ∀ {depth : Nat}, p.declared = true → depth + p.nesting ≤ limit.max + 1 →
      p.effectiveMax depth limit = .ok (.ofENat p.exactMax) := by
  induction p using Particle.itemInduction with
  | leaf l =>
    intro depth hd _
    rw [Particle.declared_leaf] at hd
    rw [Particle.exactMax_leaf, Bound.ofENat_toENat]
    exact Leaf.effectiveMax_of_declared hd
  | group g ih =>
    intro depth hd hfit
    rw [Particle.declared_group] at hd
    rw [Particle.nesting_group] at hfit
    show g.effectiveMax depth limit = _
    rw [ModelGroup.effectiveMax_eq, Particle.exactMax_group]
    by_cases hz : (g.occurs.max = .finite 0 || g.particles.isEmpty) = true
    · rw [if_pos hz, if_pos hz, Bound.ofENat_zero]
    · rw [if_neg hz, if_neg hz]
      have hcovers : (Walk.items g depth limit).trail.Covers limit g.flat :=
        ModelGroup.covers_items (by omega)
      obtain ⟨hending, hflat, hfits⟩ := hcovers
      have hmem : ∀ i ∈ (Walk.items g depth limit).trail.items, i.particle ∈ g.flat :=
        fun i hi => hflat ▸ List.mem_map_of_mem hi
      have hmax : ∀ i ∈ (Walk.items g depth limit).trail.items,
          i.particle.effectiveMax (i.depth + 1) limit = .ok (.ofENat i.particle.exactMax) := by
        intro i hi
        have := hfits i hi
        exact ih _ (hmem i hi) (ModelGroup.declared_of_mem_flat hd (hmem i hi)) (by omega)
      have hmin : ∀ i ∈ (Walk.items g depth limit).trail.items,
          i.particle.effectiveMin (i.depth + 1) limit = .ok (UInt32.ofNat i.particle.exactMin) := by
        intro i hi
        have := hfits i hi
        exact i.particle.effectiveMin_eq (ModelGroup.declared_of_mem_flat hd (hmem i hi)) (by omega)
      rw [← hflat]
      dsimp only
      rw [hending, mapM_eq_ok hmax]
      -- from here on only the items matter, not how they were found
      generalize (Walk.items g depth limit).trail.items = items at hmin
      show (if _ then _ else _) = _
      rw [filter_zip_map (fun i : Item => Bound.ofENat i.particle.exactMax) (· != .finite 0),
        List.isEmpty_map, List.map_map, List.mapM_map]
      -- only zero is truncated to zero, so the live items are those of the exact bounds
      have hlive : items.filter (fun i => Bound.ofENat i.particle.exactMax != .finite 0) =
          items.filter (fun i => i.particle.exactRange.1 ≠ 0) := by
        refine List.filter_congr ?_
        intro i _
        by_cases hi : i.particle.exactMax = 0
        · simp [Particle.exactRange, hi]
        · simp [Particle.exactRange, hi, Bound.ofENat_eq_zero]
      have hranges : ((items.map (·.particle)).map Particle.exactRange).filter (·.1 ≠ 0) =
          (items.filter (fun i => i.particle.exactRange.1 ≠ 0)).map (·.particle.exactRange) := by
        rw [List.map_map, List.filter_map]
        rfl
      rw [hlive, Compositor.exactUpper, hranges]
      exact Bound.upper_of_live g.compositor g.occurs.max
        fun i hi => hmin i (List.mem_filter.1 hi).1

/-! ## 4. Both bounds -/

theorem ModelGroup.effective_ok {g : ModelGroup} {limit : DepthLimit} (hd : g.declared = true)
    (hfit : g.height ≤ limit.max) :
    g.effectiveMin 0 limit = .ok (UInt32.ofNat (Particle.group g).exactMin) ∧
      g.effectiveMax 0 limit = .ok (.ofENat (Particle.group g).exactMax) := by
  have hd' : (Particle.group g).declared = true := by rw [Particle.declared_group, hd]
  have hfit' : 0 + (Particle.group g).nesting ≤ limit.max + 1 := by
    rw [Particle.nesting_group]
    omega
  exact ⟨(Particle.group g).effectiveMin_eq hd' hfit', (Particle.group g).effectiveMax_eq hd' hfit'⟩

/-- **Effective bounds are exact arithmetic, truncated once.** Under every limit that the tree stays
within, both bounds of a tree of elements and wildcards are found, the lower one being the exact one
and the upper one what 32 bits can tell of the exact one. -/
theorem ModelGroup.effective_eq_exact {g : ModelGroup} {limit : DepthLimit} (hd : g.declared = true)
    (hfit : g.height ≤ limit.max) :
    (g.effectiveMin 0 limit).map UInt32.toNat = .ok (Particle.group g).exactMin ∧
      g.effectiveMax 0 limit = .ok (.ofENat (Particle.group g).exactMax) := by
  obtain ⟨hmin, hmax⟩ := ModelGroup.effective_ok hd hfit
  refine ⟨?_, hmax⟩
  rw [hmin, Except.map, Bound.toNat_ofNat_of_lt (Particle.group g).exactMin_lt_size]

/-- A choice that repeats 65536 times, in a sequence that does so too, and is dissolved in neither:
the exact upper bound is the first number that does not fit. -/
theorem ModelGroup.effective_eq_exact_squared :
    let inner : ModelGroup := ⟨.choice, ⟨1, .finite 65536, by decide⟩,
      [.leaf (.wildcard ⟨.any, .once⟩), .leaf (.wildcard ⟨.any, .once⟩)]⟩
    let outer : ModelGroup := ⟨.sequence, ⟨2, .finite 65536, by decide⟩, [.group inner]⟩
    outer.declared = true ∧ outer.height ≤ DepthLimit.standard.max ∧
      (outer.effectiveMin 0 .standard).map UInt32.toNat = .ok 2 ∧
      (Particle.group outer).exactMax = 4294967296 ∧
      outer.effectiveMax 0 .standard = .ok .unbounded := by
  intro inner outer
  have hd : outer.declared = true := by decide
  have hfit : outer.height ≤ DepthLimit.standard.max := by decide
  obtain ⟨hmin, hmax⟩ := ModelGroup.effective_eq_exact hd hfit
  have hflat : outer.flat = [.group inner] := by rfl
  have hflat' : inner.flat = inner.particles := by rfl
  have hin : (Particle.group inner).exactRange = (65536, 1) := by
    unfold Particle.exactRange
    rw [Particle.exactMax_group, Particle.exactMin_group, hflat']
    simp [inner, Particle.exactRange, Particle.exactMax_leaf, Particle.exactMin_leaf,
      Compositor.exactUpper, Compositor.exactLower, Compositor.Asks, Leaf.occurs, Occurs.once,
      Bound.toENat]
  have hout : (Particle.group outer).exactRange = (4294967296, 2) := by
    have hinMin : (Particle.group inner).exactMin = 1 := congrArg Prod.snd hin
    unfold Particle.exactRange
    rw [Particle.exactMax_group, Particle.exactMin_group, hflat, List.map_singleton,
      List.map_singleton, hin, hinMin]
    simp [outer, Compositor.exactUpper, Compositor.exactLower, Compositor.Asks, Bound.toENat]
    rfl
  have hmax' : (Particle.group outer).exactMax = 4294967296 := congrArg Prod.fst hout
  have hmin' : (Particle.group outer).exactMin = 2 := congrArg Prod.snd hout
  rw [hmin'] at hmin
  rw [hmax'] at hmax
  refine ⟨hd, hfit, hmin, hmax', hmax.trans ?_⟩
  exact congrArg Except.ok (Bound.ofNat_of_le (Nat.le_refl Bound.size))

end ContentModel
