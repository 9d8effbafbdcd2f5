import ContentModel.Proofs.Effective.Exact
import ContentModel.Proofs.Splice.Answers

/-!
# Eliminating a pointless group, and the effective bounds

Structural answers do not notice when a pointless group is replaced by its particles. The effective
bounds may: they look at the items of a group, and which particles are items is decided by asking of
each nested group whether it is pointless *where it stands*. The replacement moves the particles of
the eliminated group under another compositor, and gives the group around them another number of
particles. Either can change such a verdict.

> **The effective bounds are kept when no verdict changes** (`KeepsVerdicts`), and whenever one
> changes there is a tree in which the same compositors meet and whose lower bound changes with it
> (`effective_splice_of_keepsVerdicts`).

For the first half, what a group around the splice sees of it are the exact ranges of its items
(`SameItems`); the induction over the position of the group is that of the structural answers. For
the second half there are two trees, one for each way, in which a choice or a sequence on top tells
the items of a group from the group.
-/

set_option autoImplicit false

namespace ContentModel

/-! ## 1. What is kept -/

/-- No nested group is pointless before the replacement and not after it, or the other way round:
not those in the eliminated group, which the group around it holds afterwards, and not that group
itself in the one that holds it. -/
structure ModelGroup.KeepsVerdicts (t : ModelGroup) (spot : Position) (g : ModelGroup) (i : Nat)
    (c : ModelGroup) : Prop where
  inside : ∀ h, .group h ∈ c.particles → h.pointless g.compositor = h.pointless c.compositor
  around : ∀ above, spot ≠ [] → t.subgroup? spot.dropLast = some above →
    (g.splice i c).pointless above.compositor = g.pointless above.compositor

/-- The second group has the same items as the first, as far as their exact ranges go. -/
structure ModelGroup.SameItems (g g' : ModelGroup) : Prop where
  compositor : g'.compositor = g.compositor
  occurs : g'.occurs = g.occurs
  nil : g'.particles = [] ↔ g.particles = []
  ranges : g'.flat.map Particle.exactRange = g.flat.map Particle.exactRange

namespace ModelGroup

variable {g g' : ModelGroup}

theorem SameItems.range (h : SameItems g g') :
    (Particle.group g').exactRange = (Particle.group g).exactRange :=
  exactRange_congr h.compositor h.occurs h.nil (h.ranges ▸ .refl _)

theorem flat_splice {c : ModelGroup} {i : Nat} (h : g.Eliminable i c)
    (hinside : ∀ k, .group k ∈ c.particles → k.pointless g.compositor = k.pointless c.compositor) :
    (g.splice i c).flat = g.flat := by
  obtain ⟨front, rest, hps, -, hsplice⟩ := h.exists_split
  have hmid : c.particles.flatMap (·.flat g.compositor) = c.flat := by
    rw [flat_eq]
    apply List.flatMap_congr
    intro p hp
    cases p with
    | leaf l => rw [Particle.flat_leaf, Particle.flat_leaf]
    | group k => rw [Particle.flat_group, Particle.flat_group, hinside k hp]
  rw [hsplice, flat_eq, flat_eq, hps, List.flatMap_append, List.flatMap_append, hmid,
    List.flatMap_append, List.flatMap_cons, Particle.flat_group, if_pos h.pointless,
    List.append_assoc]

theorem sameItems_splice {c : ModelGroup} {i : Nat} (h : g.Eliminable i c)
    (hinside : ∀ k, .group k ∈ c.particles → k.pointless g.compositor = k.pointless c.compositor) :
    SameItems g (g.splice i c) := by
  obtain ⟨front, rest, hps, -, hsplice⟩ := h.exists_split
  refine ⟨rfl, rfl, ?_, ?_⟩
  · rw [hsplice, hps]
    simp [h.nonempty]
  · rw [flat_splice h hinside]

/-- A group around it has the same items if it judges the group as before. -/
theorem SameItems.put {t inner inner' : ModelGroup} {a : Nat}
    (ha : t.particles[a]? = some (.group inner)) (h : SameItems inner inner')
    (hverdict : inner'.pointless t.compositor = inner.pointless t.compositor) :
    SameItems t { t with particles := t.particles.set a (.group inner') } := by
  obtain ⟨front, rest, ht, hset⟩ := exists_exchange_of_set ha (.group inner')
  have hmid : ((Particle.group inner').flat t.compositor).map Particle.exactRange =
      ((Particle.group inner).flat t.compositor).map Particle.exactRange := by
    rw [Particle.flat_group, Particle.flat_group, hverdict]
    by_cases hp : inner.pointless t.compositor = true
    · rw [if_pos hp, if_pos hp, h.ranges]
    · rw [if_neg hp, if_neg hp, List.map_singleton, List.map_singleton, h.range]
  refine ⟨rfl, rfl, ?_, ?_⟩
  · exact List.set_eq_nil_iff _ _
  · rw [hset]
    conv => rhs; rw [ht]
    rw [flat_eq, flat_eq]
    simp only [List.flatMap_append, List.flatMap_singleton, List.map_append, hmid]

theorem pointless_putAt_cons {t inner : ModelGroup} {a : Nat} (h : ModelGroup) (spot : Position)
    (ha : t.particles[a]? = some (.group inner)) (parent : Compositor) :
    (t.putAt h (a :: spot)).pointless parent = t.pointless parent := by
  rw [putAt_cons_of h spot ha, pointless_eq, pointless_eq, List.length_set]

/-- **The items of the whole tree**, by induction over the position of the group. -/
theorem sameItems_putAt {c : ModelGroup} {i : Nat} (h : g.Eliminable i c) :
    ∀ {spot : Position} {t : ModelGroup}, t.subgroup? spot = some g → KeepsVerdicts t spot g i c →
      SameItems t (t.putAt (g.splice i c) spot) := by
  intro spot
  induction spot with
  | nil =>
    intro t ht hkeeps
    cases ht
    exact sameItems_splice h hkeeps.inside
  | cons a spot ih =>
    intro t ht hkeeps
    obtain ⟨inner, ha, hinner⟩ := subgroup?_cons_eq_some.1 ht
    rw [putAt_cons_of _ spot ha]
    cases spot with
    | nil =>
      -- this is the one group around that has to judge another number of particles
      cases hinner
      exact (sameItems_splice h hkeeps.inside).put ha (hkeeps.around t (List.cons_ne_nil _ _) rfl)
    | cons b spot =>
      obtain ⟨deeper, hb, -⟩ := subgroup?_cons_eq_some.1 hinner
      have hkeeps' : KeepsVerdicts inner (b :: spot) g i c := by
        refine ⟨hkeeps.inside, ?_⟩
        intro above _ habove
        refine hkeeps.around above (List.cons_ne_nil _ _) ?_
        rw [List.dropLast_cons_cons, subgroup?_cons_of _ ha, habove]
      exact (ih hinner hkeeps').put ha (pointless_putAt_cons _ spot hb t.compositor)

theorem effective_congr {limit : DepthLimit} (hd : g.declared = true) (hd' : g'.declared = true)
    (hfit : g.height ≤ limit.max) (hfit' : g'.height ≤ limit.max)
    (h : (Particle.group g').exactRange = (Particle.group g).exactRange) :
    g'.effectiveMin 0 limit = g.effectiveMin 0 limit ∧
      g'.effectiveMax 0 limit = g.effectiveMax 0 limit := by
  have hmin : (Particle.group g').exactMin = (Particle.group g).exactMin := congrArg Prod.snd h
  have hmax : (Particle.group g').exactMax = (Particle.group g).exactMax := congrArg Prod.fst h
  obtain ⟨hg, hg'⟩ := And.intro (effective_ok hd hfit) (effective_ok hd' hfit')
  rw [hg.1, hg.2, hg'.1, hg'.2, hmin, hmax]
  exact ⟨rfl, rfl⟩

/-! ## 2. What is lost -/

section

variable {t c : ModelGroup} {spot : Position} {i : Nat}

/-- An elimination in a tree of elements and wildcards that the lower bound of the tree notices,
under whatever limit it is computed. -/
structure ChangesMin (t : ModelGroup) (spot : Position) (g : ModelGroup) (i : Nat)
    (c : ModelGroup) :
    Prop where
  declared : t.declared = true
  group : t.subgroup? spot = some g
  eliminable : g.Eliminable i c
  differs : ∀ limit : DepthLimit, t.height ≤ limit.max →
    (t.putAt (g.splice i c) spot).effectiveMin 0 limit ≠ t.effectiveMin 0 limit

theorem changesMin_of_exactMin_ne (hd : t.declared = true) (ht : t.subgroup? spot = some g)
    (hc : g.Eliminable i c)
    (hne : (Particle.group (t.putAt (g.splice i c) spot)).exactMin ≠ (Particle.group t).exactMin) :
    ChangesMin t spot g i c := by
  refine ⟨hd, ht, hc, ?_⟩
  intro limit hfit e
  have hsame := (unaffected_splice hc).putAt ht
  have hd' : (t.putAt (g.splice i c) spot).declared = true := hsame.declared.trans hd
  have hfit' : (t.putAt (g.splice i c) spot).height ≤ limit.max := Nat.le_trans hsame.height hfit
  rw [(effective_ok hd hfit).1, (effective_ok hd' hfit').1, Except.ok.injEq] at e
  have e := congrArg UInt32.toNat e
  rw [Bound.toNat_ofNat_of_lt (Particle.exactMin_lt_size _),
    Bound.toNat_ofNat_of_lt (Particle.exactMin_lt_size _)] at e
  exact hne e

end

/-- An optional wildcard, and one that has to be matched. -/
def pair : List Particle :=
  [.leaf (.wildcard ⟨.any, .optional⟩), .leaf (.wildcard ⟨.any, .once⟩)]

/-- The compositor that tells two such items from a group that combines them in the given way. -/
def contrast : Compositor → Compositor
  | .sequence => .choice
  | .choice => .sequence
  | .all => .all

theorem exactMin_eq_zero_iff_of_once (honce : g.occurs = .once) (hflat : g.flat ≠ []) :
    (Particle.group g).exactMin = 0 ↔ g.compositor.Asks (·.exactMin = 0) g.flat := by
  have hplain : ¬ g.plainlyEmptiable = true := by
    rw [plainlyEmptiable_iff, honce]
    intro h
    rcases h with h | h
    · exact absurd h (by decide)
    · apply hflat
      rw [flat_eq, h, List.flatMap_nil]
  rw [exactMin_eq_zero_iff, or_iff_right hplain]

theorem asks_pair (k : Compositor) : k.Asks (·.exactMin = 0) pair ↔ k = .choice := by
  by_cases hk : k = .choice
  · rw [hk, Compositor.asks_choice]
    exact ⟨fun _ => rfl, fun _ => ⟨_, List.mem_cons_self, Particle.exactMin_leaf _⟩⟩
  · rw [Compositor.asks_of_ne hk]
    constructor
    · intro h
      have hone := h _ (List.mem_cons_of_mem _ List.mem_cons_self)
      rw [Particle.exactMin_leaf] at hone
      exact absurd hone (by decide)
    · intro e
      exact absurd e hk

/-- **Items and group told apart**: on top of the two items the contrasting compositor has one lower
bound, on top of the group that combines them it has another. -/
theorem exactMin_ne_of_contrast {j : Compositor} {top top' : ModelGroup} (hj : j ≠ .all)
    (hcompositor : top.compositor = contrast j) (hcompositor' : top'.compositor = contrast j)
    (honce : top.occurs = .once) (honce' : top'.occurs = .once) (hflat : top.flat = pair)
    (hflat' : top'.flat = [.group ⟨j, .once, pair⟩]) :
    (Particle.group top).exactMin ≠ (Particle.group top').exactMin := by
  have hitems : (Particle.group top).exactMin = 0 ↔ contrast j = .choice := by
    rw [exactMin_eq_zero_iff_of_once honce (hflat ▸ List.cons_ne_nil _ _), hcompositor, hflat,
      asks_pair]
  have hpair : (⟨j, .once, pair⟩ : ModelGroup).flat = pair := rfl
  have hgroup : (Particle.group top').exactMin = 0 ↔ j = .choice := by
    rw [exactMin_eq_zero_iff_of_once honce' (hflat' ▸ List.cons_ne_nil _ _), hcompositor', hflat',
      Compositor.asks_singleton, exactMin_eq_zero_iff_of_once rfl (hpair ▸ List.cons_ne_nil _ _),
      hpair, asks_pair]
  intro e
  rw [e, hgroup] at hitems
  cases j with
  | sequence => exact absurd (hitems.2 rfl) (by decide)
  | choice => exact absurd (hitems.1 rfl) (by decide)
  | all => exact hj rfl

theorem flat_of_single (parent k : Compositor) (p : Particle) :
    (Particle.group ⟨k, .once, [p]⟩).flat parent = p.flat k := by
  have hp : (⟨k, .once, [p]⟩ : ModelGroup).pointless parent = true := rfl
  rw [Particle.flat_group, if_pos hp, flat_eq, List.flatMap_singleton]

theorem flat_pair_of_same {k : Compositor} (hk : k ≠ .all) :
    (Particle.group ⟨k, .once, pair⟩).flat k = pair := by
  have hp : (⟨k, .once, pair⟩ : ModelGroup).pointless k = true := by
    simp [pointless_eq, pair, hk]
  rw [Particle.flat_group, if_pos hp]
  rfl

theorem flat_pair_of_ne {j k : Compositor} (h : j ≠ k) :
    (Particle.group ⟨j, .once, pair⟩).flat k = [.group ⟨j, .once, pair⟩] := by
  have hp : ¬ (⟨j, .once, pair⟩ : ModelGroup).pointless k = true := by
    simp [pointless_eq, pair, h]
  rw [Particle.flat_group, if_neg hp]

/-- A verdict that depends on where the group stands is that of a group with several particles,
which its compositor decides. -/
theorem compositor_of_pointless_ne {h : ModelGroup} {k k' : Compositor}
    (hne : h.pointless k ≠ h.pointless k') :
    h.compositor ≠ .all ∧ (h.compositor = k ↔ h.compositor ≠ k') := by
  rw [pointless_eq, pointless_eq] at hne
  constructor
  · intro hall
    exact hne (by simp [hall])
  · by_cases hk : h.compositor = k
    · by_cases hk' : h.compositor = k'
      · exact absurd (by rw [hk.symm.trans hk']) hne
      · exact iff_of_true hk hk'
    · by_cases hk' : h.compositor = k'
      · exact iff_of_false hk (not_not_intro hk')
      · exact absurd (by rw [beq_false_of_ne hk, beq_false_of_ne hk']) hne

/-- The verdict on the group around the replacement changes only when it had nothing but the
eliminated group, and has several particles afterwards. -/
theorem compositor_of_pointless_splice_ne {c : ModelGroup} {i : Nat} {k : Compositor}
    (hc : g.Eliminable i c) (hne : (g.splice i c).pointless k ≠ g.pointless k) :
    g.compositor ≠ .all ∧ g.compositor ≠ k := by
  have hlen := hc.length_splice
  have hpos := hc.length_pos
  have hlt := (List.getElem?_eq_some_iff.1 hc.place).1
  -- from two particles on, their number does not matter
  have hseveral : ∀ h : ModelGroup, 1 < h.particles.length →
      h.pointless k = (h.occurs == .once && (h.compositor == k && h.compositor != .all)) := by
    intro h hh
    have hzero : (h.particles.length == 0) = false := beq_false_of_ne (by omega)
    have hone : (h.particles.length == 1) = false := beq_false_of_ne (by omega)
    rw [pointless_eq, hzero, hone, Bool.false_or, Bool.false_or]
  by_cases hg : g.particles.length = 1
  · have hgk : g.pointless k = (g.occurs == .once) := by
      rw [pointless_eq, hg]
      simp
    by_cases hone : c.particles.length = 1
    · have hsplice : (g.splice i c).particles.length = 1 := by omega
      have hsame : (g.splice i c).pointless k = g.pointless k := by
        rw [pointless_eq, hsplice, hgk]
        simp [splice]
      exact absurd hsame hne
    · have hboth : c.compositor = g.compositor ∧ c.compositor ≠ .all := by
        have hcp := hc.pointless
        rw [pointless_eq] at hcp
        simpa [hone, hc.nonempty, hc.once] using hcp
      refine ⟨hboth.1 ▸ hboth.2, ?_⟩
      intro hk
      apply hne
      rw [hseveral _ (by omega), hgk]
      simp [splice, ← hk, ← hboth.1, hboth.2]
  · have hsame : (g.splice i c).pointless k = g.pointless k := by
      rw [hseveral _ (by omega), hseveral _ (by omega)]
      rfl
    exact absurd hsame hne

/-- Wherever a nested group is pointless under one compositor and not under another, eliminating a
group of the one from a group of the other can change the lower bound of a tree. -/
theorem exists_changesMin_inside {k k' : Compositor} {h : ModelGroup}
    (hne : h.pointless k ≠ h.pointless k') :
    ∃ t spot g i c h', ChangesMin t spot g i c ∧ g.compositor = k ∧ c.compositor = k' ∧
      c.particles = [.group h'] ∧ h'.compositor = h.compositor := by
  obtain ⟨hall, hiff⟩ := compositor_of_pointless_ne hne
  let h' : ModelGroup := ⟨h.compositor, .once, pair⟩
  let c : ModelGroup := ⟨k', .once, [.group h']⟩
  let g : ModelGroup := ⟨k, .once, [.group c]⟩
  let t : ModelGroup := ⟨contrast h.compositor, .once, [.group g]⟩
  have hc : g.Eliminable 0 c := ⟨rfl, List.cons_ne_nil _ _, rfl⟩
  have ht : t.flat = (Particle.group h').flat k' := by
    rw [flat_eq, List.flatMap_singleton, flat_of_single, flat_of_single]
  have ht' : (t.putAt (g.splice 0 c) [0]).flat = (Particle.group h').flat k := by
    have hput : t.putAt (g.splice 0 c) [0] =
        ⟨contrast h.compositor, .once, [.group ⟨k, .once, [.group h']⟩]⟩ := rfl
    rw [hput, flat_eq, List.flatMap_singleton, flat_of_single]
  refine ⟨t, [0], g, 0, c, h', changesMin_of_exactMin_ne rfl rfl hc ?_, rfl, rfl, rfl, rfl⟩
  by_cases hk : h.compositor = k
  · have hpair : (t.putAt (g.splice 0 c) [0]).flat = pair := by
      rw [ht', ← hk, flat_pair_of_same hall]
    have hgroup : t.flat = [.group h'] := by
      rw [ht, flat_pair_of_ne (hiff.1 hk)]
    exact exactMin_ne_of_contrast hall rfl rfl rfl rfl hpair hgroup
  · have hk' : h.compositor = k' := Classical.not_not.1 fun e => hk (hiff.2 e)
    have hpair : t.flat = pair := by
      rw [ht, ← hk', flat_pair_of_same hall]
    have hgroup : (t.putAt (g.splice 0 c) [0]).flat = [.group h'] := by
      rw [ht', flat_pair_of_ne hk]
    exact (exactMin_ne_of_contrast hall rfl rfl rfl rfl hpair hgroup).symm

/-- Wherever an elimination changes whether the group it takes place in is pointless, one in a group
of the same compositor, standing under the same compositor, can change the lower bound of a tree. -/
theorem exists_changesMin_around {c : ModelGroup} {i : Nat} {k : Compositor} (hc : g.Eliminable i c)
    (hne : (g.splice i c).pointless k ≠ g.pointless k) :
    ∃ t spot above g' i' c', ChangesMin t spot g' i' c' ∧ spot ≠ [] ∧
      t.subgroup? spot.dropLast = some above ∧ above.compositor = k ∧
      g'.compositor = g.compositor := by
  obtain ⟨hall, hk⟩ := compositor_of_pointless_splice_ne hc hne
  let c' : ModelGroup := ⟨g.compositor, .once, pair⟩
  let g' : ModelGroup := ⟨g.compositor, .once, [.group c']⟩
  let above : ModelGroup := ⟨k, .once, [.group g']⟩
  let t : ModelGroup := ⟨contrast g.compositor, .once, [.group above]⟩
  have hc' : g'.Eliminable 0 c' := by
    refine ⟨rfl, List.cons_ne_nil _ _, ?_⟩
    simp [pointless_eq, c', g', pair, hall]
  have hpair : t.flat = pair := by
    rw [flat_eq, List.flatMap_singleton, flat_of_single, flat_of_single, flat_pair_of_same hall]
  have hgroup : (t.putAt (g'.splice 0 c') [0, 0]).flat = [.group c'] := by
    have hput : t.putAt (g'.splice 0 c') [0, 0] =
        ⟨contrast g.compositor, .once, [.group ⟨k, .once, [.group c']⟩]⟩ := rfl
    rw [hput, flat_eq, List.flatMap_singleton, flat_of_single, flat_pair_of_ne hk]
  refine ⟨t, [0, 0], above, g', 0, c', changesMin_of_exactMin_ne rfl rfl hc' ?_,
    List.cons_ne_nil _ _, rfl, rfl, rfl⟩
  exact (exactMin_ne_of_contrast hall rfl rfl rfl rfl hpair hgroup).symm

/-- **When eliminating a pointless group keeps the effective bounds.** It does where it changes no
verdict on pointlessness. Where it changes one, be it inside or around, there is a tree in which the
same compositors meet and whose lower bound changes with the verdict. -/
theorem effective_splice_of_keepsVerdicts {t c : ModelGroup} {spot : Position} {i : Nat}
    {limit : DepthLimit} (hd : t.declared = true) (hfit : t.height ≤ limit.max)
    (ht : t.subgroup? spot = some g) (hc : g.Eliminable i c) :
    (KeepsVerdicts t spot g i c →
      (t.putAt (g.splice i c) spot).effectiveMin 0 limit = t.effectiveMin 0 limit ∧
        (t.putAt (g.splice i c) spot).effectiveMax 0 limit = t.effectiveMax 0 limit) ∧
    (¬ KeepsVerdicts t spot g i c →
      (∃ h, .group h ∈ c.particles ∧ h.pointless g.compositor ≠ h.pointless c.compositor ∧
        ∃ t' spot' g' i' c' h', ChangesMin t' spot' g' i' c' ∧ g'.compositor = g.compositor ∧
          c'.compositor = c.compositor ∧ c'.particles = [.group h'] ∧
            h'.compositor = h.compositor) ∨
      (∃ above, t.subgroup? spot.dropLast = some above ∧
        (g.splice i c).pointless above.compositor ≠ g.pointless above.compositor ∧
        ∃ t' spot' above' g' i' c', ChangesMin t' spot' g' i' c' ∧ spot' ≠ [] ∧
          t'.subgroup? spot'.dropLast = some above' ∧ above'.compositor = above.compositor ∧
          g'.compositor = g.compositor)) := by
  constructor
  · intro hkeeps
    have hsame := (unaffected_splice hc).putAt ht
    have hd' : (t.putAt (g.splice i c) spot).declared = true := hsame.declared.trans hd
    have hfit' : (t.putAt (g.splice i c) spot).height ≤ limit.max := Nat.le_trans hsame.height hfit
    exact effective_congr hd hd' hfit hfit' (sameItems_putAt hc ht hkeeps).range
  · intro hlost
    by_cases hinside :
        ∀ h, .group h ∈ c.particles → h.pointless g.compositor = h.pointless c.compositor
    · -- what changes is the verdict on the group itself
      have haround : ¬ ∀ above, spot ≠ [] → t.subgroup? spot.dropLast = some above →
          (g.splice i c).pointless above.compositor = g.pointless above.compositor :=
        fun h => hlost ⟨hinside, h⟩
      simp only [not_forall] at haround
      obtain ⟨above, _, habove, hne⟩ := haround
      exact .inr ⟨above, habove, hne, exists_changesMin_around hc hne⟩
    · simp only [not_forall] at hinside
      obtain ⟨h, hmem, hne⟩ := hinside
      exact .inl ⟨h, hmem, hne, exists_changesMin_inside hne⟩

/-- A choice between `d` and a sequence that holds nothing but a sequence of an optional `a` and a
`b`. Before the elimination `a` and `b` are branches of the choice, and afterwards their sequence
is. -/
theorem not_effective_splice :
    ¬ ∀ (t g c : ModelGroup) (spot : Position) (i : Nat) (limit : DepthLimit), t.declared = true →
      t.height ≤ limit.max → t.subgroup? spot = some g → g.Eliminable i c →
      (t.putAt (g.splice i c) spot).effectiveMin 0 limit = t.effectiveMin 0 limit ∧
        (t.putAt (g.splice i c) spot).effectiveMax 0 limit = t.effectiveMax 0 limit := by
  intro hall
  let a : Leaf := .element ⟨⟨none, "a"⟩, .optional, none⟩
  let b : Leaf := .element ⟨⟨none, "b"⟩, .once, none⟩
  let d : Leaf := .element ⟨⟨none, "d"⟩, .once, none⟩
  let c : ModelGroup := ⟨.sequence, .once, [.leaf a, .leaf b]⟩
  let g : ModelGroup := ⟨.sequence, .once, [.group c]⟩
  let t : ModelGroup := ⟨.choice, .once, [.group g, .leaf d]⟩
  have hc : g.Eliminable 0 c := ⟨rfl, List.cons_ne_nil _ _, rfl⟩
  have hbefore : (Particle.group t).exactMin = 0 := by
    rw [exactMin_eq_zero_iff]
    exact .inr ⟨.leaf a, List.mem_cons_self, Particle.exactMin_leaf a⟩
  have hb : (Particle.leaf b).exactMin ≠ 0 := by
    rw [Particle.exactMin_leaf]
    decide
  have hc₀ : (Particle.group c).exactMin ≠ 0 := by
    have hflat : c.flat = [.leaf a, .leaf b] := rfl
    have hzero := exactMin_eq_zero_iff_of_once (g := c) rfl (hflat ▸ List.cons_ne_nil _ _)
    rw [Ne, hzero, hflat]
    intro h
    exact hb (h _ (List.mem_cons_of_mem _ List.mem_cons_self))
  have hd₀ : (Particle.leaf d).exactMin ≠ 0 := by
    rw [Particle.exactMin_leaf]
    decide
  have hafter : (Particle.group (t.putAt (g.splice 0 c) [0])).exactMin ≠ 0 := by
    have hflat : (t.putAt (g.splice 0 c) [0]).flat = [.group c, .leaf d] := rfl
    have hzero := exactMin_eq_zero_iff_of_once (g := t.putAt (g.splice 0 c) [0]) rfl
      (hflat ▸ List.cons_ne_nil _ _)
    rw [Ne, hzero, hflat]
    intro h
    obtain ⟨p, hp, hz⟩ := h
    rcases List.mem_cons.1 hp with rfl | hp
    · exact hc₀ hz
    · rw [List.mem_singleton.1 hp] at hz
      exact hd₀ hz
  have hchanges : ChangesMin t [0] g 0 c :=
    changesMin_of_exactMin_ne rfl rfl hc (fun e => hafter (e.trans hbefore))
  have hfit : t.height ≤ DepthLimit.standard.max := by decide
  exact hchanges.differs .standard hfit (hall t g c [0] 0 .standard rfl hfit rfl hc).1

/-- In a choice further down, the choice between an optional `b` and `c` is eliminated without
notice. -/
theorem effective_splice_of_keepsVerdicts_choice_in_choice :
    let leaf (name : String) (o : Occurs) : Particle := .leaf (.element ⟨⟨none, name⟩, o, none⟩)
    let c : ModelGroup := ⟨.choice, .once, [leaf "b" .optional, leaf "c" .once]⟩
    let g : ModelGroup := ⟨.choice, .oneOrMore, [.group c, leaf "d" .once]⟩
    let t : ModelGroup := ⟨.sequence, .once, [leaf "a" .once, .group g]⟩
    let t' := t.putAt (g.splice 0 c) [1]
    t.declared = true ∧ t.height ≤ DepthLimit.standard.max ∧ t.subgroup? [1] = some g ∧
      g.Eliminable 0 c ∧ KeepsVerdicts t [1] g 0 c ∧
      t'.effectiveMin 0 .standard = t.effectiveMin 0 .standard ∧
      t'.effectiveMax 0 .standard = t.effectiveMax 0 .standard := by
  intro leaf c g t t'
  have hfit : t.height ≤ DepthLimit.standard.max := by decide
  have hc : g.Eliminable 0 c := ⟨rfl, List.cons_ne_nil _ _, rfl⟩
  have hkeeps : KeepsVerdicts t [1] g 0 c := by
    refine ⟨?_, ?_⟩
    · intro h hh
      simp [c, leaf] at hh
    · intro above _ habove
      cases habove
      rfl
  have hd : t.declared = true := rfl
  have hg : t.subgroup? [1] = some g := rfl
  obtain ⟨hmin, hmax⟩ := (effective_splice_of_keepsVerdicts hd hfit hg hc).1 hkeeps
  exact ⟨hd, hfit, hg, hc, hkeeps, hmin, hmax⟩

end ModelGroup

end ContentModel
