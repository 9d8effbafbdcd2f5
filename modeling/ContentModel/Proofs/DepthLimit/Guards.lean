import ContentModel.Proofs.DepthLimit.Raised
import ContentModel.Proofs.Walk.Leaves

/-!
# What is too deep for a walk, and for a search

Two traversals go through all groups of a tree: the walk over its leaves, where no group is
prohibited, and the search for a particle that is not there. Both stop at a group that lies too
deep, but they do not count alike. Before it enters a group, the walk checks the level of that
group; the search checks the number of groups on its stack, which are those around the group that it
is in, without that one.

> **The search under a limit reaches as deep as the walk does under the next higher one**
> (`ModelGroup.search_fails_iff_walk_stops`).

So the two agree under one limit on every tree except those that are one level too high: there the
walk is stopped, and the search comes to its end.
-/

set_option autoImplicit false

namespace ContentModel

/-! ## 1. The walk -/

/-- No group of the tree is prohibited. -/
def ModelGroup.Open (g : ModelGroup) : Prop :=
  ∀ spot h, g.subgroup? spot = some h → h.occurs.max ≠ .finite 0

theorem ModelGroup.open_iff {g : ModelGroup} :
    g.Open ↔ g.occurs.max ≠ .finite 0 ∧ ∀ h, .group h ∈ g.particles → h.Open := by
  constructor
  · intro ho
    refine ⟨ho [] g rfl, fun h hmem spot k hk => ?_⟩
    obtain ⟨i, hi⟩ := exists_subgroup?_of_mem hmem
    exact ho (i :: spot) k ((hi spot).trans hk)
  · intro ⟨hmax, hinner⟩ spot k hk
    cases spot with
    | nil =>
      cases hk
      exact hmax
    | cons i spot =>
      obtain ⟨h, hi, hk⟩ := subgroup?_cons_eq_some.1 hk
      exact hinner h (List.mem_of_getElem? hi) spot k hk

theorem ModelGroup.Open.not_empty {g : ModelGroup} (ho : g.Open) : ¬ g.occurs.empty = true :=
  fun he => (open_iff.1 ho).1 (beq_iff_eq.1 he)

section

variable {limit : DepthLimit}

/-- **One particle**, by induction over the tree: where all groups are entered, one of them is
refused if the particle nests too deeply. -/
theorem Particle.passes_leaves (p : Particle) :
    ∀ {parent : Compositor} {depth : Nat}, (∀ g, p = .group g → g.Open) → depth ≤ limit.max →
      ((p.trail .leaves limit parent depth).Passes (fun _ => True) ↔
        depth + p.nesting ≤ limit.max) := by
  induction p using Particle.induction with
  | leaf l =>
    intro parent depth _ hdepth
    rw [Particle.trail_leaf, Trail.passes_single, Particle.nesting_leaf]
    exact iff_of_true trivial hdepth
  | group g ih =>
    intro parent depth hopen _
    have ho := hopen g rfl
    rw [Particle.trail_leaves_group, Depth.down_nat, Walk.trail_leaves, if_neg ho.not_empty,
      Particle.nesting_group, Nat.add_comm g.height 1, ← Nat.add_assoc]
    by_cases hlevel : depth + 1 ≤ limit.max
    · rw [DepthLimit.check_of_le hlevel, ModelGroup.add_height_le_iff hlevel]
      refine Particle.passes_trailAll.trans (forall_congr' fun q => forall_congr' fun hq => ?_)
      refine ih q hq (fun h e => ?_) hlevel
      rw [e] at hq
      exact (ModelGroup.open_iff.1 ho).2 h hq
    · rw [DepthLimit.check_of_lt (Nat.lt_of_not_le hlevel)]
      exact iff_of_false Trail.not_passes_of_error fun h =>
        hlevel (Nat.le_trans (Nat.le_add_right _ _) h)

/-- **The walk over the leaves** is stopped exactly if the tree is higher than the limit. -/
theorem ModelGroup.leaves_stops_iff {g : ModelGroup} (ho : g.Open) :
    (Walk.leaves g 0 limit).Stops ↔ limit.max < g.height := by
  have hzero : 0 ≤ limit.max := Nat.zero_le _
  rw [Walk.stops_iff, ← Nat.not_le, ← Nat.zero_add g.height, add_height_le_iff hzero]
  refine not_congr ?_
  rw [Walk.trail_leaves, if_neg ho.not_empty, DepthLimit.check_of_le hzero]
  refine Trail.passes_true.symm.trans (Particle.passes_trailAll.trans ?_)
  refine forall_congr' fun p => forall_congr' fun hp => p.passes_leaves (fun h e => ?_) hzero
  rw [e] at hp
  exact (open_iff.1 ho).2 h hp

end

/-! ## 2. The search -/

section

variable {g : ModelGroup} {s : Sought} {limit : DepthLimit}

/-- The search for a particle that is not there fails for the depth. -/
theorem ModelGroup.search_fails_iff (hm : Enclosing.Misses s.position g) :
    (∃ e, g.enclosing s limit = .error (.depth e)) ↔ limit.max + 1 < g.height := by
  rw [enclosing_of_misses hm, ← Nat.not_le]
  by_cases hfit : g.height ≤ limit.max + 1
  · rw [if_pos hfit]
    exact iff_of_false (fun ⟨e, he⟩ => nomatch he) (not_not_intro hfit)
  · rw [if_neg hfit]
    exact iff_of_true ⟨_, rfl⟩ hfit

end

/-! ## 3. One against the other -/

section

variable {g : ModelGroup} {s : Sought}

/-- **The search reaches one level deeper than the walk.** Where no group of a tree is prohibited
and the particle is not in the tree, the search under a limit fails for the depth exactly if the
walk over the leaves under the next higher limit is stopped, which is if a group lies at a level
above that one, and otherwise it reports the particle missing. Under one limit the two agree on all
trees but those that are one level higher than it. -/
theorem ModelGroup.search_fails_iff_walk_stops (ho : g.Open) (hm : Enclosing.Misses s.position g)
    (limit : DepthLimit) :
    ((∃ e, g.enclosing s limit = .error (.depth e)) ↔ (Walk.leaves g 0 ⟨limit.max + 1⟩).Stops) ∧
    ((∃ e, g.enclosing s limit = .error (.depth e)) ↔
      ∃ spot h, g.subgroup? spot = some h ∧ limit.max + 1 < spot.length) ∧
    ((¬ ∃ e, g.enclosing s limit = .error (.depth e)) →
      g.enclosing s limit = .error (.model ⟨.notAParticle s.particle.text, some g.text⟩)) ∧
    ((Walk.leaves g 0 limit).Stops ↔
      ∃ spot h, g.subgroup? spot = some h ∧ limit.max < spot.length) ∧
    (((∃ e, g.enclosing s limit = .error (.depth e)) ↔ (Walk.leaves g 0 limit).Stops) ↔
      g.height ≠ limit.max + 1) := by
  have hsearch : (∃ e, g.enclosing s limit = .error (.depth e)) ↔ limit.max + 1 < g.height :=
    search_fails_iff hm
  have hwalk : (Walk.leaves g 0 limit).Stops ↔ limit.max < g.height := leaves_stops_iff ho
  refine ⟨?_, ?_, ?_, ?_, ?_⟩
  · rw [hsearch, leaves_stops_iff ho]
  · rw [hsearch, lt_height_iff]
  · intro hfits
    rw [enclosing_of_misses hm]
    exact if_pos (Nat.not_lt.1 (mt hsearch.2 hfits))
  · rw [hwalk, lt_height_iff]
  · rw [hsearch, hwalk]
    omega

/-- An element in a sequence, and that in as many others as the number says. -/
def nestedSequences : Nat → ModelGroup
  | 0 => ⟨.sequence, .once, [.leaf (.element ⟨⟨none, "a"⟩, .once, none⟩)]⟩
  | n + 1 => ⟨.sequence, .once, [.group (nestedSequences n)]⟩

theorem nestedSequences_open (n : Nat) : (nestedSequences n).Open := by
  induction n with
  | zero => exact ModelGroup.open_iff.2 ⟨by decide, fun h hmem => nomatch List.mem_singleton.1 hmem⟩
  | succ n ih =>
    have hmax : Occurs.once.max ≠ .finite 0 := by decide
    refine ModelGroup.open_iff.2 ⟨hmax, fun h hmem => ?_⟩
    cases List.mem_singleton.1 hmem
    exact ih

/-- A sequence in a sequence is too deep under the limit zero for the walk, while the search comes
to its end; one more around them is too deep for both. -/
theorem ModelGroup.search_fails_iff_walk_stops_nested_sequences :
    let s : Sought := ⟨.leaf (.element ⟨⟨none, "a"⟩, .once, none⟩), none⟩
    let two := nestedSequences 1
    let three := nestedSequences 2
    two.Open ∧ three.Open ∧ (∀ g, Enclosing.Misses s.position g) ∧
      two.enclosing s ⟨0⟩ = .error (.model ⟨.notAParticle s.particle.text, some two.text⟩) ∧
      (Walk.leaves two 0 ⟨0⟩).Stops ∧
      (∃ e, three.enclosing s ⟨0⟩ = .error (.depth e)) ∧ (Walk.leaves three 0 ⟨0⟩).Stops := by
  intro s two three
  have hm : ∀ g, Enclosing.Misses s.position g := fun _ _ _ e => nomatch e
  have htwo := nestedSequences_open 1
  have hthree := nestedSequences_open 2
  have hheight : two.height = 1 := by decide
  obtain ⟨-, -, hmissing, hstops, hagree⟩ := search_fails_iff_walk_stops htwo (hm two) ⟨0⟩
  obtain ⟨-, hfails', -, hstops', -⟩ := search_fails_iff_walk_stops hthree (hm three) ⟨0⟩
  have hstopped : (Walk.leaves two 0 ⟨0⟩).Stops := hstops.2 ⟨[0], _, rfl, Nat.zero_lt_one⟩
  have hdeep : [0, 0].length > 1 := by decide
  refine ⟨htwo, hthree, hm, hmissing fun hfailed => ?_, hstopped, ?_, ?_⟩
  · exact hagree.1 (iff_of_true hfailed hstopped) hheight
  · exact hfails'.2 ⟨[0, 0], _, rfl, hdeep⟩
  · exact hstops'.2 ⟨[0, 0], _, rfl, Nat.lt_of_succ_lt hdeep⟩

/-- Under one limit the search and the walk do not agree, nor does the search on which levels are
too deep: the sequence in the sequence again. -/
theorem ModelGroup.not_search_fails_iff_walk_stops :
    ¬ ∀ (g : ModelGroup) (s : Sought) (limit : DepthLimit), g.Open → Enclosing.Misses s.position g →
      ((∃ e, g.enclosing s limit = .error (.depth e)) ↔ (Walk.leaves g 0 limit).Stops) ∧
      ((∃ e, g.enclosing s limit = .error (.depth e)) ↔
        ∃ spot h, g.subgroup? spot = some h ∧ limit.max < spot.length) := by
  intro hclaim
  let stranger : Particle := .leaf (.element ⟨⟨none, "a"⟩, .once, none⟩)
  have ho := nestedSequences_open 1
  have hm : Enclosing.Misses none (nestedSequences 1) := fun _ _ e => nomatch e
  have hheight : (nestedSequences 1).height = 1 := by decide
  obtain ⟨hagree, -⟩ := hclaim (nestedSequences 1) ⟨stranger, none⟩ ⟨0⟩ ho hm
  rw [search_fails_iff hm, leaves_stops_iff ho, hheight] at hagree
  exact absurd (hagree.2 Nat.zero_lt_one) (Nat.lt_irrefl 1)

end

end ContentModel
