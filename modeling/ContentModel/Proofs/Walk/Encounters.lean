import ContentModel.Proofs.Walk.Calls
import ContentModel.Proofs.Walk.Words

/-!
# What a walk comes upon

Before any limit is set, a walk is a listing: the groups it reaches and the particles it hands out,
in document order, each with its place in the tree (`ModelGroup.encounters`). The listing is a
recursion over the particles that knows nothing of depths, stacks or errors. What a limit does is to
cut it off:

> **a walk hands out what it comes upon before the first group that lies too deep, and ends in the
> error for that group** (`Encounter.cut`); the depth of a place lies as many levels below the depth
> that the walk started at as there are steps that lead there.

`Particle.trail_eq_cut` says so of any manner of walking, whatever depths are counted in. For the
walk over items the listing dissolves the pointless groups, and `Walk.items_answer` reads its calls
off.
-/

set_option autoImplicit false

namespace ContentModel

/-! ## 1. Encounters -/

/-- Something that a walk comes upon. -/
inductive Encounter
  /-- The group at a position, which is entered or passed over. -/
  | reached (g : ModelGroup) (spot : Position)
  /-- A particle that is handed out, with the group that directly contains it and its index
  there. -/
  | found (p : Particle) (spot : Position) (i : Nat)

namespace Encounter

/-- The position of what was met. -/
def way : Encounter → Position
  | reached _ spot => spot
  | found _ spot i => spot ++ [i]

/-- The same encounter, seen from the group that has the starting group at the given index. -/
def under (i : Nat) : Encounter → Encounter
  | reached g spot => reached g (i :: spot)
  | found p spot k => found p (i :: spot) k

/-- The encounter is with what stands at its position. -/
def At (g : ModelGroup) : Encounter → Prop
  | reached h spot => g.subgroup? spot = some h
  | found p spot i => ∃ h, g.subgroup? spot = some h ∧ h.particles[i]? = some p

@[simp] theorem way_under (i : Nat) (e : Encounter) : (e.under i).way = i :: e.way := by
  cases e with
  | reached g spot => rfl
  | found p spot k => rfl

theorem At.under {g inner : ModelGroup} {i : Nat} {e : Encounter} (h : e.At inner)
    (hi : g.particles[i]? = some (.group inner)) : (e.under i).At g := by
  cases e with
  | reached k spot => exact (ModelGroup.subgroup?_cons_of spot hi).trans h
  | found p spot j =>
    obtain ⟨k, hk, hp⟩ := h
    exact ⟨k, (ModelGroup.subgroup?_cons_of spot hi).trans hk, hp⟩

end Encounter

section

variable (visit : Compositor → ModelGroup → Visit)

mutual

/-- What a walk comes upon at a particle, which has the given index in a group of the given
compositor. -/
def Particle.encounters (parent : Compositor) (i : Nat) : Particle → List Encounter
  | .leaf l => [.found (.leaf l) [] i]
  | .group ⟨c, o, ps⟩ =>
    match visit parent ⟨c, o, ps⟩ with
    | .yield => [.found (.group ⟨c, o, ps⟩) [] i]
    | .enter => (.reached ⟨c, o, ps⟩ [] :: Particle.encountersAll c 0 ps).map (.under i)
    | .pass => [.reached ⟨c, o, ps⟩ [i]]

/-- The same for the particles of a group from an index on. -/
def Particle.encountersAll (parent : Compositor) (i : Nat) : List Particle → List Encounter
  | [] => []
  | p :: ps => p.encounters parent i ++ Particle.encountersAll parent (i + 1) ps

end

/-- What a walk that enters a group comes upon, the group first. -/
def ModelGroup.encounters (g : ModelGroup) : List Encounter :=
  .reached g [] :: Particle.encountersAll visit g.compositor 0 g.particles

theorem Particle.encounters_leaf (parent : Compositor) (i : Nat) (l : Leaf) :
    (Particle.leaf l).encounters visit parent i = [.found (.leaf l) [] i] := by
  rw [Particle.encounters]

theorem Particle.encounters_group (parent : Compositor) (i : Nat) (g : ModelGroup) :
    (Particle.group g).encounters visit parent i =
      match visit parent g with
      | .yield => [.found (.group g) [] i]
      | .enter => (g.encounters visit).map (.under i)
      | .pass => [.reached g [i]] := by
  cases g
  rw [Particle.encounters]
  rfl

end

/-! ## 2. Places -/

section

variable {visit : Compositor → ModelGroup → Visit}

/-- What is met at the index of a particle has a position that begins with the index. -/
theorem Particle.way_of_mem_encounters {parent : Compositor} {i : Nat} {p : Particle}
    {e : Encounter} (h : e ∈ p.encounters visit parent i) : ∃ way, e.way = i :: way := by
  cases p with
  | leaf l =>
    rw [Particle.encounters_leaf, List.mem_singleton] at h
    exact ⟨[], congrArg Encounter.way h⟩
  | group g =>
    rw [Particle.encounters_group] at h
    cases hv : visit parent g with
    | yield =>
      rw [hv, List.mem_singleton] at h
      exact ⟨[], congrArg Encounter.way h⟩
    | enter =>
      rw [hv] at h
      obtain ⟨e, -, rfl⟩ := List.mem_map.1 h
      exact ⟨e.way, Encounter.way_under i e⟩
    | pass =>
      rw [hv, List.mem_singleton] at h
      exact ⟨[], congrArg Encounter.way h⟩

/-- What is met at some particles of a group is met at one of them. -/
theorem Particle.mem_encountersAll {parent : Compositor} {e : Encounter} {ps : List Particle}
    {i : Nat} :
    e ∈ Particle.encountersAll visit parent i ps ↔
      ∃ (k : Nat) (p : Particle), ps[k]? = some p ∧ e ∈ p.encounters visit parent (i + k) := by
  induction ps generalizing i with
  | nil => simp [Particle.encountersAll]
  | cons q ps ih =>
    rw [Particle.encountersAll, List.mem_append, ih]
    constructor
    · rintro (h | ⟨k, p, hp, h⟩)
      · exact ⟨0, q, rfl, h⟩
      · exact ⟨k + 1, p, hp, by rwa [Nat.add_right_comm] at h⟩
    · rintro ⟨_ | k, p, hp, h⟩
      · cases hp
        exact .inl h
      · exact .inr ⟨k, p, hp, by rwa [Nat.add_right_comm]⟩

theorem Particle.way_of_mem_encountersAll {parent : Compositor} {ps : List Particle} {i : Nat}
    {e : Encounter} (h : e ∈ Particle.encountersAll visit parent i ps) :
    ∃ j way, i ≤ j ∧ e.way = j :: way := by
  obtain ⟨k, p, -, h⟩ := Particle.mem_encountersAll.1 h
  obtain ⟨way, hway⟩ := Particle.way_of_mem_encounters h
  exact ⟨i + k, way, Nat.le_add_right i k, hway⟩

/-- The particles of a group are met one after the other. -/
theorem Particle.pairwise_encountersAll {parent : Compositor} {ps : List Particle}
    (h : ∀ p ∈ ps, ∀ i, (p.encounters visit parent i).Pairwise (·.way < ·.way)) (i : Nat) :
    (Particle.encountersAll visit parent i ps).Pairwise (·.way < ·.way) := by
  induction ps generalizing i with
  | nil =>
    rw [Particle.encountersAll]
    exact List.Pairwise.nil
  | cons p ps ih =>
    rw [Particle.encountersAll, List.pairwise_append]
    refine ⟨h p List.mem_cons_self i, ih (fun q hq => h q (List.mem_cons_of_mem p hq)) (i + 1), ?_⟩
    intro e he f hf
    obtain ⟨way, hway⟩ := Particle.way_of_mem_encounters he
    obtain ⟨j, way', hj, hway'⟩ := Particle.way_of_mem_encountersAll hf
    rw [hway, hway']
    exact List.cons_lt_cons_iff.2 (.inl hj)

/-- The group itself comes first. -/
theorem ModelGroup.pairwise_encounters_of {g : ModelGroup}
    (h : ∀ p ∈ g.particles, ∀ i, (p.encounters visit g.compositor i).Pairwise (·.way < ·.way)) :
    (g.encounters visit).Pairwise (·.way < ·.way) := by
  refine List.pairwise_cons.2 ⟨?_, Particle.pairwise_encountersAll h 0⟩
  intro e he
  obtain ⟨j, way, -, hway⟩ := Particle.way_of_mem_encountersAll he
  rw [hway]
  exact List.nil_lt_cons j way

theorem Particle.pairwise_encounters (p : Particle) :
    ∀ (parent : Compositor) (i : Nat), (p.encounters visit parent i).Pairwise (·.way < ·.way) := by
  induction p using Particle.induction with
  | leaf l =>
    intro parent i
    rw [Particle.encounters_leaf]
    exact List.pairwise_singleton _ _
  | group g ih =>
    intro parent i
    rw [Particle.encounters_group]
    cases visit parent g with
    | yield => exact List.pairwise_singleton _ _
    | enter =>
      have hg := ModelGroup.pairwise_encounters_of fun p hp => ih p hp g.compositor
      refine List.Pairwise.map (Encounter.under i) ?_ hg
      intro e f hlt
      rw [Encounter.way_under, Encounter.way_under]
      exact List.cons_lt_cons_iff.2 (.inr ⟨rfl, hlt⟩)
    | pass => exact List.pairwise_singleton _ _

/-- **Document order**: positions ascend, so that nothing is met twice. -/
theorem ModelGroup.pairwise_encounters (g : ModelGroup) :
    (g.encounters visit).Pairwise (·.way < ·.way) :=
  ModelGroup.pairwise_encounters_of fun p _ => p.pairwise_encounters g.compositor

/-- **Places**: what is met is what stands at its position. -/
theorem ModelGroup.at_of_mem_encounters {g : ModelGroup} : ∀ e ∈ g.encounters visit, e.At g := by
  induction g using ModelGroup.induction with
  | step g ih =>
    intro e he
    rcases List.mem_cons.1 he with rfl | he
    · exact ModelGroup.subgroup?_nil g
    · obtain ⟨i, p, hi, he⟩ := Particle.mem_encountersAll.1 he
      rw [Nat.zero_add] at he
      cases p with
      | leaf l =>
        rw [Particle.encounters_leaf, List.mem_singleton] at he
        rw [he]
        exact ⟨g, ModelGroup.subgroup?_nil g, hi⟩
      | group h =>
        rw [Particle.encounters_group] at he
        cases hv : visit g.compositor h with
        | yield =>
          rw [hv, List.mem_singleton] at he
          rw [he]
          exact ⟨g, ModelGroup.subgroup?_nil g, hi⟩
        | enter =>
          rw [hv] at he
          obtain ⟨f, hf, rfl⟩ := List.mem_map.1 he
          exact (ih h (List.mem_of_getElem? hi) f hf).under hi
        | pass =>
          rw [hv, List.mem_singleton] at he
          rw [he]
          exact (ModelGroup.subgroup?_cons_of [] hi).trans (ModelGroup.subgroup?_nil h)

end

/-! ## 3. Cut off by a limit -/

namespace Encounter

section

variable {δ : Type} [Depth δ]

/-- The error for a group that lies too deep, for a walk that starts at a depth. -/
def error? (depth : δ) (limit : DepthLimit δ) : Encounter → Option DepthError
  | reached g spot =>
    let level := Depth.toNat (Depth.down depth spot.length)
    if Depth.toNat limit.max < level then some ⟨level, Depth.toNat limit.max, some g.text⟩ else none
  | found _ _ _ => none

/-- What is handed out, with the depth of the group that directly contains it. -/
def item? (depth : δ) : Encounter → Option (Item δ)
  | reached _ _ => none
  | found p spot _ => some ⟨p, Depth.down depth spot.length⟩

/-- What is handed out before the first group that lies too deep, and the error for that group. -/
def cut (depth : δ) (limit : DepthLimit δ) (met : List Encounter) : Trail δ where
  items := (met.takeWhile fun e => (e.error? depth limit).isNone).filterMap (·.item? depth)
  ending :=
    match met.findSome? (·.error? depth limit) with
    | some e => .error e
    | none => .ok ()

variable {depth : δ} {limit : DepthLimit δ}

theorem cut_cons_of_error {e : Encounter} {err : DepthError} (h : e.error? depth limit = some err)
    (met : List Encounter) : cut depth limit (e :: met) = ⟨[], .error err⟩ := by
  unfold cut
  rw [List.takeWhile_cons_of_neg (by rw [h]; exact Bool.false_ne_true),
    List.findSome?_cons_of_isSome (by rw [h]; rfl), h]
  rfl

theorem cut_cons_of_none {e : Encounter} (h : e.error? depth limit = none) (met : List Encounter) :
    cut depth limit (e :: met) =
      ⟨(e.item? depth).toList ++ (cut depth limit met).items, (cut depth limit met).ending⟩ := by
  unfold cut
  rw [List.takeWhile_cons_of_pos (by rw [h]; rfl), List.findSome?_cons_of_isNone (by rw [h]; rfl),
    List.filterMap_cons]
  cases e.item? depth with
  | none => rfl
  | some i => rfl

theorem cut_append (met further : List Encounter) :
    cut depth limit (met ++ further) = (cut depth limit met).andThen (cut depth limit further) := by
  induction met with
  | nil => exact (Trail.nothing_andThen _).symm
  | cons e met ih =>
    rw [List.cons_append]
    cases h : e.error? depth limit with
    | some err =>
      rw [cut_cons_of_error h, cut_cons_of_error h]
      rfl
    | none =>
      rw [cut_cons_of_none h, cut_cons_of_none h, ih]
      unfold Trail.andThen
      cases (cut depth limit met).ending with
      | error err => rfl
      | ok u => rw [List.append_assoc]

/-- What lies one step further down lies one level deeper. -/
theorem down_length_cons (depth : δ) (i : Nat) (spot : Position) :
    Depth.down depth (i :: spot).length = Depth.down (Depth.down depth 1) spot.length := by
  rw [Depth.down_down, List.length_cons, Nat.add_comm]

theorem error?_under (i : Nat) (e : Encounter) :
    (e.under i).error? depth limit = e.error? (Depth.down depth 1) limit := by
  cases e with
  | reached g spot => rw [under, error?, error?, down_length_cons]
  | found p spot k => rfl

theorem item?_under (i : Nat) (e : Encounter) :
    (e.under i).item? depth = e.item? (Depth.down depth 1) := by
  cases e with
  | reached g spot => rfl
  | found p spot k => rw [under, item?, item?, down_length_cons]

/-- One level further down everything lies one deeper. -/
theorem cut_map_under (i : Nat) (met : List Encounter) :
    cut depth limit (met.map (.under i)) = cut (Depth.down depth 1) limit met := by
  induction met with
  | nil => rfl
  | cons e met ih =>
    rw [List.map_cons]
    cases h : e.error? (Depth.down depth 1) limit with
    | some err => rw [cut_cons_of_error ((error?_under i e).trans h), cut_cons_of_error h]
    | none =>
      rw [cut_cons_of_none ((error?_under i e).trans h), cut_cons_of_none h, ih, item?_under]

theorem error?_reached (depth : δ) (limit : DepthLimit δ) (g : ModelGroup) (spot : Position) :
    (reached g spot).error? depth limit =
      match limit.check (Depth.down depth spot.length) with
      | .error e => some (e.walking g)
      | .ok _ => none := by
  rw [error?, DepthLimit.check]
  by_cases h : Depth.toNat limit.max < Depth.toNat (Depth.down depth spot.length)
  · rw [if_pos h, if_pos h]
    rfl
  · rw [if_neg h, if_neg h]

/-- A group that is reached and passed over. -/
theorem cut_reached (depth : δ) (limit : DepthLimit δ) (g : ModelGroup) (spot : Position) :
    cut depth limit [reached g spot] =
      match limit.check (Depth.down depth spot.length) with
      | .error e => ⟨[], .error (e.walking g)⟩
      | .ok _ => .nothing := by
  have herror := error?_reached depth limit g spot
  cases hc : limit.check (Depth.down depth spot.length) with
  | error e =>
    rw [hc] at herror
    exact cut_cons_of_error herror []
  | ok u =>
    rw [hc] at herror
    exact cut_cons_of_none herror []

end

end Encounter

/-! ## 4. The walk and the listing -/

section

variable {δ : Type} [Depth δ] {m : Manner} {limit : DepthLimit δ}

theorem Particle.trailAll_eq_cut {parent : Compositor} {depth : δ} {ps : List Particle}
    (h : ∀ p ∈ ps, ∀ i, p.trail m limit parent depth =
      Encounter.cut depth limit (p.encounters m.visit parent i)) (i : Nat) :
    Particle.trailAll m limit parent depth ps =
      Encounter.cut depth limit (Particle.encountersAll m.visit parent i ps) := by
  induction ps generalizing i with
  | nil =>
    rw [Particle.trailAll, Particle.encountersAll]
    rfl
  | cons p ps ih =>
    rw [Particle.trailAll, Particle.encountersAll, Encounter.cut_append, h p List.mem_cons_self i,
      ih (fun q hq => h q (List.mem_cons_of_mem p hq)) (i + 1)]

/-- A group is reached before anything in it. -/
theorem ModelGroup.cut_encounters {g : ModelGroup} {depth : δ}
    (h : ∀ p ∈ g.particles, ∀ i, p.trail m limit g.compositor depth =
      Encounter.cut depth limit (p.encounters m.visit g.compositor i)) :
    Encounter.cut depth limit (g.encounters m.visit) =
      match limit.check depth with
      | .error e => ⟨[], .error (e.walking g)⟩
      | .ok _ => Particle.trailAll m limit g.compositor depth g.particles := by
  rw [ModelGroup.encounters, ← List.singleton_append, Encounter.cut_append, Encounter.cut_reached,
    List.length_nil, Depth.down_zero, Particle.trailAll_eq_cut h 0]
  cases limit.check depth with
  | error e => rfl
  | ok u => rfl

/-- **A walk is its listing, cut off**, by induction over the tree. -/
theorem Particle.trail_eq_cut (p : Particle) : ∀ (parent : Compositor) (depth : δ) (i : Nat),
    p.trail m limit parent depth = Encounter.cut depth limit (p.encounters m.visit parent i) := by
  induction p using Particle.induction with
  | leaf l =>
    intro parent depth i
    rw [Particle.trail_leaf, Particle.encounters_leaf, Encounter.cut_cons_of_none rfl]
    exact congrArg (fun d => Trail.mk [Item.mk (.leaf l) d] (.ok ())) (Depth.down_zero depth).symm
  | group g ih =>
    intro parent depth i
    rw [Particle.trail_group, Particle.encounters_group]
    cases hv : m.visit parent g with
    | yield =>
      dsimp only
      rw [Encounter.cut_cons_of_none rfl]
      exact congrArg (fun d => Trail.mk [Item.mk (.group g) d] (.ok ()))
        (Depth.down_zero depth).symm
    | enter =>
      have hg := ModelGroup.cut_encounters fun p hp i => ih p hp g.compositor (Depth.down depth 1) i
      dsimp only
      rw [Encounter.cut_map_under, hg]
      cases limit.check (Depth.down depth 1) with
      | error e => rfl
      | ok u => rfl
    | pass =>
      dsimp only
      rw [Encounter.cut_reached, List.length_singleton]
      cases limit.check (Depth.down depth 1) with
      | error e => rfl
      | ok u => rfl

/-- The walk over the items of a group, all at once. -/
theorem Walk.trail_items (g : ModelGroup) (depth : δ) (limit : DepthLimit δ) :
    (Walk.items g depth limit).trail =
      Encounter.cut depth limit
        (g.encounters fun parent h => if h.pointless parent then .enter else .yield) := by
  unfold Walk.items
  rw [Walk.trail_start]
  exact (ModelGroup.cut_encounters fun p _ i => p.trail_eq_cut g.compositor depth i).symm

end

/-- **The walk over items, call by call.** It comes upon the particles of a group in document order,
where it enters the groups that are pointless in the group directly around them instead of handing
them out. What it hands out are the particles before the first group that lies too deep, then the
error for that group, then nothing; and after each particle it reports the depth of the group that
directly contains it. The depths are words, and wrap around; under a limit below the greatest word,
and in a tree that does not reach up to it, they are the plain sums. -/
theorem Walk.items_answer (g : ModelGroup) (start limit : UInt64) :
    let w := Walk.items g start ⟨limit⟩
    let met := g.encounters fun parent h => if h.pointless parent then .enter else .yield
    let cut := Encounter.cut start ⟨limit⟩ met
    met.Pairwise (·.way < ·.way) ∧ (∀ e ∈ met, e.At g) ∧
      (∀ n, w.answer n = cut.answers[n]?) ∧
      (∀ n i, cut.items[n]? = some i → (w.after (n + 1)).depth = i.depth) ∧
      (limit.toNat + 1 < UInt64.size ∨ start.toNat + g.height + 1 < UInt64.size →
        cut.plain = Encounter.cut start.toNat ⟨limit.toNat⟩ met) := by
  intro w met cut
  have htrail : w.trail = cut := Walk.trail_items g start ⟨limit⟩
  refine ⟨g.pairwise_encounters, g.at_of_mem_encounters, ?_, ?_, ?_⟩
  · intro n
    rw [Walk.answer_eq, htrail]
  · intro n i hi
    refine w.depth_after n ?_
    rw [htrail]
    exact hi
  · intro hfits
    rw [← htrail, ← Walk.trail_items g start.toNat ⟨limit.toNat⟩]
    exact Walk.plain_trail hfits .items

/-- A sequence within a sequence is dissolved, and the choice in it, which would be too, lies too
deep for the limit: `c` is found one level down, and the error comes in the place of `b`. From the
greatest word on, and with that as the limit, nothing lies too deep: the inner sequence has depth
zero. -/
theorem Walk.items_answer_cut_off :
    let leaf : String → Particle := fun name => .leaf (.element ⟨⟨none, name⟩, .once, none⟩)
    let inner : ModelGroup := ⟨.choice, .once, [leaf "b"]⟩
    let middle : ModelGroup := ⟨.sequence, .once, [leaf "c", .group inner]⟩
    let g : ModelGroup := ⟨.sequence, .once, [leaf "a", .group middle, leaf "d"]⟩
    let w := Walk.items g (0 : UInt64) ⟨1⟩
    let far := Walk.items g (0xFFFFFFFFFFFFFFFF : UInt64) ⟨0xFFFFFFFFFFFFFFFF⟩
    (w.answer 0 = some (.ok (leaf "a")) ∧ (w.after 1).depth = 0 ∧
      w.answer 1 = some (.ok (leaf "c")) ∧ (w.after 2).depth = 1 ∧
      w.answer 2 = some (.error ⟨2, 1, some inner.text⟩) ∧ ∀ n, w.answer (n + 3) = none) ∧
    (far.answer 1 = some (.ok (leaf "c")) ∧ (far.after 2).depth = 0 ∧ far.answer 4 = none) ∧
    w.trail.plain = (Walk.items g 0 ⟨1⟩).trail := by
  intro leaf inner middle g w far
  obtain ⟨-, -, hanswer, hdepth, hplain⟩ := Walk.items_answer g 0 1
  obtain ⟨-, -, hfar, hfardepth, -⟩ := Walk.items_answer g 0xFFFFFFFFFFFFFFFF 0xFFFFFFFFFFFFFFFF
  refine ⟨⟨hanswer 0, hdepth 0 _ rfl, hanswer 1, hdepth 1 _ rfl, hanswer 2,
    fun n => hanswer (n + 3)⟩, ⟨hfar 1, hfardepth 1 _ rfl, hfar 4⟩, ?_⟩
  rw [Walk.trail_items, Walk.trail_items]
  exact hplain (.inl (by decide))

end ContentModel
