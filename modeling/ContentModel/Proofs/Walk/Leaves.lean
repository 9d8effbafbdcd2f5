import ContentModel.Proofs.Presence
import ContentModel.Proofs.Walk.Calls
import Mathlib.Data.List.Basic

/-!
# The leaves of a group, item by item

There are two ways to the leaves of a group. One is to walk over them; the other is to walk over the
items of the group, and where an item is a group again, over its leaves. The two walks go down by
different rules: the one over items enters what is pointless where it stands and hands out the rest,
the one over leaves enters everything but prohibited groups.

> **The walk over the leaves is the walk over the items with the leaves of each item in its place**
> (`Walk.trail_leaves_eq`), the depths and the error included.

So no leaf is lost by dissolving groups, none is met twice, and none changes its place. The walk
over leaves makes of a group within the tree what a walk of its own would, from one level further
down (`Particle.trail_leaves_group`). That settles the items that are groups; and a group that is
dissolved though it is prohibited has nothing in it.
-/

set_option autoImplicit false

namespace ContentModel

/-! ## 1. Trails in the place of items -/

namespace Trail

variable {δ : Type}

/-- The trail with another one in the place of each item; it ends with the first of them that is
stopped, or as it did. -/
def expand (t : Trail δ) (f : Item δ → Trail δ) : Trail δ :=
  t.items.foldr (fun i rest => (f i).andThen rest) ⟨[], t.ending⟩

variable {f : Item δ → Trail δ}

theorem expand_cons (i : Item δ) (is : List (Item δ)) (ending : Except DepthError Unit) :
    expand ⟨i :: is, ending⟩ f = (f i).andThen (expand ⟨is, ending⟩ f) := rfl

theorem expand_single (i : Item δ) : expand ⟨[i], .ok ()⟩ f = f i := andThen_nothing (f i)

theorem expand_append (is js : List (Item δ)) (ending : Except DepthError Unit) :
    expand ⟨is ++ js, ending⟩ f = (expand ⟨is, .ok ()⟩ f).andThen (expand ⟨js, ending⟩ f) := by
  induction is with
  | nil => exact (nothing_andThen _).symm
  | cons i is ih => rw [List.cons_append, expand_cons, ih, expand_cons, andThen_assoc]

/-- Nothing comes after a trail that was stopped, expanded or not. -/
theorem expand_error_andThen (is : List (Item δ)) (e : DepthError) (t : Trail δ) :
    (expand ⟨is, .error e⟩ f).andThen t = expand ⟨is, .error e⟩ f := by
  induction is with
  | nil => rfl
  | cons i is ih => rw [expand_cons, andThen_assoc, ih]

theorem expand_andThen (t u : Trail δ) :
    (t.andThen u).expand f = (t.expand f).andThen (u.expand f) := by
  obtain ⟨is, ending⟩ := t
  cases ending with
  | error e => exact (expand_error_andThen is e _).symm
  | ok _ => rw [andThen_ok, expand_append]

theorem ending_expand_eq_ok {t : Trail δ} :
    (t.expand f).ending = .ok () ↔ t.ending = .ok () ∧ ∀ i ∈ t.items, (f i).ending = .ok () := by
  obtain ⟨is, ending⟩ := t
  induction is with
  | nil => exact (and_iff_left fun i hi => absurd hi List.not_mem_nil).symm
  | cons i is ih =>
    rw [expand_cons, ending_andThen_eq_ok, ih, List.forall_mem_cons]
    exact and_left_comm

theorem items_expand {t : Trail δ} (h : ∀ i ∈ t.items, (f i).ending = .ok ()) :
    (t.expand f).items = t.items.flatMap fun i => (f i).items := by
  obtain ⟨is, ending⟩ := t
  induction is with
  | nil => rfl
  | cons i is ih =>
    obtain ⟨hi, his⟩ := List.forall_mem_cons.1 h
    rw [expand_cons, List.flatMap_cons, ← ih his, andThen, hi]

end Trail

/-! ## 2. One walk by way of the other -/

/-- The leaves that an item stands for: itself, or those of the group that it is, walked from one
level below the group it was found in. -/
def Item.leaves {δ : Type} [Depth δ] (limit : DepthLimit δ) (i : Item δ) : Trail δ :=
  match i.particle with
  | .leaf _ => ⟨[i], .ok ()⟩
  | .group h => (Walk.leaves h (Depth.down i.depth 1) limit).trail

theorem ModelGroup.particles_eq_nil_of_pointless {g : ModelGroup} {parent : Compositor}
    (hp : g.pointless parent = true) (he : g.occurs.empty = true) : g.particles = [] := by
  have hne : (g.occurs == .once) = false := beq_false_of_ne fun e => by
    rw [e] at he
    cases he
  rw [ModelGroup.pointless_eq, hne, Bool.false_and, Bool.or_false, beq_iff_eq] at hp
  exact List.length_eq_zero_iff.1 hp

section

variable {δ : Type} [Depth δ] {limit : DepthLimit δ}

theorem Walk.trail_leaves (g : ModelGroup) (depth : δ) (limit : DepthLimit δ) :
    (Walk.leaves g depth limit).trail =
      match limit.check depth with
      | .error e => ⟨[], .error (e.walking g)⟩
      | .ok _ =>
        if g.occurs.empty then .nothing
        else Particle.trailAll .leaves limit g.compositor depth g.particles := by
  unfold Walk.leaves
  rw [Walk.trail_start]
  cases limit.check depth with
  | error e => rfl
  | ok _ =>
    dsimp only
    cases he : g.occurs.empty with
    | true =>
      have ho : Manner.leaves.opens g = false := congrArg not he
      rw [ho, if_neg Bool.false_ne_true, if_pos rfl]
    | false =>
      have ho : Manner.leaves.opens g = true := congrArg not he
      rw [ho, if_pos rfl, if_neg Bool.false_ne_true]

/-- A group within the tree is walked as it would be on its own. -/
theorem Particle.trail_leaves_group (parent : Compositor) (depth : δ) (g : ModelGroup) :
    (Particle.group g).trail .leaves limit parent depth =
      (Walk.leaves g (Depth.down depth 1) limit).trail := by
  rw [Particle.trail_group, Walk.trail_leaves]
  cases he : g.occurs.empty with
  | true =>
    have hv : Manner.leaves.visit parent g = .pass := if_pos he
    rw [hv, if_pos rfl]
    cases limit.check (Depth.down depth 1) with
    | error e => rfl
    | ok _ => rfl
  | false =>
    have hv : Manner.leaves.visit parent g = .enter := if_neg (Bool.eq_false_iff.1 he)
    rw [hv, if_neg Bool.false_ne_true]
    cases limit.check (Depth.down depth 1) with
    | error e => rfl
    | ok _ => rfl

theorem Particle.trailAll_leaves_eq {parent : Compositor} {depth : δ} {ps : List Particle}
    (h : ∀ p ∈ ps, p.trail .leaves limit parent depth =
      (p.trail .items limit parent depth).expand (Item.leaves limit)) :
    Particle.trailAll .leaves limit parent depth ps =
      (Particle.trailAll .items limit parent depth ps).expand (Item.leaves limit) := by
  induction ps with
  | nil =>
    rw [Particle.trailAll, Particle.trailAll]
    rfl
  | cons p ps ih =>
    rw [Particle.trailAll, Particle.trailAll, Trail.expand_andThen, h p List.mem_cons_self,
      ih fun q hq => h q (List.mem_cons_of_mem p hq)]

/-- **One particle**, by induction over the tree. -/
theorem Particle.trail_leaves_eq (p : Particle) : ∀ (parent : Compositor) (depth : δ),
    p.trail .leaves limit parent depth =
      (p.trail .items limit parent depth).expand (Item.leaves limit) := by
  induction p using Particle.induction with
  | leaf l =>
    intro parent depth
    rw [Particle.trail_leaf, Particle.trail_leaf, Trail.expand_single]
    rfl
  | group g ih =>
    intro parent depth
    rw [Particle.trail_leaves_group]
    by_cases hp : g.pointless parent = true
    · have hv : Manner.items.visit parent g = .enter := if_pos hp
      rw [Walk.trail_leaves, Particle.trail_group, hv]
      cases limit.check (Depth.down depth 1) with
      | error e => rfl
      | ok _ =>
        dsimp only
        rw [← Particle.trailAll_leaves_eq fun q hq => ih q hq g.compositor (Depth.down depth 1)]
        by_cases he : g.occurs.empty = true
        · rw [if_pos he, ModelGroup.particles_eq_nil_of_pointless hp he, Particle.trailAll]
        · rw [if_neg he]
    · have hv : Manner.items.visit parent g = .yield := if_neg hp
      rw [Particle.trail_group, hv]
      exact (Trail.expand_single (f := Item.leaves limit) ⟨.group g, depth⟩).symm

/-- **The walk over the leaves of a group, by way of its items**; of a prohibited group there would
be items but no leaves. -/
theorem Walk.trail_leaves_eq {g : ModelGroup} (hmax : g.occurs.max ≠ .finite 0) (depth : δ)
    (limit : DepthLimit δ) :
    (Walk.leaves g depth limit).trail =
      (Walk.items g depth limit).trail.expand (Item.leaves limit) := by
  have he : ¬ g.occurs.empty = true := fun e => hmax (beq_iff_eq.1 e)
  have ho : Manner.items.opens g = true := rfl
  rw [Walk.trail_leaves, if_neg he, Walk.items, Walk.trail_start, ho]
  cases limit.check depth with
  | error e => rfl
  | ok _ => exact Particle.trailAll_leaves_eq fun p _ => p.trail_leaves_eq g.compositor depth

end

/-! ## 3. Call by call -/

section

variable {δ : Type} [Depth δ]

/-- The leaves in the place of an item, as the caller of a walk gets them: itself, or what a walk
over the leaves of the group gives that starts one level below the depth of the item. -/
def Item.GivesLeaves (limit : DepthLimit δ) (i : Item δ) (ls : List Particle) : Prop :=
  match i.particle with
  | .leaf l => ls = [.leaf l]
  | .group h => (Walk.leaves h (Depth.down i.depth 1) limit).Gives ls

theorem Item.givesLeaves_iff {limit : DepthLimit δ} {i : Item δ} {ls : List Particle} :
    i.GivesLeaves limit ls ↔
      (i.leaves limit).ending = .ok () ∧ (i.leaves limit).items.map (·.particle) = ls := by
  obtain ⟨p, depth⟩ := i
  cases p with
  | leaf l =>
    constructor
    · intro h
      exact ⟨rfl, Eq.symm h⟩
    · intro h
      exact h.2.symm
  | group h => exact Walk.gives_iff

/-- **No leaf is lost, repeated or moved** by going through the items: the walk over the leaves of a
group that is not prohibited comes to its end without an error exactly if that over the items does
and so does, for each item, the one over its leaves; and what it gives are their leaves one after
the other. -/
theorem Walk.gives_leaves_iff {g : ModelGroup} (hmax : g.occurs.max ≠ .finite 0) (depth : δ)
    (limit : DepthLimit δ) (ls : List Particle) :
    (Walk.leaves g depth limit).Gives ls ↔
      ∃ (found : List (Item δ)) (part : Item δ → List Particle),
        (Walk.items g depth limit).HandsOut found ∧
        (∀ i ∈ found, i.GivesLeaves limit (part i)) ∧ found.flatMap part = ls := by
  rw [Walk.gives_iff, Walk.trail_leaves_eq hmax, Trail.ending_expand_eq_ok]
  generalize htrail : (Walk.items g depth limit).trail = t
  constructor
  · intro ⟨⟨hending, hparts⟩, hleaves⟩
    refine ⟨t.items, fun i => (i.leaves limit).items.map (·.particle), ?_, ?_, ?_⟩
    · rw [Walk.handsOut_iff, htrail, ← hending]
    · intro i hi
      exact Item.givesLeaves_iff.2 ⟨hparts i hi, rfl⟩
    · rw [← hleaves, Trail.items_expand hparts, List.map_flatMap]
  · intro ⟨found, part, hfound, hparts, hleaves⟩
    rw [Walk.handsOut_iff, htrail] at hfound
    subst hfound
    have hpart := fun i hi => Item.givesLeaves_iff.1 (hparts i hi)
    refine ⟨⟨rfl, fun i hi => (hpart i hi).1⟩, ?_⟩
    rw [Trail.items_expand fun i hi => (hpart i hi).1, List.map_flatMap, ← hleaves]
    exact List.flatMap_congr fun i hi => (hpart i hi).2

end

/-- A sequence in a sequence is dissolved, and so is a prohibited choice with nothing in it; the
choice in the inner sequence and another prohibited one are items, of which the latter has no
leaves. -/
theorem Walk.gives_leaves_iff_nested_choices :
    let leaf : String → Particle := fun name => .leaf (.element ⟨⟨none, name⟩, .once, none⟩)
    let hollow : ModelGroup := ⟨.choice, .prohibited, []⟩
    let repeated : ModelGroup := ⟨.choice, .zeroOrMore, [leaf "b", leaf "c"]⟩
    let inner : ModelGroup := ⟨.sequence, .once, [leaf "a", .group repeated]⟩
    let shut : ModelGroup := ⟨.choice, .prohibited, [leaf "x"]⟩
    let g : ModelGroup := ⟨.sequence, .once, [.group hollow, .group inner, .group shut, leaf "d"]⟩
    let found : List Item := [⟨leaf "a", 1⟩, ⟨.group repeated, 1⟩, ⟨.group shut, 0⟩, ⟨leaf "d", 0⟩]
    g.occurs.max ≠ .finite 0 ∧ (Walk.items g 0 .standard).HandsOut found ∧
      (Walk.leaves repeated 2 .standard).Gives [leaf "b", leaf "c"] ∧
      (Walk.leaves shut 1 .standard).Gives [] ∧
      (Walk.leaves g 0 .standard).Gives [leaf "a", leaf "b", leaf "c", leaf "d"] := by
  intro leaf hollow repeated inner shut g found
  have hmax : g.occurs.max ≠ .finite 0 := by decide
  have hfound : (Walk.items g 0 .standard).HandsOut found := by
    rw [Walk.handsOut_iff, Walk.items, Walk.trail_start]
    rfl
  have hrepeated : (Walk.leaves repeated 2 .standard).Gives [leaf "b", leaf "c"] := by
    rw [Walk.gives_iff, Walk.trail_leaves]
    exact ⟨rfl, rfl⟩
  have hshut : (Walk.leaves shut 1 .standard).Gives [] := by
    rw [Walk.gives_iff, Walk.trail_leaves]
    exact ⟨rfl, rfl⟩
  let part : Item → List Particle := fun i =>
    match i.particle with
    | .leaf l => [.leaf l]
    | .group h => if h.occurs.empty then [] else h.particles
  have hparts : ∀ i ∈ found, i.GivesLeaves .standard (part i) := by
    intro i hi
    simp only [found, List.mem_cons, List.not_mem_nil, or_false] at hi
    rcases hi with rfl | rfl | rfl | rfl
    · rfl
    · exact hrepeated
    · exact hshut
    · rfl
  refine ⟨hmax, hfound, hrepeated, hshut, ?_⟩
  exact (Walk.gives_leaves_iff hmax 0 .standard _).2 ⟨found, part, hfound, hparts, rfl⟩

end ContentModel
