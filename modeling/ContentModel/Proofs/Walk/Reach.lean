import ContentModel.Proofs.Overall
import ContentModel.Proofs.Walk.Encounters
import ContentModel.Proofs.Walk.Leaves

/-!
# What a walk over leaves comes upon

A walk over leaves checks every group that it comes to and enters those that are not prohibited. So
what it comes upon is what no prohibited group cuts off:

> **a group is reached, and a leaf found, exactly if no group around it is prohibited**
> (`ModelGroup.mem_leafEncounters`); a prohibited group is reached itself.

The listing is cut off by a limit as that of any walk (`Walk.trail_leaves_eq_cut`).
`Walk.leaves_answer` reads the calls off.
-/

set_option autoImplicit false

namespace ContentModel

/-! ## 1. The listing -/

/-- What a walk over the leaves of a group comes upon. Of a prohibited group that is the group
alone. -/
def ModelGroup.leafEncounters (g : ModelGroup) : List Encounter :=
  if g.occurs.empty then [.reached g []] else g.encounters Manner.leaves.visit

/-- A group within the tree is walked as it would be on its own. -/
theorem Particle.encounters_leaves_group (parent : Compositor) (i : Nat) (g : ModelGroup) :
    (Particle.group g).encounters Manner.leaves.visit parent i =
      g.leafEncounters.map (.under i) := by
  rw [Particle.encounters_group, ModelGroup.leafEncounters]
  cases he : g.occurs.empty <;> simp [Manner.leaves, he, Encounter.under]

/-! ## 2. What no prohibited group cuts off -/

namespace Encounter

/-- With the group itself, with one of its particles, or with something further down in one of
them. -/
theorem at_iff {g : ModelGroup} {e : Encounter} :
    e.At g ↔ e = .reached g [] ∨
    (∃ (i : Nat) (p : Particle), g.particles[i]? = some p ∧ e = .found p [] i) ∨
      ∃ (i : Nat) (inner : ModelGroup) (f : Encounter), g.particles[i]? = some (.group inner) ∧
        f.At inner ∧
        e = f.under i := by
  constructor
  · intro h
    cases e with
    | reached k spot =>
      cases spot with
      | nil =>
        cases h
        exact .inl rfl
      | cons i spot =>
        obtain ⟨inner, hi, hk⟩ := ModelGroup.subgroup?_cons_eq_some.1 h
        exact .inr (.inr ⟨i, inner, .reached k spot, hi, hk, rfl⟩)
    | found p spot j =>
      obtain ⟨k, hk, hp⟩ := h
      cases spot with
      | nil =>
        cases hk
        exact .inr (.inl ⟨j, p, hp, rfl⟩)
      | cons i spot =>
        obtain ⟨inner, hi, hk⟩ := ModelGroup.subgroup?_cons_eq_some.1 hk
        exact .inr (.inr ⟨i, inner, .found p spot j, hi, ⟨k, hk, hp⟩, rfl⟩)
  · rintro (rfl | ⟨i, p, hi, rfl⟩ | ⟨i, inner, f, hi, hf, rfl⟩)
    · exact ModelGroup.subgroup?_nil g
    · exact ⟨g, ModelGroup.subgroup?_nil g, hi⟩
    · exact hf.under hi

/-- With a group, or with a leaf that is handed out. -/
def OfLeaves : Encounter → Prop
  | reached _ _ => True
  | found p _ _ => ∃ l, p = .leaf l

theorem ofLeaves_under (i : Nat) (e : Encounter) : (e.under i).OfLeaves ↔ e.OfLeaves := by
  cases e with
  | reached g spot => rfl
  | found p spot k => rfl

end Encounter

namespace ModelGroup

/-- No group on the way to the position is prohibited, from the whole group on. -/
def OpenTo (g : ModelGroup) (way : Position) : Prop := ∀ k ∈ g.chain way, k.occurs.max ≠ .finite 0

variable {g h : ModelGroup} {i : Nat}

theorem openTo_nil : g.OpenTo [] := by simp [OpenTo, chain, around]

theorem openTo_single : g.OpenTo [i] ↔ g.occurs.max ≠ .finite 0 := by
  simp [OpenTo, chain, around_single]

theorem openTo_cons_of (way : Position) (hi : g.particles[i]? = some (.group h)) :
    g.OpenTo (i :: way) ↔ g.occurs.max ≠ .finite 0 ∧ h.OpenTo way := by
  simp [OpenTo, chain_cons_of way hi]

theorem mem_leafEncounters_step {e : Encounter} :
    e ∈ g.leafEncounters ↔ e = .reached g [] ∨ (g.occurs.max ≠ .finite 0 ∧
      ((∃ (i : Nat) (l : Leaf), g.particles[i]? = some (.leaf l) ∧ e = .found (.leaf l) [] i) ∨
        ∃ (i : Nat) (inner : ModelGroup) (f : Encounter), g.particles[i]? = some (.group inner) ∧
          f ∈ inner.leafEncounters ∧ e = f.under i)) := by
  by_cases hmax : g.occurs.max = .finite 0
  · simp [leafEncounters, Occurs.empty, hmax]
  · rw [leafEncounters, Occurs.empty, if_neg (mt beq_iff_eq.1 hmax), encounters, List.mem_cons,
      Particle.mem_encountersAll]
    refine or_congr_right ?_
    rw [and_iff_right hmax]
    constructor
    · rintro ⟨i, p, hi, he⟩
      rw [Nat.zero_add] at he
      cases p with
      | leaf l =>
        rw [Particle.encounters_leaf, List.mem_singleton] at he
        exact .inl ⟨i, l, hi, he⟩
      | group inner =>
        rw [Particle.encounters_leaves_group, List.mem_map] at he
        obtain ⟨f, hf, rfl⟩ := he
        exact .inr ⟨i, inner, f, hi, hf, rfl⟩
    · rintro (⟨i, l, hi, rfl⟩ | ⟨i, inner, f, hi, hf, rfl⟩)
      · exact ⟨i, .leaf l, hi, by simp [Particle.encounters_leaf]⟩
      · refine ⟨i, .group inner, hi, ?_⟩
        rw [Nat.zero_add, Particle.encounters_leaves_group]
        exact List.mem_map_of_mem hf

/-- **The groups and leaves of the tree that no prohibited group cuts off**, by induction over the
tree. -/
theorem mem_leafEncounters {e : Encounter} :
    e ∈ g.leafEncounters ↔ e.At g ∧ e.OfLeaves ∧ g.OpenTo e.way := by
  induction g using ModelGroup.induction generalizing e with
  | step g ih =>
    rw [mem_leafEncounters_step, Encounter.at_iff]
    constructor
    · rintro (rfl | ⟨hmax, ⟨i, l, hi, rfl⟩ | ⟨i, inner, f, hi, hf, rfl⟩⟩)
      · exact ⟨.inl rfl, trivial, openTo_nil⟩
      · exact ⟨.inr (.inl ⟨i, .leaf l, hi, rfl⟩), ⟨l, rfl⟩, openTo_single.2 hmax⟩
      · obtain ⟨hat, hleaves, hopen⟩ := (ih inner (List.mem_of_getElem? hi)).1 hf
        refine ⟨.inr (.inr ⟨i, inner, f, hi, hat, rfl⟩), (f.ofLeaves_under i).2 hleaves, ?_⟩
        rw [Encounter.way_under]
        exact (openTo_cons_of f.way hi).2 ⟨hmax, hopen⟩
    · rintro ⟨rfl | ⟨i, p, hi, rfl⟩ | ⟨i, inner, f, hi, hat, rfl⟩, hleaves, hopen⟩
      · exact .inl rfl
      · obtain ⟨l, rfl⟩ := hleaves
        exact .inr ⟨openTo_single.1 hopen, .inl ⟨i, l, hi, rfl⟩⟩
      · rw [Encounter.way_under] at hopen
        obtain ⟨hmax, hopen⟩ := (openTo_cons_of f.way hi).1 hopen
        have hf := (ih inner (List.mem_of_getElem? hi)).2
          ⟨hat, (f.ofLeaves_under i).1 hleaves, hopen⟩
        exact .inr ⟨hmax, .inr ⟨i, inner, f, hi, hf, rfl⟩⟩

theorem pairwise_leafEncounters (g : ModelGroup) : g.leafEncounters.Pairwise (·.way < ·.way) := by
  unfold leafEncounters
  split
  · exact List.pairwise_singleton _ _
  · exact g.pairwise_encounters

end ModelGroup

/-! ## 3. The walk -/

/-- The walk over the leaves of a group, all at once. -/
theorem Walk.trail_leaves_eq_cut {δ : Type} [Depth δ] (g : ModelGroup) (depth : δ)
    (limit : DepthLimit δ) :
    (Walk.leaves g depth limit).trail = Encounter.cut depth limit g.leafEncounters := by
  rw [Walk.trail_leaves, ModelGroup.leafEncounters]
  by_cases he : g.occurs.empty = true
  · have hreached := Encounter.cut_reached depth limit g []
    rw [List.length_nil, Depth.down_zero] at hreached
    rw [if_pos he, if_pos he]
    cases hc : limit.check depth with
    | error e =>
      rw [hc] at hreached
      exact hreached.symm
    | ok u =>
      rw [hc] at hreached
      exact hreached.symm
  · rw [if_neg he, if_neg he]
    exact (ModelGroup.cut_encounters fun p _ i => p.trail_eq_cut g.compositor depth i).symm

/-- **The walk over leaves, call by call.** It comes upon groups and leaves in document order: upon
the groups that have no prohibited group around them, a prohibited one among them, and upon the
leaves that have none around them. What it hands out are the leaves before the first group that lies
too deep, then the error for that group, then nothing. The depths are words, and wrap around; under
a limit below the greatest word, and in a tree that does not reach up to it, they are the plain
sums. -/
theorem Walk.leaves_answer (g : ModelGroup) (start limit : UInt64) :
    let w := Walk.leaves g start ⟨limit⟩
    let met := g.leafEncounters
    let cut := Encounter.cut start ⟨limit⟩ met
    met.Pairwise (·.way < ·.way) ∧
      (∀ h spot, .reached h spot ∈ met ↔
        g.subgroup? spot = some h ∧ ∀ k ∈ g.chain spot, k.occurs.max ≠ .finite 0) ∧
      (∀ p spot i, .found p spot i ∈ met ↔
        (∃ h l, g.subgroup? spot = some h ∧ h.particles[i]? = some p ∧ p = .leaf l) ∧
          ∀ k ∈ g.chain (spot ++ [i]), k.occurs.max ≠ .finite 0) ∧
      (∀ n, w.answer n = cut.answers[n]?) ∧
      (limit.toNat + 1 < UInt64.size ∨ start.toNat + g.height + 1 < UInt64.size →
        cut.plain = Encounter.cut start.toNat ⟨limit.toNat⟩ met) := by
  intro w met cut
  have htrail : w.trail = cut := Walk.trail_leaves_eq_cut g start ⟨limit⟩
  refine ⟨g.pairwise_leafEncounters, fun h spot => ?_, fun p spot i => ?_, fun n => ?_, ?_⟩
  · rw [ModelGroup.mem_leafEncounters]
    exact and_congr_right fun _ => and_iff_right trivial
  · rw [ModelGroup.mem_leafEncounters, ← and_assoc]
    refine and_congr_left fun _ => ?_
    constructor
    · rintro ⟨⟨h, hs, hp⟩, l, hl⟩
      exact ⟨h, l, hs, hp, hl⟩
    · rintro ⟨h, l, hs, hp, hl⟩
      exact ⟨⟨h, hs, hp⟩, l, hl⟩
  · rw [Walk.answer_eq, htrail]
  · intro hfits
    rw [← htrail, ← Walk.trail_leaves_eq_cut g start.toNat ⟨limit.toNat⟩]
    exact Walk.plain_trail hfits .leaves

/-- A prohibited choice is passed over but checked: its leaf is not found, and under a lower limit
the error for it comes before the leaf that follows. Right below the greatest word there is room for
the choice; a walk from the greatest word on, and with that as the limit, finds it at depth zero. -/
theorem Walk.leaves_answer_prohibited :
    let leaf : String → Particle := fun name => .leaf (.element ⟨⟨none, name⟩, .once, none⟩)
    let shut : ModelGroup := ⟨.choice, .prohibited, [leaf "x"]⟩
    let g : ModelGroup := ⟨.sequence, .once, [leaf "a", .group shut, leaf "b"]⟩
    let wide := Walk.leaves g (0 : UInt64) ⟨1⟩
    let narrow := Walk.leaves g (0 : UInt64) ⟨0⟩
    let far := Walk.leaves g (0xFFFFFFFFFFFFFFFF : UInt64) ⟨0xFFFFFFFFFFFFFFFF⟩
    wide.answer 1 = some (.ok (leaf "b")) ∧
      (narrow.answer 0 = some (.ok (leaf "a")) ∧
        narrow.answer 1 = some (.error ⟨1, 0, some shut.text⟩) ∧
        ∀ n, narrow.answer (n + 2) = none) ∧
      far.answer 1 = some (.ok (leaf "b")) ∧
      (Encounter.cut (0 : UInt64) ⟨0⟩ g.leafEncounters).plain =
        Encounter.cut 0 ⟨0⟩ g.leafEncounters := by
  intro leaf shut g wide narrow far
  obtain ⟨-, -, -, hwide, -⟩ := Walk.leaves_answer g 0 1
  obtain ⟨-, -, -, hnarrow, hplain⟩ := Walk.leaves_answer g 0 0
  obtain ⟨-, -, -, hfar, -⟩ := Walk.leaves_answer g 0xFFFFFFFFFFFFFFFF 0xFFFFFFFFFFFFFFFF
  exact ⟨hwide 1, ⟨hnarrow 0, hnarrow 1, fun n => hnarrow (n + 2)⟩, hfar 1,
    hplain (.inl (by decide))⟩

end ContentModel
