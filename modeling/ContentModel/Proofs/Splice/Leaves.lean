import ContentModel.Proofs.Overall
import ContentModel.Proofs.Splice.Answers

/-!
# Leaves in their new places

When a group is replaced by its particles, the leaves in it come one step nearer to the root, and
the particles after it get other indexes. `Position.spliced` says where a leaf is found afterwards,
and

> **no leaf gets other overall bounds** (`structural_answers_splice`, with all else that the
> replacement leaves alone): the chain of groups around it has lost a group that does not count, or
> has a group with another number of particles, which is only told apart when a choice has one
> branch or several.

A leaf is before the eliminated group, in it or after it (`Eliminable.spliced_cases`); and seen from
a group around the replacement, it is on another branch or on the same
(`Eliminable.spliced_around_cases`). The proofs go by these cases.
-/

set_option autoImplicit false

namespace ContentModel

/-! ## 1. Positions -/

/-- Where a particle is found after the `n` particles of the group at the index `i` of the group at
a spot have taken that group's place: those after it move up, and its own particles are now in the
group around it. -/
def Position.spliced (i n : Nat) : Position → Position → Position
  | _, [] => []
  | [], j :: way =>
    if j < i then j :: way
    else if i < j then (j - 1 + n) :: way
    else match way with
      | [] => []
      | k :: way => (i + k) :: way
  | a :: spot, j :: way => if j = a then a :: spliced i n spot way else j :: way

section

variable {i j a : Nat}

theorem Position.spliced_before (h : j < i) (n : Nat) (way : Position) :
    Position.spliced i n [] (j :: way) = j :: way := if_pos h

theorem Position.spliced_after (h : i < j) (n : Nat) (way : Position) :
    Position.spliced i n [] (j :: way) = (j - 1 + n) :: way := by
  unfold Position.spliced
  rw [if_neg (Nat.lt_asymm h), if_pos h]

theorem Position.spliced_inside (i n k : Nat) (way : Position) :
    Position.spliced i n [] (i :: k :: way) = (i + k) :: way := by
  unfold Position.spliced
  rw [if_neg (Nat.lt_irrefl i), if_neg (Nat.lt_irrefl i)]

theorem Position.spliced_within (i n a : Nat) (spot way : Position) :
    Position.spliced i n (a :: spot) (a :: way) = a :: Position.spliced i n spot way := if_pos rfl

theorem Position.spliced_beside (h : j ≠ a) (n : Nat) (spot way : Position) :
    Position.spliced i n (a :: spot) (j :: way) = j :: way := if_neg h

end

/-! ## 2. The group in which the replacement takes place -/

namespace ModelGroup.Eliminable

variable {g c : ModelGroup} {i : Nat}

theorem getElem?_before (h : g.Eliminable i c) {j : Nat} (hj : j < i) :
    (g.splice i c).particles[j]? = g.particles[j]? := by
  obtain ⟨front, rest, hps, hlen, hsplice⟩ := h.exists_split
  rw [hsplice, hps, List.append_assoc, List.getElem?_append_left (by omega),
    List.getElem?_append_left (by omega)]

theorem getElem?_after (h : g.Eliminable i c) {j : Nat} (hj : i < j) :
    (g.splice i c).particles[j - 1 + c.particles.length]? = g.particles[j]? := by
  obtain ⟨front, rest, hps, hlen, hsplice⟩ := h.exists_split
  have hlen' : (front ++ c.particles).length = i + c.particles.length := by
    rw [List.length_append, hlen]
  have hj' : j - 1 + c.particles.length - (front ++ c.particles).length + 1 = j - front.length := by
    omega
  rw [hsplice, hps, List.getElem?_append_right (by omega), List.getElem?_append_right (by omega),
    ← hj', List.getElem?_cons_succ]

theorem getElem?_inside (h : g.Eliminable i c) {k : Nat} (hk : k < c.particles.length) :
    (g.splice i c).particles[i + k]? = c.particles[k]? := by
  obtain ⟨front, rest, hps, hlen, hsplice⟩ := h.exists_split
  rw [hsplice, List.append_assoc, List.getElem?_append_right (by omega),
    List.getElem?_append_left (by omega), ← hlen, Nat.add_sub_cancel_left]

theorem branches_iff_of_several (h : g.Eliminable i c) (hg : 1 < g.particles.length) :
    (g.splice i c).branches ↔ g.branches := by
  have := h.length_pos
  have := h.length_splice
  have hg' : 1 < (g.splice i c).particles.length := by omega
  exact ⟨fun hb => ⟨hb.1, hg⟩, fun hb => ⟨hb.1, hg'⟩⟩

/-- A choice that is eliminated without having branched had a single particle. -/
theorem branches_iff_of_not_branches (h : g.Eliminable i c) (hc : ¬ c.branches) :
    (g.splice i c).branches ↔ g.branches := by
  have hpos := h.length_pos
  have hlen := h.length_splice
  have hone : g.compositor = .choice → c.particles.length = 1 := by
    intro hchoice
    rcases h.single_or_same with ⟨p, hp⟩ | hsame
    · rw [hp]
      rfl
    · have hle : ¬ 1 < c.particles.length := fun hlt => hc ⟨hsame.trans hchoice, hlt⟩
      omega
  constructor
  · intro hb
    have := hone hb.1
    have := hb.2
    exact ⟨hb.1, by omega⟩
  · intro hb
    have := hone hb.1
    have := hb.2
    exact ⟨hb.1, by omega⟩

/-- The chain through the eliminated group, and the one that is left of it. -/
theorem same_chain (h : g.Eliminable i c) (tail : List ModelGroup) :
    Overall.Same (g :: c :: tail) (g.splice i c :: tail) := by
  by_cases hc : c.branches
  · -- both were choices, and the one that is left has all the branches
    have hchoice : g.compositor = .choice := by
      rcases h.single_or_same with ⟨p, hp⟩ | hsame
      · have hlt := hc.2
        rw [hp] at hlt
        exact absurd hlt (Nat.lt_irrefl 1)
      · exact hsame.symm.trans hc.1
    have hb : (g.splice i c).branches := by
      obtain ⟨front, rest, hps, -, -⟩ := h.exists_split
      have hg := congrArg List.length hps
      have := h.length_splice
      have := hc.2
      rw [List.length_append, List.length_cons] at hg
      exact ⟨hchoice, by omega⟩
    constructor
    · intro own
      rw [Overall.min_cons_of_branches hb]
      by_cases hg : g.branches
      · rw [Overall.min_cons_of_branches hg]
      · rw [Overall.min_cons_of_not_branches hg, Overall.min_cons_of_branches hc]
    · intro own
      rw [Overall.max_cons, Overall.max_cons, Overall.max_cons_of_once h.once]
      rfl
  · have hdrop : Overall.Same (g :: c :: tail) (g :: tail) :=
      (Overall.same_of_once h.once hc tail).cons rfl Iff.rfl
    exact hdrop.trans ((Overall.Same.refl tail).cons rfl (h.branches_iff_of_not_branches hc))

theorem leaf_beside (h : g.Eliminable i c) {j j' : Nat} {way : Position} {l : Leaf} (hj : j ≠ i)
    (hj' : (g.splice i c).particles[j']? = g.particles[j]?)
    (hl : g.particle? (j :: way) = some (.leaf l)) :
    (g.splice i c).particle? (j' :: way) = some (.leaf l) ∧
      Overall.Same (g.chain (j :: way)) ((g.splice i c).chain (j' :: way)) := by
  have hjlt := lt_length_of_particle? hl
  obtain ⟨hilt, -⟩ := List.getElem?_eq_some_iff.1 h.place
  have hseveral : 1 < g.particles.length := by omega
  -- below the group itself, the two chains are one
  obtain ⟨tail, htail, htail'⟩ := exists_chain_tail way hj'
  rw [particle?_cons_congr way hj', htail, htail']
  exact ⟨hl, (Overall.Same.refl tail).cons rfl (h.branches_iff_of_several hseveral)⟩

theorem leaf_inside (h : g.Eliminable i c) {k : Nat} {way : Position} {l : Leaf}
    (hl : g.particle? (i :: k :: way) = some (.leaf l)) :
    (g.splice i c).particle? ((i + k) :: way) = some (.leaf l) ∧
      Overall.Same (g.chain (i :: k :: way)) ((g.splice i c).chain ((i + k) :: way)) := by
  obtain ⟨c', hc', hl⟩ := particle?_cons_cons_eq_some.1 hl
  rw [h.place] at hc'
  cases hc'
  have hk := h.getElem?_inside (lt_length_of_particle? hl)
  obtain ⟨tail, htail, htail'⟩ := exists_chain_tail way hk
  rw [particle?_cons_congr way hk, chain_cons_of _ h.place, htail, htail']
  exact ⟨hl, h.same_chain tail⟩

/-- A leaf of the group is before the eliminated group, in it or after it. -/
theorem spliced_cases (h : g.Eliminable i c) {way : Position} {l : Leaf}
    (hl : g.particle? way = some (.leaf l)) :
    (∃ j rest, way = j :: rest ∧ j < i ∧
      Position.spliced i c.particles.length [] way = j :: rest) ∨
    (∃ k rest, way = i :: k :: rest ∧ k < c.particles.length ∧
      Position.spliced i c.particles.length [] way = (i + k) :: rest) ∨
    (∃ j rest, way = j :: rest ∧ i < j ∧
      Position.spliced i c.particles.length [] way = (j - 1 + c.particles.length) :: rest) := by
  cases way with
  | nil => cases hl
  | cons j rest =>
    rcases Nat.lt_trichotomy j i with hj | rfl | hj
    · exact .inl ⟨j, rest, rfl, hj, Position.spliced_before hj _ rest⟩
    · -- the eliminated group is no leaf
      cases rest with
      | nil =>
        rw [particle?_single, h.place] at hl
        cases hl
      | cons k rest =>
        obtain ⟨c', hc', hl⟩ := particle?_cons_cons_eq_some.1 hl
        rw [h.place] at hc'
        cases hc'
        exact .inr (.inl
          ⟨k, rest, rfl, lt_length_of_particle? hl, Position.spliced_inside j _ k rest⟩)
    · exact .inr (.inr ⟨j, rest, rfl, hj, Position.spliced_after hj _ rest⟩)

/-- **A leaf of the group in which the replacement takes place.** -/
theorem leaf_splice (h : g.Eliminable i c) {way : Position} {l : Leaf}
    (hl : g.particle? way = some (.leaf l)) :
    (g.splice i c).particle? (Position.spliced i c.particles.length [] way) = some (.leaf l) ∧
      Overall.Same (g.chain way)
        ((g.splice i c).chain (Position.spliced i c.particles.length [] way)) := by
  rcases h.spliced_cases hl with ⟨j, rest, rfl, hj, hway⟩ | ⟨k, rest, rfl, -, hway⟩ |
    ⟨j, rest, rfl, hj, hway⟩
  · rw [hway]
    exact h.leaf_beside (Nat.ne_of_lt hj) (h.getElem?_before hj) hl
  · rw [hway]
    exact h.leaf_inside hl
  · rw [hway]
    exact h.leaf_beside (Nat.ne_of_gt hj) (h.getElem?_after hj) hl

theorem spliced_injective (h : g.Eliminable i c) {way way' : Position} {l l' : Leaf}
    (hl : g.particle? way = some (.leaf l)) (hl' : g.particle? way' = some (.leaf l'))
    (e : Position.spliced i c.particles.length [] way =
      Position.spliced i c.particles.length [] way') : way = way' := by
  -- the new indexes of the three kinds of leaves lie in three ranges that do not meet
  rcases h.spliced_cases hl with ⟨j, rest, rfl, hj, hway⟩ | ⟨j, rest, rfl, hj, hway⟩ |
    ⟨j, rest, rfl, hj, hway⟩ <;>
  rcases h.spliced_cases hl' with ⟨j', rest', rfl, hj', hway'⟩ | ⟨j', rest', rfl, hj', hway'⟩ |
    ⟨j', rest', rfl, hj', hway'⟩ <;>
  · rw [hway, hway', List.cons.injEq] at e
    obtain ⟨hhead, rfl⟩ := e
    first
      | omega
      | (have hsame : j = j' := by omega
         rw [hsame])

end ModelGroup.Eliminable

/-! ## 3. A group around it -/

namespace ModelGroup

namespace Eliminable

variable {g c : ModelGroup} {i : Nat}

/-- A leaf of a group around the replacement is on another branch or on the same. -/
theorem spliced_around_cases {t inner : ModelGroup} {a : Nat}
    (ha : t.particles[a]? = some (.group inner)) (spot : Position) (n : Nat) {way : Position}
    {l : Leaf} (hl : t.particle? way = some (.leaf l)) :
    (∃ j rest, way = j :: rest ∧ j ≠ a ∧ Position.spliced i n (a :: spot) way = j :: rest) ∨
    (∃ rest, way = a :: rest ∧ inner.particle? rest = some (.leaf l) ∧
      Position.spliced i n (a :: spot) way = a :: Position.spliced i n spot rest) := by
  cases way with
  | nil => cases hl
  | cons j rest =>
    by_cases hj : j = a
    · cases hj
      -- the group on the way is no leaf
      cases rest with
      | nil =>
        rw [particle?_single, ha] at hl
        cases hl
      | cons k rest =>
        obtain ⟨inner', hinner', hl⟩ := particle?_cons_cons_eq_some.1 hl
        rw [ha] at hinner'
        cases hinner'
        exact .inr ⟨k :: rest, rfl, hl, Position.spliced_within i n a spot (k :: rest)⟩
    · exact .inl ⟨j, rest, rfl, hj, Position.spliced_beside hj n spot rest⟩

/-- **A leaf of the whole tree**, by induction over the position of the group. -/
theorem leaf_putAt (h : g.Eliminable i c) {l : Leaf} :
    ∀ {spot way : Position} {t : ModelGroup}, t.subgroup? spot = some g →
      t.particle? way = some (.leaf l) →
      (t.putAt (g.splice i c) spot).particle? (Position.spliced i c.particles.length spot way) =
          some (.leaf l) ∧
        Overall.Same (t.chain way)
          ((t.putAt (g.splice i c) spot).chain
            (Position.spliced i c.particles.length spot way)) := by
  intro spot
  induction spot with
  | nil =>
    intro way t ht hl
    cases ht
    exact h.leaf_splice hl
  | cons a spot ih =>
    intro way t ht hl
    obtain ⟨inner, ha, hinner⟩ := subgroup?_cons_eq_some.1 ht
    have hoccurs := occurs_putAt_cons (g.splice i c) spot ha
    have hbranches := branches_putAt_cons (g.splice i c) spot ha
    rcases spliced_around_cases ha spot c.particles.length hl with ⟨j, rest, rfl, hj, hway⟩ |
      ⟨rest, rfl, hl', hway⟩
    · have hj' := getElem?_putAt_cons_of_ne (g.splice i c) spot ha hj
      obtain ⟨tail, htail, htail'⟩ := exists_chain_tail rest hj'
      rw [hway, particle?_cons_congr rest hj', htail, htail']
      exact ⟨hl, (Overall.Same.refl tail).cons hoccurs hbranches⟩
    · obtain ⟨hleaf, hsame⟩ := ih hinner hl'
      have ha' := getElem?_putAt_cons (g.splice i c) spot ha
      rw [hway, chain_cons_of _ ha, chain_cons_of _ ha']
      refine ⟨?_, hsame.cons hoccurs hbranches⟩
      obtain ⟨k, further, hk⟩ := List.exists_cons_of_ne_nil (ne_nil_of_particle?_leaf hleaf)
      rw [hk] at hleaf ⊢
      exact particle?_cons_cons_eq_some.2 ⟨_, ha', hleaf⟩

theorem spliced_putAt_injective (h : g.Eliminable i c) {l l' : Leaf} :
    ∀ {spot way way' : Position} {t : ModelGroup}, t.subgroup? spot = some g →
      t.particle? way = some (.leaf l) → t.particle? way' = some (.leaf l') →
      Position.spliced i c.particles.length spot way =
        Position.spliced i c.particles.length spot way' → way = way' := by
  intro spot
  induction spot with
  | nil =>
    intro way way' t ht hl hl' e
    cases ht
    exact h.spliced_injective hl hl' e
  | cons a spot ih =>
    intro way way' t ht hl hl' e
    obtain ⟨inner, ha, hinner⟩ := subgroup?_cons_eq_some.1 ht
    rcases spliced_around_cases ha spot c.particles.length hl with ⟨j, rest, rfl, hj, hway⟩ |
      ⟨rest, rfl, hin, hway⟩
    · rcases spliced_around_cases ha spot c.particles.length hl' with ⟨j', rest', rfl, hj', hway'⟩ |
        ⟨rest', rfl, hin', hway'⟩
      · rw [hway, hway'] at e
        exact e
      · rw [hway, hway', List.cons.injEq] at e
        exact absurd e.1 hj
    · rcases spliced_around_cases ha spot c.particles.length hl' with ⟨j', rest', rfl, hj', hway'⟩ |
        ⟨rest', rfl, hin', hway'⟩
      · rw [hway, hway', List.cons.injEq] at e
        exact absurd e.1.symm hj'
      · rw [hway, hway', List.cons.injEq] at e
        rw [ih hinner hin hin' e.2]

end Eliminable

end ModelGroup

/-! ## 4. The whole tree -/

/-- **Eliminating a pointless group is sound for the structural queries**, wherever in the tree it
is. -/
theorem ModelGroup.structural_answers_splice {t g c : ModelGroup} {spot : Position} {i : Nat}
    (hg : t.subgroup? spot = some g) (hc : g.Eliminable i c) :
    let t' := t.putAt (g.splice i c) spot
    t'.emptiable = t.emptiable ∧ t'.single = t.single ∧ t'.empty = t.empty ∧
    (∀ depth limit, depth + t.height ≤ limit.max →
      (Walk.leaves t depth limit).trail.ending = .ok () ∧
      (Walk.leaves t' depth limit).trail.ending = .ok () ∧
      (Walk.leaves t' depth limit).trail.items.map (·.particle) =
        (Walk.leaves t depth limit).trail.items.map (·.particle)) ∧
    (∀ limit, t.height ≤ limit.max → ∀ way l, t.particle? way = some (.leaf l) →
      let way' := Position.spliced i c.particles.length spot way
      t'.particle? way' = some (.leaf l) ∧
      ∃ lower upper,
        t.overallMin ⟨.leaf l, some way⟩ limit = .ok lower ∧
        t'.overallMin ⟨.leaf l, some way'⟩ limit = .ok lower ∧
        t.overallMax ⟨.leaf l, some way⟩ limit = .ok upper ∧
        t'.overallMax ⟨.leaf l, some way'⟩ limit = .ok upper) ∧
    ∀ way way' l l', t.particle? way = some (.leaf l) → t.particle? way' = some (.leaf l') →
      Position.spliced i c.particles.length spot way =
        Position.spliced i c.particles.length spot way' → way = way' := by
  intro t'
  have hsame : Unaffected t t' := (unaffected_splice hc).putAt hg
  refine ⟨hsame.emptiable, hsame.single, hsame.empty, ?_, ?_, ?_⟩
  · intro depth limit hfit
    have := hsame.height
    have hcovers := covers_leaves hfit
    have hcovers' : (Walk.leaves t' depth limit).trail.Covers limit (t'.leaves.map Particle.leaf) :=
      covers_leaves (by omega)
    refine ⟨hcovers.ending, hcovers'.ending, ?_⟩
    rw [hcovers.particles, hcovers'.particles, hsame.leaves]
  · intro limit hfit way l hl way'
    obtain ⟨hl', hchain⟩ := hc.leaf_putAt hg hl
    have hway := ne_nil_of_particle?_leaf hl
    have hway' := ne_nil_of_particle?_leaf hl'
    have hle := hsame.height
    refine ⟨hl', Overall.min l.occurs.min (t.chain way), Overall.max l.occurs.max (t.chain way),
      ?_, ?_, ?_, ?_⟩
    · exact overallMin_eq hl hway (by omega)
    · rw [← hchain.min]
      exact overallMin_eq hl' hway' (by omega)
    · exact overallMax_eq hl hway (by omega)
    · rw [← hchain.max]
      exact overallMax_eq hl' hway' (by omega)
  · intro way way' l l' hl hl' e
    exact hc.spliced_putAt_injective hg hl hl' e

/-- The choice between `b` and `c` is eliminated from a choice further down: `d`, which came after
it, moves from index 1 to index 2 and keeps its overall bounds. -/
theorem ModelGroup.structural_answers_splice_choice_in_choice :
    let leaf (name : String) : Particle := .leaf (.element ⟨⟨none, name⟩, .oneOrMore, none⟩)
    let c : ModelGroup := ⟨.choice, .once, [leaf "b", leaf "c"]⟩
    let g : ModelGroup := ⟨.choice, .optional, [.group c, leaf "d"]⟩
    let t : ModelGroup := ⟨.sequence, .once, [leaf "a", .group g]⟩
    let t' := t.putAt (g.splice 0 c) [1]
    g.Eliminable 0 c ∧ (g.splice 0 c).particles = [leaf "b", leaf "c", leaf "d"] ∧
      t'.emptiable = t.emptiable ∧ t'.particle? [1, 2] = some (leaf "d") ∧
      ∃ lower upper,
        t.overallMin ⟨leaf "d", some [1, 1]⟩ .standard = .ok lower ∧
        t'.overallMin ⟨leaf "d", some [1, 2]⟩ .standard = .ok lower ∧
        t.overallMax ⟨leaf "d", some [1, 1]⟩ .standard = .ok upper ∧
        t'.overallMax ⟨leaf "d", some [1, 2]⟩ .standard = .ok upper := by
  intro leaf c g t t'
  have hc : g.Eliminable 0 c := ⟨rfl, List.cons_ne_nil _ _, rfl⟩
  have hg : t.subgroup? [1] = some g := rfl
  obtain ⟨hemptiable, -, -, -, hleaves, -⟩ := structural_answers_splice hg hc
  obtain ⟨hd, hbounds⟩ := hleaves .standard (by decide) [1, 1] _ rfl
  exact ⟨hc, rfl, hemptiable, hd, hbounds⟩

end ContentModel
