import ContentModel.Proofs.Presence
import ContentModel.Proofs.Walk.Flat

/-!
# Eliminating a pointless group

A pointless group is meant to be one that may be replaced by its particles. `ModelGroup.splice` does
so, and the first thing to know of it is what it leaves alone, wherever in a tree it takes place:

> **`ModelGroup.Unaffected`**: the verdicts on the tree and its leaves are what they were, and the
> tree is no higher.

What a group answers depends on its particles only through their own answers. So there is a lemma
for any exchange of some particles for others that answer alike (`unaffected_of_exchange`); it is
used for the group in which the replacement takes place (`unaffected_splice`) and for a group around
it (`Unaffected.put`), and an induction over the position does the rest (`Unaffected.putAt`).
-/

set_option autoImplicit false

namespace ContentModel

/-! ## 1. Splices -/

/-- The group with the particles of one of its groups in that group's place. -/
def ModelGroup.splice (g : ModelGroup) (i : Nat) (c : ModelGroup) : ModelGroup :=
  { g with particles := g.particles.take i ++ c.particles ++ g.particles.drop (i + 1) }

/-- The group holds at the index a nested group that is pointless there, and not for want of
particles. -/
structure ModelGroup.Eliminable (g : ModelGroup) (i : Nat) (c : ModelGroup) : Prop where
  place : g.particles[i]? = some (.group c)
  nonempty : c.particles ≠ []
  pointless : c.pointless g.compositor = true

theorem ModelGroup.eq_mk {g : ModelGroup} {ps : List Particle} (h : g.particles = ps) :
    g = ⟨g.compositor, g.occurs, ps⟩ := by
  cases g
  cases h
  rfl

namespace ModelGroup.Eliminable

variable {g c : ModelGroup} {i : Nat}

theorem once (h : g.Eliminable i c) : c.occurs = .once := by
  obtain ⟨-, hne, hp⟩ := h
  unfold ModelGroup.pointless at hp
  split at hp
  · rename_i hnil
    exact absurd hnil hne
  · exact beq_iff_eq.1 hp
  · rw [Bool.and_eq_true, Bool.and_eq_true] at hp
    exact beq_iff_eq.1 hp.1.1

/-- The eliminated group holds a single particle, or combines several as the group around it
does. -/
theorem single_or_same (h : g.Eliminable i c) :
    (∃ p, c.particles = [p]) ∨ c.compositor = g.compositor := by
  obtain ⟨-, hne, hp⟩ := h
  unfold ModelGroup.pointless at hp
  split at hp
  · rename_i hnil
    exact absurd hnil hne
  · rename_i p hone
    exact .inl ⟨p, hone⟩
  · rw [Bool.and_eq_true, Bool.and_eq_true] at hp
    exact .inr (beq_iff_eq.1 hp.1.2)

theorem length_pos (h : g.Eliminable i c) : 0 < c.particles.length :=
  List.length_pos_iff.2 h.nonempty

theorem exists_split (h : g.Eliminable i c) :
    ∃ front rest, g.particles = front ++ .group c :: rest ∧ front.length = i ∧
      g.splice i c = ⟨g.compositor, g.occurs, front ++ c.particles ++ rest⟩ := by
  obtain ⟨front, rest, hps, hlen⟩ := exists_split_of_getElem? h.place
  refine ⟨front, rest, hps, hlen, ?_⟩
  rw [splice, hps, ← hlen, List.take_left, List.drop_length_add_append, List.drop_succ_cons,
    List.drop_zero]

theorem length_splice (h : g.Eliminable i c) :
    (g.splice i c).particles.length + 1 = g.particles.length + c.particles.length := by
  obtain ⟨front, rest, hps, hlen, hsplice⟩ := h.exists_split
  rw [hsplice, hps]
  simp only [List.length_append, List.length_cons]
  omega

theorem exists_exchange (h : g.Eliminable i c) :
    ∃ front rest, g = ⟨g.compositor, g.occurs, front ++ [.group c] ++ rest⟩ ∧
      g.splice i c = ⟨g.compositor, g.occurs, front ++ c.particles ++ rest⟩ := by
  obtain ⟨front, rest, hps, -, hsplice⟩ := h.exists_split
  refine ⟨front, rest, eq_mk ?_, hsplice⟩
  rw [hps, List.append_assoc, List.singleton_append]

/-- Whether its particles are as they should be does not depend on which of the two groups asks. -/
theorem asks_iff (h : g.Eliminable i c) {p : Particle → Prop} :
    g.compositor.Asks p c.particles ↔ c.compositor.Asks p c.particles := by
  rcases h.single_or_same with ⟨q, hq⟩ | hsame
  · rw [hq, Compositor.asks_singleton, Compositor.asks_singleton]
  · rw [hsame]

end ModelGroup.Eliminable

/-! ## 2. Answers -/

/-- The second group answers as the first does, and is no higher. -/
structure ModelGroup.Unaffected (g g' : ModelGroup) : Prop where
  emptiable : g'.emptiable = g.emptiable
  single : g'.single = g.single
  empty : g'.empty = g.empty
  leaves : g'.leaves = g.leaves
  declared : g'.declared = g.declared
  height : g'.height ≤ g.height

namespace ModelGroup

section

variable {c : Compositor} {o : Occurs} {ps ps' : List Particle}

theorem emptiable_congr (hnil : ps' = [] ↔ ps = [])
    (hasks : c.Asks (·.emptiable = true) ps' ↔ c.Asks (·.emptiable = true) ps) :
    (⟨c, o, ps'⟩ : ModelGroup).emptiable = (⟨c, o, ps⟩ : ModelGroup).emptiable := by
  rw [Bool.eq_iff_iff, emptiable_iff, emptiable_iff, plainlyEmptiable_iff, plainlyEmptiable_iff]
  dsimp only
  rw [hnil, hasks]

theorem single_congr (hnil : ps' = [] ↔ ps = [])
    (halone : (∀ h, ps' = [.group h] → h.single = true) ↔ ∀ h, ps = [.group h] → h.single = true) :
    (⟨c, o, ps'⟩ : ModelGroup).single = (⟨c, o, ps⟩ : ModelGroup).single := by
  rw [Bool.eq_iff_iff, single_iff, single_iff]
  dsimp only
  rw [halone, Ne, Ne, hnil]

theorem empty_congr (hnil : ps' = [] ↔ ps = []) :
    (⟨c, o, ps'⟩ : ModelGroup).empty = (⟨c, o, ps⟩ : ModelGroup).empty := by
  rw [Bool.eq_iff_iff, empty_iff, empty_iff]
  dsimp only
  rw [hnil]

theorem not_alone {front mid rest : List Particle} (hmid : mid ≠ [])
    (h : ¬ (front = [] ∧ rest = [])) (p : Particle) : front ++ mid ++ rest ≠ [p] := by
  intro e
  have hlen := congrArg List.length e
  have := List.length_pos_iff.2 hmid
  rw [List.length_append, List.length_append, List.length_singleton] at hlen
  exact h ⟨List.length_eq_zero_iff.1 (by omega), List.length_eq_zero_iff.1 (by omega)⟩

/-- What a group answers when some of its particles are exchanged for others. -/
theorem unaffected_of_exchange {front mid mid' rest : List Particle} (hmid : mid ≠ [])
    (hmid' : mid' ≠ [])
    (hasks : c.Asks (·.emptiable = true) mid' ↔ c.Asks (·.emptiable = true) mid)
    (halone : (∀ h, mid' = [.group h] → h.single = true) ↔ ∀ h, mid = [.group h] → h.single = true)
    (hleaves : Particle.leavesAll mid' = Particle.leavesAll mid)
    (hdeclared : (∀ p ∈ mid', p.declared = true) ↔ ∀ p ∈ mid, p.declared = true)
    (hnesting : ∀ n, (∀ p ∈ mid, p.nesting ≤ n) → ∀ p ∈ mid', p.nesting ≤ n) :
    Unaffected ⟨c, o, front ++ mid ++ rest⟩ ⟨c, o, front ++ mid' ++ rest⟩ := by
  have hnil : front ++ mid' ++ rest = [] ↔ front ++ mid ++ rest = [] := by
    simp [hmid, hmid']
  constructor
  · exact emptiable_congr hnil
      (c.asks_append_congr (c.asks_append_congr Iff.rfl hasks) Iff.rfl)
  · refine single_congr hnil ?_
    -- unless nothing stands beside the exchanged particles, there are several on both sides
    by_cases hends : front = [] ∧ rest = []
    · rw [hends.1, hends.2, List.nil_append, List.append_nil, List.nil_append, List.append_nil]
      exact halone
    · exact ⟨fun _ h e => absurd e (not_alone hmid hends _),
        fun _ h e => absurd e (not_alone hmid' hends _)⟩
  · exact empty_congr hnil
  · unfold leaves
    dsimp only
    simp only [Particle.leavesAll_eq] at hleaves ⊢
    rw [List.flatMap_append, List.flatMap_append, hleaves, List.flatMap_append, List.flatMap_append]
  · rw [Bool.eq_iff_iff, declared_iff, declared_iff, List.forall_mem_append, List.forall_mem_append,
      hdeclared, List.forall_mem_append, List.forall_mem_append]
  · rw [height_le_iff]
    intro p hp
    have hle : ∀ q ∈ front ++ mid ++ rest, q.nesting ≤ height ⟨c, o, front ++ mid ++ rest⟩ :=
      fun q hq => nesting_le_height hq
    rcases List.mem_append.1 hp with hp | hp
    · rcases List.mem_append.1 hp with hp | hp
      · exact hle p (List.mem_append_left _ (List.mem_append_left _ hp))
      · refine hnesting _ ?_ p hp
        intro q hq
        exact hle q (List.mem_append_left _ (List.mem_append_right _ hq))
    · exact hle p (List.mem_append_right _ hp)

end

/-- **The group in which the replacement takes place.** -/
theorem unaffected_splice {g c : ModelGroup} {i : Nat} (h : g.Eliminable i c) :
    Unaffected g (g.splice i c) := by
  obtain ⟨front, rest, hg, hsplice⟩ := h.exists_exchange
  rw [hsplice]
  conv => lhs; rw [hg]
  refine unaffected_of_exchange (List.cons_ne_nil _ _) h.nonempty ?_ ?_ ?_ ?_ ?_
  · have hplain : ¬ c.plainlyEmptiable = true := by
      rw [plainlyEmptiable_iff, h.once]
      intro hz
      rcases hz with hz | hz
      · exact absurd hz (by decide)
      · exact h.nonempty hz
    rw [h.asks_iff, Compositor.asks_singleton, Particle.emptiable, emptiable_iff,
      or_iff_right hplain]
  · have hsingle : c.single = true ↔ ∀ k, c.particles = [.group k] → k.single = true := by
      rw [single_iff, h.once]
      exact ⟨fun hs => hs.2.2, fun hs => ⟨rfl, h.nonempty, hs⟩⟩
    rw [← hsingle]
    constructor
    · intro hs k e
      cases e
      exact hs
    · intro hs
      exact hs c rfl
  · have hempty : ¬ c.occurs.empty = true := by
      rw [h.once]
      exact Bool.false_ne_true
    rw [Particle.leavesAll_eq [_], List.flatMap_singleton, Particle.leaves_group, leaves,
      if_neg hempty]
  · rw [List.forall_mem_singleton, Particle.declared_group, declared_iff]
  · intro n hn p hp
    have hc := hn (.group c) List.mem_cons_self
    have := nesting_le_height hp
    rw [Particle.nesting_group] at hc
    omega

theorem exists_exchange_of_set {t inner : ModelGroup} {a : Nat}
    (ha : t.particles[a]? = some (.group inner)) (q : Particle) :
    ∃ front rest, t = ⟨t.compositor, t.occurs, front ++ [.group inner] ++ rest⟩ ∧
      t.particles.set a q = front ++ [q] ++ rest := by
  obtain ⟨front, rest, hps, hlen⟩ := exists_split_of_getElem? ha
  refine ⟨front, rest, eq_mk ?_, ?_⟩
  · rw [hps, List.append_assoc, List.singleton_append]
  · rw [hps, ← hlen, List.set_append_right _ _ (Nat.le_refl _), Nat.sub_self, List.set_cons_zero,
      List.append_assoc, List.singleton_append]

/-- **A group around it** notices no more than the group itself does. -/
theorem Unaffected.put {t inner inner' : ModelGroup} {a : Nat}
    (ha : t.particles[a]? = some (.group inner)) (h : Unaffected inner inner') :
    Unaffected t { t with particles := t.particles.set a (.group inner') } := by
  obtain ⟨front, rest, ht, hset⟩ := exists_exchange_of_set ha (.group inner')
  rw [hset]
  conv => lhs; rw [ht]
  refine unaffected_of_exchange (List.cons_ne_nil _ _) (List.cons_ne_nil _ _) ?_ ?_ ?_ ?_ ?_
  · rw [Compositor.asks_singleton, Compositor.asks_singleton, Particle.emptiable,
      Particle.emptiable, h.emptiable]
  · have hsingle : ∀ k k' : ModelGroup, k'.single = k.single →
        (∀ m, [Particle.group k] = [.group m] → m.single = true) →
        ∀ m, [Particle.group k'] = [.group m] → m.single = true := by
      intro k k' hk hall m e
      cases e
      rw [hk]
      exact hall k rfl
    exact ⟨hsingle _ _ h.single.symm, hsingle _ _ h.single⟩
  · rw [Particle.leavesAll_eq, Particle.leavesAll_eq, List.flatMap_singleton,
      List.flatMap_singleton, Particle.leaves_group, Particle.leaves_group, h.leaves]
  · rw [List.forall_mem_singleton, List.forall_mem_singleton, Particle.declared_group,
      Particle.declared_group, h.declared]
  · intro n hn p hp
    have hinner := hn (.group inner) List.mem_cons_self
    have := h.height
    rw [Particle.nesting_group] at hinner
    rw [List.mem_singleton.1 hp, Particle.nesting_group]
    omega

/-- **The whole tree.** -/
theorem Unaffected.putAt {g g' : ModelGroup} (h : Unaffected g g') :
    ∀ {spot : Position} {t : ModelGroup}, t.subgroup? spot = some g →
      Unaffected t (t.putAt g' spot) :=
  related_putAt (fun ha h => h.put ha) h

end ModelGroup

end ContentModel
