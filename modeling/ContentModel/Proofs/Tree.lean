import ContentModel.ModelGroup.Position

/-!
# Trees of particles

What the theory says of "every model tree" it says in the vocabulary of this file: how deeply groups
are nested in a group (`ModelGroup.height`, zero where no group is nested), whether all leaves are
elements and wildcards (`ModelGroup.declared`), and which groups a tree holds — those that
`subgroup?` finds at some position. All of it is read off the particles of a group one by one
(`height_le_iff`, `declared_iff`), which is the form that an induction over the tree asks for. Where
a group is put in the place of another, whatever passes from a group to the one around it holds of
the whole tree (`related_putAt`).
-/

set_option autoImplicit false

namespace ContentModel

/-- Induction over the groups of a content model. -/
theorem ModelGroup.induction {motive : ModelGroup → Prop}
    (step : ∀ g : ModelGroup, (∀ h, .group h ∈ g.particles → motive h) → motive g)
    (g : ModelGroup) : motive g := by
  have key : ∀ p : Particle, ∀ h, p = .group h → motive h := by
    intro p
    induction p using Particle.induction with
    | leaf l =>
      intro h e
      cases e
    | group g ih =>
      intro h e
      cases e
      exact step g fun h hm => ih (.group h) hm h rfl
  exact key (.group g) g rfl

theorem exists_split_of_getElem? {α : Type} {xs : List α} {i : Nat} {x : α} (h : xs[i]? = some x) :
    ∃ front rest, xs = front ++ x :: rest ∧ front.length = i := by
  obtain ⟨hi, rfl⟩ := List.getElem?_eq_some_iff.1 h
  refine ⟨xs.take i, xs.drop (i + 1), ?_, List.length_take_of_le (Nat.le_of_lt hi)⟩
  rw [List.getElem_cons_drop, List.take_append_drop]

/-! ## 1. Nesting -/

mutual

/-- How many levels of groups a particle is: none for a leaf, and one more for a group than for the
deepest of its particles. -/
def Particle.nesting : Particle → Nat
  | .leaf _ => 0
  | .group ⟨_, _, ps⟩ => Particle.nestingAll ps + 1

def Particle.nestingAll : List Particle → Nat
  | [] => 0
  | p :: ps => max p.nesting (Particle.nestingAll ps)

end

/-- The level of the most deeply nested group, where the group itself has level zero. -/
def ModelGroup.height (g : ModelGroup) : Nat := Particle.nestingAll g.particles

namespace Particle

@[simp] theorem nesting_leaf (l : Leaf) : (leaf l).nesting = 0 := by rw [nesting]

@[simp] theorem nesting_group (g : ModelGroup) : (group g).nesting = g.height + 1 := by
  cases g
  rw [nesting]
  rfl

theorem nestingAll_le_iff {ps : List Particle} {n : Nat} :
    nestingAll ps ≤ n ↔ ∀ p ∈ ps, p.nesting ≤ n := by
  induction ps with
  | nil => simp [nestingAll]
  | cons p ps ih => rw [nestingAll, Nat.max_le, ih, List.forall_mem_cons]

end Particle

theorem ModelGroup.height_le_iff {g : ModelGroup} {n : Nat} :
    g.height ≤ n ↔ ∀ p ∈ g.particles, p.nesting ≤ n := Particle.nestingAll_le_iff

theorem ModelGroup.nesting_le_height {g : ModelGroup} {p : Particle} (h : p ∈ g.particles) :
    p.nesting ≤ g.height := ModelGroup.height_le_iff.1 (Nat.le_refl _) p h

/-- The same for a group that lies at some level itself. -/
theorem ModelGroup.add_height_le_iff {g : ModelGroup} {level n : Nat} (h : level ≤ n) :
    level + g.height ≤ n ↔ ∀ p ∈ g.particles, level + p.nesting ≤ n := by
  rw [← Nat.le_sub_iff_add_le' h, height_le_iff]
  exact forall_congr' fun p => forall_congr' fun _ => Nat.le_sub_iff_add_le' h

/-! ## 2. Trees of elements and wildcards -/

/-- The leaf is of a kind whose bounds are the declared ones. -/
def Leaf.declared : Leaf → Bool
  | element _ => true
  | wildcard _ => true
  | custom _ => false

mutual

/-- Every leaf in the particle is an element or a wildcard. -/
def Particle.declared : Particle → Bool
  | .leaf l => l.declared
  | .group ⟨_, _, ps⟩ => Particle.declaredAll ps

def Particle.declaredAll : List Particle → Bool
  | [] => true
  | p :: ps => p.declared && Particle.declaredAll ps

end

/-- Every leaf below the group is an element or a wildcard. -/
def ModelGroup.declared (g : ModelGroup) : Bool := Particle.declaredAll g.particles

@[simp] theorem Particle.declared_leaf (l : Leaf) : (Particle.leaf l).declared = l.declared := by
  rw [Particle.declared]

@[simp] theorem Particle.declared_group (g : ModelGroup) :
    (Particle.group g).declared = g.declared := by
  cases g
  rw [Particle.declared]
  rfl

theorem Particle.declaredAll_iff {ps : List Particle} :
    Particle.declaredAll ps = true ↔ ∀ p ∈ ps, p.declared = true := by
  induction ps with
  | nil => simp [Particle.declaredAll]
  | cons p ps ih => rw [Particle.declaredAll, Bool.and_eq_true, ih, List.forall_mem_cons]

theorem ModelGroup.declared_iff {g : ModelGroup} :
    g.declared = true ↔ ∀ p ∈ g.particles, p.declared = true := Particle.declaredAll_iff

theorem Leaf.effectiveMin_of_declared {l : Leaf} (h : l.declared = true) :
    l.effectiveMin = .ok l.occurs.min := by
  cases l with
  | element e => rfl
  | wildcard w => rfl
  | custom l => cases h

theorem Leaf.effectiveMax_of_declared {l : Leaf} (h : l.declared = true) :
    l.effectiveMax = .ok l.occurs.max := by
  cases l with
  | element e => rfl
  | wildcard w => rfl
  | custom l => cases h

theorem Leaf.emptiable_of_declared {l : Leaf} (h : l.declared = true) :
    l.emptiable = l.occurs.emptiable := by
  cases l with
  | element e => rfl
  | wildcard w => rfl
  | custom l => cases h

/-! ## 3. What a group asks of its particles -/

namespace Compositor

variable {α β : Type} {p q : α → Prop} {xs ys : List α}

/-- A choice asks a thing of some particle, any other group of all of them. -/
def Asks (c : Compositor) (p : α → Prop) (xs : List α) : Prop :=
  if c = .choice then ∃ x ∈ xs, p x else ∀ x ∈ xs, p x

instance (c : Compositor) [DecidablePred p] : Decidable (c.Asks p xs) :=
  inferInstanceAs (Decidable (if c = .choice then ∃ x ∈ xs, p x else ∀ x ∈ xs, p x))

theorem asks_choice : choice.Asks p xs ↔ ∃ x ∈ xs, p x := Iff.rfl

theorem asks_of_ne {c : Compositor} (h : c ≠ .choice) : c.Asks p xs ↔ ∀ x ∈ xs, p x := by
  rw [Asks, if_neg h]

theorem asks_map (c : Compositor) {p : β → Prop} (f : α → β) :
    c.Asks p (xs.map f) ↔ c.Asks (fun x => p (f x)) xs := by
  by_cases hc : c = .choice
  · rw [hc, asks_choice, asks_choice]
    constructor
    · intro h
      obtain ⟨y, hy, hp⟩ := h
      obtain ⟨x, hx, rfl⟩ := List.mem_map.1 hy
      exact ⟨x, hx, hp⟩
    · intro h
      obtain ⟨x, hx, hp⟩ := h
      exact ⟨f x, List.mem_map_of_mem hx, hp⟩
  · rw [asks_of_ne hc, asks_of_ne hc, List.forall_mem_map]

theorem asks_congr (c : Compositor) (h : ∀ x ∈ xs, p x ↔ q x) : c.Asks p xs ↔ c.Asks q xs := by
  by_cases hc : c = .choice
  · rw [hc, asks_choice, asks_choice]
    exact exists_congr fun x => and_congr_right (h x)
  · rw [asks_of_ne hc, asks_of_ne hc]
    exact forall_congr' fun x => forall_congr' (h x)

theorem asks_perm (c : Compositor) (h : xs.Perm ys) :
    c.Asks p xs ↔ c.Asks p ys := by
  by_cases hc : c = .choice
  · rw [hc, asks_choice, asks_choice]
    exact exists_congr fun x => and_congr_left fun _ => h.mem_iff
  · rw [asks_of_ne hc, asks_of_ne hc]
    exact forall_congr' fun x => imp_congr_left h.mem_iff

theorem asks_singleton (c : Compositor) {x : α} : c.Asks p [x] ↔ p x := by
  by_cases hc : c = .choice
  · simp [hc, asks_choice]
  · simp [asks_of_ne hc]

/-- Parts of a list may be exchanged for others that answer alike. -/
theorem asks_append_congr (c : Compositor) {xs' ys' : List α} (hx : c.Asks p xs' ↔ c.Asks p xs)
    (hy : c.Asks p ys' ↔ c.Asks p ys) : c.Asks p (xs' ++ ys') ↔ c.Asks p (xs ++ ys) := by
  by_cases hc : c = .choice
  · rw [hc, asks_choice, asks_choice] at hx hy
    rw [hc, asks_choice, asks_choice]
    simp only [List.mem_append, or_and_right, exists_or, hx, hy]
  · rw [asks_of_ne hc, asks_of_ne hc] at hx hy
    rw [asks_of_ne hc, asks_of_ne hc, List.forall_mem_append, List.forall_mem_append, hx, hy]

end Compositor

/-! ## 4. The groups of a tree -/

namespace ModelGroup

@[simp] theorem subgroup?_nil (g : ModelGroup) : g.subgroup? [] = some g := rfl

theorem subgroup?_cons_eq_some {g h : ModelGroup} {i : Nat} {way : Position} :
    g.subgroup? (i :: way) = some h ↔
      ∃ inner, g.particles[i]? = some (.group inner) ∧ inner.subgroup? way = some h := by
  rw [subgroup?]
  cases hp : g.particles[i]? with
  | none => simp
  | some p =>
    cases p with
    | leaf l => simp
    | group inner => simp

theorem subgroup?_cons_of {g inner : ModelGroup} {i : Nat} (way : Position)
    (h : g.particles[i]? = some (.group inner)) : g.subgroup? (i :: way) = inner.subgroup? way := by
  rw [subgroup?, h]

theorem subgroup?_append (g : ModelGroup) (way further : Position) :
    g.subgroup? (way ++ further) = (g.subgroup? way).bind (·.subgroup? further) := by
  induction way generalizing g with
  | nil => rfl
  | cons i way ih =>
    rw [List.cons_append, subgroup?, subgroup?]
    cases g.particles[i]? with
    | none => rfl
    | some p =>
      cases p with
      | leaf l => rfl
      | group inner => exact ih inner

theorem exists_subgroup?_of_mem {g inner : ModelGroup} (h : .group inner ∈ g.particles) :
    ∃ i : Nat, ∀ way, g.subgroup? (i :: way) = inner.subgroup? way := by
  obtain ⟨i, hi⟩ := List.mem_iff_getElem?.1 h
  exact ⟨i, fun way => subgroup?_cons_of way hi⟩

/-- A group of the tree nests as much less as it lies deeper. -/
theorem height_subgroup?_le {g h : ModelGroup} {way : Position} (hs : g.subgroup? way = some h) :
    h.height + way.length ≤ g.height := by
  induction way generalizing g with
  | nil =>
    cases hs
    exact Nat.le_refl _
  | cons i way ih =>
    obtain ⟨inner, hi, hs⟩ := subgroup?_cons_eq_some.1 hs
    have hle := nesting_le_height (List.mem_of_getElem? hi)
    rw [Particle.nesting_group] at hle
    have := ih hs
    rw [List.length_cons]
    omega

/-- The height is the level of the deepest group that the tree holds. -/
theorem height_le_iff_subgroup? {g : ModelGroup} {n : Nat} :
    g.height ≤ n ↔ ∀ spot h, g.subgroup? spot = some h → spot.length ≤ n := by
  constructor
  · intro hle spot h hs
    have := height_subgroup?_le hs
    omega
  · induction g using ModelGroup.induction generalizing n with
    | step g ih =>
      intro hlevel
      refine height_le_iff.2 fun p hp => ?_
      cases p with
      | leaf l =>
        rw [Particle.nesting_leaf]
        exact Nat.zero_le n
      | group h =>
        obtain ⟨i, hi⟩ := exists_subgroup?_of_mem hp
        have hone : 1 ≤ n := hlevel [i] h (hi [])
        have hbelow : h.height ≤ n - 1 := by
          refine ih h hp fun spot k hs => ?_
          have := hlevel (i :: spot) k ((hi spot).trans hs)
          rw [List.length_cons] at this
          omega
        rw [Particle.nesting_group]
        omega

theorem lt_height_iff {g : ModelGroup} {n : Nat} :
    n < g.height ↔ ∃ spot h, g.subgroup? spot = some h ∧ n < spot.length := by
  rw [← Nat.not_le, height_le_iff_subgroup?, Classical.not_forall]
  refine exists_congr fun spot => ?_
  rw [Classical.not_forall]
  exact exists_congr fun h => by rw [Classical.not_imp, Nat.not_le]

theorem declared_subgroup? {g h : ModelGroup} {way : Position} (hs : g.subgroup? way = some h)
    (hd : g.declared = true) : h.declared = true := by
  induction way generalizing g with
  | nil =>
    cases hs
    exact hd
  | cons i way ih =>
    obtain ⟨inner, hi, hs⟩ := subgroup?_cons_eq_some.1 hs
    have hp := declared_iff.1 hd _ (List.mem_of_getElem? hi)
    rw [Particle.declared_group] at hp
    exact ih hs hp

/-! ## 5. A group in the place of another -/

section

variable {t inner : ModelGroup} {a : Nat}

theorem putAt_cons_of (h : ModelGroup) (spot : Position)
    (ha : t.particles[a]? = some (.group inner)) :
    t.putAt h (a :: spot) =
      { t with particles := t.particles.set a (.group (inner.putAt h spot)) } := by
  rw [putAt, ha]

theorem getElem?_putAt_cons (h : ModelGroup) (spot : Position)
    (ha : t.particles[a]? = some (.group inner)) :
    (t.putAt h (a :: spot)).particles[a]? = some (.group (inner.putAt h spot)) := by
  rw [putAt_cons_of h spot ha]
  exact List.getElem?_set_self (List.getElem?_eq_some_iff.1 ha).1

theorem getElem?_putAt_cons_of_ne {j : Nat} (h : ModelGroup) (spot : Position)
    (ha : t.particles[a]? = some (.group inner)) (hj : j ≠ a) :
    (t.putAt h (a :: spot)).particles[j]? = t.particles[j]? := by
  rw [putAt_cons_of h spot ha]
  exact List.getElem?_set_ne hj.symm

theorem occurs_putAt_cons (h : ModelGroup) (spot : Position)
    (ha : t.particles[a]? = some (.group inner)) : (t.putAt h (a :: spot)).occurs = t.occurs := by
  rw [putAt_cons_of h spot ha]

end

/-- What relates a group to the one in its place, and is passed on by every group to the one around
it, relates the whole tree to what has become of it. -/
theorem related_putAt {R : ModelGroup → ModelGroup → Prop} {g g' : ModelGroup}
    (put : ∀ {t inner inner' : ModelGroup} {a : Nat}, t.particles[a]? = some (.group inner) →
      R inner inner' → R t { t with particles := t.particles.set a (.group inner') })
    (h : R g g') : ∀ {spot : Position} {t : ModelGroup},
      t.subgroup? spot = some g → R t (t.putAt g' spot) := by
  intro spot
  induction spot with
  | nil =>
    intro t ht
    cases ht
    exact h
  | cons a spot ih =>
    intro t ht
    obtain ⟨inner, ha, hinner⟩ := subgroup?_cons_eq_some.1 ht
    rw [putAt_cons_of g' spot ha]
    exact put ha (ih hinner)

end ModelGroup

end ContentModel
