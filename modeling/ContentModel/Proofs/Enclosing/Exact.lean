import ContentModel.Proofs.Enclosing.Recursive
import ContentModel.Proofs.Tree

/-!
# The search for a particle is exact

> **A position that holds a particle is found** (`ModelGroup.enclosing_of_clear`): unless a group
> too deep for the search comes before it in document order, the answer is the groups that the
> position itself leads through.

Positions are ordered lexicographically, a position before those that continue it, which is document
order. The first group that lies too deep is met at the one depth above the limit, wherever it is
(`Enclosing.tooDeep`); so what is left to say of a search is whether such a group comes before its
target (`ModelGroup.Clear`), and there is an equation for that at each step of the way
(`ModelGroup.clear_cons`). `ModelGroup.enclosing_exact` puts the cases together.
-/

set_option autoImplicit false

namespace ContentModel

/-! ## 1. Positions that hold a particle -/

/-- The groups that a position leads through, each with the branch taken. -/
def ModelGroup.around (g : ModelGroup) : Position → List Ancestor
  | [] => []
  | i :: way =>
    ⟨g, i⟩ :: match g.particles[i]? with
      | some (.group h) => h.around way
      | _ => []

theorem ModelGroup.around_cons_of {g h : ModelGroup} {i : Nat} (way : Position)
    (hi : g.particles[i]? = some (.group h)) : g.around (i :: way) = ⟨g, i⟩ :: h.around way := by
  rw [around, hi]

theorem ModelGroup.around_single (g : ModelGroup) (i : Nat) : g.around [i] = [⟨g, i⟩] := by
  rw [around]
  cases g.particles[i]? with
  | none => rfl
  | some p =>
    cases p with
    | leaf l => rfl
    | group h => rfl

theorem ModelGroup.particle?_cons_cons_eq_some {g : ModelGroup} {i j : Nat} {way : Position}
    {p : Particle} :
    g.particle? (i :: j :: way) = some p ↔
      ∃ h, g.particles[i]? = some (.group h) ∧ h.particle? (j :: way) = some p := by
  cases hi : g.particles[i]? with
  | none => simp [particle?, hi]
  | some q =>
    cases q with
    | leaf l => simp [particle?, hi]
    | group h => simp [particle?, hi]

theorem ModelGroup.particle?_single (g : ModelGroup) (i : Nat) :
    g.particle? [i] = g.particles[i]? := by
  cases hi : g.particles[i]? with
  | none => simp [particle?, hi]
  | some p => simp [particle?, hi]

theorem ModelGroup.lt_length_of_particle? {g : ModelGroup} {i : Nat} {way : Position} {p : Particle}
    (h : g.particle? (i :: way) = some p) : i < g.particles.length := by
  cases way with
  | nil =>
    rw [particle?_single] at h
    exact (List.getElem?_eq_some_iff.1 h).1
  | cons j way =>
    obtain ⟨inner, hi, -⟩ := particle?_cons_cons_eq_some.1 h
    exact (List.getElem?_eq_some_iff.1 hi).1

/-- The branches taken at the groups on the way are the way itself, and the groups are those that
its beginnings lead to. -/
theorem ModelGroup.around_spec {p : Particle} : ∀ {way : Position} {g : ModelGroup} {i : Nat},
    g.particle? (i :: way) = some p →
      (g.around (i :: way)).map (·.branch) = i :: way ∧
      ∀ k, k ≤ way.length →
        ((g.around (i :: way))[k]?).map (·.group) = g.subgroup? ((i :: way).take k) := by
  intro way
  induction way with
  | nil =>
    intro g i _
    rw [around_single]
    refine ⟨rfl, fun k hk => ?_⟩
    cases Nat.le_zero.1 hk
    rfl
  | cons j way ih =>
    intro g i hp
    obtain ⟨h, hi, hp⟩ := particle?_cons_cons_eq_some.1 hp
    obtain ⟨hbranch, hgroup⟩ := ih hp
    rw [around_cons_of _ hi]
    refine ⟨congrArg (i :: ·) hbranch, fun k hk => ?_⟩
    cases k with
    | zero => rfl
    | succ k =>
      rw [List.take_succ_cons, subgroup?_cons_of _ hi]
      exact hgroup k (Nat.le_of_succ_le_succ hk)

/-! ## 2. Groups that lie too deep -/

/-- No group that comes before a position in document order, those around it included, lies deeper
than `n`, where the group itself lies at the given level. -/
def ModelGroup.Clear (g : ModelGroup) (n level : Nat) (way : Position) : Prop :=
  ∀ spot h, g.subgroup? spot = some h → spot < way → level + spot.length ≤ n

/-- What comes before a position: the group itself, everything in the particles before the branch,
and what comes before the rest of the way in the branch. -/
theorem ModelGroup.clear_cons {g : ModelGroup} {n level i : Nat} {way : Position} :
    g.Clear n level (i :: way) ↔
      level ≤ n ∧ (∀ p ∈ g.particles.take i, level + p.nesting ≤ n) ∧
      ∀ h, g.particles[i]? = some (.group h) → h.Clear n (level + 1) way := by
  constructor
  · intro hclear
    have hlevel : level ≤ n := hclear [] g rfl (List.nil_lt_cons i way)
    refine ⟨hlevel, ?_, ?_⟩
    · intro p hp
      cases p with
      | leaf l =>
        rw [Particle.nesting_leaf]
        exact hlevel
      | group h =>
        obtain ⟨j, hj, hjp⟩ := List.mem_take_iff_getElem.1 hp
        have hji : j < i := Nat.lt_of_lt_of_le hj (Nat.min_le_left _ _)
        have hget : g.particles[j]? = some (.group h) := List.getElem?_eq_some_iff.2 ⟨_, hjp⟩
        have hbefore : ∀ spot k, h.subgroup? spot = some k → level + 1 + spot.length ≤ n := by
          intro spot k hs
          have := hclear (j :: spot) k ((subgroup?_cons_of spot hget).trans hs)
            (List.cons_lt_cons_iff.2 (.inl hji))
          rw [List.length_cons] at this
          omega
        have hone := hbefore [] h rfl
        have hheight : h.height ≤ n - (level + 1) := by
          refine height_le_iff_subgroup?.2 fun spot k hs => ?_
          have := hbefore spot k hs
          omega
        rw [List.length_nil] at hone
        rw [Particle.nesting_group]
        omega
    · intro h hi spot k hs hlt
      have := hclear (i :: spot) k ((subgroup?_cons_of spot hi).trans hs)
        (List.cons_lt_cons_iff.2 (.inr ⟨rfl, hlt⟩))
      rw [List.length_cons] at this
      omega
  · intro ⟨hlevel, hfront, hbranch⟩ spot k hs hlt
    cases spot with
    | nil => exact hlevel
    | cons j spot =>
      obtain ⟨h, hj, hs⟩ := subgroup?_cons_eq_some.1 hs
      rw [List.length_cons]
      rcases List.cons_lt_cons_iff.1 hlt with hji | ⟨rfl, hbefore⟩
      · obtain ⟨hlen, hjp⟩ := List.getElem?_eq_some_iff.1 hj
        have hmem : Particle.group h ∈ g.particles.take i :=
          List.mem_take_iff_getElem.2 ⟨j, Nat.lt_min.2 ⟨hji, hlen⟩, hjp⟩
        have hnesting := hfront _ hmem
        have := height_subgroup?_le hs
        rw [Particle.nesting_group] at hnesting
        omega
      · have := hbranch h hj spot k hs hbefore
        omega

theorem ModelGroup.clear_nil (g : ModelGroup) (n level : Nat) : g.Clear n level [] :=
  fun spot _ _ hlt => absurd hlt (List.not_lt_nil spot)

/-! ## 3. The outcome of the search -/

namespace Enclosing

/-- What becomes of a search that meets a group too deep for it. The depth is that of the group
around the one that is refused. -/
def tooDeep (limit : DepthLimit) : DepthError := ⟨limit.max + 1, limit.max, none⟩

/-- The position leads to nothing in the group. -/
def Misses (target : Option Position) (g : ModelGroup) : Prop :=
  ∀ i way, target = some (i :: way) → g.particle? (i :: way) = none

/-- The search finds nothing in the particle, and fails exactly if a group in it lies too deep. -/
def Passes (limit : DepthLimit) (depth : Nat) (target : Option Position) (p : Particle) : Prop :=
  seek limit depth target p =
    if depth + p.nesting ≤ limit.max + 1 then .ok none else .error (tooDeep limit)

section

variable {limit : DepthLimit} {depth i : Nat} {target : Option Position} {g : ModelGroup}

theorem check_of_not_le (h : depth ≤ limit.max + 1) (hc : ¬ depth ≤ limit.max) :
    limit.check depth = .error (tooDeep limit) := by
  have hd : depth = limit.max + 1 := by omega
  rw [hd]
  exact DepthLimit.check_of_lt (Nat.lt_succ_self limit.max)

theorem Misses.below {h : ModelGroup} (hm : Misses target g)
    (hi : g.particles[i]? = some (.group h)) :
    Misses (below target i) h := by
  intro j way ht
  have hway : target = some (i :: j :: way) := by
    unfold Enclosing.below at ht
    split at ht
    · split at ht
      · rename_i hki
        rw [hki, Option.some.inj ht]
      · cases ht
    · cases ht
  have hnone := hm i (j :: way) hway
  rw [Option.eq_none_iff_forall_ne_some] at hnone ⊢
  intro p hp
  exact hnone p (ModelGroup.particle?_cons_cons_eq_some.2 ⟨h, hi, hp⟩)

theorem Misses.ne {p : Particle} (hm : Misses target g) (hi : g.particles[i]? = some p) :
    target ≠ some [i] := by
  intro ht
  have hnone := hm i [] ht
  rw [ModelGroup.particle?_single, hi] at hnone
  cases hnone

theorem below_of_ne {i j : Nat} (h : j ≠ i) (way : Position) : below (some (j :: way)) i = none :=
  if_neg h

/-- Particles that are passed let the search go on behind them, unless a group in them lies too
deep. -/
theorem seekAll_append {front rest : List Particle}
    (h : ∀ k p, front[k]? = some p →
      target ≠ some [i + k] ∧ Passes limit depth (below target (i + k)) p) :
    seekAll limit depth g target i (front ++ rest) =
      if ∀ p ∈ front, depth + p.nesting ≤ limit.max + 1 then
        seekAll limit depth g target (i + front.length) rest
      else .error (tooDeep limit) := by
  induction front generalizing i with
  | nil => exact (if_pos fun p hp => absurd hp (List.not_mem_nil)).symm
  | cons p front ih =>
    obtain ⟨hne, hp⟩ := h 0 p rfl
    have htail := ih (i := i + 1) fun k q hq => by
      rw [Nat.add_assoc, Nat.add_comm 1 k]
      exact h (k + 1) q hq
    rw [Nat.add_zero] at hne hp
    rw [List.cons_append, seekAll, if_neg hne, hp, htail]
    by_cases hfit : depth + p.nesting ≤ limit.max + 1
    · simp only [List.forall_mem_cons, hfit, true_and, if_true, Outcome.within, List.length_cons,
        Nat.add_assoc, Nat.add_comm 1]
    · simp only [List.forall_mem_cons, hfit, false_and, if_false, Outcome.within]

/-- A group all of whose particles are passed. -/
theorem seekAll_whole (hd : depth ≤ limit.max + 1)
    (h : ∀ k p, g.particles[k]? = some p →
      target ≠ some [k] ∧ Passes limit depth (below target k) p) :
    seekAll limit depth g target 0 g.particles =
      if depth + g.height ≤ limit.max + 1 then .ok none else .error (tooDeep limit) := by
  rw [← List.append_nil g.particles, seekAll_append, seekAll]
  · simp only [ModelGroup.add_height_le_iff hd]
  · intro k p hp
    rw [Nat.zero_add]
    exact h k p hp

end

/-- **Nothing is found where nothing is to be found**, by induction over the tree. -/
theorem passes_of_misses {limit : DepthLimit} (p : Particle) :
    ∀ {depth : Nat} {target : Option Position}, depth ≤ limit.max + 1 →
      (∀ g, p = .group g → Misses target g) → Passes limit depth target p := by
  induction p using Particle.induction with
  | leaf l =>
    intro depth target hd _
    unfold Passes
    rw [seek_leaf, Particle.nesting_leaf, Nat.add_zero, if_pos hd]
  | group g ih =>
    intro depth target hd hm
    have hm := hm g rfl
    unfold Passes
    rw [seek_group, Particle.nesting_group]
    by_cases hc : depth ≤ limit.max
    · have hlevel : depth + 1 ≤ limit.max + 1 := by omega
      rw [DepthLimit.check_of_le hc]
      dsimp only
      rw [seekAll_whole hlevel, Nat.add_assoc, Nat.add_comm 1]
      intro k p hp
      refine ⟨hm.ne hp, ih p (List.mem_of_getElem? hp) hlevel fun h e => ?_⟩
      rw [e] at hp
      exact hm.below hp
    · rw [check_of_not_le hd hc, if_neg (by omega)]

section

variable {limit : DepthLimit} {depth i j : Nat} {g h : ModelGroup} {front rest : List Particle}
  {way : Position}

/-- The particles before the branch are passed. -/
theorem seekAll_before (hps : g.particles = front ++ rest) (hd : depth ≤ limit.max + 1) :
    seekAll limit depth g (some (front.length :: way)) 0 g.particles =
      if ∀ p ∈ front, depth + p.nesting ≤ limit.max + 1 then
        seekAll limit depth g (some (front.length :: way)) front.length rest
      else .error (tooDeep limit) := by
  rw [hps, seekAll_append, Nat.zero_add]
  intro k p hp
  have hne : front.length ≠ k := fun e => by
    rw [← e, List.getElem?_eq_none (Nat.le_refl _)] at hp
    cases hp
  rw [Nat.zero_add, below_of_ne hne]
  refine ⟨fun e => hne (List.cons.inj (Option.some.inj e)).1, passes_of_misses p hd ?_⟩
  intro g _ j way ht
  cases ht

theorem seekAll_branch (hd : depth ≤ limit.max + 1) :
    seekAll limit depth g (some (i :: j :: way)) i (.group h :: rest) =
      if depth ≤ limit.max then
        .within [⟨g, i⟩] (seekAll limit (depth + 1) h (some (j :: way)) 0 h.particles)
          (seekAll limit depth g (some (i :: j :: way)) (i + 1) rest)
      else .error (tooDeep limit) := by
  have hfound : some (i :: j :: way) ≠ some [i] := by
    intro e
    cases e
  have hbelow : below (some (i :: j :: way)) i = some (j :: way) := if_pos rfl
  rw [seekAll, if_neg hfound, hbelow, seek_group]
  by_cases hc : depth ≤ limit.max
  · rw [DepthLimit.check_of_le hc, if_pos hc]
  · rw [check_of_not_le hd hc, if_neg hc]
    rfl

end

/-- **The search of a group that holds the position**, by induction over the position: it ends where
the position leads, or at the first group that lies too deep if that comes before. -/
theorem seekAll_of_particle? {limit : DepthLimit} {p : Particle} :
    ∀ {way : Position} {g : ModelGroup} {depth i : Nat}, g.particle? (i :: way) = some p →
      depth ≤ limit.max + 1 →
      (g.Clear (limit.max + 1) depth (i :: way) →
        seekAll limit depth g (some (i :: way)) 0 g.particles = .ok (some (g.around (i :: way)))) ∧
      (¬ g.Clear (limit.max + 1) depth (i :: way) →
        seekAll limit depth g (some (i :: way)) 0 g.particles = .error (tooDeep limit)) := by
  intro way
  induction way with
  | nil =>
    intro g depth i hp hd
    rw [ModelGroup.particle?_single] at hp
    obtain ⟨front, rest, hps, rfl⟩ := exists_split_of_getElem? hp
    have htake : g.particles.take front.length = front := by rw [hps, List.take_left]
    rw [seekAll_before hps hd, ModelGroup.clear_cons, htake, ModelGroup.around_single]
    refine ⟨fun hclear => ?_, fun hclear => if_neg fun hfront => hclear ⟨hd, hfront, ?_⟩⟩
    · rw [if_pos hclear.2.1, seekAll, if_pos rfl]
    · exact fun h _ => h.clear_nil _ _
  | cons j way ih =>
    intro g depth i hp hd
    obtain ⟨h, hi, hinner⟩ := ModelGroup.particle?_cons_cons_eq_some.1 hp
    rw [ModelGroup.around_cons_of _ hi]
    obtain ⟨front, rest, hps, rfl⟩ := exists_split_of_getElem? hi
    have htake : g.particles.take front.length = front := by rw [hps, List.take_left]
    rw [seekAll_before hps hd, seekAll_branch hd, ModelGroup.clear_cons, htake]
    constructor
    · rintro ⟨-, hfront, hbranch⟩
      have hclear := hbranch h hi
      have hlevel := (ModelGroup.clear_cons.1 hclear).1
      rw [if_pos hfront, if_pos (by omega), (ih hinner hlevel).1 hclear]
      rfl
    · intro hnot
      by_cases hfront : ∀ p ∈ front, depth + p.nesting ≤ limit.max + 1
      · rw [if_pos hfront]
        by_cases hc : depth ≤ limit.max
        · have hclear : ¬ h.Clear (limit.max + 1) (depth + 1) (j :: way) := by
            intro hclear
            refine hnot ⟨hd, hfront, fun k hk => ?_⟩
            rw [hi] at hk
            cases hk
            exact hclear
          rw [if_pos hc, (ih hinner (by omega)).2 hclear]
          rfl
        · exact if_neg hc
      · exact if_neg hfront

end Enclosing

/-! ## 4. The answer -/

namespace ModelGroup

variable {g : ModelGroup} {s : Sought} {limit : DepthLimit} {i : Nat} {way : Position}
  {p : Particle}

/-- Nothing lies too deep before the position, so the search ends there. -/
theorem enclosing_of_clear (hs : s.position = some (i :: way))
    (hp : g.particle? (i :: way) = some p) (hclear : g.Clear (limit.max + 1) 0 (i :: way)) :
    g.enclosing s limit = .ok (g.around (i :: way)) := by
  rw [enclosing_eq, hs, (Enclosing.seekAll_of_particle? hp (Nat.zero_le _)).1 hclear]
  rfl

theorem enclosing_of_not_clear (hs : s.position = some (i :: way))
    (hp : g.particle? (i :: way) = some p) (hclear : ¬ g.Clear (limit.max + 1) 0 (i :: way)) :
    g.enclosing s limit = .error (.depth ⟨limit.max + 1, limit.max, some g.text⟩) := by
  rw [enclosing_eq, hs, (Enclosing.seekAll_of_particle? hp (Nat.zero_le _)).2 hclear]
  rfl

/-- A particle that is nowhere in the group has it searched to the end, or to a group that lies too
deep. -/
theorem enclosing_of_misses (hm : Enclosing.Misses s.position g) :
    g.enclosing s limit =
      if g.height ≤ limit.max + 1 then .error (.model ⟨.notAParticle s.particle.text, some g.text⟩)
      else .error (.depth ⟨limit.max + 1, limit.max, some g.text⟩) := by
  rw [enclosing_eq, Enclosing.seekAll_whole (Nat.zero_le _), Nat.zero_add]
  · by_cases hfit : g.height ≤ limit.max + 1
    · rw [if_pos hfit, if_pos hfit]
      rfl
    · rw [if_neg hfit, if_neg hfit]
      rfl
  · intro k p hp
    refine ⟨hm.ne hp, Enclosing.passes_of_misses p (Nat.zero_le _) fun h e => ?_⟩
    rw [e] at hp
    exact hm.below hp

/-- **A position that holds a particle is found** where no group is too deep for the search, and the
chain of groups around it is that of the position. -/
theorem enclosing_eq_around (hp : g.particle? (i :: way) = some p)
    (hfit : g.height ≤ limit.max + 1) :
    g.enclosing ⟨p, some (i :: way)⟩ limit = .ok (g.around (i :: way)) := by
  refine enclosing_of_clear rfl hp fun spot h hs _ => ?_
  rw [Nat.zero_add]
  exact height_le_iff_subgroup?.1 hfit spot h hs

/-- At the position is a group that a search under the limit does not enter. -/
def TooDeepAt (g : ModelGroup) (limit : DepthLimit) (spot : Position) : Prop :=
  limit.max + 2 ≤ spot.length ∧ ∃ h, g.subgroup? spot = some h

theorem clear_iff_not_tooDeepAt :
    g.Clear (limit.max + 1) 0 way ↔ ¬ ∃ spot, g.TooDeepAt limit spot ∧ spot < way := by
  constructor
  · intro hclear ⟨spot, ⟨hlevel, h, hs⟩, hlt⟩
    have := hclear spot h hs hlt
    omega
  · intro hnot spot h hs hlt
    refine Nat.not_lt.1 fun hlevel => hnot ⟨spot, ⟨?_, h, hs⟩, hlt⟩
    omega

theorem height_le_iff_not_tooDeepAt :
    g.height ≤ limit.max + 1 ↔ ¬ ∃ spot, g.TooDeepAt limit spot := by
  rw [height_le_iff_subgroup?]
  constructor
  · intro hheight ⟨spot, hlevel, h, hs⟩
    have := hheight spot h hs
    omega
  · intro hnot spot h hs
    exact Nat.not_lt.1 fun hlevel => hnot ⟨spot, hlevel, h, hs⟩

/-- **The search is exact.** A particle that has a position is found by it, whatever other particles
look like, unless a group too deep for the search comes before it in document order: the answer is
the groups at the beginnings of the position, each with the branch taken. A particle that has none
is reported missing, unless such a group is anywhere. In the other cases the search fails for the
depth. -/
theorem enclosing_exact (g : ModelGroup) (s : Sought) (limit : DepthLimit) :
    let refused : Except Error (List Ancestor) :=
      .error (.depth ⟨limit.max + 1, limit.max, some g.text⟩)
    let missing : Except Error (List Ancestor) :=
      .error (.model ⟨.notAParticle s.particle.text, some g.text⟩)
    (∀ i way p, s.position = some (i :: way) → g.particle? (i :: way) = some p →
      ((¬ ∃ spot, g.TooDeepAt limit spot ∧ spot < i :: way) →
        ∃ around, g.enclosing s limit = .ok around ∧ around.map (·.branch) = i :: way ∧
          ∀ k, k ≤ way.length → (around[k]?).map (·.group) = g.subgroup? ((i :: way).take k)) ∧
      ((∃ spot, g.TooDeepAt limit spot ∧ spot < i :: way) → g.enclosing s limit = refused)) ∧
    ((∀ i way, s.position = some (i :: way) → g.particle? (i :: way) = none) →
      ((¬ ∃ spot, g.TooDeepAt limit spot) → g.enclosing s limit = missing) ∧
      ((∃ spot, g.TooDeepAt limit spot) → g.enclosing s limit = refused)) := by
  intro refused missing
  constructor
  · intro i way p hs hp
    obtain ⟨hbranch, hgroup⟩ := around_spec hp
    constructor
    · intro hclear
      exact ⟨_, enclosing_of_clear hs hp (clear_iff_not_tooDeepAt.2 hclear), hbranch, hgroup⟩
    · intro hdeep
      exact enclosing_of_not_clear hs hp fun hclear => clear_iff_not_tooDeepAt.1 hclear hdeep
  · intro hm
    rw [enclosing_of_misses hm]
    constructor
    · intro hnone
      exact if_pos (height_le_iff_not_tooDeepAt.2 hnone)
    · intro hdeep
      exact if_neg fun hheight => height_le_iff_not_tooDeepAt.1 hheight hdeep

/-- The same element three times, and a group of level two before the last of them: under the limit
zero the first is found where it is, the last is out of reach, and an element from elsewhere is not
searched for to the end. -/
theorem enclosing_exact_same_elements :
    let leaf : Particle := .leaf (.element ⟨⟨none, "a"⟩, .once, none⟩)
    let h : ModelGroup := ⟨.sequence, .once, [leaf]⟩
    let g : ModelGroup := ⟨.choice, .once, [.group h, leaf, .group ⟨.sequence, .once, [.group h]⟩]⟩
    let refused : Except Error (List Ancestor) := .error (.depth ⟨1, 0, some g.text⟩)
    (∃ around, g.enclosing ⟨leaf, some [0, 0]⟩ ⟨0⟩ = .ok around ∧ around.map (·.branch) = [0, 0] ∧
      (around[0]?).map (·.group) = some g ∧ (around[1]?).map (·.group) = some h) ∧
    g.enclosing ⟨leaf, some [2, 0, 0]⟩ ⟨0⟩ = refused ∧
    g.enclosing ⟨leaf, none⟩ ⟨0⟩ = refused ∧
    g.enclosing ⟨leaf, none⟩ ⟨1⟩ = .error (.model ⟨.notAParticle leaf.text, some g.text⟩) := by
  intro leaf h g refused
  have hdeep : g.TooDeepAt ⟨0⟩ [2, 0] := ⟨Nat.le_refl 2, h, rfl⟩
  have hclear : g.Clear 1 0 [0, 0] := by
    refine clear_cons.2 ⟨Nat.zero_le 1, fun p hp => absurd hp (List.not_mem_nil), fun k hk => ?_⟩
    cases hk
    refine clear_cons.2 ⟨Nat.le_refl 1, fun p hp => absurd hp (List.not_mem_nil), fun k hk => ?_⟩
    simp [h, leaf] at hk
  have hlow : g.height ≤ 2 := by decide
  have hnowhere : ∀ i way, (none : Option Position) = some (i :: way) →
      g.particle? (i :: way) = none :=
    fun _ _ e => nomatch e
  have hfirst := ((enclosing_exact g ⟨leaf, some [0, 0]⟩ ⟨0⟩).1 0 [0] leaf rfl rfl).1
    (clear_iff_not_tooDeepAt.1 hclear)
  have hlast := ((enclosing_exact g ⟨leaf, some [2, 0, 0]⟩ ⟨0⟩).1 2 [0, 0] leaf rfl rfl).2
    ⟨[2, 0], hdeep, by decide⟩
  have hother := ((enclosing_exact g ⟨leaf, none⟩ ⟨0⟩).2 hnowhere).2 ⟨[2, 0], hdeep⟩
  have hmissing := ((enclosing_exact g ⟨leaf, none⟩ ⟨1⟩).2 hnowhere).1
    (height_le_iff_not_tooDeepAt.1 hlow)
  obtain ⟨around, hok, hbranch, hgroup⟩ := hfirst
  exact ⟨⟨around, hok, hbranch, hgroup 0 (by decide), hgroup 1 (by decide)⟩, hlast, hother,
    hmissing⟩

end ModelGroup

end ContentModel
