import ContentModel.Proofs.Presence

/-!
# The verdicts on a group, turn by turn

`ModelGroup.emptiable` settles in one go what a loop takes several turns for: after a particle was
judged, its verdict is *pending*, and each level that it decides is taken off in a turn of its own.
This file runs the loop as it stands, a turn at a time, and shows that the pending verdict is
neither lost nor kept too long:

> **begun in any state, the loop ends, with what the scan makes of that state**
> (`Presence.returns_verdict`).

All it takes is that a turn does not change what the state comes to (`Presence.verdict_step`) and
leaves less to do. `ModelGroup.single` is a loop as well, which goes from a group to the only group
in it.
-/

set_option autoImplicit false

namespace ContentModel

/-! ## 1. Loops -/

/-- What a turn of a loop comes to: another state, or the result. -/
inductive Turn (σ ρ : Type)
  | again (s : σ)
  | done (r : ρ)

/-- The loop, begun in the given state, ends with the given result. -/
inductive Returns {σ ρ : Type} (turn : σ → Turn σ ρ) : σ → ρ → Prop
  | done {s : σ} {r : ρ} (h : turn s = .done r) : Returns turn s r
  | again {s s' : σ} {r : ρ} (h : turn s = .again s') (rest : Returns turn s' r) : Returns turn s r

namespace Returns

variable {σ ρ : Type} {turn : σ → Turn σ ρ}

theorem unique {s : σ} {r r' : ρ} (h : Returns turn s r) (h' : Returns turn s r') : r = r' := by
  induction h with
  | done h =>
    cases h' with
    | done h' => simpa [h] using h'
    | again h' _ => simp [h] at h'
  | again h _ ih =>
    cases h' with
    | done h' => simp [h] at h'
    | again h' rest' =>
      rw [h] at h'
      cases h'
      exact ih rest'

/-- A loop ends if every turn leaves less to do, and it ends with what every turn keeps. -/
theorem of_step (weight : σ → Nat) (value : σ → ρ) (hdone : ∀ s r, turn s = .done r → value s = r)
    (hagain : ∀ s s', turn s = .again s' → value s' = value s ∧ weight s' < weight s) (s : σ) :
    Returns turn s (value s) := by
  induction hn : weight s using Nat.strongRecOn generalizing s with
  | _ n ih =>
    cases h : turn s with
    | done r => exact hdone s r h ▸ .done h
    | again s' =>
      obtain ⟨hvalue, hless⟩ := hagain s s' h
      exact .again h (hvalue ▸ ih (weight s') (hn ▸ hless) s' rfl)

theorem iff_eq {s : σ} {v r : ρ} (h : Returns turn s v) : Returns turn s r ↔ r = v := by
  constructor
  · exact fun h' => h'.unique h
  · rintro rfl
    exact h

end Returns

/-! ## 2. The loop of the levels -/

namespace Presence

/-- Between two turns: the levels, innermost first, and the verdict last given if no level has heard
of it. -/
structure State where
  levels : List Level
  pending : Option Bool

/-- The state after a turn at a level, of which `rest` is left. The level ends with the pending
verdict if that decides it, and with the opposite one if nothing is left; otherwise the next
particle is judged, or entered. -/
def step (choice : Bool) (rest : List Particle) (above : List Level) (pending : Option Bool) :
    State :=
  if pending = some choice then ⟨above, some choice⟩
  else match rest with
    | [] => ⟨above, some !choice⟩
    | .leaf l :: rest => ⟨⟨choice, rest⟩ :: above, some l.emptiable⟩
    | .group g :: rest =>
      if g.plainlyEmptiable then ⟨⟨choice, rest⟩ :: above, some true⟩
      else ⟨⟨g.compositor == .choice, g.particles⟩ :: ⟨choice, rest⟩ :: above, none⟩

def turn : State → Turn State Bool
  | ⟨[], pending⟩ => .done (pending.getD true)
  | ⟨⟨choice, rest⟩ :: above, pending⟩ => .again (step choice rest above pending)

/-- What a state comes to: a pending verdict ends all the levels that it decides, and the others are
scanned. -/
def State.verdict (s : State) : Bool :=
  match s.pending with
  | none => scan s.levels true
  | some v => scan (undecided v s.levels) v

variable {choice : Bool} {rest : List Particle} {above : List Level} {pending : Option Bool}

/-- The verdict given last is nothing to a level that goes on. -/
theorem scan_cons_congr (choice : Bool) (rest : List Particle) (above : List Level) (v w : Bool) :
    scan (⟨choice, rest⟩ :: above) v = scan (⟨choice, rest⟩ :: above) w := by
  rw [scan_level, scan_level]

theorem verdict_pending_decides :
    State.verdict ⟨⟨choice, rest⟩ :: above, some choice⟩ = State.verdict ⟨above, some choice⟩ := by
  simp [State.verdict, undecided_cons_of_decides]

/-- A pending verdict that does not decide the level is forgotten. -/
theorem verdict_pending_forgotten (h : pending ≠ some choice) :
    State.verdict ⟨⟨choice, rest⟩ :: above, pending⟩ = scan (⟨choice, rest⟩ :: above) true := by
  cases pending with
  | none => rfl
  | some v =>
    have hv : v ≠ choice := fun e => h (congrArg some e)
    simp only [State.verdict, undecided_cons_of_not_decides hv]
    exact scan_cons_congr choice rest above v true

/-- A particle's verdict is pending after it was judged. -/
theorem scan_cons_particle (p : Particle) :
    scan (⟨choice, p :: rest⟩ :: above) true =
      State.verdict ⟨⟨choice, rest⟩ :: above, some p.emptiable⟩ := by
  obtain ⟨w, hw⟩ := judged p choice rest above true
  rw [hw]
  by_cases hp : p.emptiable = choice
  · rw [if_pos hp, hp, verdict_pending_decides]
    rfl
  · rw [if_neg hp, verdict_pending_forgotten fun e => hp (Option.some.inj e)]
    exact scan_cons_congr choice rest above w true

/-- **One turn** does not change what the state comes to. -/
theorem verdict_step :
    (step choice rest above pending).verdict =
      State.verdict ⟨⟨choice, rest⟩ :: above, pending⟩ := by
  unfold step
  by_cases hp : pending = some choice
  · rw [if_pos hp, hp, verdict_pending_decides]
  · rw [if_neg hp, verdict_pending_forgotten hp]
    rcases rest with _ | ⟨l | g, rest⟩
    · rw [scan]
      rfl
    · exact (scan_cons_particle (.leaf l)).symm
    · by_cases hg : g.plainlyEmptiable = true
      · have hemptiable : (Particle.group g).emptiable = true := by
          simp [Particle.emptiable, ModelGroup.emptiable, hg]
        simp only [if_pos hg]
        rw [scan_cons_particle, hemptiable]
      · simp [State.verdict, scan, hg]

/-- It leaves less to do. -/
theorem weight_step_lt :
    weight (step choice rest above pending).levels < weight (⟨choice, rest⟩ :: above) := by
  unfold step
  split
  · simp only [weight]
    omega
  · rcases rest with _ | ⟨l | g, rest⟩
    · simp only [weight]
      omega
    · simp only [weight, List.cons.sizeOf_spec]
      omega
    · have := g.sizeOf_particles_lt
      dsimp only
      split
      · simp only [weight, List.cons.sizeOf_spec]
        omega
      · simp only [weight, List.cons.sizeOf_spec, Particle.group.sizeOf_spec]
        omega

/-- **The loop ends**, whatever state it begins in. -/
theorem returns_verdict (s : State) : Returns turn s s.verdict := by
  refine Returns.of_step (fun s => weight s.levels) State.verdict ?_ ?_ s
  · rintro ⟨_ | ⟨level, above⟩, pending⟩ v ⟨⟩
    cases pending <;> simp [State.verdict, undecided, scan]
  · rintro ⟨_ | ⟨level, above⟩, pending⟩ s' ⟨⟩
    exact ⟨verdict_step, weight_step_lt⟩

end Presence

/-! ## 3. Groups -/

namespace ModelGroup

/-- The loop over the levels, begun with those of the group unless it is plainly emptiable, ends
with the given verdict. -/
def JudgedEmptiable (g : ModelGroup) (v : Bool) : Prop :=
  if g.plainlyEmptiable then v = true
  else Returns Presence.turn ⟨[⟨g.compositor == .choice, g.particles⟩], none⟩ v

theorem judgedEmptiable_iff {g : ModelGroup} {v : Bool} :
    g.JudgedEmptiable v ↔ v = g.emptiable := by
  by_cases hg : g.plainlyEmptiable = true
  · simp [JudgedEmptiable, emptiable, hg]
  · have h := Presence.returns_verdict ⟨[⟨g.compositor == .choice, g.particles⟩], none⟩
    simp [JudgedEmptiable, emptiable, hg, h.iff_eq, Presence.State.verdict]

/-- One turn of the loop that follows groups with nothing but another group in them. -/
def singleTurn (g : ModelGroup) : Turn ModelGroup Bool :=
  if g.occurs.max ≠ .finite 1 ∨ g.particles = [] then .done false
  else if 1 < g.particles.length then .done true
  else match g.particles.head? with
    | some (.group h) => .again h
    | _ => .done true

/-- **One turn** gives the verdict, or goes on to a smaller group that has the same. -/
theorem singleTurn_cases (g : ModelGroup) :
    g.singleTurn = .done g.single ∨
      ∃ h, g.singleTurn = .again h ∧ h.single = g.single ∧ sizeOf h < sizeOf g := by
  obtain ⟨c, o, ps⟩ := g
  by_cases hmax : o.max = .finite 1
  · rcases ps with _ | ⟨l | h, _ | ⟨q, ps⟩⟩
    · simp [singleTurn, single]
    · simp [singleTurn, single, Occurs.single, hmax]
    · simp [singleTurn, single, Occurs.single, hmax]
    · refine .inr ⟨h, by simp [singleTurn, hmax], by simp [single, Occurs.single, hmax], ?_⟩
      simp only [ModelGroup.mk.sizeOf_spec, List.cons.sizeOf_spec, Particle.group.sizeOf_spec]
      omega
    · simp [singleTurn, single, Occurs.single, hmax]
  · have hsingle : single ⟨c, o, ps⟩ = false := by
      rw [Bool.eq_false_iff, ne_eq, single_iff, Occurs.single, beq_iff_eq]
      exact fun h => hmax h.1
    simp [singleTurn, hmax, hsingle]

theorem returns_single (g : ModelGroup) : Returns singleTurn g g.single := by
  refine Returns.of_step sizeOf single ?_ ?_ g
  · intro g v hv
    rcases g.singleTurn_cases with hdone | ⟨h, hagain, -⟩
    · rw [hdone] at hv
      cases hv
      rfl
    · simp [hagain] at hv
  · intro g g' hg'
    rcases g.singleTurn_cases with hdone | ⟨h, hagain, hsingle, hless⟩
    · simp [hdone] at hg'
    · rw [hagain] at hg'
      cases hg'
      exact ⟨hsingle, hless⟩

theorem emptiable_iff_recursion {g : ModelGroup} :
    g.emptiable = true ↔ g.occurs.min = 0 ∨ g.particles = [] ∨
      (g.compositor = .choice ∧ ∃ p ∈ g.particles, p.emptiable = true) ∨
      (g.compositor ≠ .choice ∧ ∀ p ∈ g.particles, p.emptiable = true) := by
  rw [emptiable_iff, plainlyEmptiable_iff, or_assoc]
  by_cases hc : g.compositor = .choice
  · simp [hc, Compositor.asks_choice]
  · simp [hc, Compositor.asks_of_ne hc]

theorem single_iff_recursion {g : ModelGroup} :
    g.single = true ↔ g.occurs.max = .finite 1 ∧ g.particles ≠ [] ∧
      (1 < g.particles.length ∨ (∃ l, g.particles = [.leaf l]) ∨
        ∃ h, g.particles = [.group h] ∧ h.single = true) := by
  rw [single_iff, Occurs.single, beq_iff_eq]
  refine and_congr_right fun _ => and_congr_right fun hne => ?_
  rcases hps : g.particles with _ | ⟨l | h, _ | ⟨q, ps⟩⟩
  · exact absurd hps hne
  · simp
  · simp
  · simp
  · simp

/-- **Emptiable and single are recursions, and the loops for them end with these verdicts.** A group
is emptiable if its lower bound is zero or it has no particles, as a choice with an emptiable
particle, and as any other group of emptiable particles only. It is single if its upper bound is one
and it has several particles, or only a leaf, or only a group that is single. Groups may be nested
as deep as they like. -/
theorem loops_end_with_recursions (g : ModelGroup) :
    (∀ v, g.JudgedEmptiable v ↔ v = g.emptiable) ∧
    (g.emptiable = true ↔ g.occurs.min = 0 ∨ g.particles = [] ∨
      (g.compositor = .choice ∧ ∃ p ∈ g.particles, p.emptiable = true) ∨
      (g.compositor ≠ .choice ∧ ∀ p ∈ g.particles, p.emptiable = true)) ∧
    (∀ v, Returns singleTurn g v ↔ v = g.single) ∧
    (g.single = true ↔ g.occurs.max = .finite 1 ∧ g.particles ≠ [] ∧
      (1 < g.particles.length ∨ (∃ l, g.particles = [.leaf l]) ∨
        ∃ h, g.particles = [.group h] ∧ h.single = true)) :=
  ⟨fun _ => judgedEmptiable_iff, emptiable_iff_recursion, fun _ => (returns_single g).iff_eq,
    single_iff_recursion⟩

end ModelGroup

end ContentModel
