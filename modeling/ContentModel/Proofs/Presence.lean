import ContentModel.ModelGroup.Presence
import ContentModel.Proofs.Tree

/-!
# The verdicts on a group are recursions over its particles

`ModelGroup.emptiable` is found by a scan over a stack of levels, of which several may end at once.
In this file the stack is gone:

> **a group is emptiable when it plainly is, or its particles are as its compositor asks**
> (`ModelGroup.emptiable_iff`): some of them in a choice, all of them in any other group.

What makes the scan a recursion is that the innermost level has a verdict of its own, fixed by its
particles alone (`Presence.verdict`), and that the levels above learn nothing of it but that verdict
(`Presence.scan_level`).
-/

set_option autoImplicit false

namespace ContentModel

namespace Presence

/-! ## 1. One level -/

/-- The verdict of a level: that of its kind if one of its particles decides it, else the other. -/
def verdict (choice : Bool) (ps : List Particle) : Bool :=
  if ps.any (·.emptiable == choice) then choice else !choice

theorem verdict_cons_of_decides {choice : Bool} {p : Particle} (ps : List Particle)
    (h : p.emptiable = choice) : verdict choice (p :: ps) = choice := by
  rw [verdict, List.any_cons, h, beq_self_eq_true, Bool.true_or, if_pos rfl]

theorem verdict_cons_of_not_decides {choice : Bool} {p : Particle} (ps : List Particle)
    (h : p.emptiable ≠ choice) : verdict choice (p :: ps) = verdict choice ps := by
  rw [verdict, List.any_cons, beq_false_of_ne h, Bool.false_or, verdict]

theorem undecided_cons_of_decides {choice : Bool} (ps : List Particle) (above : List Level) :
    undecided choice (⟨choice, ps⟩ :: above) = undecided choice above := by
  unfold undecided
  exact List.dropWhile_cons_of_pos (beq_self_eq_true choice)

theorem undecided_cons_of_not_decides {choice v : Bool} (h : v ≠ choice) (ps : List Particle)
    (above : List Level) : undecided v (⟨choice, ps⟩ :: above) = ⟨choice, ps⟩ :: above := by
  unfold undecided
  exact List.dropWhile_cons_of_neg fun e => h (beq_iff_eq.1 e).symm

/-- The scan takes the particle for what it is: either the level ends with it, or it goes on with
the rest. The verdict given last may have changed on the way, which is nothing to a level. -/
def Judged (p : Particle) : Prop :=
  ∀ choice rest above v, ∃ w,
    scan (⟨choice, p :: rest⟩ :: above) v =
      if p.emptiable = choice then scan (undecided choice above) choice
      else scan (⟨choice, rest⟩ :: above) w

theorem scan_level_of_judged {choice : Bool} {ps : List Particle} (h : ∀ p ∈ ps, Judged p) :
    ∀ above v, scan (⟨choice, ps⟩ :: above) v =
      scan (undecided (verdict choice ps) above) (verdict choice ps) := by
  induction ps with
  | nil =>
    intro above v
    rw [scan]
    rfl
  | cons p ps ih =>
    intro above v
    -- the verdict carried along may change to `w`, so the hypothesis has to hold for every one
    obtain ⟨w, hw⟩ := h p List.mem_cons_self choice ps above v
    rw [hw]
    by_cases hp : p.emptiable = choice
    · rw [if_pos hp, verdict_cons_of_decides ps hp]
    · rw [if_neg hp, verdict_cons_of_not_decides ps hp]
      exact ih (fun q hq => h q (List.mem_cons_of_mem p hq)) above w

theorem scan_alone_of_judged {choice : Bool} {ps : List Particle} (h : ∀ p ∈ ps, Judged p)
    (v : Bool) :
    scan [⟨choice, ps⟩] v = verdict choice ps := by
  rw [scan_level_of_judged h, undecided, List.dropWhile_nil, scan]

/-! ## 2. All levels -/

theorem judged_leaf (l : Leaf) : Judged (.leaf l) := by
  intro choice rest above v
  refine ⟨v, ?_⟩
  rw [scan]
  by_cases hl : l.emptiable = choice
  · have hp : (Particle.leaf l).emptiable = choice := hl
    rw [if_pos hp, if_pos (beq_iff_eq.2 hl)]
  · have hp : ¬ (Particle.leaf l).emptiable = choice := hl
    rw [if_neg hp, if_neg fun e => hl (beq_iff_eq.1 e)]

theorem judged_group {g : ModelGroup} (h : ∀ p ∈ g.particles, Judged p) : Judged (.group g) := by
  intro choice rest above v
  by_cases hg : g.plainlyEmptiable = true
  · have hp : (Particle.group g).emptiable = true := by
      rw [Particle.emptiable, ModelGroup.emptiable, hg, Bool.true_or]
    -- it is not entered, and decides a choice only
    refine ⟨v, ?_⟩
    rw [scan, if_pos hg, hp]
    cases choice with
    | true => rfl
    | false => rfl
  · have hp : (Particle.group g).emptiable = verdict (g.compositor == .choice) g.particles := by
      rw [Particle.emptiable, ModelGroup.emptiable, Bool.eq_false_iff.2 hg, Bool.false_or,
        scan_alone_of_judged h]
    refine ⟨verdict (g.compositor == .choice) g.particles, ?_⟩
    rw [scan, if_neg hg, scan_level_of_judged h, hp]
    -- the level above is the first to hear of the verdict
    by_cases hv : verdict (g.compositor == .choice) g.particles = choice
    · rw [if_pos hv, hv, undecided_cons_of_decides]
    · rw [if_neg hv, undecided_cons_of_not_decides hv]

theorem judged (p : Particle) : Judged p := by
  induction p using Particle.induction with
  | leaf l => exact judged_leaf l
  | group g ih => exact judged_group ih

/-- **A level and those above it**: all that matters of the level is its verdict. -/
theorem scan_level (choice : Bool) (ps : List Particle) (above : List Level) (v : Bool) :
    scan (⟨choice, ps⟩ :: above) v =
      scan (undecided (verdict choice ps) above) (verdict choice ps) :=
  scan_level_of_judged (fun p _ => judged p) above v

theorem verdict_iff (c : Compositor) (ps : List Particle) :
    verdict (c == .choice) ps = true ↔ c.Asks (·.emptiable = true) ps := by
  by_cases hc : c = .choice
  · rw [hc, Compositor.asks_choice, verdict]
    simp
  · rw [Compositor.asks_of_ne hc, verdict, beq_false_of_ne hc]
    simp

end Presence

/-! ## 3. Groups -/

namespace ModelGroup

theorem plainlyEmptiable_iff {g : ModelGroup} :
    g.plainlyEmptiable = true ↔ g.occurs.min = 0 ∨ g.particles = [] := by
  rw [plainlyEmptiable, Bool.or_eq_true, Occurs.emptiable, beq_iff_eq, List.isEmpty_iff]

/-- **Emptiable groups, without the stack.** -/
theorem emptiable_iff {g : ModelGroup} :
    g.emptiable = true ↔
      g.plainlyEmptiable = true ∨ g.compositor.Asks (·.emptiable = true) g.particles := by
  rw [emptiable, Bool.or_eq_true, Presence.scan_level, Presence.undecided, List.dropWhile_nil,
    Presence.scan, Presence.verdict_iff]

/-- A group occurs at most once when its range says so, save that the verdict on a group with
nothing but another group in it is passed on to that one. -/
theorem single_iff {g : ModelGroup} :
    g.single = true ↔
      g.occurs.single = true ∧ g.particles ≠ [] ∧
        ∀ h, g.particles = [.group h] → h.single = true := by
  obtain ⟨c, o, ps⟩ := g
  cases ps with
  | nil => simp [single]
  | cons p rest =>
    cases p with
    | leaf l => simp [single]
    | group h =>
      cases rest with
      | nil => simp [single]
      | cons q rest => simp [single]

theorem empty_iff {g : ModelGroup} :
    g.empty = true ↔ g.particles = [] ∨ g.occurs.max = .finite 0 := by
  rw [empty, Bool.or_eq_true, List.isEmpty_iff, Occurs.empty, beq_iff_eq]

/-- Of its particles, no more than their number decides whether a group is pointless. -/
theorem pointless_eq (g : ModelGroup) (parent : Compositor) :
    g.pointless parent =
      (g.particles.length == 0 || g.occurs == .once &&
        (g.particles.length == 1 || g.compositor == parent && g.compositor != .all)) := by
  obtain ⟨c, o, ps⟩ := g
  rcases ps with _ | ⟨p, _ | ⟨q, ps⟩⟩
  · rfl
  · simp [pointless]
  · simp [pointless, Bool.and_assoc]

end ModelGroup

end ContentModel
