import ContentModel.Walk

/-!
# A walk is a recursion over the tree

A walk keeps the groups it is within on a stack of levels and moves on one particle at a time
(`Level.advance`). This file says what it hands out in total without the stack: `Particle.trail`
walks one particle by recursion over the tree, and the trail of a list of particles is the trails of
its members one after another, cut off at the first error.

> **The trail of a walk is the recursive one** (`Level.trail_eq`): whatever the manner, the limit
> and the levels it starts from, a walk hands out what is left on each level, innermost level first.

The proof is one lemma about a single step (`Level.pending_advance`) and an induction over the walk.
Everything said later about items and leaves is said of the recursion.
-/

set_option autoImplicit false

namespace ContentModel

/-! ## 1. Trails one after another -/

namespace Trail

variable {δ : Type}

def nothing : Trail δ := ⟨[], .ok ()⟩

/-- One trail and then another, which does not come about if the first ends in an error. -/
def andThen (first second : Trail δ) : Trail δ :=
  match first.ending with
  | .error e => ⟨first.items, .error e⟩
  | .ok _ => ⟨first.items ++ second.items, second.ending⟩

theorem andThen_ok {is : List (Item δ)} {t : Trail δ} :
    andThen ⟨is, .ok ()⟩ t = ⟨is ++ t.items, t.ending⟩ := rfl

@[simp] theorem nothing_andThen (t : Trail δ) : nothing.andThen t = t := by
  unfold nothing
  rw [andThen_ok, List.nil_append]

@[simp] theorem andThen_nothing (t : Trail δ) : t.andThen nothing = t := by
  obtain ⟨is, ending⟩ := t
  cases ending with
  | error e => rfl
  | ok u => rw [andThen_ok, nothing, List.append_nil]

theorem andThen_assoc (a b c : Trail δ) : (a.andThen b).andThen c = a.andThen (b.andThen c) := by
  obtain ⟨is, ea⟩ := a
  cases ea with
  | error e => rfl
  | ok u =>
    obtain ⟨js, eb⟩ := b
    cases eb with
    | error e => rfl
    | ok v =>
      rw [andThen_ok, andThen_ok, andThen_ok, andThen_ok, List.append_assoc]

/-- Two trails come to their end one after the other if both do. -/
theorem ending_andThen_eq_ok {t u : Trail δ} :
    (t.andThen u).ending = .ok () ↔ t.ending = .ok () ∧ u.ending = .ok () := by
  obtain ⟨is, ending⟩ := t
  cases ending with
  | error e => exact ⟨fun h => (nomatch h), fun h => (nomatch h.1)⟩
  | ok _ => exact (and_iff_right rfl).symm

end Trail

/-! ## 2. The recursion -/

section

variable {δ : Type} [Depth δ]

mutual

/-- What a walk makes of a particle that stands in a group of the given compositor, found at a
depth. -/
def Particle.trail (m : Manner) (limit : DepthLimit δ) (parent : Compositor) (depth : δ) :
    Particle → Trail δ
  | .leaf l => ⟨[⟨.leaf l, depth⟩], .ok ()⟩
  | .group ⟨c, o, ps⟩ =>
    match m.visit parent ⟨c, o, ps⟩, limit.check (Depth.down depth 1) with
    | .yield, _ => ⟨[⟨.group ⟨c, o, ps⟩, depth⟩], .ok ()⟩
    | _, .error e => ⟨[], .error (e.walking ⟨c, o, ps⟩)⟩
    | .enter, .ok _ => Particle.trailAll m limit c (Depth.down depth 1) ps
    | .pass, .ok _ => .nothing

/-- The same for some particles of a group in turn. -/
def Particle.trailAll (m : Manner) (limit : DepthLimit δ) (parent : Compositor) (depth : δ) :
    List Particle → Trail δ
  | [] => .nothing
  | p :: ps => (p.trail m limit parent depth).andThen (Particle.trailAll m limit parent depth ps)

end

theorem Particle.trail_leaf (m : Manner) (limit : DepthLimit δ) (parent : Compositor) (depth : δ)
    (l : Leaf) : (Particle.leaf l).trail m limit parent depth = ⟨[⟨.leaf l, depth⟩], .ok ()⟩ := by
  rw [Particle.trail]

theorem Particle.trail_group (m : Manner) (limit : DepthLimit δ) (parent : Compositor) (depth : δ)
    (g : ModelGroup) :
    (Particle.group g).trail m limit parent depth =
      match m.visit parent g, limit.check (Depth.down depth 1) with
      | .yield, _ => ⟨[⟨.group g, depth⟩], .ok ()⟩
      | _, .error e => ⟨[], .error (e.walking g)⟩
      | .enter, .ok _ => Particle.trailAll m limit g.compositor (Depth.down depth 1) g.particles
      | .pass, .ok _ => .nothing := by
  cases g
  rw [Particle.trail]

end

/-- The trail comes to its end, and all that it hands out is as asked. -/
def Trail.Passes {δ : Type} (P : Item δ → Prop) (t : Trail δ) : Prop :=
  t.ending = .ok () ∧ ∀ i ∈ t.items, P i

section

variable {δ : Type} {P : Item δ → Prop}

theorem Trail.passes_nothing : nothing.Passes P := ⟨rfl, fun _ hi => absurd hi List.not_mem_nil⟩

theorem Trail.passes_single {i : Item δ} : Passes P ⟨[i], .ok ()⟩ ↔ P i :=
  (and_iff_right rfl).trans List.forall_mem_singleton

theorem Trail.not_passes_of_error {is : List (Item δ)} {e : DepthError} :
    ¬ Passes P ⟨is, .error e⟩ :=
  fun h => nomatch h.1

theorem Trail.passes_andThen {t u : Trail δ} :
    (t.andThen u).Passes P ↔ t.Passes P ∧ u.Passes P := by
  obtain ⟨is, ending⟩ := t
  cases ending with
  | error e => exact iff_of_false not_passes_of_error fun h => not_passes_of_error h.1
  | ok _ =>
    rw [andThen_ok, Passes, Passes, Passes, List.forall_mem_append]
    exact and_left_comm.trans (and_congr_left fun _ => (and_iff_right rfl).symm)

/-- If nothing is asked of the items, all that matters is the end. -/
theorem Trail.passes_true {t : Trail δ} : t.Passes (fun _ => True) ↔ t.ending = .ok () :=
  and_iff_left fun _ _ => trivial

/-- Some particles of a group pass if each of them does. -/
theorem Particle.passes_trailAll [Depth δ] {m : Manner} {limit : DepthLimit δ}
    {parent : Compositor} {depth : δ} {ps : List Particle} :
    (Particle.trailAll m limit parent depth ps).Passes P ↔
      ∀ p ∈ ps, (p.trail m limit parent depth).Passes P := by
  induction ps with
  | nil =>
    rw [Particle.trailAll]
    exact iff_of_true Trail.passes_nothing fun p hp => absurd hp List.not_mem_nil
  | cons p ps ih => rw [Particle.trailAll, Trail.passes_andThen, ih, List.forall_mem_cons]

end

/-! ## 3. The stack of levels -/

namespace Level

variable {δ : Type} [Depth δ]

/-- What there is still to come on some levels, innermost first. -/
def pending (m : Manner) (limit : DepthLimit δ) : List (Level δ) → Trail δ
  | [] => .nothing
  | v :: above =>
    (Particle.trailAll m limit v.compositor v.depth v.rest).andThen (pending m limit above)

theorem pending_finished (m : Manner) (limit : DepthLimit δ) (d : δ) (c : Compositor)
    (above : List (Level δ)) : pending m limit (⟨d, c, []⟩ :: above) = pending m limit above := by
  rw [pending, Particle.trailAll, Trail.nothing_andThen]

theorem pending_next (m : Manner) (limit : DepthLimit δ) (d : δ) (c : Compositor) (p : Particle)
    (rest : List Particle) (above : List (Level δ)) :
    pending m limit (⟨d, c, p :: rest⟩ :: above) =
      (p.trail m limit c d).andThen (pending m limit (⟨d, c, rest⟩ :: above)) := by
  rw [pending, Particle.trailAll, Trail.andThen_assoc, pending]

/-- **One step of the walk.** Nothing is handed out when nothing is pending; an error is all there
is; and a particle that is handed out is the first of what was pending, the rest of which is
left. -/
theorem pending_advance (m : Manner) (limit : DepthLimit δ) (start : δ)
    (levels : List (Level δ)) :
    pending m limit levels =
      match advance m limit levels with
      | (none, _) => .nothing
      | (some (.error e), _) => ⟨[], .error e⟩
      | (some (.ok p), after) =>
        ⟨⟨p, innermost after start⟩ :: (pending m limit after).items,
          (pending m limit after).ending⟩ := by
  fun_induction advance m limit levels with
  | case1 => rfl
  | case2 d c above ih => rw [pending_finished, ih]
  | case3 d c l rest above =>
    rw [pending_next, Particle.trail_leaf, Trail.andThen_ok]
    rfl
  | case4 d c g rest above hv =>
    rw [pending_next, Particle.trail_group, hv, Trail.andThen_ok]
    rfl
  | case5 d c g rest above e hcheck hne =>
    -- entered or passed over, a group that lies too deep is an error
    rw [pending_next, Particle.trail_group, hcheck]
    cases hv : m.visit c g with
    | yield => exact absurd hv hne
    | enter => rfl
    | pass => rfl
  | case6 d c g rest above u hcheck hv ih =>
    rw [pending_next, Particle.trail_group, hv, hcheck, ← ih]
    rfl
  | case7 d c g rest above u hcheck hv ih =>
    rw [pending_next, Particle.trail_group, hv, hcheck, ← ih]
    exact Trail.nothing_andThen _

/-- **A whole walk**, by induction over its steps: what was handed out before, and then everything
that was pending. -/
theorem trail_eq (m : Manner) (limit : DepthLimit δ) (start : δ) (levels : List (Level δ))
    (done : List (Item δ)) :
    trail m limit start levels done =
      ⟨done.reverse ++ (pending m limit levels).items, (pending m limit levels).ending⟩ := by
  fun_induction trail m limit start levels done with
  | case1 levels done after hstep =>
    rw [pending_advance m limit start, hstep, Trail.nothing, List.append_nil]
  | case2 levels done e after hstep =>
    rw [pending_advance m limit start, hstep, List.append_nil]
  | case3 levels done p after hstep ih =>
    rw [ih, pending_advance m limit start levels, hstep, List.reverse_cons, List.append_assoc,
      List.singleton_append]

end Level

/-! ## 4. Walks from the start -/

/-- A walk that has not started checks its group, and then walks it particle by particle. -/
theorem Walk.trail_start {δ : Type} [Depth δ] (m : Manner) (limit : DepthLimit δ) (depth : δ)
    (g : ModelGroup) :
    Walk.trail ⟨m, limit, depth, some g, []⟩ =
      match limit.check depth with
      | .error e => ⟨[], .error (e.walking g)⟩
      | .ok _ =>
        if m.opens g then Particle.trailAll m limit g.compositor depth g.particles
        else .nothing := by
  unfold Walk.trail Walk.begin
  dsimp only
  cases limit.check depth with
  | error e => rfl
  | ok u =>
    cases m.opens g with
    | false =>
      rw [if_neg Bool.false_ne_true, if_neg Bool.false_ne_true]
      exact Level.trail_eq m limit depth [] []
    | true =>
      rw [if_pos rfl, if_pos rfl]
      dsimp only
      rw [Level.trail_eq, Level.pending, Level.pending, Level.enter]
      generalize Particle.trailAll m limit g.compositor depth g.particles = t
      obtain ⟨is, ending⟩ := t
      cases ending with
      | error e => rfl
      | ok u => rw [Trail.andThen_ok, Trail.nothing, List.append_nil]; rfl

end ContentModel
