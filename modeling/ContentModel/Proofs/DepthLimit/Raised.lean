import ContentModel.ModelGroup.Effective
import ContentModel.Proofs.Enclosing.Exact
import ContentModel.Proofs.Walk.Calls

/-!
# Raising the depth limit

A limit is there to stop a computation, not to change what it finds. A call that came to its end
without the limit having stopped it is *settled* (`Settled`), and

> **a settled answer stays the same under every higher limit**, be it a bound, the groups around a
> particle, or that there are none (`ModelGroup.settled_of_le`); a walk that was stopped goes on
> from there.

The bounds may be settled though the walk over the items was not: a lower bound is decided by the
first item that matters. So what they need of a walk is not that it ends without an error, but that
a higher limit adds to what it hands out and changes nothing of it (`Trail.Extends`). How deep each
guard lies does not matter anywhere: a check that is passed is passed under every higher limit, and
that is all that is used of it.
-/

set_option autoImplicit false

namespace ContentModel

/-- An answer that the depth limit has no part in. -/
def Settled {α : Type} (r : Except Error α) : Prop := ∀ e, r ≠ .error (.depth e)

/-- What one limit allows, every higher one does. -/
theorem DepthLimit.check_ok_of_le {δ : Type} [Depth δ] {limit limit' : DepthLimit δ}
    (h : Depth.toNat limit.max ≤ Depth.toNat limit'.max) {depth : δ} {u : Unit}
    (hc : limit.check depth = .ok u) : limit'.check depth = .ok u := by
  unfold check at hc ⊢
  by_cases hd : Depth.toNat depth > Depth.toNat limit.max
  · rw [if_pos hd] at hc
    cases hc
  · exact if_neg fun hd' => hd (Nat.lt_of_le_of_lt h hd')

/-! ## 1. Walks -/

/-- The second trail has all that the first hands out, at its beginning, and is no other trail if
the first came to its end. -/
structure Trail.Extends {δ : Type} (t t' : Trail δ) : Prop where
  items : t.items <+: t'.items
  whole : t.ending = .ok () → t' = t

namespace Trail

variable {δ : Type} {t t' u u' : Trail δ}

theorem Extends.refl (t : Trail δ) : t.Extends t := ⟨List.prefix_rfl, fun _ => rfl⟩

theorem extends_of_stopped (e : DepthError) (t' : Trail δ) : Extends ⟨[], .error e⟩ t' :=
  ⟨List.nil_prefix, fun h => nomatch h⟩

theorem Extends.andThen (h : t.Extends t') (h' : u.Extends u') :
    (t.andThen u).Extends (t'.andThen u') := by
  obtain ⟨is, ending⟩ := t
  cases ending with
  | error e =>
    -- what was stopped is a beginning of the first trail already
    refine ⟨h.items.trans ?_, fun hok => nomatch hok⟩
    unfold Trail.andThen
    cases t'.ending with
    | error e' => exact List.prefix_rfl
    | ok _ => exact List.prefix_append _ _
  | ok _ =>
    rw [h.whole rfl, andThen_ok, andThen_ok]
    exact ⟨List.prefix_append_right_inj _ |>.2 h'.items, fun hok => by rw [h'.whole hok]⟩

end Trail

section

variable {δ : Type} [Depth δ] {m : Manner} {limit limit' : DepthLimit δ}

theorem Particle.extends_trailAll {parent : Compositor} {depth : δ} {ps : List Particle}
    (h : ∀ p ∈ ps, (p.trail m limit parent depth).Extends (p.trail m limit' parent depth)) :
    (Particle.trailAll m limit parent depth ps).Extends
      (Particle.trailAll m limit' parent depth ps) := by
  induction ps with
  | nil =>
    rw [Particle.trailAll, Particle.trailAll]
    exact .refl _
  | cons p ps ih =>
    rw [Particle.trailAll, Particle.trailAll]
    exact (h p List.mem_cons_self).andThen (ih fun q hq => h q (List.mem_cons_of_mem p hq))

theorem Particle.extends_trail (hle : Depth.toNat limit.max ≤ Depth.toNat limit'.max)
    (p : Particle) :
    ∀ (parent : Compositor) (depth : δ),
      (p.trail m limit parent depth).Extends (p.trail m limit' parent depth) := by
  induction p using Particle.induction with
  | leaf l =>
    intro parent depth
    rw [Particle.trail_leaf, Particle.trail_leaf]
    exact .refl _
  | group g ih =>
    intro parent depth
    rw [Particle.trail_group, Particle.trail_group]
    cases hv : m.visit parent g with
    | yield => exact .refl _
    | enter =>
      cases hc : limit.check (Depth.down depth 1) with
      | error e => exact Trail.extends_of_stopped _ _
      | ok _ =>
        rw [DepthLimit.check_ok_of_le hle hc]
        exact Particle.extends_trailAll fun q hq => ih q hq g.compositor (Depth.down depth 1)
    | pass =>
      cases hc : limit.check (Depth.down depth 1) with
      | error e => exact Trail.extends_of_stopped _ _
      | ok _ =>
        rw [DepthLimit.check_ok_of_le hle hc]
        exact .refl _

/-- **A walk under a higher limit** hands out what it did and goes on from there. -/
theorem Walk.extends_trail (hle : Depth.toNat limit.max ≤ Depth.toNat limit'.max) (depth : δ)
    (g : ModelGroup) :
    (Walk.trail ⟨m, limit, depth, some g, []⟩).Extends
      (Walk.trail ⟨m, limit', depth, some g, []⟩) := by
  rw [Walk.trail_start, Walk.trail_start]
  cases hc : limit.check depth with
  | error e => exact Trail.extends_of_stopped _ _
  | ok _ =>
    rw [DepthLimit.check_ok_of_le hle hc]
    dsimp only
    by_cases ho : m.opens g = true
    · rw [if_pos ho, if_pos ho]
      exact Particle.extends_trailAll fun p _ => p.extends_trail hle g.compositor depth
    · rw [if_neg ho, if_neg ho]
      exact .refl _

end

/-- The second walk hands out at each call what the first does, as long as that hands out anything;
and it answers all calls alike if the first is not stopped by an error. -/
def Walk.ContinuedBy {δ : Type} [Depth δ] (w w' : Walk δ) : Prop :=
  (∀ n p, w.answer n = some (.ok p) → w'.answer n = some (.ok p)) ∧
    ((∀ n e, w.answer n ≠ some (.error e)) → ∀ n, w'.answer n = w.answer n)

/-- Only the last answer may be an error, so a particle that is answered is that of an item. -/
theorem Trail.answers_eq_ok {δ : Type} {t : Trail δ} {n : Nat} {p : Particle} :
    t.answers[n]? = some (.ok p) ↔ ∃ i, t.items[n]? = some i ∧ i.particle = p := by
  unfold answers
  rw [List.getElem?_append, List.length_map]
  by_cases hn : n < t.items.length
  · rw [if_pos hn, List.getElem?_map, Option.map_eq_some_iff]
    simp only [Except.ok.injEq]
  · rw [if_neg hn, List.getElem?_eq_none (Nat.not_lt.1 hn)]
    constructor
    · intro h
      have hmem := List.mem_of_getElem? h
      cases hending : t.ending with
      | error e =>
        rw [hending, List.mem_singleton] at hmem
        cases hmem
      | ok _ =>
        rw [hending] at hmem
        cases hmem
    · intro ⟨i, hi, _⟩
      cases hi

theorem Walk.continuedBy_of_extends {δ : Type} [Depth δ] {w w' : Walk δ}
    (h : w.trail.Extends w'.trail) : w.ContinuedBy w' := by
  constructor
  · intro n p hn
    rw [answer_eq, Trail.answers_eq_ok] at hn ⊢
    obtain ⟨i, hi, hp⟩ := hn
    obtain ⟨more, hmore⟩ := h.items
    refine ⟨i, ?_, hp⟩
    rw [← hmore, List.getElem?_append_left (List.getElem?_eq_some_iff.1 hi).1]
    exact hi
  · intro hnone n
    rw [answer_eq, answer_eq]
    rcases w.trail.ending_cases with ⟨e, hending⟩ | hending
    · obtain ⟨k, hk⟩ := List.mem_iff_getElem?.1 (Trail.error_mem_answers hending)
      exact absurd ((answer_eq w k).trans hk) (hnone k e)
    · rw [h.whole hending]

/-! ## 2. Answers that are settled -/

section

variable {α β : Type}

theorem settled_ok (a : α) : Settled (.ok a) := by
  intro e h
  cases h

theorem Settled.of_bind {x : Except Error α} {k : α → Except Error β} (h : Settled (x >>= k)) :
    Settled x := by
  intro e hx
  exact h e (by rw [hx]; rfl)

/-- A computation that is settled stays the same if each of its steps does. -/
theorem Settled.bind_eq {x x' : Except Error α} {k k' : α → Except Error β} (h : Settled (x >>= k))
    (hx : Settled x → x' = x) (hk : ∀ a, x = .ok a → Settled (k a) → k' a = k a) :
    (x' >>= k') = x >>= k := by
  rw [hx h.of_bind]
  cases x with
  | error e => rfl
  | ok a => exact hk a rfl h

theorem Settled.mapM_eq {f f' : α → Except Error β} {xs : List α} (h : Settled (xs.mapM f))
    (hf : ∀ x ∈ xs, Settled (f x) → f' x = f x) : xs.mapM f' = xs.mapM f := by
  induction xs with
  | nil => rfl
  | cons x xs ih =>
    rw [List.mapM_cons] at h
    rw [List.mapM_cons, List.mapM_cons]
    refine h.bind_eq (hf x List.mem_cons_self) fun y _ h => ?_
    exact h.bind_eq (fun h => ih h fun z hz => hf z (List.mem_cons_of_mem x hz)) fun ys _ _ => rfl

/-- A lower bound that is settled is so by the items that the first walk handed out. -/
theorem Compositor.lower_eq_of_settled {c : Compositor} {own : UInt32}
    {ending ending' : Except DepthError Unit} {bound bound' : α → Except Error UInt32}
    {xs more : List α} (h : Settled (c.lower own ending bound xs))
    (hbound : ∀ x ∈ xs, Settled (bound x) → bound' x = bound x)
    (hwhole : ending = .ok () → more = [] ∧ ending' = .ok ()) :
    c.lower own ending' bound' (xs ++ more) = c.lower own ending bound xs := by
  induction xs with
  | nil =>
    cases ending with
    | error e => exact absurd rfl (h e)
    | ok _ =>
      obtain ⟨rfl, rfl⟩ := hwhole rfl
      rfl
  | cons x xs ih =>
    obtain ⟨hx, hbound⟩ := List.forall_mem_cons.1 hbound
    rw [List.cons_append, lower, lower]
    rw [lower] at h
    cases hb : bound x with
    | error e =>
      rw [hb] at h hx
      rw [hx fun e' he => h e' (he ▸ rfl)]
    | ok v =>
      rw [hb] at h hx
      rw [hx (settled_ok v)]
      dsimp only at h ⊢
      by_cases hc : c = .choice
      · by_cases hv : v = 0
        · rw [if_pos hc, if_pos hc, if_pos hv, if_pos hv]
        · rw [if_pos hc, if_neg hv] at h
          rw [if_pos hc, if_pos hc, if_neg hv, if_neg hv, ih h hbound]
      · by_cases hv : v = 0
        · rw [if_neg hc, if_pos hv] at h
          rw [if_neg hc, if_neg hc, if_pos hv, if_pos hv, ih h hbound]
        · rw [if_neg hc, if_neg hc, if_neg hv, if_neg hv]

end

/-! ## 3. Effective bounds -/

/-- Induction over the items that walks hand out. -/
theorem Particle.walkInduction {motive : Particle → Prop} (leaf : ∀ l, motive (.leaf l))
    (group : ∀ g : ModelGroup,
      (∀ (depth : Nat) (limit : DepthLimit), ∀ i ∈ (Walk.items g depth limit).trail.items,
        motive i.particle) → motive (.group g))
    (p : Particle) : motive p :=
  match p with
  | .leaf l => leaf l
  | .group g => group g fun _ _ i hi =>
    have := ModelGroup.sizeOf_item_lt hi
    Particle.walkInduction leaf group i.particle
termination_by sizeOf p
decreasing_by
  rw [Particle.group.sizeOf_spec]
  omega

section

variable {limit limit' : DepthLimit}

theorem Particle.effectiveMin_of_le (hle : limit.max ≤ limit'.max) (p : Particle) :
    ∀ depth, Settled (p.effectiveMin depth limit) →
      p.effectiveMin depth limit' = p.effectiveMin depth limit := by
  induction p using Particle.walkInduction with
  | leaf l =>
    intro depth _
    rfl
  | group g ih =>
    intro depth h
    change Settled (g.effectiveMin depth limit) at h
    show g.effectiveMin depth limit' = g.effectiveMin depth limit
    rw [ModelGroup.effectiveMin_eq] at h
    rw [ModelGroup.effectiveMin_eq, ModelGroup.effectiveMin_eq]
    by_cases hz : (g.occurs.min = 0 || g.particles.isEmpty) = true
    · rw [if_pos hz, if_pos hz]
    · rw [if_neg hz] at h
      rw [if_neg hz, if_neg hz]
      have hitem := ih depth limit
      obtain ⟨⟨more, hmore⟩, hwhole⟩ := Walk.extends_trail (m := .items) hle depth g
      dsimp only at h ⊢
      unfold Walk.items at h hitem ⊢
      rw [← hmore]
      refine Compositor.lower_eq_of_settled h (fun i hi => hitem i hi (i.depth + 1)) fun hok => ?_
      rw [hwhole hok] at hmore
      refine ⟨List.append_right_eq_self.1 hmore, ?_⟩
      rw [hwhole hok, hok]

theorem Particle.effectiveMax_of_le (hle : limit.max ≤ limit'.max) (p : Particle) :
    ∀ depth, Settled (p.effectiveMax depth limit) →
      p.effectiveMax depth limit' = p.effectiveMax depth limit := by
  induction p using Particle.walkInduction with
  | leaf l =>
    intro depth _
    rfl
  | group g ih =>
    intro depth h
    change Settled (g.effectiveMax depth limit) at h
    show g.effectiveMax depth limit' = g.effectiveMax depth limit
    rw [ModelGroup.effectiveMax_eq] at h
    rw [ModelGroup.effectiveMax_eq, ModelGroup.effectiveMax_eq]
    by_cases hz : (g.occurs.max = .finite 0 || g.particles.isEmpty) = true
    · rw [if_pos hz, if_pos hz]
    · rw [if_neg hz] at h
      rw [if_neg hz, if_neg hz]
      have hitem := ih depth limit
      have hextends := Walk.extends_trail (m := .items) hle depth g
      dsimp only at h ⊢
      unfold Walk.items at h hitem ⊢
      generalize Walk.trail ⟨.items, limit, depth, some g, []⟩ = t at h hitem hextends ⊢
      generalize Walk.trail ⟨.items, limit', depth, some g, []⟩ = t' at hextends ⊢
      have hmaxima := h.of_bind.mapM_eq fun i hi => hitem i hi (i.depth + 1)
      rcases t.ending_cases with ⟨e, hending⟩ | hending
      · -- the walk was stopped, so it is an item that failed, and not for its depth
        obtain ⟨more, hmore⟩ := hextends.items
        rw [← hmore, List.mapM_append, hmaxima]
        cases hm : t.items.mapM fun i => i.particle.effectiveMax (i.depth + 1) limit with
        | error e' => rfl
        | ok maxima =>
          rw [hm, hending] at h
          exact absurd rfl (h e)
      · rw [hextends.whole hending]
        refine h.bind_eq (fun _ => hmaxima) fun maxima _ h => ?_
        refine h.bind_eq (fun _ => rfl) fun _ _ h => ?_
        generalize t.items.zip maxima = pairs at h ⊢
        by_cases hlive : (pairs.filter (·.2 != .finite 0)).isEmpty = true
        · rw [if_pos hlive, if_pos hlive]
        · rw [if_neg hlive] at h
          rw [if_neg hlive, if_neg hlive]
          by_cases hown : g.occurs.max = .unbounded
          · rw [if_pos hown, if_pos hown]
          · rw [if_neg hown] at h
            rw [if_neg hown, if_neg hown]
            by_cases hc : g.compositor = .choice
            · rw [if_pos hc, if_pos hc]
            · rw [if_neg hc] at h
              rw [if_neg hc, if_neg hc]
              refine h.bind_eq (fun h => ?_) fun _ _ _ => rfl
              exact h.mapM_eq fun pair _ =>
                pair.1.particle.effectiveMin_of_le hle (pair.1.depth + 1)

end

/-! ## 4. The groups around a particle -/

namespace Enclosing

section

variable {limit limit' : DepthLimit}

theorem seekAll_of_le {depth : Nat} {g : ModelGroup} {target : Option Position} {ps : List Particle}
    (h : ∀ p ∈ ps, ∀ target found,
      seek limit depth target p = .ok found → seek limit' depth target p = .ok found) :
    ∀ i found, seekAll limit depth g target i ps = .ok found →
      seekAll limit' depth g target i ps = .ok found := by
  induction ps with
  | nil =>
    intro i found hs
    rw [seekAll] at hs ⊢
    exact hs
  | cons p ps ih =>
    intro i found hs
    have ih := ih fun q hq => h q (List.mem_cons_of_mem p hq)
    rw [seekAll] at hs ⊢
    by_cases ht : target = some [i]
    · rw [if_pos ht] at hs ⊢
      exact hs
    · rw [if_neg ht] at hs ⊢
      cases hp : seek limit depth (below target i) p with
      | error e =>
        rw [hp] at hs
        cases hs
      | ok inner =>
        rw [hp] at hs
        rw [h p List.mem_cons_self _ _ hp]
        cases inner with
        | none => exact ih (i + 1) found hs
        | some chain => exact hs

theorem seek_of_le (hle : limit.max ≤ limit'.max) (p : Particle) :
    ∀ depth target found, seek limit depth target p = .ok found →
      seek limit' depth target p = .ok found := by
  induction p using Particle.induction with
  | leaf l =>
    intro depth target found hs
    rw [seek_leaf] at hs ⊢
    exact hs
  | group g ih =>
    intro depth target found hs
    rw [seek_group] at hs ⊢
    cases hc : limit.check depth with
    | error e =>
      rw [hc] at hs
      cases hs
    | ok _ =>
      rw [hc] at hs
      rw [DepthLimit.check_ok_of_le hle hc]
      exact seekAll_of_le (fun q hq => ih q hq (depth + 1)) 0 found hs

end

end Enclosing

/-- The depth is the only thing that a search is stopped by. -/
theorem ModelGroup.enclosing_of_le {limit limit' : DepthLimit} (hle : limit.max ≤ limit'.max)
    (g : ModelGroup) (s : Sought) (h : Settled (g.enclosing s limit)) :
    g.enclosing s limit' = g.enclosing s limit := by
  rw [ModelGroup.enclosing_eq] at h
  rw [ModelGroup.enclosing_eq, ModelGroup.enclosing_eq]
  cases hs : Enclosing.seekAll limit 0 g s.position 0 g.particles with
  | error e =>
    rw [hs] at h
    exact absurd rfl (h _)
  | ok found => rw [Enclosing.seekAll_of_le (fun p _ => Enclosing.seek_of_le hle p 0) 0 found hs]

/-! ## 5. All of them -/

/-- **Raising the depth limit changes no answer.** Effective bounds found at any depth, and the
groups around a particle, stay what they are once the limit had no part in them, a failure for
another reason included; and a walk hands out, call by call, what it did, and is the same to its end
if it was not stopped, whether it counts in plain numbers or in words that wrap around. -/
theorem ModelGroup.settled_of_le {limit limit' : DepthLimit} (hle : limit.max ≤ limit'.max)
    (g : ModelGroup) :
    (∀ depth, Settled (g.effectiveMin depth limit) →
      g.effectiveMin depth limit' = g.effectiveMin depth limit) ∧
    (∀ depth, Settled (g.effectiveMax depth limit) →
      g.effectiveMax depth limit' = g.effectiveMax depth limit) ∧
    (∀ s, Settled (g.enclosing s limit) → g.enclosing s limit' = g.enclosing s limit) ∧
    (∀ depth, (Walk.items g depth limit).ContinuedBy (Walk.items g depth limit')) ∧
    (∀ depth, (Walk.leaves g depth limit).ContinuedBy (Walk.leaves g depth limit')) ∧
    ∀ start low high : UInt64, low ≤ high →
      (Walk.items g start ⟨low⟩).ContinuedBy (Walk.items g start ⟨high⟩) ∧
        (Walk.leaves g start ⟨low⟩).ContinuedBy (Walk.leaves g start ⟨high⟩) := by
  refine ⟨?_, ?_, g.enclosing_of_le hle, ?_, ?_, ?_⟩
  · exact (Particle.group g).effectiveMin_of_le hle
  · exact (Particle.group g).effectiveMax_of_le hle
  · intro depth
    exact Walk.continuedBy_of_extends (Walk.extends_trail hle depth g)
  · intro depth
    exact Walk.continuedBy_of_extends (Walk.extends_trail hle depth g)
  · intro start low high h
    have hwords : low.toNat ≤ high.toNat := UInt64.le_iff_toNat_le.1 h
    exact ⟨Walk.continuedBy_of_extends (Walk.extends_trail hwords start g),
      Walk.continuedBy_of_extends (Walk.extends_trail hwords start g)⟩

/-- A sequence in a sequence, too deep for the limit zero: the lower bound is settled by the element
before it, where the walk is still under way, and stays one; the walk goes on to `b`. -/
theorem ModelGroup.settled_of_le_before_the_end :
    let leaf : String → Particle := fun name => .leaf (.element ⟨⟨none, name⟩, .once, none⟩)
    let inner : ModelGroup := ⟨.sequence, .once, [leaf "b"]⟩
    let g : ModelGroup := ⟨.sequence, .once, [leaf "a", .group inner]⟩
    g.effectiveMin 0 ⟨0⟩ = .ok 1 ∧ g.effectiveMin 0 .standard = .ok 1 ∧
      (Walk.items g 0 ⟨0⟩).answer 0 = some (.ok (leaf "a")) ∧
      (Walk.items g 0 .standard).answer 0 = some (.ok (leaf "a")) ∧
      (Walk.items g 0 ⟨0⟩).answer 1 = some (.error ⟨1, 0, some inner.text⟩) ∧
      (Walk.items g 0 .standard).answer 1 = some (.ok (leaf "b")) := by
  intro leaf inner g
  have htrail : (Walk.items g 0 ⟨0⟩).trail = ⟨[⟨leaf "a", 0⟩], .error ⟨1, 0, some inner.text⟩⟩ := by
    rw [Walk.items, Walk.trail_start]
    rfl
  have htrail' : (Walk.items g 0 .standard).trail = ⟨[⟨leaf "a", 0⟩, ⟨leaf "b", 1⟩], .ok ()⟩ := by
    rw [Walk.items, Walk.trail_start]
    rfl
  have hmin : g.effectiveMin 0 ⟨0⟩ = .ok 1 := by
    rw [effectiveMin_eq, htrail]
    rfl
  have hfirst : (Walk.items g 0 ⟨0⟩).answer 0 = some (.ok (leaf "a")) := by
    rw [Walk.answer_eq, htrail]
    rfl
  have hstopped : (Walk.items g 0 ⟨0⟩).answer 1 = some (.error ⟨1, 0, some inner.text⟩) := by
    rw [Walk.answer_eq, htrail]
    rfl
  have hsecond : (Walk.items g 0 .standard).answer 1 = some (.ok (leaf "b")) := by
    rw [Walk.answer_eq, htrail']
    rfl
  have hsettled : Settled (g.effectiveMin 0 ⟨0⟩) := by
    intro e he
    rw [hmin] at he
    cases he
  have hle : (DepthLimit.mk 0).max ≤ DepthLimit.standard.max := Nat.zero_le 15
  obtain ⟨hraised, -, -, hitems, -⟩ := settled_of_le hle g
  exact ⟨hmin, (hraised 0 hsettled).trans hmin, hfirst, (hitems 0).1 0 _ hfirst, hstopped, hsecond⟩

end ContentModel
