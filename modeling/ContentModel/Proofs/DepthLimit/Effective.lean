import ContentModel.Proofs.DepthLimit.Raised
import ContentModel.Proofs.Effective.Exact
import ContentModel.Proofs.Overall
import ContentModel.Proofs.Walk.Leaves

/-!
# When the upper bound is out of reach

The effective upper bound of a group is found by walks within walks: one over the items of the
group, and for each item that is a group again, one over its items, a level further down. Only what
can occur is looked into, and a group with nothing in it is dissolved wherever it stands, after its
depth was checked.

> **The limit is in the way exactly if a group that the computation enters lies below it**
> (`ModelGroup.effectiveMax_fails_iff`), and then the error is always the one for the level just
> below the limit.

Which groups are entered is said by their places alone (`ModelGroup.Enters`): all groups around one
may occur, and it may occur itself or holds nothing. A walk over items deals with the levels that
are dissolved, each item with those below it, and the groups entered by the one and the others are
those entered by the group (`Particle.passes_items`). The lower bounds that are asked for in the end
are those of items whose upper bounds were found, and they are found too
(`Particle.effectiveMin_ok`).
-/

set_option autoImplicit false

namespace ContentModel

/-! ## 1. Results that depend on the depth alone -/

/-- A result exactly if the condition holds; if not, the error for a group one level below the
limit. -/
def Guarded {α : Type} (limit : DepthLimit) (fits : Prop) (r : Except Error α) : Prop :=
  (fits → ∃ a, r = .ok a) ∧
    (¬ fits → ∃ name, r = .error (.depth ⟨limit.max + 1, limit.max, some name⟩))

section

variable {α β : Type} {limit : DepthLimit} {fits fits' : Prop}

theorem guarded_ok (h : fits) (a : α) : Guarded limit fits (.ok a) :=
  ⟨fun _ => ⟨a, rfl⟩, fun hn => absurd h hn⟩

theorem Guarded.congr {r : Except Error α} (h : Guarded limit fits r) (hiff : fits' ↔ fits) :
    Guarded limit fits' r :=
  ⟨fun hf => h.1 (hiff.1 hf), fun hf => h.2 (mt hiff.2 hf)⟩

theorem Guarded.error_iff {r : Except Error α} (h : Guarded limit fits r) :
    (∃ e, r = .error e) ↔ ¬ fits := by
  constructor
  · intro ⟨e, he⟩ hfits
    obtain ⟨a, ha⟩ := h.1 hfits
    rw [ha] at he
    cases he
  · intro hfits
    obtain ⟨name, he⟩ := h.2 hfits
    exact ⟨_, he⟩

theorem Guarded.error_eq {r : Except Error α} (h : Guarded limit fits r) {e : Error}
    (he : r = .error e) :
    ∃ name, e = .depth ⟨limit.max + 1, limit.max, some name⟩ := by
  obtain ⟨name, hname⟩ := h.2 (h.error_iff.1 ⟨e, he⟩)
  rw [he] at hname
  exact ⟨name, Except.error.inj hname⟩

theorem Guarded.bind {x : Except Error α} {k : α → Except Error β} (h : Guarded limit fits x)
    (hk : ∀ a, x = .ok a → Guarded limit fits' (k a)) : Guarded limit (fits ∧ fits') (x >>= k) := by
  by_cases hfits : fits
  · obtain ⟨a, ha⟩ := h.1 hfits
    rw [ha]
    exact (hk a ha).congr (and_iff_right hfits)
  · obtain ⟨name, he⟩ := h.2 hfits
    rw [he]
    exact ⟨fun hf => absurd hf.1 hfits, fun _ => ⟨name, rfl⟩⟩

theorem Guarded.mapM {f : α → Except Error β} {fits : α → Prop} {xs : List α}
    (h : ∀ x ∈ xs, Guarded limit (fits x) (f x)) :
    Guarded limit (∀ x ∈ xs, fits x) (xs.mapM f) := by
  induction xs with
  | nil => exact guarded_ok (fun x hx => absurd hx List.not_mem_nil) []
  | cons x xs ih =>
    obtain ⟨hx, hxs⟩ := List.forall_mem_cons.1 h
    rw [List.mapM_cons]
    refine (hx.bind fun y _ => ?_).congr List.forall_mem_cons
    exact ((ih hxs).bind fun ys _ => guarded_ok trivial _).congr (and_iff_left trivial).symm

theorem exists_ok_of_mapM {ε : Type} {f : α → Except ε β} {xs : List α} {ys : List β}
    (h : xs.mapM f = .ok ys) : ∀ x ∈ xs, ∃ y, f x = .ok y := by
  induction xs generalizing ys with
  | nil => exact fun x hx => absurd hx List.not_mem_nil
  | cons x xs ih =>
    rw [List.mapM_cons] at h
    cases hx : f x with
    | error e =>
      rw [hx] at h
      cases h
    | ok y =>
      rw [hx] at h
      cases hxs : xs.mapM f with
      | error e =>
        have hstopped : Except.error e = Except.ok ys := by
          rw [← h, hxs]
          rfl
        cases hstopped
      | ok rest => exact List.forall_mem_cons.2 ⟨⟨y, hx⟩, ih hxs⟩

end

/-! ## 2. The groups that are entered -/

/-- The upper bound of the first group is not found without looking at the second, which lies at the
given position: all groups around it may occur, and it may occur itself or holds nothing. -/
structure ModelGroup.Enters (g : ModelGroup) (spot : Position) (h : ModelGroup) : Prop where
  found : g.subgroup? spot = some h
  own : h.particles = [] ∨ h.occurs.max ≠ .finite 0
  around : ∀ k ∈ g.chain spot, k.occurs.max ≠ .finite 0

/-- No group that is entered lies deeper than `n`, where the group itself lies at the given
level. -/
def ModelGroup.Within (g : ModelGroup) (n level : Nat) : Prop :=
  ∀ spot h, g.Enters spot h → level + spot.length ≤ n

def Particle.Within (n level : Nat) : Particle → Prop
  | .leaf _ => True
  | .group g => g.Within n level

section

variable {g h k : ModelGroup} {n level i : Nat} {spot : Position}

theorem ModelGroup.enters_cons_of (hi : g.particles[i]? = some (.group k)) :
    g.Enters (i :: spot) h ↔ g.occurs.max ≠ .finite 0 ∧ k.Enters spot h := by
  have hchain := ModelGroup.chain_cons_of spot hi
  have hsub := ModelGroup.subgroup?_cons_of spot hi
  constructor
  · intro ⟨hfound, hown, haround⟩
    rw [hchain, List.forall_mem_cons] at haround
    exact ⟨haround.1, hsub ▸ hfound, hown, haround.2⟩
  · intro ⟨hmax, hfound, hown, haround⟩
    refine ⟨hsub ▸ hfound, hown, ?_⟩
    rw [hchain, List.forall_mem_cons]
    exact ⟨hmax, haround⟩

/-- The groups that are entered, level by level. -/
theorem ModelGroup.within_iff :
    g.Within n level ↔
      (g.particles = [] ∨ g.occurs.max ≠ .finite 0 → level ≤ n) ∧
      (g.occurs.max ≠ .finite 0 → ∀ p ∈ g.particles, p.Within n (level + 1)) := by
  constructor
  · intro hwithin
    refine ⟨fun hown => hwithin [] g ⟨rfl, hown, fun k hk => absurd hk List.not_mem_nil⟩, ?_⟩
    intro hmax p hp
    cases p with
    | leaf l => trivial
    | group k =>
      obtain ⟨i, hi⟩ := List.mem_iff_getElem?.1 hp
      intro spot h hh
      have := hwithin (i :: spot) h ((enters_cons_of hi).2 ⟨hmax, hh⟩)
      rw [List.length_cons] at this
      omega
  · intro ⟨hown, hinner⟩ spot h hh
    cases spot with
    | nil =>
      cases hh.found
      exact hown hh.own
    | cons i spot =>
      obtain ⟨k, hi, -⟩ := subgroup?_cons_eq_some.1 hh.found
      obtain ⟨hmax, hh⟩ := (enters_cons_of hi).1 hh
      have hk : k.Within n (level + 1) := hinner hmax _ (List.mem_of_getElem? hi)
      have := hk spot h hh
      rw [List.length_cons]
      omega

theorem ModelGroup.within_of_prohibited (hmax : g.occurs.max = .finite 0) (hps : g.particles ≠ []) :
    g.Within n level := by
  refine within_iff.2 ⟨fun hown => ?_, fun hne => absurd hmax hne⟩
  exact absurd hown (not_or.2 ⟨hps, not_not_intro hmax⟩)

theorem ModelGroup.within_of_childless (hps : g.particles = []) : g.Within n level ↔ level ≤ n := by
  rw [within_iff, hps]
  constructor
  · intro hwithin
    exact hwithin.1 (.inl rfl)
  · intro hlevel
    exact ⟨fun _ => hlevel, fun _ p hp => absurd hp List.not_mem_nil⟩

theorem ModelGroup.within_of_ne (hmax : g.occurs.max ≠ .finite 0) :
    g.Within n level ↔ level ≤ n ∧ ∀ p ∈ g.particles, p.Within n (level + 1) := by
  rw [within_iff]
  constructor
  · intro hwithin
    exact ⟨hwithin.1 (.inr hmax), hwithin.2 hmax⟩
  · intro hwithin
    exact ⟨fun _ => hwithin.1, fun _ => hwithin.2⟩

end

/-! ## 3. Walks over items -/

/-- Nothing is handed out from below the limit, and it is right below the limit that the trail is
stopped, if it is. -/
structure Trail.Shallow (limit : DepthLimit) (t : Trail) : Prop where
  depth : ∀ i ∈ t.items, i.depth ≤ limit.max
  error : ∀ e, t.ending = .error e → ∃ name, e = ⟨limit.max + 1, limit.max, some name⟩

section

variable {limit : DepthLimit} {m : Manner} {parent : Compositor} {depth : Nat} {g : ModelGroup}

theorem Trail.shallow_nothing : nothing.Shallow limit :=
  ⟨fun _ hi => absurd hi List.not_mem_nil, fun _ he => nomatch he⟩

theorem Trail.shallow_single {p : Particle} (h : depth ≤ limit.max) :
    Shallow limit ⟨[⟨p, depth⟩], .ok ()⟩ :=
  ⟨List.forall_mem_singleton.2 h, fun _ he => nomatch he⟩

theorem Trail.shallow_stopped (g : ModelGroup) (h : depth = limit.max + 1) :
    Shallow limit ⟨[], .error (DepthError.walking ⟨depth, limit.max, none⟩ g)⟩ := by
  refine ⟨fun _ hi => absurd hi List.not_mem_nil, fun e he => ⟨g.text, ?_⟩⟩
  rw [h] at he
  cases he
  rfl

theorem Trail.Shallow.andThen {t u : Trail} (h : t.Shallow limit) (h' : u.Shallow limit) :
    (t.andThen u).Shallow limit := by
  obtain ⟨is, ending⟩ := t
  cases ending with
  | error e => exact h
  | ok _ =>
    rw [andThen_ok]
    exact ⟨List.forall_mem_append.2 ⟨h.depth, h'.depth⟩, h'.error⟩

theorem Particle.shallow_trailAll {ps : List Particle}
    (h : ∀ p ∈ ps, (p.trail m limit parent depth).Shallow limit) :
    (Particle.trailAll m limit parent depth ps).Shallow limit := by
  induction ps with
  | nil =>
    rw [Particle.trailAll]
    exact Trail.shallow_nothing
  | cons p ps ih =>
    obtain ⟨hp, hps⟩ := List.forall_mem_cons.1 h
    rw [Particle.trailAll]
    exact hp.andThen (ih hps)

/-- A walk within the limit goes below it by one level at most, so that is where it is stopped. -/
theorem Particle.shallow_trail (p : Particle) :
    ∀ {parent : Compositor} {depth : Nat}, depth ≤ limit.max →
      (p.trail m limit parent depth).Shallow limit := by
  induction p using Particle.induction with
  | leaf l =>
    intro parent depth hdepth
    rw [Particle.trail_leaf]
    exact Trail.shallow_single hdepth
  | group g ih =>
    intro parent depth hdepth
    rw [Particle.trail_group, Depth.down_nat]
    by_cases hlevel : depth + 1 ≤ limit.max
    · rw [DepthLimit.check_of_le hlevel]
      cases m.visit parent g with
      | yield => exact Trail.shallow_single hdepth
      | enter => exact Particle.shallow_trailAll fun q hq => ih q hq hlevel
      | pass => exact Trail.shallow_nothing
    · have hbelow : depth + 1 = limit.max + 1 := by omega
      rw [DepthLimit.check_of_lt (Nat.lt_of_not_le hlevel)]
      cases m.visit parent g with
      | yield => exact Trail.shallow_single hdepth
      | enter | pass => exact Trail.shallow_stopped g hbelow

theorem Walk.shallow_items (hdepth : depth ≤ limit.max + 1) :
    (Walk.items g depth limit).trail.Shallow limit := by
  have ho : Manner.items.opens g = true := rfl
  rw [Walk.items, Walk.trail_start, ho]
  by_cases hlevel : depth ≤ limit.max
  · rw [DepthLimit.check_of_le hlevel]
    exact Particle.shallow_trailAll fun p _ => p.shallow_trail hlevel
  · rw [DepthLimit.check_of_lt (Nat.lt_of_not_le hlevel)]
    exact Trail.shallow_stopped g (by omega)

/-- The item, walked in its turn from one level further down, does not enter a group below the
limit. -/
def Item.Within (limit : DepthLimit) (i : Item) : Prop := i.particle.Within limit.max (i.depth + 1)

/-- **One particle**, by induction over the tree: the groups that it enters are those that the walk
dissolves and those that the items enter. -/
theorem Particle.passes_items (p : Particle) :
    ∀ {parent : Compositor} {depth : Nat}, depth ≤ limit.max →
      ((p.trail .items limit parent depth).Passes (Item.Within limit) ↔
        p.Within limit.max (depth + 1)) := by
  induction p using Particle.induction with
  | leaf l =>
    intro parent depth _
    rw [Particle.trail_leaf, Trail.passes_single]
    rfl
  | group g ih =>
    intro parent depth _
    rw [Particle.trail_group, Depth.down_nat]
    by_cases hp : g.pointless parent = true
    · have hv : Manner.items.visit parent g = .enter := if_pos hp
      rw [hv]
      -- what is dissolved is entered, be it that it may occur or that it holds nothing
      have hwithin : (Particle.group g).Within limit.max (depth + 1) ↔
          depth + 1 ≤ limit.max ∧ ∀ q ∈ g.particles, q.Within limit.max (depth + 1 + 1) := by
        by_cases hmax : g.occurs.max = .finite 0
        · have hps : g.particles = [] :=
            ModelGroup.particles_eq_nil_of_pointless hp (beq_iff_eq.2 hmax)
          refine (ModelGroup.within_of_childless hps).trans (and_iff_left ?_).symm
          rw [hps]
          exact fun q hq => absurd hq List.not_mem_nil
        · exact ModelGroup.within_of_ne hmax
      rw [hwithin]
      by_cases hlevel : depth + 1 ≤ limit.max
      · rw [DepthLimit.check_of_le hlevel, and_iff_right hlevel]
        exact Particle.passes_trailAll.trans
          (forall_congr' fun q => forall_congr' fun hq => ih q hq hlevel)
      · rw [DepthLimit.check_of_lt (Nat.lt_of_not_le hlevel)]
        exact iff_of_false Trail.not_passes_of_error fun h => hlevel h.1
    · have hv : Manner.items.visit parent g = .yield := if_neg hp
      rw [hv]
      exact Trail.passes_single

/-- **The items of a group** that may occur. -/
theorem ModelGroup.passes_items (hmax : g.occurs.max ≠ .finite 0) :
    (Walk.items g depth limit).trail.Passes (Item.Within limit) ↔ g.Within limit.max depth := by
  have ho : Manner.items.opens g = true := rfl
  rw [Walk.items, Walk.trail_start, ho, within_of_ne hmax]
  by_cases hlevel : depth ≤ limit.max
  · rw [DepthLimit.check_of_le hlevel, and_iff_right hlevel]
    exact Particle.passes_trailAll.trans
      (forall_congr' fun p => forall_congr' fun _ => p.passes_items hlevel)
  · rw [DepthLimit.check_of_lt (Nat.lt_of_not_le hlevel)]
    exact iff_of_false Trail.not_passes_of_error fun h => hlevel h.1

/-- Whatever the limit, the walk hands out nothing but items. -/
theorem ModelGroup.mem_flat_of_mem_trail {i : Item}
    (hi : i ∈ (Walk.items g depth limit).trail.items) :
    i.particle ∈ g.flat := by
  let roomy : DepthLimit := ⟨limit.max + (depth + g.height)⟩
  have hcovers : (Walk.items g depth roomy).trail.Covers roomy g.flat :=
    covers_items (Nat.le_add_left _ _)
  have hextends : (Walk.items g depth limit).trail.Extends (Walk.items g depth roomy).trail :=
    Walk.extends_trail (Nat.le_add_right _ _) depth g
  rw [← hcovers.particles]
  exact List.mem_map_of_mem (hextends.items.subset hi)

/-- A group with nothing in it is dissolved, so it is no item. -/
theorem ModelGroup.particles_ne_nil_of_mem_flat {h : ModelGroup} (hi : .group h ∈ g.flat) :
    h.particles ≠ [] := by
  induction g using ModelGroup.induction with
  | step g ih =>
    rw [flat_eq] at hi
    obtain ⟨p, hp, hi⟩ := List.mem_flatMap.1 hi
    cases p with
    | leaf l =>
      rw [Particle.flat_leaf, List.mem_singleton] at hi
      cases hi
    | group k =>
      rw [Particle.flat_group] at hi
      by_cases hk : k.pointless g.compositor = true
      · rw [if_pos hk] at hi
        exact ih k hp hi
      · rw [if_neg hk, List.mem_singleton] at hi
        cases hi
        intro hps
        rw [pointless_eq, hps] at hk
        exact hk rfl

end

/-! ## 4. The two passes -/

/-- The first pass over the items of a group found at a depth: each with its upper bound. -/
def ModelGroup.itemMaxima (g : ModelGroup) (depth : Nat) (limit : DepthLimit) :
    Except Error (List (Item × Bound)) := do
  let trail := (Walk.items g depth limit).trail
  let maxima ← trail.items.mapM fun i => i.particle.effectiveMax (i.depth + 1) limit
  trail.ending.mapError .depth
  return trail.items.zip maxima

section

variable {g : ModelGroup} {depth : Nat} {limit : DepthLimit}

/-- The upper bound, pass by pass. -/
theorem ModelGroup.effectiveMax_eq_passes (hmax : g.occurs.max ≠ .finite 0)
    (hps : g.particles ≠ []) :
    g.effectiveMax depth limit = do
      let live := (← g.itemMaxima depth limit).filter (·.2 != .finite 0)
      if live.isEmpty then return .finite 0
      if g.occurs.max = .unbounded then return .unbounded
      if g.compositor = .choice then return g.occurs.max.scaledMax (live.map (·.2))
      let minima ← live.mapM fun (i, _) => i.particle.effectiveMin (i.depth + 1) limit
      return g.occurs.max.upper ((live.map (·.2)).zip minima) := by
  have hz : ¬ (g.occurs.max = .finite 0 || g.particles.isEmpty) = true := by
    rw [Bool.or_eq_true, decide_eq_true_iff, List.isEmpty_iff]
    exact not_or.2 ⟨hmax, hps⟩
  rw [effectiveMax_eq, if_neg hz, itemMaxima]
  dsimp only
  rw [bind_assoc]
  refine bind_congr fun maxima => ?_
  rw [bind_assoc]
  refine bind_congr fun _ => ?_
  rw [pure_bind]

theorem ModelGroup.ok_of_itemMaxima {found : List (Item × Bound)}
    (h : g.itemMaxima depth limit = .ok found) :
    (Walk.items g depth limit).trail.ending = .ok () ∧
      (∀ i ∈ (Walk.items g depth limit).trail.items,
        ∃ b, i.particle.effectiveMax (i.depth + 1) limit = .ok b) ∧
      ∀ pair ∈ found, pair.1 ∈ (Walk.items g depth limit).trail.items := by
  unfold itemMaxima at h
  dsimp only at h
  generalize (Walk.items g depth limit).trail = t at h ⊢
  cases hmaxima : t.items.mapM fun i => i.particle.effectiveMax (i.depth + 1) limit with
  | error e =>
    rw [hmaxima] at h
    cases h
  | ok maxima =>
    rw [hmaxima] at h
    rcases t.ending_cases with ⟨e, hending⟩ | hending
    · rw [hending] at h
      cases h
    · rw [hending] at h
      cases h
      exact ⟨hending, exists_ok_of_mapM hmaxima, fun pair hpair => (List.of_mem_zip hpair).1⟩

/-- A lower bound is found if all items have one and no error comes after them. -/
theorem Compositor.exists_lower_ok {α : Type} (c : Compositor) (own : UInt32)
    {bound : α → Except Error UInt32} {xs : List α} (h : ∀ x ∈ xs, ∃ v, bound x = .ok v) :
    ∃ v, c.lower own (.ok ()) bound xs = .ok v := by
  let value : α → UInt32 := fun x => (bound x).toOption.getD 0
  have hvalue : ∀ x ∈ xs, bound x = .ok (value x) := by
    intro x hx
    obtain ⟨v, hv⟩ := h x hx
    show bound x = .ok ((bound x).toOption.getD 0)
    rw [hv]
    rfl
  exact ⟨_, lower_ok hvalue⟩

/-- **Where the upper bound was found, the lower one is found too**, by induction over the items
that walks hand out: a group with a positive lower bound may occur, so all of its items were looked
at. -/
theorem Particle.effectiveMin_ok (p : Particle) {limit : DepthLimit} :
    ∀ {depth : Nat} {b : Bound}, p.declared = true → p.effectiveMax depth limit = .ok b →
      ∃ v, p.effectiveMin depth limit = .ok v := by
  induction p using Particle.walkInduction with
  | leaf l =>
    intro depth b hd _
    rw [Particle.declared_leaf] at hd
    exact ⟨_, Leaf.effectiveMin_of_declared hd⟩
  | group g ih =>
    intro depth b hd hb
    rw [Particle.declared_group] at hd
    change g.effectiveMax depth limit = .ok b at hb
    show ∃ v, g.effectiveMin depth limit = .ok v
    rw [ModelGroup.effectiveMin_eq]
    by_cases hz : (g.occurs.min = 0 || g.particles.isEmpty) = true
    · exact ⟨0, if_pos hz⟩
    · rw [if_neg hz]
      rw [Bool.or_eq_true, decide_eq_true_iff, List.isEmpty_iff, not_or] at hz
      obtain ⟨hmin, hps⟩ := hz
      rw [ModelGroup.effectiveMax_eq_passes (Occurs.max_ne_zero_of_min hmin) hps] at hb
      cases hfound : g.itemMaxima depth limit with
      | error e =>
        rw [hfound] at hb
        cases hb
      | ok found =>
        obtain ⟨hending, hmaxima, -⟩ := ModelGroup.ok_of_itemMaxima hfound
        dsimp only
        rw [hending]
        refine Compositor.exists_lower_ok _ _ fun i hi => ?_
        obtain ⟨_, hmax⟩ := hmaxima i hi
        have hdeclared := ModelGroup.declared_of_mem_flat hd (ModelGroup.mem_flat_of_mem_trail hi)
        exact ih depth limit i hi hdeclared hmax

/-- The second pass asks for nothing that cannot be told. -/
theorem ModelGroup.minima_ok {found : List (Item × Bound)} (hd : g.declared = true)
    (hfound : g.itemMaxima depth limit = .ok found) :
    ∀ pair ∈ found, ∃ v, pair.1.particle.effectiveMin (pair.1.depth + 1) limit = .ok v := by
  intro pair hpair
  obtain ⟨-, hmaxima, hitems⟩ := ok_of_itemMaxima hfound
  have hi := hitems pair hpair
  obtain ⟨_, hmax⟩ := hmaxima pair.1 hi
  exact pair.1.particle.effectiveMin_ok (declared_of_mem_flat hd (mem_flat_of_mem_trail hi)) hmax

/-- So the upper bound depends on the first pass alone. -/
theorem ModelGroup.guarded_passes {fits : Prop} (hd : g.declared = true)
    (hmax : g.occurs.max ≠ .finite 0) (hps : g.particles ≠ [])
    (hfirst : Guarded limit fits (g.itemMaxima depth limit)) :
    Guarded limit fits (g.effectiveMax depth limit) := by
  rw [effectiveMax_eq_passes hmax hps]
  refine (hfirst.bind fun found hfound => ?_).congr (and_iff_left trivial).symm
  dsimp only
  have hlive : ∀ pair ∈ found.filter (·.2 != .finite 0), Guarded limit True
      (pair.1.particle.effectiveMin (pair.1.depth + 1) limit) := by
    intro pair hpair
    obtain ⟨v, hv⟩ := minima_ok hd hfound pair (List.mem_filter.1 hpair).1
    rw [hv]
    exact guarded_ok trivial v
  generalize found.filter (·.2 != .finite 0) = live at hlive ⊢
  by_cases hempty : live.isEmpty = true
  · rw [if_pos hempty]
    exact guarded_ok trivial _
  · rw [if_neg hempty]
    by_cases hown : g.occurs.max = .unbounded
    · rw [if_pos hown]
      exact guarded_ok trivial _
    · rw [if_neg hown]
      by_cases hc : g.compositor = .choice
      · rw [if_pos hc]
        exact guarded_ok trivial _
      · rw [if_neg hc]
        refine ((Guarded.mapM hlive).bind fun minima _ => guarded_ok trivial _).congr ?_
        exact iff_of_true trivial ⟨fun _ _ => trivial, trivial⟩

end

/-! ## 5. The upper bound -/

theorem ModelGroup.guarded_itemMaxima {g : ModelGroup} {depth : Nat} {limit : DepthLimit}
    (hmax : g.occurs.max ≠ .finite 0) (hdepth : depth ≤ limit.max + 1)
    (h : ∀ i ∈ (Walk.items g depth limit).trail.items,
      Guarded limit (i.Within limit) (i.particle.effectiveMax (i.depth + 1) limit)) :
    Guarded limit (g.Within limit.max depth) (g.itemMaxima depth limit) := by
  have hshallow := Walk.shallow_items (g := g) hdepth
  have hpasses : (Walk.items g depth limit).trail.Passes (Item.Within limit) ↔
      g.Within limit.max depth :=
    passes_items hmax
  unfold itemMaxima
  dsimp only
  generalize (Walk.items g depth limit).trail = t at h hshallow hpasses ⊢
  have hending : Guarded limit (t.ending = .ok ()) (t.ending.mapError Error.depth) := by
    rcases t.ending_cases with ⟨e, he⟩ | hok
    · obtain ⟨name, rfl⟩ := hshallow.error e he
      rw [he]
      exact ⟨fun hok => (nomatch hok), fun _ => ⟨name, rfl⟩⟩
    · rw [hok]
      exact guarded_ok rfl ()
  refine ((Guarded.mapM h).bind fun maxima _ => hending.bind fun _ _ =>
    guarded_ok trivial _).congr ?_
  rw [← hpasses, Trail.Passes, and_true, and_comm]

/-- **The upper bound of one particle**, by induction over the items that walks hand out. -/
theorem Particle.guarded_effectiveMax (p : Particle) {limit : DepthLimit} :
    ∀ {depth : Nat}, p.declared = true → depth ≤ limit.max + 1 →
      -- a group with nothing in it is done with before its depth is looked at
      (∀ g, p = .group g → g.particles = [] → depth ≤ limit.max) →
      Guarded limit (p.Within limit.max depth) (p.effectiveMax depth limit) := by
  induction p using Particle.walkInduction with
  | leaf l =>
    intro depth hd _ _
    rw [Particle.declared_leaf] at hd
    show Guarded limit True l.effectiveMax
    rw [Leaf.effectiveMax_of_declared hd]
    exact guarded_ok trivial _
  | group g ih =>
    intro depth hd hdepth hchildless
    rw [Particle.declared_group] at hd
    show Guarded limit (g.Within limit.max depth) (g.effectiveMax depth limit)
    by_cases hps : g.particles = []
    · have hz : (g.occurs.max = .finite 0 || g.particles.isEmpty) = true :=
        Bool.or_eq_true_iff.2 (.inr (List.isEmpty_iff.2 hps))
      rw [ModelGroup.effectiveMax_eq, if_pos hz]
      exact guarded_ok ((ModelGroup.within_of_childless hps).2 (hchildless g rfl hps)) _
    · by_cases hmax : g.occurs.max = .finite 0
      · have hz : (g.occurs.max = .finite 0 || g.particles.isEmpty) = true :=
          Bool.or_eq_true_iff.2 (.inl (decide_eq_true hmax))
        rw [ModelGroup.effectiveMax_eq, if_pos hz]
        exact guarded_ok (ModelGroup.within_of_prohibited hmax hps) _
      · refine ModelGroup.guarded_passes hd hmax hps ?_
        refine ModelGroup.guarded_itemMaxima hmax hdepth fun i hi => ?_
        have hflat := ModelGroup.mem_flat_of_mem_trail hi
        have hlevel := (Walk.shallow_items hdepth).depth i hi
        refine ih depth limit i hi (ModelGroup.declared_of_mem_flat hd hflat)
          (Nat.succ_le_succ hlevel) ?_
        intro h he hchildless
        rw [he] at hflat
        exact absurd hchildless (ModelGroup.particles_ne_nil_of_mem_flat hflat)

theorem ModelGroup.within_iff_not_exists {g : ModelGroup} {n : Nat} :
    g.Within n 0 ↔ ¬ ∃ spot h, g.Enters spot h ∧ n < spot.length := by
  constructor
  · intro hwithin ⟨spot, h, hh, hlt⟩
    have := hwithin spot h hh
    omega
  · intro hnone spot h hh
    rw [Nat.zero_add]
    exact Nat.not_lt.1 fun hlt => hnone ⟨spot, h, hh, hlt⟩

/-- **When the upper bound is out of reach.** For a tree of elements and wildcards it is not found
exactly if a group lies deeper than the limit that is entered, which is to say that all groups
around it may occur, and that it may occur itself or holds nothing. The error tells the limit and
the level below it. So a tree that is no higher than the limit never fails; and wherever the upper
bounds of the items of a group were found, so are the lower ones that are asked for next, and the
upper bound of the group. -/
theorem ModelGroup.effectiveMax_fails_iff {g : ModelGroup} (hd : g.declared = true)
    (limit : DepthLimit) :
    ((∃ e, g.effectiveMax 0 limit = .error e) ↔
      ∃ spot h, g.Enters spot h ∧ limit.max < spot.length) ∧
    (∀ e, g.effectiveMax 0 limit = .error e →
      ∃ name, e = .depth ⟨limit.max + 1, limit.max, some name⟩) ∧
    (g.height ≤ limit.max → ∃ b, g.effectiveMax 0 limit = .ok b) ∧
    ∀ spot h, g.subgroup? spot = some h → ∀ depth found, h.itemMaxima depth limit = .ok found →
      (∀ pair ∈ found, ∃ v, pair.1.particle.effectiveMin (pair.1.depth + 1) limit = .ok v) ∧
      ∃ b, h.effectiveMax depth limit = .ok b := by
  have hguarded : Guarded limit (g.Within limit.max 0) (g.effectiveMax 0 limit) := by
    have hd' : (Particle.group g).declared = true := (Particle.declared_group g).trans hd
    exact (Particle.group g).guarded_effectiveMax hd' (Nat.zero_le _) fun _ _ _ => Nat.zero_le _
  refine ⟨?_, fun e => hguarded.error_eq, fun hheight => hguarded.1 fun spot h hh => ?_, ?_⟩
  · rw [hguarded.error_iff, within_iff_not_exists, not_not]
  · rw [Nat.zero_add]
    exact height_le_iff_subgroup?.1 hheight spot h hh.found
  · intro spot h hs depth found hfound
    have hdeclared := declared_subgroup? hs hd
    refine ⟨minima_ok hdeclared hfound, ?_⟩
    by_cases hz : (h.occurs.max = .finite 0 || h.particles.isEmpty) = true
    · rw [effectiveMax_eq, if_pos hz]
      exact ⟨_, rfl⟩
    · rw [Bool.or_eq_true, decide_eq_true_iff, List.isEmpty_iff, not_or] at hz
      have hfirst : Guarded limit True (h.itemMaxima depth limit) :=
        hfound ▸ guarded_ok trivial found
      exact (guarded_passes hdeclared hz.1 hz.2 hfirst).1 trivial

/-- A prohibited choice in a sequence, under the limit zero: with nothing in it, it is dissolved,
which is too deep; with an element in it, it is not looked at. -/
theorem ModelGroup.effectiveMax_fails_iff_prohibited_choice :
    let leaf : String → Particle := fun name => .leaf (.element ⟨⟨none, name⟩, .once, none⟩)
    let hollow : ModelGroup := ⟨.choice, .prohibited, []⟩
    let shut : ModelGroup := ⟨.choice, .prohibited, [leaf "x"]⟩
    let g : ModelGroup := ⟨.sequence, .once, [leaf "a", .group hollow]⟩
    let g' : ModelGroup := ⟨.sequence, .once, [leaf "a", .group shut]⟩
    g.declared = true ∧ g'.declared = true ∧
      g.Enters [1] hollow ∧ (∃ name, g.effectiveMax 0 ⟨0⟩ = .error (.depth ⟨1, 0, some name⟩)) ∧
      g'.subgroup? [1] = some shut ∧ ¬ g'.Enters [1] shut ∧
      ∀ e, g'.effectiveMax 0 ⟨0⟩ ≠ .error e := by
  intro leaf hollow shut g g'
  have hd : g.declared = true := by decide
  have hd' : g'.declared = true := by decide
  have henters : g.Enters [1] hollow := by
    refine ⟨rfl, .inl rfl, fun k hk => ?_⟩
    cases List.mem_singleton.1 hk
    decide
  obtain ⟨hfails, hform, -⟩ := effectiveMax_fails_iff hd ⟨0⟩
  obtain ⟨e, he⟩ := hfails.2 ⟨[1], hollow, henters, Nat.zero_lt_one⟩
  obtain ⟨name, rfl⟩ := hform e he
  have hwithin : g'.Within 0 0 := by
    refine (within_of_ne (by decide)).2 ⟨Nat.le_refl 0, fun p hp => ?_⟩
    rcases List.mem_cons.1 hp with rfl | hp
    · trivial
    · rw [List.mem_singleton.1 hp]
      exact within_of_prohibited rfl (List.cons_ne_nil _ _)
  have hnone := within_iff_not_exists.1 hwithin
  refine ⟨hd, hd', henters, ⟨name, he⟩, rfl, fun h => hnone ⟨[1], shut, h, Nat.zero_lt_one⟩, ?_⟩
  intro e he
  exact hnone ((effectiveMax_fails_iff hd' ⟨0⟩).1.1 ⟨e, he⟩)

end ContentModel
