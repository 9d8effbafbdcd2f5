import ContentModel.DepthLimit
import ContentModel.ModelGroup.Presence

/-!
# Walks over a content model

A walk hands out the particles of a group one by one, in document order. On the way it comes upon
nested groups, and its *manner* says what becomes of each: it is handed out, or entered, or passed
over. A group is checked against the depth limit before it is entered or passed over, the group the
walk starts at as much as any other; the first that lies too deep ends the walk with an error.

There are two manners. The *items* of a group are its particles with the pointless groups dissolved;
its *leaves* are the particles at the ends of the tree that no prohibited group cuts off.

Models may be nested deeper than a call stack, so a walk keeps the levels it is within as a list,
innermost first. Each level carries its own depth, and holds the particles that are still to come.
-/

set_option autoImplicit false

namespace ContentModel

/-! ## 1. Manners -/

/-- What a walk does with a nested group. -/
inductive Visit
  | yield
  | enter
  /-- The depth is checked, but nothing in the group is looked at. -/
  | pass

/-- A manner of walking. -/
structure Manner where
  /-- What to do with a group that stands in a group of the given compositor. -/
  visit : Compositor → ModelGroup → Visit
  /-- Whether the group that the walk starts at is entered. -/
  opens : ModelGroup → Bool

def Manner.items : Manner where
  visit parent g := if g.pointless parent then .enter else .yield
  opens _ := true

def Manner.leaves : Manner where
  visit _ g := if g.occurs.empty then .pass else .enter
  opens g := !g.occurs.empty

/-! ## 2. One step -/

/-- The error, with the group at which the walk was stopped. -/
def DepthError.walking (e : DepthError) (g : ModelGroup) : DepthError :=
  { e with group := some g.text }

/-- A group that is being walked. -/
structure Level (δ : Type := Nat) where
  depth : δ
  compositor : Compositor
  rest : List Particle

namespace Level

variable {δ : Type}

/-- The level of a group that was just entered. -/
def enter (g : ModelGroup) (depth : δ) : Level δ := ⟨depth, g.compositor, g.particles⟩

noncomputable def weight : List (Level δ) → Nat
  | [] => 0
  | v :: above => 1 + sizeOf v.rest + weight above

/-- Walks on to the next particle that is handed out or to an error, and says what is left then. -/
def advance [Depth δ] (m : Manner) (limit : DepthLimit δ) :
    List (Level δ) → Option (Except DepthError Particle) × List (Level δ)
  | [] => (none, [])
  | ⟨_, _, []⟩ :: above => advance m limit above
  | ⟨d, c, .leaf l :: rest⟩ :: above => (some (.ok (.leaf l)), ⟨d, c, rest⟩ :: above)
  | ⟨d, c, .group g :: rest⟩ :: above =>
    match m.visit c g, limit.check (Depth.down d 1) with
    | .yield, _ => (some (.ok (.group g)), ⟨d, c, rest⟩ :: above)
    | _, .error e => (some (.error (e.walking g)), [])
    | .enter, .ok _ => advance m limit (enter g (Depth.down d 1) :: ⟨d, c, rest⟩ :: above)
    | .pass, .ok _ => advance m limit (⟨d, c, rest⟩ :: above)
termination_by levels => weight levels
decreasing_by
  · simp only [weight]
    omega
  · have := g.sizeOf_particles_lt
    simp only [weight, enter, List.cons.sizeOf_spec,
      Particle.group.sizeOf_spec]
    omega
  · simp only [weight, List.cons.sizeOf_spec]
    omega

/-- What is handed out was among what was left, and less is left afterwards. -/
theorem advance_ok [Depth δ] {m : Manner} {limit : DepthLimit δ} {levels after : List (Level δ)}
    {p : Particle} (h : advance m limit levels = (some (.ok p), after)) :
    sizeOf p < weight levels ∧ weight after < weight levels := by
  fun_induction advance m limit levels with
  | case1 => simp at h
  | case2 d c above ih =>
    have := ih h
    simp only [weight] at this ⊢
    omega
  | case3 d c l rest above =>
    simp only [Prod.mk.injEq, Option.some.injEq, Except.ok.injEq] at h
    obtain ⟨rfl, rfl⟩ := h
    simp only [weight, List.cons.sizeOf_spec]
    omega
  | case4 d c g rest above =>
    simp only [Prod.mk.injEq, Option.some.injEq, Except.ok.injEq] at h
    obtain ⟨rfl, rfl⟩ := h
    simp only [weight, List.cons.sizeOf_spec]
    omega
  | case5 => simp at h
  | case6 d c g rest above _ _ _ ih =>
    have := ih h
    have := g.sizeOf_particles_lt
    simp only [weight, enter, List.cons.sizeOf_spec,
      Particle.group.sizeOf_spec] at *
    omega
  | case7 d c g rest above _ _ _ ih =>
    have := ih h
    simp only [weight, List.cons.sizeOf_spec,
      Particle.group.sizeOf_spec] at this ⊢
    omega

/-- The depth of the innermost level, or `start` where there is none. -/
def innermost (levels : List (Level δ)) (start : δ) : δ :=
  match levels with
  | [] => start
  | v :: _ => v.depth

end Level

/-! ## 3. Walks -/

/-- A walk that is under way, or about to start. -/
structure Walk (δ : Type := Nat) where
  manner : Manner
  limit : DepthLimit δ
  /-- The depth given to the group that the walk starts at. -/
  start : δ
  /-- The group that the walk starts at, as long as it has not started. -/
  ahead : Option ModelGroup
  levels : List (Level δ)

namespace Walk

variable {δ : Type}

def items (g : ModelGroup) (depth : δ) (limit : DepthLimit δ) : Walk δ :=
  ⟨.items, limit, depth, some g, []⟩

def leaves (g : ModelGroup) (depth : δ) (limit : DepthLimit δ) : Walk δ :=
  ⟨.leaves, limit, depth, some g, []⟩

/-- The depth of the group that the particle handed out last stands in; before the walk and after
it, the depth it starts at. -/
def depth (w : Walk δ) : δ := Level.innermost w.levels w.start

def begin [Depth δ] (w : Walk δ) : Except DepthError (List (Level δ)) :=
  match w.ahead with
  | none => .ok w.levels
  | some g =>
    match w.limit.check w.start with
    | .error e => .error (e.walking g)
    | .ok _ => .ok (if w.manner.opens g then [.enter g w.start] else [])

/-- The next particle, or the error that ends the walk, or nothing at its end. -/
def next [Depth δ] (w : Walk δ) : Option (Except DepthError Particle) × Walk δ :=
  match w.begin with
  | .error e => (some (.error e), { w with ahead := none, levels := [] })
  | .ok levels =>
    let (found, after) := Level.advance w.manner w.limit levels
    (found, { w with ahead := none, levels := after })

end Walk

/-! ## 4. All at once -/

/-- A particle handed out, with the depth of the group it stands in. -/
structure Item (δ : Type := Nat) where
  particle : Particle
  depth : δ

/-- All that a walk hands out, and how it ends. -/
structure Trail (δ : Type := Nat) where
  items : List (Item δ)
  ending : Except DepthError Unit

namespace Level

variable {δ : Type} [Depth δ]

/-- Walks the levels to the end; `done` is what was handed out before, last first. -/
def trail (m : Manner) (limit : DepthLimit δ) (start : δ) (levels : List (Level δ))
    (done : List (Item δ)) : Trail δ :=
  match _h : advance m limit levels with
  | (none, _) => ⟨done.reverse, .ok ()⟩
  | (some (.error e), _) => ⟨done.reverse, .error e⟩
  | (some (.ok p), after) => trail m limit start after (⟨p, innermost after start⟩ :: done)
termination_by weight levels
decreasing_by exact (advance_ok _h).2

/-- Whatever is handed out is less than what was left to walk. -/
theorem sizeOf_lt_of_mem_trail {m : Manner} {limit : DepthLimit δ} {start : δ}
    {levels : List (Level δ)} {done : List (Item δ)} {i : Item δ}
    (h : i ∈ (trail m limit start levels done).items) :
    i ∈ done ∨ sizeOf i.particle < weight levels := by
  fun_induction trail m limit start levels done with
  | case1 => exact .inl (List.mem_reverse.1 h)
  | case2 => exact .inl (List.mem_reverse.1 h)
  | case3 levels done p after hstep ih =>
    have hlt := advance_ok hstep
    rcases ih h with hi | hi
    · rcases List.mem_cons.1 hi with rfl | hi
      · exact .inr hlt.1
      · exact .inl hi
    · exact .inr (Nat.lt_trans hi hlt.2)

end Level

/-- All that a walk hands out from where it stands, and how it ends. -/
def Walk.trail {δ : Type} [Depth δ] (w : Walk δ) : Trail δ :=
  match w.begin with
  | .error e => ⟨[], .error e⟩
  | .ok levels => Level.trail w.manner w.limit w.start levels []

/-- An item of a group is less than the group. -/
theorem ModelGroup.sizeOf_item_lt {δ : Type} [Depth δ] {g : ModelGroup} {depth : δ}
    {limit : DepthLimit δ} {i : Item δ} (h : i ∈ (Walk.items g depth limit).trail.items) :
    sizeOf i.particle < sizeOf g := by
  unfold Walk.trail Walk.begin Walk.items at h
  dsimp only at h
  split at h
  · simp at h
  · rename_i levels hb
    split at hb
    · simp at hb
    · simp only [Manner.items, if_true, Except.ok.injEq] at hb
      subst hb
      rcases Level.sizeOf_lt_of_mem_trail h with h | h
      · simp at h
      · have := g.sizeOf_particles_lt
        simp only [Level.weight, Level.enter] at h
        omega

end ContentModel
