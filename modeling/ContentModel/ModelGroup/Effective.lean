import ContentModel.Walk

/-!
# Effective bounds

The declared range of a group says how often the group occurs. Its *effective* bounds take into
account what it holds: a group whose particles may all be absent has the lower bound zero, one in
which nothing can occur the upper bound zero, and when a single particle has to be there, that
particle's upper bound counts once for each occurrence of the group. The items of the group are
what is looked at, pointless groups being dissolved, and each item has effective bounds of its own.

The items are taken in order, and the first failure is the result, be it the depth limit or a leaf
that cannot tell its bounds. The lower bound may be decided before a failure is met.
-/

set_option autoImplicit false

namespace ContentModel

/-! ## 1. The lower bound -/

/-- The lower bound of a group, from those of its items in order and the end of the walk over them.
An item that may be absent decides a choice, one that must be there any other group; the items after
it are not asked. -/
def Compositor.lower {α : Type} (c : Compositor) (own : UInt32) (ending : Except DepthError Unit)
    (bound : α → Except Error UInt32) : List α → Except Error UInt32
  | [] =>
    match ending with
    | .error e => .error (.depth e)
    | .ok _ => .ok (if c = .choice then own else 0)
  | i :: rest =>
    match bound i with
    | .error e => .error e
    | .ok v =>
      if c = .choice then
        if v = 0 then .ok 0 else c.lower own ending bound rest
      else if v = 0 then c.lower own ending bound rest
      else .ok own

/-- The lower bound of a group found at a depth, its particles taken into account. -/
def ModelGroup.effectiveMin (g : ModelGroup) (depth : Nat) (limit : DepthLimit) :
    Except Error UInt32 :=
  if g.occurs.min = 0 || g.particles.isEmpty then .ok 0
  else
    let trail := (Walk.items g depth limit).trail
    g.compositor.lower g.occurs.min trail.ending (fun ⟨i, _⟩ =>
      match _h : i.particle with
      | .leaf l => l.effectiveMin
      | .group inner => inner.effectiveMin (i.depth + 1) limit) trail.items.attach
termination_by sizeOf g
decreasing_by
  have := ModelGroup.sizeOf_item_lt ‹_›
  rw [_h, Particle.group.sizeOf_spec] at this
  omega

/-- The lower bound of a particle found at a depth. -/
def Particle.effectiveMin : Particle → Nat → DepthLimit → Except Error UInt32
  | .leaf l, _, _ => l.effectiveMin
  | .group g, depth, limit => g.effectiveMin depth limit

/-- That the items of a list are at hand with a proof does not matter to the bound. -/
theorem Compositor.lower_attach {α : Type} {c : Compositor} {own : UInt32}
    {ending : Except DepthError Unit} {l : List α} {bound : { a // a ∈ l } → Except Error UInt32}
    {plain : α → Except Error UInt32} (h : ∀ a, bound a = plain a.1) :
    c.lower own ending bound l.attach = c.lower own ending plain l := by
  have key : ∀ xs : List { a // a ∈ l },
      c.lower own ending bound xs = c.lower own ending plain (xs.map (·.1)) := by
    intro xs
    induction xs with
    | nil => rfl
    | cons x xs ih => simp only [lower, List.map_cons, h, ih]
  rw [key, List.attach_map_subtype_val]

/-- The lower bound of a group, said with the lower bounds of its items. -/
theorem ModelGroup.effectiveMin_eq (g : ModelGroup) (depth : Nat) (limit : DepthLimit) :
    g.effectiveMin depth limit =
      if g.occurs.min = 0 || g.particles.isEmpty then .ok 0
      else
        let trail := (Walk.items g depth limit).trail
        g.compositor.lower g.occurs.min trail.ending
          (fun i => i.particle.effectiveMin (i.depth + 1) limit) trail.items := by
  rw [ModelGroup.effectiveMin]
  split
  · rfl
  · refine Compositor.lower_attach fun ⟨i, _⟩ => ?_
    show (match _h : i.particle with
      | .leaf l => l.effectiveMin
      | .group inner => inner.effectiveMin (i.depth + 1) limit) = _
    split <;> rename_i h <;> rw [h] <;> rfl

/-! ## 2. The upper bound -/

/-- The greatest of some upper bounds, once for each occurrence of the group; zero if there are
none. -/
def Bound.scaledMax (own : Bound) (bounds : List Bound) : Bound :=
  own.mul (bounds.max?.getD (.finite 0))

/-- The upper bound of a group from those of its items that can occur, each with its lower bound.
In a sequence or an all group it is a single item that has to be there that counts; several of them
can only come once for each occurrence of the group. -/
def Bound.upper (own : Bound) (live : List (Bound × UInt32)) : Bound :=
  match live.filter (·.2 != 0) with
  | [] => own.scaledMax (live.map (·.1))
  | [firm] => own.mul firm.1
  | _ => own

/-- The upper bound of a group found at a depth, its particles taken into account. The lower bounds
of items are asked for only where they matter. -/
def ModelGroup.effectiveMax (g : ModelGroup) (depth : Nat) (limit : DepthLimit) :
    Except Error Bound :=
  if g.occurs.max = .finite 0 || g.particles.isEmpty then .ok (.finite 0)
  else do
    let trail := (Walk.items g depth limit).trail
    let maxima ← trail.items.attach.mapM fun ⟨i, _⟩ =>
      match _h : i.particle with
      | .leaf l => l.effectiveMax
      | .group inner => inner.effectiveMax (i.depth + 1) limit
    trail.ending.mapError .depth
    let live := (trail.items.zip maxima).filter (·.2 != .finite 0)
    if live.isEmpty then return .finite 0
    if g.occurs.max = .unbounded then return .unbounded
    if g.compositor = .choice then return g.occurs.max.scaledMax (live.map (·.2))
    let minima ← live.mapM fun (i, _) => i.particle.effectiveMin (i.depth + 1) limit
    return g.occurs.max.upper ((live.map (·.2)).zip minima)
termination_by sizeOf g
decreasing_by
  have := ModelGroup.sizeOf_item_lt ‹_›
  rw [_h, Particle.group.sizeOf_spec] at this
  omega

/-- The upper bound of a particle found at a depth. -/
def Particle.effectiveMax : Particle → Nat → DepthLimit → Except Error Bound
  | .leaf l, _, _ => l.effectiveMax
  | .group g, depth, limit => g.effectiveMax depth limit

/-- The upper bound of a group, said with the bounds of its items. -/
theorem ModelGroup.effectiveMax_eq (g : ModelGroup) (depth : Nat) (limit : DepthLimit) :
    g.effectiveMax depth limit =
      if g.occurs.max = .finite 0 || g.particles.isEmpty then .ok (.finite 0)
      else do
        let trail := (Walk.items g depth limit).trail
        let maxima ← trail.items.mapM fun i => i.particle.effectiveMax (i.depth + 1) limit
        trail.ending.mapError .depth
        let live := (trail.items.zip maxima).filter (·.2 != .finite 0)
        if live.isEmpty then return .finite 0
        if g.occurs.max = .unbounded then return .unbounded
        if g.compositor = .choice then return g.occurs.max.scaledMax (live.map (·.2))
        let minima ← live.mapM fun (i, _) => i.particle.effectiveMin (i.depth + 1) limit
        return g.occurs.max.upper ((live.map (·.2)).zip minima) := by
  rw [ModelGroup.effectiveMax]
  split
  · rfl
  · dsimp only
    congr 1
    have key : ∀ xs : List { i // i ∈ (Walk.items g depth limit).trail.items },
        xs.mapM (fun ⟨i, _⟩ => match _h : i.particle with
          | .leaf l => l.effectiveMax
          | .group inner => inner.effectiveMax (i.depth + 1) limit)
        = (xs.map (·.1)).mapM fun i => i.particle.effectiveMax (i.depth + 1) limit := by
      intro xs
      rw [List.mapM_map]
      congr 1
      funext ⟨i, _⟩
      show (match _h : i.particle with
        | .leaf l => l.effectiveMax
        | .group inner => inner.effectiveMax (i.depth + 1) limit)
          = i.particle.effectiveMax (i.depth + 1) limit
      split <;> rename_i h <;> rw [h] <;> rfl
    have plain := key (Walk.items g depth limit).trail.items.attach
    rw [List.attach_map_subtype_val] at plain
    exact plain

end ContentModel
