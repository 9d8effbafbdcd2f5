import ContentModel.ModelGroup.Enclosing

/-!
# The search for a particle is a recursion

`Enclosing.search` keeps the groups it has left behind on a stack. Here the search of one group is
said by recursion (`Enclosing.seekAll`): it fails, or finds the chain of groups around the particle,
or comes to the end of the group. What the stack adds is put back in front of the chain:

> **the search with a stack is that of its levels, one after the other** (`Enclosing.search_eq`).
-/

set_option autoImplicit false

namespace ContentModel

namespace Enclosing

/-! ## 1. The recursion -/

/-- What a search comes to: an error, or the groups around the particle if it was found. -/
abbrev Outcome := Except DepthError (Option (List Ancestor))

/-- A search within some groups and then another, which only takes place if nothing was found. -/
def Outcome.within (around : List Ancestor) (first next : Outcome) : Outcome :=
  match first with
  | .error e => .error e
  | .ok (some chain) => .ok (some (around ++ chain))
  | .ok none => next

theorem Outcome.within_within (outer inner : List Ancestor) (a b c : Outcome) :
    within outer (within inner a b) c = within (outer ++ inner) a (within outer b c) := by
  cases a with
  | error e => rfl
  | ok found =>
    cases found with
    | none => rfl
    | some chain => exact congrArg (fun xs => Except.ok (some xs)) (List.append_assoc ..).symm

mutual

/-- The search of a particle that is met at a depth; of a group, everything in it. -/
def seek (limit : DepthLimit) (depth : Nat) (target : Option Position) : Particle → Outcome
  | .leaf _ => .ok none
  | .group ⟨c, o, ps⟩ =>
    match limit.check depth with
    | .error e => .error e
    | .ok _ => seekAll limit (depth + 1) ⟨c, o, ps⟩ target 0 ps

/-- The search of what is left of a group from an index on. -/
def seekAll (limit : DepthLimit) (depth : Nat) (g : ModelGroup) (target : Option Position)
    (i : Nat) : List Particle → Outcome
  | [] => .ok none
  | p :: rest =>
    if target = some [i] then .ok (some [⟨g, i⟩])
    else .within [⟨g, i⟩] (seek limit depth (below target i) p)
      (seekAll limit depth g target (i + 1) rest)

end

theorem seek_leaf (limit : DepthLimit) (depth : Nat) (target : Option Position) (l : Leaf) :
    seek limit depth target (.leaf l) = .ok none := by rw [seek]

theorem seek_group (limit : DepthLimit) (depth : Nat) (target : Option Position) (g : ModelGroup) :
    seek limit depth target (.group g) =
      match limit.check depth with
      | .error e => .error e
      | .ok _ => seekAll limit (depth + 1) g target 0 g.particles := by
  cases g
  rw [seek]

/-! ## 2. The stack of levels -/

/-- The groups on the stack, outermost first, each with the branch it was left for. -/
def trace (above : List Level) : List Ancestor := (above.map fun v => ⟨v.group, v.index⟩).reverse

theorem trace_cons (v : Level) (above : List Level) :
    trace (v :: above) = trace above ++ [⟨v.group, v.index⟩] := by
  rw [trace, List.map_cons, List.reverse_cons, trace]

/-- What is left of the levels above, each of them after the branch it was left for. -/
def seekAbove (limit : DepthLimit) : List Level → Nat → Outcome
  | [], _ => .ok none
  | v :: above, depth =>
    .within (trace above) (seekAll limit (depth - 1) v.group v.target (v.index + 1) v.rest)
      (seekAbove limit above (depth - 1))

/-- What is left of the innermost level, and of those above it. -/
def seekLevels (limit : DepthLimit) (v : Level) (above : List Level) (depth : Nat) : Outcome :=
  .within (trace above) (seekAll limit depth v.group v.target v.index v.rest)
    (seekAbove limit above depth)

def answer (receiver missing : String) : Outcome → Except Error (List Ancestor)
  | .error e => .error (.depth { e with group := some receiver })
  | .ok (some chain) => .ok chain
  | .ok none => .error (.model ⟨.notAParticle missing, some receiver⟩)

section

variable {limit : DepthLimit} {g : ModelGroup} {i depth : Nat} {rest : List Particle}
  {target : Option Position} {above : List Level}

theorem seekLevels_leaf {l : Leaf} (hfound : target ≠ some [i]) :
    seekLevels limit ⟨g, i, .leaf l :: rest, target⟩ above depth =
      seekLevels limit ⟨g, i + 1, rest, target⟩ above depth := by
  unfold seekLevels
  rw [seekAll, if_neg hfound, seek_leaf]
  rfl

theorem seekLevels_group {h : ModelGroup} {u : Unit} (hfound : target ≠ some [i])
    (hcheck : limit.check depth = .ok u) :
    seekLevels limit ⟨g, i, .group h :: rest, target⟩ above depth =
      seekLevels limit ⟨h, 0, h.particles, below target i⟩ (⟨g, i, rest, target⟩ :: above)
        (depth + 1) := by
  unfold seekLevels
  -- the group that is left waits above, at the index it was left for
  rw [seekAll, if_neg hfound, seek_group, hcheck, seekAbove, Nat.add_sub_cancel, trace_cons]
  exact Outcome.within_within ..

end

/-- **The search with a stack**, by induction over its steps: the levels one after the other. -/
theorem search_eq (limit : DepthLimit) (receiver missing : String) (v : Level) (above : List Level)
    (depth : Nat) :
    search limit receiver missing v above depth =
      answer receiver missing (seekLevels limit v above depth) := by
  fun_induction search limit receiver missing v above depth with
  | case1 g i target depth => rfl
  | case2 g i target v above depth ih =>
    -- an exhausted level adds nothing to those above it
    exact ih
  | case3 g i p rest above depth =>
    unfold seekLevels
    rw [seekAll, if_pos rfl]
    rfl
  | case4 g i rest target above depth hfound l ih => rw [ih, seekLevels_leaf hfound]
  | case5 g i rest target above depth hfound h e hcheck =>
    unfold seekLevels
    rw [seekAll, if_neg hfound, seek_group, hcheck]
    rfl
  | case6 g i rest target above depth hfound h u hcheck ih =>
    rw [ih, seekLevels_group hfound hcheck]

end Enclosing

theorem ModelGroup.enclosing_eq (g : ModelGroup) (s : Sought) (limit : DepthLimit) :
    g.enclosing s limit =
      Enclosing.answer g.text s.particle.text
        (Enclosing.seekAll limit 0 g s.position 0 g.particles) := by
  rw [enclosing, Enclosing.search_eq, Enclosing.seekLevels]
  dsimp only
  cases Enclosing.seekAll limit 0 g s.position 0 g.particles with
  | error e => rfl
  | ok found =>
    cases found with
    | none => rfl
    | some chain => rfl

end ContentModel
