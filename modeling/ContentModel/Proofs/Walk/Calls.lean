import ContentModel.Proofs.Walk.Recursive

/-!
# A walk call by call

`Walk.trail` gathers all that a walk hands out. Whoever walks asks for one particle at a time, and
may go on asking after the end. This file is the bridge between the two:

> **the calls of `next` read the trail off** (`Walk.answer_eq`): its particles one after the other,
> then its error if it ends in one, and from then on nothing.

The step is `Walk.next_cases`: a call takes the first item off the trail, and where there is none it
leaves a walk with nothing to come. The depth that a walk reports is the one that the item carries
(`Walk.depth_after`), which needs that a walk is within some group whenever it has just handed a
particle out (`Level.advance_left`). A walk is stopped if its trail ends in an error
(`Walk.stops_iff`); one that is not is known by the items that it hands out (`Walk.handsOut_iff`).
-/

set_option autoImplicit false

namespace ContentModel

/-! ## 1. Calls -/

namespace Walk

variable {δ : Type} [Depth δ]

/-- The walk after a number of calls. -/
def after (w : Walk δ) : Nat → Walk δ
  | 0 => w
  | n + 1 => w.next.2.after n

/-- What is answered to the call that a number of calls came before. -/
def answer (w : Walk δ) (n : Nat) : Option (Except DepthError Particle) := (w.after n).next.1

theorem answer_zero (w : Walk δ) : w.answer 0 = w.next.1 := rfl

theorem answer_succ (w : Walk δ) (n : Nat) : w.answer (n + 1) = w.next.2.answer n := rfl

end Walk

section

variable {δ : Type}

/-- The answers that a trail stands for: its particles, and its error if it ends in one. -/
def Trail.answers (t : Trail δ) : List (Except DepthError Particle) :=
  t.items.map (fun i => .ok i.particle) ++
    match t.ending with
    | .error e => [.error e]
    | .ok _ => []

@[simp] theorem Trail.answers_nothing : (nothing : Trail δ).answers = [] := rfl

/-- A trail without items is answered by its error at most. -/
theorem Trail.answers_of_items_nil {t : Trail δ} (h : t.items = []) (n : Nat) :
    t.answers[n + 1]? = none := by
  rw [answers, h, List.map_nil, List.nil_append]
  cases t.ending with
  | error e => rfl
  | ok u => rfl

theorem Trail.ending_cases (t : Trail δ) : (∃ e, t.ending = .error e) ∨ t.ending = .ok () := by
  cases t.ending with
  | error e => exact .inl ⟨e, rfl⟩
  | ok _ => exact .inr rfl

theorem Trail.error_mem_answers {t : Trail δ} {e : DepthError} (h : t.ending = .error e) :
    .error e ∈ t.answers := by
  rw [answers, h]
  exact List.mem_append_right _ (List.mem_singleton.2 rfl)

end

/-! ## 2. One call -/

namespace Level

variable {δ : Type} [Depth δ]

/-- A walk that has handed out a particle is within a group; one that has come to its end or to an
error is not. -/
theorem advance_left (m : Manner) (limit : DepthLimit δ) (levels : List (Level δ)) :
    match advance m limit levels with
    | (some (.ok _), after) => after ≠ []
    | (some (.error _), after) => after = []
    | (none, after) => after = [] := by
  fun_induction advance m limit levels with
  | case1 => rfl
  | case2 d c above ih => exact ih
  | case3 d c l rest above => exact List.cons_ne_nil _ _
  | case4 d c g rest above => exact List.cons_ne_nil _ _
  | case5 => rfl
  | case6 d c g rest above _ _ _ ih => exact ih
  | case7 d c g rest above _ _ _ ih => exact ih

theorem trail_nil (m : Manner) (limit : DepthLimit δ) (start : δ) :
    trail m limit start [] [] = .nothing :=
  trail_eq m limit start [] []

end Level

namespace Walk

variable {δ : Type} [Depth δ]

/-- **One call** takes the first item off the trail; where there is none, it answers with the error
if there is one, and leaves nothing to come. -/
theorem next_cases (w : Walk δ) :
    (∃ p, w.next.1 = some (.ok p) ∧
      w.trail = ⟨⟨p, w.next.2.depth⟩ :: w.next.2.trail.items, w.next.2.trail.ending⟩) ∨
    (w.trail.items = [] ∧ w.next.1 = w.trail.answers[0]? ∧ w.next.2.trail = .nothing) := by
  unfold next trail
  cases w.begin with
  | error e => exact .inr ⟨rfl, rfl, Level.trail_nil w.manner w.limit w.start⟩
  | ok levels =>
    dsimp only
    have hleft := Level.advance_left w.manner w.limit levels
    rw [Level.trail_eq, Level.pending_advance w.manner w.limit w.start]
    generalize Level.advance w.manner w.limit levels = step at hleft ⊢
    obtain ⟨found, left⟩ := step
    have hbegin : Walk.begin { w with ahead := none, levels := left } = .ok left := rfl
    cases found with
    | none =>
      cases hleft
      exact .inr ⟨rfl, rfl, Level.trail_nil w.manner w.limit w.start⟩
    | some r =>
      cases r with
      | error e =>
        cases hleft
        exact .inr ⟨rfl, rfl, Level.trail_nil w.manner w.limit w.start⟩
      | ok p =>
        refine .inl ⟨p, rfl, ?_⟩
        dsimp only
        rw [hbegin, depth]
        dsimp only
        rw [Level.trail_eq]
        rfl

/-! ## 3. All calls -/

/-- **The calls read the trail off**, by induction over their number. -/
theorem answer_eq (w : Walk δ) (n : Nat) : w.answer n = w.trail.answers[n]? := by
  induction n generalizing w with
  | zero =>
    obtain ⟨p, hfound, htrail⟩ | ⟨-, hfound, -⟩ := w.next_cases
    · rw [answer_zero, hfound, htrail]
      rfl
    · exact hfound
  | succ n ih =>
    rw [answer_succ, ih]
    obtain ⟨p, -, htrail⟩ | ⟨hitems, -, hleft⟩ := w.next_cases
    · rw [htrail]
      rfl
    · rw [hleft, Trail.answers_nothing, List.getElem?_nil]
      exact (Trail.answers_of_items_nil hitems n).symm

/-- Right after it has handed out an item, a walk reports the depth that the item was found at. -/
theorem depth_after (w : Walk δ) (n : Nat) {i : Item δ} (h : w.trail.items[n]? = some i) :
    (w.after (n + 1)).depth = i.depth := by
  induction n generalizing w with
  | zero =>
    obtain ⟨p, -, htrail⟩ | ⟨hitems, -, -⟩ := w.next_cases
    · rw [htrail] at h
      cases h
      rfl
    · rw [hitems] at h
      cases h
  | succ n ih =>
    show (w.next.2.after (n + 1)).depth = i.depth
    obtain ⟨p, -, htrail⟩ | ⟨hitems, -, -⟩ := w.next_cases
    · rw [htrail] at h
      exact ih w.next.2 h
    · rw [hitems] at h
      cases h

/-! ## 4. Walks that are stopped, and walks that are not -/

/-- One of the calls is answered by an error. -/
def Stops (w : Walk δ) : Prop := ∃ n e, w.answer n = some (.error e)

theorem stops_iff {w : Walk δ} : w.Stops ↔ w.trail.ending ≠ .ok () := by
  constructor
  · intro ⟨n, e, hn⟩ hok
    rw [answer_eq] at hn
    have hmem := List.mem_of_getElem? hn
    rw [Trail.answers, hok, List.append_nil] at hmem
    obtain ⟨i, -, hi⟩ := List.mem_map.1 hmem
    cases hi
  · intro hne
    obtain ⟨e, he⟩ := w.trail.ending_cases.resolve_right hne
    obtain ⟨n, hn⟩ := List.mem_iff_getElem?.1 (Trail.error_mem_answers he)
    exact ⟨n, e, (answer_eq w n).trans hn⟩

/-- Asked again and again, the walk hands out the particles one after the other, and then
nothing. -/
def Gives (w : Walk δ) (ps : List Particle) : Prop := ∀ n, w.answer n = ps[n]?.map .ok

/-- The walk gives the particles of the items, and after each of them reports the depth of the
item. -/
structure HandsOut (w : Walk δ) (items : List (Item δ)) : Prop where
  gives : w.Gives (items.map (·.particle))
  depth : ∀ n i, items[n]? = some i → (w.after (n + 1)).depth = i.depth

theorem gives_iff_answers {w : Walk δ} {ps : List Particle} :
    w.Gives ps ↔ w.trail.answers = ps.map .ok := by
  constructor
  · intro h
    refine List.ext_getElem? fun n => ?_
    rw [← answer_eq, h n, List.getElem?_map]
  · intro h n
    rw [answer_eq, h, List.getElem?_map]

theorem gives_iff {w : Walk δ} {ps : List Particle} :
    w.Gives ps ↔ w.trail.ending = .ok () ∧ w.trail.items.map (·.particle) = ps := by
  rw [gives_iff_answers, Trail.answers]
  have hok : w.trail.items.map (fun i => Except.ok (ε := DepthError) i.particle) =
      (w.trail.items.map (·.particle)).map .ok := by
    rw [List.map_map]
    rfl
  cases hending : w.trail.ending with
  | error e =>
    constructor
    · intro h
      -- the error would be one of the particles
      have hmem : Except.error e ∈ ps.map (Except.ok (ε := DepthError)) := by
        rw [← h]
        exact List.mem_append_right _ List.mem_cons_self
      obtain ⟨p, -, hp⟩ := List.mem_map.1 hmem
      cases hp
    · intro h
      cases h.1
  | ok u =>
    dsimp only
    rw [List.append_nil, hok, List.map_inj_right fun p q e => Except.ok.inj e]
    exact ⟨fun h => ⟨rfl, h⟩, fun h => h.2⟩

/-- What a walk hands out on the way to its end is its trail. -/
theorem handsOut_iff {w : Walk δ} {items : List (Item δ)} :
    w.HandsOut items ↔ w.trail = ⟨items, .ok ()⟩ := by
  constructor
  · intro ⟨hgives, hdepth⟩
    obtain ⟨hending, hparticles⟩ := gives_iff.1 hgives
    have hitems : w.trail.items = items := by
      refine List.ext_getElem? fun n => ?_
      have hn := congrArg (·[n]?) hparticles
      rw [List.getElem?_map, List.getElem?_map] at hn
      cases hi : items[n]? with
      | none =>
        rw [hi, Option.map_none, Option.map_eq_none_iff] at hn
        exact hn
      | some i =>
        rw [hi, Option.map_some, Option.map_eq_some_iff] at hn
        obtain ⟨j, hj, hp⟩ := hn
        have hd := (w.depth_after n hj).symm.trans (hdepth n i hi)
        cases i
        cases j
        cases hp
        cases hd
        exact hj
    rw [← hitems, ← hending]
  · intro h
    refine ⟨gives_iff.2 ?_, fun n i hi => w.depth_after n ?_⟩
    · rw [h]
      exact ⟨rfl, rfl⟩
    · rw [h]
      exact hi

end Walk

end ContentModel
