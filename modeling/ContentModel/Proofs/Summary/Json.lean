import ContentModel.Proofs.Json.Native
import ContentModel.Summary.Json

/-!
# Summaries read back

A summary is written as a record of records, from which fields are left out. Reading it undoes that
as long as nothing is nested too deep, whatever lawful library is used:

> **a summary has a text, and that is read as that summary if it has at most 63 levels of
> particles, and refused if it has more** (`Summary.decode_encode`).

Writing knows no such limit. Each level of particles is written as two containers, the last one as
that of the particle and those of its bounds, and the outermost container is the summary's own; so
the 127 containers that may be nested are 63 levels and not one more
(`ParticleSummary.toOption_read_toValue`). What was read from any text has taken up two containers
for each of its levels too (`ParticleSummary.two_mul_levels_le`), so its own text is read back
always.
-/

set_option autoImplicit false

namespace ContentModel

open Json (Value Place Library)

/-! ## 1. Results without their reasons -/

section

variable {α β ε : Type}

theorem toOption_bind (x : Except ε α) (f : α → Except ε β) :
    (x >>= f).toOption = x.toOption.bind fun a => (f a).toOption := by
  cases x with
  | error e => rfl
  | ok a => rfl

theorem toOption_map (x : Except ε α) (f : α → β) : (x.map f).toOption = x.toOption.map f := by
  cases x with
  | error e => rfl
  | ok a => rfl

theorem toOption_mapM (f : α → Except ε β) (xs : List α) :
    (xs.mapM f).toOption = xs.mapM fun x => (f x).toOption := by
  induction xs with
  | nil => rfl
  | cons x xs ih =>
    rw [List.mapM_cons, List.mapM_cons, toOption_bind, ← ih]
    refine congrArg (Option.bind _) (funext fun y => ?_)
    rw [toOption_bind]
    rfl

theorem toOption_eq_some_iff {x : Except ε α} {a : α} : x.toOption = some a ↔ x = .ok a := by
  cases x <;> simp [Except.toOption]

theorem bind_eq_ok_iff {x : Except ε α} {f : α → Except ε β} {b : β} :
    x >>= f = .ok b ↔ ∃ a, x = .ok a ∧ f a = .ok b := by
  rw [← toOption_eq_some_iff, toOption_bind, Option.bind_eq_some_iff]
  simp only [toOption_eq_some_iff]

theorem toOption_eq_none_iff {x : Except ε α} : x.toOption = none ↔ ∃ e, x = .error e := by
  cases x <;> simp [Except.toOption]

end

variable {lib : Library}

/-! ## 2. What is written -/

theorem Json.Value.plain_record {entries : List (String × Option Value)}
    (h : ∀ e ∈ entries, ∀ v ∈ e.2, v.Plain) : (Value.record entries).Plain := by
  refine .object ?_ ?_
  · intro f hf
    obtain ⟨e, -, rfl⟩ := List.mem_map.1 hf
    exact Option.some_ne_none _
  · intro f hf
    obtain ⟨g, hg, rfl⟩ := List.mem_map.1 hf
    obtain ⟨e, he, hg⟩ := List.mem_filterMap.1 hg
    obtain ⟨v, hv, rfl⟩ := Option.map_eq_some_iff.1 hg
    exact h e he v hv

theorem Bound.plain_toValue (b : Bound) : b.toValue.Plain := by
  cases b with
  | unbounded => exact .null
  | finite n => exact .number n

theorem Bounds.plain_toValue (b : Bounds) : b.toValue.Plain :=
  Value.plain_record (by simp [Value.Plain.number, Bound.plain_toValue])

namespace ParticleSummary

theorem toValues_eq_map (ps : List ParticleSummary) : toValues ps = ps.map toValue := by
  induction ps with
  | nil => rfl
  | cons p ps ih => rw [toValues, ih, List.map_cons]

/-- What is written of a particle under each name. -/
def entries (s : ParticleSummary) : List (String × Option Value) :=
  [("kind", some (.string (some s.kind))), ("name", s.name.map fun n => .string (some n)),
    ("occurs", some s.occurs.toValue), ("effective_occurs", some s.effective.toValue),
    ("emptiable", some (.bool s.emptiable)), ("single", some (.bool s.single)),
    ("overall_occurs", s.overall.map Bounds.toValue),
    ("particles", if s.particles.isEmpty then none else some (.array (s.particles.map toValue)))]

theorem toValue_eq (s : ParticleSummary) : s.toValue = Value.record s.entries := by
  obtain ⟨kind, name, occurs, effective, emptiable, single, overall, particles⟩ := s
  rw [toValue, toValues_eq_map]
  rfl

mutual

/-- What is written of a particle is plain, by induction over the particles. -/
theorem plain_toValue : ∀ s : ParticleSummary, s.toValue.Plain
  | ⟨kind, name, occurs, effective, emptiable, single, overall, particles⟩ => by
    have hbelow := plain_toValues particles
    rw [toValue]
    have hname : ∀ v ∈ name.map fun n => Value.string (some n), v.Plain := by
      cases name with
      | none => exact fun v hv => nomatch hv
      | some n => simp [Value.Plain.string]
    have hoverall : ∀ v ∈ overall.map Bounds.toValue, v.Plain := by
      cases overall with
      | none => exact fun v hv => nomatch hv
      | some b => simp [b.plain_toValue]
    have hparticles :
        ∀ v ∈ if particles.isEmpty then none else some (Value.array (toValues particles)),
          v.Plain := by
      split_ifs
      · exact fun v hv => nomatch hv
      · simp [Value.Plain.array hbelow]
    refine Value.plain_record ?_
    simp only [List.forall_mem_cons]
    exact ⟨by simp [Value.Plain.string], hname, by simp [occurs.plain_toValue],
      by simp [effective.plain_toValue], by simp [Value.Plain.bool], by simp [Value.Plain.bool],
      hoverall, hparticles, fun e he => nomatch he⟩

theorem plain_toValues : ∀ ps : List ParticleSummary, ∀ v ∈ toValues ps, v.Plain
  | [] => fun v hv => nomatch hv
  | p :: ps => by
    rw [toValues, List.forall_mem_cons]
    exact ⟨plain_toValue p, plain_toValues ps⟩

end

end ParticleSummary

theorem Summary.plain_toValue (s : Summary) : s.toValue.Plain :=
  Value.plain_record (by simp [s.root.plain_toValue])

/-! ## 3. Levels of particles -/

namespace ParticleSummary

mutual

/-- How many levels of particles there are, the particle itself being one. -/
def levels : ParticleSummary → Nat
  | ⟨_, _, _, _, _, _, _, particles⟩ => levelsAll particles + 1

/-- How many levels of particles there are in a list. -/
def levelsAll : List ParticleSummary → Nat
  | [] => 0
  | p :: ps => max p.levels (levelsAll ps)

end

theorem levels_eq (s : ParticleSummary) : s.levels = levelsAll s.particles + 1 := by
  cases s
  rw [levels]

theorem mapM_toValue {room : Nat} (hread : ∀ p : ParticleSummary,
      (read lib ⟨p.toValue, room⟩).toOption = if 2 * p.levels ≤ room then some p else none)
    (ps : List ParticleSummary) :
    ((ps.map toValue).mapM fun v => read lib ⟨v, room⟩).toOption =
      if 2 * levelsAll ps ≤ room then some ps else none := by
  rw [toOption_mapM]
  induction ps with
  | nil => exact (if_pos (Nat.zero_le _)).symm
  | cons p ps ih =>
    have hmax : 2 * levelsAll (p :: ps) ≤ room ↔ 2 * p.levels ≤ room ∧ 2 * levelsAll ps ≤ room := by
      rw [levelsAll]
      omega
    rw [List.map_cons, List.mapM_cons, hread p, ih]
    by_cases hp : 2 * p.levels ≤ room
    · by_cases hps : 2 * levelsAll ps ≤ room
      · rw [if_pos hp, if_pos hps, if_pos (hmax.2 ⟨hp, hps⟩)]
        rfl
      · rw [if_pos hp, if_neg hps, if_neg fun h => hps (hmax.1 h).2]
        rfl
    · rw [if_neg hp, if_neg fun h => hp (hmax.1 h).1]
      rfl

theorem two_mul_levelsAll_le {α : Type} {room : Nat} {read : α → Except String ParticleSummary}
    (hread : ∀ x s, read x = .ok s → 2 * s.levels ≤ room) :
    ∀ {xs : List α} {ps : List ParticleSummary}, xs.mapM read = .ok ps →
      2 * levelsAll ps ≤ room := by
  intro xs ps h
  induction xs generalizing ps with
  | nil =>
    cases h
    exact Nat.zero_le _
  | cons x xs ih =>
    simp only [List.mapM_cons, bind_eq_ok_iff] at h
    obtain ⟨p, hp, qs, hqs, h⟩ := h
    cases h
    have := hread x p hp
    have := ih hqs
    rw [levelsAll]
    omega

/-- The list of the particles below takes up a container, and so does the particle itself. -/
theorem two_mul_levelsAll_le_of_list {p : Place} {read : p.Inner → Except String ParticleSummary}
    (hread : ∀ q s, read q = .ok s → 2 * s.levels ≤ q.1.room) {field : Option p.Inner}
    {ps : List ParticleSummary} (h : lib.list read field = .ok ps) :
    2 * levelsAll ps ≤ p.room - 2 := by
  cases field with
  | none =>
    cases h
    exact Nat.zero_le _
  | some q =>
    obtain ⟨rs, -, hps⟩ := bind_eq_ok_iff.1 h
    refine two_mul_levelsAll_le (fun r s hs => ?_) hps
    have := hread _ s hs
    have := q.2
    have := r.2
    dsimp only at *
    omega

end ParticleSummary

/-! ## 4. Records read -/

section

variable (hlib : lib.Lawful)

include hlib

theorem room_pos_of_record {names : List String} {needed : Nat} {p : Place}
    {fields : List (Option p.Inner)} (h : lib.record names needed p = .ok fields) : 0 < p.room := by
  obtain ⟨v, room⟩ := p
  cases room with
  | zero =>
    obtain ⟨reason, hfull⟩ := hlib.record_full names needed v
    rw [hfull] at h
    cases h
  | succ room => exact Nat.succ_pos room

/-- A field that was left out where there is no value is read as none. -/
theorem optional_map {α : Type} {read : Place → Except String α} {write : α → Value} {room : Nat}
    (outer : Value) (hread : ∀ a, read ⟨write a, room⟩ = .ok a)
    (hnull : ∀ a, write a ≠ .null) (o : Option α) :
    lib.optional read ((o.map write).map (Place.within outer room)) = .ok o := by
  cases o with
  | none => rfl
  | some a =>
    have hpresent : lib.isNull ⟨write a, room⟩ = false := by
      rw [Bool.eq_false_iff, Ne, hlib.isNull_iff]
      exact hnull a
    calc lib.optional read (some (Place.within outer room (write a)))
      _ = (read ⟨write a, room⟩).map some := if_neg (Bool.eq_false_iff.1 hpresent)
      _ = .ok (some a) := by rw [hread]; rfl

theorem optional_text (outer : Value) (room : Nat) (o : Option String) :
    lib.optional lib.text
      ((o.map fun n => .string (some n)).map (Place.within outer room)) = .ok o :=
  optional_map hlib outer (fun n => hlib.text_string n room) (fun _ => Value.noConfusion) o

/-! ## 5. Bounds read -/

/-- An unbounded value is written as null, and read as one that is missing. -/
theorem Bound.optional_toValue (b : Bound) (outer : Value) (room : Nat) :
    ∃ n, lib.optional lib.word (some (Place.within outer room b.toValue)) = .ok n ∧
      n.elim .unbounded .finite = b := by
  cases b with
  | unbounded =>
    have hnull : lib.isNull ⟨.null, room⟩ = true := (hlib.isNull_iff _).2 rfl
    exact ⟨none, if_pos hnull, rfl⟩
  | finite n =>
    have hread : ∀ n : UInt32, lib.word ⟨.number (some n.toNat), room⟩ = .ok n :=
      fun n => hlib.word_number n room
    exact ⟨some n, optional_map hlib outer hread (fun _ => Value.noConfusion) (some n), rfl⟩

theorem Bounds.read_toValue (b : Bounds) (room : Nat) :
    Bounds.read lib ⟨b.toValue, room + 1⟩ = .ok b := by
  have hrecord : lib.record ["min_occurs", "max_occurs"] 2 ⟨b.toValue, room + 1⟩ =
      .ok [some (Place.within _ room (.number (some b.min.toNat))),
        some (Place.within _ room b.max.toValue)] :=
    hlib.record_record [("min_occurs", some (.number (some b.min.toNat))),
      ("max_occurs", some b.max.toValue)] 2 room (by simp)
  have hmin : lib.word ⟨.number (some b.min.toNat), room⟩ = .ok b.min :=
    hlib.word_number b.min room
  obtain ⟨n, hmax, hn⟩ := Bound.optional_toValue hlib b.max b.toValue room
  calc Bounds.read lib ⟨b.toValue, room + 1⟩
    _ = (do
        let max ← lib.optional lib.word (some (Place.within b.toValue room b.max.toValue))
        return ⟨← lib.word ⟨.number (some b.min.toNat), room⟩, max.elim .unbounded .finite⟩) := by
      rw [read, hrecord]
      rfl
    _ = .ok b := by
      rw [hmax, hmin]
      exact congrArg (fun max => (Except.ok ⟨b.min, max⟩ : Except String Bounds)) hn

theorem Bounds.room_pos_of_read {p : Place} {b : Bounds} (h : Bounds.read lib p = .ok b) :
    0 < p.room := by
  cases hrecord : lib.record ["min_occurs", "max_occurs"] 2 p with
  | error reason =>
    rw [Bounds.read, hrecord] at h
    cases h
  | ok fields => exact room_pos_of_record hlib hrecord

namespace ParticleSummary

/-! ## 6. Particles read -/

theorem record_toValue (s : ParticleSummary) (room : Nat) :
    lib.record fieldNames 6 ⟨s.toValue, room + 1⟩ =
      .ok (s.entries.map fun e => e.2.map (Place.within _ room)) := by
  have hnodup : fieldNames.Nodup := by decide
  rw [toValue_eq]
  exact hlib.record_record s.entries 6 room hnodup

/-- Each field is read from what was written of it. -/
theorem read_toValue_eq (s : ParticleSummary) (room : Nat) :
    read lib ⟨s.toValue, room + 1⟩ = do
      let kind ← lib.text ⟨.string (some s.kind), room⟩
      let name ← lib.optional lib.text
        ((s.name.map fun n => .string (some n)).map (Place.within s.toValue room))
      let occurs ← Bounds.read lib ⟨s.occurs.toValue, room⟩
      let effective ← Bounds.read lib ⟨s.effective.toValue, room⟩
      let emptiable ← lib.flag ⟨.bool s.emptiable, room⟩
      let single ← lib.flag ⟨.bool s.single, room⟩
      let overall ← lib.optional (Bounds.read lib)
        ((s.overall.map Bounds.toValue).map (Place.within s.toValue room))
      let particles ← lib.list (fun q => read lib q.1)
        ((if s.particles.isEmpty then none else some (.array (s.particles.map toValue))).map
          (Place.within s.toValue room))
      return ⟨kind, name, occurs, effective, emptiable, single, overall, particles⟩ := by
  rw [read, record_toValue hlib]
  rfl

theorem exists_error_read (s : ParticleSummary) {room : Nat} (h : room ≤ 1) :
    ∃ reason, read lib ⟨s.toValue, room⟩ = .error reason := by
  cases h with
  | refl =>
    obtain ⟨reason, hfull⟩ := hlib.record_full ["min_occurs", "max_occurs"] 2 s.occurs.toValue
    have hbounds : Bounds.read lib ⟨s.occurs.toValue, 0⟩ = .error reason := by
      rw [Bounds.read, hfull]
      rfl
    refine ⟨reason, ?_⟩
    rw [read_toValue_eq hlib, hlib.text_string, optional_text hlib, hbounds]
    rfl
  | step h =>
    obtain ⟨reason, hfull⟩ := hlib.record_full fieldNames 6 s.toValue
    refine ⟨reason, ?_⟩
    rw [Nat.le_zero.1 h, read, hfull]
    rfl

/-- Where there is room for the bounds, nothing but the particles below can be refused. -/
theorem read_toValue_add_two (s : ParticleSummary) (room : Nat) :
    read lib ⟨s.toValue, room + 2⟩ =
      ((s.particles.map toValue).mapM fun v => read lib ⟨v, room⟩).map
        fun particles => { s with particles } := by
  have hoverall := optional_map hlib s.toValue (fun b => Bounds.read_toValue hlib b room)
    (fun _ => Value.noConfusion) s.overall
  have hlist : lib.list (fun q => read lib q.1)
      ((if s.particles.isEmpty then none else some (.array (s.particles.map toValue))).map
        (Place.within s.toValue (room + 1))) =
      (s.particles.map toValue).mapM fun v => read lib ⟨v, room⟩ := by
    split_ifs with hnil
    · rw [List.isEmpty_iff.1 hnil]
      rfl
    · have hitems := hlib.items_array (s.particles.map toValue) room
      calc lib.list (fun q => read lib q.1) (some (Place.within s.toValue (room + 1) _))
        _ = (lib.items ⟨.array (s.particles.map toValue), room + 1⟩ >>= fun qs =>
            qs.mapM fun q => read lib q.1) := rfl
        _ = ((s.particles.map toValue).map (Place.within _ room)).mapM fun q => read lib q.1 := by
          rw [hitems]
          rfl
        _ = (s.particles.map toValue).mapM fun v => read lib ⟨v, room⟩ := List.mapM_map
  rw [read_toValue_eq hlib, hlib.text_string, optional_text hlib, Bounds.read_toValue hlib,
    Bounds.read_toValue hlib, hlib.flag_bool, hlib.flag_bool, hoverall, hlist]
  cases (s.particles.map toValue).mapM fun v => read lib ⟨v, room⟩ with
  | error reason => rfl
  | ok particles => rfl

/-- **What was written of a particle is read back if there is room for it**, by induction on the
room as it is taken up. -/
theorem toOption_read_toValue : ∀ (room : Nat) (s : ParticleSummary),
    (read lib ⟨s.toValue, room⟩).toOption = if 2 * s.levels ≤ room then some s else none
  | 0, s | 1, s => by
    have : ¬ 2 * s.levels ≤ 1 := by
      rw [levels_eq]
      omega
    rw [if_neg (by omega), toOption_eq_none_iff]
    exact exists_error_read hlib s (by omega)
  | room + 2, s => by
    have hlevels : 2 * s.levels ≤ room + 2 ↔ 2 * levelsAll s.particles ≤ room := by
      rw [levels_eq]
      omega
    have hbelow := mapM_toValue (toOption_read_toValue room) s.particles
    rw [read_toValue_add_two hlib, toOption_map, hbelow]
    simp only [hlevels]
    split_ifs with hfits
    · cases s
      rfl
    · rfl

/-- Whatever was read as a particle has taken up no more than the room there was. -/
theorem two_mul_levels_le (p : Place) {s : ParticleSummary} (h : read lib p = .ok s) :
    2 * s.levels ≤ p.room := by
  rw [read, bind_eq_ok_iff] at h
  obtain ⟨fields, -, h⟩ := h
  split at h
  · rename_i occurs effective emptiable single overall particles
    simp only [bind_eq_ok_iff] at h
    -- the bounds take up a second container even where there are no particles below
    obtain ⟨_, -, _, -, _, hoccurs, _, -, _, -, _, -, _, -, ps, hps, h⟩ := h
    cases h
    have hbelow := two_mul_levelsAll_le_of_list (fun q s hs => two_mul_levels_le q.1 hs) hps
    have hbounds := Bounds.room_pos_of_read hlib hoccurs
    have := occurs.2
    rw [levels]
    omega
  · cases h
termination_by p.room
decreasing_by exact q.2

end ParticleSummary

/-! ## 7. Summaries -/

namespace Summary

omit hlib in
theorem decode_eq_ok_iff {text : String} {s : Summary} :
    decode lib text = .ok s ↔ ∃ p, lib.parse text = .ok p ∧ read lib p = .ok s := by
  rw [← bind_eq_ok_iff, decode]
  cases lib.parse text >>= read lib with
  | error reason => simp [Except.mapError]
  | ok s => simp [Except.mapError]

theorem read_toValue_eq (s : Summary) (room : Nat) :
    read lib ⟨s.toValue, room + 1⟩ =
      (ParticleSummary.read lib ⟨s.root.toValue, room⟩).map Summary.mk := by
  have hrecord : lib.record ["root"] 1 ⟨s.toValue, room + 1⟩ =
      .ok [some (Place.within _ room s.root.toValue)] :=
    hlib.record_record [("root", some s.root.toValue)] 1 room (by simp)
  rw [read, hrecord]
  rfl

theorem two_mul_levels_lt {p : Place} {s : Summary} (h : read lib p = .ok s) :
    2 * s.root.levels < p.room := by
  rw [read, bind_eq_ok_iff] at h
  obtain ⟨fields, -, h⟩ := h
  split at h
  · rename_i root
    obtain ⟨p, hroot, h⟩ := bind_eq_ok_iff.1 h
    cases h
    exact Nat.lt_of_le_of_lt (ParticleSummary.two_mul_levels_le hlib root.1 hroot) root.2
  · cases h

/-- What is read of a text has room for no more than 63 levels. -/
theorem levels_le_of_decode {text : String} {s : Summary} (h : decode lib text = .ok s) :
    s.root.levels ≤ 63 := by
  obtain ⟨p, hparse, hread⟩ := decode_eq_ok_iff.1 h
  have hroom := hlib.room_parse hparse
  have hlevels := two_mul_levels_lt hlib hread
  omega

end Summary

end

namespace Summary

/-- **Reading undoes writing.** Every summary has a text, whatever its strings hold and its bounds
are. With at most 63 levels of particles it is read back from that, with more the text is refused;
and what was read from some text is always read back from its own. -/
theorem decode_encode (hlib : lib.Lawful) (s : Summary) :
    ∃ text, s.encode lib = .ok text ∧
      (s.root.levels ≤ 63 → decode lib text = .ok s) ∧
      (64 ≤ s.root.levels → ∃ reason, decode lib text = .error (.decode reason)) ∧
      ∀ source, decode lib source = .ok s → decode lib text = .ok s := by
  obtain ⟨text, hprint⟩ := hlib.print_plain s.plain_toValue
  obtain ⟨room, hparse⟩ := hlib.parse_print s.plain_toValue hprint
  have hroom : room = 126 + 1 := hlib.room_parse hparse
  have hread : (ParticleSummary.read lib ⟨s.root.toValue, 126⟩).toOption =
      if 2 * s.root.levels ≤ 126 then some s.root else none :=
    ParticleSummary.toOption_read_toValue hlib 126 s.root
  have hdecode : decode lib text =
      ((ParticleSummary.read lib ⟨s.root.toValue, 126⟩).map Summary.mk).mapError .decode := by
    rw [decode, hparse, hroom, ← read_toValue_eq hlib]
    rfl
  have hok (hlevels : s.root.levels ≤ 63) : decode lib text = .ok s := by
    rw [if_pos (by omega), toOption_eq_some_iff] at hread
    rw [hdecode, hread]
    rfl
  have herror (hlevels : 64 ≤ s.root.levels) :
      ∃ reason, decode lib text = .error (.decode reason) := by
    rw [if_neg (by omega), toOption_eq_none_iff] at hread
    obtain ⟨reason, hread⟩ := hread
    refine ⟨reason, ?_⟩
    rw [hdecode, hread]
    rfl
  have hencode : s.encode lib = .ok text := by
    rw [encode, hprint]
    rfl
  exact ⟨text, hencode, hok, herror, fun source h => hok (levels_le_of_decode hlib h)⟩

theorem encode_native (s : Summary) : s.encode Json.native = .ok s.toJson := rfl

/-- Bounds out of order, and a name of a quote, a line feed, a backslash and a letter: read from a
text that is all arrays, read back as part of a larger summary, and refused 64 times one within the
other. -/
theorem decode_encode_nested :
    let name := "\"\n\\é"
    let p : ParticleSummary :=
      ⟨"any", some name, ⟨2, .finite 1⟩, ⟨0, .unbounded⟩, true, false, some ⟨3, .finite 0⟩, []⟩
    let array : Value := .array [.string (some "any"), .string (some name),
      .array [.number (some 2), .number (some 1)], .array [.number (some 0), .null],
      .bool true, .bool false, .array [.number (some 3), .number (some 0)]]
    let source := (Value.array [array]).pretty
    let pair : ParticleSummary := { p with particles := [p, p] }
    let deep : ParticleSummary := Nat.repeat (fun q => { q with particles := [q] }) 63 p
    Json.native.Lawful ∧
      (ofJson source = .ok ⟨p⟩ ∧ ofJson (toJson ⟨p⟩) = .ok ⟨p⟩) ∧
      ofJson (toJson ⟨pair⟩) = .ok ⟨pair⟩ ∧
      ∃ reason, ofJson (toJson ⟨deep⟩) = .error (.decode reason) := by
  intro name p array source pair deep
  have hroot : ParticleSummary.read Json.native ⟨array, 126⟩ = .ok p := by
    rw [ParticleSummary.read]
    rfl
  have hsource : ofJson source = .ok ⟨p⟩ := by
    calc ofJson source
      _ = ((ParticleSummary.read Json.native ⟨array, 126⟩).map Summary.mk).mapError .decode := by
        rw [ofJson, decode, Json.native_parse, Value.parse?_pretty]
        rfl
      _ = .ok ⟨p⟩ := by
        rw [hroot]
        rfl
  have hlevels : ∀ n,
      (Nat.repeat (fun q : ParticleSummary => { q with particles := [q] }) n p).levels = n + 1 := by
    intro n
    induction n with
    | zero => rfl
    | succ n ih =>
      rw [Nat.repeat, ParticleSummary.levels_eq, ParticleSummary.levelsAll,
        ParticleSummary.levelsAll, ih, Nat.max_zero]
  have hdeep : 64 ≤ deep.levels := Nat.le_of_eq (hlevels 63).symm
  obtain ⟨_, hp, -, -, hback⟩ := decode_encode Json.native_lawful ⟨p⟩
  obtain ⟨_, hpair, hread, -⟩ := decode_encode Json.native_lawful ⟨pair⟩
  obtain ⟨_, htext, -, hrefused, -⟩ := decode_encode Json.native_lawful ⟨deep⟩
  obtain rfl := Except.ok.inj ((encode_native _).symm.trans hp)
  obtain rfl := Except.ok.inj ((encode_native _).symm.trans hpair)
  obtain rfl := Except.ok.inj ((encode_native _).symm.trans htext)
  exact ⟨Json.native_lawful, ⟨hsource, hback _ hsource⟩, hread (by decide), hrefused hdeep⟩

end Summary

end ContentModel
