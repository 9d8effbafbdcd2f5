import ContentModel.Json.Native
import ContentModel.Proofs.Json.Value

/-!
# The library at hand is lawful

Of the laws of a JSON library two take an argument: a text is read as the value it was written from
(`Value.parse?_pretty`), and **the fields of a record are found under their own names, and nothing
else is** (`Value.record?_record`). The other laws can be read off the definition
(`native_lawful`).
-/

set_option autoImplicit false

namespace ContentModel.Json

theorem mapM_map_eq_some {α β γ : Type} {f : α → Option β} {a : γ → α} {b : γ → β} {xs : List γ}
    (h : ∀ x ∈ xs, f (a x) = some (b x)) : (xs.map a).mapM f = some (xs.map b) := by
  induction xs with
  | nil => rfl
  | cons x xs ih =>
    rw [List.forall_mem_cons] at h
    rw [List.map_cons, List.mapM_cons, h.1, ih h.2]
    rfl

/-! ## 1. Records -/

namespace Value

theorem present_cons (e : String × Option Value) (es : List (String × Option Value)) :
    present (e :: es) = (e.2.map fun v => (e.1, v)).toList ++ present es := by
  unfold present
  rw [List.filterMap_cons]
  cases e.2 with
  | none => rfl
  | some v => rfl

theorem filter_present_of_not_mem {n : String} {entries : List (String × Option Value)}
    (hn : n ∉ entries.map (·.1)) : (present entries).filter (·.1 == n) = [] := by
  rw [List.filter_eq_nil_iff]
  intro f hf heq
  obtain ⟨e, he, hf⟩ := List.mem_filterMap.1 hf
  obtain ⟨v, -, rfl⟩ := Option.map_eq_some_iff.1 hf
  exact hn (List.mem_map.2 ⟨e, he, eq_of_beq heq⟩)

/-- Under each name stands its own value, if it has one, and no other. -/
theorem filter_present {entries : List (String × Option Value)}
    (hnodup : (entries.map (·.1)).Nodup) :
    ∀ e ∈ entries, (present entries).filter (·.1 == e.1) =
      (e.2.map fun v => (e.1, v)).toList := by
  induction entries with
  | nil => exact fun e he => nomatch he
  | cons e es ih =>
    rw [List.map_cons, List.nodup_cons] at hnodup
    rw [List.forall_mem_cons]
    constructor
    · rw [present_cons, List.filter_append, filter_present_of_not_mem hnodup.1, List.append_nil]
      cases e.2 with
      | none => rfl
      | some v => simp
    · intro e' he'
      have hne : e.1 ≠ e'.1 := fun heq => hnodup.1 (heq ▸ List.mem_map_of_mem he')
      rw [present_cons, List.filter_append, ih hnodup.2 e' he']
      cases e.2 with
      | none => rfl
      | some v => simp [hne]

/-- **A record is read back field by field**, if no two of its fields have the same name. -/
theorem record?_record {entries : List (String × Option Value)}
    (hnodup : (entries.map (·.1)).Nodup) (needed : Nat) :
    (record entries).record? (entries.map (·.1)) needed = some (entries.map (·.2)) := by
  have hnamed : ((present entries).map fun f => (some f.1, f.2)).mapM
      (fun (f : Option String × Value) => f.1.map fun k => (k, f.2)) = some (present entries) := by
    refine (mapM_map_eq_some (b := id) fun f _ => ?_).trans (congrArg some (List.map_id _))
    rfl
  rw [record, record?, hnamed]
  refine mapM_map_eq_some fun e he => ?_
  rw [filter_present hnodup e he]
  cases e.2 with
  | none => rfl
  | some v => rfl

theorem word?_toNat (n : UInt32) : word? (.number (some n.toNat)) = some n := by
  have hfits : n.toNat < UInt32.size := n.toNat_lt
  rw [word?, if_pos hfits, UInt32.ofNat_toNat]

theorem isNull_iff (v : Value) : v.isNull = true ↔ v = .null := by
  cases v <;> simp [isNull]

end Value

/-! ## 2. The laws -/

theorem native_parse (text : String) :
    native.parse text = (orReason "no JSON text" (Value.parse? text)).map (⟨·, 127⟩) := rfl

/-- **The library keeps to the laws.** -/
theorem native_lawful : native.Lawful where
  print_plain _ := ⟨_, rfl⟩
  parse_print _ hprint := by
    cases hprint
    refine ⟨127, ?_⟩
    rw [native_parse, Value.parse?_pretty]
    rfl
  room_parse {text p} hparse := by
    rw [native_parse] at hparse
    cases hvalue : Value.parse? text with
    | none =>
      rw [hvalue] at hparse
      cases hparse
    | some v =>
      rw [hvalue] at hparse
      cases hparse
      rfl
  record_full _ _ _ := ⟨_, rfl⟩
  record_record entries needed room hnodup := by
    simp only [native, Value.record?_record hnodup, orReason]
    exact congrArg Except.ok List.map_map
  items_array _ _ := rfl
  text_string _ _ := rfl
  word_number n _ := congrArg (orReason _) (Value.word?_toNat n)
  flag_bool _ _ := rfl
  isNull_iff p := p.value.isNull_iff

end ContentModel.Json
