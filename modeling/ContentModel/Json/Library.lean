import ContentModel.Json.Value

/-!
# JSON libraries

Texts are written and read by a JSON library, and what is said of them holds with every library
that keeps to the laws below. A library writes a value as a text. A text it reads bit by bit, as it
is asked: for the fields of a record, the items of an array, or a scalar. It keeps count of the
containers that it is within, and refuses to open one more than 127; what nobody asks for it skips,
however deep that may be nested.
-/

set_option autoImplicit false

namespace ContentModel.Json

/-! ## 1. What a library offers -/

/-- A value yet to be read, where so many containers may still be opened one within the other. -/
structure Place where
  value : Value
  room : Nat

/-- A place within a container, where there is less room than around it. -/
abbrev Place.Inner (p : Place) : Type := { q : Place // q.room < p.room }

def Place.within (outer : Value) (room : Nat) (v : Value) : Place.Inner ⟨outer, room + 1⟩ :=
  ⟨⟨v, room⟩, Nat.lt_succ_self room⟩

/-- A library that writes and reads JSON. An error gives the reason. -/
structure Library where
  print : Value → Except String String
  parse : String → Except String Place
  /-- The fields of a record in the order of `names`, as far as they are there. The record is
  written as an object, or as the array of its fields, of which the first `needed` must not be left
  out. -/
  record : (names : List String) → (needed : Nat) → (p : Place) →
    Except String (List (Option p.Inner))
  items : (p : Place) → Except String (List p.Inner)
  text : Place → Except String String
  word : Place → Except String UInt32
  flag : Place → Except String Bool
  isNull : Place → Bool
  /-- The reason given where a field is missing that has to be there. -/
  missing : String

/-- A field that may be missing or null, read in some way where it is there. -/
def Library.optional {α : Type} {p : Place} (lib : Library) (read : Place → Except String α) :
    Option p.Inner → Except String (Option α)
  | none => .ok none
  | some q => if lib.isNull q then .ok none else (read q).map some

/-- An array that may be missing, with its items read in some way. -/
def Library.list {α : Type} {p : Place} (lib : Library) (read : p.Inner → Except String α) :
    Option p.Inner → Except String (List α)
  | none => .ok []
  | some q => do
    let rs ← lib.items q.1
    rs.mapM fun r => read ⟨r.1, Nat.lt_trans r.2 q.2⟩

/-! ## 2. What a library promises -/

/-- A value in which all strings have a text, and all numbers are words. -/
inductive Value.Plain : Value → Prop
  | null : Plain .null
  | bool (b : Bool) : Plain (.bool b)
  | number (n : UInt32) : Plain (.number (some n.toNat))
  | string (s : String) : Plain (.string (some s))
  | array {items : List Value} (plain : ∀ v ∈ items, Plain v) : Plain (.array items)
  | object {fields : List (Option String × Value)} (named : ∀ f ∈ fields, f.1 ≠ none)
    (plain : ∀ f ∈ fields, Plain f.2) : Plain (.object fields)

/-- The laws of a library: it writes and reads plain values as JSON says, and 127 containers may be
nested, but not 128. -/
structure Library.Lawful (lib : Library) : Prop where
  print_plain : ∀ {v : Value}, v.Plain → ∃ text, lib.print v = .ok text
  /-- A text is read as the value that it was written from. -/
  parse_print : ∀ {v : Value} {text : String}, v.Plain → lib.print v = .ok text →
    ∃ room, lib.parse text = .ok ⟨v, room⟩
  room_parse : ∀ {text : String} {p : Place}, lib.parse text = .ok p → p.room = 127
  /-- No record is opened where there is no room left. -/
  record_full : ∀ (names : List String) (needed : Nat) (v : Value),
    ∃ reason, lib.record names needed ⟨v, 0⟩ = .error reason
  /-- The fields of a record are found under their names, if no two of these are the same. -/
  record_record : ∀ (entries : List (String × Option Value)) (needed room : Nat),
    (entries.map (·.1)).Nodup →
      lib.record (entries.map (·.1)) needed ⟨.record entries, room + 1⟩ =
        .ok (entries.map fun e => e.2.map (Place.within _ room))
  items_array : ∀ (vs : List Value) (room : Nat),
    lib.items ⟨.array vs, room + 1⟩ = .ok (vs.map (Place.within _ room))
  text_string : ∀ (s : String) (room : Nat), lib.text ⟨.string (some s), room⟩ = .ok s
  word_number : ∀ (n : UInt32) (room : Nat), lib.word ⟨.number (some n.toNat), room⟩ = .ok n
  flag_bool : ∀ (b : Bool) (room : Nat), lib.flag ⟨.bool b, room⟩ = .ok b
  isNull_iff : ∀ p : Place, lib.isNull p = true ↔ p.value = .null

end ContentModel.Json
