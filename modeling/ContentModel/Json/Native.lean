import ContentModel.Json.Layout
import ContentModel.Json.Library
import ContentModel.Json.Reader

/-!
# A JSON library

This library writes values as they are laid out, and reads the whole text of a value before
anything is asked of it. A field must not come twice in a record, and a number must be a plain
natural one that fits into a word.
-/

set_option autoImplicit false

namespace ContentModel.Json

/-! ## 1. Parts of a value -/

namespace Value

/-- The values of the fields of a record, in the order of `names`; a field that is missing has none.
The record is an object in which none of these names comes twice, or an array of all values but for
some at the end, of which `needed` are there. -/
def record? (names : List String) (needed : Nat) : Value → Option (List (Option Value))
  | .object fields => do
    let fields ← fields.mapM fun (k, v) => k.map fun k => (k, v)
    names.mapM fun n =>
      match fields.filter (·.1 == n) with
      | [] => some none
      | [(_, v)] => some (some v)
      | _ => none
  | .array items =>
    if needed ≤ items.length ∧ items.length ≤ names.length then
      some ((items.map some) ++ List.replicate (names.length - items.length) none)
    else none
  | _ => none

def word? : Value → Option UInt32
  | .number (some n) => if n < UInt32.size then some (UInt32.ofNat n) else none
  | _ => none

def text? : Value → Option String
  | .string text => text
  | _ => none

def flag? : Value → Option Bool
  | .bool b => some b
  | _ => none

def isNull : Value → Bool
  | .null => true
  | _ => false

end Value

/-! ## 2. The library -/

/-- What was read, or the reason why nothing was. -/
def orReason {α : Type} (reason : String) : Option α → Except String α
  | some a => .ok a
  | none => .error reason

def native : Library where
  print v := .ok v.pretty
  parse text := (orReason "no JSON text" (Value.parse? text)).map (⟨·, 127⟩)
  record names needed
    | ⟨_, 0⟩ => .error "too many containers one within the other"
    | ⟨v, room + 1⟩ => do
      let values ← orReason "no record of these fields" (v.record? names needed)
      return values.map fun o => o.map (Place.within _ room)
  items
    | ⟨_, 0⟩ => .error "too many containers one within the other"
    | ⟨.array vs, room + 1⟩ => .ok (vs.map (Place.within _ room))
    | _ => .error "no array"
  text p := orReason "no text" p.value.text?
  word p := orReason "no number that fits" p.value.word?
  flag p := orReason "neither true nor false" p.value.flag?
  isNull p := p.value.isNull
  missing := "a field is missing"

end ContentModel.Json
