/-!
# JSON values

A value is what a JSON text says, as far as this library needs to know it. Of numbers only the
natural ones written plainly are told apart. A string may hold an escaped surrogate without its
partner; such a string has no text, and nobody can ask for it. A record is written as an object, in
which the fields without a value are left out.
-/

set_option autoImplicit false

namespace ContentModel.Json

/-- What a JSON text says. -/
inductive Value
  | null
  | bool (b : Bool)
  /-- A number, with its value where it is a natural one without sign, fraction and exponent. -/
  | number (whole : Option Nat)
  /-- A string, with its text unless a surrogate stands alone in it. -/
  | string (text : Option String)
  | array (items : List Value)
  /-- Named values in the order written; a name may come twice. -/
  | object (fields : List (Option String × Value))

namespace Value

/-- The fields of a record that have a value. -/
def present (entries : List (String × Option Value)) : List (String × Value) :=
  entries.filterMap fun e => e.2.map fun v => (e.1, v)

/-- A record as it is written, without the fields that have no value. -/
def record (entries : List (String × Option Value)) : Value :=
  .object ((present entries).map fun f => (some f.1, f.2))

end Value

end ContentModel.Json
