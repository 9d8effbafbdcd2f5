import ContentModel.Json.Token

/-!
# Reading JSON values

The tokens of a text are read one by one by a machine that keeps the containers it is within as a
list, so that values may be nested as deep as the text is long. A text is one value and nothing
more.
-/

set_option autoImplicit false

namespace ContentModel.Json

/-- A container being read, with what it holds so far, last first. -/
inductive Context
  | array (items : List Value)
  /-- An object whose field of the given name is being read. -/
  | field (fields : List (Option String × Value)) (name : Option String)

/-- What may come next. -/
inductive Stage
  /-- A value. -/
  | value
  /-- A value, or the end of the array that has just begun. -/
  | firstItem
  /-- A comma or the end of the array that holds these items. -/
  | item (items : List Value)
  /-- A name, or the end of the object that has just begun. -/
  | firstName
  /-- The name of another field. -/
  | name (fields : List (Option String × Value))
  /-- The colon after a name. -/
  | colon (fields : List (Option String × Value)) (name : Option String)
  /-- A comma or the end of the object that holds these fields. -/
  | field (fields : List (Option String × Value))
  /-- Nothing: the value is complete. -/
  | done (v : Value)

/-- What may come next, and the containers around it, innermost first. -/
abbrev State := Stage × List Context

def deliver (v : Value) : List Context → State
  | [] => (.done v, [])
  | .array items :: around => (.item (v :: items), around)
  | .field fields name :: around => (.field ((name, v) :: fields), around)

def openValue (around : List Context) : Token → Option State
  | .openBrace => some (.firstName, around)
  | .openBracket => some (.firstItem, around)
  | .null => some (deliver .null around)
  | .bool b => some (deliver (.bool b) around)
  | .number whole => some (deliver (.number whole) around)
  | .string text => some (deliver (.string text) around)
  | _ => none

def readNext : State → Token → Option State
  | (.value, around), t => openValue around t
  | (.firstItem, around), .closeBracket => some (deliver (.array []) around)
  | (.firstItem, around), t => openValue (.array [] :: around) t
  | (.item items, around), .comma => some (.value, .array items :: around)
  | (.item items, around), .closeBracket => some (deliver (.array items.reverse) around)
  | (.firstName, around), .closeBrace => some (deliver (.object []) around)
  | (.firstName, around), .string k => some (.colon [] k, around)
  | (.name fields, around), .string k => some (.colon fields k, around)
  | (.colon fields k, around), .colon => some (.value, .field fields k :: around)
  | (.field fields, around), .comma => some (.name fields, around)
  | (.field fields, around), .closeBrace => some (deliver (.object fields.reverse) around)
  | _, _ => none

def Value.ofTokens? (ts : List Token) : Option Value :=
  match ts.foldlM readNext (.value, []) with
  | some (.done v, []) => some v
  | _ => none

def Value.parse? (s : String) : Option Value := tokens s >>= Value.ofTokens?

end ContentModel.Json
