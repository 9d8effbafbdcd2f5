import ContentModel.Json.Native
import ContentModel.Summary

/-!
# Summaries as JSON

A summary is written as a record of records, from which a name, overall bounds and particles are
left out if there are none. Read back, they may be missing; a name and the bounds may also be null,
which for an upper bound says that there is none.
-/

set_option autoImplicit false

namespace ContentModel

open Json (Value Place Library)

/-! ## 1. Writing -/

def Bound.toValue : Bound → Value
  | .finite n => .number (some n.toNat)
  | .unbounded => .null

def Bounds.toValue (b : Bounds) : Value :=
  .record [("min_occurs", some (.number (some b.min.toNat))), ("max_occurs", some b.max.toValue)]

namespace ParticleSummary

mutual

def toValue : ParticleSummary → Value
  | ⟨kind, name, occurs, effective, emptiable, single, overall, particles⟩ =>
    .record [
      ("kind", some (.string (some kind))),
      ("name", name.map fun n => .string (some n)),
      ("occurs", some occurs.toValue),
      ("effective_occurs", some effective.toValue),
      ("emptiable", some (.bool emptiable)),
      ("single", some (.bool single)),
      ("overall_occurs", overall.map Bounds.toValue),
      ("particles", if particles.isEmpty then none else some (.array (toValues particles)))]

def toValues : List ParticleSummary → List Value
  | [] => []
  | p :: ps => p.toValue :: toValues ps

end

end ParticleSummary

def Summary.toValue (s : Summary) : Value := .record [("root", some s.root.toValue)]

/-- The text of a summary. -/
def Summary.encode (lib : Library) (s : Summary) : Except Error String :=
  (lib.print s.toValue).mapError .encode

/-! ## 2. Reading -/

/-- Reads a pair of bounds. An upper bound that is missing is unbounded. -/
def Bounds.read (lib : Library) (p : Place) : Except String Bounds := do
  let [some low, high] ← lib.record ["min_occurs", "max_occurs"] 2 p | .error lib.missing
  let max ← lib.optional lib.word high
  return ⟨← lib.word low, max.elim .unbounded .finite⟩

namespace ParticleSummary

def fieldNames : List String :=
  ["kind", "name", "occurs", "effective_occurs", "emptiable", "single", "overall_occurs",
    "particles"]

/-- Reads what is known of a particle and of the particles below it. -/
def read (lib : Library) (p : Place) : Except String ParticleSummary := do
  let [some kind, name, some occurs, some effective, some emptiable, some single, overall,
    particles] ← lib.record fieldNames 6 p | .error lib.missing
  return {
    kind := ← lib.text kind
    name := ← lib.optional lib.text name
    occurs := ← Bounds.read lib occurs
    effective := ← Bounds.read lib effective
    emptiable := ← lib.flag emptiable
    single := ← lib.flag single
    overall := ← lib.optional (Bounds.read lib) overall
    particles := ← lib.list (fun q => read lib q.1) particles }
termination_by p.room
decreasing_by exact q.2

end ParticleSummary

namespace Summary

def read (lib : Library) (p : Place) : Except String Summary := do
  let [some root] ← lib.record ["root"] 1 p | .error lib.missing
  return ⟨← ParticleSummary.read lib root⟩

/-- The summary that a text says. -/
def decode (lib : Library) (text : String) : Except Error Summary :=
  (lib.parse text >>= read lib).mapError .decode

/-! ## 3. With the library at hand -/

def toJson (s : Summary) : String := s.toValue.pretty

def ofJson (text : String) : Except Error Summary := decode Json.native text

end Summary

end ContentModel
