import ContentModel.Occurs
import ContentModel.Text.Blank
import ContentModel.Text.Numeral

/-!
# Occurrence ranges from attributes

The attributes `minOccurs` and `maxOccurs` are read in one pass that never stops: an unreadable text
leaves the bound at 1 and adds to the faults, in the order found. The lax reading hands out the
range with all faults, the strict one the first fault. An upper bound that ends below the lower one
is widened to unbounded, never silently: a fault was recorded then.
-/

set_option autoImplicit false

namespace ContentModel.Occurs

/-- The lower bound that a text stands for, 1 where the attribute is missing or unreadable. -/
def readMin (min : Option String) : UInt32 × List ParseCause :=
  match min with
  | none => (1, [])
  | some s =>
    match Text.integer? (-9223372036854775808) 9223372036854775807 (Text.trim s.toList) with
    | none => (1, [.minNotInteger])
    | some v =>
      match bound? v with
      | none => (1, [.minOutOfRange])
      | some n => (n, [])

/-- The upper bound that a text stands for beside the lower bound `low`, 1 where the attribute is
missing or unreadable. -/
def readMax (low : UInt32) (max : Option String) : Bound × List ParseCause :=
  match max.map fun s => Text.trim s.toList with
  | none => (.finite 1, if low > 1 then [.minAboveDefaultMax] else [])
  | some cs =>
    if cs = "unbounded".toList then (.unbounded, [])
    else match Text.natural? (Bound.size - 1) cs with
      | none => (.finite 1, [.maxMalformed])
      | some n =>
        (.finite (UInt32.ofNat n), if low > UInt32.ofNat n then [.maxBelowMin] else [])

/-- The range from `low` to `high`, with no upper end where the two are out of order. -/
def widened (low : UInt32) (high : Bound) : Occurs :=
  if h : Bound.finite low ≤ high then ⟨low, high, h⟩ else ⟨low, .unbounded, trivial⟩

/-- The range that two attributes give, with every fault found in them. -/
def readLax (min max : Option String) : Occurs × List ParseCause :=
  let (low, lowFaults) := readMin min
  let (high, highFaults) := readMax low max
  (widened low high, lowFaults ++ highFaults)

/-- The range that two attributes give, if there is no fault in them. -/
def read (min max : Option String) : Except ParseCause Occurs :=
  match readLax min max with
  | (o, []) => .ok o
  | (_, fault :: _) => .error fault

end ContentModel.Occurs
