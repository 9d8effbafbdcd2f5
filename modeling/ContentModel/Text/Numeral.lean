/-!
# Decimal numerals

A numeral is an optional sign and at least one ASCII digit; leading zeros do not matter and nothing
else may stand in it. The unsigned form takes `+` alone as its sign. Both read the value exactly and
then refuse it when it lies outside the range asked for.
-/

set_option autoImplicit false

namespace ContentModel.Text

/-- The number that a run of digits stands for, most significant digit first. -/
def digitsValue (cs : List Char) : Nat :=
  cs.foldl (fun n c => 10 * n + (c.toNat - '0'.toNat)) 0

/-- The value of a non-empty run of ASCII digits. -/
def digits? (cs : List Char) : Option Nat :=
  if !cs.isEmpty && cs.all Char.isDigit then some (digitsValue cs) else none

/-- An unsigned numeral (`+` may stand before the digits) with a value of at most `top`. -/
def natural? (top : Nat) (cs : List Char) : Option Nat :=
  let value? := match cs with
    | '+' :: ds => digits? ds
    | ds => digits? ds
  value?.filter (· ≤ top)

/-- A signed numeral whose value lies between `bottom` and `top`. -/
def integer? (bottom top : Int) (cs : List Char) : Option Int :=
  let value? : Option Int := match cs with
    | '+' :: ds => (digits? ds).map Int.ofNat
    | '-' :: ds => (digits? ds).map fun n => -(n : Int)
    | ds => (digits? ds).map Int.ofNat
  value?.filter fun v => bottom ≤ v && v ≤ top

end ContentModel.Text
