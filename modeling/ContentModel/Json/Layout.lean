import ContentModel.Json.Value

/-!
# How JSON values are laid out

A value is laid out over several lines, two spaces for each container around it; a container without
entries stays on its line. Quotes, backslashes and control characters are escaped, all else is
written as it is.
-/

set_option autoImplicit false

namespace ContentModel.Json

/-! ## 1. Scalars -/

def hexDigit (n : Nat) : Char :=
  if n < 10 then Char.ofNat ('0'.toNat + n) else Char.ofNat ('a'.toNat + (n - 10))

def escape (c : Char) : List Char :=
  if c = '"' then ['\\', '"']
  else if c = '\\' then ['\\', '\\']
  else if c = '\x08' then ['\\', 'b']
  else if c = '\x0c' then ['\\', 'f']
  else if c = '\n' then ['\\', 'n']
  else if c = '\r' then ['\\', 'r']
  else if c = '\t' then ['\\', 't']
  else if c.toNat < 0x20 then
    ['\\', 'u', '0', '0', hexDigit (c.toNat / 16), hexDigit (c.toNat % 16)]
  else [c]

/-- A string in quotes. One that has no text is written as a lone surrogate. -/
def quote : Option String → List Char
  | some s => '"' :: (s.toList.flatMap escape) ++ ['"']
  | none => ['"', '\\', 'u', 'd', '8', '0', '0', '"']

/-- A number. One whose value was not kept is written as a negative one. -/
def numeral : Option Nat → List Char
  | some n => Nat.toDigits 10 n
  | none => ['-', '1']

/-! ## 2. Layout -/

def newline (depth : Nat) : List Char := '\n' :: List.replicate (2 * depth) ' '

mutual

/-- The text of a value that stands within `depth` containers. -/
def Value.layout (depth : Nat) : Value → List Char
  | .null => "null".toList
  | .bool b => if b then "true".toList else "false".toList
  | .number whole => numeral whole
  | .string text => quote text
  | .array [] => ['[', ']']
  | .array (v :: vs) =>
    '[' :: newline (depth + 1) ++ v.layout (depth + 1) ++ itemsLayout (depth + 1) vs
      ++ newline depth ++ [']']
  | .object [] => ['{', '}']
  | .object ((k, v) :: fs) =>
    '{' :: newline (depth + 1) ++ quote k ++ [':', ' '] ++ v.layout (depth + 1)
      ++ fieldsLayout (depth + 1) fs ++ newline depth ++ ['}']

def itemsLayout (depth : Nat) : List Value → List Char
  | [] => []
  | v :: vs => ',' :: newline depth ++ v.layout depth ++ itemsLayout depth vs

def fieldsLayout (depth : Nat) : List (Option String × Value) → List Char
  | [] => []
  | (k, v) :: fs =>
    ',' :: newline depth ++ quote k ++ [':', ' '] ++ v.layout depth ++ fieldsLayout depth fs

end

def Value.pretty (v : Value) : String := String.ofList (v.layout 0)

end ContentModel.Json
