import ContentModel.Xml.Character
import ContentModel.Text.Numeral

/-!
# References in character data and attribute values

An ampersand begins a reference: to a character, by its number, or to one of the five entities that
every document has. There are no others, since no document type declaration is read.

An attribute value is normalised: a tab, a line feed and a carriage return become spaces, and a
carriage return before a line feed is dropped. Characters that were referred to stay as they are.
-/

set_option autoImplicit false

namespace ContentModel.Xml

/-- The character of an entity that every document has. -/
def entity? (name : List Char) : Option Char :=
  if name = "quot".toList then some '"'
  else if name = "amp".toList then some '&'
  else if name = "apos".toList then some '\''
  else if name = "lt".toList then some '<'
  else if name = "gt".toList then some '>'
  else none

/-- The value of a run of digits to a base of sixteen. -/
def hexadecimal? (digits : List Char) : Option Nat :=
  if digits.isEmpty then none
  else digits.foldlM (fun n c =>
    if c.isDigit then some (16 * n + (c.toNat - '0'.toNat))
    else if 'a' ≤ c ∧ c ≤ 'f' then some (16 * n + (c.toNat - 'a'.toNat + 10))
    else if 'A' ≤ c ∧ c ≤ 'F' then some (16 * n + (c.toNat - 'A'.toNat + 10))
    else none) 0

/-- The character with a number; the replacement character where no character has it. -/
def numbered? (n : Nat) : Option Char :=
  if n ≤ 0xFFFFFFFF then
    let c := if n.isValidChar then Char.ofNat n else '\uFFFD'
    if isAllowed c then some c else none
  else none

/-- The character that a reference stands for, given what is between ampersand and semicolon. -/
def referent? : List Char → Option Char
  | '#' :: 'x' :: digits => hexadecimal? digits >>= numbered?
  | '#' :: digits => Text.digits? digits >>= numbered?
  | name => entity? name

/-- A literal character of an attribute value, given the characters after it. -/
def normalised (c : Char) (rest : List Char) : List Char :=
  if c = '\r' && rest.head? == some '\n' then []
  else if c = '\r' || c = '\n' || c = '\t' then [' ']
  else [c]

/-- An attribute value with its references resolved; `before` is what came of it so far, last
character first. -/
def resolveFrom (before : List Char) : List Char → Option (List Char)
  | [] => some before.reverse
  | c :: rest =>
    if c = '&' then
      match _h : rest.dropWhile (· != ';') with
      | _ :: after =>
        match referent? (rest.takeWhile (· != ';')) with
        | some r => resolveFrom (r :: before) after
        | none => none
      | [] => none
    else resolveFrom ((normalised c rest).reverse ++ before) rest
termination_by cs => cs.length
decreasing_by
  · have := (List.dropWhile_sublist (fun c : Char => c != ';') (l := rest)).length_le
    rw [_h, List.length_cons] at this
    simp only [List.length_cons]
    omega
  · simp

def resolve (value : List Char) : Option (List Char) := resolveFrom [] value

end ContentModel.Xml
