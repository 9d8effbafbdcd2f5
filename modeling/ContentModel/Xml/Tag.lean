import ContentModel.Xml.Reader
import ContentModel.Xml.Reference

/-!
# Tags

The start and the end of an element as they are written: names are still what stands in the text,
with the abbreviation of a namespace before the colon, and declarations of namespaces are attributes
like any other. Attribute values are resolved.
-/

set_option autoImplicit false

namespace ContentModel.Xml

/-- A name as written, with the abbreviation of a namespace if it has one. -/
structure QualifiedName where
  abbreviation : String
  localName : String
  deriving DecidableEq

/-- An attribute as written. -/
structure RawAttribute where
  name : QualifiedName
  value : String

/-- The start of an element. -/
structure StartTag where
  name : QualifiedName
  attributes : List RawAttribute
  /-- The element ends here too. -/
  closed : Bool

namespace Reader

/-- A name with at most one colon, each part beginning as a name does. -/
def qualifiedName : Reader QualifiedName := do
  let whole ← span isNameChar
  let first := whole.takeWhile (· != ':')
  let startsName (part : List Char) : Bool := part.head?.any isNameStart
  match whole.dropWhile (· != ':') with
  | [] => do
    guard (startsName first)
    return ⟨"", String.ofList first⟩
  | _ :: second => do
    guard (!second.contains ':' && startsName second && (first.isEmpty || startsName first))
    return ⟨String.ofList first, String.ofList second⟩

/-- An equals sign and a value in quotes of either kind, not yet resolved. -/
def assigned : Reader (List Char) := do
  spaces
  expect ['=']
  spaces
  match ← look with
  | '"' :: _ => do
    expect ['"']
    upTo ['"']
  | '\'' :: _ => do
    expect ['\'']
    upTo ['\'']
  | _ => fail

/-- An attribute. Its value must not hold the character that begins a tag. -/
def rawAttribute : Reader RawAttribute := do
  let name ← qualifiedName
  let value ← assigned
  guard (!value.contains '<')
  let resolved ← ofOption (resolve value)
  return ⟨name, String.ofList resolved⟩

/-- The attributes of a start tag and its end; the flag says whether it ends the element too.
`before` are the attributes read already, last first. Each must come after white space. -/
def attributesFrom (before : List RawAttribute) : Reader (List RawAttribute × Bool) := fun c =>
  match _h : c.rest with
  | '>' :: rest =>
    some ⟨(before.reverse, false), ⟨rest, c.place.step '>'⟩, by rw [_h]; simp⟩
  | '/' :: '>' :: rest =>
    some ⟨(before.reverse, true), ⟨rest, (c.place.step '/').step '>'⟩, by rw [_h]; simp; omega⟩
  | s :: rest =>
    if isSpace s then
      match span isSpace ⟨rest, c.place.step s⟩ with
      | none => none
      | some gap =>
        have hgap : gap.after.rest.length < c.rest.length := by
          rw [_h]
          exact Nat.lt_succ_of_le gap.le
        if gap.after.rest.head? == some '>' || gap.after.rest.head? == some '/' then
          (attributesFrom before gap.after).map fun r =>
            ⟨r.value, r.after, Nat.le_trans r.le (Nat.le_of_lt hgap)⟩
        else match rawAttribute gap.after with
          | none => none
          | some a =>
            have ha : a.after.rest.length < c.rest.length := Nat.lt_of_le_of_lt a.le hgap
            (attributesFrom (a.value :: before) a.after).map fun r =>
              ⟨r.value, r.after, Nat.le_trans r.le (Nat.le_of_lt ha)⟩
    else none
  | [] => none
termination_by c => c.rest.length

def startTag : Reader StartTag := do
  let name ← qualifiedName
  let (attributes, closed) ← attributesFrom []
  return ⟨name, attributes, closed⟩

/-- The name in an end tag, after its opening bracket and slash. -/
def endTag : Reader QualifiedName := do
  let name ← qualifiedName
  spaces
  expect ['>']
  return name

end Reader

end ContentModel.Xml
