import ContentModel.Vocabulary
import ContentModel.Xml.Tag

/-!
# Namespaces in scope

An element declares abbreviations of namespaces for itself and all it contains; an inner declaration
hides an outer one. The empty abbreviation is the default namespace, which applies to elements only;
whatever attribute has the local name `xmlns` declares it, and its own abbreviation is not looked
up. The default may be declared twice on one element, where the first declaration counts.

An abbreviation that was not declared is an error, and so are two attributes of one expanded name.
The abbreviation `xml` is declared everywhere, but for attributes only, and neither it nor its
namespace may be declared otherwise.
-/

set_option autoImplicit false

namespace ContentModel.Xml

/-- Abbreviations with the namespaces they stand for, innermost first. -/
abbrev Scope := List (String × String)

/-- What an attribute is for. -/
inductive AttributeRole
  /-- It declares an abbreviation. -/
  | declares (abbreviation uri : String)
  /-- It says again what `xml` stands for. -/
  | redeclares
  /-- It says something about the element. -/
  | plain

/-- The role of an attribute, unless it declares what must not be declared. Any attribute with the
local name `xmlns` that is no declaration of an abbreviation declares the default namespace. -/
def RawAttribute.role? (a : RawAttribute) : Option AttributeRole :=
  if a.name.abbreviation = "xmlns" then
    if a.value = xmlnsNamespace then none
    else if a.name.localName = "xml" then
      if a.value = xmlNamespace then some .redeclares else none
    else if a.value = xmlNamespace then none
    else some (.declares a.name.localName a.value)
  else if a.name.localName = "xmlns" then
    if a.value = xmlNamespace ∨ a.value = xmlnsNamespace then none
    else some (.declares "" a.value)
  else some .plain

/-- The declarations among some attributes, in order, after those in `made`. Only the default
namespace may be declared again. -/
def declarations? : List RawAttribute → Scope → Option Scope
  | [], made => some made
  | a :: rest, made =>
    match a.role? with
    | none => none
    | some (.declares abbreviation uri) =>
      if abbreviation ≠ "" ∧ made.any (·.1 == abbreviation) then none
      else declarations? rest (made ++ [(abbreviation, uri)])
    | some _ => declarations? rest made

/-- The namespace that an attribute's name is in, if it is in one; the outer `none` is an
abbreviation that was not declared. -/
def attributeNamespace? (scope : Scope) (name : QualifiedName) : Option (Option String) :=
  if name.abbreviation = "" then some none
  else if name.abbreviation = "xml" then some (some xmlNamespace)
  else (scope.lookup name.abbreviation).map some

/-- The attributes that say something about the element, with the namespaces of their names; no two
may have one expanded name. -/
def plainAttributes? (scope : Scope) :
    List RawAttribute → List (Option String × String × String) →
      Option (List (Option String × String × String))
  | [], done => some done
  | a :: rest, done =>
    match a.role?, attributeNamespace? scope a.name with
    | some .plain, some ns =>
      if done.any fun d => d.1 == ns && d.2.1 == a.name.localName then none
      else plainAttributes? scope rest (done ++ [(ns, a.name.localName, a.value)])
    | some .plain, none => none
    | _, _ => plainAttributes? scope rest done

/-- An element whose names are resolved. -/
structure ResolvedTag where
  /-- What is declared inside the element. -/
  scope : Scope
  /-- The attributes in no namespace. -/
  attributes : List (String × String)

/-- Resolves the names of a start tag within the declarations around it. -/
def StartTag.resolve? (tag : StartTag) (around : Scope) : Option ResolvedTag := do
  let made ← declarations? tag.attributes []
  let scope := made ++ around
  if tag.name.abbreviation = "xmlns" then none
  if tag.name.abbreviation ≠ "" then
    let _ ← scope.lookup tag.name.abbreviation
  let attributes ← plainAttributes? scope tag.attributes []
  return ⟨scope, attributes.filterMap fun (ns, name, value) =>
    if ns.isNone then some (name, value) else none⟩

end ContentModel.Xml
