import ContentModel.Xml.NodeKind
import ContentModel.Xml.Scope

/-!
# Documents

A document is read into the list of its nodes in document order, the root first. Character data and
CDATA sections that stand side by side are one node, white space around the root element is none,
and neither is the XML declaration. A document has exactly one root element and no document type
declaration. This is one way to come by nodes; nothing that is proved depends on it.
-/

set_option autoImplicit false

namespace ContentModel.Xml

/-- A node of a document. The name is the local name of an element; the attributes are those in no
namespace. -/
structure Node where
  kind : NodeKind
  name : String
  attributes : List (String × String)
  place : Place

def Node.attribute? (n : Node) (name : String) : Option String := n.attributes.lookup name

/-! ## 1. What was read so far -/

/-- An element that has not ended yet. -/
structure OpenElement where
  name : QualifiedName
  scope : Scope

/-- The part of a document that was read. -/
structure Progress where
  /-- The nodes, last first. -/
  nodes : List Node
  /-- The elements that have not ended, innermost first. -/
  openElements : List OpenElement
  /-- Whether the root element has begun. -/
  rooted : Bool

namespace Progress

def add (p : Progress) (kind : NodeKind) (place : Place) : Progress :=
  { p with nodes := ⟨kind, "", [], place⟩ :: p.nodes }

/-- Character data; it joins a text that stands directly before it. `joins` says that the last token
was a text. -/
def addText (p : Progress) (joins : Bool) (place : Place) : Progress :=
  if joins then p else p.add .text place

def openElement (p : Progress) (tag : StartTag) (place : Place) : Option Progress := do
  if p.openElements.isEmpty && p.rooted then none
  let around := (p.openElements.head?.map (·.scope)).getD []
  let resolved ← tag.resolve? around
  let inner : OpenElement := ⟨tag.name, resolved.scope⟩
  return {
    nodes := ⟨.element, tag.name.localName, resolved.attributes, place⟩ :: p.nodes
    openElements := if tag.closed then p.openElements else inner :: p.openElements
    rooted := true }

/-- The end of an element, which must be the innermost one. -/
def closeElement (p : Progress) (name : QualifiedName) : Option Progress :=
  match p.openElements with
  | [] => none
  | e :: around => if e.name = name then some { p with openElements := around } else none

end Progress

/-! ## 2. Markup -/

def occursIn (word : List Char) : List Char → Bool
  | [] => word.isEmpty
  | c :: rest => word.isPrefixOf (c :: rest) || occursIn word rest

namespace Reader

/-- A comment, after the bracket that opens it. Two hyphens must not stand in its text or at the end
of it. -/
def comment : Reader Unit := do
  expect "!--".toList
  let text ← upTo "-->".toList
  guard (!occursIn "--".toList (text ++ ['-']))

/-- A processing instruction, after the bracket that opens it. A second XML declaration is none. -/
def instruction : Reader Unit := do
  guard (!"?xml ".toList.isPrefixOf (← look))
  expect ['?']
  let _ ← name
  let _ ← upTo "?>".toList

/-- The setting of a property in the XML declaration; after it the declaration ends or white space
follows. -/
def setting : Reader Unit := do
  let _ ← qualifiedName
  let value ← assigned
  guard (!value.contains '<')

/-- White space that may only be missing at the end of the XML declaration. -/
def settingGap : Reader Unit := do
  match ← look with
  | c :: rest => if isSpace c then spaces else guard ("?>".toList.isPrefixOf (c :: rest))
  | [] => pure ()

/-- The XML declaration: a version, then perhaps an encoding, then perhaps whether the document
stands alone. -/
def declaration : Reader Unit := do
  expect "<?xml".toList
  spaces
  guard ("version".toList.isPrefixOf (← look))
  setting
  settingGap
  if "encoding".toList.isPrefixOf (← look) then
    setting
    settingGap
  if "standalone".toList.isPrefixOf (← look) then
    setting
  spaces
  expect "?>".toList

/-- What stands before everything else: perhaps a byte order mark, perhaps an XML declaration. -/
def prolog : Reader Unit := do
  if (← look).head? == some '\uFEFF' then
    expect ['\uFEFF']
  if "<?xml ".toList.isPrefixOf (← look) then
    declaration

/-- Markup, after the bracket that opens it at a place; the flag of the result says whether it was a
CDATA section, and `joins` whether a text came before it. -/
def markup (p : Progress) (joins : Bool) (place : Place) : Reader (Progress × Bool) := do
  let rest ← look
  if "!--".toList.isPrefixOf rest then
    comment
    return (p.add .comment place, false)
  else if "![CDATA[".toList.isPrefixOf rest then
    guard (!p.openElements.isEmpty)
    expect "![CDATA[".toList
    let _ ← upTo "]]>".toList
    return (p.addText joins place, true)
  else if rest.head? == some '?' then
    instruction
    return (p.add .instruction place, false)
  else if rest.head? == some '/' then
    expect ['/']
    return (← ofOption (p.closeElement (← endTag)), false)
  else
    return (← ofOption (p.openElement (← startTag) place), false)

end Reader

def isCharacterData (text : List Char) : Bool :=
  text.all isAllowed && !occursIn "]]>".toList text && (resolve text).isSome

/-! ## 3. Documents -/

/-- Reads the rest of a document; `joins` says whether a text came last. -/
def readFrom (p : Progress) (joins : Bool) (c : Cursor) : Option Progress :=
  match _h : c.rest with
  | [] => if p.openElements.isEmpty && p.rooted then some p else none
  | '<' :: rest =>
    match Reader.markup p joins c.place ⟨rest, c.place.step '<'⟩ with
    | some r =>
      have : r.after.rest.length < c.rest.length := by
        rw [_h]
        exact Nat.lt_succ_of_le r.le
      readFrom r.value.1 r.value.2 r.after
    | none => none
  | ch :: rest =>
    if p.openElements.isEmpty then
      if isSpace ch then readFrom p false ⟨rest, c.place.step ch⟩ else none
    else
      match Reader.span (· != '<') ⟨rest, c.place.step ch⟩ with
      | some r =>
        have : r.after.rest.length < c.rest.length := by
          rw [_h]
          exact Nat.lt_succ_of_le r.le
        if isCharacterData (ch :: r.value) then readFrom (p.addText joins c.place) true r.after
        else none
      | none => none
termination_by c.rest.length
decreasing_by
  · assumption
  · rw [_h]
    simp
  · assumption

/-- The nodes of a document in document order, if the text is one. -/
def readDocument (s : String) : Option (List Node) := do
  let start := Cursor.ofString s
  let begun ← Reader.prolog start
  let root : Node := ⟨.root, "", [], start.place⟩
  let p ← readFrom ⟨[root], [], false⟩ false begun.after
  return p.nodes.reverse

end ContentModel.Xml
