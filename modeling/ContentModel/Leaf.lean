import ContentModel.ExpandedName
import ContentModel.NamespaceConstraint
import ContentModel.Occurs

/-!
# Leaves of a content model

A leaf stands for elements of a document: for those of one name, for those of the namespaces a
wildcard admits, or for whatever a leaf kind supplied from outside accepts. A name to be matched is
either in Clark's notation or a local name beside a default namespace; both spellings of an expanded
name are matched alike.
-/

set_option autoImplicit false

namespace ContentModel

/-! ## 1. Element declarations -/

/-- The declaration of an element, with the head of its substitution group if it has one. -/
structure ElementDecl where
  name : ExpandedName
  occurs : Occurs
  head : Option ExpandedName

namespace ElementDecl

/-- Whether an element of the given spelling is declared here. With a default namespace a local name
is taken to be in it; otherwise the spelling is read in Clark's notation. -/
def accepts (e : ElementDecl) (spelling : String) (default : Option String) : Bool :=
  if spelling == "" then false
  else match spelling.toList.head? == some '{', default with
    | false, some ns => e.name.namespaceUri == ns && e.name.localName == spelling
    | _, _ => ExpandedName.ofClark? spelling == some e.name

/-- One of the two declares the head of the other's substitution group. -/
def substitutes (e f : ElementDecl) : Bool := f.head == some e.name || e.head == some f.name

def text (e : ElementDecl) : String :=
  "XsdElement(name='" ++ e.name.clark ++ "', occurs=" ++ e.occurs.text ++ ")"

end ElementDecl

/-! ## 2. Wildcards -/

/-- A leaf for elements of any name in the admitted namespaces. -/
structure Wildcard where
  constraint : NamespaceConstraint
  occurs : Occurs

namespace Wildcard

def anything : Wildcard := ⟨.any, .zeroOrMore⟩

/-- Whether the namespace of the given spelling is admitted. -/
def accepts (w : Wildcard) (spelling : String) (default : Option String) : Bool :=
  if spelling == "" then false
  else if spelling.toList.head? == some '{' then
    match ExpandedName.ofClark? spelling with
    | some name => w.constraint.allows name.namespaceUri
    | none => false
  else w.constraint.allows (default.getD "")

def text (w : Wildcard) : String := "XsdAnyElement(occurs=" ++ w.occurs.text ++ ")"

end Wildcard

/-! ## 3. Leaves of other kinds -/

/-- A leaf of a kind that this library does not know. It brings its own matching, its own bounds
once its content is taken into account, which may fail, its own verdict on whether it may be absent,
and the word for its kind. It claims no overlap with any leaf. -/
structure CustomLeaf where
  label : String
  name : Option ExpandedName
  occurs : Occurs
  accepts : String → Option String → Bool
  effectiveMin : Except Error UInt32
  effectiveMax : Except Error Bound
  emptiable : Bool := occurs.emptiable

def CustomLeaf.text (l : CustomLeaf) : String := l.label ++ "(occurs=" ++ l.occurs.text ++ ")"

/-! ## 4. Leaves -/

/-- A leaf of a content model. -/
inductive Leaf
  | element (e : ElementDecl)
  | wildcard (w : Wildcard)
  | custom (l : CustomLeaf)

namespace Leaf

def occurs : Leaf → Occurs
  | element e => e.occurs
  | wildcard w => w.occurs
  | custom l => l.occurs

/-- The name of the elements the leaf stands for, where it has one. -/
def name : Leaf → Option ExpandedName
  | element e => some e.name
  | wildcard _ => none
  | custom l => l.name

/-- The lower bound once the leaf's content is taken into account: the declared one, save for kinds
that say otherwise. -/
def effectiveMin : Leaf → Except Error UInt32
  | element e => .ok e.occurs.min
  | wildcard w => .ok w.occurs.min
  | custom l => l.effectiveMin

/-- The upper bound once the leaf's content is taken into account. -/
def effectiveMax : Leaf → Except Error Bound
  | element e => .ok e.occurs.max
  | wildcard w => .ok w.occurs.max
  | custom l => l.effectiveMax

/-- Whether the leaf may be absent: as its declared range says, save for kinds that say
otherwise. -/
def emptiable : Leaf → Bool
  | element e => e.occurs.emptiable
  | wildcard w => w.occurs.emptiable
  | custom l => l.emptiable

/-- Whether the leaf stands for an element of the given spelling. -/
def accepts : Leaf → String → Option String → Bool
  | element e => e.accepts
  | wildcard w => w.accepts
  | custom l => l.accepts

/-- Whether the first leaf, going by what it knows of the second, may stand for an element of it. -/
def overlaps : Leaf → Leaf → Bool
  | element e, other =>
    match other.name, other with
    | some name, element f => name == e.name || e.substitutes f
    | some name, _ => name == e.name
    | none, _ => other.accepts e.name.clark none
  | wildcard w, other =>
    match other.name, other with
    | some name, _ => w.constraint.allows name.namespaceUri
    | none, wildcard v => w.constraint.overlaps v.constraint
    | none, _ => false
  | custom _, _ => false

def text : Leaf → String
  | element e => e.text
  | wildcard w => w.text
  | custom l => l.text

end Leaf

end ContentModel
