import ContentModel.Occurs.Attributes
import ContentModel.Xml.Document

/-!
# Occurrence ranges of elements in a document

The range of a particle stands in the attributes `minOccurs` and `maxOccurs` of its element, which
must not be in a namespace. A fault in them is reported with the place where the element begins and
with the element's local name. All this is taken from a node alone: it does not matter how a
document becomes nodes.
-/

set_option autoImplicit false

namespace ContentModel.Xml

/-- The range that a node's attributes give. Only elements have one. -/
def Node.occurs (n : Node) : Except Error Occurs :=
  if n.kind ≠ .element then .error (.xml (.notAnElement n.kind))
  else match Occurs.read (n.attribute? "minOccurs") (n.attribute? "maxOccurs") with
    | .ok o => .ok o
    | .error cause => .error (.parse ⟨cause, some n.place.text, some n.name⟩)

end ContentModel.Xml
