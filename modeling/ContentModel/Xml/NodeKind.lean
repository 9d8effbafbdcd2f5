/-!
# Kinds of document nodes
-/

set_option autoImplicit false

namespace ContentModel.Xml

/-- What a node of a document is. Character data and CDATA sections are both text. -/
inductive NodeKind
  | root
  | element
  | instruction
  | comment
  | text
  deriving DecidableEq

/-- The word for a kind of node in messages. -/
def NodeKind.label : NodeKind → String
  | root => "Root"
  | element => "Element"
  | instruction => "PI"
  | comment => "Comment"
  | text => "Text"

end ContentModel.Xml
