/-!
# Characters of XML documents

Which characters a document may hold, which of them are white space, and which may stand in a name.
These are the tables of the XML recommendation; a digit, a hyphen or a full stop may stand in a name
but not begin it.
-/

set_option autoImplicit false

namespace ContentModel.Xml

def isSpace (c : Char) : Bool := c == ' ' || c == '\t' || c == '\n' || c == '\r'

def isAllowed (c : Char) : Bool :=
  (0x20 ≤ c.val || isSpace c) && c.val != 0xFFFE && c.val != 0xFFFF

/-- The ranges beyond ASCII of the characters that may begin a name. -/
def nameStartRanges : List (UInt32 × UInt32) :=
  [(0xC0, 0xD6), (0xD8, 0xF6), (0xF8, 0x2FF), (0x370, 0x37D), (0x37F, 0x1FFF), (0x200C, 0x200D),
    (0x2070, 0x218F), (0x2C00, 0x2FEF), (0x3001, 0xD7FF), (0xF900, 0xFDCF), (0xFDF0, 0xFFFD),
    (0x10000, 0xEFFFF)]

/-- The ranges beyond ASCII of the characters that may stand in a name but not begin it. -/
def nameOnlyRanges : List (UInt32 × UInt32) := [(0xB7, 0xB7), (0x300, 0x36F), (0x203F, 0x2040)]

/-- Whether a character lies in one of some ranges, both ends of each included. -/
def inRanges (ranges : List (UInt32 × UInt32)) (c : Char) : Bool :=
  ranges.any fun r => r.1 ≤ c.val && c.val ≤ r.2

def isNameStart (c : Char) : Bool :=
  c.isAlpha || c == '_' || c == ':' || inRanges nameStartRanges c

def isNameChar (c : Char) : Bool :=
  isNameStart c || c.isDigit || c == '-' || c == '.' || inRanges nameOnlyRanges c

end ContentModel.Xml
