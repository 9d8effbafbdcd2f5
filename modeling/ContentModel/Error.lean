import ContentModel.Xml.NodeKind

/-!
# What can go wrong

Every failure of the library is a value of `Error`, built from its cause; the wording is in the
`message` functions of this module and nowhere else. Each kind also has a cause of free text, for a
leaf kind or a caller that brings a failure of its own.
-/

set_option autoImplicit false

namespace ContentModel

/-! ## 1. Texts that do not read as what they should be -/

/-- Why an attribute text, or a pair of bounds, was refused. -/
inductive ParseCause
  /-- The text of `minOccurs` is no integer. -/
  | minNotInteger
  /-- The lower bound is negative or too large. -/
  | minOutOfRange
  /-- The lower bound is above 1 while `maxOccurs`, which is then 1, is missing. -/
  | minAboveDefaultMax
  /-- The lower bound is above the given upper bound. -/
  | maxBelowMin
  /-- The text of `maxOccurs` is neither a bound nor the word `unbounded`. -/
  | maxMalformed
  /-- Two numbers that are no range. -/
  | reversed (min max : UInt32)
  /-- A keyword that a namespace list does not know. -/
  | namespaceKeyword (token source : String)
  | other (text : String)
  deriving DecidableEq

def ParseCause.message : ParseCause → String
  | minNotInteger => "minOccurs value is not an integer value"
  | minOutOfRange => "minOccurs value must be a non negative integer"
  | minAboveDefaultMax => "minOccurs must be lesser or equal than maxOccurs"
  | maxBelowMin => "maxOccurs must be 'unbounded' or greater than minOccurs"
  | maxMalformed => "maxOccurs value must be a non negative integer or 'unbounded'"
  | reversed min max =>
    "minOccurs (" ++ toString min.toNat ++ ") must be lesser or equal than maxOccurs ("
      ++ toString max.toNat ++ ")"
  | namespaceKeyword token source =>
    "wrong value '" ++ token ++ "' in '" ++ source ++ "' attribute"
  | other text => text

/-- A refused text, with the place it stands at where that is known. -/
structure ParseError where
  cause : ParseCause
  location : Option String := none
  source : Option String := none
  deriving DecidableEq

/-- The wording of the cause, then a paragraph for each thing known about the place. -/
def ParseError.message (e : ParseError) : String :=
  e.cause.message
    ++ (e.location.elim "" fun place => "\n\nLocation: " ++ place)
    ++ (e.source.elim "" fun text => "\n\nSource:\n" ++ text)

/-! ## 2. Failures about a model -/

/-- Why a value was refused. -/
inductive ValueCause
  /-- The name of no compositor. -/
  | compositor (token : String)
  | other (text : String)
  deriving DecidableEq

def ValueCause.message : ValueCause → String
  | compositor token => "invalid model '" ++ token ++ "' for a group"
  | other text => text

/-- What is wrong with a model. -/
inductive ModelCause
  /-- The particle, given by its description, lies nowhere in the group. -/
  | notAParticle (item : String)
  | other (text : String)
  deriving DecidableEq

/-- The wording of what is wrong with a model. -/
def ModelCause.message : ModelCause → String
  | notAParticle item => item ++ " is not a particle of the model group"
  | other text => text

/-- A failure about a model, with the component it concerns. -/
structure ModelError where
  cause : ModelCause
  component : Option String := none
  deriving DecidableEq

/-- The wording of the cause and of the component. -/
def ModelError.message (e : ModelError) : String :=
  e.cause.message ++ (e.component.elim "" fun name => " in " ++ name)

/-- A group was reached at a depth that the limit does not allow. -/
structure DepthError where
  depth : Nat
  limit : Nat
  /-- The group that was being walked, by its description. -/
  group : Option String := none
  deriving DecidableEq

/-- The limit, the depth, and the group where one is named. -/
def DepthError.message (e : DepthError) : String :=
  "Maximum model recursion depth (" ++ toString e.limit ++ ") exceeded (at depth "
    ++ toString e.depth ++ ")" ++ (e.group.elim "" fun name => " while iterating " ++ name)

/-! ## 3. Failures about documents -/

/-- Why a node of a document was refused. -/
inductive XmlCause
  /-- Only elements have occurrence attributes. -/
  | notAnElement (found : Xml.NodeKind)
  | other (text : String)
  deriving DecidableEq

def XmlCause.message : XmlCause → String
  | notAnElement found => "expected an element node, found " ++ found.label
  | other text => text

/-! ## 4. All of them -/

/-- A failure of the library. -/
inductive Error
  | parse (e : ParseError)
  | value (cause : ValueCause)
  | model (e : ModelError)
  | depth (e : DepthError)
  | xml (cause : XmlCause)
  | encode (text : String)
  | decode (text : String)
  deriving DecidableEq

namespace Error

def message : Error → String
  | parse e => "parse error: " ++ e.message
  | value cause => "value error: " ++ cause.message
  | model e => "model error: " ++ e.message
  | depth e => "model depth error: " ++ e.message
  | xml cause => "XML error: " ++ cause.message
  | encode text => "encoding error: " ++ text
  | decode text => "decoding error: " ++ text

def isDepthExceeded : Error → Bool
  | depth _ => true
  | _ => false

/-- Whether the failure is about a model, such as a particle that lies nowhere in it. -/
def isNotAMember : Error → Bool
  | model _ => true
  | _ => false

end Error

end ContentModel
