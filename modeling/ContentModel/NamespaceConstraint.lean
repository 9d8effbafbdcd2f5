import ContentModel.Error
import ContentModel.NamespaceSet
import ContentModel.Text.Blank

/-!
# Namespace constraints

A wildcard says of which namespaces it admits elements: of any, of all but its own, of those in a
list, or of those *not* in a list. The absence of a namespace counts as the namespace whose name is
empty. Every constraint but a list admits all namespaces except finitely many, so two of them always
have a namespace in common, and only lists have to be looked through.
-/

set_option autoImplicit false

namespace ContentModel

/-- The namespaces that a wildcard admits. -/
inductive NamespaceConstraint
  | any
  /-- A namespace, and not the target namespace. -/
  | other (target : Option String)
  | enumeration (names : NamespaceSet)
  | not (names : NamespaceSet)
  deriving DecidableEq

namespace NamespaceConstraint

/-! ## 1. Reading -/

/-- The namespace that a word of a list stands for. Words that begin with two hashes are
keywords. -/
def wordNamespace (source : String) (target : Option String) (word : List Char) :
    Except ParseCause String :=
  if word = "##local".toList then .ok ""
  else if word = "##targetNamespace".toList then .ok (target.getD "")
  else if "##".toList.isPrefixOf word then .error (.namespaceKeyword (String.ofList word) source)
  else .ok (String.ofList word)

/-- The set of namespaces that a list of words stands for, or its first unknown keyword. -/
def readWords (source : String) (target : Option String) (words : List (List Char)) :
    Except ParseCause NamespaceSet :=
  NamespaceSet.ofList <$> words.mapM (wordNamespace source target)

def ofNamespace (value : String) (target : Option String) : Except ParseCause NamespaceConstraint :=
  let cs := Text.trim value.toList
  if cs = "##any".toList then .ok any
  else if cs = "##other".toList then .ok (other target)
  else enumeration <$> readWords "namespace" target (Text.words cs)

/-- Reads the attribute that names the namespaces that are not admitted. -/
def ofNotNamespace (value : String) (target : Option String) :
    Except ParseCause NamespaceConstraint :=
  not <$> readWords "notNamespace" target (Text.words value.toList)

/-! ## 2. What is admitted -/

def allows : NamespaceConstraint → String → Bool
  | any, _ => true
  | other target, ns => ns != "" && target != some ns
  | enumeration names, ns => names.contains ns
  | not names, ns => !names.contains ns

def overlaps : NamespaceConstraint → NamespaceConstraint → Bool
  | enumeration names, c => names.toList.any c.allows
  | c, enumeration names => names.toList.any c.allows
  | _, _ => true

end NamespaceConstraint

end ContentModel
