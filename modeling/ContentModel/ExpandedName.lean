/-!
# Expanded names

The name of an element is a local name together with the namespace it belongs to, if any. Its text
is Clark's notation: the namespace in braces, then the local name. Reading cuts at the *first*
closing brace, so a namespace that holds one does not come back, and empty braces stand for no
namespace.
-/

set_option autoImplicit false

namespace ContentModel

/-- A local name in a namespace, or in none. The empty string is a namespace of its own. -/
structure ExpandedName where
  namespaceName : Option String
  localName : String
  deriving DecidableEq

namespace ExpandedName

/-- The name of the namespace, empty where there is none. -/
def namespaceUri (name : ExpandedName) : String := name.namespaceName.getD ""

def clarkChars (name : ExpandedName) : List Char :=
  match name.namespaceName with
  | none => name.localName.toList
  | some uri => '{' :: uri.toList ++ '}' :: name.localName.toList

def clark (name : ExpandedName) : String := String.ofList name.clarkChars

/-- Reads Clark's notation. The local name must not be empty, and braces must close. -/
def ofClarkChars? : List Char → Option ExpandedName
  | [] => none
  | '{' :: r =>
    match r.dropWhile (· != '}') with
    | '}' :: c :: cs =>
      let uri := r.takeWhile (· != '}')
      some ⟨if uri.isEmpty then none else some (String.ofList uri), String.ofList (c :: cs)⟩
    | _ => none
  | c :: cs => some ⟨none, String.ofList (c :: cs)⟩

def ofClark? (s : String) : Option ExpandedName := ofClarkChars? s.toList

/-- Names in no namespace come first; then the namespaces decide, then the local names, both by
code points. -/
def le (a b : ExpandedName) : Bool :=
  match a.namespaceName, b.namespaceName with
  | none, some _ => true
  | some _, none => false
  | none, none => a.localName ≤ b.localName
  | some x, some y => if x = y then a.localName ≤ b.localName else x ≤ y

/-- The names in order; equal names stay side by side. -/
def sort (names : List ExpandedName) : List ExpandedName := names.mergeSort le

end ExpandedName

end ContentModel
