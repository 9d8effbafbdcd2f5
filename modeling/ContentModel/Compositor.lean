import ContentModel.Error
import ContentModel.ExpandedName
import ContentModel.Vocabulary

/-!
# Compositors

How a model group combines its particles: one after the other, one of them, or all in any order.
-/

set_option autoImplicit false

namespace ContentModel

/-- How a model group combines its particles. -/
inductive Compositor
  | sequence
  | choice
  | all
  deriving DecidableEq, Inhabited

namespace Compositor

def name : Compositor → String
  | sequence => "sequence"
  | choice => "choice"
  | all => "all"

def ofName? : String → Option Compositor
  | "sequence" => some sequence
  | "choice" => some choice
  | "all" => some all
  | _ => none

/-- The compositor of the given name; any other text is refused as a value. -/
def ofName (token : String) : Except Error Compositor :=
  match ofName? token with
  | some c => .ok c
  | none => .error (.value (.compositor token))

def element (c : Compositor) : ExpandedName := ⟨some xsd10Namespace, c.name⟩

/-- The compositor of an element, which is named plainly or with the schema namespace. -/
def ofTag? (tag : String) : Option Compositor :=
  [sequence, choice, all].find? fun c => tag == c.name || tag == c.element.clark

end Compositor

end ContentModel
