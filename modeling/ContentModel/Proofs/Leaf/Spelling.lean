import ContentModel.Proofs.Tree

/-!
# What a spelling stands for

A name to be matched is a text beside a default namespace. If the text begins with a brace it is
read in Clark's notation, and otherwise it is a local name in the default namespace, the empty
namespace being none. So a spelling stands for an expanded name (`ExpandedName.spelled?`), and for
element declarations and wildcards alike

> **what is accepted depends on nothing but the name that is spelled** (`Leaf.accepts_iff`).

For an element declaration this needs that its own name is *proper*: one in the namespace of empty
name is equal to no name that a spelling stands for, but a local name beside the empty default is
compared with it part by part. Every name that reads back from Clark's notation is proper
(`ExpandedName.proper_of_ofClark?`).
-/

set_option autoImplicit false

namespace ContentModel

/-! ## 1. Names that are read -/

namespace ExpandedName

/-- The name is in a namespace of non-empty name, or in none. -/
def Proper (q : ExpandedName) : Prop := q.namespaceName ≠ some ""

/-- Whatever is read in Clark's notation is proper: empty braces stand for no namespace. -/
theorem proper_of_ofClark? {s : String} {q : ExpandedName} (h : ofClark? s = some q) :
    q.Proper := by
  unfold ofClark? ofClarkChars? at h
  split at h
  · cases h
  · split at h
    · cases h
      rename_i r _ _ _
      unfold Proper
      cases huri : r.takeWhile (· != '}') with
      | nil => simp
      | cons c cs => simp [String.ofList_eq_empty_iff]
    · cases h
  · cases h
    simp [Proper]

theorem ofClark?_empty : ofClark? "" = none := by
  simp [ofClark?, ofClarkChars?]

/-- A text that does not begin with a brace is a local name. -/
theorem ofClark?_of_plain {s : String} (hne : s ≠ "") (hbrace : s.toList.head? ≠ some '{') :
    ofClark? s = some ⟨none, s⟩ := by
  unfold ofClark? ofClarkChars?
  split
  · rename_i hnil
    exact absurd (String.toList_eq_nil_iff.1 hnil) hne
  · rename_i r hr
    simp [hr] at hbrace
  · rename_i c cs hcs
    rw [← hcs, String.ofList_toList]

/-! ## 2. Names that are spelled -/

/-- The local name in the default namespace; an empty one is none. -/
def qualified (default : Option String) (loc : String) : ExpandedName :=
  ⟨default.filter (· ≠ ""), loc⟩

@[simp] theorem namespaceUri_qualified (default : Option String) (loc : String) :
    (qualified default loc).namespaceUri = default.getD "" := by
  cases default with
  | none => rfl
  | some uri => by_cases h : uri = "" <;> simp [qualified, namespaceUri, Option.filter, h]

/-- A proper name is known by the name of its namespace and its local name. -/
theorem Proper.qualified_eq_iff {q : ExpandedName} (h : q.Proper) {uri loc : String} :
    qualified (some uri) loc = q ↔ q.namespaceUri = uri ∧ q.localName = loc := by
  obtain ⟨name, text⟩ := q
  cases name with
  | none => by_cases hu : uri = "" <;> simp [qualified, namespaceUri, Option.filter, hu, eq_comm]
  | some own =>
    have hown : own ≠ "" := fun e => h (congrArg some e)
    by_cases hu : uri = "" <;> simp [qualified, namespaceUri, Option.filter, hu, hown, eq_comm]

/-- The name that a spelling stands for beside a default namespace, which a local name is taken to
be in. -/
def spelled? (spelling : String) (default : Option String) : Option ExpandedName :=
  if spelling = "" then none
  else if spelling.toList.head? = some '{' then ofClark? spelling
  else some (qualified default spelling)

theorem spelled?_of_braced {s : String} (h : s.toList.head? = some '{') (d : Option String) :
    spelled? s d = ofClark? s := by
  have hne : s ≠ "" := fun e => by simp [e] at h
  rw [spelled?, if_neg hne, if_pos h]

theorem spelled?_of_plain {s : String} (hne : s ≠ "") (h : s.toList.head? ≠ some '{')
    (d : Option String) :
    spelled? s d = some (qualified d s) := by
  rw [spelled?, if_neg hne, if_neg h]

/-- Without a default namespace, a spelling is Clark's notation. -/
theorem spelled?_none (s : String) : spelled? s none = ofClark? s := by
  by_cases hne : s = ""
  · rw [hne, ofClark?_empty]
    rfl
  · by_cases h : s.toList.head? = some '{'
    · exact spelled?_of_braced h none
    · rw [spelled?_of_plain hne h, ofClark?_of_plain hne h]
      rfl

/-- There are names in every namespace. -/
theorem exists_spelled?_namespaceUri (uri : String) :
    ∃ s d q, spelled? s d = some q ∧ q.namespaceUri = uri :=
  ⟨"a", some uri, _, spelled?_of_plain (by decide) (by decide) _, namespaceUri_qualified _ _⟩

end ExpandedName

/-! ## 3. Names that are accepted -/

open ExpandedName

/-- The leaf stands for elements of a name. -/
def Leaf.Covers : Leaf → ExpandedName → Prop
  | .element e, q => q = e.name
  | .wildcard w, q => w.constraint.allows q.namespaceUri = true
  | .custom _, _ => False

/-- The name of an element declaration is proper. -/
def Leaf.Proper (l : Leaf) : Prop := ∀ e, l = .element e → e.name.Proper

theorem ElementDecl.accepts_iff {e : ElementDecl} (h : e.name.Proper) (s : String)
    (d : Option String) :
    e.accepts s d = true ↔ spelled? s d = some e.name := by
  unfold ElementDecl.accepts
  by_cases hne : s = ""
  · simp [hne, spelled?]
  · rw [if_neg (by simpa using hne)]
    by_cases hb : s.toList.head? = some '{'
    · simp [hb, spelled?_of_braced hb]
    · rw [spelled?_of_plain hne hb]
      cases d with
      | none => simp [ofClark?_of_plain hne hb, qualified]
      | some ns =>
        have hplain : (s.toList.head? == some '{') = false := beq_false_of_ne hb
        simp [hplain, h.qualified_eq_iff]

theorem Wildcard.accepts_iff (w : Wildcard) (s : String) (d : Option String) :
    w.accepts s d = true ↔
      ∃ q, spelled? s d = some q ∧ w.constraint.allows q.namespaceUri = true := by
  unfold Wildcard.accepts
  by_cases hne : s = ""
  · simp [hne, spelled?]
  · rw [if_neg (by simpa using hne)]
    by_cases hb : s.toList.head? = some '{'
    · rw [if_pos (by simpa using hb), spelled?_of_braced hb]
      cases ofClark? s with
      | none => simp
      | some q => simp
    · rw [if_neg (by simpa using hb), spelled?_of_plain hne hb]
      simp

/-- **What is accepted is the spelling of a name that the leaf covers.** -/
theorem Leaf.accepts_iff {l : Leaf} (hl : l.declared = true) (hproper : l.Proper) (s : String)
    (d : Option String) : l.accepts s d = true ↔ ∃ q, spelled? s d = some q ∧ l.Covers q := by
  cases l with
  | element e => simp [Leaf.accepts, Leaf.Covers, ElementDecl.accepts_iff (hproper e rfl)]
  | wildcard w => exact w.accepts_iff s d
  | custom l => cases hl

end ContentModel
