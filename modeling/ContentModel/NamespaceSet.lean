/-!
# Finite sets of namespaces

A set of namespace names is kept as the list of its members in strictly increasing order of code
points. The order makes the list a normal form: two sets with the same members are equal.
-/

set_option autoImplicit false

namespace ContentModel

/-- A finite set of namespace names, in increasing order. -/
structure NamespaceSet where
  toList : List String
  increasing : toList.Pairwise (· < ·)
  deriving DecidableEq

namespace NamespaceSet

/-- Puts a name into an increasing list, unless it is there already. -/
def insertInto (x : String) : List String → List String
  | [] => [x]
  | y :: ys => if x < y then x :: y :: ys else if x = y then y :: ys else y :: insertInto x ys

theorem mem_insertInto {x z : String} {ys : List String} :
    z ∈ insertInto x ys ↔ z = x ∨ z ∈ ys := by
  induction ys with
  | nil => simp [insertInto]
  | cons y ys ih =>
    unfold insertInto
    split
    · simp
    · split
      · rename_i h
        subst h
        simp
      · simp only [List.mem_cons, ih]
        constructor
        · rintro (h | h | h) <;> simp [h]
        · rintro (h | h | h) <;> simp [h]

theorem pairwise_insertInto {x : String} {ys : List String} (h : ys.Pairwise (· < ·)) :
    (insertInto x ys).Pairwise (· < ·) := by
  induction ys with
  | nil => simp [insertInto]
  | cons y ys ih =>
    obtain ⟨hy, hys⟩ := List.pairwise_cons.1 h
    unfold insertInto
    split
    · rename_i hxy
      refine List.pairwise_cons.2 ⟨fun z hz => ?_, h⟩
      rcases List.mem_cons.1 hz with rfl | hz
      · exact hxy
      · exact String.lt_trans hxy (hy z hz)
    · split
      · exact h
      · rename_i hxy hne
        refine List.pairwise_cons.2 ⟨fun z hz => ?_, ih hys⟩
        rcases mem_insertInto.1 hz with rfl | hz
        · exact Classical.byContradiction fun hzx =>
            hne (String.le_antisymm (String.not_lt.1 hzx) (String.not_lt.1 hxy))
        · exact hy z hz

def insert (x : String) (s : NamespaceSet) : NamespaceSet :=
  ⟨insertInto x s.toList, pairwise_insertInto s.increasing⟩

/-- The set of the names in a list, in whatever order and number they stand there. -/
def ofList (names : List String) : NamespaceSet :=
  names.foldr insert ⟨[], List.Pairwise.nil⟩

def contains (s : NamespaceSet) (x : String) : Bool := s.toList.contains x

theorem contains_insert {x y : String} {s : NamespaceSet} :
    (s.insert y).contains x = (x == y || s.contains x) := by
  rw [Bool.eq_iff_iff]
  simp [contains, insert, mem_insertInto]

theorem contains_ofList {x : String} {names : List String} :
    (ofList names).contains x = names.contains x := by
  induction names with
  | nil => rfl
  | cons y ys ih =>
    rw [ofList, List.foldr_cons, ← ofList, contains_insert, ih, List.contains_cons]

end NamespaceSet

end ContentModel
