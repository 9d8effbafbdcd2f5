import ContentModel.Xml.Character

/-!
# Reading characters

A cursor stands in a document and knows its place: the row, and the column in characters, both from
1 on. A reader takes characters from a cursor. It never gives any back, and its result says so,
which is why loops over readers end.
-/

set_option autoImplicit false

namespace ContentModel.Xml

/-! ## 1. Cursors -/

/-- A place in a document. -/
structure Place where
  row : Nat
  col : Nat

/-- The place after a character. Rows end at line feeds. -/
def Place.step (p : Place) (c : Char) : Place :=
  if c = '\n' then ⟨p.row + 1, 1⟩ else ⟨p.row, p.col + 1⟩

def Place.text (p : Place) : String := toString p.row ++ ":" ++ toString p.col

/-- The characters still to be read, and the place of the first of them. -/
structure Cursor where
  rest : List Char
  place : Place

def Cursor.ofString (s : String) : Cursor := ⟨s.toList, ⟨1, 1⟩⟩

/-! ## 2. Readers -/

/-- What was read at a cursor, and where that ended. -/
structure Read (α : Type) (c : Cursor) where
  value : α
  after : Cursor
  le : after.rest.length ≤ c.rest.length

/-- Reads something at a cursor, unless it does not stand there. -/
def Reader (α : Type) : Type := (c : Cursor) → Option (Read α c)

/-- Cuts a text at the first occurrence of some mark; `before` is the text read already, last
character first. -/
def cut (mark before : List Char) (rest : List Char) : Option (List Char × List Char) :=
  if mark.isPrefixOf rest then some (before.reverse, rest.drop mark.length)
  else match rest with
    | [] => none
    | c :: rest => if isAllowed c then cut mark (c :: before) rest else none

theorem length_cut {mark before rest text after : List Char}
    (h : cut mark before rest = some (text, after)) : after.length ≤ rest.length := by
  fun_induction cut mark before rest with
  | case1 before rest =>
    simp only [Option.some.injEq, Prod.mk.injEq] at h
    obtain ⟨_, rfl⟩ := h
    simp
  | case2 => simp at h
  | case3 before _ c rest _ ih => exact Nat.le_succ_of_le (ih h)
  | case4 => simp at h

namespace Reader

instance : Monad Reader where
  pure a := fun c => some ⟨a, c, Nat.le_refl _⟩
  bind p f := fun c =>
    match p c with
    | none => none
    | some r =>
      match f r.value r.after with
      | none => none
      | some s => some ⟨s.value, s.after, Nat.le_trans s.le r.le⟩

def fail {α : Type} : Reader α := fun _ => none

def guard (condition : Bool) : Reader Unit := if condition then pure () else fail

def look : Reader (List Char) := fun c => some ⟨c.rest, c, Nat.le_refl _⟩

def ofOption {α : Type} : Option α → Reader α
  | some a => pure a
  | none => fail

def span (p : Char → Bool) : Reader (List Char) := fun c =>
  let taken := c.rest.takeWhile p
  some ⟨taken, ⟨c.rest.dropWhile p, taken.foldl Place.step c.place⟩,
    (List.dropWhile_sublist p).length_le⟩

def expect (word : List Char) : Reader Unit := fun c =>
  if word.isPrefixOf c.rest then
    some ⟨(), ⟨c.rest.drop word.length, word.foldl Place.step c.place⟩, by simp⟩
  else none

/-- The text up to the first occurrence of some mark, which is read too. The text must consist of
characters that a document may hold. -/
def upTo (mark : List Char) : Reader (List Char) := fun c =>
  match h : cut mark [] c.rest with
  | some (text, rest) =>
    some ⟨text, ⟨rest, (text ++ mark).foldl Place.step c.place⟩, length_cut h⟩
  | none => none

def spaces : Reader Unit := do let _ ← span isSpace

def name : Reader (List Char) := do
  match ← look with
  | c :: _ => if isNameStart c then span isNameChar else fail
  | [] => fail

end Reader

end ContentModel.Xml
