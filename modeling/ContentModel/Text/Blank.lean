/-!
# White space

The blank characters are those with the Unicode property *White_Space*, all twenty-five of them:
attribute values are trimmed of them and namespace lists are cut at them. Format characters such as
U+200B or U+FEFF, and the separators U+001C to U+001F, are not blank.
-/

set_option autoImplicit false

namespace ContentModel.Text

/-- The ranges of the property *White_Space*, both ends included. -/
def blankRanges : List (UInt32 × UInt32) :=
  [(0x09, 0x0D), (0x20, 0x20), (0x85, 0x85), (0xA0, 0xA0), (0x1680, 0x1680), (0x2000, 0x200A),
    (0x2028, 0x2029), (0x202F, 0x202F), (0x205F, 0x205F), (0x3000, 0x3000)]

/-- A blank character is one of the property *White_Space*. -/
def isBlank (c : Char) : Bool :=
  blankRanges.any fun r => r.1 ≤ c.val && c.val ≤ r.2

/-- The text without the blanks at its two ends. -/
def trim (cs : List Char) : List Char :=
  ((cs.dropWhile isBlank).reverse.dropWhile isBlank).reverse

theorem length_dropWhile_le {α : Type} (p : α → Bool) (l : List α) :
    (l.dropWhile p).length ≤ l.length :=
  (List.dropWhile_sublist p).length_le

/-- The maximal runs of characters that are not blank, in order. -/
def words : List Char → List (List Char)
  | [] => []
  | c :: r =>
    if isBlank c then words r
    else (c :: r.takeWhile (!isBlank ·)) :: words (r.dropWhile (!isBlank ·))
termination_by cs => cs.length
decreasing_by
  · simp
  · have := length_dropWhile_le (!isBlank ·) r
    simp only [List.length_cons]
    omega

end ContentModel.Text
