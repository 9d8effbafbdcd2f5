import ContentModel.Json.Value
import ContentModel.Text.Blank
import ContentModel.Text.Numeral

/-!
# JSON tokens

A JSON text is cut into tokens from left to right. Space, tab, line feed and carriage return stand
between tokens and nowhere else, so a byte order mark or a no-break space is an error. A string
holds no control characters; its escapes are resolved, and a surrogate without its partner leaves it
without a text.
-/

set_option autoImplicit false

namespace ContentModel.Json

/-- A token of a JSON text. -/
inductive Token
  | openBrace
  | closeBrace
  | openBracket
  | closeBracket
  | colon
  | comma
  | null
  | bool (b : Bool)
  | number (whole : Option Nat)
  | string (text : Option String)

/-! ## 1. Strings -/

def hexValue? (c : Char) : Option Nat :=
  if '0' ≤ c ∧ c ≤ '9' then some (c.toNat - '0'.toNat)
  else if 'a' ≤ c ∧ c ≤ 'f' then some (c.toNat - 'a'.toNat + 10)
  else if 'A' ≤ c ∧ c ≤ 'F' then some (c.toNat - 'A'.toNat + 10)
  else none

def unit? (a b c d : Char) : Option Nat := do
  return (((← hexValue? a) * 16 + (← hexValue? b)) * 16 + (← hexValue? c)) * 16 + (← hexValue? d)

def leading (u : Nat) : Bool := 0xD800 ≤ u && u < 0xDC00

def trailing (u : Nat) : Bool := 0xDC00 ≤ u && u < 0xE000

def paired (u v : Nat) : Char := Char.ofNat (0x10000 + (u - 0xD800) * 0x400 + (v - 0xDC00))

/-- The partner that follows the first half of a surrogate pair, if it does. -/
def partner? : List Char → Option (Nat × List Char)
  | '\\' :: 'u' :: a :: b :: c :: d :: rest =>
    match unit? a b c d with
    | some v => if trailing v then some (v, rest) else none
    | none => none
  | _ => none

theorem length_partner {cs rest : List Char} {v : Nat} (h : partner? cs = some (v, rest)) :
    rest.length < cs.length := by
  unfold partner? at h
  split at h
  · split at h
    · split at h
      · simp only [Option.some.injEq, Prod.mk.injEq] at h
        obtain ⟨_, rfl⟩ := h
        simp only [List.length_cons]
        omega
      · simp at h
    · simp at h
  · simp at h

/-- What an escape other than a numeric one stands for. -/
def escaped? : Char → Option Char
  | '"' => some '"'
  | '\\' => some '\\'
  | '/' => some '/'
  | 'b' => some '\x08'
  | 'f' => some '\x0c'
  | 'n' => some '\n'
  | 'r' => some '\r'
  | 't' => some '\t'
  | _ => none

/-- Reads one character of a string; `none` in its place is a surrogate without its partner. -/
def readChar : List Char → Option (Option Char × List Char)
  | '\\' :: 'u' :: a :: b :: c :: d :: rest =>
    match unit? a b c d with
    | none => none
    | some u =>
      if leading u then
        match partner? rest with
        | some (v, rest) => some (some (paired u v), rest)
        | none => some (none, rest)
      else if trailing u then some (none, rest)
      else some (some (Char.ofNat u), rest)
  | '\\' :: e :: rest => (escaped? e).map fun c => (some c, rest)
  | c :: rest => if c.toNat < 0x20 || c == '\\' then none else some (some c, rest)
  | [] => none

theorem length_readChar {cs rest : List Char} {c : Option Char}
    (h : readChar cs = some (c, rest)) : rest.length < cs.length := by
  unfold readChar at h
  split at h
  · split at h
    · simp at h
    · split at h
      · split at h
        · rename_i hp
          have := length_partner hp
          simp only [Option.some.injEq, Prod.mk.injEq] at h
          obtain ⟨_, rfl⟩ := h
          simp only [List.length_cons]
          omega
        · simp only [Option.some.injEq, Prod.mk.injEq] at h
          obtain ⟨_, rfl⟩ := h
          simp only [List.length_cons]
          omega
      · split at h <;>
        · simp only [Option.some.injEq, Prod.mk.injEq] at h
          obtain ⟨_, rfl⟩ := h
          simp only [List.length_cons]
          omega
  · obtain ⟨_, _, h⟩ := Option.map_eq_some_iff.1 h
    simp only [Prod.mk.injEq] at h
    obtain ⟨_, rfl⟩ := h
    simp only [List.length_cons]
    omega
  · split at h
    · simp at h
    · simp only [Option.some.injEq, Prod.mk.injEq] at h
      obtain ⟨_, rfl⟩ := h
      simp
  · simp at h

/-- Reads a string after its opening quote; `text` is what was read of it, last character first,
as long as it has a text. -/
def readString (text : Option (List Char)) (cs : List Char) :
    Option (Option String × List Char) :=
  match cs with
  | '"' :: rest => some (text.map fun t => String.ofList t.reverse, rest)
  | cs =>
    match _h : readChar cs with
    | none => none
    | some (c, rest) => readString (c.bind fun c => text.map (c :: ·)) rest
termination_by cs.length
decreasing_by exact length_readChar _h

theorem length_readString {text : Option (List Char)} {cs rest : List Char} {s : Option String}
    (h : readString text cs = some (s, rest)) : rest.length < cs.length := by
  fun_induction readString text cs with
  | case1 text r =>
    simp only [Option.some.injEq, Prod.mk.injEq] at h
    obtain ⟨_, rfl⟩ := h
    simp
  | case2 => simp at h
  | case3 text cs _ c r hc ih => exact Nat.lt_trans (ih h) (length_readChar hc)

/-! ## 2. Numbers -/

def readDigits (cs : List Char) : Option (List Char × List Char) :=
  let ds := cs.takeWhile Char.isDigit
  if ds.isEmpty then none else some (ds, cs.dropWhile Char.isDigit)

/-- Reads the digits before the point: a zero, or a run that does not begin with one. -/
def readWhole : List Char → Option (List Char × List Char)
  | '0' :: rest => some (['0'], rest)
  | cs => readDigits cs

/-- Reads past a fraction, if there is one; the flag says whether there was. -/
def skipFraction : List Char → Option (Bool × List Char)
  | '.' :: rest => (readDigits rest).map fun r => (true, r.2)
  | cs => some (false, cs)

/-- Reads past an exponent, if there is one; the flag says whether there was. -/
def skipExponent : List Char → Option (Bool × List Char)
  | 'e' :: '+' :: rest | 'e' :: '-' :: rest | 'E' :: '+' :: rest | 'E' :: '-' :: rest
  | 'e' :: rest | 'E' :: rest => (readDigits rest).map fun r => (true, r.2)
  | cs => some (false, cs)

/-- Reads a number without its sign; its value is kept if it is written plainly. -/
def readUnsigned (cs : List Char) : Option (Option Nat × List Char) := do
  let (ds, cs) ← readWhole cs
  let (fraction, cs) ← skipFraction cs
  let (exponent, cs) ← skipExponent cs
  return (if fraction || exponent then none else some (Text.digitsValue ds), cs)

def readNumber : List Char → Option (Option Nat × List Char)
  | '-' :: rest => (readUnsigned rest).map fun r => (none, r.2)
  | cs => readUnsigned cs

theorem length_readDigits {cs ds rest : List Char} (h : readDigits cs = some (ds, rest)) :
    rest.length < cs.length := by
  simp only [readDigits] at h
  split at h
  · simp at h
  · rename_i hne
    simp only [Option.some.injEq, Prod.mk.injEq] at h
    obtain ⟨_, rfl⟩ := h
    have := congrArg List.length (List.takeWhile_append_dropWhile (p := Char.isDigit) (l := cs))
    rw [List.length_append] at this
    have : 0 < (cs.takeWhile Char.isDigit).length := by
      cases hd : cs.takeWhile Char.isDigit with
      | nil => rw [hd] at hne; simp at hne
      | cons => simp
    omega

theorem length_readWhole {cs ds rest : List Char} (h : readWhole cs = some (ds, rest)) :
    rest.length < cs.length := by
  unfold readWhole at h
  split at h
  · simp only [Option.some.injEq, Prod.mk.injEq] at h
    obtain ⟨_, rfl⟩ := h
    simp
  · exact length_readDigits h

theorem length_skipFraction {cs rest : List Char} {b : Bool}
    (h : skipFraction cs = some (b, rest)) : rest.length ≤ cs.length := by
  unfold skipFraction at h
  split at h
  · obtain ⟨⟨ds, r⟩, hr, h⟩ := Option.map_eq_some_iff.1 h
    have := length_readDigits hr
    simp only [Prod.mk.injEq] at h
    obtain ⟨_, rfl⟩ := h
    simp only [List.length_cons]
    omega
  · simp only [Option.some.injEq, Prod.mk.injEq] at h
    obtain ⟨_, rfl⟩ := h
    exact Nat.le_refl _

theorem length_skipExponent {cs rest : List Char} {b : Bool}
    (h : skipExponent cs = some (b, rest)) : rest.length ≤ cs.length := by
  unfold skipExponent at h
  split at h
  case h_7 =>
    simp only [Option.some.injEq, Prod.mk.injEq] at h
    obtain ⟨_, rfl⟩ := h
    exact Nat.le_refl _
  all_goals
    obtain ⟨⟨ds, r⟩, hr, h⟩ := Option.map_eq_some_iff.1 h
    have := length_readDigits hr
    simp only [Prod.mk.injEq] at h
    obtain ⟨_, rfl⟩ := h
    simp only [List.length_cons]
    omega

theorem length_readUnsigned {cs rest : List Char} {n : Option Nat}
    (h : readUnsigned cs = some (n, rest)) : rest.length < cs.length := by
  simp only [readUnsigned, Option.bind_eq_bind, Option.bind_eq_some_iff, Prod.exists,
    Option.pure_def, Option.some.injEq, Prod.mk.injEq] at h
  obtain ⟨_, _, h₁, _, _, h₂, _, _, h₃, _, rfl⟩ := h
  have := length_readWhole h₁
  have := length_skipFraction h₂
  have := length_skipExponent h₃
  omega

theorem length_readNumber {cs rest : List Char} {n : Option Nat}
    (h : readNumber cs = some (n, rest)) : rest.length < cs.length := by
  unfold readNumber at h
  split at h
  · obtain ⟨⟨m, r⟩, hr, h⟩ := Option.map_eq_some_iff.1 h
    have := length_readUnsigned hr
    simp only [Prod.mk.injEq] at h
    obtain ⟨_, rfl⟩ := h
    simp only [List.length_cons]
    omega
  · exact length_readUnsigned h

/-! ## 3. Texts -/

def isGap (c : Char) : Bool := c == ' ' || c == '\t' || c == '\n' || c == '\r'

/-- Reads a token at the beginning of a text. -/
def readToken : List Char → Option (Token × List Char)
  | '{' :: rest => some (.openBrace, rest)
  | '}' :: rest => some (.closeBrace, rest)
  | '[' :: rest => some (.openBracket, rest)
  | ']' :: rest => some (.closeBracket, rest)
  | ':' :: rest => some (.colon, rest)
  | ',' :: rest => some (.comma, rest)
  | 'n' :: 'u' :: 'l' :: 'l' :: rest => some (.null, rest)
  | 't' :: 'r' :: 'u' :: 'e' :: rest => some (.bool true, rest)
  | 'f' :: 'a' :: 'l' :: 's' :: 'e' :: rest => some (.bool false, rest)
  | '"' :: rest => (readString (some []) rest).map fun r => (.string r.1, r.2)
  | cs => (readNumber cs).map fun r => (.number r.1, r.2)

theorem length_readToken {cs rest : List Char} {t : Token} (h : readToken cs = some (t, rest)) :
    rest.length < cs.length := by
  unfold readToken at h
  split at h
  case h_10 =>
    obtain ⟨⟨s, r⟩, hr, h⟩ := Option.map_eq_some_iff.1 h
    have := length_readString hr
    simp only [Prod.mk.injEq] at h
    obtain ⟨_, rfl⟩ := h
    simp only [List.length_cons]
    omega
  case h_11 =>
    obtain ⟨⟨n, r⟩, hr, h⟩ := Option.map_eq_some_iff.1 h
    have := length_readNumber hr
    simp only [Prod.mk.injEq] at h
    obtain ⟨_, rfl⟩ := h
    exact this
  all_goals
    simp only [Option.some.injEq, Prod.mk.injEq] at h
    obtain ⟨_, rfl⟩ := h
    simp only [List.length_cons]
    omega

/-- Cuts a text into tokens; `before` are those read already, last first. -/
def tokensFrom (before : List Token) (cs : List Char) : Option (List Token) :=
  match cs with
  | [] => some before.reverse
  | c :: cs =>
    if isGap c then tokensFrom before cs
    else match _h : readToken (c :: cs) with
      | none => none
      | some (t, rest) => tokensFrom (t :: before) rest
termination_by cs.length
decreasing_by
  · simp
  · exact length_readToken _h

def tokens (s : String) : Option (List Token) := tokensFrom [] s.toList

end ContentModel.Json
