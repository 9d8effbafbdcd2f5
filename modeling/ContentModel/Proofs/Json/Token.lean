import ContentModel.Json.Layout
import ContentModel.Json.Token
import Mathlib.Tactic.SplitIfs

/-!
# Scalars read back

What is written of a number or a string is read back as one token, and reading stops where it ends.
For a string the quote tells where that is. A number has no end of its own, so what comes next must
not go on with it (`Ends`).
-/

set_option autoImplicit false

namespace ContentModel.Json

/-! ## 1. Numbers -/

/-- What comes next does not go on with a number. -/
def Ends (rest : List Char) : Prop :=
  ∀ c ∈ rest.head?, c.isDigit = false ∧ c ≠ '.' ∧ c ≠ 'e' ∧ c ≠ 'E'

theorem ends_nil : Ends [] := by
  intro c hc
  cases hc

theorem ends_comma (rest : List Char) : Ends (',' :: rest) := by
  intro c hc
  cases hc
  decide

theorem ends_newline (depth : Nat) (rest : List Char) : Ends (newline depth ++ rest) := by
  intro c hc
  cases hc
  decide

section

variable {rest : List Char}

theorem readDigits_append {ds : List Char} (hds : ∀ c ∈ ds, c.isDigit = true) (hne : ds ≠ [])
    (h : Ends rest) : readDigits (ds ++ rest) = some (ds, rest) := by
  have hstop : rest.takeWhile Char.isDigit = [] ∧ rest.dropWhile Char.isDigit = rest := by
    cases rest with
    | nil => exact ⟨rfl, rfl⟩
    | cons c rest =>
      have hc : ¬ c.isDigit = true := by
        rw [(h c rfl).1]
        exact Bool.false_ne_true
      exact ⟨List.takeWhile_cons_of_neg hc, List.dropWhile_cons_of_neg hc⟩
  rw [readDigits, List.takeWhile_append_of_pos hds, List.dropWhile_append_of_pos hds, hstop.1,
    hstop.2, List.append_nil]
  exact if_neg (by simp [hne])

theorem skipFraction_of_ends (h : Ends rest) : skipFraction rest = some (false, rest) := by
  unfold skipFraction
  split
  · exact absurd rfl (h _ rfl).2.1
  · rfl

theorem skipExponent_of_ends (h : Ends rest) : skipExponent rest = some (false, rest) := by
  unfold skipExponent
  split
  case h_7 => rfl
  case h_1 | h_2 | h_5 => exact absurd rfl (h _ rfl).2.2.1
  case h_3 | h_4 | h_6 => exact absurd rfl (h _ rfl).2.2.2

theorem isDigit_toDigits (n : Nat) : ∀ c ∈ Nat.toDigits 10 n, c.isDigit = true :=
  fun _ hc => Nat.isDigit_of_mem_toDigits (by decide) (by decide) hc

/-- The digits of a number other than zero do not begin with a zero. -/
theorem head_toDigits {n : Nat} (hn : 0 < n) : ∀ ds, Nat.toDigits 10 n ≠ '0' :: ds := by
  induction n using Nat.strongRecOn with
  | ind n ih =>
    intro ds hds
    by_cases hlt : n < 10
    · have hdigit : ∀ d, d < 10 → 0 < d → d.digitChar ≠ '0' := by decide
      rw [Nat.toDigits_of_lt_base hlt] at hds
      exact hdigit n hlt hn (List.cons.inj hds).1
    · have hle : 10 ≤ n := Nat.le_of_not_lt hlt
      rw [Nat.toDigits_of_base_le (by decide) hle] at hds
      cases hfront : Nat.toDigits 10 (n / 10) with
      | nil => exact absurd hfront Nat.toDigits_ne_nil
      | cons c front =>
        rw [hfront] at hds
        have hc : c = '0' := (List.cons.inj hds).1
        exact ih (n / 10) (by omega) (by omega) front (hc ▸ hfront)

theorem readWhole_toDigits (n : Nat) (h : Ends rest) :
    readWhole (Nat.toDigits 10 n ++ rest) = some (Nat.toDigits 10 n, rest) := by
  rcases Nat.eq_zero_or_pos n with rfl | hn
  · rfl
  · unfold readWhole
    split
    · rename_i heq
      cases hds : Nat.toDigits 10 n with
      | nil => exact absurd hds Nat.toDigits_ne_nil
      | cons c ds =>
        rw [hds] at heq
        have hc : c = '0' := (List.cons.inj heq).1
        exact absurd (hc ▸ hds) (head_toDigits hn ds)
    · exact readDigits_append (isDigit_toDigits n) Nat.toDigits_ne_nil h

theorem readUnsigned_toDigits (n : Nat) (h : Ends rest) :
    readUnsigned (Nat.toDigits 10 n ++ rest) = some (some n, rest) := by
  have hvalue : Text.digitsValue (Nat.toDigits 10 n) = n :=
    Nat.ofDigitChars_toDigits (by decide) (by decide)
  simp only [readUnsigned, readWhole_toDigits n h, Option.bind_eq_bind, Option.bind_some,
    skipFraction_of_ends h, skipExponent_of_ends h, hvalue]
  rfl

theorem readNumber_numeral (whole : Option Nat) (h : Ends rest) :
    readNumber (numeral whole ++ rest) = some (whole, rest) := by
  cases whole with
  | none =>
    have hone := readUnsigned_toDigits 1 h
    exact (congrArg (Option.map fun r => (none, r.2)) hone)
  | some n =>
    unfold readNumber
    split
    · rename_i heq
      have hdigit := isDigit_toDigits n '-'
      cases hds : Nat.toDigits 10 n with
      | nil => exact absurd hds Nat.toDigits_ne_nil
      | cons c ds =>
        rw [numeral, hds] at heq
        rw [hds, (List.cons.inj heq).1] at hdigit
        exact absurd (hdigit List.mem_cons_self) (by decide)
    · exact readUnsigned_toDigits n h

end

/-! ## 2. Strings -/

theorem hexValue?_hexDigit : ∀ n, n < 16 → hexValue? (hexDigit n) = some n := by decide

theorem unit?_control {n : Nat} (hn : n < 0x20) :
    unit? '0' '0' (hexDigit (n / 16)) (hexDigit (n % 16)) = some n := by
  have hzero : hexValue? '0' = some 0 := rfl
  have hhigh := hexValue?_hexDigit (n / 16) (by omega)
  have hlow := hexValue?_hexDigit (n % 16) (by omega)
  simp only [unit?, hzero, hhigh, hlow, Option.bind_eq_bind, Option.bind_some, Option.pure_def]
  exact congrArg some (by omega)

/-- A control character is no surrogate, so its escape has a text. -/
theorem readChar_control {c : Char} (hc : c.toNat < 0x20) (rest : List Char) :
    readChar
        ('\\' :: 'u' :: '0' :: '0' :: hexDigit (c.toNat / 16) :: hexDigit (c.toNat % 16) :: rest) =
      some (some c, rest) := by
  have hleading : leading c.toNat = false := by
    simp only [leading, Bool.and_eq_false_iff, decide_eq_false_iff_not]
    omega
  have htrailing : trailing c.toNat = false := by
    simp only [trailing, Bool.and_eq_false_iff, decide_eq_false_iff_not]
    omega
  simp only [readChar, unit?_control hc, hleading, htrailing, Char.ofNat_toNat]
  rfl

theorem readChar_plain {c : Char} (hbackslash : c ≠ '\\') (hc : ¬ c.toNat < 0x20)
    (rest : List Char) :
    readChar (c :: rest) = some (some c, rest) := by
  unfold readChar
  split
  · rename_i heq
    exact absurd (List.cons.inj heq).1 hbackslash
  · rename_i heq
    exact absurd (List.cons.inj heq).1 hbackslash
  · rename_i heq
    obtain ⟨rfl, rfl⟩ := List.cons.inj heq
    exact if_neg (by simp [hc, hbackslash])
  · rename_i heq
    cases heq

/-- However a character was escaped, it is read back. -/
theorem readChar_escape (c : Char) (rest : List Char) :
    readChar (escape c ++ rest) = some (some c, rest) := by
  unfold escape
  split_ifs with hquote hbackslash hb hf hn hr ht hcontrol
  iterate 7 (subst c; rfl)
  · exact readChar_control hcontrol rest
  · exact readChar_plain hbackslash hcontrol rest

/-- No escaped character looks like the end of the string. -/
theorem head_escape (c : Char) (rest : List Char) : ∀ rest', escape c ++ rest ≠ '"' :: rest' := by
  intro rest' heq
  unfold escape at heq
  split_ifs at heq with hquote
  iterate 8 exact absurd (List.cons.inj heq).1 (by decide)
  exact hquote (List.cons.inj heq).1

theorem readString_of_readChar {text : Option (List Char)} {cs rest : List Char} {c : Option Char}
    (hquote : ∀ rest', cs ≠ '"' :: rest') (h : readChar cs = some (c, rest)) :
    readString text cs = readString (c.bind fun c => text.map (c :: ·)) rest := by
  rw [readString.eq_2 _ _ hquote]
  split
  · rename_i hnone
    rw [h] at hnone
    cases hnone
  · rename_i hsome
    rw [h] at hsome
    cases hsome
    rfl

theorem readString_escape (cs before rest : List Char) :
    readString (some before) (cs.flatMap escape ++ '"' :: rest) =
      some (some (String.ofList (before.reverse ++ cs)), rest) := by
  induction cs generalizing before with
  | nil =>
    rw [List.flatMap_nil, List.nil_append, readString, List.append_nil]
    rfl
  | cons c cs ih =>
    rw [List.flatMap_cons, List.append_assoc,
      readString_of_readChar (head_escape c _) (readChar_escape c _), Option.bind_some,
      Option.map_some, ih, List.reverse_cons, List.append_assoc]
    rfl

/-- What is written of a string that has no text has none either. -/
theorem readString_surrogate (rest : List Char) :
    readString (some []) (['\\', 'u', 'd', '8', '0', '0'] ++ '"' :: rest) = some (none, rest) := by
  have hread : readChar (['\\', 'u', 'd', '8', '0', '0'] ++ '"' :: rest) =
      some (none, '"' :: rest) := rfl
  rw [readString_of_readChar (by simp) hread, readString]
  rfl

/-! ## 3. Tokens -/

theorem readToken_quote (text : Option String) (rest : List Char) :
    readToken (quote text ++ rest) = some (.string text, rest) := by
  cases text with
  | none => exact congrArg (Option.map fun r => (Token.string r.1, r.2)) (readString_surrogate rest)
  | some s =>
    have hread := readString_escape s.toList [] rest
    rw [List.reverse_nil, List.nil_append, String.ofList_toList] at hread
    have hquote : quote (some s) ++ rest = '"' :: (s.toList.flatMap escape ++ '"' :: rest) := by
      rw [quote, List.cons_append, List.cons_append, List.append_assoc]
      rfl
    rw [hquote]
    exact congrArg (Option.map fun r => (Token.string r.1, r.2)) hread

theorem head_numeral (whole : Option Nat) :
    ∃ c cs, numeral whole = c :: cs ∧ (c.isDigit = true ∨ c = '-') := by
  cases whole with
  | none => exact ⟨'-', ['1'], rfl, .inr rfl⟩
  | some n =>
    have hdigit := isDigit_toDigits n
    cases hds : Nat.toDigits 10 n with
    | nil => exact absurd hds Nat.toDigits_ne_nil
    | cons c cs => exact ⟨c, cs, hds, .inl (hdigit c (hds ▸ List.mem_cons_self))⟩

theorem readToken_numeral (whole : Option Nat) {rest : List Char} (h : Ends rest) :
    readToken (numeral whole ++ rest) = some (.number whole, rest) := by
  have hread := readNumber_numeral whole h
  obtain ⟨c, cs, hcs, hc⟩ := head_numeral whole
  rw [hcs] at hread ⊢
  unfold readToken
  split
  case h_11 => exact congrArg (Option.map fun r => (Token.number r.1, r.2)) hread
  all_goals
    rename_i heq
    rw [(List.cons.inj heq).1] at hc
    exact absurd hc (by decide)

end ContentModel.Json
