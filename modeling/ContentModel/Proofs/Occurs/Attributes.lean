import ContentModel.Occurs.Attributes
import ContentModel.Proofs.Bound.Exact
import ContentModel.Proofs.Text.Numeral

/-!
# What the occurrence attributes spell

A lower bound is spelled by a signed numeral, an upper bound by an unsigned one or by the word
`unbounded`, each between blanks, and an attribute that is missing spells 1. Reading goes its own
way to that: it takes a lower bound from the integers of 64 bits and only then looks whether it
fits, goes on with 1 after a fault, and compares the two bounds with a fault in mind. None of this
shows where it succeeds:

> **reading gives a range exactly if the two attributes spell its two ends**
> (`Occurs.read_eq_ok_iff`).

That the ends are in order need not be said of the range, but has to be asked of the bounds that are
spelled (`Occurs.readMax_of_spells`). What a range prints is among its spellings, with any zeros
before the digits and any blanks around them (`Bound.written`).
-/

set_option autoImplicit false

namespace ContentModel

open Text

/-- The text of the bound, with zeros before its digits. -/
def Bound.written (zeros : ℕ) : Bound → List Char
  | finite n => List.replicate zeros '0' ++ (finite n).text.toList
  | unbounded => unbounded.text.toList

namespace Occurs

/-! ## 1. Spellings -/

/-- The attribute stands for a lower bound. -/
inductive SpellsMin : Option String → UInt32 → Prop
  | missing : SpellsMin none 1
  | numeral {s : String} {cs : List Char} {n : UInt32} (hs : Padded cs s.toList)
    (h : Signed cs n.toNat) :
    SpellsMin (some s) n

/-- The attribute stands for an upper bound. -/
inductive SpellsMax : Option String → Bound → Prop
  | missing : SpellsMax none (.finite 1)
  | unbounded {s : String} (hs : Padded "unbounded".toList s.toList) : SpellsMax (some s) .unbounded
  | numeral {s : String} {cs : List Char} {n : UInt32} (hs : Padded cs s.toList)
    (h : Unsigned cs n.toNat) :
    SpellsMax (some s) (.finite n)

variable {min max : Option String} {s : String} {low n : UInt32} {high : Bound} {o : Occurs}

theorem spellsMin_some_iff : SpellsMin (some s) n ↔ Signed (trim s.toList) n.toNat := by
  constructor
  · rintro (_ | ⟨hs, h⟩)
    rwa [hs.trim_eq h.isBlank]
  · exact .numeral (padded_trim _)

theorem isBlank_unbounded : ∀ c ∈ "unbounded".toList, isBlank c = false := by
  have hall : "unbounded".toList.all (fun c => !isBlank c) = true := by decide
  simpa using hall

theorem spellsMax_some_unbounded_iff :
    SpellsMax (some s) .unbounded ↔ trim s.toList = "unbounded".toList := by
  constructor
  · rintro (_ | hs)
    exact hs.trim_eq isBlank_unbounded
  · intro h
    exact .unbounded (h ▸ padded_trim s.toList)

theorem spellsMax_some_finite_iff :
    SpellsMax (some s) (.finite n) ↔ Unsigned (trim s.toList) n.toNat := by
  constructor
  · rintro (_ | _ | ⟨hs, h⟩)
    rwa [hs.trim_eq h.isBlank]
  · exact .numeral (padded_trim _)

/-- The word is no numeral. -/
theorem not_unsigned_unbounded {n : ℕ} : ¬ Unsigned "unbounded".toList n := by
  intro h
  cases h with
  | plain h => exact not_digits_cons rfl h

/-! ## 2. Lower bounds -/

theorem bound?_eq_some_iff {v : ℤ} : bound? v = some n ↔ v = n.toNat := by
  rw [bound?, Option.ite_none_right_eq_some, Option.some.injEq]
  constructor
  · rintro ⟨⟨hmin, hmax⟩, rfl⟩
    rw [Bound.toNat_ofNat_of_lt (by omega), Int.toNat_of_nonneg hmin]
  · rintro rfl
    have hlt := Bound.toNat_lt_size n
    refine ⟨⟨Int.natCast_nonneg _, Int.ofNat_lt.2 hlt⟩, ?_⟩
    rw [Int.toNat_natCast, UInt32.ofNat_toNat]

/-- Every bound is an integer of 64 bits, so none is lost by reading such an integer first. -/
theorem integer?_eq_some_toNat_iff {cs : List Char} :
    integer? (-9223372036854775808) 9223372036854775807 cs = some (n.toNat : ℤ) ↔
      Signed cs n.toNat := by
  have hlt : n.toNat < 4294967296 := Bound.toNat_lt_size n
  rw [integer?_eq_some_iff]
  exact and_iff_left ⟨by omega, by omega⟩

theorem readMin_some (s : String) :
    readMin (some s) =
      match integer? (-9223372036854775808) 9223372036854775807 (trim s.toList) with
      | none => (1, [.minNotInteger])
      | some v => match bound? v with
        | none => (1, [.minOutOfRange])
        | some n => (n, []) := rfl

theorem readMin_of_spells (h : SpellsMin min low) : readMin min = (low, []) := by
  cases h with
  | missing => rfl
  | @numeral s cs low hs h =>
    have hread := integer?_eq_some_toNat_iff.2 h
    rw [← hs.trim_eq h.isBlank] at hread
    rw [readMin_some]
    split
    · rename_i hnone
      rw [hread] at hnone
      cases hnone
    · rename_i v hv
      rw [hread, Option.some.injEq] at hv
      rw [bound?_eq_some_iff.2 hv.symm]

theorem readMin_of_not_spells (h : ∀ low, ¬ SpellsMin min low) :
    (readMin min).1 = 1 ∧ (readMin min).2 ≠ [] := by
  cases min with
  | none => exact absurd .missing (h 1)
  | some s =>
    rw [readMin_some]
    split
    · exact ⟨rfl, List.cons_ne_nil _ _⟩
    · rename_i v hv
      split
      · exact ⟨rfl, List.cons_ne_nil _ _⟩
      · rename_i n hn
        -- an integer that is a bound is a spelling of it
        rw [bound?_eq_some_iff.1 hn, integer?_eq_some_toNat_iff] at hv
        exact absurd (spellsMin_some_iff.2 hv) (h n)

/-! ## 3. Upper bounds -/

theorem readMax_some (low : UInt32) (s : String) :
    readMax low (some s) =
      if trim s.toList = "unbounded".toList then (.unbounded, [])
      else match natural? (Bound.size - 1) (trim s.toList) with
        | none => (.finite 1, [.maxMalformed])
        | some n => (.finite (UInt32.ofNat n),
          if low > UInt32.ofNat n then [.maxBelowMin] else []) := rfl

/-- A spelled upper bound is read as it is, with no fault if it is at least the lower bound. -/
theorem readMax_of_spells (low : UInt32) (h : SpellsMax max high) :
    (readMax low max).1 = high ∧ ((readMax low max).2 = [] ↔ Bound.finite low ≤ high) := by
  have hle : ∀ m : UInt32, Bound.finite low ≤ .finite m ↔ ¬ low > m := fun m => UInt32.not_lt.symm
  cases h with
  | missing =>
    rw [hle]
    simp [readMax]
  | unbounded hs =>
    have htrim := hs.trim_eq isBlank_unbounded
    simp only [readMax, Option.map_some, htrim, if_true, true_and, true_iff]
    exact Bound.le_unbounded _
  | @numeral s cs n hs h =>
    have hword : cs ≠ "unbounded".toList := fun e => not_unsigned_unbounded (e ▸ h)
    have hread : natural? (Bound.size - 1) cs = some n.toNat :=
      natural?_eq_some_iff.2 ⟨h, Nat.le_sub_one_of_lt (Bound.toNat_lt_size n)⟩
    rw [hle, readMax_some, hs.trim_eq h.isBlank, if_neg hword, hread]
    dsimp only
    rw [UInt32.ofNat_toNat]
    exact ⟨rfl, by simp⟩

theorem readMax_of_not_spells (low : UInt32) (h : ∀ high, ¬ SpellsMax max high) :
    (readMax low max).1 = .finite 1 ∧ (readMax low max).2 ≠ [] := by
  cases max with
  | none => exact absurd .missing (h (.finite 1))
  | some s =>
    have hword : trim s.toList ≠ "unbounded".toList :=
      fun e => h .unbounded (spellsMax_some_unbounded_iff.2 e)
    have hread : natural? (Bound.size - 1) (trim s.toList) = none := by
      rw [Option.eq_none_iff_forall_ne_some]
      intro m hm
      obtain ⟨hm, hle⟩ := natural?_eq_some_iff.1 hm
      have hlt : m < Bound.size := Nat.lt_of_le_pred (by decide) hle
      rw [← Bound.toNat_ofNat_of_lt hlt] at hm
      exact h _ (spellsMax_some_finite_iff.2 hm)
    rw [readMax_some, if_neg hword, hread]
    exact ⟨rfl, List.cons_ne_nil _ _⟩

/-! ## 4. Both attributes -/

theorem readLax_eq (min max : Option String) :
    readLax min max =
      (widened (readMin min).1 (readMax (readMin min).1 max).1,
        (readMin min).2 ++ (readMax (readMin min).1 max).2) :=
  rfl

theorem widened_of_le (h : Bound.finite low ≤ high) : widened low high = ⟨low, high, h⟩ := dif_pos h

/-- What is spelled is read, without a fault. -/
theorem readLax_of_spells (hmin : SpellsMin min o.min) (hmax : SpellsMax max o.max) :
    readLax min max = (o, []) := by
  obtain ⟨hhigh, hfaults⟩ := readMax_of_spells o.min hmax
  rw [readLax_eq, readMin_of_spells hmin]
  dsimp only
  rw [hhigh, hfaults.2 o.min_le_max, widened_of_le o.min_le_max]
  rfl

/-- Where there is no fault, a range is spelled. -/
theorem exists_spells_of_faults (h : (readLax min max).2 = []) :
    ∃ o : Occurs, SpellsMin min o.min ∧ SpellsMax max o.max := by
  rw [readLax_eq] at h
  obtain ⟨hmin, hmax⟩ := List.append_eq_nil_iff.1 h
  obtain ⟨low, hlow⟩ : ∃ low, SpellsMin min low := by
    by_contra hnone
    exact (readMin_of_not_spells (not_exists.1 hnone)).2 hmin
  obtain ⟨high, hhigh⟩ : ∃ high, SpellsMax max high := by
    by_contra hnone
    exact (readMax_of_not_spells _ (not_exists.1 hnone)).2 hmax
  rw [readMin_of_spells hlow] at hmax
  have hle := (readMax_of_spells low hhigh).2.1 hmax
  exact ⟨⟨low, high, hle⟩, hlow, hhigh⟩

theorem read_eq_ok_iff_faults :
    read min max = .ok o ↔ (readLax min max).2 = [] ∧ o = (readLax min max).1 := by
  unfold read
  rcases readLax min max with ⟨lax, _ | ⟨fault, faults⟩⟩
  · simp [eq_comm]
  · simp

/-- **Reading**: a range is read exactly if the attributes spell its ends. -/
theorem read_eq_ok_iff : read min max = .ok o ↔ SpellsMin min o.min ∧ SpellsMax max o.max := by
  rw [read_eq_ok_iff_faults]
  constructor
  · rintro ⟨hfaults, rfl⟩
    obtain ⟨o, hmin, hmax⟩ := exists_spells_of_faults hfaults
    rw [readLax_of_spells hmin hmax]
    exact ⟨hmin, hmax⟩
  · rintro ⟨hmin, hmax⟩
    rw [readLax_of_spells hmin hmax]
    exact ⟨rfl, rfl⟩

/-! ## 5. Ranges that are written -/

theorem digits_written (n : UInt32) (zeros : ℕ) :
    Digits ((Bound.finite n).written zeros) n.toNat := by
  have htext : (Bound.finite n).text.toList = Nat.toDigits 10 n.toNat := String.toList_ofList
  rw [Bound.written, htext]
  exact (digits_toDigits n.toNat).zeros zeros

theorem spellsMin_written {zeros : ℕ} (h : Padded ((Bound.finite n).written zeros) s.toList) :
    SpellsMin (some s) n :=
  .numeral h (.unsigned (.plain (digits_written n zeros)))

theorem spellsMax_written {zeros : ℕ} (h : Padded (high.written zeros) s.toList) :
    SpellsMax (some s) high := by
  cases high with
  | finite n => exact .numeral h (.plain (digits_written n zeros))
  | unbounded => exact .unbounded h

/-- **The grammar of the occurrence attributes**: reading gives a range exactly if the first
attribute spells its lower end and the second its upper end. It gives some range exactly if the
attributes spell two bounds that are in order. So every range is read from what it prints, whatever
zeros stand before the digits and whatever blanks stand around them. -/
theorem read_iff_grammar :
    (∀ (min max : Option String) (o : Occurs), read min max = .ok o ↔
      SpellsMin min o.min ∧ SpellsMax max o.max) ∧
    (∀ min max : Option String, (∃ o, read min max = .ok o) ↔
      ∃ low high, SpellsMin min low ∧ SpellsMax max high ∧ Bound.finite low ≤ high) ∧
    ∀ (o : Occurs) (s t : String) (j k : ℕ), Padded ((Bound.finite o.min).written j) s.toList →
      Padded (o.max.written k) t.toList → read (some s) (some t) = .ok o := by
  refine ⟨fun min max o => read_eq_ok_iff, fun min max => ?_, fun o s t j k hs ht => ?_⟩
  · constructor
    · rintro ⟨o, ho⟩
      obtain ⟨hmin, hmax⟩ := read_eq_ok_iff.1 ho
      exact ⟨o.min, o.max, hmin, hmax, o.min_le_max⟩
    · rintro ⟨low, high, hmin, hmax, hle⟩
      exact ⟨⟨low, high, hle⟩, read_eq_ok_iff.2 ⟨hmin, hmax⟩⟩
  · exact read_eq_ok_iff.2 ⟨spellsMin_written hs, spellsMax_written ht⟩

/-- From the greatest bound on without an upper end, with a zero too many and an ideographic
space. -/
theorem read_iff_grammar_greatest :
    let o : Occurs := ⟨4294967295, .unbounded, trivial⟩
    Padded ((Bound.finite o.min).written 1) "\u300004294967295".toList ∧
      Padded (o.max.written 0) "unbounded\n".toList ∧
      read (some "\u300004294967295") (some "unbounded\n") = .ok o := by
  intro o
  have hs : Padded ((Bound.finite o.min).written 1) "\u300004294967295".toList :=
    ⟨['\u3000'], [], by decide, List.forall_mem_singleton.2 rfl, List.forall_mem_nil _⟩
  have ht : Padded (o.max.written 0) "unbounded\n".toList :=
    ⟨[], ['\n'], rfl, List.forall_mem_nil _, List.forall_mem_singleton.2 rfl⟩
  exact ⟨hs, ht, read_iff_grammar.2.2 o _ _ 1 0 hs ht⟩

end Occurs

end ContentModel
