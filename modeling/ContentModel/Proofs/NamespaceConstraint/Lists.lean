import ContentModel.NamespaceConstraint
import ContentModel.Proofs.Text.Words

/-!
# Namespace lists

Two attributes hold a list of namespaces, one those that are admitted and the other those that are
not. Both are cut into words and each word is looked up; the first unknown keyword ends the reading,
and a set is made of what the words stand for. What there is to say about the set and about the
fault is said of the words themselves:

> **a namespace is in the set exactly if some word names it**
> (`NamespaceConstraint.contains_iff_named`), and there is a fault exactly if some word is an
> unknown keyword, the first of which it names (`NamespaceConstraint.readWords_eq`).

How often and in which order a namespace is named does not show. Since the two attributes trim and
look for special texts in different ways but read the same words, the one admits what the other
leaves out (`NamespaceConstraint.lists_complementary`).
-/

set_option autoImplicit false

namespace ContentModel

open Text

/-- The words of a text, in order. -/
def Text.tokens (s : String) : List String := (pieces s.toList).map String.ofList

/-- A function that fails on some members of a list fails on the first of them. -/
theorem mapM_eq_find? {α β ε : Type} {f : α → Except ε β} {bad : α → Bool} {fault : α → ε}
    {value : α → β} (h : ∀ x, f x = if bad x then .error (fault x) else .ok (value x))
    (xs : List α) :
    xs.mapM f = (xs.find? bad).elim (.ok (xs.map value)) fun x => .error (fault x) := by
  induction xs with
  | nil => rfl
  | cons x xs ih =>
    rw [List.mapM_cons, h, ih, List.find?_cons]
    cases bad x with
    | true => rfl
    | false => cases xs.find? bad <;> rfl

namespace NamespaceConstraint

variable {source value : String} {target : Option String} {word ns : String} {words : List String}
  {cause : ParseCause}

/-! ## 1. Words -/

/-- The word begins with two hashes. -/
def Hashed (word : String) : Prop := "##".toList <+: word.toList

/-- The word has a meaning of its own. -/
def Keyword (word : String) : Prop := word = "##local" ∨ word = "##targetNamespace"

/-- The word begins like a keyword and is none. -/
def Unknown (word : String) : Prop := Hashed word ∧ ¬ Keyword word

instance : DecidablePred Hashed :=
  fun word => inferInstanceAs (Decidable ("##".toList <+: word.toList))

instance : DecidablePred Keyword := fun word => inferInstanceAs (Decidable (word = _ ∨ word = _))

instance : DecidablePred Unknown :=
  fun word => inferInstanceAs (Decidable (Hashed word ∧ ¬ Keyword word))

/-- The namespace that a word stands for, where it is no unknown keyword. -/
def meaning (target : Option String) (word : String) : String :=
  if word = "##local" then "" else if word = "##targetNamespace" then target.getD "" else word

theorem Keyword.hashed (h : Keyword word) : Hashed word := by
  rcases h with rfl | rfl <;> decide

theorem wordNamespace_eq (word : String) :
    wordNamespace source target word.toList =
      if decide (Unknown word) then .error (.namespaceKeyword word source)
      else .ok (meaning target word) := by
  have hprefix : "##".toList.isPrefixOf word.toList = true ↔ Hashed word :=
    List.isPrefixOf_iff_prefix
  simp only [wordNamespace, String.toList_inj, hprefix, String.ofList_toList, decide_eq_true_eq,
    meaning]
  by_cases hlocal : word = "##local"
  · have hknown : ¬ Unknown word := fun h => h.2 (.inl hlocal)
    rw [if_pos hlocal, if_neg hknown, if_pos hlocal]
  · by_cases htarget : word = "##targetNamespace"
    · have hknown : ¬ Unknown word := fun h => h.2 (.inr htarget)
      rw [if_neg hlocal, if_pos htarget, if_neg hknown, if_neg hlocal, if_pos htarget]
    · have hiff : Unknown word ↔ Hashed word := and_iff_left (not_or.2 ⟨hlocal, htarget⟩)
      rw [if_neg hlocal, if_neg htarget, if_neg hlocal, if_neg htarget, if_congr hiff rfl rfl]

/-! ## 2. Lists -/

/-- Some word of a list names the namespace, where no word is an unknown keyword. -/
def Named (target : Option String) (words : List String) (ns : String) : Prop :=
  ns = "" ∧ "##local" ∈ words ∨ ns = target.getD "" ∧ "##targetNamespace" ∈ words ∨
  ns ∈ words ∧ ¬ Hashed ns

/-- The first unknown keyword of a list. -/
def firstUnknown? (words : List String) : Option String := words.find? fun word => Unknown word

theorem firstUnknown?_eq_none_iff :
    firstUnknown? words = none ↔ ∀ word ∈ words, Hashed word → Keyword word := by
  rw [firstUnknown?, List.find?_eq_none]
  refine forall₂_congr fun word _ => ?_
  rw [decide_eq_true_eq, Unknown, not_and, not_not]

theorem words_toList (value : String) :
    Text.words value.toList = (tokens value).map String.toList := by
  have hback : String.toList ∘ String.ofList = id := funext fun _ => String.toList_ofList
  rw [words_eq_pieces, tokens, List.map_map, hback, List.map_id]

/-- The set of what the words of a list stand for. -/
def listed (target : Option String) (value : String) : NamespaceSet :=
  .ofList ((tokens value).map (meaning target))

/-- **A list is read** as the set of what its words stand for, unless one of them is an unknown
keyword. -/
theorem readWords_eq (source : String) (target : Option String) (value : String) :
    readWords source target (Text.words value.toList) =
      (firstUnknown? (tokens value)).elim (.ok (listed target value))
        fun word => .error (.namespaceKeyword word source) := by
  have hword : ∀ word, (wordNamespace source target ∘ String.toList) word =
      if decide (Unknown word) then .error (.namespaceKeyword word source)
      else .ok (meaning target word) :=
    wordNamespace_eq
  rw [readWords, words_toList, List.mapM_map, mapM_eq_find? hword, ← firstUnknown?]
  cases firstUnknown? (tokens value) <;> rfl

theorem meaning_of_not_hashed (h : ¬ Hashed word) : meaning target word = word := by
  have hlocal : word ≠ "##local" := fun e => h (Keyword.hashed (.inl e))
  have htarget : word ≠ "##targetNamespace" := fun e => h (Keyword.hashed (.inr e))
  rw [meaning, if_neg hlocal, if_neg htarget]

/-- **The set of a list** has the namespaces that its words name. -/
theorem contains_iff_named (h : firstUnknown? (tokens value) = none) :
    (listed target value).contains ns = true ↔ Named target (tokens value) ns := by
  rw [listed, NamespaceSet.contains_ofList, List.contains_iff_mem, List.mem_map]
  constructor
  · rintro ⟨word, hword, rfl⟩
    by_cases hhashed : Hashed word
    · rcases firstUnknown?_eq_none_iff.1 h word hword hhashed with rfl | rfl
      · exact .inl ⟨rfl, hword⟩
      · exact .inr (.inl ⟨rfl, hword⟩)
    · rw [meaning_of_not_hashed hhashed]
      exact .inr (.inr ⟨hword, hhashed⟩)
  · rintro (⟨rfl, hword⟩ | ⟨rfl, hword⟩ | ⟨hword, hhashed⟩)
    · exact ⟨_, hword, rfl⟩
    · exact ⟨_, hword, rfl⟩
    · exact ⟨ns, hword, meaning_of_not_hashed hhashed⟩

/-! ## 3. The two attributes -/

/-- The outcome of a reading is the constraint that the list gives, or its first unknown keyword. -/
def Follows (read : Except ParseCause NamespaceConstraint) (source : String)
    (target : Option String) (value : String) (constraint : NamespaceSet → NamespaceConstraint) :
    Prop :=
  read = (firstUnknown? (tokens value)).elim (.ok (constraint (listed target value)))
    fun word => .error (.namespaceKeyword word source)

section Follows

variable {read : Except ParseCause NamespaceConstraint}
  {constraint : NamespaceSet → NamespaceConstraint}
  {c : NamespaceConstraint}

theorem Follows.eq_ok_iff (h : Follows read source target value constraint) :
    read = .ok c ↔ firstUnknown? (tokens value) = none ∧ c = constraint (listed target value) := by
  rw [h]
  cases firstUnknown? (tokens value) with
  | none => simp [eq_comm]
  | some word => simp

/-- The fault is the first unknown keyword, and its text quotes it. -/
theorem Follows.eq_error_iff (h : Follows read source target value constraint) :
    read = .error cause ↔
      ∃ word, firstUnknown? (tokens value) = some word ∧ cause = .namespaceKeyword word source ∧
      cause.message = "wrong value '" ++ word ++ "' in '" ++ source ++ "' attribute" := by
  rw [h]
  cases firstUnknown? (tokens value) with
  | none => simp
  | some word =>
    constructor
    · rintro ⟨⟩
      exact ⟨word, rfl, rfl, rfl⟩
    · rintro ⟨_, ⟨⟩, rfl, -⟩
      rfl

theorem Follows.exists_ok_iff (h : Follows read source target value constraint) :
    (∃ c, read = .ok c) ↔ ∀ word ∈ tokens value, Hashed word → Keyword word := by
  simp only [h.eq_ok_iff, exists_and_left, exists_eq, and_true, firstUnknown?_eq_none_iff]

end Follows

theorem ofNotNamespace_follows (value : String) (target : Option String) :
    Follows (ofNotNamespace value target) "notNamespace" target value not := by
  rw [Follows, ofNotNamespace, readWords_eq]
  cases firstUnknown? (tokens value) <;> rfl

/-- Trimming makes no difference to a list, so the two attributes read the same words. -/
theorem ofNamespace_follows (target : Option String) (hany : trim value.toList ≠ "##any".toList)
    (hother : trim value.toList ≠ "##other".toList) :
    Follows (ofNamespace value target) "namespace" target value enumeration := by
  rw [Follows, ofNamespace, words_trim, readWords_eq]
  simp only [if_neg hany, if_neg hother]
  cases firstUnknown? (tokens value) <;> rfl

/-- **Namespace lists are read exactly**, and leaving out is the complement of admitting. The list
of what is left out is read exactly if each of its words that begins with two hashes is one of the
two keywords, and the fault names the first that is not. What is left out then is what some word
names. A text that is not one of the two special ones is read from either attribute or from neither,
and what one of them admits is what the other leaves out. -/
theorem lists_complementary (value : String) (target : Option String) :
    ((∃ c, ofNotNamespace value target = .ok c) ↔
      ∀ word ∈ tokens value, Hashed word → Keyword word) ∧
    (∀ cause, ofNotNamespace value target = .error cause ↔
      ∃ word, (tokens value).find? (fun word => Hashed word ∧ ¬ Keyword word) = some word ∧
        cause = .namespaceKeyword word "notNamespace" ∧
        cause.message = "wrong value '" ++ word ++ "' in '" ++ "notNamespace" ++ "' attribute") ∧
    (∀ c, ofNotNamespace value target = .ok c → ∀ ns, c.allows ns = false ↔
      ns = "" ∧ "##local" ∈ tokens value ∨
      ns = target.getD "" ∧ "##targetNamespace" ∈ tokens value ∨
        ns ∈ tokens value ∧ ¬ Hashed ns) ∧
    (trim value.toList ≠ "##any".toList → trim value.toList ≠ "##other".toList →
      ((∃ c, ofNamespace value target = .ok c) ↔ ∃ c, ofNotNamespace value target = .ok c) ∧
      (∀ cause, ofNamespace value target = .error cause ↔
        ∃ word, (tokens value).find? (fun word => Hashed word ∧ ¬ Keyword word) = some word ∧
          cause = .namespaceKeyword word "namespace" ∧
          cause.message = "wrong value '" ++ word ++ "' in '" ++ "namespace" ++ "' attribute") ∧
      ∀ c d, ofNamespace value target = .ok c → ofNotNamespace value target = .ok d →
        ∀ ns, c.allows ns = !d.allows ns) := by
  have hnot := ofNotNamespace_follows value target
  refine ⟨hnot.exists_ok_iff, fun _ => hnot.eq_error_iff, ?_, ?_⟩
  · intro c hc ns
    obtain ⟨hknown, rfl⟩ := hnot.eq_ok_iff.1 hc
    rw [allows, Bool.not_eq_false']
    exact contains_iff_named hknown
  · intro hany hother
    have hlist := ofNamespace_follows target hany hother
    refine ⟨hlist.exists_ok_iff.trans hnot.exists_ok_iff.symm, fun _ => hlist.eq_error_iff, ?_⟩
    intro c d hc hd ns
    obtain ⟨-, rfl⟩ := hlist.eq_ok_iff.1 hc
    obtain ⟨-, rfl⟩ := hnot.eq_ok_iff.1 hd
    rw [allows, allows, Bool.not_not]

/-- Three words, two of them for the same namespace, between blanks of several kinds. -/
theorem lists_complementary_same_namespace :
    let value := "\u00a0##targetNamespace ##local\turn:t "
    let target := some "urn:t"
    ∃ c d, ofNamespace value target = .ok c ∧ ofNotNamespace value target = .ok d ∧
      (∀ ns, c.allows ns = !d.allows ns) ∧ d.allows "urn:t" = false ∧ d.allows "" = false := by
  intro value target
  have hwords : tokens value = ["##targetNamespace", "##local", "urn:t"] := by decide
  have hany : trim value.toList ≠ "##any".toList := by decide
  have hother : trim value.toList ≠ "##other".toList := by decide
  obtain ⟨hok, -, hleft, hrest⟩ := lists_complementary value target
  obtain ⟨halike, -, hcomplement⟩ := hrest hany hother
  obtain ⟨d, hd⟩ := hok.2 (by rw [hwords]; decide)
  obtain ⟨c, hc⟩ := halike.2 ⟨d, hd⟩
  have hlocal : "##local" ∈ tokens value := by rw [hwords]; decide
  have htarget : "##targetNamespace" ∈ tokens value := by rw [hwords]; decide
  exact ⟨c, d, hc, hd, hcomplement c d hc hd, (hleft d hd _).2 (.inr (.inl ⟨rfl, htarget⟩)),
    (hleft d hd _).2 (.inl ⟨rfl, hlocal⟩)⟩

end NamespaceConstraint

end ContentModel
