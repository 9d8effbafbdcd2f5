import ContentModel.Proofs.Leaf.Overlap
import Mathlib.Data.List.TakeWhile
import Mathlib.Data.Set.Function

/-!
# Clark's notation, there and back

A name is printed with its namespace in braces and its local name behind them, or as the local name
alone. What the reader makes of a text is decided at the first closing brace
(`ExpandedName.ofClark?_eq_some_iff`), so there are names that are printed as the text of another or
of none: a local name that looks like a namespace in braces, a namespace that closes its braces too
early, the namespace of empty name. All others come back,

> **and they are all that the reader ever gives for a text that does not begin with empty braces**
> (`ExpandedName.clark_bijOn`).

Empty braces are the one spelling beside the printed one: they stand for no namespace, which is
printed without.
-/

set_option autoImplicit false

namespace ContentModel.ExpandedName

variable {s : String} {q : ExpandedName}

/-! ## 1. Reading -/

/-- The text is Clark's notation of the name. -/
inductive Clark : String → ExpandedName → Prop
  | bare {s : String} (hne : s ≠ "") (hbrace : s.toList.head? ≠ some '{') : Clark s ⟨none, s⟩
  | braced {s uri loc : String} (hs : s.toList = '{' :: uri.toList ++ '}' :: loc.toList)
    (huri : '}' ∉ uri.toList) (hne : loc ≠ "") : Clark s (qualified (some uri) loc)

theorem takeWhile_brace {uri : List Char} (huri : '}' ∉ uri) (rest : List Char) :
    (uri ++ '}' :: rest).takeWhile (· != '}') = uri ∧
    (uri ++ '}' :: rest).dropWhile (· != '}') = '}' :: rest := by
  have hplain : ∀ c ∈ uri, (c != '}') = true := fun c hc => bne_iff_ne.2 fun e => huri (e ▸ hc)
  rw [List.takeWhile_append_of_pos hplain, List.dropWhile_append_of_pos hplain]
  simp

/-- What stands between the braces is the name of a namespace, unless it is empty. -/
theorem qualified_ofList (uri : List Char) (loc : String) :
    qualified (some (String.ofList uri)) loc =
      ⟨if uri.isEmpty then none else some (String.ofList uri), loc⟩ := by
  cases uri with
  | nil => rfl
  | cons c cs => simp [qualified, Option.filter, String.ofList_eq_empty_iff]

theorem ofClarkChars?_braced {uri : List Char} (huri : '}' ∉ uri) (c : Char) (cs : List Char) :
    ofClarkChars? ('{' :: uri ++ '}' :: c :: cs) =
      some (qualified (some (String.ofList uri)) (String.ofList (c :: cs))) := by
  obtain ⟨htake, hdrop⟩ := takeWhile_brace huri (c :: cs)
  rw [List.cons_append, ofClarkChars?, hdrop]
  dsimp only
  rw [htake, qualified_ofList]
  rfl

/-- A text that begins with a brace is cut at the first closing one. -/
theorem exists_of_ofClarkChars?_braced {r : List Char} (h : ofClarkChars? ('{' :: r) = some q) :
    ∃ uri c cs, '}' ∉ uri ∧ r = uri ++ '}' :: c :: cs := by
  rw [ofClarkChars?] at h
  split at h
  · rename_i c cs hrest
    refine ⟨r.takeWhile (· != '}'), c, cs, ?_, ?_⟩
    · intro hbrace
      have hne := List.mem_takeWhile_imp hbrace
      simp at hne
    · rw [← hrest, List.takeWhile_append_dropWhile]
  · cases h

/-- **Reading** gives a name exactly for its notations. -/
theorem ofClark?_eq_some_iff : ofClark? s = some q ↔ Clark s q := by
  constructor
  · intro h
    by_cases hbrace : s.toList.head? = some '{'
    · obtain ⟨r, hr⟩ := List.head?_eq_some_iff.1 hbrace
      rw [ofClark?, hr] at h
      obtain ⟨uri, c, cs, huri, rfl⟩ := exists_of_ofClarkChars?_braced h
      rw [← List.cons_append, ofClarkChars?_braced huri, Option.some.injEq] at h
      rw [← h]
      refine .braced ?_ ?_ ?_
      · rw [hr, String.toList_ofList, String.toList_ofList, List.cons_append]
      · rwa [String.toList_ofList]
      · simp [String.ofList_eq_empty_iff]
    · by_cases hne : s = ""
      · rw [hne, ofClark?_empty] at h
        cases h
      · rw [ofClark?_of_plain hne hbrace, Option.some.injEq] at h
        rw [← h]
        exact .bare hne hbrace
  · rintro (⟨hne, hbrace⟩ | @⟨uri, loc, hs, huri, hne⟩)
    · exact ofClark?_of_plain hne hbrace
    · cases hloc : loc.toList with
      | nil => exact absurd (String.toList_eq_nil_iff.1 hloc) hne
      | cons c cs =>
        rw [ofClark?, hs, hloc, ofClarkChars?_braced huri, ← hloc, String.ofList_toList,
          String.ofList_toList]

/-! ## 2. Printing -/

/-- The local name is not empty, and nothing in the name is taken for a brace of the notation: it is
in no namespace and does not begin with a brace, or in a namespace of non-empty name without a
closing brace. -/
def Writable (q : ExpandedName) : Prop :=
  q.localName ≠ "" ∧
    (q.namespaceName = none ∧ q.localName.toList.head? ≠ some '{' ∨
      ∃ uri, q.namespaceName = some uri ∧ uri ≠ "" ∧ '}' ∉ uri.toList)

theorem qualified_of_ne {uri : String} (h : uri ≠ "") (loc : String) :
    qualified (some uri) loc = ⟨some uri, loc⟩ := by
  simp [qualified, Option.filter, h]

theorem clark_none (loc : String) : clark ⟨none, loc⟩ = loc := String.ofList_toList

theorem toList_clark_some (uri loc : String) :
    (clark ⟨some uri, loc⟩).toList = '{' :: uri.toList ++ '}' :: loc.toList :=
  String.toList_ofList

/-- The text of a name is a notation of it exactly if the name is writable. -/
theorem clark_clark_iff : Clark q.clark q ↔ q.Writable := by
  constructor
  · generalize hs : q.clark = s
    rintro (⟨hne, hbrace⟩ | @⟨uri, loc, hread, huri, hne⟩)
    · exact ⟨hne, .inl ⟨rfl, hbrace⟩⟩
    · by_cases hempty : uri = ""
      · -- empty braces are not printed
        rw [hempty] at hs hread
        have hloc : s = loc := hs.symm.trans (clark_none loc)
        rw [hloc] at hread
        have hlength := congrArg List.length hread
        simp only [List.length_append, List.length_cons] at hlength
        omega
      · rw [qualified_of_ne hempty]
        exact ⟨hne, .inr ⟨uri, rfl, hempty, huri⟩⟩
  · obtain ⟨ns, loc⟩ := q
    rintro ⟨hne, ⟨rfl, hbrace⟩ | ⟨uri, rfl, hempty, huri⟩⟩
    · rw [clark_none]
      exact .bare hne hbrace
    · rw [← qualified_of_ne hempty loc]
      refine .braced ?_ huri hne
      rw [qualified_of_ne hempty, toList_clark_some]

/-- A text that does not begin with empty braces is the one notation of its name that is printed. -/
theorem Clark.clark_eq (h : Clark s q) (hbraces : ¬ ['{', '}'] <+: s.toList) : q.clark = s := by
  cases h with
  | bare => exact clark_none s
  | @braced uri loc hs huri hne =>
    have hempty : uri ≠ "" := by
      rintro rfl
      exact hbraces ⟨loc.toList, hs.symm⟩
    rw [qualified_of_ne hempty, ← String.toList_inj, toList_clark_some, hs]

/-- No name is printed with empty braces in front, if it comes back. -/
theorem Writable.not_braces (h : q.Writable) : ¬ ['{', '}'] <+: q.clark.toList := by
  obtain ⟨ns, loc⟩ := q
  obtain ⟨-, ⟨rfl, hbrace⟩ | ⟨uri, rfl, hempty, huri⟩⟩ := h
  · rw [clark_none]
    rintro ⟨rest, hrest⟩
    exact hbrace (by simp [← hrest])
  · rw [toList_clark_some]
    rintro ⟨rest, hrest⟩
    cases hchars : uri.toList with
    | nil => exact hempty (String.toList_eq_nil_iff.1 hchars)
    | cons c cs =>
      rw [hchars] at hrest huri
      have hc : '}' = c := (List.cons.inj (List.cons.inj hrest).2).1
      exact huri (hc ▸ List.mem_cons_self)

/-! ## 3. There and back -/

/-- **The names that come back** from their text. -/
theorem ofClark?_clark_iff : ofClark? q.clark = some q ↔ q.Writable :=
  ofClark?_eq_some_iff.trans clark_clark_iff

/-- **Printing is a bijection** from the names that come back to the texts that are read and do not
begin with empty braces. -/
theorem clark_bijOn :
    Set.BijOn clark {q | q.Writable}
      {s | ¬ ['{', '}'] <+: s.toList ∧ ∃ q, ofClark? s = some q} := by
  refine ⟨?_, ?_, ?_⟩
  · intro q hq
    exact ⟨Writable.not_braces hq, q, ofClark?_clark_iff.2 hq⟩
  · intro q hq r hr heq
    have hread := ofClark?_clark_iff.2 hq
    rw [heq, ofClark?_clark_iff.2 hr] at hread
    exact (Option.some.inj hread).symm
  · rintro s ⟨hbraces, q, hq⟩
    have hs := (ofClark?_eq_some_iff.1 hq).clark_eq hbraces
    rw [← hs] at hq
    exact ⟨q, ofClark?_clark_iff.1 hq, hs⟩

/-- **Clark's notation, there and back.** A name comes back from its text exactly if its local name
is not empty and it is in no namespace and its local name does not begin with a brace, or it is in a
namespace of non-empty name without a closing brace. What is read from a text that does not begin
with empty braces is printed as that text. So printing is a bijection from the names that come back
to these texts. -/
theorem clark_there_and_back :
    (∀ q : ExpandedName, ofClark? q.clark = some q ↔
      q.localName ≠ "" ∧
        (q.namespaceName = none ∧ q.localName.toList.head? ≠ some '{' ∨
          ∃ uri, q.namespaceName = some uri ∧ uri ≠ "" ∧ '}' ∉ uri.toList)) ∧
    (∀ (s : String) (q : ExpandedName), ¬ ['{', '}'] <+: s.toList → ofClark? s = some q →
      q.clark = s) ∧
    Set.BijOn clark {q | ofClark? q.clark = some q}
      {s | ¬ ['{', '}'] <+: s.toList ∧ ∃ q, ofClark? s = some q} := by
  refine ⟨fun q => ofClark?_clark_iff, ?_, ?_⟩
  · intro s q hbraces h
    exact (ofClark?_eq_some_iff.1 h).clark_eq hbraces
  · simp only [ofClark?_clark_iff]
    exact clark_bijOn

/-- A brace in a local name is no matter behind a namespace. -/
theorem clark_there_and_back_brace_in_local_name :
    let q : ExpandedName := ⟨some "urn:a", "\x7db"⟩
    let s := "\x7burn:a\x7d\x7db"
    ofClark? q.clark = some q ∧ ¬ ['{', '}'] <+: s.toList ∧ ofClark? s = some q ∧ q.clark = s := by
  intro q s
  have hback : ofClark? q.clark = some q :=
    (clark_there_and_back.1 q).2 ⟨by decide, .inr ⟨"urn:a", rfl, by decide, by decide⟩⟩
  have hbraces : ¬ ['{', '}'] <+: s.toList := by decide
  have hread : ofClark? s = some q := by decide
  exact ⟨hback, hbraces, hread, clark_there_and_back.2.1 s q hbraces hread⟩

end ContentModel.ExpandedName
