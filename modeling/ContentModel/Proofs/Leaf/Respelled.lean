import ContentModel.Proofs.ExpandedName.Clark

/-!
# Two spellings of one name

A name in a namespace may be spelled with its namespace in braces, or plainly beside its namespace
as the default one; a name in no namespace plainly, beside no default namespace or beside the empty
one, or behind empty braces. A leaf should accept either all spellings of a name or none.
`Leaf.accepts_iff` gives this for leaves whose own name is proper, so what is left is the
declaration of a name in the namespace of empty name. That is no name that is spelled in any way,
but part by part it looks like one:

> **the only spelling by which it is matched is its local name beside the empty default**
> (`Leaf.accepts_spelled_iff`).

So this spelling, and no other, is not matched like the other spellings of the same name
(`Leaf.spellings_alike_iff`).
-/

set_option autoImplicit false

namespace ContentModel

open ExpandedName

/-! ## 1. Spellings of a name -/

namespace ExpandedName

variable {s uri loc : String} {default : Option String} {q : ExpandedName}

/-- The local name behind the name of a namespace in braces. -/
def braced (uri loc : String) : String := clark ⟨some uri, loc⟩

/-- A local name that does not look like a name in Clark's notation. -/
def Plain (loc : String) : Prop := loc ≠ "" ∧ loc.toList.head? ≠ some '{'

theorem proper_qualified (default : Option String) (loc : String) :
    (qualified default loc).Proper := by
  cases default with
  | none => simp [Proper, qualified]
  | some uri => by_cases h : uri = "" <;> simp [Proper, qualified, Option.filter, h]

/-- Whatever is spelled is proper. -/
theorem proper_of_spelled? (h : spelled? s default = some q) : q.Proper := by
  unfold spelled? at h
  split at h
  · cases h
  · split at h
    · exact proper_of_ofClark? h
    · rw [← Option.some.inj h]
      exact proper_qualified default s

theorem Plain.spelled? (h : Plain loc) (default : Option String) :
    spelled? loc default = some (qualified default loc) :=
  spelled?_of_plain h.1 h.2 default

theorem toList_braced (uri loc : String) :
    (braced uri loc).toList = '{' :: uri.toList ++ '}' :: loc.toList :=
  toList_clark_some uri loc

theorem head?_braced (uri loc : String) : (braced uri loc).toList.head? = some '{' := by
  rw [toList_braced]
  rfl

theorem not_plain_braced (uri loc : String) : ¬ Plain (braced uri loc) :=
  fun h => h.2 (head?_braced uri loc)

/-- What stands in the braces is the namespace, whatever the default one. -/
theorem spelled?_braced (hne : loc ≠ "") (huri : '}' ∉ uri.toList) (default : Option String) :
    spelled? (braced uri loc) default = some (qualified (some uri) loc) := by
  rw [spelled?_of_braced (head?_braced uri loc)]
  exact ofClark?_eq_some_iff.2 (.braced (toList_braced uri loc) huri hne)

theorem qualified_empty (loc : String) : qualified (some "") loc = qualified none loc := by
  simp [qualified]

end ExpandedName

/-! ## 2. Leaves -/

/-- A declaration in the namespace of empty name is matched part by part, and in no other way. -/
theorem ElementDecl.accepts_iff_of_empty {e : ElementDecl} (h : e.name.namespaceName = some "")
    (s : String) (d : Option String) :
    e.accepts s d = true ↔ d = some "" ∧ Plain s ∧ e.name.localName = s := by
  have hread : ofClark? s ≠ some e.name := fun hs => proper_of_ofClark? hs h
  unfold ElementDecl.accepts
  by_cases hne : s = ""
  · simp [hne, Plain]
  · rw [if_neg (by simpa using hne)]
    by_cases hbrace : s.toList.head? = some '{'
    · simp [hbrace, hread, Plain]
    · have hplain : (s.toList.head? == some '{') = false := beq_false_of_ne hbrace
      have huri : e.name.namespaceUri = "" := by rw [namespaceUri, h, Option.getD_some]
      cases d with
      | none => simp [hread]
      | some ns =>
        rw [hplain]
        dsimp only
        rw [huri, Bool.and_eq_true, beq_iff_eq, beq_iff_eq, Option.some.injEq, eq_comm (a := "")]
        exact and_congr_right fun _ => (and_iff_right ⟨hne, hbrace⟩).symm

namespace Leaf

variable {l : Leaf} {s s' n ns : String} {d d' : Option String}

/-- The leaf declares the local name in the namespace of empty name. -/
def DeclaresInEmpty (l : Leaf) (loc : String) : Prop :=
  ∃ e, l = .element e ∧ e.name = ⟨some "", loc⟩

/-- **What is accepted**: the spellings of the names that a leaf covers, and beside the empty
default namespace also the local name of a declaration in the namespace of empty name. -/
theorem accepts_spelled_iff (hl : l.declared = true) :
    l.accepts s d = true ↔
      (∃ q, spelled? s d = some q ∧ l.Covers q) ∨ d = some "" ∧ Plain s ∧ l.DeclaresInEmpty s := by
  by_cases hproper : l.Proper
  · have hnone : ¬ (d = some "" ∧ Plain s ∧ l.DeclaresInEmpty s) := by
      rintro ⟨-, -, e, he, hname⟩
      exact hproper e he (by rw [hname])
    rw [accepts_iff hl hproper, or_iff_left hnone]
  · obtain ⟨e, rfl, hname⟩ : ∃ e, l = .element e ∧ e.name.namespaceName = some "" := by
      simpa [Leaf.Proper, ExpandedName.Proper] using hproper
    have hnone : ¬ ∃ q, spelled? s d = some q ∧ (element e).Covers q := by
      rintro ⟨q, hq, rfl⟩
      exact proper_of_spelled? hq hname
    have hdeclares : (element e).DeclaresInEmpty s ↔ e.name.localName = s := by
      constructor
      · rintro ⟨f, ⟨⟩, hf⟩
        rw [hf]
      · intro hloc
        exact ⟨e, rfl, by rw [← hname, ← hloc]⟩
    rw [or_iff_right hnone, hdeclares]
    exact e.accepts_iff_of_empty hname s d

/-- **Two spellings of one name** are accepted alike, if neither is the one that a leaf knows only
part by part. -/
theorem accepts_congr (hl : l.declared = true) (hname : spelled? s d = spelled? s' d')
    (h : ¬ (d = some "" ∧ Plain s ∧ l.DeclaresInEmpty s))
    (h' : ¬ (d' = some "" ∧ Plain s' ∧ l.DeclaresInEmpty s')) :
    l.accepts s d = l.accepts s' d' := by
  rw [Bool.eq_iff_iff, accepts_spelled_iff hl, accepts_spelled_iff hl, or_iff_left h,
    or_iff_left h', hname]

/-! ## 3. Spellings beside one another -/

/-- A name in a namespace is matched alike in both spellings. -/
theorem accepts_qualified (hl : l.declared = true) (hn : Plain n) (hns : ns ≠ "")
    (huri : '}' ∉ ns.toList) (d : Option String) :
    l.accepts n (some ns) = l.accepts (braced ns n) d := by
  refine accepts_congr hl ?_ ?_ ?_
  · rw [hn.spelled?, spelled?_braced hn.1 huri]
  · exact fun h => hns (Option.some.inj h.1)
  · exact fun h => not_plain_braced ns n h.2.1

/-- A name in no namespace is matched alike without a default namespace and behind empty braces. -/
theorem accepts_unqualified (hl : l.declared = true) (hn : Plain n) (d : Option String) :
    l.accepts n none = l.accepts (braced "" n) d := by
  refine accepts_congr hl ?_ ?_ ?_
  · rw [hn.spelled?, spelled?_braced hn.1 (by simp), qualified_empty]
  · rintro ⟨⟨⟩, -⟩
  · exact fun h => not_plain_braced "" n h.2.1

/-- A name in no namespace is matched alike beside no default namespace and beside the empty one,
unless the leaf declares it in the empty one. -/
theorem accepts_none_eq_empty_iff (hl : l.declared = true) (hn : Plain n) :
    l.accepts n none = l.accepts n (some "") ↔ ¬ l.DeclaresInEmpty n := by
  constructor
  · intro halike hempty
    have hmatched : l.accepts n (some "") = true :=
      (accepts_spelled_iff hl).2 (.inr ⟨rfl, hn, hempty⟩)
    rw [← halike, accepts_spelled_iff hl] at hmatched
    obtain ⟨e, rfl, hname⟩ := hempty
    rcases hmatched with ⟨q, hq, rfl⟩ | ⟨hnone, -⟩
    · exact proper_of_spelled? hq (by rw [hname])
    · cases hnone
  · intro hempty
    refine accepts_congr hl ?_ ?_ ?_
    · rw [hn.spelled?, hn.spelled?, qualified_empty]
    · exact fun h => hempty h.2.2
    · exact fun h => hempty h.2.2

/-- **Matching goes by the expanded name**, with one exception. An element declaration or wildcard
accepts the spellings of the names that it covers; and if it declares a local name in the namespace
of empty name, it accepts that local name beside the empty default namespace. So a local name beside
a default namespace is matched exactly if it is matched behind that namespace in braces; without a
default namespace it is matched exactly if it is matched behind empty braces; and beside the empty
default namespace it is matched in the same way exactly if the leaf does not declare it in the
namespace of empty name. -/
theorem spellings_alike_iff (hl : l.declared = true) :
    (∀ n ns d, Plain n → ns ≠ "" → '}' ∉ ns.toList →
      l.accepts n (some ns) = l.accepts (braced ns n) d) ∧
    (∀ n d, Plain n → l.accepts n none = l.accepts (braced "" n) d) ∧
    (∀ n, Plain n →
      (l.accepts n none = l.accepts n (some "") ↔ ¬ ∃ e, l = .element e ∧ e.name = ⟨some "", n⟩)) ∧
    ∀ s d, l.accepts s d = true ↔
      (∃ q, spelled? s d = some q ∧ l.Covers q) ∨
        d = some "" ∧ Plain s ∧ ∃ e, l = .element e ∧ e.name = ⟨some "", s⟩ := by
  refine ⟨?_, ?_, ?_, ?_⟩
  · exact fun n ns d hn hns huri => accepts_qualified hl hn hns huri d
  · exact fun n d hn => accepts_unqualified hl hn d
  · exact fun n hn => accepts_none_eq_empty_iff hl hn
  · exact fun s d => accepts_spelled_iff hl

/-- A qualified name is matched beside another default namespace once its own stands in front; a
name in the namespace of empty name is not matched without a default one. -/
theorem spellings_alike_iff_qualified :
    let l : Leaf := .element ⟨⟨some "urn:a", "b"⟩, .once, none⟩
    let stray : Leaf := .element ⟨⟨some "", "b"⟩, .once, none⟩
    l.declared = true ∧ stray.declared = true ∧ Plain "b" ∧
    l.accepts (braced "urn:a" "b") (some "urn:x") = true ∧
      l.accepts "b" none = l.accepts "b" (some "") ∧
      stray.accepts "b" none ≠ stray.accepts "b" (some "") := by
  intro l stray
  have hl : l.declared = true := rfl
  have hstray : stray.declared = true := rfl
  have hplain : Plain "b" := ⟨by decide, by decide⟩
  have hown : l.accepts "b" (some "urn:a") = true := by decide
  refine ⟨hl, hstray, hplain, ?_, ?_, ?_⟩
  · rw [← (spellings_alike_iff hl).1 "b" "urn:a" (some "urn:x") hplain (by decide) (by decide),
      hown]
  · refine ((spellings_alike_iff hl).2.2.1 "b" hplain).2 ?_
    rintro ⟨e, he, hname⟩
    rw [← Leaf.element.inj he] at hname
    exact absurd hname (by decide)
  · exact fun halike => ((spellings_alike_iff hstray).2.2.1 "b" hplain).1 halike ⟨_, rfl, rfl⟩

/-- A name in no namespace is not matched alike in all its spellings. -/
theorem not_spellings_alike :
    ¬ ∀ (l : Leaf) (n ns : String) (d : Option String), l.declared = true → Plain n → ns ≠ "" →
      '}' ∉ ns.toList →
      l.accepts n (some ns) = l.accepts (braced ns n) d ∧
      l.accepts n none = l.accepts n (some "") ∧
      l.accepts n (some "") = l.accepts (braced "" n) d := by
  intro halike
  have hplain : Plain "a" := ⟨by decide, by decide⟩
  obtain ⟨-, hnone, -⟩ :=
    halike (.element ⟨⟨some "", "a"⟩, .once, none⟩) "a" "urn:x" none rfl hplain (by decide)
      (by decide)
  exact absurd hnone (by decide)

end Leaf

end ContentModel
