import ContentModel.Proofs.Leaf.Spelling
import Mathlib.Data.Fintype.EquivFin

/-!
# Overlap is a common match

Whether two leaves overlap is decided case by case, without looking at any name but those of the
element declarations themselves. This file says what the verdict means:

> **two leaves overlap exactly if some spelling is accepted by both**, or one declares the head of
> the other's substitution group (`Leaf.overlaps_iff`).

Between two wildcards the names do not matter, only the namespaces. There the one case that is not a
search through a list is that of two constraints that both leave out finitely many namespaces: there
are infinitely many, so some are left (`NamespaceConstraint.exists_allows`).
-/

set_option autoImplicit false

namespace ContentModel

/-! ## 1. Namespace constraints -/

namespace NamespaceConstraint

theorem allows_enumeration {names : NamespaceSet} {ns : String} :
    (enumeration names).allows ns = true ↔ ns ∈ names.toList := by
  simp [allows, NamespaceSet.contains]

/-- All constraints but lists leave out finitely many namespaces. -/
theorem exists_left_out {c : NamespaceConstraint} (h : ∀ names, c ≠ enumeration names) :
    ∃ out : List String, ∀ ns, ns ∉ out → c.allows ns = true := by
  cases c with
  | any => exact ⟨[], fun _ _ => rfl⟩
  | other target =>
    refine ⟨"" :: target.toList, fun ns hns => ?_⟩
    simp only [List.mem_cons, Option.mem_toList, not_or] at hns
    simpa [allows] using hns
  | enumeration names => exact absurd rfl (h names)
  | not names =>
    refine ⟨names.toList, fun ns hns => ?_⟩
    simpa [allows, NamespaceSet.contains] using hns

/-- **There is always another namespace** that two constraints both admit, unless one is a list. -/
theorem exists_allows {c d : NamespaceConstraint} (hc : ∀ names, c ≠ enumeration names)
    (hd : ∀ names, d ≠ enumeration names) : ∃ ns, c.allows ns = true ∧ d.allows ns = true := by
  obtain ⟨out, hout⟩ := exists_left_out hc
  obtain ⟨out', hout'⟩ := exists_left_out hd
  obtain ⟨ns, hns⟩ := Infinite.exists_notMem_finset (out ++ out').toFinset
  rw [List.mem_toFinset, List.mem_append, not_or] at hns
  exact ⟨ns, hout ns hns.1, hout' ns hns.2⟩

theorem overlaps_iff {c d : NamespaceConstraint} :
    c.overlaps d = true ↔ ∃ ns, c.allows ns = true ∧ d.allows ns = true := by
  by_cases hc : ∃ names, c = enumeration names
  · obtain ⟨names, rfl⟩ := hc
    simp [overlaps, List.any_eq_true, allows_enumeration]
  · by_cases hd : ∃ names, d = enumeration names
    · obtain ⟨names, rfl⟩ := hd
      have hsearch : c.overlaps (enumeration names) = names.toList.any c.allows := by
        cases c with
        | enumeration own => exact absurd ⟨own, rfl⟩ hc
        | _ => rfl
      simp [hsearch, List.any_eq_true, allows_enumeration, and_comm]
    · rw [not_exists] at hc hd
      refine iff_of_true ?_ (exists_allows hc hd)
      cases c <;> cases d <;> first | rfl | exact absurd rfl (hc _) | exact absurd rfl (hd _)

end NamespaceConstraint

/-! ## 2. Leaves -/

open ExpandedName

/-- Some spelling stands for the name. -/
def ExpandedName.Spelled (q : ExpandedName) : Prop := ∃ s d, spelled? s d = some q

namespace Leaf

/-- The name of an element declaration reads back from Clark's notation. -/
def Legible (l : Leaf) : Prop := ∀ e, l = .element e → ofClark? e.name.clark = some e.name

/-- Both declare elements, and one of them declares the head of the other's substitution group. -/
def Related (a b : Leaf) : Prop :=
  ∃ e f, a = .element e ∧ b = .element f ∧ (f.head = some e.name ∨ e.head = some f.name)

theorem Legible.proper {l : Leaf} (h : l.Legible) : l.Proper :=
  fun e he => proper_of_ofClark? (h e he)

theorem Legible.spelled {e : ElementDecl} (h : (element e).Legible) : e.name.Spelled :=
  ⟨e.name.clark, none, (spelled?_none _).trans (h e rfl)⟩

variable {a b : Leaf} {e : ElementDecl}

/-- Some name that can be spelled is covered by both. -/
def Shares (a b : Leaf) : Prop := ∃ q, q.Spelled ∧ a.Covers q ∧ b.Covers q

theorem shares_comm : a.Shares b ↔ b.Shares a :=
  exists_congr fun _ => and_congr_right fun _ => and_comm

theorem related_comm : a.Related b ↔ b.Related a := by
  constructor
  · rintro ⟨e, f, ha, hb, h⟩
    exact ⟨f, e, hb, ha, h.symm⟩
  · rintro ⟨e, f, ha, hb, h⟩
    exact ⟨f, e, hb, ha, h.symm⟩

/-- A common match is a name that both cover. -/
theorem exists_accepts_iff (ha : a.declared = true) (hb : b.declared = true) (hpa : a.Proper)
    (hpb : b.Proper) : (∃ s d, a.accepts s d = true ∧ b.accepts s d = true) ↔ a.Shares b := by
  simp only [accepts_iff ha hpa, accepts_iff hb hpb]
  constructor
  · rintro ⟨s, d, ⟨q, hq, hqa⟩, q', hq', hqb⟩
    rw [hq, Option.some.injEq] at hq'
    exact ⟨q, ⟨s, d, hq⟩, hqa, hq' ▸ hqb⟩
  · rintro ⟨q, ⟨s, d, hq⟩, hqa, hqb⟩
    exact ⟨s, d, ⟨q, hq, hqa⟩, q, hq, hqb⟩

/-- An element declaration and another leaf: its own name decides. -/
theorem shares_element_iff (h : (element e).Legible) : (element e).Shares b ↔ b.Covers e.name := by
  constructor
  · rintro ⟨q, -, rfl, hq⟩
    exact hq
  · intro hb
    exact ⟨e.name, h.spelled, rfl, hb⟩

/-- Two wildcards: there are names in every namespace. -/
theorem shares_wildcards_iff {v w : Wildcard} :
    (wildcard v).Shares (.wildcard w) ↔
      ∃ ns, v.constraint.allows ns = true ∧ w.constraint.allows ns = true := by
  constructor
  · rintro ⟨q, -, hv, hw⟩
    exact ⟨q.namespaceUri, hv, hw⟩
  · rintro ⟨ns, hv, hw⟩
    obtain ⟨s, d, q, hq, rfl⟩ := exists_spelled?_namespaceUri ns
    exact ⟨q, ⟨s, d, hq⟩, hv, hw⟩

theorem overlaps_element_wildcard (h : (element e).Legible) (w : Wildcard) :
    (element e).overlaps (.wildcard w) = w.constraint.allows e.name.namespaceUri := by
  show w.accepts e.name.clark none = _
  rw [Bool.eq_iff_iff, w.accepts_iff, spelled?_none, h e rfl]
  simp

/-- **Overlap, pair by pair.** -/
theorem overlaps_iff (ha : a.declared = true) (hb : b.declared = true) (hla : a.Legible)
    (hlb : b.Legible) :
    a.overlaps b = true ↔ a.Shares b ∨ a.Related b := by
  cases a with
  | element e =>
    rw [shares_element_iff hla]
    cases b with
    | element f =>
      have hname : f.name = e.name ↔ (element f).Covers e.name := eq_comm
      have hrelated : (element e).Related (element f) ↔
          f.head = some e.name ∨ e.head = some f.name := by
        simp [Related]
      rw [hrelated, ← hname]
      simp [overlaps, Leaf.name, ElementDecl.substitutes]
    | wildcard w => simp [overlaps_element_wildcard hla, Covers, Related]
    | custom l => cases hb
  | wildcard v =>
    cases b with
    | element f =>
      rw [shares_comm, shares_element_iff hlb]
      simp [overlaps, Leaf.name, Covers, Related]
    | wildcard w =>
      rw [shares_wildcards_iff]
      simp [overlaps, Leaf.name, Related, NamespaceConstraint.overlaps_iff]
    | custom l => cases hb
  | custom l => cases ha

/-- **Overlap is a common match**, for element declarations whose names read back and for wildcards:
some spelling, beside some default namespace or none, is accepted by both leaves, or one of them
declares the head of the other's substitution group. So it does not matter which of the two is
asked, and two wildcards overlap exactly if some namespace is admitted by both. -/
theorem overlaps_iff_common_match (ha : a.declared = true) (hb : b.declared = true)
    (hla : a.Legible) (hlb : b.Legible) :
    (a.overlaps b = true ↔
      (∃ spelling default, a.accepts spelling default = true ∧ b.accepts spelling default = true) ∨
      ∃ e f, a = .element e ∧ b = .element f ∧ (f.head = some e.name ∨ e.head = some f.name)) ∧
    a.overlaps b = b.overlaps a ∧
    ∀ v w, a = .wildcard v → b = .wildcard w →
      (a.overlaps b = true ↔
        ∃ ns, v.constraint.allows ns = true ∧ w.constraint.allows ns = true) := by
  refine ⟨?_, ?_, ?_⟩
  · rw [exists_accepts_iff ha hb hla.proper hlb.proper]
    exact overlaps_iff ha hb hla hlb
  · rw [Bool.eq_iff_iff, overlaps_iff ha hb hla hlb, overlaps_iff hb ha hlb hla, shares_comm,
      related_comm]
  · rintro v w rfl rfl
    exact NamespaceConstraint.overlaps_iff

/-- A qualified name is common to its declaration and to a wildcard that does not leave its
namespace out. A member of a substitution group overlaps the head, whichever of the two is asked. -/
theorem overlaps_iff_common_match_qualified :
    let head : ElementDecl := ⟨⟨some "urn:a", "head"⟩, .once, none⟩
    let member : ElementDecl := ⟨⟨none, "member"⟩, .once, some head.name⟩
    let w : Wildcard := ⟨.not (.ofList ["urn:b"]), .once⟩
    (element head).Legible ∧ (element member).Legible ∧ (wildcard w).Legible ∧
      (∃ spelling default, (element head).accepts spelling default = true ∧
        (wildcard w).accepts spelling default = true) ∧
      (element head).overlaps (element member) = true ∧
      (element member).overlaps (element head) = true := by
  intro head member w
  have hhead : (element head).Legible := by
    rintro e ⟨⟩
    decide
  have hmember : (element member).Legible := by
    rintro e ⟨⟩
    decide
  have hw : (wildcard w).Legible := by rintro e ⟨⟩
  have hcommon := (overlaps_iff_common_match rfl rfl hhead hw).1.1 (by decide)
  have hrelated := (overlaps_iff_common_match rfl rfl hhead hmember).1.2
    (.inr ⟨head, member, rfl, rfl, .inl rfl⟩)
  refine ⟨hhead, hmember, hw, hcommon.resolve_right ?_, hrelated, ?_⟩
  · rintro ⟨e, f, -, ⟨⟩, -⟩
  · rw [(overlaps_iff_common_match rfl rfl hmember hhead).2.1, hrelated]

end Leaf

end ContentModel
