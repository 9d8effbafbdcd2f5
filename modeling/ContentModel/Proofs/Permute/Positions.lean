import ContentModel.Proofs.Overall
import ContentModel.Proofs.Permute.Answers

/-!
# Particles in their new places

When the particles of a group are permuted, everything in them is found under another index from
then on, and the groups around the permuted one, as well as that one itself, hold their particles in
another order than before. `Position.moved` follows a particle to its new place,
`Particle.exchanged` says what it has become, and

> **no particle gets other overall bounds** (`ModelGroup.answers_permute`, with all else that a
> permutation leaves alone).

The chain of groups around a particle is as long as it was, and each group in it has the range and
the number of particles that it had. The proof is one induction over the position of the permuted
group (`ModelGroup.followed`): below that group a particle comes with its branch, beside the way
there it is where it was, and on the way it holds the group that was put in the place of the other.
-/

set_option autoImplicit false

namespace ContentModel

/-! ## 1. Where particles go and what they become -/

/-- Where a particle is found after the particles of the group at a spot have moved to other
indexes. -/
def Position.moved (f : Nat → Nat) : Position → Position → Position
  | _, [] => []
  | [], j :: way => f j :: way
  | a :: spot, j :: way => if j = a then a :: moved f spot way else j :: way

/-- What becomes of the particle at a position when a group is put in the place of the one at a
spot: a group on the way there holds the new one, and everything else is what it was. -/
def Particle.exchanged (new : ModelGroup) (spot way : Position) : Particle → Particle
  | .leaf l => .leaf l
  | .group h =>
    match way.isPrefixOf? spot with
    | some below => .group (h.putAt new below)
    | none => .group h

section

variable {f : Nat → Nat} {a j : Nat} {new : ModelGroup}

theorem Position.moved_nil (f : Nat → Nat) (spot : Position) : Position.moved f spot [] = [] := by
  cases spot with
  | nil => rfl
  | cons a spot => rfl

theorem Position.moved_within (f : Nat → Nat) (a : Nat) (spot way : Position) :
    Position.moved f (a :: spot) (a :: way) = a :: Position.moved f spot way := if_pos rfl

theorem Position.moved_beside (f : Nat → Nat) (h : j ≠ a) (spot way : Position) :
    Position.moved f (a :: spot) (j :: way) = j :: way := if_neg h

/-- Whoever undoes the move of the indexes undoes that of the positions. -/
theorem Position.moved_leftInverse {f' : Nat → Nat} (h : Function.LeftInverse f' f) :
    ∀ spot, Function.LeftInverse (Position.moved f' spot) (Position.moved f spot) := by
  intro spot
  induction spot with
  | nil =>
    intro way
    cases way with
    | nil => rfl
    | cons j way => exact congrArg (· :: way) (h j)
  | cons a spot ih =>
    intro way
    cases way with
    | nil => rfl
    | cons j way =>
      by_cases hj : j = a
      · rw [hj, moved_within, moved_within, ih way]
      · rw [moved_beside f hj, moved_beside f' hj]

theorem Particle.exchanged_below (p : Particle) (new : ModelGroup) (j : Nat) (way : Position) :
    p.exchanged new [] (j :: way) = p := by
  cases p with
  | leaf l => rfl
  | group h => rfl

theorem Particle.exchanged_within (p : Particle) (new : ModelGroup) (a : Nat)
    (spot way : Position) :
    p.exchanged new (a :: spot) (a :: way) = p.exchanged new spot way := by
  cases p with
  | leaf l => rfl
  | group h => rw [exchanged, exchanged, List.isPrefixOf?, if_pos (beq_self_eq_true a)]

theorem Particle.exchanged_beside (p : Particle) (new : ModelGroup) (h : j ≠ a)
    (spot way : Position) :
    p.exchanged new (a :: spot) (j :: way) = p := by
  cases p with
  | leaf l => rfl
  | group k =>
    have hne : ¬ (j == a) = true := fun e => h (beq_iff_eq.1 e)
    rw [exchanged, List.isPrefixOf?, if_neg hne]

end

/-! ## 2. The whole tree -/

namespace ModelGroup

theorem particle?_cons_of {t inner : ModelGroup} {a : Nat} (way : Position)
    (ha : t.particles[a]? = some (.group inner)) :
    t.particle? (a :: way) = inner.particle? way := by
  cases way with
  | nil => exact (t.particle?_single a).trans ha
  | cons j way =>
    apply Option.ext
    intro p
    rw [particle?_cons_cons_eq_some]
    constructor
    · rintro ⟨h, hh, hp⟩
      rw [ha] at hh
      cases hh
      exact hp
    · intro hp
      exact ⟨inner, ha, hp⟩

/-- The index that a permutation gives to a particle; there is nothing at indexes beyond the
particles. -/
def index (g : ModelGroup) (σ : Equiv.Perm (Fin g.particles.length)) : Equiv.Perm Nat :=
  σ.extendDomain Fin.equivSubtype

theorem getElem?_permute (g : ModelGroup) (σ : Equiv.Perm (Fin g.particles.length)) (i : Nat) :
    (g.permute σ).particles[g.index σ i]? = g.particles[i]? := by
  by_cases hi : i < g.particles.length
  · have hindex : g.index σ i = σ ⟨i, hi⟩ :=
      Equiv.Perm.extendDomain_apply_subtype σ Fin.equivSubtype hi
    rw [hindex, permute, List.getElem?_ofFn, dif_pos (σ ⟨i, hi⟩).isLt, Fin.eta,
      Equiv.symm_apply_apply]
    exact (List.getElem?_eq_getElem hi).symm
  · have hindex : g.index σ i = i := Equiv.Perm.extendDomain_apply_not_subtype σ Fin.equivSubtype hi
    rw [hindex, permute, List.getElem?_ofFn, dif_neg hi, List.getElem?_eq_none (Nat.not_lt.1 hi)]

theorem Rearranged.branches {g g' : ModelGroup} (h : Rearranged g g') :
    g'.branches ↔ g.branches := by
  unfold ModelGroup.branches
  rw [h.compositor, h.length]

/-- **Every particle can be followed**, by induction over the position of the permuted group. -/
theorem followed {g : ModelGroup} (σ : Equiv.Perm (Fin g.particles.length)) {p : Particle} :
    ∀ {spot way : Position} {t : ModelGroup}, t.subgroup? spot = some g → t.particle? way = some p →
      (t.putAt (g.permute σ) spot).particle? (Position.moved (g.index σ) spot way) =
          some (p.exchanged (g.permute σ) spot way) ∧
        (p.exchanged (g.permute σ) spot way).occurs = p.occurs ∧
        Overall.Same (t.chain way)
          ((t.putAt (g.permute σ) spot).chain (Position.moved (g.index σ) spot way)) := by
  intro spot
  induction spot with
  | nil =>
    intro way t ht hp
    cases ht
    cases way with
    | nil =>
      cases hp
      exact ⟨rfl, rfl, .refl []⟩
    | cons j way =>
      have hj := g.getElem?_permute σ j
      obtain ⟨tail, htail, htail'⟩ := exists_chain_tail way hj
      rw [Particle.exchanged_below]
      refine ⟨(particle?_cons_congr way hj).trans hp, rfl, ?_⟩
      show Overall.Same (g.chain (j :: way)) ((g.permute σ).chain (g.index σ j :: way))
      rw [htail, htail']
      exact (Overall.Same.refl tail).cons rfl (g.rearranged_permute σ).branches
  | cons a spot ih =>
    intro way t ht hp
    obtain ⟨inner, ha, hinner⟩ := subgroup?_cons_eq_some.1 ht
    have hoccurs := occurs_putAt_cons (g.permute σ) spot ha
    have hbranches := branches_putAt_cons (g.permute σ) spot ha
    cases way with
    | nil =>
      cases hp
      exact ⟨rfl, hoccurs, .refl []⟩
    | cons j way =>
      by_cases hj : j = a
      · have ha' := getElem?_putAt_cons (g.permute σ) spot ha
        rw [hj] at hp
        rw [particle?_cons_of way ha] at hp
        obtain ⟨hp', hrange, hchain⟩ := ih hinner hp
        rw [hj, Position.moved_within, Particle.exchanged_within, particle?_cons_of _ ha',
          chain_cons_of _ ha, chain_cons_of _ ha']
        exact ⟨hp', hrange, hchain.cons hoccurs hbranches⟩
      · have hj' := getElem?_putAt_cons_of_ne (g.permute σ) spot ha hj
        obtain ⟨tail, htail, htail'⟩ := exists_chain_tail way hj'
        rw [Position.moved_beside _ hj, Particle.exchanged_beside _ _ hj,
          particle?_cons_congr way hj', htail, htail']
        exact ⟨hp, rfl, (Overall.Same.refl tail).cons hoccurs hbranches⟩

/-- **The order of the particles does not matter.** Let the particles of some group of a tree be
permuted. The tree is emptiable, single or empty if it was, and restricts the leaves that it did; if
it is one of elements and wildcards, its effective bounds are found under every limit that it stays
within, and are what they were; and every particle in it is found in its new place, which is that of
no other, with the overall bounds that it had. -/
theorem answers_permute {t g : ModelGroup} {spot : Position} (hg : t.subgroup? spot = some g)
    (σ : Equiv.Perm (Fin g.particles.length)) :
    let t' := t.putAt (g.permute σ) spot
    t'.emptiable = t.emptiable ∧ t'.single = t.single ∧ t'.empty = t.empty ∧
    (t.declared = true → ∀ limit : DepthLimit, t.height ≤ limit.max →
      ∃ lower upper,
        t.effectiveMin 0 limit = .ok lower ∧ t'.effectiveMin 0 limit = .ok lower ∧
        t.effectiveMax 0 limit = .ok upper ∧ t'.effectiveMax 0 limit = .ok upper) ∧
    (∀ b, (Particle.group t').restricts (.leaf b) = (Particle.group t).restricts (.leaf b)) ∧
    (∀ limit : DepthLimit, t.height ≤ limit.max → ∀ way p, way ≠ [] → t.particle? way = some p →
      let way' := Position.moved (g.index σ) spot way
      let p' := p.exchanged (g.permute σ) spot way
      t'.particle? way' = some p' ∧
      ∃ lower upper,
        t.overallMin ⟨p, some way⟩ limit = .ok lower ∧
        t'.overallMin ⟨p', some way'⟩ limit = .ok lower ∧
        t.overallMax ⟨p, some way⟩ limit = .ok upper ∧
          t'.overallMax ⟨p', some way'⟩ limit = .ok upper) ∧
    Function.Injective (Position.moved (g.index σ) spot) := by
  intro t'
  have hsame : Rearranged t t' := (g.rearranged_permute σ).putAt hg
  have hinjective : Function.Injective (Position.moved (g.index σ) spot) :=
    (Position.moved_leftInverse (g.index σ).symm_apply_apply spot).injective
  refine ⟨hsame.emptiable, hsame.single, hsame.empty, ?_, fun b => hsame.restrictsLeaf b.occurs, ?_,
    hinjective⟩
  · intro hd limit hfit
    have hd' : t'.declared = true := hsame.declared.trans hd
    have hfit' : t'.height ≤ limit.max := hsame.height ▸ hfit
    obtain ⟨hmin, hmax⟩ := effective_congr hd hd' hfit hfit' hsame.exactRange
    obtain ⟨hlower, hupper⟩ := effective_ok hd hfit
    exact ⟨_, _, hlower, hmin.trans hlower, hupper, hmax.trans hupper⟩
  · intro limit hfit way p hway hp way' p'
    obtain ⟨hp', hrange, hchain⟩ := followed σ hg hp
    have hway' : way' ≠ [] := fun e => hway (hinjective (e.trans (Position.moved_nil _ spot).symm))
    have hfit' : t'.height ≤ limit.max + 1 := hsame.height ▸ Nat.le_succ_of_le hfit
    refine ⟨hp', Overall.min p.occurs.min (t.chain way), Overall.max p.occurs.max (t.chain way),
      ?_, ?_, ?_, ?_⟩
    · exact overallMin_eq hp hway (Nat.le_succ_of_le hfit)
    · rw [← hrange, ← hchain.min]
      exact overallMin_eq hp' hway' hfit'
    · exact overallMax_eq hp hway (Nat.le_succ_of_le hfit)
    · rw [← hrange, ← hchain.max]
      exact overallMax_eq hp' hway' hfit'

/-- A sequence that is dissolved in another one has its two elements exchanged: the first of them is
the second then, and the sequence itself, which stands where it was, has them in the new order. -/
theorem answers_permute_dissolved_sequence :
    let leaf (name : String) (o : Occurs) : Particle := .leaf (.element ⟨⟨none, name⟩, o, none⟩)
    let g : ModelGroup := ⟨.sequence, .once, [leaf "a" .optional, leaf "b" .oneOrMore]⟩
    let t : ModelGroup := ⟨.sequence, .oneOrMore, [leaf "c" .once, .group g]⟩
    let σ : Equiv.Perm (Fin g.particles.length) := Equiv.swap ⟨0, by decide⟩ ⟨1, by decide⟩
    let t' := t.putAt (g.permute σ) [1]
    let swapped : ModelGroup := ⟨.sequence, .once, [leaf "b" .oneOrMore, leaf "a" .optional]⟩
    t.subgroup? [1] = some g ∧ t' = ⟨.sequence, .oneOrMore, [leaf "c" .once, .group swapped]⟩ ∧
      t'.particle? [1, 1] = some (leaf "a" .optional) ∧ t'.particle? [1] = some (.group swapped) ∧
      (∃ lower upper,
        t.effectiveMin 0 .standard = .ok lower ∧ t'.effectiveMin 0 .standard = .ok lower ∧
        t.effectiveMax 0 .standard = .ok upper ∧ t'.effectiveMax 0 .standard = .ok upper) ∧
      ∃ lower upper,
        t.overallMin ⟨leaf "a" .optional, some [1, 0]⟩ .standard = .ok lower ∧
        t'.overallMin ⟨leaf "a" .optional, some [1, 1]⟩ .standard = .ok lower ∧
        t.overallMax ⟨leaf "a" .optional, some [1, 0]⟩ .standard = .ok upper ∧
        t'.overallMax ⟨leaf "a" .optional, some [1, 1]⟩ .standard = .ok upper := by
  intro leaf g t σ t' swapped
  have hg : t.subgroup? [1] = some g := rfl
  have hpermute : g.permute σ = swapped := rfl
  have hfit : t.height ≤ DepthLimit.standard.max := by decide
  obtain ⟨-, -, -, heffective, -, hparticles, -⟩ := answers_permute hg σ
  obtain ⟨ha, hbounds⟩ :=
    hparticles .standard hfit [1, 0] (leaf "a" .optional) (List.cons_ne_nil _ _) rfl
  obtain ⟨hgroup, -⟩ := hparticles .standard hfit [1] (.group g) (List.cons_ne_nil _ _) rfl
  exact ⟨hg, rfl, ha, hgroup, heffective rfl .standard hfit, hbounds⟩

end ModelGroup

end ContentModel
