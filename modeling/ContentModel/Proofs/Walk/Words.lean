import ContentModel.Proofs.Tree
import ContentModel.Proofs.Walk.Recursive

/-!
# Walks that count in words

A walk that counts its depths in machine words goes by sums that wrap around. In almost all cases
that is no difference:

> **the words are the sums themselves** (`Walk.plain_trail`) if the limit is below the greatest
> word, wherever the walk may start, or else if the tree is not so high that the sums would reach
> that far.

Under a limit below the greatest word a group is entered at a depth below it, and so the next depth
is a word again, which is all that the induction needs. Under the greatest word as the limit no
group is ever too deep, and there it takes the height of the tree.
-/

set_option autoImplicit false

namespace ContentModel

/-! ## 1. Plain numbers -/

section

variable {δ : Type} [Depth δ]

/-- The item with its depth as a plain number. -/
def Item.plain (i : Item δ) : Item := ⟨i.particle, Depth.toNat i.depth⟩

/-- The trail with its depths as plain numbers. -/
def Trail.plain (t : Trail δ) : Trail := ⟨t.items.map Item.plain, t.ending⟩

theorem Trail.plain_andThen (t u : Trail δ) : (t.andThen u).plain = t.plain.andThen u.plain := by
  obtain ⟨is, ending⟩ := t
  cases ending with
  | error e => rfl
  | ok _ => exact congrArg (Trail.mk · u.ending) List.map_append

end

theorem Depth.toNat_down {d : UInt64} {n : Nat} (h : d.toNat + n < UInt64.size) :
    toNat (down d n) = d.toNat + n := by
  have hn : n < UInt64.size := Nat.lt_of_le_of_lt (Nat.le_add_left n _) h
  show (d + UInt64.ofNat n).toNat = d.toNat + n
  rw [UInt64.toNat_add, UInt64.toNat_ofNat_of_lt' hn]
  exact Nat.mod_eq_of_lt h

/-! ## 2. Walks -/

section

variable {m : Manner} {limit : UInt64}

theorem Particle.plain_trailAll {parent : Compositor} {depth : UInt64} {ps : List Particle}
    (h : ∀ p ∈ ps, (p.trail m ⟨limit⟩ parent depth).plain =
      p.trail m ⟨limit.toNat⟩ parent depth.toNat) :
    (Particle.trailAll m ⟨limit⟩ parent depth ps).plain =
      Particle.trailAll m ⟨limit.toNat⟩ parent depth.toNat ps := by
  induction ps with
  | nil =>
    rw [Particle.trailAll, Particle.trailAll]
    rfl
  | cons p ps ih =>
    rw [Particle.trailAll, Particle.trailAll, Trail.plain_andThen, h p List.mem_cons_self,
      ih fun q hq => h q (List.mem_cons_of_mem p hq)]

/-- **One particle** of a group that the limit allows, by induction over the tree. -/
theorem Particle.plain_trail (p : Particle) : ∀ (parent : Compositor) (depth : UInt64),
    depth ≤ limit → limit.toNat + 1 < UInt64.size ∨ depth.toNat + p.nesting + 1 < UInt64.size →
      (p.trail m ⟨limit⟩ parent depth).plain = p.trail m ⟨limit.toNat⟩ parent depth.toNat := by
  induction p using Particle.induction with
  | leaf l =>
    intro parent depth _ _
    rw [Particle.trail_leaf, Particle.trail_leaf]
    rfl
  | group g ih =>
    intro parent depth hdepth hfits
    have hle : depth.toNat ≤ limit.toNat := UInt64.le_iff_toNat_le.1 hdepth
    rw [Particle.nesting_group] at hfits
    have hdown : (Depth.down depth 1).toNat = depth.toNat + 1 := Depth.toNat_down (by omega)
    have hcheck : (DepthLimit.mk limit).check (Depth.down depth 1) =
        (DepthLimit.mk limit.toNat).check (depth.toNat + 1) := by
      rw [← hdown]
      rfl
    rw [Particle.trail_group, Particle.trail_group, Depth.down_nat, hcheck]
    cases m.visit parent g with
    | yield => rfl
    | pass =>
      cases (DepthLimit.mk limit.toNat).check (depth.toNat + 1) with
      | error e => rfl
      | ok _ => rfl
    | enter =>
      cases hc : (DepthLimit.mk limit.toNat).check (depth.toNat + 1) with
      | error e => rfl
      | ok _ =>
        have hin : Depth.down depth 1 ≤ limit := by
          rw [UInt64.le_iff_toNat_le, hdown]
          exact DepthLimit.le_of_check_ok hc
        dsimp only
        rw [← hdown]
        refine Particle.plain_trailAll fun q hq => ih q hq g.compositor _ hin ?_
        have := ModelGroup.nesting_le_height hq
        omega

end

/-- **Where the words are the sums themselves.** A walk is the same as if it counted with plain
numbers, its error included, unless it starts so close to the greatest word that the tree reaches
beyond it, and the limit does not end the walk before. -/
theorem Walk.plain_trail {g : ModelGroup} {start limit : UInt64}
    (h : limit.toNat + 1 < UInt64.size ∨ start.toNat + g.height + 1 < UInt64.size) (m : Manner) :
    (Walk.trail ⟨m, ⟨limit⟩, start, some g, []⟩).plain =
      Walk.trail ⟨m, ⟨limit.toNat⟩, start.toNat, some g, []⟩ := by
  rw [Walk.trail_start, Walk.trail_start]
  have hcheck : (DepthLimit.mk limit).check start = (DepthLimit.mk limit.toNat).check start.toNat :=
    rfl
  rw [hcheck]
  cases hc : (DepthLimit.mk limit.toNat).check start.toNat with
  | error e => rfl
  | ok _ =>
    cases m.opens g with
    | false => rfl
    | true =>
      have hstart : start ≤ limit := UInt64.le_iff_toNat_le.2 (DepthLimit.le_of_check_ok hc)
      refine Particle.plain_trailAll fun p hp => p.plain_trail g.compositor start hstart ?_
      have := ModelGroup.nesting_le_height hp
      omega

end ContentModel
