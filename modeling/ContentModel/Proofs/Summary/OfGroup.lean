import ContentModel.Proofs.Effective.Exact
import ContentModel.Proofs.Overall
import ContentModel.Proofs.Walk.Places
import ContentModel.Summary.OfGroup

/-!
# A summary tells of every particle

A group is summed up by asking the model for everything else in this library: effective bounds of
each group, overall bounds of each leaf, for which the leaf is searched from the root. Each of these
has a limit of its own to run into, counted from another place. This file shows that none of them
does:

> **a model is summed up exactly if no group in it lies deeper than the limit**
> (`Summary.ofGroup_complete`), and otherwise the error is that of the first group that does.

The particles are summed up in document order, so all groups before a leaf have been checked by the
time the leaf is searched for, and the search, which allows one level more, meets none that is too
deep for it (`ModelGroup.clear_append_single`). What the summary holds is then read off in document
order as well (`ParticleSummary.unstack_cons`), particle by particle (`Summary.Describes`).
-/

set_option autoImplicit false

namespace ContentModel

/-! ## 1. Going through a summary -/

namespace ParticleSummary

theorem unstack_append (stack more : List ParticleSummary) :
    unstack (stack ++ more) = unstack stack ++ unstack more := by
  fun_induction unstack stack with
  | case1 => rfl
  | case2 p rest ih =>
    rw [List.cons_append, unstack, ← List.append_assoc, ih]
    rfl

/-- What lies below a particle comes right after it, and before what is beneath it on the stack. -/
theorem unstack_cons (p : ParticleSummary) (rest : List ParticleSummary) :
    unstack (p :: rest) = p :: (unstack p.particles ++ unstack rest) := by
  rw [unstack, unstack_append]

end ParticleSummary

/-! ## 2. What is said of a particle -/

namespace Summary

/-- The summary is that of a leaf which stands at a position in a model. -/
structure DescribesLeaf (root : ModelGroup) (limit : DepthLimit) (way : Position) (l : Leaf)
    (s : ParticleSummary) : Prop where
  kind : s.kind = if l.name.isSome then "element" else "any"
  name : s.name = l.name.map ExpandedName.clark
  occurs : s.occurs = l.occurs.bounds
  effective : s.effective = l.occurs.bounds
  emptiable : s.emptiable = l.emptiable
  single : s.single = l.occurs.single
  overall : ∃ b, s.overall = some b ∧ root.overallMin ⟨.leaf l, some way⟩ limit = .ok b.min ∧
    root.overallMax ⟨.leaf l, some way⟩ limit = .ok b.max
  particles : s.particles = []

/-- The summary is that of a group. -/
structure DescribesGroup (limit : DepthLimit) (g : ModelGroup) (s : ParticleSummary) : Prop where
  kind : s.kind = g.compositor.name
  name : s.name = none
  occurs : s.occurs = g.occurs.bounds
  effectiveMin : g.effectiveMin 0 limit = .ok s.effective.min
  effectiveMax : g.effectiveMax 0 limit = .ok s.effective.max
  emptiable : s.emptiable = g.emptiable
  single : s.single = g.single
  overall : s.overall = none
  particles : s.particles.length = g.particles.length

/-- The summary is that of the particle at a place in a model. -/
def Describes (root : ModelGroup) (limit : DepthLimit) (place : Position × Particle)
    (s : ParticleSummary) :
    Prop :=
  match place with
  | (way, .leaf l) => DescribesLeaf root limit way l s
  | (_, .group g) => DescribesGroup limit g s

/-! ## 3. Summing up as far as the limit allows -/

/-- A result of the wanted kind where the depth allows it; where it does not, the error for a group
that lies one level below the limit. -/
def Complete {α : Type} (limit : DepthLimit) (fits : Prop) (wanted : α → Prop)
    (r : Except Error α) :
    Prop :=
  (fits → ∃ a, r = .ok a ∧ wanted a) ∧
    (¬ fits → r = .error (.depth ⟨limit.max + 1, limit.max, none⟩))

section

variable {α β : Type} {limit : DepthLimit} {fits fits' : Prop} {wanted : α → Prop}
  {wanted' : β → Prop}

theorem Complete.bind {x : Except Error α} {k : α → Except Error β}
    (h : Complete limit fits wanted x)
    (hk : ∀ a, fits → wanted a → Complete limit fits' wanted' (k a)) :
    Complete limit (fits ∧ fits') wanted' (x >>= k) := by
  by_cases hfits : fits
  · obtain ⟨a, rfl, ha⟩ := h.1 hfits
    obtain ⟨hok, herror⟩ := hk a hfits ha
    exact ⟨fun hf => hok hf.2, fun hf => herror fun hf' => hf ⟨hfits, hf'⟩⟩
  · rw [h.2 hfits]
    exact ⟨fun hf => absurd hf.1 hfits, fun _ => rfl⟩

theorem Complete.map {x : Except Error α} {f : α → β} (h : Complete limit fits wanted x)
    (hf : ∀ a, fits → wanted a → wanted' (f a)) :
    Complete limit fits wanted' (do return f (← x)) := by
  constructor
  · intro hfits
    obtain ⟨a, rfl, ha⟩ := h.1 hfits
    exact ⟨f a, rfl, hf a hfits ha⟩
  · intro hfits
    rw [h.2 hfits]
    rfl

theorem Complete.imp {x : Except Error α} {wanted' : α → Prop} (h : Complete limit fits wanted x)
    (himp : ∀ a, wanted a → wanted' a) : Complete limit fits wanted' x := by
  refine ⟨fun hfits => ?_, h.2⟩
  obtain ⟨a, ha, hwanted⟩ := h.1 hfits
  exact ⟨a, ha, himp a hwanted⟩

theorem Complete.congr {x : Except Error α} (h : Complete limit fits wanted x)
    (hiff : fits' ↔ fits) :
    Complete limit fits' wanted x :=
  ⟨fun hf => h.1 (hiff.1 hf), fun hf => h.2 (mt hiff.2 hf)⟩

end

end Summary

/-! ## 4. The search for a leaf -/

/-- What comes before a position in a branch comes before the branch, or in it. -/
theorem Position.lt_append {spot way further : Position} (h : spot < way ++ further) :
    spot < way ∨ ∃ rest, spot = way ++ rest ∧ rest < further := by
  induction way generalizing spot with
  | nil => exact .inr ⟨spot, rfl, h⟩
  | cons i way ih =>
    cases spot with
    | nil => exact .inl (List.nil_lt_cons i way)
    | cons j spot =>
      rcases List.cons_lt_cons_iff.1 h with hji | ⟨rfl, hrest⟩
      · exact .inl (List.cons_lt_cons_iff.2 (.inl hji))
      · rcases ih hrest with hlt | ⟨rest, rfl, hlt⟩
        · exact .inl (List.cons_lt_cons_iff.2 (.inr ⟨rfl, hlt⟩))
        · exact .inr ⟨rest, rfl, hlt⟩

/-- A search comes as far as an index in a group if it comes to the group and nothing is too deep
for it in the particles before the index. -/
theorem ModelGroup.clear_append_single {root h : ModelGroup} {n i : Nat} {spot : Position}
    (hs : root.subgroup? spot = some h) (hclear : root.Clear n 0 spot) (hlevel : spot.length ≤ n)
    (hfront : ∀ p ∈ h.particles.take i, spot.length + p.nesting ≤ n) :
    root.Clear n 0 (spot ++ [i]) := by
  have hinside : h.Clear n spot.length [i] :=
    clear_cons.2 ⟨hlevel, hfront, fun k _ => k.clear_nil n _⟩
  intro other k hk hlt
  rcases Position.lt_append hlt with hbefore | ⟨rest, rfl, hbefore⟩
  · exact hclear other k hk hbefore
  · rw [subgroup?_append, hs, Option.bind_some] at hk
    have := hinside rest k hk hbefore
    rw [List.length_append]
    omega

/-! ## 5. A group and all that is in it -/

namespace Summary

def ofParticle (root : ModelGroup) (limit : DepthLimit) (way : Position) :
    Particle → Except Error ParticleSummary
  | .leaf l => ofLeaf root limit way l
  | .group g => ofSubgroup root limit way g

theorem ofParticles_cons (root : ModelGroup) (limit : DepthLimit) (spot : Position) (i : Nat)
    (p : Particle) (ps : List Particle) :
    ofParticles root limit spot i (p :: ps) = do
      let head ← ofParticle root limit (spot ++ [i]) p
      return head :: (← ofParticles root limit spot (i + 1) ps) := by
  cases p with
  | leaf l => rw [ofParticles, ofParticle]
  | group g => rw [ofParticles, ofParticle]

theorem ofSubgroup_eq (root : ModelGroup) (limit : DepthLimit) (spot : Position) (g : ModelGroup) :
    ofSubgroup root limit spot g = do
      (limit.check spot.length).mapError .depth
      let parts ← ofParticles root limit spot 0 g.particles
      let min ← g.effectiveMin 0 limit
      let max ← g.effectiveMax 0 limit
      return {
        kind := g.compositor.name
        name := none
        occurs := g.occurs.bounds
        effective := ⟨min, max⟩
        emptiable := g.emptiable
        single := g.single
        overall := none
        particles := parts } := by
  cases g
  rw [ofSubgroup]

/-- The summaries, gone through in document order, are those of the particles at the places. -/
def Tells (root : ModelGroup) (limit : DepthLimit) (spot : Position)
    (places : List (Position × Particle)) (parts : List ParticleSummary) : Prop :=
  List.Forall₂ (Describes root limit) (places.map (Position.below spot))
    (ParticleSummary.unstack parts)

section

variable {root : ModelGroup} {limit : DepthLimit} {spot : Position}

theorem tells_nil : Tells root limit spot [] [] := by
  unfold Tells
  rw [ParticleSummary.unstack]
  exact .nil

theorem Tells.append {places places' : List (Position × Particle)}
    {parts parts' : List ParticleSummary} (h : Tells root limit spot places parts)
    (h' : Tells root limit spot places' parts') :
    Tells root limit spot (places ++ places') (parts ++ parts') := by
  unfold Tells at h h' ⊢
  rw [List.map_append, ParticleSummary.unstack_append]
  exact List.rel_append h h'

/-- A group comes first, and then what is in it. -/
theorem Tells.group {g : ModelGroup} {s : ParticleSummary} (hg : DescribesGroup limit g s)
    (h : Tells root limit spot (Particle.placesAll 0 g.particles) s.particles) :
    Tells root limit spot g.places [s] := by
  unfold Tells at h ⊢
  rw [ModelGroup.places_eq, List.map_cons, ParticleSummary.unstack_cons, ParticleSummary.unstack,
    List.append_nil]
  exact .cons hg h

theorem tells_leaf {i : Nat} {l : Leaf} {s : ParticleSummary}
    (h : DescribesLeaf root limit (spot ++ [i]) l s) :
    Tells root limit spot ((Particle.leaf l).placesAt i) [s] := by
  unfold Tells
  rw [ParticleSummary.unstack_cons, h.particles, ParticleSummary.unstack]
  exact .cons h .nil

theorem Tells.branch {i : Nat} {g : ModelGroup} {s : ParticleSummary}
    (h : Tells root limit (spot ++ [i]) g.places [s]) :
    Tells root limit spot ((Particle.group g).placesAt i) [s] := by
  unfold Tells at h ⊢
  have hbelow : ((Particle.group g).placesAt i).map (Position.below spot) =
      g.places.map (Position.below (spot ++ [i])) := by
    rw [Particle.placesAt, List.map_map]
    exact List.map_congr_left fun place _ => Position.below_below spot [i] place
  rw [hbelow]
  exact h

theorem ofLeaf_describes {way : Position} {l : Leaf} (hd : l.declared = true)
    (hl : root.particle? way = some (.leaf l)) (hclear : root.Clear (limit.max + 1) 0 way) :
    ∃ s, ofLeaf root limit way l = .ok s ∧ DescribesLeaf root limit way l s := by
  obtain ⟨i, way, rfl⟩ := List.exists_cons_of_ne_nil (ModelGroup.ne_nil_of_particle?_leaf hl)
  have hfound : root.enclosing ⟨.leaf l, some (i :: way)⟩ limit = .ok (root.around (i :: way)) :=
    ModelGroup.enclosing_of_clear rfl hl hclear
  have hmin : root.overallMin ⟨.leaf l, some (i :: way)⟩ limit =
      .ok (Overall.min l.occurs.min (root.chain (i :: way))) := by
    rw [ModelGroup.overallMin, hfound]
    rfl
  have hmax : root.overallMax ⟨.leaf l, some (i :: way)⟩ limit =
      .ok (Overall.max l.occurs.max (root.chain (i :: way))) := by
    rw [ModelGroup.overallMax, hfound]
    rfl
  unfold ofLeaf
  rw [Leaf.effectiveMin_of_declared hd, Leaf.effectiveMax_of_declared hd]
  dsimp only
  rw [hmin, hmax]
  exact ⟨_, rfl, rfl, rfl, rfl, rfl, rfl, rfl, ⟨_, rfl, hmin, hmax⟩, rfl⟩

variable {h : ModelGroup}

/-- **The particles of a group one after the other**, from one on that the summary has come to. -/
theorem ofParticles_complete (hs : root.subgroup? spot = some h) (hd : h.declared = true)
    (hlevel : spot.length ≤ limit.max) (hclear : root.Clear (limit.max + 1) 0 spot)
    (ih : ∀ i k, h.particles[i]? = some (.group k) → root.Clear (limit.max + 1) 0 (spot ++ [i]) →
      Complete limit ((spot ++ [i]).length + k.height ≤ limit.max)
        (fun s => Tells root limit (spot ++ [i]) k.places [s])
          (ofSubgroup root limit (spot ++ [i]) k)) :
    ∀ {rest front : List Particle}, h.particles = front ++ rest →
      (∀ p ∈ front, spot.length + p.nesting ≤ limit.max) →
      Complete limit (∀ p ∈ rest, spot.length + p.nesting ≤ limit.max)
        (fun parts => parts.length = rest.length ∧
          Tells root limit spot (Particle.placesAll front.length rest) parts)
        (ofParticles root limit spot front.length rest) := by
  intro rest
  induction rest with
  | nil =>
    intro front _ _
    rw [ofParticles]
    refine ⟨fun _ => ⟨[], rfl, rfl, tells_nil⟩, fun hf => absurd (fun p hp => ?_) hf⟩
    cases hp
  | cons p rest ih_rest =>
    intro front hps hfront
    have hi : h.particles[front.length]? = some p := by
      rw [hps, List.getElem?_append_right (Nat.le_refl _), Nat.sub_self]
      rfl
    have hreached : root.Clear (limit.max + 1) 0 (spot ++ [front.length]) := by
      refine ModelGroup.clear_append_single hs hclear (Nat.le_succ_of_le hlevel) fun q hq => ?_
      rw [hps, List.take_left] at hq
      exact Nat.le_succ_of_le (hfront q hq)
    have hhead : Complete limit (spot.length + p.nesting ≤ limit.max)
        (fun s => Tells root limit spot (p.placesAt front.length) [s])
        (ofParticle root limit (spot ++ [front.length]) p) := by
      have hp := ModelGroup.declared_iff.1 hd p (List.mem_of_getElem? hi)
      cases p with
      | leaf l =>
        rw [Particle.declared_leaf] at hp
        obtain ⟨s, hok, hdescribes⟩ :=
          ofLeaf_describes hp (ModelGroup.particle?_of_getElem? hi hs) hreached
        rw [Particle.nesting_leaf, Nat.add_zero]
        exact ⟨fun _ => ⟨s, hok, tells_leaf hdescribes⟩, fun hf => absurd hlevel hf⟩
      | group k =>
        refine ((ih front.length k hi hreached).congr ?_).imp fun s => Tells.branch
        rw [Particle.nesting_group, List.length_append, List.length_singleton, Nat.add_assoc,
          Nat.add_comm 1]
    rw [ofParticles_cons]
    refine (hhead.bind fun s hfit hs => ?_).congr List.forall_mem_cons
    have hps' : h.particles = (front ++ [p]) ++ rest := by
      rw [hps, List.append_assoc]
      rfl
    have hfront' : ∀ q ∈ front ++ [p], spot.length + q.nesting ≤ limit.max := by
      intro q hq
      rcases List.mem_append.1 hq with hq | hq
      · exact hfront q hq
      · cases List.mem_singleton.1 hq
        exact hfit
    have htail := ih_rest hps' hfront'
    rw [List.length_append, List.length_singleton] at htail
    refine htail.map fun parts _ ⟨hlength, hparts⟩ => ?_
    exact ⟨congrArg (· + 1) hlength, hs.append hparts⟩

/-- **A group that the summary has come to**, by induction over the tree. -/
theorem ofSubgroup_complete {h : ModelGroup} :
    ∀ {spot : Position}, root.subgroup? spot = some h → h.declared = true →
      spot.length ≤ limit.max + 1 →
      root.Clear (limit.max + 1) 0 spot →
      Complete limit (spot.length + h.height ≤ limit.max)
        (fun s => Tells root limit spot h.places [s]) (ofSubgroup root limit spot h) := by
  induction h using ModelGroup.induction with
  | step h ih =>
    intro spot hs hd hreached hclear
    rw [ofSubgroup_eq]
    by_cases hlevel : spot.length ≤ limit.max
    · have hbranch : ∀ i k, h.particles[i]? = some (.group k) →
          root.Clear (limit.max + 1) 0 (spot ++ [i]) →
          Complete limit ((spot ++ [i]).length + k.height ≤ limit.max)
            (fun s => Tells root limit (spot ++ [i]) k.places [s])
            (ofSubgroup root limit (spot ++ [i]) k) := by
        intro i k hi hclear
        have hmem := List.mem_of_getElem? hi
        have hk := ModelGroup.declared_iff.1 hd _ hmem
        rw [Particle.declared_group] at hk
        have hsub : root.subgroup? (spot ++ [i]) = some k := by
          rw [ModelGroup.subgroup?_append, hs, Option.bind_some, ModelGroup.subgroup?_cons_of [] hi,
            ModelGroup.subgroup?_nil]
        have hlength : (spot ++ [i]).length ≤ limit.max + 1 := by
          rw [List.length_append, List.length_singleton]
          omega
        exact ih k hmem hsub hk hlength hclear
      have hall : h.particles = [] ++ h.particles := rfl
      have hparts := ofParticles_complete hs hd hlevel hclear hbranch hall (fun p hp => nomatch hp)
      have hfits : spot.length + h.height ≤ limit.max ↔
          ∀ p ∈ h.particles, spot.length + p.nesting ≤ limit.max := by
        constructor
        · intro hle p hp
          have := ModelGroup.nesting_le_height hp
          omega
        · intro hp
          have : h.height ≤ limit.max - spot.length := ModelGroup.height_le_iff.2 fun p hmem => by
            have := hp p hmem
            omega
          omega
      rw [DepthLimit.check_of_le hlevel]
      show Complete limit _ _ (ofParticles root limit spot 0 h.particles >>= _)
      constructor
      · intro hle
        obtain ⟨parts, hok, hlength, htells⟩ := hparts.1 (hfits.1 hle)
        have hheight : h.height ≤ limit.max := by omega
        obtain ⟨hmin, hmax⟩ := ModelGroup.effective_ok hd hheight
        rw [List.length_nil] at hok htells
        rw [hok, hmin, hmax]
        exact ⟨_, rfl, Tells.group ⟨rfl, rfl, rfl, hmin, hmax, rfl, rfl, rfl, hlength⟩ htells⟩
      · intro hle
        have herror := hparts.2 (mt hfits.2 hle)
        rw [List.length_nil] at herror
        rw [herror]
        rfl
    · have hdepth : spot.length = limit.max + 1 := by omega
      have hcheck : limit.check spot.length = .error ⟨limit.max + 1, limit.max, none⟩ := by
        rw [hdepth]
        exact DepthLimit.check_of_lt (Nat.lt_succ_self limit.max)
      rw [hcheck]
      exact ⟨fun hle => absurd (Nat.le_trans (Nat.le_add_right _ _) hle) hlevel, fun _ => rfl⟩

end

/-! ## 6. The whole model -/

/-- **A summary is complete.** A tree of elements and wildcards is summed up exactly if every group
in it is at most as deep as the limit; the error is otherwise that for the depth one below the
limit, whatever stands before it. The particles of the summary in document order, the root first,
are then those of the tree, one for one, and each is described as it is: what a leaf says of its
overall bounds is what the model answers for that position, and nobody else's. -/
theorem ofGroup_complete {g : ModelGroup} {limit : DepthLimit} (hd : g.declared = true) :
    ((∀ spot h, g.subgroup? spot = some h → spot.length ≤ limit.max) →
      ∃ s, ofGroup g limit = .ok s ∧ List.Forall₂ (Describes g limit) g.places s.toList) ∧
    ((¬ ∀ spot h, g.subgroup? spot = some h → spot.length ≤ limit.max) →
      ofGroup g limit = .error (.depth ⟨limit.max + 1, limit.max, none⟩)) ∧
    (∀ way p, (way, p) ∈ g.places ↔ g.particle? way = some p) ∧ g.places.Pairwise (·.1 < ·.1) := by
  have hclear : g.Clear (limit.max + 1) 0 [] := g.clear_nil _ _
  obtain ⟨hok, herror⟩ :=
    ofSubgroup_complete (ModelGroup.subgroup?_nil g) hd (Nat.zero_le _) hclear
  rw [List.length_nil, Nat.zero_add, ModelGroup.height_le_iff_subgroup?] at hok herror
  refine ⟨?_, ?_, fun way p => ModelGroup.mem_places, g.pairwise_places⟩
  · intro hfits
    obtain ⟨s, hs, htells⟩ := hok hfits
    refine ⟨⟨s⟩, by rw [ofGroup, hs]; rfl, ?_⟩
    unfold Tells at htells
    rw [List.map_id'' Position.below_nil] at htells
    exact htells
  · intro hfits
    rw [ofGroup, herror hfits]
    rfl

/-- The overall bounds in the summary of a leaf are computed from the groups on the way to it. -/
theorem DescribesLeaf.overall_eq {root : ModelGroup} {limit : DepthLimit} {way : Position}
    {l : Leaf} {s : ParticleSummary} (h : DescribesLeaf root limit way l s)
    (hl : root.particle? way = some (.leaf l)) (hfit : root.height ≤ limit.max + 1) :
    s.overall =
      some ⟨Overall.min l.occurs.min (root.chain way),
        Overall.max l.occurs.max (root.chain way)⟩ := by
  obtain ⟨b, hb, hmin, hmax⟩ := h.overall
  have hway := ModelGroup.ne_nil_of_particle?_leaf hl
  rw [ModelGroup.overallMin_eq hl hway hfit, Except.ok.injEq] at hmin
  rw [ModelGroup.overallMax_eq hl hway hfit, Except.ok.injEq] at hmax
  rw [hb]
  exact congrArg some (congrArg₂ Bounds.mk hmin.symm hmax.symm)

/-- The same element twice, once alone in a prohibited sequence: both are summed up, each with
bounds of its own, under a limit of one; under the limit zero the sequence is too deep. -/
theorem ofGroup_complete_same_element :
    let a : Leaf := .element ⟨⟨none, "a"⟩, .once, none⟩
    let g : ModelGroup := ⟨.sequence, .once, [.group ⟨.sequence, .prohibited, [.leaf a]⟩, .leaf a]⟩
    g.declared = true ∧ ofGroup g ⟨0⟩ = .error (.depth ⟨1, 0, none⟩) ∧
      g.places.map (·.1) = [[], [0], [0, 0], [1]] ∧
      ∃ s, ofGroup g ⟨1⟩ = .ok s ∧
        s.toList.map (·.overall) = [none, none, some ⟨0, .finite 0⟩, some ⟨1, .finite 1⟩] := by
  intro a g
  have hd : g.declared = true := by decide
  have hdeep : ¬ ∀ spot h, g.subgroup? spot = some h → spot.length ≤ 0 := by
    intro hfits
    exact absurd (hfits [0] _ rfl) (by decide)
  have hheight : g.height ≤ 1 := by decide
  have hfits : ∀ spot h, g.subgroup? spot = some h → spot.length ≤ 1 :=
    ModelGroup.height_le_iff_subgroup?.1 hheight
  obtain ⟨s, hs, hplaces⟩ := (@ofGroup_complete g ⟨1⟩ hd).1 hfits
  refine ⟨hd, (ofGroup_complete hd).2.1 hdeep, rfl, s, hs, ?_⟩
  have hlist : g.places = [([], .group g), ([0], .group ⟨.sequence, .prohibited, [.leaf a]⟩),
      ([0, 0], .leaf a), ([1], .leaf a)] := rfl
  rw [hlist] at hplaces
  generalize s.toList = parts at hplaces
  obtain _ | ⟨h₀, _ | ⟨h₁, _ | ⟨h₂, _ | ⟨h₃, _ | _⟩⟩⟩⟩ := hplaces
  -- the two leaves, whose summaries are told apart by the groups on the way
  have h₂ := DescribesLeaf.overall_eq h₂ rfl (Nat.le_succ_of_le hheight)
  have h₃ := DescribesLeaf.overall_eq h₃ rfl (Nat.le_succ_of_le hheight)
  simp only [List.map_cons, List.map_nil, DescribesGroup.overall h₀, DescribesGroup.overall h₁, h₂,
    h₃]
  decide

end Summary

end ContentModel
