import Mathlib.Data.Fintype.EquivFin
import Mathlib.Data.List.Induction
import Mathlib.Logic.Relation
import SynthGraph.Proofs.Chains

/-!
# Roots of chains

The buffer of a copy is as large as that of the generator at the root of the chain, which is found
by following first inputs. When a chain is copied, others may have been before it, and their copies
now stand in the way up. Walking through them leads to the same root: a copy takes its chain as its
first input, so `Lengthened` says that every way up has become longer by copies only. Copies neither
close a circle nor open one, so copying ends exactly if every chain to be copied has a root
(`splitChains_eq_none_iff`).
-/

namespace SynthGraph

namespace Graph

variable {g g' g₁ g₂ : Graph} {a b root : Nat}

/-! ## Walking up a chain -/

/-- Node `a` takes its first input from the chain `b`, and is no transform, which is where chains
start. -/
structure Upstream (g : Graph) (a b : Nat) : Prop where
  inner : (g.node a).flags.pv ≠ .fft
  first : ∃ output, (g.node a).inputs.head? = some (.node ⟨b, output⟩)
  chain : g.isPv b

/-- The walk up from `a` ends at `root`. -/
structure IsRoot (g : Graph) (a root : Nat) : Prop where
  path : Relation.ReflTransGen g.Upstream a root
  ends : ∀ b, ¬g.Upstream root b

/-- No walk up comes back to where it was. -/
def Rooted (g : Graph) : Prop := ∀ id, ¬Relation.TransGen g.Upstream id id

theorem lt_size_of_isPv (h : g.isPv a) : a < g.nodes.size := by
  by_contra hge
  rw [isPv, node_eq, Array.getElem?_eq_none (by omega)] at h
  cases h

theorem Upstream.lt_size (h : g.Upstream a b) : a < g.nodes.size := by
  by_contra hge
  obtain ⟨output, hfirst⟩ := h.first
  rw [node_eq, Array.getElem?_eq_none (by omega)] at hfirst
  cases hfirst

theorem Upstream.unique {c : Nat} (h : g.Upstream a b) (h' : g.Upstream a c) : b = c := by
  obtain ⟨output, hfirst⟩ := h.first
  obtain ⟨output', hfirst'⟩ := h'.first
  rw [hfirst] at hfirst'
  cases hfirst'
  rfl

theorem IsRoot.head (h : g.IsRoot b root) (hab : g.Upstream a b) : g.IsRoot a root :=
  ⟨.head hab h.path, h.ends⟩

theorem IsRoot.not_transGen (h : g.IsRoot a root) : ¬Relation.TransGen g.Upstream a a := by
  obtain ⟨hpath, hends⟩ := h
  induction hpath using Relation.ReflTransGen.head_induction_on with
  | refl =>
    intro hcycle
    obtain ⟨b, hstep, -⟩ := Relation.TransGen.head'_iff.1 hcycle
    exact hends b hstep
  | head hstep _ ih =>
    intro hcycle
    obtain ⟨b, hstep', hback⟩ := Relation.TransGen.head'_iff.1 hcycle
    obtain rfl := hstep.unique hstep'
    exact ih (.tail' hback hstep)

/-- In a finite arena a walk that never comes back ends. -/
theorem Rooted.exists_isRoot (hg : g.Rooted) (a : Nat) : ∃ root, g.IsRoot a root := by
  let R : Fin g.nodes.size → Fin g.nodes.size → Prop := fun x y =>
    Relation.TransGen g.Upstream y.1 x.1
  have hwf : WellFounded R := by
    have : IsTrans _ R := ⟨fun _ _ _ hxy hyz => Relation.TransGen.trans hyz hxy⟩
    have : Std.Irrefl R := ⟨fun x => hg x.1⟩
    exact Finite.wellFounded_of_trans_of_irrefl R
  have hinside : ∀ x : Fin g.nodes.size, ∃ root, g.IsRoot x.1 root := by
    intro x
    induction x using hwf.induction with
    | _ x ih =>
      by_cases hup : ∃ b, g.Upstream x.1 b
      · obtain ⟨b, hb⟩ := hup
        obtain ⟨root, hroot⟩ := ih ⟨b, lt_size_of_isPv hb.chain⟩ (.single hb)
        exact ⟨root, hroot.head hb⟩
      · exact ⟨x.1, .refl, not_exists.1 hup⟩
  by_cases ha : a < g.nodes.size
  · exact hinside ⟨a, ha⟩
  · exact ⟨a, .refl, fun b hb => ha hb.lt_size⟩

theorem chainRoot?_of_upstream (h : g.Upstream a b) (fuel : Nat) :
    g.chainRoot? (fuel + 1) a = g.chainRoot? fuel b := by
  obtain ⟨output, hfirst⟩ := h.first
  have hinner := h.inner
  simp [chainRoot?, hfirst, hinner, h.chain]

theorem chainRoot?_of_ends (h : ∀ b, ¬g.Upstream a b) (fuel : Nat) :
    g.chainRoot? (fuel + 1) a = some a := by
  simp only [chainRoot?]
  split
  · next ref hfirst =>
    rw [if_neg]
    rintro hchain
    rw [Bool.and_eq_true, bne_iff_ne] at hchain
    exact h ref.ugen ⟨hchain.1, ⟨ref.output, hfirst⟩, hchain.2⟩
  · rfl

/-- What the walk finds is the root. -/
theorem isRoot_of_chainRoot? {fuel : Nat} (h : g.chainRoot? fuel a = some root) :
    g.IsRoot a root := by
  induction fuel generalizing a with
  | zero => cases h
  | succ fuel ih =>
    by_cases hup : ∃ b, g.Upstream a b
    · obtain ⟨b, hab⟩ := hup
      rw [chainRoot?_of_upstream hab] at h
      exact (ih h).head hab
    · rw [chainRoot?_of_ends (not_exists.1 hup)] at h
      cases h
      exact ⟨.refl, not_exists.1 hup⟩

/-- A walk that ends visits no node twice, and any bound above the number of its steps is enough. -/
theorem IsRoot.exists_visited (h : g.IsRoot a root) : ∃ visited : List Nat, visited.Nodup ∧
    (∀ v ∈ visited, v < g.nodes.size ∧ Relation.ReflTransGen g.Upstream a v) ∧
    ∀ fuel, visited.length < fuel → g.chainRoot? fuel a = some root := by
  obtain ⟨hpath, hends⟩ := h
  induction hpath using Relation.ReflTransGen.head_induction_on with
  | refl =>
    refine ⟨[], List.nodup_nil, by simp, fun fuel hfuel => ?_⟩
    obtain ⟨fuel, rfl⟩ := Nat.exists_eq_add_of_lt hfuel
    rw [chainRoot?_of_ends hends]
  | @head a b hstep hpath ih =>
    obtain ⟨visited, hnodup, hvisited, hwalk⟩ := ih
    have hcycle := ((IsRoot.mk hpath hends).head hstep).not_transGen
    refine ⟨a :: visited, List.nodup_cons.2 ⟨fun ha => ?_, hnodup⟩, ?_, fun fuel hfuel => ?_⟩
    · exact hcycle (.head' hstep (hvisited a ha).2)
    · refine List.forall_mem_cons.2 ⟨⟨hstep.lt_size, .refl⟩, fun v hv => ?_⟩
      exact ⟨(hvisited v hv).1, .head hstep (hvisited v hv).2⟩
    · obtain ⟨fuel, rfl⟩ := Nat.exists_eq_add_of_lt hfuel
      rw [chainRoot?_of_upstream hstep]
      exact hwalk _ (by rw [List.length_cons]; omega)

/-- The bound of a walk that ends is never reached. -/
theorem IsRoot.chainRoot?_eq (h : g.IsRoot a root) {fuel : Nat} (hfuel : g.nodes.size < fuel) :
    g.chainRoot? fuel a = some root := by
  obtain ⟨visited, hnodup, hvisited, hwalk⟩ := h.exists_visited
  have hsub : visited ⊆ List.range g.nodes.size := fun v hv => List.mem_range.2 (hvisited v hv).1
  have hlen : visited.length ≤ g.nodes.size := by
    simpa using (List.subperm_of_subset hnodup hsub).length_le
  exact hwalk fuel (Nat.lt_of_le_of_lt hlen hfuel)

theorem chainRoot?_of_transGen (hab : Relation.TransGen g.Upstream a b) {fuel : Nat}
    (h : g.chainRoot? fuel a = some root) : ∃ fuel' < fuel, g.chainRoot? fuel' b = some root := by
  have hstep : ∀ {x y fuel}, g.Upstream x y → g.chainRoot? fuel x = some root →
      ∃ fuel' < fuel, g.chainRoot? fuel' y = some root := by
    intro x y fuel hxy hx
    cases fuel with
    | zero => cases hx
    | succ fuel => exact ⟨fuel, Nat.lt_succ_self _, chainRoot?_of_upstream hxy fuel ▸ hx⟩
  induction hab with
  | single hxy => exact hstep hxy h
  | tail _ hxy ih =>
    obtain ⟨fuel', hlt, hx⟩ := ih
    obtain ⟨fuel'', hlt', hy⟩ := hstep hxy hx
    exact ⟨fuel'', hlt'.trans hlt, hy⟩

/-- A walk without a root has no end, however far it goes. -/
theorem chainRoot?_eq_none_iff :
    (∀ fuel, g.chainRoot? fuel a = none) ↔ ∀ root, ¬g.IsRoot a root := by
  constructor
  · intro h root hroot
    have := hroot.chainRoot?_eq (Nat.lt_succ_self _)
    rw [h] at this
    cases this
  · intro h fuel
    cases hroot : g.chainRoot? fuel a with
    | none => rfl
    | some root => exact absurd (isRoot_of_chainRoot? hroot) (h root)

/-! ## Ways up through copies -/

/-- Every node that is live or referred to is in the arena. -/
structure Contained (g : Graph) : Prop where
  live : ∀ id ∈ g.order, id < g.nodes.size
  refs : ∀ id, ∀ ref ∈ (g.node id).refs, ref.ugen < g.nodes.size

/-- Node `copy` copies `chain`. -/
structure CopyOf (g : Graph) (copy chain : Nat) : Prop where
  role : (g.node copy).flags.pv = .copy
  first : (g.node copy).inputs.head? = some (.node ⟨chain, 0⟩)

theorem CopyOf.isPv {copy chain : Nat} (h : g.CopyOf copy chain) : g.isPv copy := by
  rw [Graph.isPv, Flags.isPv, h.role]
  rfl

/-- `g'` is `g` up to copies: where a node took its first input from a chain, it may take it from a
new copy of this chain. -/
structure Lengthened (g g' : Graph) : Prop where
  size : g.nodes.size ≤ g'.nodes.size
  live : g.order ⊆ g'.order
  flags : ∀ id < g.nodes.size, (g'.node id).flags = (g.node id).flags
  first : ∀ id < g.nodes.size, (g'.node id).inputs.head? = (g.node id).inputs.head? ∨
    ∃ chain output copy, (g.node id).inputs.head? = some (.node ⟨chain, output⟩) ∧ g.isPv chain ∧
      (g'.node id).inputs.head? = some (.node ⟨copy, 0⟩) ∧ g.nodes.size ≤ copy ∧
      g'.CopyOf copy chain
  copies : ∀ id, g.nodes.size ≤ id → g'.isPv id → ∃ chain, g.isPv chain ∧ g'.CopyOf id chain

namespace Lengthened

theorem refl (g : Graph) : g.Lengthened g where
  size := Nat.le_refl _
  live := List.Subset.refl _
  flags _ _ := rfl
  first _ _ := .inl rfl
  copies id hid hpv := absurd (lt_size_of_isPv hpv) (by omega)

theorem isPv_iff (h : g.Lengthened g') (ha : a < g.nodes.size) : g'.isPv a = g.isPv a := by
  rw [isPv, isPv, h.flags a ha]

theorem upstream_of_copyOf (h : g.Lengthened g') {copy chain : Nat} (hchain : g.isPv chain)
    (hcopy : g'.CopyOf copy chain) : g'.Upstream copy chain where
  inner := by rw [hcopy.role]; decide
  first := ⟨0, hcopy.first⟩
  chain := by rwa [h.isPv_iff (lt_size_of_isPv hchain)]

theorem path_of_upstream (h : g.Lengthened g') (hab : g.Upstream a b) :
    Relation.TransGen g'.Upstream a b := by
  have ha := hab.lt_size
  have hinner : (g'.node a).flags.pv ≠ .fft := by
    rw [h.flags a ha]
    exact hab.inner
  obtain ⟨output, hfirst⟩ := hab.first
  rcases h.first a ha with hsame | ⟨chain, output', copy, hold, hchain, hnew, -, hcopy⟩
  · refine .single ⟨hinner, ⟨output, hsame.trans hfirst⟩, ?_⟩
    rw [h.isPv_iff (lt_size_of_isPv hab.chain)]
    exact hab.chain
  · rw [hfirst] at hold
    cases hold
    exact .head ⟨hinner, ⟨0, hnew⟩, hcopy.isPv⟩ (.single (h.upstream_of_copyOf hchain hcopy))

theorem ends (h : g.Lengthened g') (ha : a < g.nodes.size)
    (hrefs : ∀ ref ∈ (g.node a).refs, ref.ugen < g.nodes.size) (hends : ∀ b, ¬g.Upstream a b) :
    ∀ b, ¬g'.Upstream a b := by
  intro b hab
  have hinner : (g.node a).flags.pv ≠ .fft := by
    rw [← h.flags a ha]
    exact hab.inner
  obtain ⟨output, hfirst⟩ := hab.first
  rcases h.first a ha with hsame | ⟨chain, output', _, hold, hchain, -⟩
  · rw [hsame] at hfirst
    have hb : b < g.nodes.size := hrefs ⟨b, output⟩ (Node.mem_refs.2 (List.mem_of_head? hfirst))
    have hchain := hab.chain
    rw [h.isPv_iff hb] at hchain
    exact hends b ⟨hinner, ⟨output, hfirst⟩, hchain⟩
  · exact hends chain ⟨hinner, ⟨output', hold⟩, hchain⟩

theorem isRoot (h : g.Lengthened g') (ha : a < g.nodes.size) (hroot : g.IsRoot a root)
    (hrefs : ∀ ref ∈ (g.node root).refs, ref.ugen < g.nodes.size) : g'.IsRoot a root := by
  obtain ⟨hpath, hends⟩ := hroot
  induction hpath using Relation.ReflTransGen.head_induction_on with
  | refl => exact ⟨.refl, h.ends ha hrefs hends⟩
  | head hstep _ ih =>
    have hrest := ih (lt_size_of_isPv hstep.chain)
    exact ⟨(h.path_of_upstream hstep).to_reflTransGen.trans hrest.path, hrest.ends⟩

/-- Copies open no circle: a walk that ends in `g'` ends in `g`. -/
theorem exists_isRoot (h : g.Lengthened g') (hroot : g'.IsRoot a root) :
    ∃ root, g.IsRoot a root := by
  have hwalk : ∀ fuel a, g'.chainRoot? fuel a = some root → ∃ root, g.IsRoot a root := by
    intro fuel
    induction fuel using Nat.strong_induction_on with
    | _ fuel ih =>
      intro a hfound
      by_cases hup : ∃ b, g.Upstream a b
      · obtain ⟨b, hab⟩ := hup
        obtain ⟨fuel', hlt, hrest⟩ := chainRoot?_of_transGen (h.path_of_upstream hab) hfound
        obtain ⟨root, hroot⟩ := ih fuel' hlt b hrest
        exact ⟨root, hroot.head hab⟩
      · exact ⟨a, .refl, not_exists.1 hup⟩
  exact hwalk _ a (hroot.chainRoot?_eq (Nat.lt_succ_self _))

/-- Copies close no circle. -/
theorem rooted (h : g.Lengthened g') (hg : g.Contained) (hrooted : g.Rooted) : g'.Rooted := by
  have hold : ∀ id < g.nodes.size, ∃ root, g'.IsRoot id root := by
    intro id hid
    obtain ⟨root, hroot⟩ := hrooted.exists_isRoot id
    exact ⟨root, h.isRoot hid hroot (hg.refs root)⟩
  have hchains : ∀ id, g'.isPv id → ∃ root, g'.IsRoot id root := by
    intro id hpv
    by_cases hid : id < g.nodes.size
    · exact hold id hid
    · obtain ⟨chain, hchain, hcopy⟩ := h.copies id (by omega) hpv
      obtain ⟨root, hroot⟩ := hold chain (lt_size_of_isPv hchain)
      exact ⟨root, hroot.head (h.upstream_of_copyOf hchain hcopy)⟩
  intro id hcycle
  obtain ⟨b, hstep, -⟩ := Relation.TransGen.head'_iff.1 hcycle
  obtain ⟨root, hroot⟩ := hchains b hstep.chain
  exact (hroot.head hstep).not_transGen hcycle

theorem copied (h : g.Lengthened g₁) {c : ChainCopy} (hc : g₁.CopiedTo c g₂)
    (hreads : g.ReadsChain c.chain c.slot) (hslot : c.slot.ugen < g.nodes.size) :
    g.Lengthened g₂ := by
  have hsize := h.size
  -- what was new before is not the reader, so it stays as it is
  have hkeep : ∀ id, g.nodes.size ≤ id → id < g₁.nodes.size → g₂.node id = g₁.node id :=
    fun id hge hlt => hc.others id hlt (by omega)
  have hcopyOf : ∀ {copy chain : Nat}, g.nodes.size ≤ copy → g₁.CopyOf copy chain →
      g₂.CopyOf copy chain := by
    intro copy chain hge hcopy
    have hlt : copy < g₁.nodes.size := lt_size_of_isPv hcopy.isPv
    exact ⟨by rw [hkeep copy hge hlt, hcopy.role], by rw [hkeep copy hge hlt, hcopy.first]⟩
  have hnew : g₂.CopyOf c.copy c.chain := by
    constructor <;> rw [hc.copy] <;> rfl
  constructor
  case size => exact hsize.trans (by rw [hc.size]; omega)
  case live => exact fun id hid => hc.kept.mem (h.live hid)
  case flags => exact fun id hid => (hc.alike (by omega)).flags.trans (h.flags id hid)
  case first =>
    intro id hid
    by_cases hfirst : id = c.slot.ugen ∧ c.slot.index = 0
    · -- the first input of the reader is the one that is exchanged
      obtain ⟨rfl, hindex⟩ := hfirst
      obtain ⟨output, hinput⟩ := hreads.input
      have hlt : c.slot.index < (g₁.node c.slot.ugen).inputs.length := by
        rw [hindex]
        rcases h.first c.slot.ugen hid with hsame | ⟨_, _, _, -, -, hhead, -⟩
        · rw [List.head?_eq_getElem?, List.head?_eq_getElem?, ← hindex, hinput] at hsame
          exact List.length_pos_of_mem (List.mem_of_getElem? hsame)
        · exact List.length_pos_of_mem (List.mem_of_head? hhead)
      refine .inr ⟨c.chain, output, c.copy, ?_, hreads.chain, ?_,
        (hc.size_le_of_mem_ids c.copy_mem_ids).1.trans' hsize, hnew⟩
      · rw [List.head?_eq_getElem?, ← hindex, hinput]
      · rw [hc.reader, Node.reroute, List.head?_eq_getElem?, ← hindex, List.getElem?_set_self hlt]
    · have hhead : (g₂.node id).inputs.head? = (g₁.node id).inputs.head? := by
        by_cases hid' : id = c.slot.ugen
        · subst hid'
          rw [hc.reader, Node.reroute, List.head?_eq_getElem?, List.head?_eq_getElem?,
            List.getElem?_set_ne fun h0 => hfirst ⟨rfl, h0⟩]
        · rw [hc.others id (by omega) hid']
      rw [hhead]
      rcases h.first id hid with hsame | ⟨chain, output, copy, hold, hchain, hcopied, hge, hcopy⟩
      · exact .inl hsame
      · exact .inr ⟨chain, output, copy, hold, hchain, hcopied, hge, hcopyOf hge hcopy⟩
  case copies =>
    intro id hge hpv
    by_cases hid : id < g₁.nodes.size
    · rw [isPv, hkeep id hge hid] at hpv
      obtain ⟨chain, hchain, hcopy⟩ := h.copies id hge hpv
      exact ⟨chain, hchain, hcopyOf hge hcopy⟩
    · -- of the nodes inserted now, only the copy is in a chain
      have hmem : id ∈ c.ids := by
        have := lt_size_of_isPv hpv
        rw [hc.ids, List.mem_range'_1, ← hc.size]
        omega
      rcases ChainCopy.mem_ids.1 hmem with hframes | rfl | rfl
      · obtain ⟨-, input, -, -, hnode⟩ := hc.frames id hframes
        rw [isPv, hnode] at hpv
        cases hpv
      · rw [isPv, hc.buffer] at hpv
        cases hpv
      · exact ⟨c.chain, hreads.chain, hnew⟩

end Lengthened

/-! ## The copies of a plan -/

theorem IsRoot.copyChain_eq {chain : Nat} (h : g.IsRoot chain root) (slot : Slot) :
    g.copyChain chain slot = some (g.copyFrom root chain slot) :=
  copyChain_eq_some.2 ⟨root, h.chainRoot?_eq (Nat.lt_succ_self _), rfl⟩

theorem copyChain_eq_none_iff {chain : Nat} {slot : Slot} :
    g.copyChain chain slot = none ↔ ∀ root, ¬g.IsRoot chain root := by
  constructor
  · intro h root hroot
    rw [hroot.copyChain_eq] at h
    cases h
  · intro h
    rw [copyChain, chainRoot?_eq_none_iff.2 h]
    rfl

theorem copiedFor_snoc (g : Graph) (plan : List (Nat × Slot)) (p : Nat × Slot) :
    g.copiedFor (plan ++ [p]) = (g.copiedFor plan).bind fun g' => g'.copyChain p.1 p.2 := by
  rw [copiedFor, List.foldlM_append]
  congr 1
  funext g'
  simp

theorem copiedFor_snoc_eq_some {plan : List (Nat × Slot)} {p : Nat × Slot} :
    g.copiedFor (plan ++ [p]) = some g₂ ↔
      ∃ g₁, g.copiedFor plan = some g₁ ∧ g₁.copyChain p.1 p.2 = some g₂ := by
  rw [copiedFor_snoc, Option.bind_eq_some_iff]

theorem lengthened_copiedFor (hg : ∀ id ∈ g.order, id < g.nodes.size) {plan : List (Nat × Slot)}
    (hplan : ∀ p ∈ plan, g.ReadsChain p.1 p.2) (h : g.copiedFor plan = some g') :
    g.Lengthened g' := by
  induction plan using List.reverseRecOn generalizing g' with
  | nil =>
    cases h
    exact .refl g
  | append_singleton plan p ih =>
    obtain ⟨g₁, hg₁, hcopy⟩ := copiedFor_snoc_eq_some.1 h
    have hlong := ih (fun p hp => hplan p (List.mem_append_left _ hp)) hg₁
    have hreads := hplan p (by simp)
    have hslot := hg _ hreads.live
    obtain ⟨c, hc₁, hc₂, hc⟩ := copyChain_spec (Nat.lt_of_lt_of_le hslot hlong.size) hcopy
    exact hlong.copied hc (by rwa [hc₁, hc₂]) (by rwa [hc₁])

theorem copiedFor_eq_none_iff (hg : ∀ id ∈ g.order, id < g.nodes.size)
    {plan : List (Nat × Slot)} (hplan : ∀ p ∈ plan, g.ReadsChain p.1 p.2)
    (hrefs : ∀ p ∈ plan, ∀ root, g.IsRoot p.1 root → ∀ ref ∈ (g.node root).refs,
      ref.ugen < g.nodes.size) :
    g.copiedFor plan = none ↔ ∃ p ∈ plan, ∀ root, ¬g.IsRoot p.1 root := by
  induction plan using List.reverseRecOn with
  | nil => simp [copiedFor]
  | append_singleton plan p ih =>
    have ih := ih (fun p hp => hplan p (List.mem_append_left _ hp))
      (fun p hp => hrefs p (List.mem_append_left _ hp))
    have hp := hplan p (by simp)
    simp only [List.mem_append, List.mem_singleton, or_and_right, exists_or, exists_eq_left]
    rw [copiedFor_snoc, ← ih]
    cases hcopied : g.copiedFor plan with
    | none => simp
    | some g₁ =>
      have hlong :=
        lengthened_copiedFor hg (fun p hp => hplan p (List.mem_append_left _ hp)) hcopied
      -- what was copied before makes no difference to the roots there are
      have hroots : (∀ root, ¬g₁.IsRoot p.1 root) ↔ ∀ root, ¬g.IsRoot p.1 root := by
        constructor
        · intro h root hroot
          exact h root (hlong.isRoot (lt_size_of_isPv hp.chain) hroot
            (hrefs p (by simp) root hroot))
        · intro h root hroot
          obtain ⟨root', hroot'⟩ := hlong.exists_isRoot hroot
          exact h root' hroot'
      rw [Option.bind_some, copyChain_eq_none_iff, hroots]
      simp

theorem Closed.mem_of_path (hg : g.Closed) (ha : a ∈ g.order)
    (h : Relation.ReflTransGen g.Upstream a b) : b ∈ g.order := by
  induction h with
  | refl => exact ha
  | tail _ hstep ih =>
    obtain ⟨output, hfirst⟩ := hstep.first
    exact (hg.ref ih (Node.mem_refs.2 (List.mem_of_head? hfirst))).1

/-- Copying never ends exactly if some chain to be copied has no root. -/
theorem splitChains_eq_none_iff (hg : g.Closed) :
    g.splitChains = none ↔ ∃ p ∈ g.copyPlan, ∀ root, ¬g.IsRoot p.1 root := by
  rw [splitChains_eq]
  refine copiedFor_eq_none_iff hg.bound (fun p hp => readsChain_of_mem_copyPlan hp) ?_
  intro p hp root hroot ref href
  have hlive := hg.mem_of_path ((readsChain_of_mem_copyPlan hp).chain_live hg).1 hroot.path
  exact hg.bound _ (hg.ref hlive href).1

/-- `g'` is `g` with a copy of a chain whose root is `root`, made for a live slot. -/
structure SizedCopy (g : Graph) (c : ChainCopy) (root : Nat) (g' : Graph) : Prop
    extends g.CopiedTo c g' where
  /-- A new frame count reads the first input that the root has. -/
  sized : ∀ input, (g.node root).inputs.head? = some input → ∃ frames, c.frames = some frames ∧
    g'.node frames = Catalog.bufFrames.instantiate .scalar [input]
  /-- A root without inputs needs none. -/
  unsized : (g.node root).inputs.head? = none → c.frames = none
  /-- The new nodes stand right before the reader. -/
  placed : ∃ before after, g.order = before ++ c.slot.ugen :: after ∧ c.slot.ugen ∉ before ∧
    g'.order = before ++ c.ids ++ c.slot.ugen :: after

theorem exists_order_insertBefore {id : Nat} (hid : id ∈ g.order) (new : List Nat) :
    ∃ before after, g.order = before ++ id :: after ∧ id ∉ before ∧
      (g.insertBefore id new).order = before ++ new ++ id :: after := by
  obtain ⟨before, after, horder, hnot⟩ := List.eq_append_cons_of_mem hid
  have hbefore : ∀ x ∈ before, (x != id) = true := by
    intro x hx
    rw [bne_iff_ne]
    rintro rfl
    exact hnot hx
  refine ⟨before, after, horder, hnot, ?_⟩
  rw [insertBefore, horder, List.takeWhile_append_of_pos hbefore,
    List.dropWhile_append_of_pos hbefore]
  simp

theorem size_copyFrom (g : Graph) (root chain : Nat) (reader : Slot) :
    (g.copyFrom root chain reader).nodes.size = g.nodes.size +
      if (g.node root).inputs.head?.isSome then 3 else 2 := by
  unfold copyFrom
  cases (g.node root).inputs.head? <;> simp [push_eq_extend, extend_extend]

theorem IsRoot.sizedCopy {chain : Nat} {slot : Slot} (h : g.IsRoot chain root)
    (hlive : slot.ugen ∈ g.order) (hslot : slot.ugen < g.nodes.size) :
    ∃ c : ChainCopy, c.chain = chain ∧ c.slot = slot ∧
      g.SizedCopy c root (g.copyFrom root chain slot) := by
  have hwalk := h.chainRoot?_eq (Nat.lt_succ_self _)
  obtain ⟨c, rfl, rfl, hc⟩ := copyChain_spec hslot (h.copyChain_eq slot)
  have hframes : c.frames.isSome = (g.node root).inputs.head?.isSome := by
    have hsize := hc.size
    rw [size_copyFrom, ChainCopy.ids] at hsize
    cases hf : c.frames <;> cases hr : (g.node root).inputs.head? <;> simp [hf, hr] at hsize ⊢
  refine ⟨c, rfl, rfl, hc, fun input hinput => ?_, fun hnone => ?_, ?_⟩
  · obtain ⟨frames, hf⟩ := Option.isSome_iff_exists.1 (hframes.trans (by rw [hinput]; rfl))
    obtain ⟨root', input', hroot', hinput', hnode⟩ := hc.frames frames hf
    rw [hwalk] at hroot'
    cases hroot'
    rw [hinput] at hinput'
    cases hinput'
    exact ⟨frames, hf, hnode⟩
  · rw [hnone] at hframes
    exact Option.not_isSome_iff_eq_none.1 (by rw [hframes]; simp)
  · rw [hc.order]
    exact exists_order_insertBefore hlive c.ids

theorem node_copiedFor_append (hg : ∀ id ∈ g.order, id < g.nodes.size)
    {done rest : List (Nat × Slot)} (hplan : ∀ p ∈ done ++ rest, g.ReadsChain p.1 p.2)
    (h₁ : g.copiedFor done = some g₁) (h₂ : g.copiedFor (done ++ rest) = some g₂) {id : Nat}
    (hge : g.nodes.size ≤ id) (hlt : id < g₁.nodes.size) :
    g₂.node id = g₁.node id ∧ g₁.nodes.size ≤ g₂.nodes.size := by
  induction rest using List.reverseRecOn generalizing g₂ with
  | nil =>
    rw [List.append_nil, h₁] at h₂
    cases h₂
    exact ⟨rfl, Nat.le_refl _⟩
  | append_singleton rest p ih =>
    rw [← List.append_assoc] at hplan h₂
    obtain ⟨g₃, hg₃, hcopy⟩ := copiedFor_snoc_eq_some.1 h₂
    obtain ⟨hnode, hsize⟩ := ih (fun p hp => hplan p (List.mem_append_left _ hp)) hg₃
    have hslot : p.2.ugen < g.nodes.size := hg _ (hplan p (by simp)).live
    obtain ⟨c, hc, -, hc'⟩ := copyChain_spec (by omega) hcopy
    rw [hc'.others id (by omega) (by rw [hc]; omega), hc'.size]
    exact ⟨hnode, by omega⟩

/-- Every copy is sized from the root that its chain has in the graph as it was: the walk up from
the chain ends, at this root, whatever copies were made before, and the new nodes stand right
before the reader that gets the copy. -/
theorem splitChains_sizes_copies (hg : g.Contained) (hrooted : g.Rooted) :
    ∃ split, g.splitChains = some split ∧ g.copiedFor g.copyPlan = some split ∧
    ∀ done chain slot rest, g.copyPlan = done ++ (chain, slot) :: rest →
      ∃ g₁ g₂, g.copiedFor done = some g₁ ∧ g.copiedFor (done ++ [(chain, slot)]) = some g₂ ∧
        g₁.Rooted ∧
        ∃ c root, c.chain = chain ∧ c.slot = slot ∧ g.IsRoot chain root ∧ g₁.IsRoot chain root ∧
          (∀ fuel, g₁.nodes.size < fuel → g₁.chainRoot? fuel chain = some root) ∧
          g₁.SizedCopy c root g₂ ∧ ∀ id ∈ c.ids, split.node id = g₂.node id := by
  have hreads : ∀ p ∈ g.copyPlan, g.ReadsChain p.1 p.2 := fun p hp => readsChain_of_mem_copyPlan hp
  have hends : ∀ plan, (∀ p ∈ plan, g.ReadsChain p.1 p.2) → ∃ g', g.copiedFor plan = some g' := by
    intro plan hplan
    rw [← Option.ne_none_iff_exists', ne_eq,
      copiedFor_eq_none_iff hg.live hplan fun _ _ root _ => hg.refs root]
    rintro ⟨p, -, hnone⟩
    obtain ⟨root, hroot⟩ := hrooted.exists_isRoot p.1
    exact hnone root hroot
  obtain ⟨split, hsplit⟩ := hends g.copyPlan hreads
  refine ⟨split, g.splitChains_eq.trans hsplit, hsplit, fun done chain slot rest hplan => ?_⟩
  rw [hplan] at hreads hsplit
  have hdone : ∀ p ∈ done, g.ReadsChain p.1 p.2 := fun p hp => hreads p (List.mem_append_left _ hp)
  have hslot := hreads (chain, slot) (by simp)
  obtain ⟨g₁, hg₁⟩ := hends done hdone
  have hlong := lengthened_copiedFor hg.live hdone hg₁
  obtain ⟨root, hroot⟩ := hrooted.exists_isRoot chain
  have hroot' := hlong.isRoot (lt_size_of_isPv hslot.chain) hroot (hg.refs root)
  have hg₂ : g.copiedFor (done ++ [(chain, slot)]) = some (g₁.copyFrom root chain slot) :=
    copiedFor_snoc_eq_some.2 ⟨g₁, hg₁, hroot'.copyChain_eq slot⟩
  obtain ⟨c, rfl, rfl, hc⟩ := hroot'.sizedCopy (hlong.live hslot.live)
    (Nat.lt_of_lt_of_le (hg.live _ hslot.live) hlong.size)
  refine ⟨g₁, _, hg₁, hg₂, hlong.rooted hg hrooted, c, root, rfl, rfl, hroot, hroot',
    fun fuel hfuel => hroot'.chainRoot?_eq hfuel, hc, fun id hid => ?_⟩
  obtain ⟨hge, hlt⟩ := hc.size_le_of_mem_ids hid
  rw [List.append_cons] at hreads hsplit
  exact (node_copiedFor_append hg.live hreads hg₂ hsplit (hlong.size.trans hge) hlt).1

/-- A generator of the given part in a chain, with its first input. -/
def chainNode (role : PvRole) (first : Input) : Node where
  className := "PV"
  rate := .control
  inputs := [first]
  flags := { pv := role }

/-- A transform with two readers, the first of which has two readers itself. -/
def forkedGraph : Graph := .ofNodes
  #[chainNode .fft (.constant 7), chainNode .chain (.node ⟨0, 0⟩), chainNode .chain (.node ⟨0, 0⟩),
    chainNode .chain (.node ⟨1, 0⟩), chainNode .chain (.node ⟨1, 0⟩)]

theorem contained_forkedGraph : forkedGraph.Contained := by
  refine ⟨by decide +kernel, fun id => ?_⟩
  by_cases hid : id < 5
  · have hrefs : ∀ id < 5, ∀ ref ∈ (forkedGraph.node id).refs, ref.ugen < 5 := by decide +kernel
    exact hrefs id hid
  · rw [node_eq, Array.getElem?_eq_none (by simp [forkedGraph, ofNodes]; omega)]
    exact fun ref href => (List.not_mem_nil href).elim

theorem rooted_forkedGraph : forkedGraph.Rooted := by
  have hlt : ∀ a b, forkedGraph.Upstream a b → b < a := by
    intro a b hab
    have hfirst : ∀ a < 5, ∀ input ∈ (forkedGraph.node a).inputs.head?, ∀ ref ∈ input.node?,
        ref.ugen < a := by
      decide +kernel
    obtain ⟨output, hhead⟩ := hab.first
    exact hfirst a hab.lt_size _ hhead _ rfl
  intro id hcycle
  have hdown : ∀ a b, Relation.TransGen forkedGraph.Upstream a b → b < a := by
    intro a b hpath
    induction hpath with
    | single hstep => exact hlt _ _ hstep
    | tail _ hstep ih => exact Nat.lt_trans (hlt _ _ hstep) ih
  exact Nat.lt_irrefl _ (hdown id id hcycle)

/-- The reader of the transform reads a copy when its own chain is copied, and the buffer of the
second copy is still sized from the buffer of the transform. -/
theorem forkedGraph_sizes_copies : forkedGraph.Contained ∧ forkedGraph.Rooted ∧
    forkedGraph.copyPlan = [(0, ⟨1, 0⟩), (1, ⟨3, 0⟩)] ∧
    ∃ g₁ split c root, forkedGraph.copiedFor [(0, ⟨1, 0⟩)] = some g₁ ∧
      (g₁.node 1).inputs = [.node ⟨7, 0⟩] ∧ forkedGraph.splitChains = some split ∧
      c.chain = 1 ∧ c.slot = ⟨3, 0⟩ ∧ forkedGraph.IsRoot 1 root ∧ g₁.IsRoot 1 root ∧
      g₁.SizedCopy c root split := by
  have hplan : forkedGraph.copyPlan = [(0, ⟨1, 0⟩), (1, ⟨3, 0⟩)] := by decide +kernel
  have hinputs : (forkedGraph.copiedFor [(0, ⟨1, 0⟩)]).map (fun g => (g.node 1).inputs) =
      some [.node ⟨7, 0⟩] := by
    decide +kernel
  obtain ⟨split, hsplit, hcopied, hsizes⟩ :=
    splitChains_sizes_copies contained_forkedGraph rooted_forkedGraph
  obtain ⟨g₁, g₂, hg₁, hg₂, -, c, root, hchain, hslot, hroot, hroot', -, hsized, -⟩ :=
    hsizes [(0, ⟨1, 0⟩)] 1 ⟨3, 0⟩ [] hplan
  obtain rfl : split = g₂ := by
    rw [hplan] at hcopied
    exact Option.some.inj (hcopied.symm.trans hg₂)
  rw [hg₁] at hinputs
  exact ⟨contained_forkedGraph, rooted_forkedGraph, hplan, g₁, split, c, root, hg₁,
    Option.some.inj hinputs, hsplit, hchain, hslot, hroot, hroot', hsized⟩

end Graph

end SynthGraph
