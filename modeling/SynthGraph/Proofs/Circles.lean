import SynthGraph.Proofs.Forward

/-!
# Builds that never end

A build goes on for ever exactly if a chain has to be copied, because two slots read it in place,
and the walk up to its root goes round in a circle. This can be told from the nodes of the builder:
making controls, which comes before, changes neither the slots that read chains nor the ways up.
-/

namespace SynthGraph

theorem Slot.before_or_before {s t : Slot} (h : s ≠ t) : s.Before t ∨ t.Before s := by
  have hne : s.ugen ≠ t.ugen ∨ s.index ≠ t.index := by
    by_contra hsame
    push Not at hsame
    exact h (Slot.ext hsame.1 hsame.2)
  unfold Slot.Before
  omega

namespace Graph

variable {source g g₁ : Graph} {a b root : Nat}

/-- Two slots read in place a chain from which the walk up finds no root, however far it goes. -/
def Circular (g : Graph) : Prop :=
  ∃ chain slot slot', slot ≠ slot' ∧ g.ReadsChain chain slot ∧ g.ReadsChain chain slot' ∧
    ∀ fuel, g.chainRoot? fuel chain = none

theorem splitChains_eq_none (hg : g.Closed)
    (hsorted : g.order.Pairwise fun a b => g.isPv a → g.isPv b → a < b) :
    g.splitChains = none ↔ g.Circular := by
  rw [splitChains_eq_none_iff hg]
  constructor
  · rintro ⟨⟨chain, slot⟩, hplan, hnone⟩
    obtain ⟨hreads, later, hlater, hbefore⟩ := (mem_copyPlan_iff hsorted).1 hplan
    refine ⟨chain, slot, later, ?_, hreads, hlater, chainRoot?_eq_none_iff.2 hnone⟩
    rintro rfl
    unfold Slot.Before at hbefore
    omega
  · rintro ⟨chain, slot, slot', hne, hreads, hreads', hnone⟩
    have hnone := chainRoot?_eq_none_iff.1 hnone
    rcases Slot.before_or_before hne with hbefore | hbefore
    · exact ⟨_, (mem_copyPlan_iff hsorted).2 ⟨hreads, slot', hreads', hbefore⟩, hnone⟩
    · exact ⟨_, (mem_copyPlan_iff hsorted).2 ⟨hreads', slot, hreads, hbefore⟩, hnone⟩

/-! ## Ways up before and after making controls -/

theorem upstream_iff_chainInput : g.Upstream a b ↔ (g.node a).flags.pv ≠ .fft ∧
    ∃ output, (g.node a).inputs[0]? = some (.node ⟨b, output⟩) ∧ g.isPv b := by
  rw [← List.head?_eq_getElem?]
  constructor
  · rintro ⟨hinner, ⟨output, hfirst⟩, hchain⟩
    exact ⟨hinner, output, hfirst, hchain⟩
  · rintro ⟨hinner, output, hfirst, hchain⟩
    exact ⟨hinner, ⟨output, hfirst⟩, hchain⟩

theorem WithControls.upstream_iff (h : source.WithControls g₁) (hs : source.Sourced)
    (ha : a ∈ source.generators) : g₁.Upstream a b ↔ source.Upstream a b := by
  simp only [upstream_iff_chainInput, (h.alike ha).flags, h.chainInput_iff hs ha]

theorem Sourced.mem_generators_of_upstream (hs : source.Sourced) (ha : a ∈ source.generators)
    (hab : source.Upstream a b) : b ∈ source.generators := by
  obtain ⟨output, hfirst⟩ := hab.first
  have href := Node.mem_refs.2 (List.mem_of_head? hfirst)
  exact hs.mem_generators_of_isPv (hs.closed.ref (mem_generators.1 ha).1 href).1 hab.chain

/-- The walk up takes the same way. -/
theorem WithControls.chainRoot?_eq (h : source.WithControls g₁) (hs : source.Sourced)
    (ha : a ∈ source.generators) (fuel : Nat) :
    g₁.chainRoot? fuel a = source.chainRoot? fuel a := by
  induction fuel generalizing a with
  | zero => rfl
  | succ fuel ih =>
    by_cases hup : ∃ b, source.Upstream a b
    · obtain ⟨b, hab⟩ := hup
      rw [chainRoot?_of_upstream hab, chainRoot?_of_upstream ((h.upstream_iff hs ha).2 hab),
        ih (hs.mem_generators_of_upstream ha hab)]
    · have hends := not_exists.1 hup
      rw [chainRoot?_of_ends hends,
        chainRoot?_of_ends fun b hab => hends b ((h.upstream_iff hs ha).1 hab)]

theorem WithControls.circular_iff (h : source.WithControls g₁) (hs : source.Sourced) :
    g₁.Circular ↔ source.Circular := by
  unfold Circular
  refine exists_congr fun chain => exists_congr fun slot => exists_congr fun slot' => ?_
  rw [h.readsChain_iff hs, h.readsChain_iff hs]
  refine and_congr_right fun _ => and_congr_right fun hreads => and_congr_right fun _ => ?_
  have hchain := hs.mem_generators_of_isPv (hreads.chain_live hs.closed).1 hreads.chain
  simp only [h.chainRoot?_eq hs hchain]

/-! ## Builds -/

theorem complete_eq_endless : source.complete = .error .endless ↔
    ∃ g₁, source.makeControls = .ok g₁ ∧ g₁.splitChains = none := by
  unfold complete
  cases source.makeControls with
  | error fault => simp [bind, Except.bind, Except.mapError]
  | ok g₁ =>
    cases hsplit : g₁.splitChains with
    | none =>
      simp [bind, Except.bind, Except.mapError, hsplit, throw, throwThe, MonadExceptOf.throw]
    | some g₂ => simp [bind, Except.bind, Except.mapError, hsplit, pure, Except.pure]

/-- Only copying goes on for ever. -/
theorem compiled_eq_endless {options : Options} :
    source.compiled options = .error .endless ↔ source.complete = .error .endless := by
  unfold compiled
  cases source.complete with
  | error failure => simp [bind, Except.bind]
  | ok g =>
    cases hsort : (g.foldIf options).sort <;>
      simp [bind, Except.bind, Except.mapError, hsort, pure, Except.pure]

end Graph

namespace Builder

variable {b : Builder}

/-- The parameters take no more slots than there are, and a shared chain runs in a circle. -/
def Endless (b : Builder) : Prop :=
  (∀ p ∈ b.parameters, b.slotsBefore p.rate ≤ 65535) ∧ (Graph.ofNodes b.nodes).Circular

theorem build_eq_error {options : Options} {failure : Failure} (h : b.nodes.isEmpty = false) :
    b.build options = .error failure ↔
      (Graph.ofNodes b.nodes).compiled options = .error failure := by
  rw [Builder.build, h, Graph.compile]
  cases (Graph.ofNodes b.nodes).compiled options <;>
    simp [bind, Except.bind, pure, Except.pure]

theorem slots_fit_iff : (∀ group ∈ (Graph.ofNodes b.nodes).controlGroups, group.start < 65536) ↔
    ∀ p ∈ b.parameters, b.slotsBefore p.rate ≤ 65535 := by
  have h := not_congr (exists_group_iff (b := b))
  push Not at h
  exact h

/-- A build never returns exactly if the builder is endless, whatever the options are. -/
theorem WellFormed.build_eq_endless (hw : b.WellFormed) (options : Options) :
    b.build options = .error .endless ↔ b.Endless := by
  have hs := hw.sourced
  by_cases hempty : b.nodes.isEmpty
  · have hbuild : b.build options = .error (.fault .emptyGraph) := if_pos hempty
    rw [hbuild]
    constructor
    · rintro ⟨⟩
    · rintro ⟨-, _, _, _, -, hreads, -⟩
      have hlive := hreads.live
      simp [Graph.ofNodes, Array.isEmpty_iff.1 hempty] at hlive
  · rw [build_eq_error (by simpa using hempty), Graph.compiled_eq_endless,
      Graph.complete_eq_endless, Endless, ← slots_fit_iff]
    have hends : ∀ g₁, (Graph.ofNodes b.nodes).WithControls g₁ →
        (g₁.splitChains = none ↔ (Graph.ofNodes b.nodes).Circular) := fun g₁ hcontrols => by
      rw [Graph.splitChains_eq_none (hcontrols.closed hs.closed hs.placeholdersFit)
        (hcontrols.ascending hs), hcontrols.circular_iff hs]
    constructor
    · rintro ⟨g₁, hmake, hnone⟩
      have hcontrols := Graph.makeControls_spec hs.closed.toOrdered hmake
      exact ⟨hcontrols.fits, (hends g₁ hcontrols).1 hnone⟩
    · rintro ⟨hfits, hcircular⟩
      rcases (Graph.ofNodes b.nodes).makeControls_cases with ⟨-, g₁, hmake⟩ |
        ⟨group, hgroup, hstart, -⟩
      · have hcontrols := Graph.makeControls_spec hs.closed.toOrdered hmake
        exact ⟨g₁, hmake, (hends g₁ hcontrols).2 hcircular⟩
      · exact absurd (hfits group hgroup) (Nat.not_lt.2 hstart)

end Builder

end SynthGraph
