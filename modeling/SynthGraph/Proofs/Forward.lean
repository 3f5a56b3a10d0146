import SynthGraph.Proofs.Addressing
import SynthGraph.Proofs.Cycles
import SynthGraph.Proofs.Roots

/-!
# Builders that only grow

A call can only use outlets that exist, so as long as no input is exchanged, every node reads nodes
that were registered before it. `Graph.Forward` says this of a graph: every live node is listed
behind the live nodes it reads. All passes keep it, and a forward graph can always be sorted. What
is left to fail is a builder without nodes, and parameters that take more slots than there are.
-/

namespace SynthGraph

namespace Graph

variable {source g g' : Graph}

/-- Every live node is listed behind the live nodes it reads. -/
def Forward (g : Graph) : Prop := ∀ a b, g.Links a b → g.Precedes a b

/-! ## Passes -/

theorem Forward.of_ref (hf : g.Forward) (hg : g.Closed) {id : Nat} {ref : NodeRef}
    (hid : id ∈ g.order) (href : ref ∈ (g.node id).refs) : g.Precedes ref.ugen id :=
  hf _ _ ⟨(hg.ref hid href).1, hid, ref, href, rfl⟩

theorem Sourced.forward_controls (hs : source.Sourced) (h : source.WithControls g)
    (hf : source.Forward) : g.Forward := by
  rintro a b ⟨-, hb, ref, href, rfl⟩
  rcases h.mem_order.1 hb with ⟨k, group, hk, rfl⟩ | ⟨hold, hkind⟩
  · rw [h.control k group hk, refs_control] at href
    cases href
  · rw [h.node b hold hkind, Node.refs_mapRefs] at href
    obtain ⟨old, hmem, rfl⟩ := List.mem_map.1 href
    have hlisted : b ∈ source.order.filter fun id => !(source.node id).isParameter :=
      List.mem_filter.2 ⟨hold, by simp [hkind]⟩
    rw [Precedes, h.order]
    rcases hs.controlRef_cases hold hmem with ⟨-, k, group, output, -, hk, -, -, heq⟩ | ⟨hgen, heq⟩
    · rw [heq]
      exact (List.singleton_sublist.2 (mem_controlIds hk)).append (List.singleton_sublist.2 hlisted)
    · rw [heq]
      have hprecedes := hf.of_ref hs.closed hold hmem
      refine .trans (hprecedes.filter ?_ ?_) (List.sublist_append_right _ _)
      · simp [(mem_generators.1 hgen).2]
      · simp [hkind]

/-- What the root of a chain reads stands before the chain. -/
theorem Forward.precedes_of_upstream (hf : g.Forward) (hg : g.Closed) {a b : Nat}
    (ha : a ∈ g.order) (hab : g.Upstream a b) : g.Precedes b a := by
  obtain ⟨output, hfirst⟩ := hab.first
  have href : ⟨b, output⟩ ∈ (g.node a).refs := Node.mem_refs.2 (List.mem_of_head? hfirst)
  exact hf.of_ref hg ha href

/-- The walk up a chain goes to nodes that are listed earlier, so it comes to an end. -/
theorem Forward.exists_isRoot (hf : g.Forward) (hg : g.Closed) {id : Nat} (hid : id ∈ g.order) :
    ∃ root, g.IsRoot id root := by
  induction hpos : g.order.idxOf id using Nat.strong_induction_on generalizing id with
  | _ pos ih =>
    by_cases hup : ∃ b, g.Upstream id b
    · obtain ⟨b, hab⟩ := hup
      have hbefore := hf.precedes_of_upstream hg hid hab
      obtain ⟨p, q, hlt, hp, hq⟩ := precedes_iff.1 hbefore
      rw [idxOf_of_getElem? hg.nodup hq] at hpos
      obtain ⟨root, hroot⟩ := ih p (by omega) hbefore.mem_left (idxOf_of_getElem? hg.nodup hp)
      exact ⟨root, hroot.head hab⟩
    · exact ⟨id, .refl, not_exists.1 hup⟩

theorem Forward.exists_splitChains (hf : g.Forward) (hg : g.Closed) :
    ∃ g', g.splitChains = some g' := by
  rw [← Option.ne_none_iff_exists', ne_eq, splitChains_eq_none_iff hg]
  rintro ⟨p, hp, hnone⟩
  obtain ⟨root, hroot⟩ :=
    hf.exists_isRoot hg ((readsChain_of_mem_copyPlan hp).chain_live hg).1
  exact hnone root hroot

theorem Forward.precedes_of_path (hf : g.Forward) (hg : g.Closed) {id root : Nat}
    (hid : id ∈ g.order) (h : Relation.ReflTransGen g.Upstream id root) :
    root = id ∨ g.Precedes root id := by
  induction h using Relation.ReflTransGen.head_induction_on with
  | refl => exact .inl rfl
  | head hstep _ ih =>
    have hbefore := hf.precedes_of_upstream hg hid hstep
    rcases ih hbefore.mem_left with rfl | hroot
    · exact .inr hbefore
    · exact .inr (hroot.trans hg.nodup hbefore)

theorem CopiedTo.forward {c : ChainCopy} (h : g.CopiedTo c g') (hg : g.Closed) (hf : g.Forward)
    (hchain : g.Precedes c.chain c.slot.ugen) : g'.Forward := by
  -- what stood before the reader stands before the inserted nodes
  have hnew : ∀ {a b : Nat}, g.Precedes a c.slot.ugen → b ∈ c.ids → g'.Precedes a b := by
    intro a b ha hb
    rw [Precedes, h.order]
    exact ha.insertBefore hg.nodup hb
  have hids : ∀ {a b : Nat}, [a, b].Sublist c.ids → g'.Precedes a b := by
    intro a b hab
    have hplaced := List.sublist_append_right (g.order.takeWhile (· != c.slot.ugen)) c.ids
    rw [Precedes, h.order]
    exact (hab.trans hplaced).trans (List.sublist_append_left _ _)
  rintro a b ⟨-, hb, ref, href, rfl⟩
  cases h.copiedRef hg.toOrdered hb href with
  | old hid href => exact (hf.of_ref hg hid href).mono h.kept
  | rerouted hid => exact h.before (by simp [ChainCopy.ids]) hid
  | frames hframes hroot hinput =>
    have hlive := chainRoot?_mem hg hchain.mem_left hroot
    have hbefore := hf.of_ref hg hlive (Node.mem_refs.2 (List.mem_of_head? hinput))
    refine hnew (hbefore.trans hg.nodup ?_) (by simp [ChainCopy.ids, hframes])
    rcases hf.precedes_of_path hg hchain.mem_left (isRoot_of_chainRoot? hroot).path with rfl | hroot
    · exact hchain
    · exact hroot.trans hg.nodup hchain
  | buffer hframes => exact hids (by simp [ChainCopy.ids, hframes])
  | chain => exact hnew hchain (by simp [ChainCopy.ids])
  | target => exact hids (List.sublist_append_right _ _)

theorem Declared.forward (h : g.Declared g') (hg : g.Closed) (hf : g.Forward) : g'.Forward := by
  rintro a b ⟨ha, hb, ref, href, rfl⟩
  rcases h.mem_order.1 hb with ⟨hold, hnot⟩ | ⟨hne, rfl⟩
  · have hkept : ref ∈ (g.node b).refs → g'.Precedes ref.ugen b := by
      intro hmem
      have hbefore := hf.of_ref hg hold hmem
      rcases h.mem_order.1 ha with ⟨-, hnot'⟩ | ⟨-, hsize⟩
      · refine List.Sublist.trans (hbefore.filter ?_ ?_) h.kept
        · simpa [IsDeclaration, hbefore.mem_left] using hnot'
        · simpa [IsDeclaration, hold] using hnot
      · have := hg.bound _ hbefore.mem_left
        omega
    rw [h.node b (hg.bound b hold)] at href
    split at href
    · next hbuffer =>
      rcases mem_refs_declareBuffer href with rfl | href
      · exact h.ahead b hbuffer
      · exact hkept href
    · exact hkept href
  · rw [h.declaration hne] at href
    cases href

/-- A survivor stands before all that read the nodes it stands for. -/
theorem Forward.merge (hf : g.Forward) (hg : g.Ordered) : (g.merge g.duplicates).Forward := by
  obtain ⟨horder, -, hnode⟩ := merge_spec hg g.duplicates
  rintro a b ⟨ha, hb, ref, href, rfl⟩
  rw [hnode b, if_pos hb, Node.refs_mapRefs] at href
  obtain ⟨old, hold, rfl⟩ := List.mem_map.1 href
  rw [horder] at ha hb
  obtain ⟨hlive, hkept⟩ := List.mem_filter.1 hb
  obtain ⟨hlive', hkept'⟩ := List.mem_filter.1 ha
  have hbefore : g.Precedes (g.duplicates.resolveRef old).ugen b := by
    cases hlookup : g.duplicates.lookup old.ugen with
    | none =>
      have hself : (g.duplicates.resolveRef old).ugen = old.ugen := by
        simp [Survivors.resolveRef, Survivors.resolve, hlookup]
      rw [hself] at hlive' ⊢
      exact hf _ _ ⟨hlive', hlive, old, hold, rfl⟩
    | some survivor =>
      have hsurvivor : (g.duplicates.resolveRef old).ugen = survivor := by
        simp [Survivors.resolveRef, Survivors.resolve, hlookup]
      have hfirst := precedes_of_mem_duplicates hg (mem_of_lookup hlookup)
      rw [hsurvivor]
      exact hfirst.trans hg.nodup (hf _ _ ⟨hfirst.mem_right, hlive, old, hold, rfl⟩)
  rw [Precedes, horder]
  exact hbefore.filter hkept' hkept

theorem Forward.foldIf {gone : Nat → Prop} (hf : g.Forward) (hg : g.Wired gone)
    (options : Options) : (g.foldIf options).Wired gone ∧ (g.foldIf options).Forward := by
  exact hg.foldIf (fun g hw hf => hf.merge hw.toOrdered) hf options

theorem Sourced.forward_complete (hs : source.Sourced) (h : source.complete = .ok g)
    (hf : source.Forward) : g.Forward := by
  obtain ⟨g₁, g₂, copies, hstages⟩ := hs.stages h
  have hf₁ := hs.forward_controls hstages.controls hf
  have hkept : g₁.KeptByCopying Forward := by
    intro g c g' hreads hsub hg hc hf
    obtain ⟨output, hinput⟩ := hreads.input
    have href := Node.mem_refs.2 (List.mem_of_getElem? hinput)
    exact hc.forward hg hf ((hf₁.of_ref hstages.closed₁ hreads.live href).mono hsub)
  obtain ⟨-, -, -, -, hf₂⟩ := splitChains_spec hstages.closed₁ hkept hf₁ hstages.chains
  exact hstages.declared.forward hstages.closed₂ hf₂

/-! ## Sorting -/

/-- In a forward graph every position waits for smaller ones only. -/
theorem Forward.exists_sort (hf : g.Forward) (hg : g.Ordered) : ∃ g', g.sort = .ok g' := by
  have hlt : ∀ p q, g.constraints.Awaits p q → p < q := by
    intro p q h
    have hq := h.lt_size
    rw [size_constraints] at hq
    have hb := List.getElem?_eq_getElem hq
    obtain ⟨hsource | hbefore, -⟩ := (mem_antecedentsOf hb).1 h
    · obtain ⟨ref, href, hpos⟩ := mem_sources.1 hsource
      have ha : g.order[p]? = some ref.ugen := getElem?_of_idxOf? hpos
      obtain ⟨p', q', hlt, hp', hq'⟩ := precedes_iff.1
        (hf _ _ ⟨List.mem_of_getElem? ha, List.mem_of_getElem? hb, ref, href, rfl⟩)
      obtain rfl := eq_of_getElem?_of_nodup hg.nodup ha hp'
      obtain rfl := eq_of_getElem?_of_nodup hg.nodup hb hq'
      exact hlt
    · exact (mem_widthFirstBefore.1 hbefore).1
  refine (exists_sort_iff g).2 fun p hloop => ?_
  have hloop : Relation.TransGen (· < ·) p p := Relation.TransGen.mono hlt p p hloop
  rw [Relation.transGen_eq_self] at hloop
  exact Nat.lt_irrefl p hloop

/-! ## Slots -/

theorem size_group (placeholders : List (Nat × Parameter)) (rate : ParameterRate) (start : Nat) :
    ControlGroup.size ⟨rate, start, groupMembers placeholders rate⟩ =
      (((placeholders.map (·.2)).filter (·.rate = rate)).flatMap (·.values)).length := by
  have hperm : (groupMembers placeholders rate).Perm (placeholders.filter (·.2.rate == rate)) :=
    List.mergeSort_perm _ _
  rw [ControlGroup.size, (hperm.flatMap_right _).length_eq, List.filter_map, List.flatMap_map]
  rfl

/-- Of the parameters that come before an index, some are of the first rate. -/
theorem length_slots_cons {rate : ParameterRate} {rates : List ParameterRate} {index : Nat}
    (hnot : rate ∉ rates) (hlt : rate.index < index) (ps : List Parameter) :
    ((ps.filter fun p => p.rate ∈ rate :: rates ∧ p.rate.index < index).flatMap
        (·.values)).length =
      ((ps.filter (·.rate = rate)).flatMap (·.values)).length +
        ((ps.filter fun p => p.rate ∈ rates ∧ p.rate.index < index).flatMap
          (·.values)).length := by
  have hsplit := List.filter_append_perm (fun p : Parameter => p.rate = rate)
    (ps.filter fun p => p.rate ∈ rate :: rates ∧ p.rate.index < index)
  have hsame : ∀ p : Parameter, (decide (p.rate = rate) && decide (p.rate ∈ rate :: rates ∧
      p.rate.index < index)) = decide (p.rate = rate) := by
    intro p
    by_cases hp : p.rate = rate
    · simp [hp, hlt]
    · simp [hp]
  have hother : ∀ p : Parameter, (!decide (p.rate = rate) && decide (p.rate ∈ rate :: rates ∧
      p.rate.index < index)) = decide (p.rate ∈ rates ∧ p.rate.index < index) := by
    intro p
    by_cases hp : p.rate = rate
    · simp [hp, hnot]
    · simp [hp]
  simp only [List.filter_filter, hsame, hother] at hsplit
  rw [← (hsplit.flatMap_right _).length_eq, List.flatMap_append, List.length_append]

/-- A group starts behind the slots of all groups of earlier rates. -/
theorem start_of_mem_groupsFrom {placeholders : List (Nat × Parameter)} {start : Nat}
    {rates : List ParameterRate} (hr : rates.Pairwise fun r r' => r.index < r'.index)
    {group : ControlGroup} (h : group ∈ groupsFrom placeholders start rates) :
    group.start = start + (((placeholders.map (·.2)).filter fun p =>
      p.rate ∈ rates ∧ p.rate.index < group.rate.index).flatMap (·.values)).length := by
  induction rates generalizing start with
  | nil => cases h
  | cons rate rates ih =>
    obtain ⟨hfirst, hr⟩ := List.pairwise_cons.1 hr
    have hnot : rate ∉ rates := fun hmem => Nat.lt_irrefl _ (hfirst rate hmem)
    have hrest : group ∈ groupsFrom placeholders (start + ControlGroup.size
        ⟨rate, start, groupMembers placeholders rate⟩) rates → group.start = start +
          (((placeholders.map (·.2)).filter fun p => p.rate ∈ rate :: rates ∧
            p.rate.index < group.rate.index).flatMap (·.values)).length := by
      intro hmem
      have hlt := hfirst _ (mem_groupsFrom hmem).1
      rw [ih hr hmem, size_group, length_slots_cons hnot hlt, Nat.add_assoc]
    simp only [groupsFrom] at h
    split at h
    · exact hrest h
    · rcases List.mem_cons.1 h with rfl | hmem
      · have hnone : ((placeholders.map (·.2)).filter fun p => p.rate ∈ rate :: rates ∧
            p.rate.index < rate.index) = [] := by
          refine List.filter_eq_nil_iff.2 fun p _ hp => ?_
          obtain ⟨hmem, hlt⟩ := of_decide_eq_true hp
          rcases List.mem_cons.1 hmem with heq | hmem
          · rw [heq] at hlt
            exact Nat.lt_irrefl _ hlt
          · exact Nat.lt_asymm hlt (hfirst _ hmem)
        simp only [hnone, List.flatMap_nil, List.length_nil, Nat.add_zero]
      · exact hrest hmem

/-- Controls can be made if they all start at a slot that fits, otherwise one of the others is
reported. -/
theorem makeControls_cases (g : Graph) :
    ((∀ group ∈ g.controlGroups, group.start < 65536) ∧ ∃ g', g.makeControls = .ok g') ∨
    ∃ group ∈ g.controlGroups, 65536 ≤ group.start ∧ g.makeControls =
      .error (.invalidInput group.descriptor.name "special_index" .tooManySlots) := by
  simp only [makeControls]
  rcases mapM_ok_or_error ControlGroup.control g.controlGroups with
    ⟨controls, hcontrols⟩ | ⟨group, hgroup, fault, hfault, hmap⟩
  · refine .inl ⟨?_, _, by rw [hcontrols]; rfl⟩
    exact ((mapM_eq_ok_iff fun _ _ _ => ControlGroup.control_eq_ok).1 hcontrols).1
  · right
    unfold ControlGroup.control at hfault
    split at hfault
    · cases hfault
    · next hstart =>
      cases hfault
      exact ⟨group, hgroup, Nat.le_of_not_lt hstart, by rw [hmap]; rfl⟩

end Graph

namespace Builder

variable {b : Builder}

/-- The number of slots that parameters of earlier rate groups take. -/
def slotsBefore (b : Builder) (rate : ParameterRate) : Nat :=
  ((b.parameters.filter fun p => p.rate.index < rate.index).flatMap (·.values)).length

theorem start_of_mem_controlGroups {group : ControlGroup}
    (h : group ∈ (Graph.ofNodes b.nodes).controlGroups) :
    group.start = b.slotsBefore group.rate := by
  have hall : ∀ rate : ParameterRate, rate ∈ ParameterRate.all := by
    intro rate
    cases rate <;> decide
  rw [Graph.start_of_mem_groupsFrom (by decide) h, Graph.map_placeholders]
  simp only [hall, true_and, Nat.zero_add]
  rfl

theorem exists_group_iff : (∃ group ∈ (Graph.ofNodes b.nodes).controlGroups, 65536 ≤ group.start) ↔
    ∃ p ∈ b.parameters, 65535 < b.slotsBefore p.rate := by
  have hparameters : (Graph.ofNodes b.nodes).placeholders.map (·.2) = b.parameters :=
    Graph.map_placeholders b.nodes
  constructor
  · rintro ⟨group, hgroup, hstart⟩
    obtain ⟨m, hm⟩ := List.exists_mem_of_ne_nil _ (Graph.mem_groupsFrom hgroup).2.2
    obtain ⟨hlive, hrate⟩ := (Graph.mem_controlGroups hgroup).1 hm
    refine ⟨m.2, ?_, ?_⟩
    · rw [← hparameters]
      exact List.mem_map_of_mem (Graph.mem_placeholders.2 hlive)
    · rw [hrate, ← start_of_mem_controlGroups hgroup]
      omega
  · rintro ⟨p, hp, hstart⟩
    rw [← hparameters] at hp
    obtain ⟨m, hm, rfl⟩ := List.mem_map.1 hp
    obtain ⟨hlive, hparameter⟩ := Graph.mem_placeholders.1 hm
    obtain ⟨group, hgroup, hmember⟩ := Graph.exists_controlGroup hlive hparameter
    have hrate := ((Graph.mem_controlGroups hgroup).1 hmember).2
    refine ⟨group, hgroup, ?_⟩
    rw [start_of_mem_controlGroups hgroup, ← hrate]
    exact hstart

/-! ## Builders that grow -/

/-- Every node reads nodes that stand before it. -/
def ReadsBack (b : Builder) : Prop :=
  ∀ (id : Nat) (n : Node), b.nodes[id]? = some n → ∀ ref ∈ n.refs, ref.ugen < id

theorem ReadsBack.append (hb : b.ReadsBack) {nodes : List Node}
    (h : ∀ n ∈ nodes, ∀ ref ∈ n.refs, ref.ugen < b.nodes.size) : (b.append nodes).ReadsBack := by
  intro id n hn ref href
  rw [Builder.append, Array.getElem?_append] at hn
  split at hn
  · exact hb id n hn ref href
  · next hge =>
    have hnew := h n (List.mem_of_getElem? (by simpa using hn)) ref href
    omega

theorem Grows.readsBack {extra : Descriptor → Prop} {b' : Builder} (h : b.Grows extra b')
    (hb : b.ReadsBack) : b'.ReadsBack := by
  cases h with
  | register _ _ hplan =>
    refine hb.append fun n hn ref href => ?_
    obtain ⟨values, -, -, hnode⟩ := exists_node_of_plan hplan hn
    obtain ⟨input, s, -, hwire⟩ := exists_wire_of_mem_refs hnode href
    exact lt_of_wire hwire
  | parameter =>
    refine hb.append fun n hn ref href => ?_
    obtain rfl := List.mem_singleton.1 hn
    cases href

theorem ReadsBack.forward (hb : b.ReadsBack) : (Graph.ofNodes b.nodes).Forward := by
  rintro x y ⟨hx, hy, ref, href, rfl⟩
  have hlt := hb y _ (Graph.getElem?_of_mem_ofNodes hy) ref href
  exact Graph.precedes_of_pairwise_not (R := (· < ·))
    (List.pairwise_lt_range.imp fun h => Nat.lt_asymm h) Nat.lt_irrefl hx hy hlt

end Builder

theorem History.readsBack {ops : List Operation} {b : Builder} {known : List Outlet}
    (h : History ops b known) (hops : ∀ op ∈ ops, op.rewires = false) : b.ReadsBack := by
  obtain ⟨scope, hsteps⟩ := h.grows hops
  clear h
  induction hsteps with
  | refl => exact fun id n hn => by simp at hn
  | tail _ hstep ih => exact hstep.readsBack ih

/-! ## Outcomes -/

theorem Graph.Sourced.exists_compiled {source : Graph} (hs : source.Sourced) (hf : source.Forward)
    {g₁ : Graph} (h : source.makeControls = .ok g₁) (options : Options) :
    ∃ g, source.compiled options = .ok g := by
  have hcontrols := Graph.makeControls_spec hs.closed.toOrdered h
  obtain ⟨g₂, hg₂⟩ := (hs.forward_controls hcontrols hf).exists_splitChains
    (hcontrols.closed hs.closed hs.placeholdersFit)
  have hcomplete := Graph.complete_eq_ok.2 ⟨g₁, g₂, h, hg₂, rfl⟩
  obtain ⟨hr, -⟩ := hs.resolved_complete hcomplete
  obtain ⟨hwired, hforward⟩ := (hs.forward_complete hcomplete hf).foldIf hr.wired options
  obtain ⟨sorted, hsorted⟩ := hforward.exists_sort hwired.toOrdered
  exact ⟨_, compiled_eq_ok.2 ⟨_, sorted, hcomplete, hsorted, rfl⟩⟩

theorem Builder.ReadsBack.build_cases {b : Builder} (hb : b.ReadsBack) (hw : b.WellFormed)
    (options : Options) :
    b.nodes = #[] ∧ b.build options = .error (.fault .emptyGraph) ∨
    b.nodes ≠ #[] ∧ (∃ p ∈ b.parameters, 65535 < b.slotsBefore p.rate) ∧
      (∃ ugen, b.build options =
        .error (.fault (.invalidInput ugen "special_index" .tooManySlots))) ∨
    b.nodes ≠ #[] ∧ (¬∃ p ∈ b.parameters, 65535 < b.slotsBefore p.rate) ∧
      ∃ d, b.build options = .ok d := by
  by_cases hempty : b.nodes = #[]
  · exact .inl ⟨hempty, if_pos (by simp [hempty])⟩
  · right
    have hnodes : b.nodes.isEmpty = false := by simpa using hempty
    rw [← exists_group_iff]
    rcases (Graph.ofNodes b.nodes).makeControls_cases with ⟨hfits, g₁, hg₁⟩ |
      ⟨group, hgroup, hstart, hfault⟩
    · right
      obtain ⟨g, hg⟩ := hw.sourced.exists_compiled hb.forward hg₁ options
      refine ⟨hempty, ?_, _, build_eq_ok.2 ⟨hnodes, g, hg, rfl⟩⟩
      rintro ⟨group, hgroup, hstart⟩
      exact absurd (hfits group hgroup) (Nat.not_lt.2 hstart)
    · refine .inl ⟨hempty, ⟨group, hgroup, hstart⟩, group.descriptor.name, ?_⟩
      rw [Builder.build, hnodes, Graph.compile, Graph.compiled, Graph.complete, hfault]
      rfl

/-- As long as no input is exchanged, no build fails because of a cycle, and none goes on for ever:
a build fails exactly if nothing has been registered or a group of parameters starts beyond the
last slot. -/
theorem build_acyclic {ops : List Operation} {b : Builder} {known : List Outlet}
    (h : History ops b known) (hops : ∀ op ∈ ops, op.rewires = false) (options : Options) :
    (∀ classNames, b.build options ≠ .error (.fault (.cyclicGraph classNames))) ∧
    b.build options ≠ .error .endless ∧
    (b.build options = .error (.fault .emptyGraph) ↔ b.nodes = #[]) ∧
    ((∃ ugen input reason, b.build options = .error (.fault (.invalidInput ugen input reason))) ↔
      ∃ p ∈ b.parameters, 65535 < b.slotsBefore p.rate) ∧
    ((∃ d, b.build options = .ok d) ↔
      b.nodes ≠ #[] ∧ ∀ p ∈ b.parameters, b.slotsBefore p.rate ≤ 65535) := by
  have hw := (h.sound fun op _ => op.registers_true).1
  rcases (h.readsBack hops).build_cases hw options with
    ⟨hempty, hbuild⟩ | ⟨hempty, hlarge, ugen, hbuild⟩ | ⟨hempty, hfits, d, hbuild⟩
  · have hnone : b.parameters = [] := by simp [Builder.parameters, hempty]
    simp [hbuild, hempty, hnone]
  · have hnot : ¬∀ p ∈ b.parameters, b.slotsBefore p.rate ≤ 65535 := by
      obtain ⟨p, hp, hlt⟩ := hlarge
      exact fun hall => absurd (hall p hp) (Nat.not_le.2 hlt)
    simp [hbuild, hempty, hlarge, hnot]
  · have hall : ∀ p ∈ b.parameters, b.slotsBefore p.rate ≤ 65535 := fun p hp =>
      Nat.le_of_not_lt fun hlt => hfits ⟨p, hp, hlt⟩
    exact ⟨by simp [hbuild], by simp [hbuild], by simp [hbuild, hempty],
      by simpa [hbuild] using hall, by simpa [hbuild, hempty] using hall⟩

/-- Transforms of one spectrum build, though copies and a declaration are placed between them. -/
theorem spectrumBuilder_acyclic :
    (∃ known, History spectrumOperations spectrumBuilder known) ∧
    (∀ op ∈ spectrumOperations, op.rewires = false) ∧
    ∃ d, spectrumBuilder.build { fold := true } = .ok d := by
  obtain ⟨known, h⟩ : ∃ known, History spectrumOperations spectrumBuilder known :=
    ⟨_, history_of_admitted (by decide +kernel)⟩
  have hops : ∀ op ∈ spectrumOperations, op.rewires = false := by
    simp [spectrumOperations, Operation.rewires]
  have hfits : ∀ p ∈ spectrumBuilder.parameters,
      spectrumBuilder.slotsBefore p.rate ≤ 65535 := by
    decide +kernel
  have hnodes : spectrumBuilder.nodes ≠ #[] := by
    decide +kernel
  exact ⟨⟨known, h⟩, hops, (build_acyclic h hops { fold := true }).2.2.2.2.2 ⟨hnodes, hfits⟩⟩

end SynthGraph
