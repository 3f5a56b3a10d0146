import Mathlib.Algebra.BigOperators.Ring.List
import Mathlib.Algebra.Order.BigOperators.Group.List
import Mathlib.Algebra.Order.Group.Nat
import Mathlib.Algebra.Ring.Nat
import Mathlib.Data.List.Flatten
import SynthGraph.Proofs.Numbering

/-!
# Sizes

The counts in a file are words of 32 bits. The compiler adds a control for each of the four rates,
up to three nodes for an input that reads a chain, and one declaration; everything else it does to
the nodes of a builder leaves their number of inputs and outputs as it is or makes it three. So
whether a definition fits its file can be read off the builder.
-/

namespace SynthGraph

/-- What a node costs at most: itself, three nodes for each input, and its outputs. -/
def Node.weight (n : Node) : Nat := 1 + 3 * n.inputs.length + n.outputs

namespace Graph

/-- What a graph costs at most. Four controls and a declaration come on top of its nodes. -/
def weight (g : Graph) : Nat := (g.order.map fun id => (g.node id).weight).sum + 5

/-- No node has more than `k` inputs or outputs. -/
def Narrow (g : Graph) (k : Nat) : Prop :=
  ∀ id ∈ g.order, (g.node id).inputs.length ≤ k ∧ (g.node id).outputs ≤ k

variable {source g₁ g₂ g g' : Graph} {copies : List ChainCopy} {k : Nat}

theorem narrow_weight (g : Graph) : g.Narrow g.weight := by
  intro id hid
  have hle : (g.node id).weight ≤ (g.order.map fun id => (g.node id).weight).sum :=
    List.le_sum_of_mem (List.mem_map_of_mem hid)
  have hnode : (g.node id).weight = 1 + 3 * (g.node id).inputs.length + (g.node id).outputs := rfl
  unfold weight
  omega

/-! ## Slots -/

/-- The slots of placeholders are their outputs. -/
theorem Sourced.length_slots_le (hs : source.Sourced) :
    (source.slotOrder.flatMap (·.values)).length ≤ source.weight := by
  have hle : ∀ ids ⊆ source.order,
      ((ids.filterMap fun id => (source.node id).parameter?).flatMap (·.values)).length ≤
        (ids.map fun id => (source.node id).weight).sum := by
    intro ids hids
    induction ids with
    | nil => exact Nat.le_refl 0
    | cons id ids ih =>
      obtain ⟨hid, hids⟩ := List.cons_subset.1 hids
      rw [List.map_cons, List.sum_cons]
      cases hp : (source.node id).parameter? with
      | none =>
        simp only [List.filterMap_cons, hp]
        exact Nat.le_add_left_of_le (ih hids)
      | some p =>
        have hsize : (source.node id).outputs = p.values.length := hs.placeholdersFit id hid p hp
        simp only [List.filterMap_cons, hp, List.flatMap_cons, List.length_append, Node.weight,
          hsize]
        exact Nat.add_le_add (Nat.le_add_left _ _) (ih hids)
  have hplaceholders : source.placeholders.map (·.2) =
      source.order.filterMap fun id => (source.node id).parameter? := by
    rw [Graph.placeholders, List.map_filterMap]
    refine List.filterMap_congr fun id _ => ?_
    cases (source.node id).parameter? <;> rfl
  rw [(source.slotOrder_perm.flatMap_right _).length_eq, hplaceholders]
  exact (hle _ (List.Subset.refl _)).trans (Nat.le_add_right _ 5)

theorem size_le_of_mem_controlGroups {group : ControlGroup} (h : group ∈ source.controlGroups) :
    group.size ≤ (source.slotOrder.flatMap (·.values)).length := by
  obtain ⟨hrate, hmembers, -⟩ := mem_groupsFrom h
  have hsub : ((groupMembers source.placeholders group.rate).map (·.2)).Sublist
      source.slotOrder := by
    rw [slotOrder, List.flatMap_def]
    exact List.sublist_flatten_of_mem (List.mem_map_of_mem hrate)
  have hsize : group.size = ((group.members.map (·.2)).flatMap (·.values)).length := by
    rw [ControlGroup.size, List.flatMap_map]
  rw [hsize, hmembers]
  exact (hsub.flatMap _).length_le

theorem length_lagInputs_le (group : ControlGroup) : group.lagInputs.length ≤ group.size := by
  have hlags : group.lags.length = group.size := by
    simp [ControlGroup.lags, ControlGroup.size, List.length_flatMap, Parameter.size]
  unfold ControlGroup.lagInputs
  split
  · exact hlags.le
  · exact Nat.zero_le _

/-! ## Inputs and outputs -/

theorem WithControls.narrow (h : source.WithControls g₁) (hn : source.Narrow k)
    (hslots : (source.slotOrder.flatMap (·.values)).length ≤ k) : g₁.Narrow k := by
  intro id hid
  rcases h.mem_order.1 hid with ⟨i, group, hi, rfl⟩ | ⟨hold, hkind⟩
  · have hsize := (size_le_of_mem_controlGroups (List.mem_of_getElem? hi)).trans hslots
    rw [h.control i group hi, ControlGroup.node, List.length_map]
    exact ⟨(length_lagInputs_le group).trans hsize, hsize⟩
  · rw [h.node id hold hkind, Node.mapRefs, List.length_map]
    exact hn id hold

theorem Split.narrow (h : g₁.Split copies g₂) (hg : g₁.Ordered) (hn : g₁.Narrow k) (hk : 3 ≤ k) :
    g₂.Narrow k := by
  intro id hid
  rcases List.mem_append.1 (h.order.mem_iff.1 hid) with hold | hnew
  · have hlt := hg.bound id hold
    rw [h.length id hlt, (h.alike id hlt).outputs]
    exact hn id hold
  · obtain ⟨c, hc, hmem⟩ := List.mem_flatMap.1 hnew
    have hsmall : (g₂.node id).inputs.length ≤ 2 ∧ (g₂.node id).outputs ≤ 1 := by
      rcases h.synthesized hc hmem with ⟨input, hnode⟩ | hnode | hnode
      all_goals rw [hnode]
      · exact ⟨Nat.le_succ 1, Nat.le_refl 1⟩
      · exact ⟨Nat.le_refl 2, Nat.le_refl 1⟩
      · exact ⟨Nat.le_refl 2, Nat.le_refl 1⟩
    omega

theorem Declared.narrow (h : g₂.Declared g) (hg : g₂.Ordered) (hn : g₂.Narrow k) (hk : 3 ≤ k) :
    g.Narrow k := by
  intro id hid
  rcases h.mem_order.1 hid with ⟨hold, -⟩ | ⟨hne, rfl⟩
  · obtain ⟨hinputs, houtputs⟩ := hn id hold
    rw [h.node id (hg.bound id hold)]
    split
    · refine ⟨?_, houtputs⟩
      rw [declareBuffer, List.length_append, List.length_take, List.length_singleton]
      omega
    · exact ⟨hinputs, houtputs⟩
  · rw [h.declaration hne]
    exact ⟨show 1 ≤ k by omega, show 1 ≤ k by omega⟩

theorem Ordered.narrow_merge (hg : g.Ordered) (hn : g.Narrow k) (survivors : Survivors) :
    (g.merge survivors).Narrow k := by
  obtain ⟨horder, -, hnode⟩ := merge_spec hg survivors
  intro id hid
  rw [hnode id, if_pos hid, Node.mapRefs, List.length_map]
  rw [horder] at hid
  exact hn id (List.mem_filter.1 hid).1

/-! ## Nodes -/

theorem length_controlGroups_le (source : Graph) : source.controlGroups.length ≤ 4 := by
  have hrates := congrArg List.length
    (map_rate_groupsFrom source.placeholders 0 ParameterRate.all)
  rw [List.length_map] at hrates
  exact hrates.trans_le (List.length_filter_le _ _)

theorem length_ids_le (c : ChainCopy) : c.ids.length ≤ 3 := by
  rw [ChainCopy.ids, List.length_append]
  cases c.frames <;> simp

theorem length_chainReads_le (g : Graph) (id : Nat) :
    (g.chainReads id).length ≤ (g.node id).inputs.length := by
  simp only [chainReads]
  split
  · exact (List.length_filterMap_le _ _).trans_eq List.length_zipIdx
  · exact Nat.zero_le _

/-- Controls read no chains, so there are at most as many copies as inputs of other nodes. -/
theorem Stages.length_copies_le (h : Stages source g₁ g₂ g copies) :
    copies.length ≤ ((source.order.filter fun id => !(source.node id).isParameter).map fun id =>
      (source.node id).inputs.length).sum := by
  have hplan : copies.length ≤ g₁.chainSlots.length := by
    have hlength : copies.length = g₁.copyPlan.length := by rw [← h.plan, List.length_map]
    rw [hlength]
    refine (List.subperm_of_subset (nodup_copyPlan h.closed₁.toOrdered).of_map ?_).length_le
    intro ⟨chain, slot⟩ hmem
    exact mem_chainSlots.2 (readsChain_of_mem_copyPlan hmem)
  have hcontrols : (List.range' source.nodes.size source.controlGroups.length).flatMap
      g₁.chainReads = [] := by
    refine List.flatMap_eq_nil_iff.2 fun id hid => ?_
    obtain ⟨k, hk, rfl⟩ := List.mem_range'.1 hid
    rw [Nat.one_mul, chainReads, h.controls.control k _ (List.getElem?_eq_getElem hk),
      ControlGroup.flags_node]
    rfl
  refine hplan.trans ?_
  rw [chainSlots, h.controls.order, List.flatMap_append, hcontrols, List.nil_append,
    List.length_flatMap]
  refine List.sum_le_sum fun id hid => ?_
  obtain ⟨hold, hkind⟩ := List.mem_filter.1 hid
  refine (g₁.length_chainReads_le id).trans_eq ?_
  rw [h.controls.node id hold (by simpa using hkind), Node.mapRefs, List.length_map]

theorem Stages.length_order_le (h : Stages source g₁ g₂ g copies) :
    g.order.length ≤ source.weight := by
  let generators := source.order.filter fun id => !(source.node id).isParameter
  have hgroups := source.length_controlGroups_le
  have hdeclared : g.order.length ≤ g₂.order.length + 1 := by
    have hdropped : g₂.dropDeclarations.order.length ≤ g₂.order.length :=
      List.length_filter_le _ _
    have hone : g₂.declarations.length ≤ 1 := by
      unfold declarations
      split <;> simp
    rw [h.declared.order.length_eq, List.length_append]
    omega
  have hsplit : g₂.order.length ≤ g₁.order.length + 3 * copies.length := by
    have hids : (copies.flatMap ChainCopy.ids).length ≤ copies.length * 3 :=
      calc (copies.flatMap ChainCopy.ids).length = (copies.map fun c => c.ids.length).sum :=
            List.length_flatMap
        _ ≤ (copies.map fun _ => 3).sum := List.sum_le_sum fun c _ => length_ids_le c
        _ = copies.length * 3 := by rw [List.map_const', List.sum_replicate_nat]
    rw [h.split.order.length_eq, List.length_append]
    omega
  have hcontrols : g₁.order.length = source.controlGroups.length + generators.length := by
    rw [h.controls.order, List.length_append, List.length_range']
  have hweight : generators.length + 3 * (generators.map fun id =>
      (source.node id).inputs.length).sum ≤
        (source.order.map fun id => (source.node id).weight).sum :=
    calc _ = (generators.map fun id => 1 + 3 * (source.node id).inputs.length).sum := by
          rw [List.sum_map_add, List.sum_map_mul_left, List.map_const', List.sum_replicate_nat,
            Nat.mul_one]
      _ ≤ (generators.map fun id => (source.node id).weight).sum :=
          List.sum_le_sum fun id _ => Nat.le_add_right _ _
      _ ≤ _ := (List.filter_sublist.map _).sum_le_sum fun _ _ => Nat.zero_le _
  have hcopies : copies.length ≤ (generators.map fun id => (source.node id).inputs.length).sum :=
    h.length_copies_le
  unfold weight
  omega

/-! ## Definitions -/

theorem Sourced.compiled_within (hs : source.Sourced) {options : Options}
    (h : source.compiled options = .ok g) :
    g.order.length ≤ source.weight ∧ g.Narrow source.weight := by
  obtain ⟨complete, sorted, hc, hsort, rfl⟩ := compiled_eq_ok.1 h
  obtain ⟨g₁, g₂, copies, hstages⟩ := hs.stages hc
  have hwired := (hs.resolved_complete hc).1.wired
  have hthree : 3 ≤ source.weight := by unfold weight; omega
  have hnarrow : complete.Narrow source.weight :=
    hstages.declared.narrow hstages.closed₂.toOrdered
      (hstages.split.narrow hstages.closed₁.toOrdered
        (hstages.controls.narrow source.narrow_weight hs.length_slots_le) hthree) hthree
  obtain ⟨-, hlength, hnarrow⟩ := hwired.foldIf (P := fun g =>
      g.order.length ≤ source.weight ∧ g.Narrow source.weight) (fun g hw ⟨hlength, hnarrow⟩ => ⟨by
        rw [(merge_spec hw.toOrdered _).1]
        exact (List.length_filter_le _ _).trans hlength, hw.toOrdered.narrow_merge hnarrow _⟩)
    ⟨hstages.length_order_le, hnarrow⟩ options
  obtain ⟨hnode, hperm⟩ := sort_perm hsort
  have hsub := sorted.dropDeadIf_sublist options
  refine ⟨hsub.length_le.trans (hperm.length_eq.trans_le hlength), fun id hid => ?_⟩
  rw [node_dropDeadIf, hnode]
  exact hnarrow id (hperm.mem_iff.1 (hsub.mem hid))

/-- The counts of what is compiled from a small graph fit into the words of a file. -/
theorem Sourced.fits_finish (hs : source.Sourced) (hw : source.weight < 4294967296)
    {options : Options} (h : source.compiled options = .ok g) (name : Option String) :
    (g.finish name).Fits := by
  obtain ⟨-, hl, hfits⟩ := hs.resolved_compiled h
  obtain ⟨hlength, hnarrow⟩ := hs.compiled_within h
  have hugens : ∀ u ∈ g.numbered, u.inputs.length < 4294967296 ∧ u.outputs < 4294967296 := by
    intro u hu
    obtain ⟨id, hid, rfl⟩ := mem_numbered.1 hu
    obtain ⟨hinputs, houtputs⟩ := hnarrow id hid
    rw [Node.mapRefs, List.length_map]
    exact ⟨hinputs.trans_lt hw, houtputs.trans_lt hw⟩
  constructor
  case slots =>
    have hparameters : (g.finish name).parameters = slotsFrom 0 source.slotOrder :=
      (parameterTable_numbered hl hfits).trans (flatMap_groupsFrom _ _ _)
    rw [Definition.slotCount, hparameters, flatMap_slotsFrom]
    exact hs.length_slots_le.trans_lt hw
  case ugens =>
    have hcount : (g.finish name).ugens.length = g.order.length :=
      (List.length_map _).trans g.emission_perm.length_eq
    rw [hcount]
    exact hlength.trans_lt hw
  case inputs => exact fun u hu => (hugens u hu).1
  case outputs => exact fun u hu => (hugens u hu).2

end SynthGraph.Graph
