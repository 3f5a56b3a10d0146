import Mathlib.Data.List.Perm.Basic
import SynthGraph.Compile
import SynthGraph.Proofs.Arena
import SynthGraph.Proofs.Basic

/-!
# Making controls

Every placeholder is a member of exactly one group, and the slots of the groups follow each other.
A reference to a channel of a placeholder becomes a reference to the output of the control that
carries this channel; all other references stay.
-/

namespace SynthGraph

/-! ## Groups -/

namespace ControlGroup

/-- Where a channel of a member is found. -/
theorem output?_eq_some {members : List (Nat × Parameter)} {id channel output : Nat} :
    output? members id channel = some output ↔ ∃ before p after,
      members = before ++ (id, p) :: after ∧ id ∉ before.map (·.1) ∧ channel < p.size ∧
        output = (before.flatMap (·.2.values)).length + channel := by
  induction members generalizing output with
  | nil => simp [output?]
  | cons member rest ih =>
    obtain ⟨placeholder, q⟩ := member
    unfold output?
    by_cases hid : placeholder = id
    · subst hid
      rw [if_pos rfl]
      constructor
      · intro h
        split at h
        · next hc =>
          cases h
          exact ⟨[], q, rest, rfl, by simp, hc, by simp⟩
        · cases h
      · rintro ⟨before, p, after, hm, hnot, hc, rfl⟩
        cases before with
        | nil =>
          cases hm
          simp [hc]
        | cons first before =>
          cases hm
          simp at hnot
    · rw [if_neg hid, Option.map_eq_some_iff]
      constructor
      · rintro ⟨o, ho, rfl⟩
        obtain ⟨before, p, after, rfl, hnot, hc, rfl⟩ := ih.1 ho
        refine ⟨(placeholder, q) :: before, p, after, rfl, ?_, hc, ?_⟩
        · simpa [Ne.symm hid] using hnot
        · simp [Parameter.size, Nat.add_assoc]
      · rintro ⟨before, p, after, hm, hnot, hc, rfl⟩
        cases before with
        | nil =>
          cases hm
          exact absurd rfl hid
        | cons first before =>
          cases hm
          simp only [List.map_cons, List.mem_cons, not_or] at hnot
          refine ⟨_, ih.2 ⟨before, p, after, rfl, hnot.2, hc, rfl⟩, ?_⟩
          simp [Parameter.size, Nat.add_assoc]

theorem control_eq_ok {group : ControlGroup} {n : Node} :
    group.control = .ok n ↔ group.start < 65536 ∧ n = group.node := by
  unfold control
  split
  · next h => simp [h, eq_comm]
  · next h => simp [h]

end ControlGroup

namespace Graph

theorem mem_groupMembers {placeholders : List (Nat × Parameter)} {rate : ParameterRate}
    {m : Nat × Parameter} : m ∈ groupMembers placeholders rate ↔
      m ∈ placeholders ∧ m.2.rate = rate := by
  simp [groupMembers]

/-- A group holds the members of its rate, of which there are some. -/
theorem mem_groupsFrom {placeholders : List (Nat × Parameter)} {rates : List ParameterRate}
    {start : Nat} {group : ControlGroup} (h : group ∈ groupsFrom placeholders start rates) :
    group.rate ∈ rates ∧ group.members = groupMembers placeholders group.rate ∧
      group.members ≠ [] := by
  induction rates generalizing start with
  | nil => simp [groupsFrom] at h
  | cons rate rates ih =>
    simp only [groupsFrom] at h
    split at h
    · obtain ⟨hr, hm⟩ := ih h
      exact ⟨List.mem_cons_of_mem _ hr, hm⟩
    · next hne =>
      rcases List.mem_cons.1 h with rfl | h
      · exact ⟨List.mem_cons_self, rfl, by simpa using hne⟩
      · obtain ⟨hr, hm⟩ := ih h
        exact ⟨List.mem_cons_of_mem _ hr, hm⟩

theorem exists_mem_groupsFrom {placeholders : List (Nat × Parameter)}
    {rates : List ParameterRate} {rate : ParameterRate} (hr : rate ∈ rates)
    (hne : groupMembers placeholders rate ≠ []) (start : Nat) :
    ∃ group ∈ groupsFrom placeholders start rates, group.rate = rate := by
  induction rates generalizing start with
  | nil => simp at hr
  | cons first rates ih =>
    simp only [groupsFrom]
    rcases List.mem_cons.1 hr with rfl | hr
    · rw [if_neg (by simpa using hne)]
      exact ⟨_, List.mem_cons_self, rfl⟩
    · split
      · exact ih hr _
      · obtain ⟨group, hg, hrate⟩ := ih hr (start + (groupMembers placeholders first |>.flatMap
          (·.2.values)).length)
        exact ⟨group, List.mem_cons_of_mem _ hg, hrate⟩

theorem map_rate_groupsFrom (placeholders : List (Nat × Parameter)) (start : Nat)
    (rates : List ParameterRate) : (groupsFrom placeholders start rates).map (·.rate) =
      rates.filter fun rate => !(groupMembers placeholders rate).isEmpty := by
  induction rates generalizing start with
  | nil => rfl
  | cons rate rates ih =>
    simp only [groupsFrom, List.filter_cons]
    split
    · next h => simp [h, ih]
    · next h => simp [h, ih]

theorem slotsFrom_append (start : Nat) (ps qs : List Parameter) :
    slotsFrom start (ps ++ qs) =
      slotsFrom start ps ++ slotsFrom (start + (ps.flatMap (·.values)).length) qs := by
  induction ps generalizing start with
  | nil => simp [slotsFrom]
  | cons p ps ih => simp [slotsFrom, ih, Parameter.size, Nat.add_assoc]

/-- The slots of the groups follow each other. -/
theorem flatMap_groupsFrom (placeholders : List (Nat × Parameter)) (start : Nat)
    (rates : List ParameterRate) :
    (groupsFrom placeholders start rates).flatMap
        (fun group => slotsFrom group.start (group.members.map (·.2))) =
      slotsFrom start (rates.flatMap fun rate => (groupMembers placeholders rate).map (·.2)) := by
  induction rates generalizing start with
  | nil => rfl
  | cons rate rates ih =>
    simp only [groupsFrom]
    split
    · next hempty =>
      rw [ih]
      simp_all [ControlGroup.size]
    · rw [List.flatMap_cons, ih, List.flatMap_cons, slotsFrom_append]
      simp [ControlGroup.size, List.flatMap_map]

theorem mem_placeholders {g : Graph} {m : Nat × Parameter} :
    m ∈ g.placeholders ↔ m.1 ∈ g.order ∧ (g.node m.1).parameter? = some m.2 := by
  simp only [placeholders, List.mem_filterMap, Option.map_eq_some_iff]
  constructor
  · rintro ⟨id, hid, p, hp, rfl⟩
    exact ⟨hid, hp⟩
  · rintro ⟨hid, hp⟩
    exact ⟨m.1, hid, m.2, hp, rfl⟩

/-- The parameters in the order of their slots. -/
def slotOrder (source : Graph) : List Parameter :=
  ParameterRate.all.flatMap fun rate => (groupMembers source.placeholders rate).map (·.2)

theorem slotOrder_perm (source : Graph) :
    source.slotOrder.Perm (source.placeholders.map (·.2)) := by
  have hgroups : source.slotOrder.Perm (ParameterRate.all.flatMap fun rate =>
      (source.placeholders.map (·.2)).filter fun p => p.rate = rate) := by
    refine List.Perm.flatMap_left _ fun rate _ => ?_
    refine ((List.mergeSort_perm _ _).map _).trans (.of_eq ?_)
    rw [List.filter_map]
    rfl
  exact hgroups.trans (flatMap_filter_perm _ (by decide) fun p _ => by cases p.rate <;> decide)

theorem mem_controlGroups {g : Graph} {group : ControlGroup} (h : group ∈ g.controlGroups)
    {m : Nat × Parameter} :
    m ∈ group.members ↔
      (m.1 ∈ g.order ∧ (g.node m.1).parameter? = some m.2) ∧ m.2.rate = group.rate := by
  rw [(mem_groupsFrom h).2.1, mem_groupMembers, mem_placeholders]

theorem exists_controlGroup {g : Graph} {id : Nat} {p : Parameter} (hid : id ∈ g.order)
    (hp : (g.node id).parameter? = some p) :
    ∃ group ∈ g.controlGroups, (id, p) ∈ group.members := by
  have hmem : (id, p) ∈ groupMembers g.placeholders p.rate :=
    mem_groupMembers.2 ⟨mem_placeholders.2 ⟨hid, hp⟩, rfl⟩
  have hrate : p.rate ∈ ParameterRate.all := by cases p.rate <;> decide
  obtain ⟨group, hg, hr⟩ := exists_mem_groupsFrom hrate (List.ne_nil_of_mem hmem) 0
  exact ⟨group, hg, (mem_controlGroups hg).2 ⟨⟨hid, hp⟩, hr.symm⟩⟩

end Graph

/-- Output `output` of the control carries channel `channel` of the parameter. -/
def Node.Carries (n : Node) (output : Nat) (p : Parameter) (channel : Nat) : Prop :=
  ∃ before after, n.parameters = before ++ p :: after ∧ channel < p.size ∧
    output = (before.flatMap (·.values)).length + channel

theorem ControlGroup.output_lt {group : ControlGroup} {p : Parameter} {output channel : Nat}
    (h : group.node.Carries output p channel) : output < group.node.outputs := by
  obtain ⟨before, after, hps, hc, rfl⟩ := h
  have hsize : group.node.outputs = ((before ++ p :: after).flatMap (·.values)).length := by
    rw [← hps]
    simp [node, Node.parameters, size, List.flatMap_map]
  rw [hsize, List.flatMap_append, List.flatMap_cons, List.length_append, List.length_append]
  simp only [Parameter.size] at hc
  omega

namespace Graph

/-! ## References -/

theorem controlRef_eq (groups : List ControlGroup) (first : Nat) (ref : NodeRef) :
    controlRef groups first ref = ((groups.zipIdx first).findSome? fun e =>
      (ControlGroup.output? e.1.members ref.ugen ref.output).map (NodeRef.mk e.2)).getD ref :=
  rfl

theorem controlRef_found {groups : List ControlGroup} (first : Nat) (ref : NodeRef)
    {group : ControlGroup} (hg : group ∈ groups)
    (ho : (ControlGroup.output? group.members ref.ugen ref.output).isSome) :
    ∃ (k : Nat) (found : ControlGroup) (output : Nat), groups[k]? = some found ∧
      ControlGroup.output? found.members ref.ugen ref.output = some output ∧
      controlRef groups first ref = ⟨first + k, output⟩ := by
  rw [controlRef_eq]
  cases hf : (groups.zipIdx first).findSome? fun e =>
      (ControlGroup.output? e.1.members ref.ugen ref.output).map (NodeRef.mk e.2) with
  | none =>
    obtain ⟨i, hi⟩ := List.getElem?_of_mem hg
    have hmem : (group, first + i) ∈ groups.zipIdx first :=
      List.mk_mem_zipIdx_iff_le_and_getElem?_sub.2 ⟨by omega, by simpa using hi⟩
    have := List.findSome?_eq_none_iff.1 hf _ hmem
    simp_all
  | some target =>
    obtain ⟨⟨found, id⟩, hmem, hfound⟩ := List.exists_of_findSome?_eq_some hf
    obtain ⟨output, houtput, rfl⟩ := Option.map_eq_some_iff.1 hfound
    obtain ⟨hle, hk⟩ := List.mk_mem_zipIdx_iff_le_and_getElem?_sub.1 hmem
    exact ⟨id - first, found, output, hk, houtput, by simp [Nat.add_sub_of_le hle]⟩

/-- A reference to a channel of a placeholder becomes one to the control that carries it. -/
theorem controlRef_placeholder {g : Graph} (first : Nat) {channel id : Nat} {p : Parameter}
    (hid : id ∈ g.order) (hp : (g.node id).parameter? = some p) (hc : channel < p.size) :
    ∃ (k : Nat) (group : ControlGroup) (output : Nat), g.controlGroups[k]? = some group ∧
      group.rate = p.rate ∧ group.node.Carries output p channel ∧
      controlRef g.controlGroups first ⟨id, channel⟩ = ⟨first + k, output⟩ := by
  obtain ⟨group, hg, hmem⟩ := exists_controlGroup hid hp
  have honly : ∀ group ∈ g.controlGroups, ∀ q, (id, q) ∈ group.members → q = p := by
    intro group hg q hq
    have := ((mem_controlGroups hg).1 hq).1.2
    rw [hp] at this
    exact (Option.some.inj this).symm
  have hsome : (ControlGroup.output? group.members id channel).isSome := by
    obtain ⟨before, after, hm, hnot⟩ := List.eq_append_cons_of_mem
      (List.mem_map.2 ⟨(id, p), hmem, rfl⟩ : id ∈ group.members.map (·.1))
    obtain ⟨before', rest, hm', rfl, hrest⟩ := List.map_eq_append_iff.1 hm
    obtain ⟨⟨_, q⟩, after', rfl, rfl, rfl⟩ := List.map_eq_cons_iff.1 hrest
    have hq : q = p := honly group hg q (by simp [hm'])
    exact Option.isSome_iff_exists.2
      ⟨_, ControlGroup.output?_eq_some.2 ⟨before', q, after', hm', hnot, hq ▸ hc, rfl⟩⟩
  obtain ⟨k, found, output, hk, houtput, href⟩ :=
    controlRef_found first ⟨id, channel⟩ hg hsome
  obtain ⟨before, q, after, hm, -, hq, rfl⟩ := ControlGroup.output?_eq_some.1 houtput
  have hfound := List.mem_of_getElem? hk
  have hmem' : (id, q) ∈ found.members := by simp [hm]
  obtain rfl := honly found hfound q hmem'
  refine ⟨k, found, _, hk, ((mem_controlGroups hfound).1 hmem').2.symm, ?_, href⟩
  exact ⟨before.map (·.2), after.map (·.2), by simp [ControlGroup.node, Node.parameters, hm], hq,
    by simp [List.flatMap_map]⟩

theorem controlRef_other {g : Graph} {first : Nat} {ref : NodeRef}
    (h : ref.ugen ∈ g.order → (g.node ref.ugen).parameter? = none) :
    controlRef g.controlGroups first ref = ref := by
  have hnone : ((g.controlGroups.zipIdx first).findSome? fun e =>
      (ControlGroup.output? e.1.members ref.ugen ref.output).map (NodeRef.mk e.2)) = none := by
    refine List.findSome?_eq_none_iff.2 ?_
    rintro ⟨group, id⟩ hmem
    have hg := List.mem_of_getElem? (List.mk_mem_zipIdx_iff_le_and_getElem?_sub.1 hmem).2
    rw [Option.map_eq_none_iff, Option.eq_none_iff_forall_not_mem]
    intro output houtput
    obtain ⟨before, p, after, hm, -⟩ := ControlGroup.output?_eq_some.1 houtput
    have hmember : (ref.ugen, p) ∈ group.members := hm ▸ by simp
    have hplace := ((mem_controlGroups hg).1 hmember).1
    simp [h hplace.1] at hplace
  rw [controlRef_eq, hnone, Option.getD_none]

/-! ## The pass -/

/-- `g'` is `g` with its placeholders replaced by controls. -/
structure WithControls (g g' : Graph) : Prop where
  fits : ∀ group ∈ g.controlGroups, group.start < 65536
  size : g'.nodes.size = g.nodes.size + g.controlGroups.length
  order : g'.order = List.range' g.nodes.size g.controlGroups.length ++
    g.order.filter fun id => !(g.node id).isParameter
  node : ∀ id ∈ g.order, (g.node id).isParameter = false →
    g'.node id = (g.node id).mapRefs (controlRef g.controlGroups g.nodes.size)
  control : ∀ k group, g.controlGroups[k]? = some group → g'.node (g.nodes.size + k) = group.node

theorem makeControls_spec {g g' : Graph} (hg : g.Ordered) (h : g.makeControls = .ok g') :
    g.WithControls g' := by
  simp only [makeControls, except_bind_eq_ok,
    mapM_eq_ok_iff fun _ _ _ => ControlGroup.control_eq_ok] at h
  obtain ⟨controls, ⟨hfits, rfl⟩, h⟩ := h
  cases h
  have hrest : Ordered ⟨g.nodes ++ (g.controlGroups.map ControlGroup.node).toArray,
      g.order.filter fun id => !(g.node id).isParameter⟩ := by
    refine ⟨hg.nodup.filter _, fun id hid => ?_⟩
    have := hg.bound id (List.mem_filter.1 hid).1
    simp only [Array.size_append]
    omega
  obtain ⟨horder, hsize, hnode⟩ := hrest.mapRefs (controlRef g.controlGroups g.nodes.size)
  refine ⟨hfits, ?_, ?_, ?_, ?_⟩
  · simpa using hsize
  · simp [horder]
  · intro id hid hp
    have hmem : id ∈ g.order.filter fun id => !(g.node id).isParameter :=
      List.mem_filter.2 ⟨hid, by simp [hp]⟩
    have hold : (g.extend (g.controlGroups.map ControlGroup.node)).node id = g.node id :=
      node_extend_of_lt (hg.bound id hid) _
    refine (hnode id).trans ?_
    rw [if_pos hmem, ← hold]
    rfl
  · intro k group hk
    have hmem : g.nodes.size + k ∉ g.order.filter fun id => !(g.node id).isParameter := by
      intro hmem
      have := hg.bound _ (List.mem_filter.1 hmem).1
      omega
    refine (hnode _).trans ?_
    rw [if_neg hmem]
    exact node_extend_of_ge (by simp [hk])

/-- The placeholders have one output per channel. -/
def PlaceholdersFit (g : Graph) : Prop :=
  ∀ id ∈ g.order, ∀ p, (g.node id).parameter? = some p → (g.node id).outputs = p.size

variable {g g' : Graph}

theorem isParameter_eq {n : Node} : n.isParameter = n.parameter?.isSome := by
  unfold Node.isParameter Node.parameter?
  split <;> simp_all

theorem WithControls.mem_order (h : g.WithControls g') {id : Nat} :
    id ∈ g'.order ↔ (∃ k group, g.controlGroups[k]? = some group ∧ id = g.nodes.size + k) ∨
      id ∈ g.order ∧ (g.node id).isParameter = false := by
  rw [h.order, List.mem_append, List.mem_filter, List.mem_range']
  simp only [Bool.not_eq_true', Nat.one_mul]
  refine or_congr_left ⟨?_, ?_⟩
  · rintro ⟨k, hk, rfl⟩
    exact ⟨k, _, List.getElem?_eq_getElem hk, rfl⟩
  · rintro ⟨k, group, hk, rfl⟩
    exact ⟨k, (List.getElem?_eq_some_iff.1 hk).1, rfl⟩

theorem WithControls.ordered (h : g.WithControls g') (hg : g.Ordered) : g'.Ordered := by
  constructor
  · rw [h.order, List.nodup_append]
    refine ⟨List.nodup_range', hg.nodup.filter _, fun a ha b hb hab => ?_⟩
    have := hg.bound b (List.mem_filter.1 hb).1
    have := (List.mem_range'_1.1 ha).1
    omega
  · intro id hid
    rw [h.size]
    rcases h.mem_order.1 hid with ⟨k, group, hk, rfl⟩ | ⟨hid, -⟩
    · have := (List.getElem?_eq_some_iff.1 hk).1
      omega
    · have := hg.bound id hid
      omega

theorem refs_control (group : ControlGroup) : group.node.refs = [] := by
  simp [ControlGroup.node, Node.refs, List.filterMap_map, Function.comp_def, Input.node?]

theorem WithControls.closed (h : g.WithControls g') (hg : g.Closed) (hp : g.PlaceholdersFit) :
    g'.Closed := by
  refine ⟨h.ordered hg.toOrdered, fun id hid ref href => ?_⟩
  rcases h.mem_order.1 hid with ⟨k, group, hk, rfl⟩ | ⟨hid, hnot⟩
  · rw [h.control k group hk, refs_control] at href
    cases href
  · rw [h.node id hid hnot, Node.refs_mapRefs, List.mem_map] at href
    obtain ⟨old, hold, rfl⟩ := href
    obtain ⟨hlive, hout⟩ := hg.ref hid hold
    cases hpar : (g.node old.ugen).parameter? with
    | some p =>
      rw [hp _ hlive p hpar] at hout
      obtain ⟨k, group, output, hk, -, hcarries, href⟩ :=
        controlRef_placeholder g.nodes.size hlive hpar hout
      rw [show old = ⟨old.ugen, old.output⟩ from rfl, href]
      refine ⟨.inl (h.mem_order.2 (.inl ⟨k, group, hk, rfl⟩)), ?_⟩
      rw [h.control k group hk]
      exact ControlGroup.output_lt hcarries
    | none =>
      have hkind : (g.node old.ugen).isParameter = false := by simp [isParameter_eq, hpar]
      rw [controlRef_other fun _ => hpar]
      refine ⟨.inl (h.mem_order.2 (.inr ⟨hlive, hkind⟩)), ?_⟩
      rw [h.node _ hlive hkind]
      exact hout

end Graph

end SynthGraph
