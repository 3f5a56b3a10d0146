import SynthGraph.Proofs.Registered

/-!
# Parameters are addressed by slot

The parameters of a definition are those of the builder, ordered by rate and name, and their slots
follow each other from zero on. Every rate that occurs has one control, which puts out the slots of
its parameters. Whoever read a channel of a parameter reads the output for the slot of this channel.
-/

namespace SynthGraph

/-- The rate of `p` comes before that of `q`, or the rates are equal and the name of `p` comes
first. -/
def Parameter.Precedes (p q : Parameter) : Prop :=
  p.rate.index < q.rate.index ∨ p.rate = q.rate ∧ p.name < q.name

/-- The node is a control that was made for parameters. -/
def Node.isControl (n : Node) : Bool :=
  match n.role with
  | .control _ => true
  | _ => false

namespace Definition

/-- The slots of the parameters follow each other from `start` to `stop`. -/
def Tiles : Nat → List (Parameter × Nat) → Nat → Prop
  | start, [], stop => start = stop
  | start, (p, slot) :: rest, stop => slot = start ∧ Tiles (start + p.size) rest stop

/-- The parameters of one rate, each with its first slot. -/
def group (d : Definition) (rate : ParameterRate) : List (Parameter × Nat) :=
  d.parameters.filter fun p => p.1.rate = rate

/-- The default values of all slots. -/
def values (d : Definition) : List Single := d.parameters.flatMap (·.1.values)

/-- The node is the control of one rate. -/
structure Controls (d : Definition) (rate : ParameterRate) (u : Node) : Prop where
  calculation : u.rate = rate.calculation
  parameters : u.parameters = (d.group rate).map (·.1)
  special : (d.group rate).head?.map (·.2) = some u.special.toNat
  outputs : u.outputs = ((d.group rate).flatMap (·.1.values)).length

/-- The input reads a channel of the parameter: an output of a control, and the slot that this
output stands for is the one of the channel, by its number and by its default value. -/
def ReadsChannel (d : Definition) (p : Parameter) (channel : Nat) (input : Input) : Prop :=
  ∃ (slot k output : Nat) (u : Node) (value : Single), d.parameter? p.name = some (p, slot) ∧
    input = .node ⟨k, output⟩ ∧ d.ugens[k]? = some u ∧ u.isControl ∧ output < u.outputs ∧
    u.special.toNat + output = slot + channel ∧
    p.values[channel]? = some value ∧ d.values[slot + channel]? = some value

end Definition

/-- The parameters of the builder are addressed exactly in the definition. -/
structure Builder.Addressed (b : Builder) (options : Options) (d : Definition) : Prop where
  registered : (d.parameters.map (·.1)).Perm b.parameters
  sorted : (d.parameters.map (·.1)).Pairwise Parameter.Precedes
  tiled : Definition.Tiles 0 d.parameters d.slotCount
  controls : List.Forall₂ d.Controls
    (ParameterRate.all.filter fun rate => !(d.group rate).isEmpty) (d.ugens.filter Node.isControl)
  inputs : ∀ id pos, b.Places options id pos → ∃ n u, b.nodes[id]? = some n ∧
    d.ugens[pos]? = some u ∧ n.Alike u ∧ ∀ (index m channel : Nat) (p : Parameter),
      n.keptInputs[index]? = some (.node ⟨m, channel⟩) → b.nodes[m]? = some (placeholder p) →
      ∃ input, u.inputs[index]? = some input ∧ d.ReadsChannel p channel input
  /-- No placeholder is left, nor a reference to one. -/
  replaced : (∀ u ∈ d.ugens, u.isParameter = false) ∧
    ∀ g, (Graph.ofNodes b.nodes).compiled options = .ok g → ∀ id ∈ g.order,
      ∀ ref ∈ (g.node id).refs, ∀ n, b.nodes[ref.ugen]? = some n → n.isParameter = false

/-! ## Slots -/

namespace Graph

theorem tiles_slotsFrom (start : Nat) (ps : List Parameter) :
    Definition.Tiles start (slotsFrom start ps) (start + (ps.flatMap (·.values)).length) := by
  induction ps generalizing start with
  | nil => rfl
  | cons p ps ih =>
    refine ⟨rfl, ?_⟩
    have hrest := ih (start + p.size)
    rwa [List.flatMap_cons, List.length_append, ← Nat.add_assoc]

theorem head?_slotsFrom {ps : List Parameter} (h : ps ≠ []) (start : Nat) :
    (slotsFrom start ps).head?.map (·.2) = some start := by
  cases ps with
  | nil => exact absurd rfl h
  | cons p ps => rfl

/-- A parameter stands after the slots of those before it. -/
theorem mem_slotsFrom (start : Nat) (before after : List Parameter) (p : Parameter) :
    (p, start + (before.flatMap (·.values)).length) ∈ slotsFrom start (before ++ p :: after) := by
  rw [slotsFrom_append]
  exact List.mem_append_right _ List.mem_cons_self

/-- Where every parameter gives as many items as it has slots, the items of a parameter stand where
its slots do. -/
theorem getElem?_flatMap_of_mem_slotsFrom {α : Type} {f : Parameter → List α}
    (hf : ∀ p, (f p).length = p.size) {slot channel : Nat} {ps : List Parameter} {p : Parameter}
    (start : Nat) (h : (p, start + slot) ∈ slotsFrom start ps) (hc : channel < p.size) :
    (ps.flatMap f)[slot + channel]? = (f p)[channel]? := by
  induction ps generalizing start slot with
  | nil => cases h
  | cons q ps ih =>
    rw [List.flatMap_cons]
    rcases List.mem_cons.1 h with h | h
    · obtain ⟨rfl, hslot⟩ := Prod.mk.inj h
      obtain rfl : slot = 0 := by omega
      rw [Nat.zero_add, List.getElem?_append_left (by rw [hf]; exact hc)]
    · have hge : start + q.size ≤ start + slot := slot_ge_of_mem_slotsFrom h
      obtain ⟨rest, rfl⟩ : ∃ rest, slot = q.size + rest := ⟨slot - q.size, by omega⟩
      rw [← Nat.add_assoc] at h
      rw [← ih _ h, List.getElem?_append_right (by rw [hf]; omega), hf]
      congr 1
      omega

/-! ## The parameters of a builder -/

theorem toList_eq_map_node (nodes : Array Node) :
    nodes.toList = (ofNodes nodes).order.map (ofNodes nodes).node := by
  refine List.ext_getElem? fun i => ?_
  rw [Array.getElem?_toList, List.getElem?_map, ofNodes]
  by_cases hi : i < nodes.size
  · rw [List.getElem?_range hi, Option.map_some]
    exact getElem?_of_mem_ofNodes (List.mem_range.2 hi)
  · rw [List.getElem?_eq_none (by simpa using hi), Option.map_none]
    exact Array.getElem?_eq_none (by omega)

theorem map_placeholders (nodes : Array Node) :
    (ofNodes nodes).placeholders.map (·.2) = nodes.toList.filterMap Node.parameter? := by
  rw [toList_eq_map_node, List.filterMap_map, placeholders, List.map_filterMap]
  refine List.filterMap_congr fun id _ => ?_
  cases h : ((ofNodes nodes).node id).parameter? <;> simp [h]

theorem pairwise_groupMembers (placeholders : List (Nat × Parameter)) (rate : ParameterRate) :
    ((groupMembers placeholders rate).map (·.2)).Pairwise fun p q => p.name ≤ q.name := by
  have hle : (groupMembers placeholders rate).Pairwise
      fun a b => decide (a.2.name ≤ b.2.name) = true :=
    List.pairwise_mergeSort (fun a b c => by simpa using String.le_trans)
      (fun a b => by simpa using String.le_total a.2.name b.2.name) _
  exact List.pairwise_map.2 (hle.imp fun h => by simpa using h)

theorem pairwise_slotOrder {source : Graph}
    (hn : ((source.placeholders.map (·.2)).map (·.name)).Nodup) :
    source.slotOrder.Pairwise Parameter.Precedes := by
  have hrate : ∀ rate, ∀ p ∈ (groupMembers source.placeholders rate).map (·.2), p.rate = rate := by
    intro rate p hp
    obtain ⟨m, hm, rfl⟩ := List.mem_map.1 hp
    exact (mem_groupMembers.1 hm).2
  have hnames : source.slotOrder.Pairwise fun p q => p.name ≠ q.name :=
    List.pairwise_map.1 ((source.slotOrder_perm.map _).nodup_iff.2 hn)
  have hweak : source.slotOrder.Pairwise fun p q =>
      p.rate.index < q.rate.index ∨ p.rate = q.rate ∧ p.name ≤ q.name := by
    refine List.pairwise_flatMap.2 ⟨fun rate _ => ?_, ?_⟩
    · refine (pairwise_groupMembers _ rate).imp_of_mem fun hp hq hle => .inr ⟨?_, hle⟩
      rw [hrate rate _ hp, hrate rate _ hq]
    · have hall : ParameterRate.all.Pairwise fun r s => r.index < s.index := by decide
      refine hall.imp fun hlt p hp q hq => .inl ?_
      rwa [hrate _ p hp, hrate _ q hq]
  refine (hweak.and hnames).imp fun ⟨h, hne⟩ => h.imp_right fun ⟨hr, hle⟩ => ⟨hr, ?_⟩
  exact String.not_le.1 fun hge => hne (String.le_antisymm hle hge)

/-! ## Controls -/

variable {source g : Graph} {name : Option String}

theorem isControl_mapRefs (n : Node) (f : NodeRef → NodeRef) :
    (n.mapRefs f).isControl = n.isControl := rfl

theorem HasControls.isControl_iff {first : Nat} {groups : List ControlGroup}
    (h : g.HasControls first groups) {id : Nat} (hid : id ∈ g.order) :
    (g.node id).isControl ↔ id ∈ controlIds first groups := by
  by_cases hmem : id ∈ controlIds first groups
  · obtain ⟨group, -, hnode⟩ := h.exists_group hmem
    simp [hmem, hnode, Node.isControl, ControlGroup.node]
  · simp [hmem, Node.isControl, h.others id hid hmem]

/-- Numbering leaves controls as they are. -/
theorem HasControls.map_controlIds {first : Nat} {groups : List ControlGroup}
    (h : g.HasControls first groups) (f : NodeRef → NodeRef) :
    (controlIds first groups).map (fun id => (g.node id).mapRefs f) =
      groups.map ControlGroup.node := by
  refine List.ext_getElem? fun k => ?_
  rw [List.getElem?_map, List.getElem?_map]
  by_cases hk : k < groups.length
  · rw [List.getElem?_range' hk, List.getElem?_eq_getElem hk, Option.map_some, Option.map_some,
      Nat.one_mul, h.node k _ (List.getElem?_eq_getElem hk),
      Node.mapRefs_of_refs_nil (refs_control _)]
  · rw [List.getElem?_eq_none (by simpa using hk), List.getElem?_eq_none (by simpa using hk)]
    rfl

theorem filter_isControl_numbered {first : Nat} {groups : List ControlGroup}
    (h : g.Listed first groups) :
    g.numbered.filter Node.isControl = groups.map ControlGroup.node := by
  have hids : g.emission.filter (fun id => (g.node id).isControl) = controlIds first groups := by
    rw [← h.filter_emission]
    refine List.filter_congr fun id hid => ?_
    rw [Bool.eq_iff_iff, h.isControl_iff (g.emission_perm.mem_iff.1 hid), decide_eq_true_iff]
  have hcomp : (Node.isControl ∘ fun id => (g.node id).mapRefs (placed g.emission)) =
      fun id => (g.node id).isControl := rfl
  rw [numbered, List.filter_map, hcomp, hids]
  exact h.map_controlIds _

/-- The tables of the definition are those of the groups. -/
structure Tabulated (source : Graph) (d : Definition) : Prop where
  parameters : d.parameters = source.controlGroups.flatMap fun group =>
    slotsFrom group.start (group.members.map (·.2))
  controls : d.ugens.filter Node.isControl = source.controlGroups.map ControlGroup.node
  fits : ∀ group ∈ source.controlGroups, group.start < 65536

theorem Sourced.tabulated (hs : source.Sourced) {options : Options}
    (h : source.compiled options = .ok g) (name : Option String) :
    source.Tabulated (g.finish name) := by
  obtain ⟨-, hl, hfits⟩ := hs.resolved_compiled h
  exact ⟨parameterTable_numbered hl hfits, filter_isControl_numbered hl, hfits⟩

namespace Tabulated

variable {d : Definition} {group : ControlGroup}

theorem parameters_eq (h : source.Tabulated d) : d.parameters = slotsFrom 0 source.slotOrder :=
  h.parameters.trans (flatMap_groupsFrom _ _ _)

theorem map_fst_parameters (h : source.Tabulated d) :
    d.parameters.map (·.1) = source.slotOrder := by
  rw [h.parameters_eq, map_fst_slotsFrom]

theorem values_eq (h : source.Tabulated d) : d.values = source.slotOrder.flatMap (·.values) := by
  rw [Definition.values, h.parameters_eq, flatMap_slotsFrom]

theorem tiled (h : source.Tabulated d) : Definition.Tiles 0 d.parameters d.slotCount := by
  have htiles := tiles_slotsFrom 0 source.slotOrder
  rwa [Definition.slotCount, h.parameters_eq, flatMap_slotsFrom, ← Nat.zero_add (List.length _)]

/-- The parameters of a rate are the members of its group, in their slots. -/
theorem group_eq (h : source.Tabulated d) (hg : group ∈ source.controlGroups) :
    d.group group.rate = slotsFrom group.start (group.members.map (·.2)) := by
  have hnodup : (source.controlGroups.map (·.rate)).Nodup := by
    rw [map_rate_controlGroups]
    exact source.nodup_parameterRates
  rw [Definition.group, h.parameters]
  refine filter_flatMap_key (fun p : Parameter × Nat => p.1.rate) ControlGroup.rate hnodup ?_ hg
  intro group hg e he
  have hmem : e.1 ∈ group.members.map (·.2) := by
    rw [← map_fst_slotsFrom group.start (group.members.map (·.2))]
    exact List.mem_map_of_mem he
  obtain ⟨m, hm, heq⟩ := List.mem_map.1 hmem
  rw [← heq]
  exact ((mem_controlGroups hg).1 hm).2

theorem isEmpty_group (h : source.Tabulated d) {rate : ParameterRate} :
    (d.group rate).isEmpty = (groupMembers source.placeholders rate).isEmpty := by
  have hmap : (d.group rate).map (·.1) = (groupMembers source.placeholders rate).map (·.2) := by
    have hfilter : (d.group rate).map (·.1) = source.slotOrder.filter fun p => p.rate = rate := by
      rw [← h.map_fst_parameters, List.filter_map]
      rfl
    rw [hfilter, slotOrder]
    refine filter_flatMap_key Parameter.rate (fun rate => rate) (by decide) ?_
      (by cases rate <;> decide)
    intro rate _ p hp
    obtain ⟨m, hm, rfl⟩ := List.mem_map.1 hp
    exact (mem_groupMembers.1 hm).2
  rw [← List.isEmpty_map, hmap, List.isEmpty_map]

theorem toNat_special (h : source.Tabulated d) (hg : group ∈ source.controlGroups) :
    group.node.special.toNat = group.start := by
  simp only [ControlGroup.node, Nat.toUInt16, UInt16.toNat_ofNat']
  exact Nat.mod_eq_of_lt (h.fits group hg)

theorem control (h : source.Tabulated d) (hg : group ∈ source.controlGroups) :
    d.Controls group.rate group.node where
  calculation := rfl
  parameters := by
    rw [h.group_eq hg, map_fst_slotsFrom]
    rfl
  special := by
    have hne : group.members.map (·.2) ≠ [] := by simpa using (mem_groupsFrom hg).2.2
    rw [h.group_eq hg, head?_slotsFrom hne, h.toNat_special hg]
  outputs := by
    rw [h.group_eq hg, flatMap_slotsFrom, List.flatMap_map]
    rfl

theorem forall₂_controls (h : source.Tabulated d) : List.Forall₂ d.Controls
    (ParameterRate.all.filter fun rate => !(d.group rate).isEmpty)
    (d.ugens.filter Node.isControl) := by
  have hrates : (ParameterRate.all.filter fun rate => !(d.group rate).isEmpty) =
      source.controlGroups.map (·.rate) := by
    rw [controlGroups, map_rate_groupsFrom]
    exact List.filter_congr fun rate _ => by rw [h.isEmpty_group]
  rw [hrates, h.controls, List.forall₂_map_left_iff, List.forall₂_map_right_iff,
    List.forall₂_same]
  exact fun group hg => h.control hg

/-- A parameter is found by its name, with the slot where it stands. -/
theorem parameter?_eq (h : source.Tabulated d)
    (hn : ((source.placeholders.map (·.2)).map (·.name)).Nodup) {p : Parameter} {slot : Nat}
    (hp : (p, slot) ∈ d.parameters) : d.parameter? p.name = some (p, slot) := by
  have hnames : (d.parameters.map (·.1.name)).Nodup := by
    have hperm := source.slotOrder_perm.map (·.name)
    rw [← h.map_fst_parameters, List.map_map] at hperm
    exact hperm.nodup_iff.2 hn
  have hsome : (d.parameter? p.name).isSome := List.find?_isSome.2 ⟨(p, slot), hp, by simp⟩
  obtain ⟨e, he⟩ := Option.isSome_iff_exists.1 hsome
  have hname : e.1.name = p.name := by simpa using List.find?_some he
  rw [he, List.inj_on_of_nodup_map hnames (List.mem_of_find?_eq_some he) hp hname]

/-- The output of a control that carries a channel stands for the slot of this channel. -/
theorem readsChannel (h : source.Tabulated d)
    (hn : ((source.placeholders.map (·.2)).map (·.name)).Nodup)
    (hg : group ∈ source.controlGroups) {p : Parameter} {output channel k : Nat}
    (hcarries : group.node.Carries output p channel) (hk : d.ugens[k]? = some group.node) :
    d.ReadsChannel p channel (.node ⟨k, output⟩) := by
  obtain ⟨before, after, hmembers, hchannel, rfl⟩ := id hcarries
  have hmem : (p, group.start + (before.flatMap (·.values)).length) ∈ d.parameters := by
    rw [h.parameters]
    refine List.mem_flatMap.2 ⟨group, hg, ?_⟩
    rw [show group.members.map (·.2) = before ++ p :: after from hmembers]
    exact mem_slotsFrom _ _ _ _
  have hvalue : d.values[group.start + (before.flatMap (·.values)).length + channel]? =
      p.values[channel]? := by
    rw [h.values_eq]
    refine getElem?_flatMap_of_mem_slotsFrom (fun _ => rfl) 0 ?_ hchannel
    rwa [Nat.zero_add, ← h.parameters_eq]
  obtain ⟨value, hget⟩ : ∃ value, p.values[channel]? = some value :=
    ⟨_, List.getElem?_eq_getElem hchannel⟩
  refine ⟨_, k, _, group.node, value, h.parameter?_eq hn hmem, rfl, hk, rfl,
    ControlGroup.output_lt hcarries, ?_, hget, hvalue.trans hget⟩
  rw [h.toNat_special hg, Nat.add_assoc]

end Tabulated

/-! ## References to parameters -/

theorem Listed.getElem?_control {first : Nat} {groups : List ControlGroup}
    (hl : g.Listed first groups) {k : Nat} {group : ControlGroup} (hk : groups[k]? = some group) :
    g.numbered[g.ordinal (first + k)]? = some group.node := by
  have hmem : first + k ∈ g.order.filter (· ∈ controlIds first groups) := by
    rw [hl.listed]
    exact mem_controlIds hk
  rw [getElem?_ordinal (List.mem_filter.1 hmem).1, hl.node k group hk,
    Node.mapRefs_of_refs_nil (refs_control group)]

/-- A live node that was registered reads a channel where it read this channel of a placeholder. -/
theorem Sourced.readsChannel_of_live (hs : source.Sourced)
    (hn : ((source.placeholders.map (·.2)).map (·.name)).Nodup) {options : Options}
    (hg : source.compiled options = .ok g) {id index : Nat} {ref : NodeRef} {p : Parameter}
    (hid : id ∈ g.order) (hlt : id < source.nodes.size)
    (hkept : (source.node id).keptInputs[index]? = some (.node ref))
    (hp : (source.node ref.ugen).parameter? = some p) :
    ∃ input, ((g.node id).mapRefs (placed g.emission)).inputs[index]? = some input ∧
      (g.finish name).ReadsChannel p ref.output input := by
  have hdescends := hs.descends_compiled hg
  have hparam : (source.node ref.ugen).isParameter := by rw [isParameter_eq, hp]; rfl
  obtain ⟨q, k, group, output, hq, hk, hcarries, href⟩ := hs.controlRef_parameter
    (mem_generators.1 (hdescends.generator id hid hlt)).1 (Node.getElem?_keptInputs hkept) hparam
  obtain rfl := Option.some.inj (hp.symm.trans hq)
  refine ⟨.node ⟨g.ordinal (source.nodes.size + k), output⟩, ?_, ?_⟩
  · rw [Node.mapRefs, List.getElem?_map,
      hdescends.controlled id hid hlt index ref hkept hparam, href]
    rfl
  · exact (hs.tabulated hg name).readsChannel hn (List.mem_of_getElem? hk) hcarries
      ((hs.resolved_compiled hg).2.1.getElem?_control hk)

theorem Sourced.not_isParameter_of_live (hs : source.Sourced) {options : Options}
    (hg : source.compiled options = .ok g) {id : Nat} (hid : id ∈ g.order) :
    (g.node id).isParameter = false := by
  have hl := (hs.resolved_compiled hg).2.1
  by_cases hmem : id ∈ controlIds source.nodes.size source.controlGroups
  · obtain ⟨group, -, hnode⟩ := hl.exists_group hmem
    rw [hnode]
    rfl
  · rw [Node.isParameter, hl.others id hid hmem]

theorem Sourced.not_isParameter_of_ref (hs : source.Sourced) {options : Options}
    (hg : source.compiled options = .ok g) {id : Nat} (hid : id ∈ g.order) {ref : NodeRef}
    (href : ref ∈ (g.node id).refs) (hlt : ref.ugen < source.nodes.size) :
    (source.node ref.ugen).isParameter = false := by
  rcases ((hs.resolved_compiled hg).1.wired.refs id hid ref href).1 with hlive | hgone
  · exact (mem_generators.1 ((hs.descends_compiled hg).generator _ hlive hlt)).2
  · rw [isParameter_eq]
    cases hp : (source.node ref.ugen).parameter? with
    | none => rfl
    | some p =>
      have hname := hgone.2
      rw [(hs.placeholders _ hgone.1 p hp).1] at hname
      exact absurd hname (show "Parameter" ≠ Catalog.maxLocalBufs.name by decide)

end Graph

/-- Every definition that is built addresses the parameters of its builder exactly. -/
theorem build_addressed {b : Builder} (hb : b.Reachable) {options : Options} {d : Definition}
    (h : b.build options = .ok d) : b.Addressed options d := by
  obtain ⟨-, g, hg, rfl⟩ := Builder.build_eq_ok.1 h
  have hs := hb.wellFormed.sourced
  have ht := hs.tabulated hg options.effectiveName
  have hparameters : (Graph.ofNodes b.nodes).placeholders.map (·.2) = b.parameters :=
    Graph.map_placeholders b.nodes
  have hn : (((Graph.ofNodes b.nodes).placeholders.map (·.2)).map (·.name)).Nodup := by
    rw [hparameters]
    exact hb.nodup_names
  constructor
  case registered =>
    rw [ht.map_fst_parameters, ← hparameters]
    exact Graph.slotOrder_perm _
  case sorted =>
    rw [ht.map_fst_parameters]
    exact Graph.pairwise_slotOrder hn
  case tiled => exact ht.tiled
  case controls => exact ht.forall₂_controls
  case inputs =>
    rintro id pos ⟨hlt, g', hg', hpos⟩
    obtain rfl := Except.ok.inj (hg.symm.trans hg')
    have hid := Graph.mem_order_of_emission hpos
    have hnode := Graph.getElem?_of_mem_ofNodes (List.mem_range.2 hlt)
    refine ⟨_, (g.node id).mapRefs (Graph.placed g.emission), hnode, ?_, ?_, ?_⟩
    · exact (Graph.getElem?_numbered g pos).trans (by rw [hpos, Option.map_some])
    · exact ((hs.descends_compiled hg).alike id hid hlt).trans (Node.alike_mapRefs _ _)
    · intro index m channel p hkept hm
      refine hs.readsChannel_of_live hn hg hid hlt hkept ?_
      rw [Graph.node_ofNodes hm]
      rfl
  case replaced =>
    refine ⟨fun u hu => ?_, fun g' hg' id hid ref href n hn => ?_⟩
    · obtain ⟨id, hid, rfl⟩ := Graph.mem_numbered.1 hu
      exact hs.not_isParameter_of_live hg hid
    · have := hs.not_isParameter_of_ref hg' hid href (Array.getElem?_eq_some_iff.1 hn).1
      rwa [Graph.node_ofNodes hn] at this

/-- Parameters of three rates, not in the order of their slots, and an oscillator that reads the
second channel of one and the only channel of another. -/
def panelOperations : List Operation :=
  [.addParameter { name := "gate", values := [1], rate := .trigger },
    .addParameter { name := "tune", values := [440, 441] },
    .addParameter { name := "shift", values := [0], lag := some 1 },
    .addParameter { name := "out", values := [2], rate := .scalar },
    .register {
      descriptor := Catalog.sinOsc, rate := .audio
      args := [("frequency", .outlet ⟨0, 1, 1, .control⟩),
        ("phase", .outlet ⟨0, 2, 0, .control⟩)] },
    .out (.outlet ⟨0, 3, 0, .scalar⟩) (.outlet ⟨0, 4, 0, .audio⟩)]

def panelBuilder : Builder := panelOperations.foldl (fun b op => op.after b) { scope := 0 }

theorem reachable_panelBuilder : panelBuilder.Reachable :=
  reachable_of_admitted (by decide +kernel)

theorem controlGroups_panelBuilder : (Graph.ofNodes panelBuilder.nodes).controlGroups =
    [⟨.scalar, 0, [(3, { name := "out", values := [2], rate := .scalar })]⟩,
      ⟨.trigger, 1, [(0, { name := "gate", values := [1], rate := .trigger })]⟩,
      ⟨.control, 2, [(2, { name := "shift", values := [0], lag := some 1 }),
        (1, { name := "tune", values := [440, 441] })]⟩] := by
  have hplaceholders : (Graph.ofNodes panelBuilder.nodes).placeholders =
      [(0, { name := "gate", values := [1], rate := .trigger }),
        (1, { name := "tune", values := [440, 441] }),
        (2, { name := "shift", values := [0], lag := some 1 }),
        (3, { name := "out", values := [2], rate := .scalar })] := by
    decide +kernel
  rw [Graph.controlGroups, hplaceholders]
  simp [ParameterRate.all, Graph.groupsFrom, Graph.groupMembers, List.mergeSort, ControlGroup.size]

/-- The oscillator reads slots 4 and 2, the outputs 2 and 0 of the control that starts at slot 2. -/
theorem panelBuilder_addressed : ∃ d, panelBuilder.Reachable ∧
    panelBuilder.build { fold := true } = .ok d ∧
    d.parameters.map (fun p => (p.1.name, p.2)) =
      [("out", 0), ("gate", 1), ("shift", 2), ("tune", 3)] ∧
    d.ugens.map (fun u => (u.className, u.special, u.refs)) =
      [("Control", 0, []), ("TrigControl", 1, []), ("LagControl", 2, []),
        ("SinOsc", 0, [⟨2, 2⟩, ⟨2, 0⟩]), ("Out", 0, [⟨0, 0⟩, ⟨3, 0⟩])] ∧
    panelBuilder.Places { fold := true } 4 3 ∧ panelBuilder.Addressed { fold := true } d := by
  have hcompiled : (((Graph.ofNodes panelBuilder.nodes).compiled { fold := true }).toOption.map
      fun g => decide ((Graph.parameterTable g.numbered).map (fun p => (p.1.name, p.2)) =
          [("out", 0), ("gate", 1), ("shift", 2), ("tune", 3)] ∧
        g.numbered.map (fun u => (u.className, u.special, u.refs)) =
          [("Control", 0, []), ("TrigControl", 1, []), ("LagControl", 2, []),
            ("SinOsc", 0, [⟨2, 2⟩, ⟨2, 0⟩]), ("Out", 0, [⟨0, 0⟩, ⟨3, 0⟩])] ∧
        g.emission[3]? = some 4)) = some true := by
    -- sorting by name does not reduce in the kernel, so the groups are put in by hand
    unfold Graph.compiled Graph.complete Graph.makeControls
    rw [controlGroups_panelBuilder]
    decide +kernel
  obtain ⟨g, hg, htables⟩ := exists_eq_ok_of_map_toOption hcompiled
  obtain ⟨hparameters, hugens, hpos⟩ := of_decide_eq_true htables
  have hd : panelBuilder.build { fold := true } = .ok (g.finish none) :=
    Builder.build_eq_ok.2 ⟨by decide +kernel, g, hg, rfl⟩
  exact ⟨_, reachable_panelBuilder, hd, hparameters, hugens, ⟨by decide +kernel, g, hg, hpos⟩,
    build_addressed reachable_panelBuilder hd⟩

end SynthGraph
