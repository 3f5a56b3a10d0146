import SynthGraph.Proofs.Built

/-!
# Compilation is faithful

Without optimization every generator of a builder has a place in the definition, where it keeps its
kind and reads what it read: the same constants, the images of the same generators, the outputs of
controls that carry the same channels. A slot that has to give way to a later reader of its chain
reads a copy of the chain, and a local buffer reads the declaration. All other places are taken by
what was inserted: a control for every rate of parameters, the nodes of the copies and the
declaration.
-/

namespace SynthGraph

/-- The places of nodes in a definition. -/
structure Placement where
  /-- The place of a generator. -/
  generator : Nat → Nat
  /-- The place of the control of a rate. -/
  control : ParameterRate → Nat
  /-- The slots that read copies, with the places of what was inserted for them. -/
  copies : List ChainCopy
  /-- The place of the declaration of local buffers. -/
  declaration : Option Nat

/-- What follows the inputs that are kept: the declaration, if the node is a local buffer. -/
def Placement.declared (place : Placement) (n : Node) : List Input :=
  if n.className = Catalog.localBuf.name then
    place.declaration.toList.map fun id => .node ⟨id, 0⟩
  else []

namespace Graph

/-- The live nodes that are not placeholders. -/
def generators (g : Graph) : List Nat := g.order.filter fun id => !(g.node id).isParameter

/-- The parameters of one rate. -/
def parametersAt (g : Graph) (rate : ParameterRate) : List Parameter :=
  (g.placeholders.filter (·.2.rate == rate)).map (·.2)

/-- The rates of the parameters. -/
def parameterRates (g : Graph) : List ParameterRate :=
  ParameterRate.all.filter fun rate => !(g.parametersAt rate).isEmpty

/-- The slot reads a chain that a later slot reads too. -/
def Rerouted (g : Graph) (slot : Slot) : Prop :=
  ∃ chain later, g.ReadsChain chain slot ∧ g.ReadsChain chain later ∧ slot.Before later

/-- What the definition reads for an input of a generator. -/
inductive InputImage (g : Graph) (d : Definition) (place : Placement) (slot : Slot) :
    Input → Input → Prop
  | constant (value : Single) : InputImage g d place slot (.constant value) (.constant value)
  | generator {ref : NodeRef} (hgenerator : ref.ugen ∈ g.generators) (hslot : ¬g.Rerouted slot) :
      InputImage g d place slot (.node ref) (.node ⟨place.generator ref.ugen, ref.output⟩)
  | copy {c : ChainCopy} (hcopy : c ∈ place.copies) (hslot : c.slot = slot)
      (hchain : c.chain ∈ g.generators) :
      InputImage g d place slot (.node ⟨c.chain, 0⟩) (.node ⟨c.copy, 0⟩)
  | parameter {ref : NodeRef} {p : Parameter} {u : Node} {output : Nat}
      (hparameter : (g.node ref.ugen).parameter? = some p)
      (hcontrol : d.ugens[place.control p.rate]? = some u)
      (hcarries : u.Carries output p ref.output) :
      InputImage g d place slot (.node ref) (.node ⟨place.control p.rate, output⟩)

/-- The generator `u` of the definition is the node `id`. -/
structure GeneratorImage (g : Graph) (d : Definition) (place : Placement) (id : Nat) (u : Node) :
    Prop where
  alike : (g.node id).Alike u
  inputs : ∃ images : List Input, u.inputs = images ++ place.declared (g.node id) ∧
    images.length = (g.node id).keptInputs.length ∧
    ∀ index input image, (g.node id).keptInputs[index]? = some input →
      images[index]? = some image → g.InputImage d place ⟨id, index⟩ input image

/-- The nodes that were inserted for one slot. -/
structure CopyImage (d : Definition) (place : Placement) (c : ChainCopy) : Prop where
  copy : ∃ u, d.ugens[c.copy]? = some u ∧ u.className = Catalog.pvCopy.name ∧
    u.inputs = [.node ⟨place.generator c.chain, 0⟩, .node ⟨c.buffer, 0⟩]
  buffer : ∃ u, d.ugens[c.buffer]? = some u ∧ u.className = Catalog.localBuf.name ∧
    u.inputs = [.constant 1, c.frameCount] ++ place.declaration.toList.map fun id => .node ⟨id, 0⟩
  frames : ∀ id, c.frames = some id →
    ∃ u, d.ugens[id]? = some u ∧ u.className = Catalog.bufFrames.name

/-- The definition is the graph, up to what was inserted. -/
structure Faithful (g : Graph) (d : Definition) (place : Placement) : Prop where
  injective : ∀ id ∈ g.generators, ∀ other ∈ g.generators,
    place.generator id = place.generator other → id = other
  /-- Every place is that of a generator or of something inserted, and of one thing only. -/
  places : (g.generators.map place.generator ++ g.parameterRates.map place.control ++
    place.copies.flatMap ChainCopy.ids ++ place.declaration.toList).Perm
      (List.range d.ugens.length)
  generators : ∀ id ∈ g.generators, ∃ u, d.ugens[place.generator id]? = some u ∧
    g.GeneratorImage d place id u
  controls : ∀ rate ∈ g.parameterRates, ∃ u, d.ugens[place.control rate]? = some u ∧
    u.flags.control ∧ u.rate = rate.calculation ∧ u.parameters.Perm (g.parametersAt rate)
  rerouted : (place.copies.map (·.slot)).Nodup ∧
    ∀ slot, slot ∈ place.copies.map (·.slot) ↔ g.Rerouted slot
  copies : ∀ c ∈ place.copies, CopyImage d place c
  declaration : (place.declaration.isSome ↔ ∃ u ∈ d.ugens, u.className = Catalog.localBuf.name) ∧
    ∀ id ∈ place.declaration, ∃ u, d.ugens[id]? = some u ∧ u.className = Catalog.maxLocalBufs.name

/-! ## Controls -/

variable {source g₁ g₂ g₃ g : Graph} {copies : List ChainCopy}

theorem groupMembers_perm (source : Graph) (rate : ParameterRate) :
    ((groupMembers source.placeholders rate).map (·.2)).Perm (source.parametersAt rate) :=
  (List.mergeSort_perm _ _).map _

theorem map_rate_controlGroups (source : Graph) :
    source.controlGroups.map (·.rate) = source.parameterRates := by
  rw [controlGroups, map_rate_groupsFrom]
  refine List.filter_congr fun rate _ => ?_
  have hperm := source.groupMembers_perm rate
  rw [← List.isEmpty_map, hperm.isEmpty_eq]

theorem nodup_parameterRates (source : Graph) : source.parameterRates.Nodup :=
  (show ParameterRate.all.Nodup by decide).filter _

/-- The control of a rate is the one of its group. -/
theorem idxOf_parameterRates {k : Nat} {group : ControlGroup}
    (hk : source.controlGroups[k]? = some group) :
    source.parameterRates.idxOf group.rate = k := by
  have hget : source.parameterRates[k]? = some group.rate := by
    rw [← map_rate_controlGroups, List.getElem?_map, hk, Option.map_some]
  obtain ⟨hlt, heq⟩ := List.getElem?_eq_some_iff.1 hget
  rw [← heq, source.nodup_parameterRates.idxOf_getElem k hlt]

theorem mem_generators {id : Nat} :
    id ∈ source.generators ↔ id ∈ source.order ∧ (source.node id).isParameter = false := by
  simp [generators]

/-- A reference is turned to the control that carries its channel, or stays as it is. -/
theorem Sourced.controlRef_cases (hs : source.Sourced) {id : Nat} (hid : id ∈ source.order)
    {ref : NodeRef} (href : ref ∈ (source.node id).refs) :
    (∃ p k group output, (source.node ref.ugen).parameter? = some p ∧
      source.controlGroups[k]? = some group ∧ group.rate = p.rate ∧
      group.node.Carries output p ref.output ∧
      controlRef source.controlGroups source.nodes.size ref = ⟨source.nodes.size + k, output⟩) ∨
    ref.ugen ∈ source.generators ∧
      controlRef source.controlGroups source.nodes.size ref = ref := by
  obtain ⟨hlive, hlt⟩ := hs.closed.ref hid href
  cases hp : (source.node ref.ugen).parameter? with
  | some p =>
    rw [hs.placeholdersFit _ hlive p hp] at hlt
    obtain ⟨k, group, output, hk, hrate, hcarries, hctl⟩ :=
      controlRef_placeholder source.nodes.size hlive hp hlt
    exact .inl ⟨p, k, group, output, rfl, hk, hrate, hcarries, hctl⟩
  | none => exact .inr ⟨mem_generators.2 ⟨hlive, by simp [isParameter_eq, hp]⟩,
      controlRef_other fun _ => hp⟩

/-! ## Rerouted slots -/

theorem WithControls.not_isPv (h : source.WithControls g₁) {k : Nat} {group : ControlGroup}
    (hk : source.controlGroups[k]? = some group) : g₁.isPv (source.nodes.size + k) = false := by
  rw [isPv, h.control k group hk, group.flags_node]
  rfl

theorem WithControls.alike (h : source.WithControls g₁) {id : Nat} (hid : id ∈ source.generators) :
    (source.node id).Alike (g₁.node id) := by
  obtain ⟨hid, hkind⟩ := mem_generators.1 hid
  rw [h.node id hid hkind]
  exact Node.alike_mapRefs _ _

theorem WithControls.isPv_eq (h : source.WithControls g₁) {id : Nat}
    (hid : id ∈ source.generators) : g₁.isPv id = source.isPv id := by
  rw [isPv, (h.alike hid).flags, isPv]

theorem WithControls.inputs (h : source.WithControls g₁) {id : Nat}
    (hid : id ∈ source.generators) (index : Nat) : (g₁.node id).inputs[index]? =
      ((source.node id).inputs[index]?).map
        (·.mapNode (controlRef source.controlGroups source.nodes.size)) := by
  obtain ⟨hid, hkind⟩ := mem_generators.1 hid
  rw [h.node id hid hkind, Node.mapRefs, List.getElem?_map]

theorem Sourced.mem_generators_of_isPv (hs : source.Sourced) {id : Nat} (hid : id ∈ source.order)
    (hpv : source.isPv id) : id ∈ source.generators := by
  refine mem_generators.2 ⟨hid, ?_⟩
  cases hp : (source.node id).parameter? with
  | none => rw [isParameter_eq, hp, Option.isSome_none]
  | some p =>
    rw [isPv, (hs.placeholders id hid p hp).1] at hpv
    cases hpv

/-- Making controls does not change which inputs are chains. -/
theorem WithControls.chainInput_iff (h : source.WithControls g₁) (hs : source.Sourced) {id : Nat}
    (hid : id ∈ source.generators) {index chain output : Nat} :
    (g₁.node id).inputs[index]? = some (.node ⟨chain, output⟩) ∧ g₁.isPv chain ↔
      (source.node id).inputs[index]? = some (.node ⟨chain, output⟩) ∧ source.isPv chain := by
  have hlive := (mem_generators.1 hid).1
  rw [h.inputs hid]
  constructor
  · rintro ⟨hinput, hchain⟩
    obtain ⟨input, hget, hmap⟩ := Option.map_eq_some_iff.1 hinput
    cases input with
    | constant value => cases hmap
    | node ref =>
      have hctl := Input.node.inj hmap
      rcases hs.controlRef_cases hlive (Node.mem_refs.2 (List.mem_of_getElem? hget)) with
        ⟨p, k, group, output', -, hk, -, -, heq⟩ | ⟨hgen, heq⟩
      · rw [heq] at hctl
        cases hctl
        rw [h.not_isPv hk] at hchain
        cases hchain
      · rw [heq] at hctl
        subst hctl
        exact ⟨hget, h.isPv_eq hgen ▸ hchain⟩
  · rintro ⟨hinput, hchain⟩
    have hlive' := (hs.closed.ref hlive (Node.mem_refs.2 (List.mem_of_getElem? hinput))).1
    have hgen := hs.mem_generators_of_isPv hlive' hchain
    have hnone : (source.node chain).parameter? = none := by
      simpa [isParameter_eq] using (mem_generators.1 hgen).2
    refine ⟨?_, h.isPv_eq hgen ▸ hchain⟩
    rw [hinput, Option.map_some, Input.mapNode, controlRef_other fun _ => hnone]

/-- Making controls does not change which slots read which chains. -/
theorem WithControls.readsChain_iff (h : source.WithControls g₁) (hs : source.Sourced)
    {chain : Nat} {slot : Slot} : g₁.ReadsChain chain slot ↔ source.ReadsChain chain slot := by
  constructor
  · rintro ⟨hlive, hreader, ⟨output, hinput⟩, hchain⟩
    have hslot : slot.ugen ∈ source.generators := by
      rcases h.mem_order.1 hlive with ⟨k, group, hk, heq⟩ | hold
      · have hpv := h.not_isPv hk
        rw [← heq, isPv, hreader.1] at hpv
        cases hpv
      · exact mem_generators.2 hold
    rw [(h.alike hslot).flags] at hreader
    obtain ⟨hinput, hchain⟩ := (h.chainInput_iff hs hslot).1 ⟨hinput, hchain⟩
    exact ⟨(mem_generators.1 hslot).1, hreader, ⟨output, hinput⟩, hchain⟩
  · rintro ⟨hlive, hreader, ⟨output, hinput⟩, hchain⟩
    have hslot := hs.mem_generators_of_isPv hlive hreader.1
    obtain ⟨hinput, hchain⟩ := (h.chainInput_iff hs hslot).2 ⟨hinput, hchain⟩
    refine ⟨h.mem_order.2 (.inr (mem_generators.1 hslot)), ?_, ⟨output, hinput⟩, hchain⟩
    rw [(h.alike hslot).flags]
    exact hreader

theorem WithControls.ascending (h : source.WithControls g₁) (hs : source.Sourced) :
    g₁.order.Pairwise fun a b => g₁.isPv a → g₁.isPv b → a < b := by
  have hcontrol : ∀ id ∈ List.range' source.nodes.size source.controlGroups.length,
      ¬g₁.isPv id := by
    intro id hid
    obtain ⟨k, hk, rfl⟩ := List.mem_range'.1 hid
    rw [Nat.one_mul, h.not_isPv (List.getElem?_eq_getElem hk)]
    exact Bool.false_ne_true
  rw [h.order, List.pairwise_append]
  refine ⟨?_, ?_, fun a ha b _ hpv => absurd hpv (hcontrol a ha)⟩
  · exact List.Pairwise.imp_of_mem (fun ha _ _ hpv => absurd hpv (hcontrol _ ha))
      List.pairwise_lt_range'
  · exact (hs.ascending.filter _).imp fun hab _ _ => hab

namespace Stages

theorem mem_slots (h : Stages source g₁ g₂ g₃ copies) (hs : source.Sourced) {slot : Slot} :
    slot ∈ copies.map (·.slot) ↔ source.Rerouted slot := by
  have hplan : slot ∈ copies.map (·.slot) ↔ ∃ chain, (chain, slot) ∈ g₁.copyPlan := by
    simp only [← h.plan, List.mem_map, Prod.mk.injEq]
    constructor
    · rintro ⟨c, hc, rfl⟩
      exact ⟨c.chain, c, hc, rfl, rfl⟩
    · rintro ⟨chain, c, hc, -, rfl⟩
      exact ⟨c, hc, rfl⟩
  rw [hplan, Rerouted]
  refine exists_congr fun chain => ?_
  simp only [mem_copyPlan_iff (h.controls.ascending hs), h.controls.readsChain_iff hs]
  exact ⟨fun ⟨hr, later, hl, hb⟩ => ⟨later, hr, hl, hb⟩,
    fun ⟨later, hr, hl, hb⟩ => ⟨hr, later, hl, hb⟩⟩

theorem nodup_slots (h : Stages source g₁ g₂ g₃ copies) : (copies.map (·.slot)).Nodup := by
  have hslots : copies.map (·.slot) = g₁.copyPlan.map (·.2) := by
    rw [← h.plan, List.map_map]
    rfl
  rw [hslots]
  exact nodup_copyPlan h.closed₁.toOrdered

/-! ## Places -/

theorem order_perm (h : Stages source g₁ g₂ g₃ copies) (hs : source.Sourced)
    (hnone : ∀ id, ¬source.IsDeclaration id) : g₃.order.Perm
      (controlIds source.nodes.size source.controlGroups ++ source.generators ++
        copies.flatMap ChainCopy.ids ++ g₂.declarations) := by
  have hdrop : g₂.dropDeclarations.order = g₂.order := by
    refine List.filter_eq_self.2 fun id hid => bne_iff_ne.2 fun hname => ?_
    exact hnone id ((h.isDeclaration_iff hs hid).1 ⟨hid, hname⟩)
  have horder := h.split.order
  rw [h.controls.order] at horder
  exact h.declared.order.trans ((hdrop ▸ horder).append_right _)

end Stages

end Graph

/-- The copy with other numbers for what was inserted. -/
def ChainCopy.mapIds (f : Nat → Nat) (c : ChainCopy) : ChainCopy :=
  { c with frames := c.frames.map f, buffer := f c.buffer, copy := f c.copy }

theorem ChainCopy.ids_mapIds (f : Nat → Nat) (c : ChainCopy) : (c.mapIds f).ids = c.ids.map f := by
  cases hf : c.frames <;> simp [ids, mapIds, hf]

namespace Graph

variable {source g₁ g₂ g₃ g : Graph} {copies : List ChainCopy}

/-- The places that numbering gives. -/
def placement (source g₂ : Graph) (copies : List ChainCopy) (g : Graph) : Placement where
  generator := g.ordinal
  control rate := g.ordinal (source.nodes.size + source.parameterRates.idxOf rate)
  copies := copies.map (·.mapIds g.ordinal)
  declaration := g₂.declarations.head?.map g.ordinal

theorem map_control_parameterRates (source g : Graph) :
    source.parameterRates.map (source.placement g₂ copies g).control =
      (controlIds source.nodes.size source.controlGroups).map g.ordinal := by
  have hlength : source.controlGroups.length = source.parameterRates.length := by
    rw [← map_rate_controlGroups, List.length_map]
  rw [controlIds, hlength, List.range'_eq_map_range, ← map_idxOf_self source.nodup_parameterRates,
    List.map_map, List.map_map]
  rfl

theorem toList_declaration (source g₂ : Graph) (copies : List ChainCopy) (g : Graph) :
    (source.placement g₂ copies g).declaration.toList = g₂.declarations.map g.ordinal := by
  simp only [placement, declarations]
  split <;> rfl

theorem declared_placement {n : Node}
    (hn : n.className = Catalog.localBuf.name → g₂.buffers ≠ []) :
    (source.placement g₂ copies g).declared n =
      (if n.className = Catalog.localBuf.name then [Input.node ⟨g₂.nodes.size, 0⟩] else []).map
        (·.mapNode (placed g.emission)) := by
  unfold Placement.declared
  split
  · next hclass =>
    rw [toList_declaration, declarations, if_neg (hn hclass)]
    rfl
  · rfl

/-- The stages of a compilation that only adds nodes and sorts them. -/
structure Unoptimized (source g₁ g₂ g₃ g : Graph) (copies : List ChainCopy) : Prop
    extends Stages source g₁ g₂ g₃ copies where
  sourced : source.Sourced
  undeclared : ∀ id, ¬source.IsDeclaration id
  node : ∀ id, g.node id = g₃.node id
  order : g.order.Perm g₃.order

theorem Sourced.unoptimized (hs : source.Sourced) (hnone : ∀ id, ¬source.IsDeclaration id)
    {options : Options} (ho : options.optimize = false) (h : source.compiled options = .ok g) :
    ∃ g₁ g₂ g₃ copies, Unoptimized source g₁ g₂ g₃ g copies := by
  obtain ⟨g₃, sorted, hc, hsort, rfl⟩ := compiled_eq_ok.1 h
  obtain ⟨g₁, g₂, copies, hstages⟩ := hs.stages hc
  have hfold : g₃.foldIf options = g₃ := by simp [foldIf, foldsWith, ho]
  have hdrop : sorted.dropDeadIf options = sorted := by simp [dropDeadIf, ho]
  rw [hfold] at hsort
  obtain ⟨hnode, hperm⟩ := sort_perm hsort
  rw [hdrop]
  exact ⟨g₁, g₂, g₃, copies, hstages, hs, hnone, hnode, hperm⟩

namespace Unoptimized

theorem places_perm (h : Unoptimized source g₁ g₂ g₃ g copies) :
    (source.generators.map g.ordinal ++
      source.parameterRates.map (source.placement g₂ copies g).control ++
      (source.placement g₂ copies g).copies.flatMap ChainCopy.ids ++
      (source.placement g₂ copies g).declaration.toList).Perm (List.range g.numbered.length) := by
  have hids : (source.placement g₂ copies g).copies.flatMap ChainCopy.ids =
      (copies.flatMap ChainCopy.ids).map g.ordinal := by
    simp only [placement, List.flatMap_map, ChainCopy.ids_mapIds, List.map_flatMap]
  have hperm := h.order.trans (h.order_perm h.sourced h.undeclared)
  have hnodup : g.order.Nodup :=
    h.order.nodup_iff.2 (h.declared.ordered h.closed₂.toOrdered).nodup
  rw [map_control_parameterRates, toList_declaration, hids, ← map_ordinal_emission hnodup]
  refine List.Perm.trans ?_ ((g.emission_perm.trans hperm).symm.map _)
  simp only [List.map_append]
  exact (List.perm_append_comm.append_right _).append_right _

/-- What stands at the place of a node. -/
theorem ugen (h : Unoptimized source g₁ g₂ g₃ g copies) {id : Nat} (hid : id ∈ g₃.order) :
    g.numbered[g.ordinal id]? = some ((g₃.node id).mapRefs (placed g.emission)) := by
  rw [getElem?_ordinal (h.order.mem_iff.2 hid), h.node]

/-! ## Images -/

variable {name : Option String}

theorem control (h : Unoptimized source g₁ g₂ g₃ g copies) {k : Nat} {group : ControlGroup}
    (hk : source.controlGroups[k]? = some group) :
    (source.placement g₂ copies g).control group.rate = g.ordinal (source.nodes.size + k) ∧
      (g.finish name).ugens[g.ordinal (source.nodes.size + k)]? =
        some (group.node.mapRefs (placed g.emission)) := by
  constructor
  · simp only [placement, idxOf_parameterRates hk]
  · rw [← (h.led h.sourced).node k group hk]
    exact h.ugen ((h.led h.sourced).front.subset (mem_controlIds hk))

/-- What numbering makes of an input of a generator that was controlled and rerouted. -/
theorem inputImage (h : Unoptimized source g₁ g₂ g₃ g copies)
    (hpv : ∀ id ∈ source.order, source.isPv id → (source.node id).outputs = 1)
    {id index : Nat} {input input₂ : Input} (hid : id ∈ source.generators)
    (hi : (source.node id).inputs[index]? = some input)
    (hi₂ : (g₂.node id).inputs[index]? = some input₂) :
    source.InputImage (g.finish name) (source.placement g₂ copies g) ⟨id, index⟩ input
      (input₂.mapNode (placed g.emission)) := by
  have hid₁ : id ∈ g₁.order := h.controls.mem_order.2 (.inr (mem_generators.1 hid))
  by_cases hslot : ⟨id, index⟩ ∈ copies.map (·.slot)
  · obtain ⟨c, hc, heq⟩ := List.mem_map.1 hslot
    have hrerouted := h.split.rerouted c hc
    have hreads := (h.controls.readsChain_iff h.sourced).1 (h.readsChain hc)
    rw [heq] at hrerouted hreads
    obtain ⟨output, hinput⟩ := hreads.input
    obtain rfl := Option.some.inj (hi.symm.trans hinput)
    obtain rfl := Option.some.inj (hi₂.symm.trans hrerouted)
    -- the chain has one output only
    obtain ⟨hchain, hlt⟩ := h.sourced.closed.ref (mem_generators.1 hid).1
      (Node.mem_refs.2 (List.mem_of_getElem? hi))
    simp only [hpv _ hchain hreads.chain] at hlt
    obtain rfl : output = 0 := by omega
    exact .copy (c := c.mapIds g.ordinal) (List.mem_map.2 ⟨c, hc, rfl⟩) heq
      (h.sourced.mem_generators_of_isPv hchain hreads.chain)
  · rw [h.split.others id (h.closed₁.bound id hid₁) index fun c hc heq =>
      hslot (List.mem_map.2 ⟨c, hc, heq⟩), h.controls.inputs hid, hi, Option.map_some] at hi₂
    obtain rfl := Option.some.inj hi₂
    cases input with
    | constant value => exact .constant value
    | node ref =>
      have href := Node.mem_refs.2 (List.mem_of_getElem? hi)
      simp only [Input.mapNode]
      rcases h.sourced.controlRef_cases (mem_generators.1 hid).1 href with
        ⟨p, k, group, output, hp, hk, hrate, hcarries, hctl⟩ | ⟨hgen, hctl⟩
      · obtain ⟨hplace, hugen⟩ := h.control hk
        rw [hrate] at hplace
        rw [hctl, show placed g.emission ⟨source.nodes.size + k, output⟩ =
          ⟨g.ordinal (source.nodes.size + k), output⟩ from rfl, ← hplace]
        exact .parameter (u := group.node.mapRefs (placed g.emission)) hp (hplace ▸ hugen) hcarries
      · rw [hctl]
        exact .generator hgen fun hr => hslot ((h.mem_slots h.sourced).2 hr)

theorem generatorImage (h : Unoptimized source g₁ g₂ g₃ g copies)
    (hpv : ∀ id ∈ source.order, source.isPv id → (source.node id).outputs = 1) {id : Nat}
    (hid : id ∈ source.generators) : ∃ u, (g.finish name).ugens[g.ordinal id]? = some u ∧
      source.GeneratorImage (g.finish name) (source.placement g₂ copies g) id u := by
  have hid₁ : id ∈ g₁.order := h.controls.mem_order.2 (.inr (mem_generators.1 hid))
  have hid₂ : id ∈ g₂.order := h.split.order.mem_iff.2 (List.mem_append_left _ hid₁)
  have hid₃ : id ∈ g₃.order := by
    refine (h.order_perm h.sourced h.undeclared).mem_iff.2 ?_
    simp [hid]
  have hlt₁ := h.closed₁.bound id hid₁
  have hlt₂ := h.closed₂.bound id hid₂
  have halike₂ : (source.node id).Alike (g₂.node id) :=
    (h.controls.alike hid).trans (h.split.alike id hlt₁)
  have hlength : (g₂.node id).inputs.length = (source.node id).inputs.length := by
    rw [h.split.length id hlt₁, h.controls.node id (mem_generators.1 hid).1
      (mem_generators.1 hid).2, Node.mapRefs, List.length_map]
  refine ⟨_, h.ugen hid₃, (halike₂.trans (h.declared.alike hlt₂)).trans (Node.alike_mapRefs _ _),
    (g₂.node id).keptInputs.map (·.mapNode (placed g.emission)), ?_, ?_, ?_⟩
  · rw [Node.mapRefs, h.declared.inputs hid₂ hlt₂, List.map_append, halike₂.className,
      declared_placement fun hclass => ?_]
    exact List.ne_nil_of_mem (mem_buffers.2 ⟨hid₂, halike₂.className.trans hclass⟩)
  · rw [List.length_map, Node.length_keptInputs halike₂.className hlength]
  · intro index input image hi himage
    rw [List.getElem?_map] at himage
    obtain ⟨input₂, hi₂, rfl⟩ := Option.map_eq_some_iff.1 himage
    exact h.inputImage hpv hid (Node.getElem?_keptInputs hi) (Node.getElem?_keptInputs hi₂)

theorem live_of_mem_ids (h : Unoptimized source g₁ g₂ g₃ g copies) {c : ChainCopy}
    (hc : c ∈ copies) {id : Nat} (hid : id ∈ c.ids) : id ∈ g₂.order ∧ id ∈ g₃.order := by
  have hmem : id ∈ copies.flatMap ChainCopy.ids := List.mem_flatMap.2 ⟨c, hc, hid⟩
  refine ⟨h.split.order.mem_iff.2 (List.mem_append_right _ hmem),
    (h.order_perm h.sourced h.undeclared).mem_iff.2 ?_⟩
  simp only [List.mem_append, hmem, or_true, true_or]

/-- What stands at the place of an inserted node that is not a buffer. -/
theorem inserted (h : Unoptimized source g₁ g₂ g₃ g copies) {c : ChainCopy} (hc : c ∈ copies)
    {id : Nat} (hid : id ∈ c.ids) {n : Node} (hn : g₂.node id = n)
    (hclass : n.className ≠ Catalog.localBuf.name) :
    (g.finish name).ugens[g.ordinal id]? = some (n.mapRefs (placed g.emission)) := by
  rw [← hn, ← h.declared.node_of_ne (h.split.mem_ids hc hid).2 (hn ▸ hclass)]
  exact h.ugen (h.live_of_mem_ids hc hid).2

theorem frameCount_mapIds (c : ChainCopy) (g : Graph) :
    (c.mapIds g.ordinal).frameCount = c.frameCount.mapNode (placed g.emission) := by
  cases hf : c.frames <;> simp only [ChainCopy.frameCount, ChainCopy.mapIds, hf] <;> rfl

theorem copyImage (h : Unoptimized source g₁ g₂ g₃ g copies) {c : ChainCopy} (hc : c ∈ copies) :
    CopyImage (g.finish name) (source.placement g₂ copies g) (c.mapIds g.ordinal) where
  copy := by
    have hmem : c.copy ∈ c.ids := by simp [ChainCopy.ids]
    exact ⟨_, h.inserted hc hmem (h.split.copy c hc)
      (show Catalog.pvCopy.name ≠ Catalog.localBuf.name by decide), rfl, rfl⟩
  buffer := by
    have hmem : c.buffer ∈ c.ids := by simp [ChainCopy.ids]
    obtain ⟨hid₂, hid₃⟩ := h.live_of_mem_ids hc hmem
    have hclass : (g₂.node c.buffer).className = Catalog.localBuf.name := by
      rw [h.split.buffer c hc]
      rfl
    have hlt := (h.split.mem_ids hc hmem).2
    refine ⟨_, h.ugen hid₃, (h.declared.alike hlt).className.trans hclass, ?_⟩
    have hbuffers : g₂.buffers ≠ [] := List.ne_nil_of_mem (mem_buffers.2 ⟨hid₂, hclass⟩)
    rw [Node.mapRefs, h.declared.inputs hid₂ hlt, if_pos hclass, h.split.buffer c hc,
      frameCount_mapIds, toList_declaration, declarations, if_neg hbuffers]
    rfl
  frames := by
    intro id hf
    obtain ⟨frames, hframes, rfl⟩ := Option.map_eq_some_iff.1 hf
    obtain ⟨input, hnode⟩ := h.split.frames c hc frames hframes
    exact ⟨_, h.inserted hc (by simp [ChainCopy.ids, hframes]) hnode
      (show Catalog.bufFrames.name ≠ Catalog.localBuf.name by decide), rfl⟩

theorem exists_localBuf_iff (h : Unoptimized source g₁ g₂ g₃ g copies) :
    (∃ u ∈ (g.finish name).ugens, u.className = Catalog.localBuf.name) ↔ g₂.buffers ≠ [] := by
  constructor
  · rintro ⟨u, hu, hclass⟩
    obtain ⟨id, hid, rfl⟩ := mem_numbered.1 hu
    rw [(Node.alike_mapRefs _ _).className, h.node] at hclass
    rcases h.declared.mem_order.1 (h.order.mem_iff.1 hid) with ⟨hold, -⟩ | ⟨hne, -⟩
    · rw [(h.declared.alike (h.closed₂.bound id hold)).className] at hclass
      exact List.ne_nil_of_mem (mem_buffers.2 ⟨hold, hclass⟩)
    · exact hne
  · intro hne
    obtain ⟨id, hmem⟩ := List.exists_mem_of_ne_nil _ hne
    obtain ⟨hid, hclass⟩ := mem_buffers.1 hmem
    have hid₃ : id ∈ g₃.order := h.declared.mem_order.2 (.inl ⟨hid, fun hdecl =>
      h.undeclared id ((h.isDeclaration_iff h.sourced hid).1 hdecl)⟩)
    refine ⟨_, List.mem_of_getElem? (h.ugen hid₃), ?_⟩
    rw [(Node.alike_mapRefs _ _).className, (h.declared.alike (h.closed₂.bound id hid)).className,
      hclass]

theorem declarationImage (h : Unoptimized source g₁ g₂ g₃ g copies) :
    ((source.placement g₂ copies g).declaration.isSome ↔
      ∃ u ∈ (g.finish name).ugens, u.className = Catalog.localBuf.name) ∧
    ∀ id ∈ (source.placement g₂ copies g).declaration,
      ∃ u, (g.finish name).ugens[id]? = some u ∧ u.className = Catalog.maxLocalBufs.name := by
  rw [h.exists_localBuf_iff]
  by_cases hne : g₂.buffers = []
  · simp [placement, declarations, hne]
  · have hplace : (source.placement g₂ copies g).declaration = some (g.ordinal g₂.nodes.size) := by
      simp [placement, declarations, hne]
    refine ⟨by simp [hplace, hne], fun id hid => ?_⟩
    obtain rfl : g.ordinal g₂.nodes.size = id := by simpa [hplace] using hid
    refine ⟨_, h.ugen (h.declared.mem_order.2 (.inr ⟨hne, rfl⟩)), ?_⟩
    rw [h.declared.declaration hne]
    rfl

theorem faithful (h : Unoptimized source g₁ g₂ g₃ g copies)
    (hpv : ∀ id ∈ source.order, source.isPv id → (source.node id).outputs = 1) :
    source.Faithful (g.finish name) (source.placement g₂ copies g) where
  injective := by
    have hnodup := h.places_perm.nodup_iff.2 List.nodup_range
    simp only [List.append_assoc] at hnodup
    exact List.inj_on_of_nodup_map (List.nodup_append.1 hnodup).1
  places := h.places_perm
  generators id hid := h.generatorImage hpv hid
  controls := by
    intro rate hrate
    rw [← map_rate_controlGroups] at hrate
    obtain ⟨group, hgroup, rfl⟩ := List.mem_map.1 hrate
    obtain ⟨k, hk⟩ := List.getElem?_of_mem hgroup
    obtain ⟨hplace, hugen⟩ := h.control hk
    refine ⟨_, hplace ▸ hugen, ?_, rfl, ?_⟩
    · rw [(Node.alike_mapRefs _ _).flags, group.flags_node]
    · rw [(Node.alike_mapRefs _ _).parameters]
      simp only [ControlGroup.node, Node.parameters, (mem_groupsFrom hgroup).2.1]
      exact source.groupMembers_perm group.rate
  rerouted := by
    have hslots : (source.placement g₂ copies g).copies.map (·.slot) = copies.map (·.slot) := by
      simp only [placement, List.map_map]
      rfl
    rw [hslots]
    exact ⟨h.nodup_slots, fun slot => h.mem_slots h.sourced⟩
  copies := by
    intro c hc
    obtain ⟨old, hold, rfl⟩ := List.mem_map.1 hc
    exact h.copyImage hold
  declaration := h.declarationImage

end Unoptimized

end Graph

/-- What a builder without declarations builds without optimization is its graph, up to what was
inserted. -/
theorem build_faithful {b : Builder} (hb : b.Reachable)
    (hnone : ∀ n ∈ b.nodes, n.className ≠ Catalog.maxLocalBufs.name)
    (hpv : ∀ n ∈ b.nodes, n.flags.isPv → n.outputs = 1) {options : Options}
    (ho : options.optimize = false) {d : Definition} (h : b.build options = .ok d) :
    ∃ place : Placement, (Graph.ofNodes b.nodes).Faithful d place := by
  obtain ⟨-, g, hg, rfl⟩ := Builder.build_eq_ok.1 h
  have hundeclared : ∀ id, ¬(Graph.ofNodes b.nodes).IsDeclaration id := by
    intro id
    rw [Builder.isDeclaration_iff_declares]
    exact Builder.not_declares hnone id
  obtain ⟨g₁, g₂, g₃, copies, hu⟩ := hb.wellFormed.sourced.unoptimized hundeclared ho hg
  refine ⟨_, hu.faithful fun id hid => ?_⟩
  exact hpv _ (Array.mem_of_getElem? (Graph.getElem?_of_mem_ofNodes hid))

/-- The spectrum of noise, which two generators transform; a parameter sets the first. -/
def spectrumOperations : List Operation :=
  [.parameter "threshold",
    .register { descriptor := Catalog.whiteNoise, rate := .audio },
    .fft { source := .outlet ⟨0, 1, 0, .audio⟩ },
    .register {
      descriptor := Catalog.pvMagAbove, rate := .control
      args := [("pv_chain", .outlet ⟨0, 3, 0, .control⟩),
        ("threshold", .outlet ⟨0, 0, 0, .control⟩)] },
    .register {
      descriptor := Catalog.pvBrickWall, rate := .control
      args := [("pv_chain", .outlet ⟨0, 3, 0, .control⟩)] }]

def spectrumBuilder : Builder := spectrumOperations.foldl (fun b op => op.after b) { scope := 0 }

theorem reachable_spectrumBuilder : spectrumBuilder.Reachable :=
  reachable_of_admitted (by decide +kernel)

/-- The first transform reads a copy of the spectrum. -/
theorem spectrumBuilder_faithful : ∃ d, spectrumBuilder.Reachable ∧
    (∀ n ∈ spectrumBuilder.nodes, n.className ≠ Catalog.maxLocalBufs.name) ∧
    (∀ n ∈ spectrumBuilder.nodes, n.flags.isPv → n.outputs = 1) ∧
    spectrumBuilder.build { optimize := false } = .ok d ∧
    d.ugens.map (·.className) = ["Control", "WhiteNoise", "MaxLocalBufs", "LocalBuf", "FFT",
      "BufFrames", "LocalBuf", "PV_Copy", "PV_MagAbove", "PV_BrickWall"] ∧
    ∃ place : Placement, (Graph.ofNodes spectrumBuilder.nodes).Faithful d place := by
  have hnone : ∀ n ∈ spectrumBuilder.nodes, n.className ≠ Catalog.maxLocalBufs.name := by
    decide +kernel
  have hpv : ∀ n ∈ spectrumBuilder.nodes, n.flags.isPv → n.outputs = 1 := by
    decide +kernel
  have hbuild : ((spectrumBuilder.build { optimize := false }).toOption.map
      fun d => d.ugens.map (·.className)) = some ["Control", "WhiteNoise", "MaxLocalBufs",
        "LocalBuf", "FFT", "BufFrames", "LocalBuf", "PV_Copy", "PV_MagAbove", "PV_BrickWall"] := by
    decide +kernel
  obtain ⟨d, hd, hclasses⟩ := exists_eq_ok_of_map_toOption hbuild
  exact ⟨d, reachable_spectrumBuilder, hnone, hpv, hd, hclasses,
    build_faithful reachable_spectrumBuilder hnone hpv rfl hd⟩

end SynthGraph
