import SynthGraph.Graph.Chains
import SynthGraph.Proofs.Precedence

/-!
# Copying shared chains

`ChainCopy` records what was inserted for one slot that no longer reads its chain directly: a frame
count, unless the root of the chain has no inputs, a buffer and the copy itself. `CopiedTo` says all
that one copy does to a graph, and `Split` what all of them do together: the nodes there were keep
everything but the inputs in these slots.
-/

namespace SynthGraph

theorem Slot.ext {s t : Slot} (hu : s.ugen = t.ugen) (hi : s.index = t.index) : s = t := by
  cases s
  cases t
  simp_all

/-- The slot comes first in the order of registration. -/
def Slot.Before (s t : Slot) : Prop := s.ugen < t.ugen ∨ s.ugen = t.ugen ∧ s.index < t.index

/-- The nodes inserted for one slot. -/
structure ChainCopy where
  slot : Slot
  /-- The chain that the slot was reading. -/
  chain : Nat
  frames : Option Nat
  buffer : Nat
  copy : Nat
  deriving DecidableEq, Repr

namespace ChainCopy

def ids (c : ChainCopy) : List Nat := c.frames.toList ++ [c.buffer, c.copy]

theorem mem_ids {c : ChainCopy} {id : Nat} :
    id ∈ c.ids ↔ c.frames = some id ∨ id = c.buffer ∨ id = c.copy := by
  simp [ids]

theorem copy_mem_ids (c : ChainCopy) : c.copy ∈ c.ids := mem_ids.2 (.inr (.inr rfl))

/-- The number of frames of the buffer. -/
def frameCount (c : ChainCopy) : Input :=
  match c.frames with
  | some frames => .node ⟨frames, 0⟩
  | none => .constant 2048

def copyNode (c : ChainCopy) : Node :=
  Catalog.pvCopy.instantiate .control [.node ⟨c.chain, 0⟩, .node ⟨c.buffer, 0⟩]

def bufferNode (c : ChainCopy) : Node :=
  Catalog.localBuf.instantiate .scalar [.constant 1, c.frameCount]

end ChainCopy

/-- The node with another source in the given slot. -/
def Node.reroute (n : Node) (index copy : Nat) : Node :=
  { n with inputs := n.inputs.set index (.node ⟨copy, 0⟩) }

theorem Node.alike_reroute (n : Node) (index copy : Nat) : n.Alike (n.reroute index copy) :=
  ⟨rfl, rfl, rfl, rfl, rfl, rfl⟩

namespace Graph

/-! ## One copy -/

/-- `g'` is `g` with one chain copied. -/
structure CopiedTo (g : Graph) (c : ChainCopy) (g' : Graph) : Prop where
  size : g'.nodes.size = g.nodes.size + c.ids.length
  ids : c.ids = List.range' g.nodes.size c.ids.length
  order : g'.order = (g.insertBefore c.slot.ugen c.ids).order
  reader : g'.node c.slot.ugen = (g.node c.slot.ugen).reroute c.slot.index c.copy
  others : ∀ id < g.nodes.size, id ≠ c.slot.ugen → g'.node id = g.node id
  copy : g'.node c.copy = c.copyNode
  buffer : g'.node c.buffer = c.bufferNode
  frames : ∀ frames, c.frames = some frames →
    ∃ root input, g.chainRoot? (g.nodes.size + 1) c.chain = some root ∧
      (g.node root).inputs.head? = some input ∧
      g'.node frames = Catalog.bufFrames.instantiate .scalar [input]

/-- Copying as one extension of the arena. -/
theorem copiedTo_of_extend {g : Graph} {c : ChainCopy} {new : List Node}
    (hlen : c.ids.length = new.length) (hids : c.ids = List.range' g.nodes.size c.ids.length)
    (hslot : c.slot.ugen < g.nodes.size)
    (hcopy : new[c.copy - g.nodes.size]? = some c.copyNode)
    (hbuffer : new[c.buffer - g.nodes.size]? = some c.bufferNode)
    (hframes : ∀ frames, c.frames = some frames →
      ∃ root input, g.chainRoot? (g.nodes.size + 1) c.chain = some root ∧
        (g.node root).inputs.head? = some input ∧
        new[frames - g.nodes.size]? = some (Catalog.bufFrames.instantiate .scalar [input])) :
    g.CopiedTo c (((g.extend new).modify c.slot.ugen (·.reroute c.slot.index c.copy)).insertBefore
      c.slot.ugen c.ids) := by
  have hlt : c.slot.ugen < (g.extend new).nodes.size := by
    rw [size_extend]
    omega
  have hge : ∀ id ∈ c.ids, g.nodes.size ≤ id := by
    intro id hid
    rw [hids] at hid
    exact (List.mem_range'_1.1 hid).1
  have hnew : ∀ id ∈ c.ids, ∀ n, new[id - g.nodes.size]? = some n →
      ((g.extend new).modify c.slot.ugen (·.reroute c.slot.index c.copy)).node id = n := by
    intro id hid n hn
    have := hge id hid
    rw [node_modify hlt, if_neg (by omega), ← Nat.add_sub_of_le this]
    exact node_extend_of_ge hn
  refine ⟨?_, hids, rfl, ?_, ?_, ?_, ?_, ?_⟩
  · simp [hlen]
  · rw [node_insertBefore, node_modify hlt, if_pos rfl, node_extend_of_lt hslot]
  · intro id hid hne
    rw [node_insertBefore, node_modify hlt, if_neg hne, node_extend_of_lt hid]
  · exact hnew _ (by simp [ChainCopy.ids]) _ hcopy
  · exact hnew _ (by simp [ChainCopy.ids]) _ hbuffer
  · intro frames hf
    obtain ⟨root, input, hroot, hinput, hn⟩ := hframes frames hf
    exact ⟨root, input, hroot, hinput, hnew _ (by simp [ChainCopy.ids, hf]) _ hn⟩

theorem copyChain_eq_some {g g' : Graph} {chain : Nat} {reader : Slot} :
    g.copyChain chain reader = some g' ↔
      ∃ root, g.chainRoot? (g.nodes.size + 1) chain = some root ∧
        g.copyFrom root chain reader = g' := by
  simp [copyChain]

theorem copyChain_spec {g g' : Graph} {chain : Nat} {reader : Slot}
    (hr : reader.ugen < g.nodes.size) (h : g.copyChain chain reader = some g') :
    ∃ c : ChainCopy, c.slot = reader ∧ c.chain = chain ∧ g.CopiedTo c g' := by
  obtain ⟨root, hroot, rfl⟩ := copyChain_eq_some.1 h
  unfold copyFrom
  cases hinput : (g.node root).inputs.head? with
  | none =>
    refine ⟨⟨reader, chain, none, g.nodes.size, g.nodes.size + 1⟩, rfl, rfl, ?_⟩
    simp only [push_eq_extend, extend_extend, size_extend]
    refine copiedTo_of_extend ?_ ?_ hr ?_ ?_ ?_
    all_goals simp [ChainCopy.ids, ChainCopy.copyNode, ChainCopy.bufferNode, ChainCopy.frameCount,
      List.range'_succ]
  | some input =>
    refine ⟨⟨reader, chain, some g.nodes.size, g.nodes.size + 1, g.nodes.size + 2⟩, rfl, rfl, ?_⟩
    simp only [push_eq_extend, extend_extend, size_extend]
    refine copiedTo_of_extend ?_ ?_ hr ?_ ?_ ?_
    all_goals simp [ChainCopy.ids, ChainCopy.copyNode, ChainCopy.bufferNode, ChainCopy.frameCount,
      List.range'_succ, hroot, hinput]

/-- A reference of a live node once `c` has been inserted into `g`. -/
inductive CopiedRef (g : Graph) (c : ChainCopy) : Nat → NodeRef → Prop
  | old {id : Nat} {ref : NodeRef} (hid : id ∈ g.order) (href : ref ∈ (g.node id).refs) :
      CopiedRef g c id ref
  | rerouted (hid : c.slot.ugen ∈ g.order) : CopiedRef g c c.slot.ugen ⟨c.copy, 0⟩
  | frames {frames root : Nat} {ref : NodeRef} (hf : c.frames = some frames)
      (hroot : g.chainRoot? (g.nodes.size + 1) c.chain = some root)
      (hinput : (g.node root).inputs.head? = some (.node ref)) : CopiedRef g c frames ref
  | buffer {frames : Nat} (hf : c.frames = some frames) : CopiedRef g c c.buffer ⟨frames, 0⟩
  | chain : CopiedRef g c c.copy ⟨c.chain, 0⟩
  | target : CopiedRef g c c.copy ⟨c.buffer, 0⟩

theorem mem_refs_reroute {n : Node} {index copy : Nat} {ref : NodeRef}
    (h : ref ∈ (n.reroute index copy).refs) : ref = ⟨copy, 0⟩ ∨ ref ∈ n.refs := by
  rw [Node.mem_refs] at h ⊢
  rcases List.mem_or_eq_of_mem_set h with h | h
  · exact .inr h
  · exact .inl (Input.node.inj h)

/-- The root of a live chain is live. -/
theorem chainRoot?_mem {g : Graph} (hg : g.Closed) {fuel id root : Nat} (hid : id ∈ g.order)
    (h : g.chainRoot? fuel id = some root) : root ∈ g.order := by
  induction fuel generalizing id with
  | zero => cases h
  | succ fuel ih =>
    simp only [chainRoot?] at h
    split at h
    · next ref hhead =>
      split at h
      · exact ih (hg.ref hid (Node.mem_refs.2 (List.mem_of_head? hhead))).1 h
      · cases h
        exact hid
    · cases h
      exact hid

namespace CopiedTo

variable {g g' : Graph} {c : ChainCopy}

theorem order_perm (h : g.CopiedTo c g') : g'.order.Perm (g.order ++ c.ids) := by
  rw [h.order]
  exact order_insertBefore_perm _ _ _

theorem kept (h : g.CopiedTo c g') : g.order.Sublist g'.order := by
  rw [h.order]
  exact sublist_insertBefore _ _ _

theorem before (h : g.CopiedTo c g') {id : Nat} (hid : id ∈ c.ids) (hlive : c.slot.ugen ∈ g.order) :
    g'.Precedes id c.slot.ugen := by
  rw [Precedes, h.order]
  exact precedes_insertBefore hid (.inl ⟨rfl, hlive⟩)

theorem size_le_of_mem_ids (h : g.CopiedTo c g') {id : Nat} (hid : id ∈ c.ids) :
    g.nodes.size ≤ id ∧ id < g'.nodes.size := by
  rw [h.ids, List.mem_range'_1] at hid
  rw [h.size]
  exact hid

theorem ordered (h : g.CopiedTo c g') (hg : g.Ordered) : g'.Ordered := by
  constructor
  · rw [h.order_perm.nodup_iff, List.nodup_append]
    refine ⟨hg.nodup, h.ids ▸ List.nodup_range', fun a ha b hb hab => ?_⟩
    have := hg.bound a ha
    have := (h.size_le_of_mem_ids hb).1
    omega
  · intro id hid
    rcases List.mem_append.1 (h.order_perm.mem_iff.1 hid) with hid | hid
    · have := hg.bound id hid
      have := h.size
      omega
    · exact (h.size_le_of_mem_ids hid).2

theorem alike (h : g.CopiedTo c g') {id : Nat} (hid : id < g.nodes.size) :
    (g.node id).Alike (g'.node id) := by
  by_cases hs : id = c.slot.ugen
  · rw [hs, h.reader]
    exact Node.alike_reroute _ _ _
  · rw [h.others id hid hs]
    exact .refl _

theorem length_inputs (h : g.CopiedTo c g') {id : Nat} (hid : id < g.nodes.size) :
    (g'.node id).inputs.length = (g.node id).inputs.length := by
  by_cases hs : id = c.slot.ugen
  · rw [hs, h.reader, Node.reroute, List.length_set]
  · rw [h.others id hid hs]

theorem inputs_of_ne (h : g.CopiedTo c g') {slot : Slot} (hid : slot.ugen < g.nodes.size)
    (hne : c.slot ≠ slot) :
    (g'.node slot.ugen).inputs[slot.index]? = (g.node slot.ugen).inputs[slot.index]? := by
  by_cases hs : c.slot.ugen = slot.ugen
  · have hindex : c.slot.index ≠ slot.index := fun he => hne (Slot.ext hs he)
    rw [← hs, h.reader, Node.reroute, List.getElem?_set_ne hindex]
  · rw [h.others _ hid (Ne.symm hs)]

/-- Where the references of the live nodes come from. -/
theorem copiedRef (h : g.CopiedTo c g') (hg : g.Ordered) {id : Nat} {ref : NodeRef}
    (hid : id ∈ g'.order) (href : ref ∈ (g'.node id).refs) : g.CopiedRef c id ref := by
  rcases List.mem_append.1 (h.order_perm.mem_iff.1 hid) with hid | hid
  · by_cases hs : id = c.slot.ugen
    · rw [hs, h.reader] at href
      rcases mem_refs_reroute href with rfl | href
      · exact hs ▸ .rerouted (hs ▸ hid)
      · exact .old hid (hs ▸ href)
    · rw [h.others id (hg.bound id hid) hs] at href
      exact .old hid href
  · rcases ChainCopy.mem_ids.1 hid with hid | rfl | rfl
    · obtain ⟨root, input, hroot, hinput, hnode⟩ := h.frames id hid
      rw [hnode, Node.mem_refs] at href
      obtain rfl : Input.node ref = input := by
        simpa [Descriptor.instantiate, Catalog.bufFrames] using href
      exact .frames hid hroot hinput
    · rw [h.buffer, Node.mem_refs, ChainCopy.bufferNode] at href
      cases hf : c.frames with
      | none => simp [Descriptor.instantiate, Catalog.localBuf, ChainCopy.frameCount, hf] at href
      | some frames =>
        obtain rfl : ref = ⟨frames, 0⟩ := by
          simpa [Descriptor.instantiate, Catalog.localBuf, ChainCopy.frameCount, hf] using href
        exact .buffer hf
    · rw [h.copy, Node.mem_refs, ChainCopy.copyNode] at href
      obtain rfl | rfl : ref = ⟨c.chain, 0⟩ ∨ ref = ⟨c.buffer, 0⟩ := by
        simpa [Descriptor.instantiate, Catalog.pvCopy] using href
      · exact .chain
      · exact .target

theorem closed (h : g.CopiedTo c g') (hg : g.Closed) (hchain : c.chain ∈ g.order)
    (hout : 0 < (g.node c.chain).outputs) : g'.Closed := by
  have hlive : ∀ id, id ∈ g'.order ↔ id ∈ g.order ∨ id ∈ c.ids := fun id => by
    rw [h.order_perm.mem_iff, List.mem_append]
  have hold : ∀ {id : Nat} {ref : NodeRef}, id ∈ g.order → ref ∈ (g.node id).refs →
      (ref.ugen ∈ g'.order ∨ False) ∧ ref.output < (g'.node ref.ugen).outputs := by
    intro id ref hid href
    obtain ⟨hmem, hlt⟩ := hg.ref hid href
    rw [(h.alike (hg.bound _ hmem)).outputs]
    exact ⟨.inl ((hlive _).2 (.inl hmem)), hlt⟩
  refine ⟨h.ordered hg.toOrdered, fun id hid ref href => ?_⟩
  cases h.copiedRef hg.toOrdered hid href with
  | old hid href => exact hold hid href
  | rerouted =>
    refine ⟨.inl ((hlive _).2 (.inr (by simp [ChainCopy.ids]))), ?_⟩
    rw [h.copy]
    exact Nat.one_pos
  | frames _ hroot hinput =>
    exact hold (chainRoot?_mem hg hchain hroot) (Node.mem_refs.2 (List.mem_of_head? hinput))
  | buffer hf =>
    obtain ⟨-, input, -, -, hnode⟩ := h.frames _ hf
    refine ⟨.inl ((hlive _).2 (.inr (by simp [ChainCopy.ids, hf]))), ?_⟩
    rw [hnode]
    exact Nat.one_pos
  | chain =>
    refine ⟨.inl ((hlive _).2 (.inl hchain)), ?_⟩
    rw [(h.alike (hg.bound _ hchain)).outputs]
    exact hout
  | target =>
    refine ⟨.inl ((hlive _).2 (.inr (by simp [ChainCopy.ids]))), ?_⟩
    rw [h.buffer]
    exact Nat.one_pos

end CopiedTo

/-! ## Which slots get a copy -/

/-- The slot belongs to a live node that transforms `chain` in place. -/
structure ReadsChain (g : Graph) (chain : Nat) (slot : Slot) : Prop where
  live : slot.ugen ∈ g.order
  reader : (g.node slot.ugen).flags.isPv ∧ (g.node slot.ugen).flags.pv ≠ .copy
  input : ∃ output, (g.node slot.ugen).inputs[slot.index]? = some (.node ⟨chain, output⟩)
  chain : g.isPv chain

/-- All slots that read a chain, in emission order. -/
def chainSlots (g : Graph) : List (Nat × Slot) := g.order.flatMap g.chainReads

theorem mem_chainReads {g : Graph} {id chain : Nat} {slot : Slot} :
    (chain, slot) ∈ g.chainReads id ↔ slot.ugen = id ∧
      ((g.node id).flags.isPv ∧ (g.node id).flags.pv ≠ .copy) ∧
      (∃ output, (g.node id).inputs[slot.index]? = some (.node ⟨chain, output⟩)) ∧
      g.isPv chain := by
  unfold chainReads
  simp only [Bool.and_eq_true, bne_iff_ne]
  split
  · next hpv =>
    rw [List.mem_filterMap]
    constructor
    · rintro ⟨⟨input, index⟩, hmem, h⟩
      have hget := List.mk_mem_zipIdx_iff_getElem?.1 hmem
      cases input with
      | constant value => cases h
      | node ref =>
        simp only [Option.ite_none_right_eq_some, Option.some.injEq, Prod.mk.injEq] at h
        obtain ⟨hchain, rfl, rfl⟩ := h
        exact ⟨rfl, hpv, ⟨ref.output, hget⟩, hchain⟩
    · rintro ⟨rfl, -, ⟨output, hget⟩, hchain⟩
      exact ⟨(.node ⟨chain, output⟩, slot.index), List.mk_mem_zipIdx_iff_getElem?.2 hget,
        by simp [hchain]⟩
  · next hpv => exact ⟨fun h => (List.not_mem_nil h).elim, fun h => absurd h.2.1 hpv⟩

theorem mem_chainSlots {g : Graph} {chain : Nat} {slot : Slot} :
    (chain, slot) ∈ g.chainSlots ↔ g.ReadsChain chain slot := by
  simp only [chainSlots, List.mem_flatMap, mem_chainReads]
  constructor
  · rintro ⟨id, hid, rfl, hreader, hinput, hchain⟩
    exact ⟨hid, hreader, hinput, hchain⟩
  · rintro ⟨hid, hreader, hinput, hchain⟩
    exact ⟨_, hid, rfl, hreader, hinput, hchain⟩

/-- The slots that get a copy, each with its chain, in the order in which they are copied. -/
def copyPlan (g : Graph) : List (Nat × Slot) :=
  g.chainReaders.flatMap fun (chain, readers) => readers.dropLast.map (chain, ·)

/-- The graph with copies for the slots of a plan, made one after the other. -/
def copiedFor (g : Graph) (plan : List (Nat × Slot)) : Option Graph :=
  plan.foldlM (fun g p => g.copyChain p.1 p.2) g

theorem splitChains_eq (g : Graph) : g.splitChains = g.copiedFor g.copyPlan := by
  have h : ∀ (readers : List (Nat × List Slot)) (g : Graph),
      readers.foldlM (fun g r => g.splitChain r.1 r.2) g =
        g.copiedFor (readers.flatMap fun r => r.2.dropLast.map (r.1, ·)) := by
    intro readers
    induction readers with
    | nil => exact fun g => rfl
    | cons r readers ih =>
      intro g
      simp only [List.foldlM_cons, ih, List.flatMap_cons, copiedFor, List.foldlM_append,
        List.foldlM_map]
      rfl
  exact h g.chainReaders g

/-- The slots that read one chain, in emission order. -/
def readersOf (g : Graph) (chain : Nat) : List Slot :=
  (g.chainSlots.filter (·.1 = chain)).map (·.2)

theorem mem_readersOf {g : Graph} {chain : Nat} {slot : Slot} :
    slot ∈ g.readersOf chain ↔ g.ReadsChain chain slot := by
  simp only [readersOf, List.mem_map, List.mem_filter, decide_eq_true_eq]
  constructor
  · rintro ⟨⟨_, _⟩, ⟨hmem, rfl⟩, rfl⟩
    exact mem_chainSlots.1 hmem
  · exact fun h => ⟨(chain, slot), ⟨mem_chainSlots.2 h, rfl⟩, rfl⟩

theorem chainReaders_eq (g : Graph) :
    ∃ chains : List Nat, chains.Nodup ∧
      (∀ chain, chain ∈ chains ↔ ∃ slot, g.ReadsChain chain slot) ∧
      g.chainReaders = chains.map fun chain => (chain, g.readersOf chain) := by
  obtain ⟨hnodup, hmem⟩ := foldl_collect (fun r : Nat × Slot => r.1) g.chainSlots [] List.nodup_nil
  refine ⟨_, hnodup, fun chain => ?_, rfl⟩
  rw [hmem]
  constructor
  · rintro (h | ⟨⟨_, slot⟩, hr, rfl⟩)
    · cases h
    · exact ⟨slot, mem_chainSlots.1 hr⟩
  · rintro ⟨slot, h⟩
    exact .inr ⟨(chain, slot), mem_chainSlots.2 h, rfl⟩

theorem mem_copyPlan_iff_dropLast {g : Graph} {chain : Nat} {slot : Slot} :
    (chain, slot) ∈ g.copyPlan ↔ slot ∈ (g.readersOf chain).dropLast := by
  obtain ⟨chains, -, hchains, heq⟩ := g.chainReaders_eq
  rw [copyPlan, heq, List.flatMap_map, List.mem_flatMap]
  constructor
  · rintro ⟨_, -, h⟩
    obtain ⟨_, hslot, h⟩ := List.mem_map.1 h
    cases h
    exact hslot
  · intro hslot
    refine ⟨chain, (hchains chain).2 ⟨slot, ?_⟩, List.mem_map.2 ⟨slot, hslot, rfl⟩⟩
    exact mem_readersOf.1 (List.dropLast_subset _ hslot)

theorem readsChain_of_mem_copyPlan {g : Graph} {chain : Nat} {slot : Slot}
    (h : (chain, slot) ∈ g.copyPlan) : g.ReadsChain chain slot :=
  mem_readersOf.1 (List.dropLast_subset _ (mem_copyPlan_iff_dropLast.1 h))

/-- A slot reads one chain. -/
theorem ReadsChain.unique {g : Graph} {chain other : Nat} {slot : Slot}
    (h : g.ReadsChain chain slot) (h' : g.ReadsChain other slot) : chain = other := by
  obtain ⟨output, ho⟩ := h.input
  obtain ⟨output', ho'⟩ := h'.input
  rw [ho] at ho'
  cases ho'
  rfl

theorem pairwise_chainReads (g : Graph) (id : Nat) :
    (g.chainReads id).Pairwise fun a b => a.2.index < b.2.index := by
  unfold chainReads
  simp only
  split
  · have hidx : (g.node id).inputs.zipIdx.Pairwise (·.2 < ·.2) := by
      rw [← List.pairwise_map, List.zipIdx_map_snd]
      exact List.pairwise_lt_range'
    refine List.pairwise_filterMap.2 (hidx.imp fun {a b} hab x hx y hy => ?_)
    obtain ⟨value | ref, i⟩ := a
    · cases hx
    obtain ⟨value | ref', j⟩ := b
    · cases hy
    simp only [Option.ite_none_right_eq_some, Option.some.injEq] at hx hy
    rw [← hx.2, ← hy.2]
    exact hab
  · exact List.Pairwise.nil

theorem nodup_chainSlots {g : Graph} (hg : g.Ordered) : (g.chainSlots.map (·.2)).Nodup := by
  rw [chainSlots, List.map_flatMap, List.nodup_flatMap]
  constructor
  · intro id _
    refine List.pairwise_map.2 ((g.pairwise_chainReads id).imp fun {a b} hab hslot => ?_)
    rw [hslot] at hab
    exact Nat.lt_irrefl _ hab
  · refine hg.nodup.imp fun {a b} hab slot ha hb => hab ?_
    obtain ⟨r, hr, rfl⟩ := List.mem_map.1 ha
    obtain ⟨r', hr', hslot⟩ := List.mem_map.1 hb
    rw [← (mem_chainReads.1 hr).1, ← (mem_chainReads.1 hr').1, hslot]

theorem nodup_copyPlan {g : Graph} (hg : g.Ordered) : (g.copyPlan.map (·.2)).Nodup := by
  obtain ⟨chains, hnodup, -, heq⟩ := g.chainReaders_eq
  have hreaders : ∀ chain, (g.readersOf chain).Nodup := fun chain =>
    (nodup_chainSlots hg).sublist (List.filter_sublist.map _)
  simp only [copyPlan, heq, List.flatMap_map, List.map_flatMap, List.map_map, Function.comp_def,
    List.map_id_fun', id_eq]
  refine List.nodup_flatMap.2
    ⟨fun chain _ => (hreaders chain).sublist (List.dropLast_sublist _), ?_⟩
  refine hnodup.imp fun {a b} hab slot ha hb => hab ?_
  exact (mem_readersOf.1 (List.dropLast_subset _ ha)).unique
    (mem_readersOf.1 (List.dropLast_subset _ hb))

/-- Where the nodes of chains stand in the order of registration, so do their slots. -/
theorem pairwise_chainSlots {g : Graph}
    (hg : g.order.Pairwise fun a b => g.isPv a → g.isPv b → a < b) :
    g.chainSlots.Pairwise fun a b => a.2.Before b.2 := by
  refine List.pairwise_flatMap.2 ⟨fun id _ => ?_, hg.imp fun {a b} hab r hr r' hr' => ?_⟩
  · refine (g.pairwise_chainReads id).imp_of_mem fun {r r'} hr hr' hlt => .inr ⟨?_, hlt⟩
    rw [(mem_chainReads.1 hr).1, (mem_chainReads.1 hr').1]
  · obtain ⟨rfl, hreader, -⟩ := mem_chainReads.1 hr
    obtain ⟨rfl, hreader', -⟩ := mem_chainReads.1 hr'
    exact .inl (hab hreader.1 hreader'.1)

/-- A slot gets a copy if a later one reads the same chain. -/
theorem mem_copyPlan_iff {g : Graph}
    (hg : g.order.Pairwise fun a b => g.isPv a → g.isPv b → a < b) {chain : Nat} {slot : Slot} :
    (chain, slot) ∈ g.copyPlan ↔
      g.ReadsChain chain slot ∧ ∃ later, g.ReadsChain chain later ∧ slot.Before later := by
  have hsorted : (g.readersOf chain).Pairwise Slot.Before :=
    List.pairwise_map.2 ((pairwise_chainSlots hg).sublist List.filter_sublist)
  have hstrict : ∀ s t : Slot, s.Before t → ¬t.Before s := by
    unfold Slot.Before
    omega
  rw [mem_copyPlan_iff_dropLast, mem_dropLast_iff hstrict hsorted, mem_readersOf]
  simp only [mem_readersOf]

/-! ## All copies -/

/-- `g'` is `g` with the chains of several slots copied. -/
structure Split (g : Graph) (copies : List ChainCopy) (g' : Graph) : Prop where
  size : g.nodes.size ≤ g'.nodes.size
  slots : ∀ c ∈ copies, c.slot.ugen < g.nodes.size
  ids : copies.flatMap ChainCopy.ids = List.range' g.nodes.size (g'.nodes.size - g.nodes.size)
  order : g'.order.Perm (g.order ++ copies.flatMap ChainCopy.ids)
  kept : g.order.Sublist g'.order
  before : ∀ c ∈ copies, ∀ id ∈ c.ids, g'.Precedes id c.slot.ugen
  leading : ∀ front, front <+: g.order → (∀ c ∈ copies, c.slot.ugen ∉ front) → front <+: g'.order
  alike : ∀ id < g.nodes.size, (g.node id).Alike (g'.node id)
  untouched : ∀ id < g.nodes.size, (∀ c ∈ copies, c.slot.ugen ≠ id) → g'.node id = g.node id
  length : ∀ id < g.nodes.size, (g'.node id).inputs.length = (g.node id).inputs.length
  rerouted : ∀ c ∈ copies, (g'.node c.slot.ugen).inputs[c.slot.index]? = some (.node ⟨c.copy, 0⟩)
  others : ∀ id < g.nodes.size, ∀ index, (∀ c ∈ copies, c.slot ≠ ⟨id, index⟩) →
    (g'.node id).inputs[index]? = (g.node id).inputs[index]?
  copy : ∀ c ∈ copies, g'.node c.copy = c.copyNode
  buffer : ∀ c ∈ copies, g'.node c.buffer = c.bufferNode
  frames : ∀ c ∈ copies, ∀ frames, c.frames = some frames →
    ∃ input, g'.node frames = Catalog.bufFrames.instantiate .scalar [input]

namespace Split

variable {g g' g'' : Graph} {copies : List ChainCopy} {c : ChainCopy}

theorem nil (g : Graph) : g.Split [] g := by
  constructor <;> simp [Node.Alike.refl]

theorem mem_ids (h : g.Split copies g') {d : ChainCopy} (hd : d ∈ copies) {id : Nat}
    (hid : id ∈ d.ids) : g.nodes.size ≤ id ∧ id < g'.nodes.size := by
  have hmem : id ∈ copies.flatMap ChainCopy.ids := List.mem_flatMap.2 ⟨d, hd, hid⟩
  rw [h.ids, List.mem_range'_1] at hmem
  have := h.size
  omega

/-- One more copy. -/
theorem snoc (h : g.Split copies g') (hc : g'.CopiedTo c g'') (hlive : c.slot.ugen ∈ g.order)
    (hslot : c.slot.ugen < g.nodes.size)
    (hindex : c.slot.index < (g.node c.slot.ugen).inputs.length)
    (hnew : ∀ d ∈ copies, d.slot ≠ c.slot) : g.Split (copies ++ [c]) g'' := by
  have hsize := h.size
  have hslot' : c.slot.ugen < g'.nodes.size := by omega
  have hlen := h.length _ hslot
  -- the nodes inserted before are not the one that is rerouted now
  have hkeep : ∀ {d : ChainCopy} {id : Nat}, d ∈ copies → id ∈ d.ids →
      g''.node id = g'.node id := by
    intro d id hd hid
    obtain ⟨hge, hlt⟩ := h.mem_ids hd hid
    exact hc.others id hlt (by omega)
  constructor
  case size =>
    rw [hc.size]
    omega
  case slots => exact List.forall_mem_append.2 ⟨h.slots, List.forall_mem_singleton.2 hslot⟩
  case ids =>
    rw [List.flatMap_append, h.ids, List.flatMap_singleton, hc.ids, hc.size,
      show g'.nodes.size + c.ids.length - g.nodes.size =
        (g'.nodes.size - g.nodes.size) + c.ids.length by omega,
      ← List.range'_append_1, Nat.add_sub_of_le hsize]
  case order =>
    rw [List.flatMap_append, List.flatMap_singleton, ← List.append_assoc]
    exact hc.order_perm.trans (h.order.append_right _)
  case kept => exact h.kept.trans hc.kept
  case before =>
    refine List.forall_mem_append.2 ⟨fun d hd id hid => ?_, List.forall_mem_singleton.2 ?_⟩
    · exact (h.before d hd id hid).mono hc.kept
    · exact fun id hid => hc.before hid (h.kept.mem hlive)
  case leading =>
    intro front hfront hnot
    rw [hc.order]
    exact prefix_insertBefore (h.leading front hfront fun d hd => hnot d (by simp [hd]))
      (hnot c (by simp)) _
  case alike => exact fun id hid => (h.alike id hid).trans (hc.alike (by omega))
  case untouched =>
    intro id hid hnot
    rw [hc.others id (by omega) (hnot c (by simp)).symm]
    exact h.untouched id hid fun d hd => hnot d (by simp [hd])
  case length =>
    intro id hid
    rw [hc.length_inputs (by omega), h.length id hid]
  case rerouted =>
    refine List.forall_mem_append.2 ⟨fun d hd => ?_, List.forall_mem_singleton.2 ?_⟩
    · have := h.slots d hd
      rw [hc.inputs_of_ne (by omega) (hnew d hd).symm, h.rerouted d hd]
    · rw [hc.reader, Node.reroute, List.getElem?_set_self (by omega)]
  case others =>
    intro id hid index hnot
    rw [← h.others id hid index fun d hd => hnot d (by simp [hd])]
    exact hc.inputs_of_ne (Nat.lt_of_lt_of_le hid hsize) (hnot c (by simp))
  case copy =>
    refine List.forall_mem_append.2 ⟨fun d hd => ?_, List.forall_mem_singleton.2 hc.copy⟩
    rw [hkeep hd (by simp [ChainCopy.ids]), h.copy d hd]
  case buffer =>
    refine List.forall_mem_append.2 ⟨fun d hd => ?_, List.forall_mem_singleton.2 hc.buffer⟩
    rw [hkeep hd (by simp [ChainCopy.ids]), h.buffer d hd]
  case frames =>
    refine List.forall_mem_append.2 ⟨fun d hd frames hf => ?_, List.forall_mem_singleton.2 ?_⟩
    · rw [hkeep hd (by simp [ChainCopy.ids, hf])]
      exact h.frames d hd frames hf
    · intro frames hf
      obtain ⟨-, input, -, -, hnode⟩ := hc.frames frames hf
      exact ⟨input, hnode⟩

/-- What the inserted nodes are. -/
theorem synthesized (h : g.Split copies g') (hc : c ∈ copies) {id : Nat} (hid : id ∈ c.ids) :
    (∃ input, g'.node id = Catalog.bufFrames.instantiate .scalar [input]) ∨
      g'.node id = c.bufferNode ∨ g'.node id = c.copyNode := by
  rcases ChainCopy.mem_ids.1 hid with hframes | rfl | rfl
  · exact .inl (h.frames c hc id hframes)
  · exact .inr (.inl (h.buffer c hc))
  · exact .inr (.inr (h.copy c hc))

end Split

theorem ReadsChain.chain_live {g : Graph} (hg : g.Closed) {chain : Nat} {slot : Slot}
    (h : g.ReadsChain chain slot) : chain ∈ g.order ∧ 0 < (g.node chain).outputs := by
  obtain ⟨output, ho⟩ := h.input
  obtain ⟨hlive, hlt⟩ := hg.ref h.live (Node.mem_refs.2 (List.mem_of_getElem? ho))
  exact ⟨hlive, by simp only at hlt; omega⟩

/-- Copying keeps `P`, where the slots of `g` that get a copy are those that read a chain. -/
def KeptByCopying (g : Graph) (P : Graph → Prop) : Prop :=
  ∀ g₁ c g₂, g.ReadsChain c.chain c.slot → g.order.Sublist g₁.order → g₁.Closed →
    g₁.CopiedTo c g₂ → P g₁ → P g₂

/-- Copying for the slots of a plan one after the other. -/
theorem split_copiedFor {g : Graph} (hg : g.Closed) {P : Graph → Prop} (hP : g.KeptByCopying P)
    {plan : List (Nat × Slot)} (hplan : ∀ p ∈ plan, g.ReadsChain p.1 p.2)
    (hslots : (plan.map (·.2)).Nodup) {copies : List ChainCopy} {g' g'' : Graph}
    (h : g.Split copies g') (hg' : g'.Closed) (hPg : P g')
    (hnew : ∀ d ∈ copies, d.slot ∉ plan.map (·.2)) (hcopied : g'.copiedFor plan = some g'') :
    ∃ more : List ChainCopy, more.map (fun c => (c.chain, c.slot)) = plan ∧
      g.Split (copies ++ more) g'' ∧ g''.Closed ∧ P g'' := by
  induction plan generalizing copies g' with
  | nil =>
    cases hcopied
    exact ⟨[], rfl, by simpa using h, hg', hPg⟩
  | cons p plan ih =>
    obtain ⟨chain, slot⟩ := p
    obtain ⟨g₁, hcopy, hrestCopied⟩ := Option.bind_eq_some_iff.1 hcopied
    obtain ⟨hfirst, hrest⟩ := List.nodup_cons.1 hslots
    have hreads := hplan (chain, slot) List.mem_cons_self
    have hlt := hg.bound _ hreads.live
    obtain ⟨c, rfl, rfl, hc⟩ := copyChain_spec (Nat.lt_of_lt_of_le hlt h.size) hcopy
    have hindex : c.slot.index < (g.node c.slot.ugen).inputs.length := by
      obtain ⟨output, ho⟩ := hreads.input
      exact (List.getElem?_eq_some_iff.1 ho).1
    obtain ⟨hchain, hout⟩ := hreads.chain_live hg
    have hclosed := hc.closed hg' (h.order.mem_iff.2 (List.mem_append_left _ hchain))
      (by rwa [(h.alike _ (hg.bound _ hchain)).outputs])
    have hsplit := h.snoc hc hreads.live hlt hindex fun d hd he => hnew d hd (by simp [he])
    have hnew' : ∀ d ∈ copies ++ [c], d.slot ∉ plan.map (·.2) := by
      intro d hd
      rcases List.mem_append.1 hd with hd | hd
      · exact fun hmem => hnew d hd (List.mem_cons_of_mem _ hmem)
      · obtain rfl : d = c := by simpa using hd
        exact hfirst
    obtain ⟨more, hmore, hsplit', hdone⟩ := ih (fun p hp => hplan p (List.mem_cons_of_mem _ hp))
      hrest hsplit hclosed (hP _ c _ hreads h.kept hg' hc hPg) hnew' hrestCopied
    exact ⟨c :: more, by simp [hmore], by simpa using hsplit', hdone⟩

theorem splitChains_spec {g g' : Graph} (hg : g.Closed) {P : Graph → Prop}
    (hP : g.KeptByCopying P) (hPg : P g) (h : g.splitChains = some g') :
    ∃ copies : List ChainCopy, copies.map (fun c => (c.chain, c.slot)) = g.copyPlan ∧
      g.Split copies g' ∧ g'.Closed ∧ P g' := by
  rw [splitChains_eq] at h
  have := split_copiedFor hg hP (fun p hp => readsChain_of_mem_copyPlan hp)
    (nodup_copyPlan hg.toOrdered) (Split.nil g) hg hPg (by simp) h
  simpa using this

end Graph

end SynthGraph
