import SynthGraph.Proofs.Reachability
import SynthGraph.Scgf.Decode

/-!
# What the catalog knows of a node

A node is described by a descriptor if its flags and the keys of its inputs can be had from there.
The keys depend on the number of inputs only, because at most one input of a class takes a whole
list. What is registered from the catalog is described when it is registered, and all passes keep
it so; what they add besides controls is described as well.
-/

namespace SynthGraph

/-! ## Keys by number -/

/-- The keys of the slots of an input; a variadic one has `extra` slots. -/
def InputDecl.keys (extra : Nat) (decl : InputDecl) : List InputKey :=
  if decl.variadic then
    (List.range extra).map fun i => { name := decl.name, element := some i }
  else [{ name := decl.name }]

theorem InputDecl.map_fst_elements (decl : InputDecl) (value : Signal) :
    (decl.elements value).map (·.1) = decl.keys value.leaves.length := by
  unfold elements keys
  split
  · have hindices : value.leaves.zipIdx.map (·.2) = List.range value.leaves.length := by
      rw [List.zipIdx_map_snd, List.range_eq_range']
    rw [← hindices, List.map_map, List.map_map]
    rfl
  · rfl

section Keys

variable {decls : List InputDecl}

/-- Without variadic inputs there is one key for each. -/
theorem flatMap_keys_congr (h : decls.countP InputDecl.variadic = 0) (extra extra' : Nat) :
    decls.flatMap (InputDecl.keys extra) = decls.flatMap (InputDecl.keys extra') := by
  refine List.flatMap_congr fun decl hd => ?_
  have hplain : ¬decl.variadic := List.countP_eq_zero.1 h decl hd
  rw [InputDecl.keys, InputDecl.keys, if_neg hplain, if_neg hplain]

theorem length_flatMap_keys (decls : List InputDecl) (extra : Nat) :
    (decls.flatMap (InputDecl.keys extra)).length + decls.countP InputDecl.variadic =
      decls.length + decls.countP InputDecl.variadic * extra := by
  induction decls with
  | nil => simp
  | cons decl decls ih =>
    rw [List.flatMap_cons, List.length_append, List.length_cons, InputDecl.keys]
    split
    · next hvariadic =>
      rw [List.countP_cons_of_pos hvariadic, List.length_map, List.length_range, Nat.succ_mul]
      omega
    · next hplain =>
      rw [List.countP_cons_of_neg hplain, List.length_singleton]
      omega

/-- The values of a call fill the slots of its inputs. -/
theorem exists_flatMap_keys {values : List Signal} (h : decls.countP InputDecl.variadic ≤ 1)
    (hlen : values.length = decls.length) :
    ∃ extra, (decls.zip values).flatMap (fun e => e.1.keys e.2.leaves.length) =
      decls.flatMap (InputDecl.keys extra) := by
  induction decls generalizing values with
  | nil => exact ⟨0, rfl⟩
  | cons decl decls ih =>
    obtain ⟨value, values, rfl⟩ : ∃ value rest, values = value :: rest :=
      List.exists_cons_of_length_eq_add_one hlen
    rw [List.zip_cons_cons, List.flatMap_cons]
    by_cases hvariadic : decl.variadic
    · rw [List.countP_cons_of_pos hvariadic] at h
      obtain ⟨extra, hrest⟩ := ih (by omega) (by simpa using hlen)
      refine ⟨value.leaves.length, ?_⟩
      rw [List.flatMap_cons, hrest, flatMap_keys_congr (by omega) extra]
    · rw [List.countP_cons_of_neg hvariadic] at h
      obtain ⟨extra, hrest⟩ := ih h (by simpa using hlen)
      refine ⟨extra, ?_⟩
      rw [List.flatMap_cons, hrest, InputDecl.keys, InputDecl.keys, if_neg hvariadic,
        if_neg hvariadic]

end Keys

namespace Scgf

theorem inputKeys_some (d : Descriptor) (count : Nat) : inputKeys (some d) count =
    (d.inputs.flatMap (InputDecl.keys (count - (d.inputs.length - 1)))).take count := rfl

/-- The number of slots tells how many of them a variadic input has. -/
theorem inputKeys_length {d : Descriptor} (h : d.inputs.countP InputDecl.variadic ≤ 1)
    (extra : Nat) : inputKeys (some d) (d.inputs.flatMap (InputDecl.keys extra)).length =
      d.inputs.flatMap (InputDecl.keys extra) := by
  have hlength := length_flatMap_keys d.inputs extra
  have hle : d.inputs.countP InputDecl.variadic ≤ d.inputs.length := List.countP_le_length
  rw [inputKeys_some]
  rcases Nat.le_one_iff_eq_zero_or_eq_one.1 h with hnone | hone
  · rw [flatMap_keys_congr hnone (_ - _) extra, List.take_length]
  · rw [hone] at hlength hle
    have hextra : (d.inputs.flatMap (InputDecl.keys extra)).length - (d.inputs.length - 1) =
        extra := by
      omega
    rw [hextra, List.take_length]

end Scgf

/-! ## The catalog -/

namespace Catalog

/-- At most one input of a class is variadic. -/
theorem countP_variadic_le : ∀ d ∈ full, d.inputs.countP InputDecl.variadic ≤ 1 := by
  decide +kernel

theorem nodup_names : (full.map (·.name)).Nodup := by decide +kernel

theorem lookup?_of_mem {d : Descriptor} (hd : d ∈ full) : full.lookup? d.name = some d := by
  cases hfind : full.lookup? d.name with
  | none =>
    have := List.find?_eq_none.1 hfind d hd
    simp at this
  | some e =>
    have hname : e.name = d.name := by simpa using List.find?_some hfind
    rw [List.inj_on_of_nodup_map nodup_names (List.mem_of_find?_eq_some hfind) hd hname]

end Catalog

namespace Node

/-- What the node is besides its wiring can be had from the descriptor. -/
structure Described (n : Node) (d : Descriptor) : Prop where
  className : n.className = d.name
  flags : n.flags = d.flags
  keys : n.keys = Scgf.inputKeys (some d) n.inputs.length
  /-- Only what a variadic input takes may be missing. -/
  filled : d.inputs.length ≤ n.inputs.length + d.inputs.countP InputDecl.variadic

/-- If the node is a generator, the catalog describes it. -/
def Catalogued (n : Node) : Prop := n.role = .generator → ∃ d ∈ Catalog.full, n.Described d

variable {n : Node} {d : Descriptor}

theorem Catalogued.exchange (h : n.Catalogued) {inputs : List Input}
    (hlength : inputs.length = n.inputs.length) : ({ n with inputs } : Node).Catalogued := by
  intro hrole
  obtain ⟨d, hd, hn⟩ := h hrole
  refine ⟨d, hd, hn.className, hn.flags, ?_, ?_⟩
  · rw [hlength]
    exact hn.keys
  · rw [hlength]
    exact hn.filled

theorem Catalogued.mapRefs (h : n.Catalogued) (f : NodeRef → NodeRef) :
    (n.mapRefs f).Catalogued :=
  h.exchange (List.length_map _)

theorem Catalogued.reroute (h : n.Catalogued) (index copy : Nat) :
    (n.reroute index copy).Catalogued :=
  h.exchange List.length_set

/-- Where no input is variadic, a node with one input for each is described. -/
theorem described_of_plain (hplain : d.inputs.countP InputDecl.variadic = 0)
    (hclass : n.className = d.name) (hflags : n.flags = d.flags)
    (hkeys : n.keys = d.inputs.flatMap (InputDecl.keys 0))
    (hlength : d.inputs.length ≤ n.inputs.length) : n.Described d := by
  refine ⟨hclass, hflags, ?_, by omega⟩
  rw [hkeys, Scgf.inputKeys_some, flatMap_keys_congr hplain 0, List.take_of_length_le]
  have := length_flatMap_keys d.inputs (n.inputs.length - (d.inputs.length - 1))
  rw [hplain] at this
  omega

theorem described_instantiate {inputs : List Input}
    (hplain : d.inputs.countP InputDecl.variadic = 0) (hlength : inputs.length = d.inputs.length)
    (rate : Rate) : (d.instantiate rate inputs).Described d := by
  refine described_of_plain hplain rfl rfl ?_ ?_
  · show (d.inputs.take inputs.length).map _ = _
    rw [hlength, List.take_length, List.map_eq_flatMap]
    refine List.flatMap_congr fun decl hd => ?_
    rw [InputDecl.keys, if_neg (List.countP_eq_zero.1 hplain decl hd)]
  · show _ ≤ (inputs.take d.inputs.length).length
    rw [List.length_take]
    omega

/-- A local buffer is described as well with a declaration in its third slot. -/
theorem Catalogued.declareBuffer (h : n.Catalogued) (hclass : n.className = Catalog.localBuf.name)
    (id : Nat) : (Graph.declareBuffer id n).Catalogued := by
  intro hrole
  obtain ⟨d, hd, hn⟩ := h hrole
  have hmem : Catalog.localBuf ∈ Catalog.full := by decide +kernel
  obtain rfl : d = Catalog.localBuf :=
    List.inj_on_of_nodup_map Catalog.nodup_names hd hmem (hn.className.symm.trans hclass)
  have hplain : Catalog.localBuf.inputs.countP InputDecl.variadic = 0 := rfl
  have hfilled : 2 ≤ n.inputs.length := hn.filled
  refine ⟨_, hd, described_of_plain hplain hclass hn.flags ?_ ?_⟩
  · show n.keys.take 2 = _
    rw [hn.keys, Scgf.inputKeys_some, flatMap_keys_congr hplain _ 0, List.take_take,
      Nat.min_eq_left hfilled]
    rfl
  · show 2 ≤ (n.inputs.take 2 ++ _).length
    rw [List.length_append, List.length_take]
    omega

end Node

/-! ## Registering -/

namespace Builder

variable {b b' : Builder}

theorem described_of_node {call : Call} {values : List Signal} {n : Node}
    (h : b.node call values = .ok n) (hlen : values.length = call.descriptor.inputs.length)
    (hcall : call.descriptor.inputs.countP InputDecl.variadic ≤ 1) :
    n.Described call.descriptor := by
  obtain ⟨slots, hslots, h⟩ := except_bind_eq_ok.1 h
  cases h
  have hkeys : slots.map (List.map (·.1)) =
      (call.descriptor.inputs.zip values).map fun e => e.1.keys e.2.leaves.length := by
    refine map_of_mapM (fun e _ group hgroup => ?_) hslots
    rw [← InputDecl.map_fst_elements]
    exact map_of_mapM (fun element _ s hs => key_of_slot hs) hgroup
  obtain ⟨extra, hextra⟩ := exists_flatMap_keys hcall hlen
  have hflat : slots.flatten.map (·.1) = call.descriptor.inputs.flatMap (InputDecl.keys extra) := by
    rw [List.map_flatten, hkeys, ← List.flatMap_def, hextra]
  have hlength : (slots.flatten.map (·.2)).length =
      (call.descriptor.inputs.flatMap (InputDecl.keys extra)).length := by
    rw [← hflat, List.length_map, List.length_map]
  refine ⟨rfl, rfl, ?_, ?_⟩
  · show slots.flatten.map (·.1) = Scgf.inputKeys _ (slots.flatten.map (·.2)).length
    rw [hlength, Scgf.inputKeys_length hcall, hflat]
  · show _ ≤ (slots.flatten.map (·.2)).length + _
    have := length_flatMap_keys call.descriptor.inputs extra
    omega

theorem Changes.catalogued (h : b.Changes (fun _ => False) b')
    (hb : ∀ n ∈ b.nodes, n.Catalogued) : ∀ n ∈ b'.nodes, n.Catalogued := by
  refine h.forall_mem hb (fun call values n hcall hlength hnode _ => ?_) (fun p hrole => ?_)
    fun n inputs hlength hn => hn.exchange hlength
  · have hmem := hcall.resolve_right id
    exact ⟨_, hmem, described_of_node hnode hlength (Catalog.countP_variadic_le _ hmem)⟩
  · cases hrole

end Builder

theorem History.catalogued {ops : List Operation} {b : Builder} {known : List Outlet}
    (h : History ops b known) (hcalls : ∀ op ∈ ops, op.Registers fun _ => False) :
    ∀ n ∈ b.nodes, n.Catalogued :=
  h.invariant hcalls (P := fun b => ∀ n ∈ b.nodes, n.Catalogued) (fun _ n hn => by simp at hn)
    fun _ _ => Builder.Changes.catalogued

/-! ## The passes -/

namespace Graph

variable {source g₁ g₂ g g' : Graph} {copies : List ChainCopy} {options : Options}

/-- The catalog describes every live generator. -/
def Catalogued (g : Graph) : Prop := ∀ id ∈ g.order, (g.node id).Catalogued

theorem WithControls.catalogued (h : g.WithControls g') (hg : g.Catalogued) : g'.Catalogued := by
  intro id hid
  rcases h.mem_order.1 hid with ⟨k, group, hk, rfl⟩ | ⟨hold, hkind⟩
  · rw [h.control k group hk]
    exact fun hrole => by cases hrole
  · rw [h.node id hold hkind]
    exact (hg id hold).mapRefs _

theorem CopiedTo.catalogued {c : ChainCopy} (h : g.CopiedTo c g') (hordered : g.Ordered)
    (hg : g.Catalogued) : g'.Catalogued := by
  intro id hid
  rcases List.mem_append.1 (h.order_perm.mem_iff.1 hid) with hold | hnew
  · by_cases hslot : id = c.slot.ugen
    · rw [hslot, h.reader]
      exact (hg _ (hslot ▸ hold)).reroute _ _
    · rw [h.others id (hordered.bound id hold) hslot]
      exact hg id hold
  · intro _
    rcases ChainCopy.mem_ids.1 hnew with hframes | rfl | rfl
    · obtain ⟨-, input, -, -, hnode⟩ := h.frames id hframes
      rw [hnode]
      exact ⟨Catalog.bufFrames, by decide +kernel, Node.described_instantiate rfl rfl _⟩
    · rw [h.buffer]
      exact ⟨Catalog.localBuf, by decide +kernel, Node.described_instantiate rfl rfl _⟩
    · rw [h.copy]
      exact ⟨Catalog.pvCopy, by decide +kernel, Node.described_instantiate rfl rfl _⟩

theorem Declared.catalogued (h : g.Declared g') (hordered : g.Ordered) (hg : g.Catalogued) :
    g'.Catalogued := by
  intro id hid
  rcases h.mem_order.1 hid with ⟨hold, -⟩ | ⟨hne, rfl⟩
  · rw [h.node id (hordered.bound id hold)]
    split
    · next hbuffer => exact (hg id hold).declareBuffer (mem_buffers.1 hbuffer).2 _
    · exact hg id hold
  · rw [h.declaration hne]
    exact fun _ => ⟨Catalog.maxLocalBufs, by decide +kernel, Node.described_instantiate rfl rfl _⟩

theorem Stages.catalogued (h : Stages source g₁ g₂ g copies) (hs : source.Catalogued) :
    g.Catalogued := by
  have hkept : g₁.KeptByCopying Catalogued := fun _ _ _ _ _ hclosed hcopied hg =>
    hcopied.catalogued hclosed.toOrdered hg
  obtain ⟨-, -, -, -, hsplit⟩ := splitChains_spec h.closed₁ hkept
    (h.controls.catalogued hs) h.chains
  exact h.declared.catalogued h.closed₂.toOrdered hsplit

theorem Catalogued.merge (h : g.Catalogued) (hg : g.Ordered) :
    (g.merge g.duplicates).Catalogued := by
  obtain ⟨horder, -, hnode⟩ := merge_spec hg g.duplicates
  intro id hid
  rw [hnode, if_pos hid]
  rw [horder] at hid
  exact (h id (List.mem_filter.1 hid).1).mapRefs _

theorem Catalogued.foldIf (h : g.Catalogued) (hg : g.Wired source.IsDeclaration)
    (options : Options) : (g.foldIf options).Catalogued := by
  exact (hg.foldIf (fun g hw h => h.merge hw.toOrdered) h options).2

theorem Sourced.catalogued_compiled (hs : source.Sourced) (hcatalogued : source.Catalogued)
    (h : source.compiled options = .ok g) : g.Catalogued := by
  obtain ⟨complete, hc, hlive, hnode⟩ := exists_complete h
  obtain ⟨g₁, g₂, copies, hstages⟩ := hs.stages hc
  obtain ⟨hr, -, -⟩ := hs.resolved_complete hc
  intro id hid
  rw [hnode]
  exact (hstages.catalogued hcatalogued).foldIf hr.wired options id (hlive hid)

end Graph

end SynthGraph
