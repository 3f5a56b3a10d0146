import SynthGraph.Graph.LocalBuffers
import SynthGraph.Proofs.Precedence

/-!
# Declaring local buffers

The pass drops every declaration, and adds one if there are local buffers. Whatever refers to a
declaration that was dropped is left with a reference to a node that is gone; only the third input
of a local buffer is turned to the new declaration.
-/

namespace SynthGraph

namespace Node

/-- The inputs that compilation keeps: a local buffer has at most two. -/
def keptInputs (n : Node) : List Input :=
  if n.className = Catalog.localBuf.name then n.inputs.take 2 else n.inputs

theorem getElem?_keptInputs {n : Node} {index : Nat} {input : Input}
    (h : n.keptInputs[index]? = some input) : n.inputs[index]? = some input := by
  unfold keptInputs at h
  split at h
  · rw [List.getElem?_take] at h
    split at h
    · exact h
    · cases h
  · exact h

theorem length_keptInputs {n m : Node} (hclass : m.className = n.className)
    (hlength : m.inputs.length = n.inputs.length) :
    m.keptInputs.length = n.keptInputs.length := by
  unfold keptInputs
  rw [hclass]
  split <;> simp [hlength]

end Node

namespace Graph

theorem mem_dropDeclarations {g : Graph} {id : Nat} : id ∈ g.dropDeclarations.order ↔
    id ∈ g.order ∧ (g.node id).className ≠ Catalog.maxLocalBufs.name := by
  simp [dropDeclarations]

theorem mem_localBuffers {g : Graph} {id : Nat} : id ∈ g.localBuffers ↔
    id ∈ g.order ∧ (g.node id).className = Catalog.localBuf.name := by
  simp [localBuffers, ofClass]

/-- The live local buffers, in emission order. -/
def buffers (g : Graph) : List Nat := g.dropDeclarations.localBuffers

theorem mem_buffers {g : Graph} {id : Nat} : id ∈ g.buffers ↔
    id ∈ g.order ∧ (g.node id).className = Catalog.localBuf.name := by
  rw [buffers, mem_localBuffers, mem_dropDeclarations]
  constructor
  · exact fun h => ⟨h.1.1, h.2⟩
  · intro h
    have hname : (g.node id).className ≠ Catalog.maxLocalBufs.name := by
      rw [h.2]
      decide
    exact ⟨⟨h.1, hname⟩, h.2⟩

/-- The declaration, if one is made. -/
def declarations (g : Graph) : List Nat := if g.buffers = [] then [] else [g.nodes.size]

/-- The node that declares the local buffers. -/
def declarationNode (g : Graph) : Node :=
  Catalog.maxLocalBufs.instantiate .scalar [.constant (.ofNat g.buffers.length)]

/-- `g'` is `g` with its local buffers declared. -/
structure Declared (g g' : Graph) : Prop where
  size : g'.nodes.size = g.nodes.size + g.declarations.length
  order : g'.order.Perm (g.dropDeclarations.order ++ g.declarations)
  kept : g.dropDeclarations.order.Sublist g'.order
  leading : ∀ front, front <+: g.dropDeclarations.order →
    (∀ id ∈ front, (g.node id).className ≠ Catalog.localBuf.name) → front <+: g'.order
  node : ∀ id < g.nodes.size,
    g'.node id = if id ∈ g.buffers then declareBuffer g.nodes.size (g.node id) else g.node id
  declaration : g.buffers ≠ [] → g'.node g.nodes.size = g.declarationNode
  ahead : ∀ id ∈ g.buffers, g'.Precedes g.nodes.size id

theorem declareLocalBuffers_of_nil {g : Graph} (h : g.buffers = []) :
    g.declareLocalBuffers = g.dropDeclarations := by
  have h : g.dropDeclarations.localBuffers = [] := h
  simp only [declareLocalBuffers, h]

theorem declareLocalBuffers_of_cons {g : Graph} {first : Nat} {rest : List Nat}
    (h : g.buffers = first :: rest) :
    g.declareLocalBuffers = (g.buffers.foldl
      (fun g' id => g'.modify id (declareBuffer g.nodes.size))
      (g.dropDeclarations.extend [g.declarationNode])).insertBefore first [g.nodes.size] := by
  have h' : g.dropDeclarations.localBuffers = first :: rest := h
  simp only [declareLocalBuffers, h', push_eq_extend, declarationNode, h]
  rfl

theorem declareLocalBuffers_spec {g : Graph} (hg : g.Ordered) :
    g.Declared g.declareLocalBuffers := by
  cases hbuffers : g.buffers with
  | nil =>
    rw [declareLocalBuffers_of_nil hbuffers]
    constructor
    case size => simp [declarations, hbuffers, dropDeclarations]
    case order => simp [declarations, hbuffers]
    case kept => exact .refl _
    case leading => exact fun _ hfront _ => hfront
    case node =>
      intro id _
      rw [hbuffers, if_neg List.not_mem_nil]
      rfl
    case declaration => exact fun h => absurd hbuffers h
    case ahead => simp [hbuffers]
  | cons first rest =>
    have hbound : ∀ id ∈ g.buffers, id < g.nodes.size := fun id hid =>
      hg.bound id (mem_buffers.1 hid).1
    have hnodup : g.buffers.Nodup := (hg.nodup.filter _).filter _
    rw [declareLocalBuffers_of_cons hbuffers]
    obtain ⟨horder, hsize, hnode⟩ := foldl_modify hnodup
      (g.dropDeclarations.extend [g.declarationNode])
      (fun id hid => by
        rw [size_extend]
        exact Nat.lt_add_right _ (hbound id hid))
      (declareBuffer g.nodes.size)
    constructor
    case size =>
      refine hsize.trans ?_
      simp [declarations, hbuffers, dropDeclarations]
    case order =>
      refine (order_insertBefore_perm _ _ _).trans ?_
      rw [horder]
      simp [declarations, hbuffers]
    case kept =>
      refine .trans ?_ (sublist_insertBefore _ _ _)
      rw [horder]
      exact .refl _
    case leading =>
      intro front hfront hclass
      refine prefix_insertBefore (horder ▸ hfront) (fun hmem => ?_) _
      exact hclass first hmem (mem_buffers.1 (hbuffers ▸ List.mem_cons_self)).2
    case node =>
      intro id hid
      have hold : (g.dropDeclarations.extend [g.declarationNode]).node id = g.node id :=
        node_extend_of_lt hid _
      rw [node_insertBefore, hnode, hold]
    case declaration =>
      intro _
      rw [node_insertBefore, hnode, if_neg fun hmem => Nat.lt_irrefl _ (hbound _ hmem)]
      exact node_extend_of_ge (k := 0) rfl
    case ahead =>
      intro id hid
      refine precedes_insertBefore (List.mem_singleton.2 rfl) ?_
      have hsub : g.buffers.Sublist g.dropDeclarations.order := List.filter_sublist
      rw [Precedes, horder]
      rw [hbuffers] at hid hsub
      rcases List.mem_cons.1 hid with rfl | hid
      · exact .inl ⟨rfl, hsub.mem List.mem_cons_self⟩
      · exact .inr (.trans (.cons_cons _ (List.singleton_sublist.2 hid)) hsub)

/-! ## References to dropped declarations -/

theorem alike_declareBuffer (id : Nat) (n : Node) : n.Alike (declareBuffer id n) :=
  ⟨rfl, rfl, rfl, rfl, rfl, rfl⟩

theorem mem_refs_declareBuffer {id : Nat} {n : Node} {ref : NodeRef}
    (h : ref ∈ (declareBuffer id n).refs) : ref = ⟨id, 0⟩ ∨ ref ∈ n.refs := by
  rw [Node.mem_refs] at h ⊢
  rcases List.mem_append.1 h with h | h
  · exact .inr (List.mem_of_mem_take h)
  · exact .inl (by simpa using h)

/-- The node is a live declaration. -/
def IsDeclaration (g : Graph) (id : Nat) : Prop :=
  id ∈ g.order ∧ (g.node id).className = Catalog.maxLocalBufs.name

namespace Declared

variable {g g' : Graph}

theorem alike (h : g.Declared g') {id : Nat} (hid : id < g.nodes.size) :
    (g.node id).Alike (g'.node id) := by
  rw [h.node id hid]
  split
  · exact alike_declareBuffer _ _
  · exact .refl _

theorem mem_order (h : g.Declared g') {id : Nat} : id ∈ g'.order ↔
    (id ∈ g.order ∧ ¬g.IsDeclaration id) ∨ g.buffers ≠ [] ∧ id = g.nodes.size := by
  rw [h.order.mem_iff, List.mem_append, mem_dropDeclarations]
  refine or_congr ?_ ?_
  · refine and_congr_right fun hid => ?_
    simp [IsDeclaration, hid]
  · unfold declarations
    split <;> simp_all

theorem node_of_ne (h : g.Declared g') {id : Nat} (hlt : id < g.nodes.size)
    (hclass : (g.node id).className ≠ Catalog.localBuf.name) : g'.node id = g.node id := by
  rw [h.node id hlt, if_neg fun hmem => hclass (mem_buffers.1 hmem).2]

/-- A local buffer reads the declaration after the inputs that it keeps. -/
theorem inputs (h : g.Declared g') {id : Nat} (hid : id ∈ g.order) (hlt : id < g.nodes.size) :
    (g'.node id).inputs = (g.node id).keptInputs ++
      if (g.node id).className = Catalog.localBuf.name then [.node ⟨g.nodes.size, 0⟩] else [] := by
  rw [Node.keptInputs]
  by_cases hclass : (g.node id).className = Catalog.localBuf.name
  · rw [h.node id hlt, if_pos (mem_buffers.2 ⟨hid, hclass⟩), if_pos hclass, if_pos hclass]
    rfl
  · rw [h.node_of_ne hlt hclass, if_neg hclass, if_neg hclass, List.append_nil]

theorem ordered (h : g.Declared g') (hg : g.Ordered) : g'.Ordered := by
  constructor
  · rw [h.order.nodup_iff, List.nodup_append]
    refine ⟨hg.nodup.filter _, ?_, fun a ha b hb hab => ?_⟩
    · unfold declarations
      split <;> simp
    · have := hg.bound a (mem_dropDeclarations.1 ha).1
      unfold declarations at hb
      split at hb <;> simp_all
  · intro id hid
    rw [h.size]
    rcases h.mem_order.1 hid with ⟨hid, -⟩ | ⟨hne, rfl⟩
    · have := hg.bound id hid
      omega
    · simp [declarations, hne]

/-- The only references that go astray are those to dropped declarations. -/
theorem wired (h : g.Declared g') (hg : g.Closed) : g'.Wired g.IsDeclaration := by
  have hold : ∀ {id : Nat} {ref : NodeRef}, id ∈ g.order → ref ∈ (g.node id).refs →
      (ref.ugen ∈ g'.order ∨ g.IsDeclaration ref.ugen) ∧
        ref.output < (g'.node ref.ugen).outputs := by
    intro id ref hid href
    obtain ⟨hmem, hlt⟩ := hg.ref hid href
    rw [(h.alike (hg.bound _ hmem)).outputs]
    refine ⟨?_, hlt⟩
    by_cases hdecl : g.IsDeclaration ref.ugen
    · exact .inr hdecl
    · exact .inl (h.mem_order.2 (.inl ⟨hmem, hdecl⟩))
  refine ⟨h.ordered hg.toOrdered, fun id hid ref href => ?_⟩
  rcases h.mem_order.1 hid with ⟨hid, -⟩ | ⟨hne, rfl⟩
  · rw [h.node id (hg.bound id hid)] at href
    split at href
    · next hbuffer =>
      have hne := List.ne_nil_of_mem hbuffer
      rcases mem_refs_declareBuffer href with rfl | href
      · refine ⟨.inl (h.mem_order.2 (.inr ⟨hne, rfl⟩)), ?_⟩
        rw [h.declaration hne]
        exact Nat.one_pos
      · exact hold hid href
    · exact hold hid href
  · rw [h.declaration hne, Node.mem_refs, declarationNode] at href
    simp [Descriptor.instantiate, Catalog.maxLocalBufs] at href

end Declared

end Graph

end SynthGraph
