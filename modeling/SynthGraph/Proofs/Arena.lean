import Mathlib.Data.List.Nodup
import SynthGraph.Graph

/-!
# The arena

What the edits of a graph do to its nodes and to its emission order, and the invariant of all
passes: `Graph.Wired` says that the live nodes are distinct nodes of the arena, and that every
reference of a live node names an output of a live node. A pass may drop nodes that others refer
to; `gone` says which.
-/

namespace SynthGraph

/-! ## References of nodes -/

namespace Node

theorem mem_refs {n : Node} {ref : NodeRef} : ref ∈ n.refs ↔ .node ref ∈ n.inputs := by
  rw [refs, List.mem_filterMap]
  constructor
  · rintro ⟨input, hi, h⟩
    cases input with
    | constant value => cases h
    | node r =>
      cases h
      exact hi
  · exact fun h => ⟨_, h, rfl⟩

@[simp] theorem refs_mapRefs (n : Node) (f : NodeRef → NodeRef) :
    (n.mapRefs f).refs = n.refs.map f := by
  simp only [refs, mapRefs, List.filterMap_map, List.map_filterMap]
  congr 1
  funext input
  cases input <;> rfl

/-- The second node is the first one up to its inputs and their keys. -/
structure Alike (n m : Node) : Prop where
  className : m.className = n.className
  rate : m.rate = n.rate
  special : m.special = n.special
  outputs : m.outputs = n.outputs
  flags : m.flags = n.flags
  role : m.role = n.role

theorem Alike.refl (n : Node) : n.Alike n := ⟨rfl, rfl, rfl, rfl, rfl, rfl⟩

theorem Alike.trans {n m k : Node} (h : n.Alike m) (h' : m.Alike k) : n.Alike k :=
  ⟨h'.className.trans h.className, h'.rate.trans h.rate, h'.special.trans h.special,
    h'.outputs.trans h.outputs, h'.flags.trans h.flags, h'.role.trans h.role⟩

theorem Alike.parameters {n m : Node} (h : n.Alike m) : m.parameters = n.parameters := by
  rw [Node.parameters, h.role, Node.parameters]

theorem mapRefs_congr {n : Node} {f f' : NodeRef → NodeRef}
    (h : ∀ ref ∈ n.refs, f ref = f' ref) : n.mapRefs f = n.mapRefs f' := by
  have hinputs : n.inputs.map (·.mapNode f) = n.inputs.map (·.mapNode f') := by
    refine List.map_congr_left fun input hi => ?_
    cases input with
    | constant value => rfl
    | node ref => exact congrArg Input.node (h ref (mem_refs.2 hi))
  rw [mapRefs, hinputs, mapRefs]

theorem mapRefs_mapRefs (n : Node) (f f' : NodeRef → NodeRef) :
    (n.mapRefs f).mapRefs f' = n.mapRefs fun ref => f' (f ref) := by
  simp only [mapRefs, List.map_map]
  congr 1
  refine List.map_congr_left fun input _ => ?_
  cases input <;> rfl

theorem mapRefs_eq_self {n : Node} {f : NodeRef → NodeRef} (h : ∀ ref ∈ n.refs, f ref = ref) :
    n.mapRefs f = n := by
  have hinputs : n.inputs.map (·.mapNode f) = n.inputs := by
    refine (List.map_congr_left fun input hi => ?_).trans (List.map_id _)
    cases input with
    | constant value => rfl
    | node ref => exact congrArg Input.node (h ref (mem_refs.2 hi))
  rw [mapRefs, hinputs]

theorem mapRefs_of_refs_nil {n : Node} (h : n.refs = []) (f : NodeRef → NodeRef) :
    n.mapRefs f = n :=
  mapRefs_eq_self (by simp [h])

theorem alike_mapRefs (n : Node) (f : NodeRef → NodeRef) : n.Alike (n.mapRefs f) :=
  ⟨rfl, rfl, rfl, rfl, rfl, rfl⟩

end Node

/-! ## Edits -/

namespace Graph

variable {g : Graph}

theorem node_eq (g : Graph) (id : Nat) : g.node id = (g.nodes[id]?).getD default := by
  rw [node, Array.getD_eq_getD_getElem?]

theorem node_of_getElem? {id : Nat} {n : Node} (h : g.nodes[id]? = some n) : g.node id = n := by
  rw [node_eq, h, Option.getD_some]

/-- The graph with more nodes in the arena. -/
def extend (g : Graph) (new : List Node) : Graph := { g with nodes := g.nodes ++ new.toArray }

theorem push_eq_extend (g : Graph) (n : Node) : g.push n = (g.nodes.size, g.extend [n]) := by
  simp [push, extend]

theorem extend_extend (g : Graph) (new more : List Node) :
    (g.extend new).extend more = g.extend (new ++ more) := by
  simp [extend]

@[simp] theorem size_extend (g : Graph) (new : List Node) :
    (g.extend new).nodes.size = g.nodes.size + new.length := by
  simp [extend]

@[simp] theorem order_extend (g : Graph) (new : List Node) : (g.extend new).order = g.order := rfl

theorem node_extend_of_lt {id : Nat} (h : id < g.nodes.size) (new : List Node) :
    (g.extend new).node id = g.node id := by
  rw [node_eq, node_eq, extend, Array.getElem?_append_left h]

theorem node_extend_of_ge {new : List Node} {k : Nat} {n : Node} (h : new[k]? = some n) :
    (g.extend new).node (g.nodes.size + k) = n := by
  rw [node_eq, extend, Array.getElem?_append_right (Nat.le_add_right _ _),
    Nat.add_sub_cancel_left, List.getElem?_toArray, h, Option.getD_some]

@[simp] theorem size_modify (g : Graph) (id : Nat) (f : Node → Node) :
    (g.modify id f).nodes.size = g.nodes.size := Array.size_modify

@[simp] theorem order_modify (g : Graph) (id : Nat) (f : Node → Node) :
    (g.modify id f).order = g.order := rfl

theorem node_modify {id : Nat} (h : id < g.nodes.size) (f : Node → Node) (j : Nat) :
    (g.modify id f).node j = if j = id then f (g.node j) else g.node j := by
  rw [node_eq, node_eq, modify, Array.getElem?_modify]
  by_cases hj : j = id
  · subst hj
    simp [h]
  · rw [if_neg hj, if_neg (Ne.symm hj)]

@[simp] theorem nodes_insertBefore (g : Graph) (id : Nat) (new : List Nat) :
    (g.insertBefore id new).nodes = g.nodes := rfl

@[simp] theorem node_insertBefore (g : Graph) (id : Nat) (new : List Nat) (j : Nat) :
    (g.insertBefore id new).node j = g.node j := rfl

theorem order_insertBefore_perm (g : Graph) (id : Nat) (new : List Nat) :
    (g.insertBefore id new).order.Perm (g.order ++ new) := by
  rw [insertBefore]
  calc (g.order.takeWhile (· != id) ++ new ++ g.order.dropWhile (· != id)).Perm
        (g.order.takeWhile (· != id) ++ g.order.dropWhile (· != id) ++ new) := by
        rw [List.append_assoc, List.append_assoc]
        exact List.perm_append_comm.append_left _
    _ = g.order ++ new := by rw [List.takeWhile_append_dropWhile]

theorem sublist_insertBefore (g : Graph) (id : Nat) (new : List Nat) :
    g.order.Sublist (g.insertBefore id new).order := by
  have hsub := (List.sublist_append_left (g.order.takeWhile (· != id)) new).append_right
    (g.order.dropWhile (· != id))
  rwa [List.takeWhile_append_dropWhile] at hsub

/-- What stands before a node stays at the front when others are placed before that node. -/
theorem prefix_insertBefore {front : List Nat} (h : front <+: g.order) {id : Nat}
    (hid : id ∉ front) (new : List Nat) : front <+: (g.insertBefore id new).order := by
  obtain ⟨rest, hrest⟩ := h
  have hfront : ∀ a ∈ front, (a != id) = true := by
    intro a ha
    rw [bne_iff_ne]
    rintro rfl
    exact hid ha
  rw [insertBefore, ← hrest, List.takeWhile_append_of_pos hfront, List.append_assoc,
    List.append_assoc]
  exact List.prefix_append _ _

/-- Editing several distinct nodes one after the other. -/
theorem foldl_modify {ids : List Nat} (hn : ids.Nodup) (g : Graph)
    (hb : ∀ id ∈ ids, id < g.nodes.size) (f : Node → Node) :
    (ids.foldl (fun g id => g.modify id f) g).order = g.order ∧
      (ids.foldl (fun g id => g.modify id f) g).nodes.size = g.nodes.size ∧
      ∀ j, (ids.foldl (fun g id => g.modify id f) g).node j =
        if j ∈ ids then f (g.node j) else g.node j := by
  induction ids generalizing g with
  | nil => simp
  | cons id ids ih =>
    obtain ⟨hid, hn⟩ := List.nodup_cons.1 hn
    have hlt : id < g.nodes.size := hb id List.mem_cons_self
    obtain ⟨ho, hs, hnode⟩ := ih hn (g.modify id f) fun j hj => by
      simpa using hb j (List.mem_cons_of_mem _ hj)
    refine ⟨ho, hs.trans (size_modify g id f), fun j => ?_⟩
    rw [List.foldl_cons, hnode, node_modify hlt]
    by_cases hj : j = id
    · subst hj
      simp [hid]
    · simp [hj]

/-! ## Wired graphs -/

/-- The live nodes are distinct nodes of the arena. -/
structure Ordered (g : Graph) : Prop where
  nodup : g.order.Nodup
  bound : ∀ id ∈ g.order, id < g.nodes.size

theorem Ordered.mapRefs (hg : g.Ordered) (f : NodeRef → NodeRef) :
    (g.mapRefs f).order = g.order ∧ (g.mapRefs f).nodes.size = g.nodes.size ∧
      ∀ j, (g.mapRefs f).node j = if j ∈ g.order then (g.node j).mapRefs f else g.node j :=
  foldl_modify hg.nodup g hg.bound _

theorem Ordered.of_perm (hg : g.Ordered) {order : List Nat} (h : order.Perm g.order) :
    Ordered { g with order } :=
  ⟨h.nodup_iff.2 hg.nodup, fun id hid => hg.bound id (h.mem_iff.1 hid)⟩

theorem Ordered.of_sublist (hg : g.Ordered) {order : List Nat} (h : order.Sublist g.order) :
    Ordered { g with order } :=
  ⟨hg.nodup.sublist h, fun id hid => hg.bound id (h.mem hid)⟩

/-- Every reference of a live node names an output of a live node or of one that is `gone`. -/
structure Wired (g : Graph) (gone : Nat → Prop) : Prop extends Ordered g where
  refs : ∀ id ∈ g.order, ∀ ref ∈ (g.node id).refs,
    (ref.ugen ∈ g.order ∨ gone ref.ugen) ∧ ref.output < (g.node ref.ugen).outputs

/-- Every reference of a live node names an output of a live node. -/
abbrev Closed (g : Graph) : Prop := g.Wired fun _ => False

theorem Closed.ref {id : Nat} {ref : NodeRef} (hg : g.Closed) (hid : id ∈ g.order)
    (href : ref ∈ (g.node id).refs) :
    ref.ugen ∈ g.order ∧ ref.output < (g.node ref.ugen).outputs :=
  ⟨(hg.refs id hid ref href).1.resolve_right not_false, (hg.refs id hid ref href).2⟩

end Graph

end SynthGraph
