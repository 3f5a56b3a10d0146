import Mathlib.Logic.Relation
import SynthGraph.Catalog
import SynthGraph.Construct
import SynthGraph.Proofs.Arena
import SynthGraph.Proofs.Expanding

/-!
# What operations keep

A builder is well formed if every reference of its nodes names an output that exists and every node
is a generator or the placeholder of a parameter. Registering checks that an outlet belongs to the
builder but not that its node has such an output; this holds because callers only have outlets that
operations gave them. `Build.Sound` says so of one operation, and operations are put together from
sound ones. It also says in which steps the builder changes, so that every other invariant has to be
proved for these steps only.
-/

namespace SynthGraph

/-- The outlets a call is given. -/
def Call.outlets (call : Call) : List Outlet := call.args.flatMap (·.2.outlets)

namespace Builder

/-- The node at position `ugen` has an output `output`. -/
def HasOutput (b : Builder) (ugen output : Nat) : Prop :=
  ∃ n, b.nodes[ugen]? = some n ∧ output < n.outputs

/-- An outlet that claims to be of this builder is, and it has the rate of its node. -/
def Knows (b : Builder) (p : Outlet) : Prop :=
  p.scope = b.scope → ∃ n, b.nodes[p.ugen]? = some n ∧ p.output < n.outputs ∧ n.rate = p.rate

theorem Knows.hasOutput {b : Builder} {p : Outlet} (h : b.Knows p) (hs : p.scope = b.scope) :
    b.HasOutput p.ugen p.output := by
  obtain ⟨n, hn, hlt, -⟩ := h hs
  exact ⟨n, hn, hlt⟩

structure WellFormed (b : Builder) : Prop where
  refs : ∀ n ∈ b.nodes, ∀ ref ∈ n.refs, b.HasOutput ref.ugen ref.output
  roles : ∀ n ∈ b.nodes, n.role = .generator ∨ ∃ p, n = placeholder p ∧ p.values ≠ []

/-- Every node stays where it is, with its outputs and its rate. -/
structure Extends (b b' : Builder) : Prop where
  scope : b'.scope = b.scope
  node : ∀ {id : Nat} {n : Node}, b.nodes[id]? = some n →
    ∃ n', b'.nodes[id]? = some n' ∧ n'.outputs = n.outputs ∧ n'.rate = n.rate

theorem Extends.refl (b : Builder) : b.Extends b := ⟨rfl, fun hn => ⟨_, hn, rfl, rfl⟩⟩

theorem Extends.trans {b b' b'' : Builder} (h : b.Extends b') (h' : b'.Extends b'') :
    b.Extends b'' := by
  refine ⟨h'.scope.trans h.scope, fun hn => ?_⟩
  obtain ⟨n', hn', houtputs, hrate⟩ := h.node hn
  obtain ⟨n'', hn'', houtputs', hrate'⟩ := h'.node hn'
  exact ⟨n'', hn'', houtputs'.trans houtputs, hrate'.trans hrate⟩

theorem Extends.output {b b' : Builder} (h : b.Extends b') {ugen output : Nat}
    (ho : b.HasOutput ugen output) : b'.HasOutput ugen output := by
  obtain ⟨n, hn, hlt⟩ := ho
  obtain ⟨n', hn', houtputs, -⟩ := h.node hn
  exact ⟨n', hn', houtputs ▸ hlt⟩

theorem Extends.knows {b b' : Builder} (h : b.Extends b') {p : Outlet} (hp : b.Knows p) :
    b'.Knows p := by
  intro hs
  obtain ⟨n, hn, hlt, hrate⟩ := hp (hs.trans h.scope)
  obtain ⟨n', hn', houtputs, hrate'⟩ := h.node hn
  exact ⟨n', hn', houtputs ▸ hlt, hrate'.trans hrate⟩

/-- A step that adds to a builder: the nodes of one call, or the placeholder of a parameter whose
name is new. What is called is in the catalog or among `extra`, and is given known outlets. -/
inductive Grows (extra : Descriptor → Prop) (b : Builder) : Builder → Prop
  | register {call : Call} {nodes : List Node}
      (hcall : call.descriptor ∈ Catalog.full ∨ extra call.descriptor)
      (hknown : ∀ p ∈ call.outlets, b.Knows p) (hplan : b.plan call = .ok nodes) :
      Grows extra b (b.append nodes)
  | parameter {p : Parameter} (hvalues : p.values ≠ [])
      (hname : p.name.utf8ByteSize ≤ maxNameSize) (hnew : b.parameter? p.name = none) :
      Grows extra b (b.append [placeholder p])

theorem Grows.exists_append {extra : Descriptor → Prop} {b b' : Builder} (h : b.Grows extra b') :
    ∃ nodes, b' = b.append nodes := by
  cases h with
  | register => exact ⟨_, rfl⟩
  | parameter => exact ⟨_, rfl⟩

/-- Any step of a builder: it grows, or one input of a generator is exchanged. -/
inductive Changes (extra : Descriptor → Prop) (b : Builder) : Builder → Prop
  | grows {b' : Builder} (h : Grows extra b b') : Changes extra b b'
  | rewires {id index : Nat} {n : Node} {value : Signal} {input : Input}
      (hn : b.nodes[id]? = some n) (hkind : n.isParameter = false)
      (hindex : index < n.inputs.length)
      (hwire : b.wire n.className "input" value = .ok input) :
      Changes extra b
        { b with nodes := b.nodes.set! id { n with inputs := n.inputs.set index input } }

end Builder

namespace Build

variable {α β : Type} {extra : Descriptor → Prop} {known : List Outlet}

/-- The result of an operation and the builder after it. -/
def exec (x : Build α) (b : Builder) : Except Fault α × Builder := x.run.run b

@[simp] theorem exec_get (b : Builder) : (get : Build Builder).exec b = (.ok b, b) := rfl

@[simp] theorem exec_lift (x : Except Fault α) (b : Builder) :
    (liftM x : Build α).exec b = (x, b) := by
  cases x <;> rfl

theorem exec_bind (x : Build α) (f : α → Build β) (b : Builder) :
    (x >>= f).exec b = match x.exec b with
      | (.ok a, b') => (f a).exec b'
      | (.error e, b') => (.error e, b') := by
  simp only [exec, ExceptT.run_bind, StateT.run_bind]
  rcases x.run.run b with ⟨_ | a, b'⟩ <;> rfl

theorem exec_bind_eq_ok {x : Build α} {f : α → Build β} {b b' : Builder} {r : β} :
    (x >>= f).exec b = (.ok r, b') ↔
      ∃ a c, x.exec b = (.ok a, c) ∧ (f a).exec c = (.ok r, b') := by
  rw [exec_bind]
  constructor
  · intro h
    split at h
    · next a c hx => exact ⟨a, c, hx, h⟩
    · cases h
  · rintro ⟨a, c, hx, hf⟩
    rw [hx]
    exact hf

theorem exec_pure_eq_ok {a a' : α} {b b' : Builder} :
    (pure a : Build α).exec b = (.ok a', b') ↔ a = a' ∧ b = b' := by
  show (Except.ok a, b) = (Except.ok a', b') ↔ _
  simp

/-- A builder takes steps, it stays well formed, and the outlets of a result are those of nodes that
exist. Those of another builder can only come from what the operation was given. -/
structure Outcome (step : Builder → Builder → Prop) (given : List Outlet)
    (outlets : α → List Outlet) (b : Builder) (r : Except Fault α × Builder) : Prop where
  steps : Relation.ReflTransGen step b r.2
  extended : b.Extends r.2
  wellFormed : r.2.WellFormed
  known : ∀ a, r.1 = .ok a → ∀ p ∈ outlets a, r.2.Knows p
  origin : ∀ a, r.1 = .ok a → ∀ p ∈ outlets a, p ∈ given ∨ p.scope = b.scope

theorem Outcome.failed {step : Builder → Builder → Prop} {b : Builder} (hb : b.WellFormed)
    (given : List Outlet) (outlets : α → List Outlet) (fault : Fault) :
    Outcome step given outlets b (.error fault, b) :=
  ⟨.refl, .refl b, hb, nofun, nofun⟩

/-- What the operation adds to a builder is well formed if it is made of the outlets `known`. -/
def Sound (extra : Descriptor → Prop) (known : List Outlet) (outlets : α → List Outlet)
    (x : Build α) : Prop :=
  ∀ b : Builder, b.WellFormed → (∀ p ∈ known, b.Knows p) →
    Outcome (Builder.Grows extra) known outlets b (x.exec b)

namespace Sound

variable {outlets : α → List Outlet} {outlets' : β → List Outlet}

theorem mono {known' : List Outlet} {x : Build α} (h : Sound extra known outlets x)
    (hk : known ⊆ known') : Sound extra known' outlets x := by
  intro b hb hknown
  have hout := h b hb fun p hp => hknown p (hk hp)
  exact ⟨hout.steps, hout.extended, hout.wellFormed, hout.known,
    fun a ha p hp => (hout.origin a ha p hp).imp_left (hk ·)⟩

theorem pure {a : α} (h : outlets a ⊆ known) :
    Sound extra known outlets (Pure.pure a : Build α) := by
  refine fun b hb hknown => ⟨.refl, .refl b, hb, fun a' ha' p hp => ?_, fun a' ha' p hp => ?_⟩
  · cases ha'
    exact hknown p (h hp)
  · cases ha'
    exact .inl (h hp)

theorem throw (fault : Fault) : Sound extra known outlets (throw fault : Build α) :=
  fun _ hb _ => .failed hb known outlets fault

theorem throw_bind (fault : Fault) (f : β → Build α) :
    Sound extra known outlets ((MonadExcept.throw fault : Build β) >>= f) :=
  fun _ hb _ => .failed hb known outlets fault

theorem bind {x : Build α} {f : α → Build β} (hx : Sound extra known outlets x)
    (hf : ∀ a, Sound extra (known ++ outlets a) outlets' (f a)) :
    Sound extra known outlets' (x >>= f) := by
  intro b hb hknown
  have hout := hx b hb hknown
  rw [exec_bind]
  rcases hr : x.exec b with ⟨result, b'⟩
  rw [hr] at hout
  cases result with
  | error e => exact ⟨hout.steps, hout.extended, hout.wellFormed, nofun, nofun⟩
  | ok a =>
    have hout' := hf a b' hout.wellFormed fun p hp => by
      rcases List.mem_append.1 hp with hp | hp
      · exact hout.extended.knows (hknown p hp)
      · exact hout.known a rfl p hp
    refine ⟨hout.steps.trans hout'.steps, hout.extended.trans hout'.extended, hout'.wellFormed,
      hout'.known, fun c hc p hp => ?_⟩
    rcases hout'.origin c hc p hp with hp | hscope
    · exact (List.mem_append.1 hp).elim .inl (hout.origin a rfl p)
    · exact .inr (hscope.trans hout.extended.scope)

/-- An operation that starts by looking at the builder. -/
theorem read {f : Builder → Build α}
    (h : ∀ b : Builder, b.WellFormed → (∀ p ∈ known, b.Knows p) →
      Outcome (Builder.Grows extra) known outlets b ((f b).exec b)) :
    Sound extra known outlets (get >>= f) := by
  intro b hb hknown
  rw [exec_bind, exec_get]
  exact h b hb hknown

theorem mapM {f : α → Build Signal} {as : List α}
    (h : ∀ a ∈ as, Sound extra known Signal.outlets (f a)) :
    Sound extra known (·.flatMap Signal.outlets) (as.mapM f) := by
  induction as generalizing known with
  | nil => exact pure (by simp)
  | cons a as ih =>
    rw [List.mapM_cons]
    refine (h a List.mem_cons_self).bind fun s => ?_
    refine (ih fun a ha => (h a (List.mem_cons_of_mem _ ha)).mono (by simp)).bind fun rest => ?_
    exact pure (by simp)

end Sound

end Build

/-! ## Registering -/

namespace Call

theorem outlets_argument {call : Call} {decl : InputDecl} {a : Argument}
    (h : call.argument decl = .ok a) : a.value.outlets ⊆ call.outlets := by
  unfold argument at h
  split at h
  · next value hv =>
    cases h
    unfold value? at hv
    split at hv
    · next hfind =>
      cases hv
      have hmem := List.mem_reverse.1 (List.mem_of_find?_eq_some hfind)
      exact fun p hp => List.mem_flatMap.2 ⟨_, hmem, hp⟩
    · obtain ⟨value, -, rfl⟩ := Option.map_eq_some_iff.1 hv
      simp
  · cases h

theorem arguments_eq_ok {call : Call} {args : List Argument} (h : call.arguments = .ok args) :
    call.descriptor.inputs.mapM call.argument = .ok args := by
  unfold arguments at h
  simp only at h
  split at h
  · cases h
  · split at h
    · cases h
    · exact h

theorem outlets_arguments {call : Call} {args : List Argument} (h : call.arguments = .ok args) :
    ∀ a ∈ args, a.value.outlets ⊆ call.outlets := by
  intro a ha
  obtain ⟨decl, -, hdecl⟩ := exists_of_mem_mapM (arguments_eq_ok h) ha
  exact outlets_argument hdecl

end Call

theorem InputDecl.outlets_elements {decl : InputDecl} {value : Signal} {e : InputKey × Signal}
    (h : e ∈ decl.elements value) : e.2.outlets ⊆ value.outlets := by
  unfold elements at h
  split at h
  · obtain ⟨⟨leaf, i⟩, hmem, rfl⟩ := List.mem_map.1 h
    have hleaf := List.mem_of_getElem? (List.mk_mem_zipIdx_iff_getElem?.1 hmem)
    exact Signal.outlets_leaf_subset hleaf
  · obtain rfl := List.mem_singleton.1 h
    exact List.Subset.refl _

namespace Builder

variable {b : Builder} {known : List Outlet}

theorem wire_eq_node {ugen input : String} {s : Signal} {ref : NodeRef}
    (h : b.wire ugen input s = .ok (.node ref)) (hs : s.outlets ⊆ known)
    (hknown : ∀ p ∈ known, b.Knows p) : b.HasOutput ref.ugen ref.output := by
  cases s with
  | constant value => cases h
  | outlet p =>
    simp only [wire] at h
    split at h
    · next hp =>
      cases h
      exact (hknown p (hs (by simp))).hasOutput hp.1
    · cases h
  | vector items => cases h

theorem lt_of_wire {ugen input : String} {s : Signal} {ref : NodeRef}
    (h : b.wire ugen input s = .ok (.node ref)) : ref.ugen < b.nodes.size := by
  cases s with
  | constant value => cases h
  | outlet p =>
    simp only [wire] at h
    split at h
    · next hp =>
      cases h
      exact hp.2
    · cases h
  | vector items => cases h

theorem slot_eq_ok {call : Call} {decl : InputDecl} {e : InputKey × Signal}
    {s : InputKey × Input} (h : b.slot call decl e = .ok s) :
    b.wire call.descriptor.name decl.name e.2 = .ok s.2 := by
  obtain ⟨input, hwire, h⟩ := except_bind_eq_ok.1 h
  obtain ⟨_, -, h⟩ := except_bind_eq_ok.1 h
  cases h
  exact hwire

theorem key_of_slot {call : Call} {decl : InputDecl} {e : InputKey × Signal}
    {s : InputKey × Input} (h : b.slot call decl e = .ok s) : s.1 = e.1 := by
  obtain ⟨input, -, h⟩ := except_bind_eq_ok.1 h
  obtain ⟨-, -, h⟩ := except_bind_eq_ok.1 h
  cases h
  rfl

/-- Every reference of a new node comes from a signal it was given. -/
theorem exists_wire_of_mem_refs {call : Call} {values : List Signal} {n : Node}
    (h : b.node call values = .ok n) {ref : NodeRef} (href : ref ∈ n.refs) :
    ∃ input s, (∃ value ∈ values, s.outlets ⊆ value.outlets) ∧
      b.wire call.descriptor.name input s = .ok (.node ref) := by
  obtain ⟨slots, hslots, h⟩ := except_bind_eq_ok.1 h
  cases h
  obtain ⟨s, hs, hinput⟩ := List.mem_map.1 (Node.mem_refs.1 href)
  obtain ⟨group, hgroup, hs⟩ := List.mem_flatten.1 hs
  obtain ⟨⟨decl, value⟩, hmem, hgroup⟩ := exists_of_mem_mapM hslots hgroup
  obtain ⟨e, he, hslot⟩ := exists_of_mem_mapM hgroup hs
  have hwire := slot_eq_ok hslot
  rw [hinput] at hwire
  exact ⟨decl.name, e.2, ⟨value, (List.of_mem_zip hmem).2, InputDecl.outlets_elements he⟩, hwire⟩

/-- Every new node is that of one expanded call. -/
theorem exists_node_of_plan {call : Call} {nodes : List Node} (h : b.plan call = .ok nodes)
    {n : Node} (hn : n ∈ nodes) :
    ∃ values, (∀ s ∈ values, s.outlets ⊆ call.outlets) ∧
      values.length = call.descriptor.inputs.length ∧ b.node call values = .ok n := by
  obtain ⟨args, hargs, h⟩ := except_bind_eq_ok.1 h
  obtain ⟨calls, hcalls, h⟩ := except_bind_eq_ok.1 h
  obtain ⟨values, hvalues, hnode⟩ := exists_of_mem_mapM h hn
  refine ⟨values, ?_, ?_, hnode⟩
  · exact Expansion.outlets_expand (call.outlets_arguments hargs) hcalls values hvalues
  · rw [Expansion.length_of_mem_expand hcalls values hvalues,
      length_of_mapM (Call.arguments_eq_ok hargs)]

theorem role_of_node {call : Call} {values : List Signal} {n : Node}
    (h : b.node call values = .ok n) : n.role = .generator := by
  obtain ⟨slots, -, h⟩ := except_bind_eq_ok.1 h
  cases h
  rfl

theorem plan_eq_ok {call : Call} {nodes : List Node} (h : b.plan call = .ok nodes)
    (hknown : ∀ p ∈ call.outlets, b.Knows p) :
    ∀ n ∈ nodes, n.role = .generator ∧ ∀ ref ∈ n.refs, b.HasOutput ref.ugen ref.output := by
  intro n hn
  obtain ⟨values, hvalues, -, hnode⟩ := exists_node_of_plan h hn
  refine ⟨role_of_node hnode, fun ref href => ?_⟩
  obtain ⟨input, s, ⟨value, hvalue, hsub⟩, hwire⟩ := exists_wire_of_mem_refs hnode href
  exact wire_eq_node hwire (List.Subset.trans hsub (hvalues value hvalue)) hknown

theorem getElem?_append {id : Nat} {n : Node} (hn : b.nodes[id]? = some n) (nodes : List Node) :
    (b.append nodes).nodes[id]? = some n := by
  obtain ⟨hsize, -⟩ := Array.getElem?_eq_some_iff.1 hn
  rw [append, Array.getElem?_append_left hsize, hn]

theorem getElem?_append_new {nodes : List Node} (k : Nat) :
    (b.append nodes).nodes[b.nodes.size + k]? = nodes[k]? := by
  rw [append, Array.getElem?_append_right (Nat.le_add_right _ _), Nat.add_sub_cancel_left,
    List.getElem?_toArray]

theorem extends_append (b : Builder) (nodes : List Node) : b.Extends (b.append nodes) :=
  ⟨rfl, fun hn => ⟨_, getElem?_append hn nodes, rfl, rfl⟩⟩

theorem WellFormed.append (hb : b.WellFormed) {nodes : List Node}
    (hrefs : ∀ n ∈ nodes, ∀ ref ∈ n.refs, b.HasOutput ref.ugen ref.output)
    (hroles : ∀ n ∈ nodes, n.role = .generator ∨ ∃ p, n = placeholder p ∧ p.values ≠ []) :
    (b.append nodes).WellFormed := by
  have hmem : ∀ {n}, n ∈ (b.append nodes).nodes ↔ n ∈ b.nodes ∨ n ∈ nodes := by
    simp [Builder.append]
  refine ⟨fun n hn ref href => (b.extends_append nodes).output ?_, fun n hn => ?_⟩
  · exact (hmem.1 hn).elim (fun h => hb.refs n h ref href) fun h => hrefs n h ref href
  · exact (hmem.1 hn).elim (hb.roles n) (hroles n)

theorem mem_outlets {id outputs : Nat} {rate : Rate} {p : Outlet} :
    p ∈ (b.outlets id outputs rate).outlets ↔
      ∃ output < outputs, p = ⟨b.scope, id, output, rate⟩ := by
  simp [outlets, Signal.outlets_collapse, List.mem_flatMap, List.flatMap_map]

theorem scope_of_mem_outlets {id outputs : Nat} {rate : Rate} {p : Outlet}
    (h : p ∈ (b.outlets id outputs rate).outlets) : p.scope = b.scope := by
  obtain ⟨output, -, rfl⟩ := mem_outlets.1 h
  rfl

end Builder

namespace Build

variable {extra : Descriptor → Prop} {known : List Outlet}

theorem exec_register (call : Call) (b : Builder) : (register call).exec b =
    match b.plan call with
    | .ok nodes => (.ok (.collapse ((nodes.zipIdx b.nodes.size).map fun (node, id) =>
        b.outlets id node.outputs node.rate)), b.append nodes)
    | .error fault => (.error fault, b) := by
  simp only [register, exec_bind, exec_get, exec_lift]
  cases b.plan call <;> rfl

theorem sound_register (call : Call)
    (hcall : call.descriptor ∈ Catalog.full ∨ extra call.descriptor) :
    Sound extra call.outlets Signal.outlets (register call) := by
  intro b hb hknown
  rw [exec_register]
  cases hplan : b.plan call with
  | error fault => exact .failed hb _ _ fault
  | ok nodes =>
    have hnodes := Builder.plan_eq_ok hplan hknown
    have houtlets : ∀ s, (Except.ok (.collapse ((nodes.zipIdx b.nodes.size).map fun (node, id) =>
        b.outlets id node.outputs node.rate)) : Except Fault Signal) = .ok s → ∀ p ∈ s.outlets,
        ∃ n id, (n, id) ∈ nodes.zipIdx b.nodes.size ∧ ∃ output < n.outputs,
          p = ⟨b.scope, id, output, n.rate⟩ := by
      intro s hs p hp
      cases hs
      simp only [Signal.outlets_collapse, List.flatMap_map, List.mem_flatMap] at hp
      obtain ⟨⟨n, id⟩, hmem, hp⟩ := hp
      exact ⟨n, id, hmem, Builder.mem_outlets.1 hp⟩
    refine ⟨.single (.register hcall hknown hplan), b.extends_append nodes, hb.append
      (fun n hn => (hnodes n hn).2) fun n hn => .inl (hnodes n hn).1, fun s hs p hp _ => ?_,
      fun s hs p hp => ?_⟩
    · obtain ⟨n, id, hmem, output, hlt, rfl⟩ := houtlets s hs p hp
      obtain ⟨hle, hget⟩ := List.mk_mem_zipIdx_iff_le_and_getElem?_sub.1 hmem
      refine ⟨n, ?_, hlt, rfl⟩
      show (b.append nodes).nodes[id]? = some n
      rw [← Nat.add_sub_of_le hle, Builder.getElem?_append_new, hget]
    · obtain ⟨n, id, -, output, -, rfl⟩ := houtlets s hs p hp
      exact .inr rfl

end Build

/-! ## Parameters -/

namespace Builder

variable {b : Builder}

theorem parameter?_eq_some {name : String} {id : Nat} {p : Parameter}
    (h : b.parameter? name = some (id, p)) :
    ∃ n, b.nodes[id]? = some n ∧ n.parameter? = some p ∧ p.name = name := by
  obtain ⟨⟨n, i⟩, hmem, hn⟩ := List.exists_of_findSome?_eq_some h
  have hget := List.mk_mem_zipIdx_iff_getElem?.1 hmem
  simp only at hn
  split at hn
  · next q hq =>
    split at hn
    · next hname =>
      cases hn
      exact ⟨n, by simpa using hget, hq, hname⟩
    · cases hn
  · cases hn

theorem WellFormed.placeholder (hb : b.WellFormed) {n : Node} (hn : n ∈ b.nodes) {p : Parameter}
    (hp : n.parameter? = some p) : n = Builder.placeholder p ∧ p.values ≠ [] := by
  rcases hb.roles n hn with hrole | ⟨q, rfl, hq⟩
  · simp [Node.parameter?, hrole] at hp
  · cases hp
    exact ⟨rfl, hq⟩

theorem WellFormed.knows_parameterOutlets (hb : b.WellFormed) {name : String} {id : Nat}
    {p : Parameter} (h : b.parameter? name = some (id, p)) :
    ∀ o ∈ (b.parameterOutlets id p).outlets, b.Knows o := by
  intro o ho _
  obtain ⟨n, hget, hp, -⟩ := parameter?_eq_some h
  obtain ⟨output, hlt, rfl⟩ := mem_outlets.1 ho
  obtain ⟨rfl, -⟩ := hb.placeholder (Array.mem_of_getElem? hget) hp
  exact ⟨_, hget, hlt, rfl⟩

theorem WellFormed.append_placeholder (hb : b.WellFormed) {p : Parameter} (hp : p.values ≠ []) :
    (b.append [Builder.placeholder p]).WellFormed := by
  refine hb.append (fun n hn ref href => ?_) fun n hn => .inr ⟨p, ?_, hp⟩
  · obtain rfl := List.mem_singleton.1 hn
    cases href
  · exact List.mem_singleton.1 hn

end Builder

namespace Build

variable {extra : Descriptor → Prop} {known : List Outlet}

/-- Handing out the outlets of a parameter that is there already. -/
theorem outcome_found {b : Builder} (hb : b.WellFormed) {name : String} {id : Nat} {p : Parameter}
    (h : b.parameter? name = some (id, p)) :
    Outcome (Builder.Grows extra) known Signal.outlets b (.ok (b.parameterOutlets id p), b) := by
  refine ⟨.refl, .refl b, hb, fun s hs => ?_, fun s hs o ho => ?_⟩
  · cases hs
    exact hb.knows_parameterOutlets h
  · cases hs
    exact .inr (Builder.scope_of_mem_outlets ho)

theorem sound_addParameter (p : Parameter) : Sound extra known Signal.outlets (addParameter p) := by
  simp only [addParameter]
  split
  · exact .throw_bind _ _
  next hvalues =>
  split
  · exact .throw_bind _ _
  next hname =>
  refine .read fun b hb _ => ?_
  split
  · next id existing hfound =>
    split
    · exact outcome_found hb hfound
    · exact .failed hb _ _ _
  · next hnew =>
    have hvalues : p.values ≠ [] := by simpa using hvalues
    refine ⟨.single (.parameter hvalues (Nat.le_of_not_lt hname) hnew), b.extends_append _,
      hb.append_placeholder hvalues, fun s hs o ho _ => ?_, fun s hs o ho => ?_⟩
    · cases hs
      obtain ⟨output, hlt, rfl⟩ := Builder.mem_outlets.1 ho
      exact ⟨_, Builder.getElem?_append_new 0, hlt, rfl⟩
    · cases hs
      exact .inr (Builder.scope_of_mem_outlets ho)

theorem sound_parameter (name : String) : Sound extra known Signal.outlets (parameter name) := by
  unfold parameter
  refine .read fun b hb hknown => ?_
  split
  · next id existing hfound => exact outcome_found hb hfound
  · exact sound_addParameter _ b hb hknown

end Build

/-! ## Rewiring -/

namespace Builder

variable {b : Builder} {id : Nat} {n n' : Node}

/-- A node may be exchanged for one with the same outputs and the same rate. -/
theorem extends_exchange (hn : b.nodes[id]? = some n) (ho : n'.outputs = n.outputs)
    (hr : n'.rate = n.rate) : b.Extends { b with nodes := b.nodes.set! id n' } := by
  refine ⟨rfl, fun {j m} hm => ?_⟩
  by_cases hid : id = j
  · subst hid
    obtain ⟨hsize, -⟩ := Array.getElem?_eq_some_iff.1 hn
    obtain rfl := Option.some.inj (hn.symm.trans hm)
    exact ⟨n', by simp [hsize], ho, hr⟩
  · exact ⟨m, by simpa [Array.getElem?_setIfInBounds, hid] using hm, rfl, rfl⟩

theorem WellFormed.exchange (hb : b.WellFormed) (hn : b.nodes[id]? = some n)
    (ho : n'.outputs = n.outputs) (hr : n'.rate = n.rate) (hrole : n'.role = .generator)
    (hrefs : ∀ ref ∈ n'.refs, b.HasOutput ref.ugen ref.output) :
    ({ b with nodes := b.nodes.set! id n' } : Builder).WellFormed := by
  have hmem : ∀ m ∈ b.nodes.set! id n', m ∈ b.nodes ∨ m = n' := by
    intro m hm
    rw [Array.set!_eq_setIfInBounds] at hm
    exact Array.mem_or_eq_of_mem_setIfInBounds hm
  refine ⟨fun m hm ref href => (extends_exchange hn ho hr).output ?_, fun m hm => ?_⟩
  · rcases hmem m hm with hm | rfl
    · exact hb.refs m hm ref href
    · exact hrefs ref href
  · rcases hmem m hm with hm | rfl
    · exact hb.roles m hm
    · exact .inl hrole

end Builder

namespace Build

/-- Exchanging an input either fails and changes nothing, or it wires the one slot it names. -/
theorem setInput_cases (b : Builder) (id index : Nat) (value : Signal) :
    (∃ fault, (setInput id index value).exec b = (.error fault, b)) ∨
    ∃ n input, b.nodes[id]? = some n ∧ n.isParameter = false ∧ index < n.inputs.length ∧
      b.wire n.className "input" value = .ok input ∧
      (setInput id index value).exec b = (.ok (),
        { b with nodes := b.nodes.set! id { n with inputs := n.inputs.set index input } }) := by
  simp only [setInput]
  rw [exec_bind, exec_get]
  simp only
  split
  · exact .inl ⟨_, rfl⟩
  next n hn =>
  split
  · exact .inl ⟨_, rfl⟩
  next hparam =>
  split
  · exact .inl ⟨_, rfl⟩
  next hindex =>
  rw [exec_bind, exec_lift]
  cases hwire : b.wire n.className "input" value with
  | error fault => exact .inl ⟨fault, rfl⟩
  | ok input =>
    exact .inr ⟨n, input, hn, by simpa using hparam, Nat.lt_of_not_le hindex, hwire, rfl⟩

theorem outcome_setInput (extra : Descriptor → Prop) {b : Builder} (hb : b.WellFormed)
    (id index : Nat) (value : Signal) (hknown : ∀ p ∈ value.outlets, b.Knows p) :
    Outcome (Builder.Changes extra) value.outlets (fun _ => []) b
      ((setInput id index value).exec b) := by
  rcases setInput_cases b id index value with
    ⟨fault, hexec⟩ | ⟨n, input, hn, hparam, hindex, hwire, hexec⟩
  · rw [hexec]
    exact .failed hb _ _ fault
  · have hmem := Array.mem_of_getElem? hn
    rw [hexec]
    refine ⟨.single (.rewires hn hparam hindex hwire), Builder.extends_exchange hn rfl rfl,
      hb.exchange hn rfl rfl ?_ ?_, nofun, nofun⟩
    · rcases hb.roles n hmem with hrole | ⟨p, rfl, -⟩
      · exact hrole
      · cases hparam
    · intro ref href
      rcases List.mem_or_eq_of_mem_set (Node.mem_refs.1 href) with hold | hnew
      · exact hb.refs n hmem ref (Node.mem_refs.2 hold)
      · exact Builder.wire_eq_node (hnew ▸ hwire) (List.Subset.refl _) hknown

end Build

end SynthGraph
