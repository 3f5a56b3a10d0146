import SynthGraph.Proofs.Studios

/-!
# Rates of sources

Registering a call checks the rate of every outlet that feeds one of its nodes, slot by slot.
Outlets carry the rate of their node and nodes never change theirs, so the check stays right for as
long as the slot is fed as it was. To exchange an input, however, is to check no rate: a slot may be
fed against its declaration afterwards, and only then.
-/

namespace SynthGraph

theorem RateCheck.allows_iff {check : RateCheck} {rate source : Rate} :
    check.allows rate source ↔
      (check = .audioWhenAudio → rate = .audio → source = .audio) ∧
      (check = .notFaster → source.index ≤ rate.index ∨ source = .demand) := by
  cases check with
  | any => simp [allows]
  | audioWhenAudio => simp [allows, or_iff_not_imp_left]
  | notFaster => simp [allows]

namespace Call

/-- The values of each call that this one expands to. -/
def expanded (call : Call) : Except Fault (List (List Signal)) := do
  let args ← call.arguments
  Expansion.expand call.descriptor.name args

/-- The declaration behind each slot of the node that gets the values. -/
def slotDecls (call : Call) (values : List Signal) : List InputDecl :=
  (call.descriptor.inputs.zip values).flatMap fun (decl, value) =>
    (decl.elements value).map fun _ => decl

theorem outlets_expanded {call : Call} {calls : List (List Signal)} (h : call.expanded = .ok calls)
    {values : List Signal} (hvalues : values ∈ calls) : ∀ s ∈ values, s.outlets ⊆ call.outlets := by
  obtain ⟨args, hargs, hcalls⟩ := except_bind_eq_ok.1 h
  exact Expansion.outlets_expand (call.outlets_arguments hargs) hcalls values hvalues

end Call

namespace Builder

variable {b b' : Builder} {call : Call} {values : List Signal} {n : Node}

/-! ## New nodes -/

/-- The nodes of a call, one for each call it expands to. -/
theorem forall₂_plan {nodes : List Node} (h : b.plan call = .ok nodes) :
    ∃ calls, call.expanded = .ok calls ∧
      List.Forall₂ (fun values n => values ∈ calls ∧ b.node call values = .ok n) calls nodes := by
  obtain ⟨args, hargs, h⟩ := except_bind_eq_ok.1 h
  obtain ⟨calls, hcalls, h⟩ := except_bind_eq_ok.1 h
  exact ⟨calls, except_bind_eq_ok.2 ⟨args, hargs, hcalls⟩, forall₂_of_mapM h⟩

theorem outlet_of_slot {decl : InputDecl} {e : InputKey × Signal} {s : InputKey × Input}
    (h : b.slot call decl e = .ok s) {ref : NodeRef} (hs : s.2 = .node ref) :
    ∃ p ∈ e.2.outlets, p.scope = b.scope ∧ ref = ⟨p.ugen, p.output⟩ ∧
      decl.check.allows call.rate p.rate := by
  have hwire := slot_eq_ok h
  rw [hs] at hwire
  obtain ⟨_, -, h⟩ := except_bind_eq_ok.1 h
  obtain ⟨_, hrate, -⟩ := except_bind_eq_ok.1 h
  rcases e with ⟨key, value | p | items⟩
  · cases hwire
  · simp only [wire] at hwire
    simp only [checkRate] at hrate
    split at hwire
    · next hscope =>
      cases hwire
      split at hrate
      · next hallows => exact ⟨p, by simp, hscope.1, rfl, hallows⟩
      · cases hrate
    · cases hwire
  · cases hwire

/-- The input is a constant, or it is an outlet among the values that passed the check. -/
def Checked (b : Builder) (call : Call) (values : List Signal) (decl : InputDecl) (input : Input) :
    Prop :=
  ∀ ref, input = .node ref → ∃ p, (∃ value ∈ values, p ∈ value.outlets) ∧ p.scope = b.scope ∧
    ref = ⟨p.ugen, p.output⟩ ∧ decl.check.allows call.rate p.rate

theorem forall₂_slotDecls (h : b.node call values = .ok n) :
    List.Forall₂ (b.Checked call values) (call.slotDecls values) n.inputs := by
  obtain ⟨slots, hslots, h⟩ := except_bind_eq_ok.1 h
  cases h
  -- first the groups of slots that the declarations take, then the slots of each group
  have hgroups : List.Forall₂ (List.Forall₂ fun decl s => b.Checked call values decl s.2)
      ((call.descriptor.inputs.zip values).map fun (decl, value) =>
        (decl.elements value).map fun _ => decl) slots := by
    rw [List.forall₂_map_left_iff]
    refine (forall₂_of_mapM hslots).imp ?_
    rintro ⟨decl, value⟩ group ⟨hmem, hgroup⟩
    rw [List.forall₂_map_left_iff]
    refine (forall₂_of_mapM hgroup).imp fun e s hslot ref hs => ?_
    obtain ⟨p, hp, hpassed⟩ := outlet_of_slot hslot.2 hs
    exact ⟨p, ⟨value, (List.of_mem_zip hmem).2, InputDecl.outlets_elements hslot.1 hp⟩, hpassed⟩
  rw [List.forall₂_map_right_iff]
  exact List.rel_flatten hgroups

/-! ## Nodes and the calls they stem from -/

/-- The node at position `id` was registered by `call`, as the one that got `values`; the inputs in
`exchanged` were put into its slots later. -/
inductive Stems (id : Nat) (call : Call) (values : List Signal) :
    Builder → List (Nat × Input) → Prop
  | register {b : Builder} {calls : List (List Signal)} {nodes : List Node} {k : Nat}
      (hknown : ∀ p ∈ call.outlets, b.Knows p) (hcalls : call.expanded = .ok calls)
      (hplan : b.plan call = .ok nodes) (hvalues : calls[k]? = some values)
      (hid : id = b.nodes.size + k) : Stems id call values (b.append nodes) []
  | grows {b b' : Builder} {exchanged : List (Nat × Input)} (h : Stems id call values b exchanged)
      (hstep : Grows (fun _ => True) b b') : Stems id call values b' exchanged
  | rewires {b : Builder} {exchanged : List (Nat × Input)} {j index : Nat} {n : Node}
      {value : Signal} {input : Input} (h : Stems id call values b exchanged)
      (hn : b.nodes[j]? = some n) (hkind : n.isParameter = false)
      (hindex : index < n.inputs.length) (hwire : b.wire n.className "input" value = .ok input) :
      Stems id call values
        { b with nodes := b.nodes.set! j { n with inputs := n.inputs.set index input } }
        (if j = id then (index, input) :: exchanged else exchanged)

/-- The node has the rate of the call and one input for each slot, and what feeds a slot was put
there later or has the rate that is asked for. -/
structure Rated (b : Builder) (call : Call) (values : List Signal)
    (exchanged : List (Nat × Input)) (n : Node) : Prop where
  className : n.className = call.descriptor.name
  rate : n.rate = call.rate
  slots : n.inputs.length = (call.slotDecls values).length
  checked : ∀ i decl ref, (call.slotDecls values)[i]? = some decl →
    n.inputs[i]? = some (.node ref) → (i, .node ref) ∉ exchanged →
    ∃ source, b.nodes[ref.ugen]? = some source ∧ decl.check.allows n.rate source.rate

theorem Rated.mono {exchanged : List (Nat × Input)} (h : b.Rated call values exchanged n)
    (hext : b.Extends b') : b'.Rated call values exchanged n := by
  refine ⟨h.className, h.rate, h.slots, fun i decl ref hdecl hinput hkept => ?_⟩
  obtain ⟨source, hsource, hallows⟩ := h.checked i decl ref hdecl hinput hkept
  obtain ⟨source', hsource', -, hrate⟩ := hext.node hsource
  exact ⟨source', hsource', hrate ▸ hallows⟩

theorem rated_of_node (hknown : ∀ p ∈ call.outlets, b.Knows p)
    (hvalues : ∀ s ∈ values, s.outlets ⊆ call.outlets) (h : b.node call values = .ok n) :
    b.Rated call values [] n := by
  have hslots := forall₂_slotDecls h
  have hrate : n.className = call.descriptor.name ∧ n.rate = call.rate := by
    obtain ⟨slots, -, h⟩ := except_bind_eq_ok.1 h
    cases h
    exact ⟨rfl, rfl⟩
  refine ⟨hrate.1, hrate.2, hslots.length_eq.symm, fun i decl ref hdecl hinput _ => ?_⟩
  obtain ⟨hi, rfl⟩ := List.getElem?_eq_some_iff.1 hdecl
  obtain ⟨hi', hget⟩ := List.getElem?_eq_some_iff.1 hinput
  obtain ⟨p, ⟨value, hvalue, hp⟩, hscope, rfl, hallows⟩ :=
    hslots.get hi hi' ref (by simpa using hget)
  obtain ⟨source, hsource, -, hp⟩ := hknown p (hvalues value hvalue hp) hscope
  refine ⟨source, hsource, ?_⟩
  rw [hp, hrate.2]
  exact hallows

/-- What is put into a slot is not checked; the other slots are as they were. -/
theorem Rated.exchange {exchanged : List (Nat × Input)} (h : b.Rated call values exchanged n)
    {index : Nat} (hindex : index < n.inputs.length) (input : Input) :
    b.Rated call values ((index, input) :: exchanged)
      { n with inputs := n.inputs.set index input } := by
  refine ⟨h.className, h.rate, List.length_set.trans h.slots, ?_⟩
  intro i decl ref hdecl hinput hkept
  rw [List.mem_cons, not_or] at hkept
  have hi : index ≠ i := by
    rintro rfl
    rw [List.getElem?_set_self hindex] at hinput
    exact hkept.1 (Prod.ext rfl (Option.some.inj hinput).symm)
  rw [List.getElem?_set_ne hi] at hinput
  exact h.checked i decl ref hdecl hinput hkept.2

/-- Whatever is done to the builder, what feeds a slot passed its check or was put there later. -/
theorem Stems.rated {id : Nat} {exchanged : List (Nat × Input)}
    (h : b.Stems id call values exchanged) :
    ∃ n, b.nodes[id]? = some n ∧ b.Rated call values exchanged n := by
  induction h with
  | @register b calls nodes k hknown hcalls hplan hvalues hid =>
    obtain ⟨calls', hcalls', hnodes⟩ := forall₂_plan hplan
    obtain rfl : calls = calls' := Except.ok.inj (hcalls.symm.trans hcalls')
    obtain ⟨hk, rfl⟩ := List.getElem?_eq_some_iff.1 hvalues
    have hk' : k < nodes.length := hnodes.length_eq ▸ hk
    obtain ⟨hmem, hnode⟩ := hnodes.get hk hk'
    refine ⟨nodes[k], ?_, ?_⟩
    · rw [hid, getElem?_append_new, List.getElem?_eq_getElem hk']
    · exact (rated_of_node hknown (call.outlets_expanded hcalls hmem) hnode).mono
        (b.extends_append nodes)
  | grows _ hstep ih =>
    obtain ⟨n, hn, hrated⟩ := ih
    obtain ⟨nodes, rfl⟩ := hstep.exists_append
    exact ⟨n, getElem?_append hn nodes, hrated.mono (extends_append _ nodes)⟩
  | @rewires b exchanged j index m value input _ hm _ hindex _ ih =>
    obtain ⟨n, hn, hrated⟩ := ih
    have hext : b.Extends
        { b with nodes := b.nodes.set! j { m with inputs := m.inputs.set index input } } :=
      extends_exchange hm rfl rfl
    have hrated := hrated.mono hext
    by_cases hj : j = id
    · subst hj
      obtain rfl : m = n := Option.some.inj (hm.symm.trans hn)
      obtain ⟨hsize, -⟩ := Array.getElem?_eq_some_iff.1 hm
      rw [if_pos rfl]
      exact ⟨_, by simp [hsize], hrated.exchange hindex input⟩
    · rw [if_neg hj]
      exact ⟨n, by simpa [Array.getElem?_setIfInBounds, hj] using hn, hrated⟩

/-! ## Histories -/

/-- Every generator stems from a call, and the operations put into its slots what was put there
later. -/
def Traced (b : Builder) (ops : List Operation) : Prop :=
  ∀ id n, b.nodes[id]? = some n → n.role = .generator → ∃ call values exchanged,
    b.Stems id call values exchanged ∧ ∀ e ∈ exchanged, ∃ value, .setInput id e.1 value ∈ ops

theorem Traced.mono {ops ops' : List Operation} (h : b.Traced ops) (hops : ops ⊆ ops') :
    b.Traced ops' := by
  intro id n hn hrole
  obtain ⟨call, values, exchanged, hstems, hexchanged⟩ := h id n hn hrole
  refine ⟨call, values, exchanged, hstems, fun e he => ?_⟩
  obtain ⟨value, hvalue⟩ := hexchanged e he
  exact ⟨value, hops hvalue⟩

theorem Traced.grows {ops : List Operation} (h : b.Traced ops)
    (hstep : b.Grows (fun _ => True) b') : b'.Traced ops := by
  intro id n hn hrole
  obtain ⟨nodes, hnodes⟩ := hstep.exists_append
  by_cases hid : id < b.nodes.size
  · have hold : b.nodes[id]? = some n := by
      rwa [hnodes, append, Array.getElem?_append_left hid] at hn
    obtain ⟨call, values, exchanged, hstems, hexchanged⟩ := h id n hold hrole
    exact ⟨call, values, exchanged, hstems.grows hstep, hexchanged⟩
  · obtain ⟨k, rfl⟩ := Nat.exists_eq_add_of_le (Nat.le_of_not_lt hid)
    cases hstep with
    | @register call nodes _ hknown hplan =>
      rw [getElem?_append_new] at hn
      obtain ⟨calls, hcalls, hmade⟩ := forall₂_plan hplan
      have hk : k < calls.length := hmade.length_eq ▸ (List.getElem?_eq_some_iff.1 hn).1
      exact ⟨call, calls[k], [],
        .register hknown hcalls hplan (List.getElem?_eq_getElem hk) rfl, by simp⟩
    | @parameter p =>
      rw [getElem?_append_new] at hn
      obtain rfl : n = placeholder p := by simpa using List.mem_of_getElem? hn
      cases hrole

theorem Traced.steps {ops : List Operation} (h : b.Traced ops)
    (hsteps : Relation.ReflTransGen (Grows fun _ => True) b b') : b'.Traced ops := by
  induction hsteps with
  | refl => exact h
  | tail _ hstep ih => exact ih.grows hstep

theorem Traced.exchange {ops : List Operation} (h : b.Traced ops) {j index : Nat} {m : Node}
    {value : Signal} {input : Input} (hm : b.nodes[j]? = some m) (hkind : m.isParameter = false)
    (hindex : index < m.inputs.length) (hwire : b.wire m.className "input" value = .ok input) :
    Traced { b with nodes := b.nodes.set! j { m with inputs := m.inputs.set index input } }
      (ops ++ [.setInput j index value]) := by
  have h := h.mono (List.subset_append_left ops [.setInput j index value])
  intro id n hn hrole
  by_cases hj : j = id
  · subst hj
    obtain ⟨hsize, -⟩ := Array.getElem?_eq_some_iff.1 hm
    obtain rfl : n = { m with inputs := m.inputs.set index input } := by
      simpa [hsize, eq_comm] using hn
    obtain ⟨call, values, exchanged, hstems, hexchanged⟩ := h j m hm hrole
    have hstems := hstems.rewires hm hkind hindex hwire
    rw [if_pos rfl] at hstems
    refine ⟨call, values, _, hstems, List.forall_mem_cons.2 ⟨⟨value, ?_⟩, hexchanged⟩⟩
    exact List.mem_append_right _ List.mem_cons_self
  · have hold : b.nodes[id]? = some n := by
      simpa [Array.getElem?_setIfInBounds, hj] using hn
    obtain ⟨call, values, exchanged, hstems, hexchanged⟩ := h id n hold hrole
    have hstems := hstems.rewires hm hkind hindex hwire
    rw [if_neg hj] at hstems
    exact ⟨call, values, exchanged, hstems, hexchanged⟩

end Builder

theorem History.traced {ops : List Operation} {b : Builder} {known : List Outlet}
    (h : History ops b known) : b.Traced ops := by
  induction h with
  | start scope =>
    intro id n hn
    simp at hn
  | @step ops b known op hhistory hop ih =>
    by_cases hrewires : op.rewires = false
    · obtain ⟨hb, hknown⟩ := hhistory.knows hop
      have hsteps := (Operation.sound_action hrewires op.registers_true b hb hknown).steps
      exact (ih.mono (List.subset_append_left ops [op])).steps hsteps
    · cases op with
      | setInput id index value =>
        rw [Operation.after_setInput]
        rcases Build.setInput_cases b id index value with
          ⟨fault, hexec⟩ | ⟨n, input, hn, hkind, hindex, hwire, hexec⟩
        · rw [hexec]
          exact ih.mono (List.subset_append_left _ _)
        · rw [hexec]
          exact ih.exchange hn hkind hindex hwire
      | _ => exact absurd rfl hrewires

/-- Any outlet of the builder can be put into any slot of a generator. -/
theorem Build.exec_setInput_outlet {b : Builder} {id index : Nat} {n : Node} {p : Outlet}
    (hn : b.nodes[id]? = some n) (hrole : n.role = .generator) (hindex : index < n.inputs.length)
    (hscope : p.scope = b.scope) (hp : p.ugen < b.nodes.size) :
    (Build.setInput id index (.outlet p)).exec b = (.ok (), { b with
      nodes := b.nodes.set! id
        { n with inputs := n.inputs.set index (.node ⟨p.ugen, p.output⟩) } }) := by
  have hkind : n.isParameter = false := by rw [Node.isParameter, hrole]
  have hwire : b.wire n.className "input" (.outlet p) = .ok (.node ⟨p.ugen, p.output⟩) :=
    if_pos ⟨hscope, hp⟩
  simp only [setInput]
  rw [exec_bind, exec_get]
  simp only [hn]
  rw [if_neg (by simp [hkind]), if_neg (Nat.not_le.2 hindex), exec_bind, exec_lift, hwire]
  rfl

/-- In a builder that operations lead to, every generator stems from a call. A generator runs at the
rate of its call, and an outlet that feeds a slot has the rate that the declaration behind the slot
asks for, unless it was put there in exchange for another input. Such an exchange is never refused
for the rate of an outlet. -/
theorem slots_rated {ops : List Operation} {b : Builder} {known : List Outlet}
    (h : History ops b known) :
    (∀ id n, b.nodes[id]? = some n → n.role = .generator → ∃ call values exchanged,
      b.Stems id call values exchanged ∧ ∀ e ∈ exchanged, ∃ value, .setInput id e.1 value ∈ ops) ∧
    (∀ id call values exchanged, b.Stems id call values exchanged →
      ∃ n, b.nodes[id]? = some n ∧ n.className = call.descriptor.name ∧ n.rate = call.rate ∧
        n.inputs.length = (call.slotDecls values).length ∧
        ∀ i decl ref, (call.slotDecls values)[i]? = some decl →
          n.inputs[i]? = some (.node ref) → (i, .node ref) ∉ exchanged →
          ∃ source, b.nodes[ref.ugen]? = some source ∧
            (decl.check = .audioWhenAudio → n.rate = .audio → source.rate = .audio) ∧
            (decl.check = .notFaster →
              source.rate.index ≤ n.rate.index ∨ source.rate = .demand)) ∧
    ∀ id n index, b.nodes[id]? = some n → n.role = .generator → index < n.inputs.length →
      ∀ p ∈ known, p.scope = b.scope →
        (Build.setInput id index (.outlet p)).exec b = (.ok (), { b with
          nodes := b.nodes.set! id
            { n with inputs := n.inputs.set index (.node ⟨p.ugen, p.output⟩) } }) := by
  refine ⟨h.traced, ?_, ?_⟩
  · intro id call values exchanged hstems
    obtain ⟨n, hn, hrated⟩ := hstems.rated
    refine ⟨n, hn, hrated.className, hrated.rate, hrated.slots, ?_⟩
    intro i decl ref hdecl hinput hkept
    obtain ⟨source, hsource, hallows⟩ := hrated.checked i decl ref hdecl hinput hkept
    exact ⟨source, hsource, RateCheck.allows_iff.1 hallows⟩
  · intro id n index hn hrole hindex p hp hscope
    obtain ⟨-, hknown, -⟩ := h.sound fun op _ => op.registers_true
    obtain ⟨source, hsource, -⟩ := hknown p hp hscope
    exact Build.exec_setInput_outlet hn hrole hindex hscope
      (Array.getElem?_eq_some_iff.1 hsource).1

/-- A slew limiter of the caller; its sources are audio signals, and its time is no faster than
itself. -/
def slewDescriptor : Descriptor where
  name := "Slew"
  description := "Slew limiter"
  category := .filter
  inputs := [
    { required "source" with variadic := true, check := .audioWhenAudio },
    { required "time" with check := .notFaster }]
  rates := [.audio, .control]

/-- A limiter with two sources at audio rate and a time at control rate. -/
def slewCall : Call where
  descriptor := slewDescriptor
  rate := .audio
  args := [("source", .vector [.outlet ⟨0, 0, 0, .audio⟩, .outlet ⟨0, 0, 0, .audio⟩]),
    ("time", .outlet ⟨0, 1, 0, .control⟩)]

/-- The sources are taken as they are, so the call does not expand. -/
def slewValues : List Signal :=
  [.vector [.outlet ⟨0, 0, 0, .audio⟩, .outlet ⟨0, 0, 0, .audio⟩], .outlet ⟨0, 1, 0, .control⟩]

def slewNode : Node where
  className := "Slew"
  rate := .audio
  inputs := [.node ⟨0, 0⟩, .node ⟨0, 0⟩, .node ⟨1, 0⟩]
  keys := [⟨"source", some 0⟩, ⟨"source", some 1⟩, ⟨"time", none⟩]

def noiseOperations : List Operation :=
  [.register { descriptor := Catalog.whiteNoise, rate := .audio },
    .register { descriptor := Catalog.whiteNoise, rate := .control }]

def noiseBuilder : Builder := noiseOperations.foldl (fun b op => op.after b) { scope := 0 }

/-- The second source of the limiter is exchanged for one at control rate. -/
def slewOperations : List Operation :=
  noiseOperations ++ [.register slewCall, .setInput 2 1 (.outlet ⟨0, 1, 0, .control⟩)]

def slewBuilder : Builder := slewOperations.foldl (fun b op => op.after b) { scope := 0 }

theorem history_noiseBuilder : ∃ known, History noiseOperations noiseBuilder known ∧
    known = [⟨0, 0, 0, .audio⟩, ⟨0, 1, 0, .control⟩] :=
  ⟨_, history_of_admitted (by decide +kernel), by decide +kernel⟩

theorem history_slewBuilder : ∃ known, History slewOperations slewBuilder known :=
  ⟨_, history_of_admitted (by decide +kernel)⟩

theorem stems_slewBuilder : slewBuilder.Stems 2 slewCall slewValues [(1, .node ⟨1, 0⟩)] := by
  have hexpanded : slewCall.expanded = .ok [slewValues] := by
    rw [Call.expanded, show slewCall.arguments = .ok _ from rfl]
    show Expansion.expand "Slew" _ = _
    rw [Expansion.expand]
    rfl
  have hplan : noiseBuilder.plan slewCall = .ok [slewNode] := by decide +kernel
  have hknown : ∀ p ∈ slewCall.outlets, noiseBuilder.Knows p := by
    obtain ⟨known, h, rfl⟩ := history_noiseBuilder
    exact fun p hp => (h.sound fun op _ => op.registers_true).2.1 p (by revert p; decide)
  have hnode : (noiseBuilder.append [slewNode]).nodes[2]? = some slewNode := by decide +kernel
  have hwire : (noiseBuilder.append [slewNode]).wire "Slew" "input"
      (.outlet ⟨0, 1, 0, .control⟩) = .ok (.node ⟨1, 0⟩) := by decide +kernel
  have hstems : (noiseBuilder.append [slewNode]).Stems 2 slewCall slewValues [] :=
    .register (k := 0) hknown hexpanded hplan rfl (by decide +kernel)
  have hstems := hstems.rewires hnode rfl (show 1 < slewNode.inputs.length by decide) hwire
  have hregister : (Operation.register slewCall).after noiseBuilder =
      noiseBuilder.append [slewNode] := by
    rw [Operation.after, Operation.action, Build.exec_register, hplan]
  have hbuilder : slewBuilder = (Operation.setInput 2 1 (.outlet ⟨0, 1, 0, .control⟩)).after
      ((Operation.register slewCall).after noiseBuilder) := rfl
  rw [hbuilder, hregister, Operation.after_setInput,
    Build.exec_setInput_outlet hnode rfl (by decide) (by decide +kernel) (by decide +kernel)]
  exact hstems

/-- The other source and the time are still as declared. -/
theorem slewBuilder_rated : (∃ known, History slewOperations slewBuilder known) ∧
    ∃ n, slewBuilder.nodes[2]? = some n ∧ n.inputs = [.node ⟨0, 0⟩, .node ⟨1, 0⟩, .node ⟨1, 0⟩] ∧
      (∃ source, slewBuilder.nodes[0]? = some source ∧ source.rate = .audio) ∧
      ∃ source, slewBuilder.nodes[1]? = some source ∧
        (source.rate.index ≤ n.rate.index ∨ source.rate = .demand) := by
  obtain ⟨known, h⟩ := history_slewBuilder
  obtain ⟨n, hn, -, hrate, -, hchecked⟩ := (slots_rated h).2.1 _ _ _ _ stems_slewBuilder
  have hinputs : n.inputs = [.node ⟨0, 0⟩, .node ⟨1, 0⟩, .node ⟨1, 0⟩] := by
    have hget : (slewBuilder.nodes[2]?.map (·.inputs)) =
      some [.node ⟨0, 0⟩, .node ⟨1, 0⟩, .node ⟨1, 0⟩] := by decide +kernel
    rw [hn] at hget
    exact Option.some.inj hget
  refine ⟨⟨known, h⟩, n, hn, hinputs, ?_, ?_⟩
  · obtain ⟨source, hsource, haudio, -⟩ :=
      hchecked 0 _ ⟨0, 0⟩ rfl (by rw [hinputs]; rfl) (by decide)
    exact ⟨source, hsource, haudio rfl hrate⟩
  · obtain ⟨source, hsource, -, hslow⟩ :=
      hchecked 2 _ ⟨1, 0⟩ rfl (by rw [hinputs]; rfl) (by decide)
    exact ⟨source, hsource, hslow rfl⟩

/-- The second source passed the check when the limiter was registered, and it does not any more. -/
theorem slewBuilder_unrated : (∃ known, History slewOperations slewBuilder known) ∧
    slewBuilder.Stems 2 slewCall slewValues [(1, .node ⟨1, 0⟩)] ∧
    ((slewCall.slotDecls slewValues)[1]?.map (·.check)) = some .audioWhenAudio ∧
    (slewBuilder.nodes[2]?.map fun n => (n.rate, n.inputs[1]?)) =
      some (.audio, some (.node ⟨1, 0⟩)) ∧
    (slewBuilder.nodes[1]?.map (·.rate)) = some .control :=
  ⟨history_slewBuilder, stems_slewBuilder, by decide +kernel, by decide +kernel, by decide +kernel⟩

end SynthGraph
