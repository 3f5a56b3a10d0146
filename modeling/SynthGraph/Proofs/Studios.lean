import SynthGraph.Proofs.Reachability
import SynthGraph.Studio

/-!
# Builders side by side

A caller may keep any number of builders, nest the active ones, and hand the signals of one to
another. A `Studio.Session` is what was done and which outlets were given out. An operation gives
out an outlet of another builder only if it was given that outlet, so whatever a caller holds of a
builder was given out by that builder: each one is reachable as if it were alone, and its arena is
intact. A command works on one builder at most, and of the nodes there it touches at most the input
slot that it names.
-/

namespace SynthGraph

/-! ## Arenas -/

namespace Builder

/-- The arena is in order: references name outputs that exist, every input has its key, and
parameters have distinct short names and at least one value. -/
structure Intact (b : Builder) : Prop where
  inputs : ∀ n ∈ b.nodes, ∀ ref, Input.node ref ∈ n.inputs →
    ∃ source, b.nodes[ref.ugen]? = some source ∧ ref.output < source.outputs
  keys : ∀ n ∈ b.nodes, n.keys.length = n.inputs.length
  names : (b.parameters.map (·.name)).Nodup
  parameters : ∀ p ∈ b.parameters, p.name.utf8ByteSize ≤ 255 ∧ p.values ≠ []

theorem length_keys_of_node {b : Builder} {call : Call} {values : List Signal} {n : Node}
    (h : b.node call values = .ok n) : n.keys.length = n.inputs.length := by
  obtain ⟨slots, -, h⟩ := except_bind_eq_ok.1 h
  cases h
  rw [List.length_map, List.length_map]

theorem Reachable.length_keys {b : Builder} (hb : b.Reachable) :
    ∀ n ∈ b.nodes, n.keys.length = n.inputs.length := by
  obtain ⟨ops, known, h⟩ := hb
  refine h.invariant (fun op _ => op.registers_true)
    (P := fun b => ∀ n ∈ b.nodes, n.keys.length = n.inputs.length) (fun _ n hn => by simp at hn)
    fun b b' hstep ih => hstep.forall_mem ih ?_ (fun p => rfl) ?_
  · exact fun call values n _ _ hnode => length_keys_of_node hnode
  · exact fun n inputs hlength hn => hn.trans hlength.symm

theorem Reachable.intact {b : Builder} (hb : b.Reachable) : b.Intact where
  inputs n hn ref href := hb.wellFormed.refs n hn ref (Node.mem_refs.2 href)
  keys := hb.length_keys
  names := hb.nodup_names
  parameters p hp := by
    obtain ⟨n, hn, hparam⟩ := List.mem_filterMap.1 hp
    exact ⟨hb.size_names_le p hp, (hb.wellFormed.placeholder (Array.mem_toList_iff.1 hn) hparam).2⟩

/-- Every node of the first builder is still there in the second, and is the same but for the input
at the slot, if one is given. -/
structure Keeps (slot? : Option Slot) (b b' : Builder) : Prop where
  scope : b'.scope = b.scope
  node : ∀ (id : Nat) (n : Node), b.nodes[id]? = some n → ∃ n', b'.nodes[id]? = some n' ∧
    (n' = n ∨ ∃ slot ∈ slot?, slot.ugen = id ∧
      ∃ input, n' = { n with inputs := n.inputs.set slot.index input })

variable {b b' : Builder} {slot? : Option Slot}

theorem Keeps.refl (slot? : Option Slot) (b : Builder) : b.Keeps slot? b :=
  ⟨rfl, fun _ n hn => ⟨n, hn, .inl rfl⟩⟩

/-- Builders that only grow keep every node as it is. -/
theorem keeps_of_grows {extra : Descriptor → Prop} (slot? : Option Slot)
    (h : Relation.ReflTransGen (Grows extra) b b') : b.Keeps slot? b' := by
  have hsame : b'.scope = b.scope ∧
      ∀ (id : Nat) (n : Node), b.nodes[id]? = some n → b'.nodes[id]? = some n := by
    induction h with
    | refl => exact ⟨rfl, fun _ _ hn => hn⟩
    | tail _ hstep ih =>
      obtain ⟨nodes, rfl⟩ := hstep.exists_append
      exact ⟨ih.1, fun id n hn => getElem?_append (ih.2 id n hn) nodes⟩
  exact ⟨hsame.1, fun id n hn => ⟨n, hsame.2 id n hn, .inl rfl⟩⟩

theorem keeps_exchange {id index : Nat} {n : Node} (hn : b.nodes[id]? = some n) (input : Input) :
    b.Keeps (some ⟨id, index⟩)
      { b with nodes := b.nodes.set! id { n with inputs := n.inputs.set index input } } := by
  refine ⟨rfl, fun j m hm => ?_⟩
  by_cases hid : id = j
  · subst hid
    obtain rfl := Option.some.inj (hn.symm.trans hm)
    obtain ⟨hlt, -⟩ := Array.getElem?_eq_some_iff.1 hn
    exact ⟨_, by simp [hlt], .inr ⟨_, rfl, rfl, input, rfl⟩⟩
  · exact ⟨m, by simpa [Array.getElem?_setIfInBounds, hid] using hm, .inl rfl⟩

end Builder

namespace Operation

/-- The input slot the operation names, if it exchanges an input. -/
def slot? : Operation → Option Slot
  | setInput id index _ => some ⟨id, index⟩
  | _ => none

theorem after_setInput (id index : Nat) (value : Signal) (b : Builder) :
    (setInput id index value).after b = ((Build.setInput id index value).exec b).2 := by
  simp only [after, action]
  rw [Build.exec_bind]
  rcases (Build.setInput id index value).exec b with ⟨_ | _, b'⟩ <;> rfl

end Operation

namespace History

variable {ops : List Operation} {b : Builder} {known : List Outlet} {op : Operation}

theorem knows (h : History ops b known)
    (hop : ∀ p ∈ op.outlets, p ∈ known ∨ p.scope ≠ b.scope) :
    b.WellFormed ∧ ∀ p ∈ op.outlets, b.Knows p := by
  obtain ⟨hb, hknown, -⟩ := h.sound fun op _ => op.registers_true
  exact ⟨hb, fun p hp => (hop p hp).elim (hknown p) fun hs he => absurd he hs⟩

theorem outcome (h : History ops b known)
    (hop : ∀ p ∈ op.outlets, p ∈ known ∨ p.scope ≠ b.scope) :
    Build.Outcome (Builder.Changes fun _ => True) op.outlets Signal.outlets b
      (op.action.exec b) :=
  Operation.outcome_action op.registers_true (h.knows hop).1 (h.knows hop).2

/-- What an operation gives out is of its builder, or it was given to the operation. -/
theorem origin_given (h : History ops b known)
    (hop : ∀ p ∈ op.outlets, p ∈ known ∨ p.scope ≠ b.scope) {p : Outlet} (hp : p ∈ op.given b) :
    p ∈ op.outlets ∨ p.scope = b.scope := by
  unfold Operation.given at hp
  split at hp
  · next s hs => exact (h.outcome hop).origin s hs p hp
  · cases hp

theorem keeps_after (h : History ops b known)
    (hop : ∀ p ∈ op.outlets, p ∈ known ∨ p.scope ≠ b.scope) : b.Keeps op.slot? (op.after b) := by
  by_cases hrewires : op.rewires = false
  · obtain ⟨hb, hknown⟩ := h.knows hop
    have hsound := Operation.sound_action hrewires op.registers_true
    exact Builder.keeps_of_grows _ (hsound b hb hknown).steps
  · cases op with
    | setInput id index value =>
      rw [Operation.after_setInput]
      rcases Build.setInput_cases b id index value with
        ⟨fault, hexec⟩ | ⟨n, input, hn, -, -, -, hexec⟩
      · rw [hexec]
        exact .refl _ b
      · rw [hexec]
        exact Builder.keeps_exchange hn input
    | _ => exact absurd rfl hrewires

end History

/-! ## Sessions -/

namespace Studio

/-- What a caller can do. A clone of a builder is the same builder, so builders go by position. -/
inductive Command where
  | addBuilder
  | enter (b : Nat)
  | leave (guard : Nat)
  | run (b : Nat) (op : Operation)
  /-- The operation works on the innermost active builder. -/
  | runActive (op : Operation)

namespace Command

/-- The builder a command names. -/
def builder? : Command → Option Nat
  | enter b | run b _ => some b
  | _ => none

def operation? : Command → Option Operation
  | run _ op | runActive op => some op
  | _ => none

/-- The operation of a command, with the builder it works on. -/
def task? (s : Studio) : Command → Option (Nat × Operation)
  | run b op => some (b, op)
  | runActive op => s.active.head?.map (·, op)
  | _ => none

/-- What the command does; one that is no operation gives no channels. -/
def perform (s : Studio) : Command → Except Fault Signal × Studio
  | addBuilder => (.ok (.vector []), s.addBuilder.2)
  | enter b => (.ok (.vector []), (s.enter b).2)
  | leave guard => (.ok (.vector []), (s.leave? guard).getD s)
  | run b op => s.run b op.action
  | runActive op => s.runActive op.action

/-- The studio after the command. -/
def after (c : Command) (s : Studio) : Studio := (c.perform s).2

/-- The outlets the caller gets. -/
def given (c : Command) (s : Studio) : List Outlet :=
  match (c.perform s).1 with
  | .ok signal => signal.outlets
  | .error _ => []

/-- The input slot of builder `i` that the command names, if it exchanges an input there. -/
def slot? (c : Command) (s : Studio) (i : Nat) : Option Slot :=
  (c.task? s).bind fun (b, op) => if b = i then op.slot? else none

/-- The caller has the builder and the outlets that the command uses. -/
structure Possible (s : Studio) (known : List Outlet) (c : Command) : Prop where
  builder : ∀ b ∈ c.builder?, b < s.builders.size
  outlets : ∀ op ∈ c.operation?, op.outlets ⊆ known

instance (s : Studio) (known : List Outlet) (c : Command) : Decidable (c.Possible s known) :=
  decidable_of_iff ((∀ b ∈ c.builder?, b < s.builders.size) ∧
    ∀ op ∈ c.operation?, op.outlets ⊆ known) ⟨fun h => ⟨h.1, h.2⟩, fun h => ⟨h.1, h.2⟩⟩

end Command

/-- The commands lead from an empty studio to `s`, and have given out the outlets `known`. -/
inductive Session : List Command → Studio → List Outlet → Prop
  | start : Session [] {} []
  | step {commands : List Command} {s : Studio} {known : List Outlet} (c : Command)
      (h : Session commands s known) (hc : c.Possible s known) :
      Session (commands ++ [c]) (c.after s) (known ++ c.given s)

/-- Every builder has a history of its own that gave out all the known outlets of its scope. -/
structure Tracked (s : Studio) (known : List Outlet) : Prop where
  builders : ∀ i b, s.builders[i]? = some b → b.scope = i ∧
    ∃ ops own, History ops b own ∧ ∀ p ∈ known, p.scope = i → p ∈ own
  issued : ∀ p ∈ known, p.scope < s.builders.size
  active : ∀ i ∈ s.active, i < s.builders.size

namespace Command

variable {s : Studio} {known : List Outlet} {c : Command}

/-- A command that works on builder `i` is `op` done there, and leaves everything else alone. -/
structure Does (c : Command) (s : Studio) (i : Nat) (op : Operation) (b : Builder) : Prop where
  builder : s.builders[i]? = some b
  builders : (c.after s).builders = s.builders.set! i (op.after b)
  active : (c.after s).active = s.active
  given : c.given s = op.given b

theorem does_run {i : Nat} {op : Operation} {b : Builder} (hb : s.builders[i]? = some b) :
    (run i op).Does s i op b := by
  have hget : s.builders.getD i { scope := i } = b := by
    rw [Array.getD_eq_getD_getElem?, hb, Option.getD_some]
  have hperform : (run i op).perform s =
      ((op.action.exec b).1, { s with builders := s.builders.set! i (op.action.exec b).2 }) := by
    simp only [perform, Studio.run, hget]
    rfl
  refine ⟨hb, ?_, ?_, ?_⟩
  · rw [after, hperform]
    rfl
  · rw [after, hperform]
  · rw [given, hperform]
    rfl

/-- A command with a task does it, where the builder of the task exists. -/
theorem does_of_task? {i : Nat} {op : Operation} {b : Builder} (h : c.task? s = some (i, op))
    (hb : s.builders[i]? = some b) : c.Does s i op b := by
  cases c with
  | run j op' =>
    obtain ⟨rfl, rfl⟩ : j = i ∧ op' = op := by simpa [task?] using h
    exact does_run hb
  | runActive op' =>
    obtain ⟨j, hj, hop⟩ := Option.map_eq_some_iff.1 h
    obtain ⟨rfl, rfl⟩ : j = i ∧ op' = op := by simpa using hop
    obtain ⟨rest, hactive⟩ := List.head?_eq_some_iff.1 hj
    have hsame : (runActive op').perform s = (run j op').perform s := by
      simp only [perform, Studio.runActive, current, hactive]
    have hrun : (run j op').Does s j op' b := does_run hb
    refine ⟨hb, ?_, ?_, ?_⟩
    · rw [after, hsame]
      exact hrun.builders
    · rw [after, hsame]
      exact hrun.active
    · rw [given, hsame]
      exact hrun.given
  | _ => cases h

/-- A command without a task leaves the builders alone, except that it may add an empty one. -/
theorem perform_of_no_task (h : c.task? s = none) : c.given s = [] ∧
    ((c.after s).builders = s.builders ∨
      (c.after s).builders = s.builders.push { scope := s.builders.size }) := by
  cases c with
  | addBuilder => exact ⟨rfl, .inr rfl⟩
  | enter b => exact ⟨rfl, .inl rfl⟩
  | leave guard =>
    refine ⟨rfl, .inl ?_⟩
    simp only [after, perform, leave?]
    split <;> rfl
  | run b op => cases h
  | runActive op =>
    have hactive : s.active = [] := by simpa [task?] using h
    have hperform : (runActive op).perform s = (.error .noActiveBuilder, s) := by
      simp only [perform, Studio.runActive, current, hactive]
    rw [given, after, hperform]
    exact ⟨rfl, .inl rfl⟩

/-- Active builders are those that were entered. -/
theorem mem_active_after {i : Nat} (h : i ∈ (c.after s).active) :
    i ∈ s.active ∨ i ∈ c.builder? := by
  cases c with
  | addBuilder => exact .inl h
  | enter b => exact (List.mem_cons.1 h).symm.imp_right fun he => congrArg some he.symm
  | leave guard =>
    simp only [after, perform, leave?] at h
    split at h
    · exact .inl (List.mem_of_mem_tail h)
    · exact .inl h
  | run b op => exact .inl h
  | runActive op =>
    simp only [after, perform, Studio.runActive] at h
    split at h <;> exact .inl h

theorem mem_operation?_of_task? {i : Nat} {op : Operation} (h : c.task? s = some (i, op)) :
    op ∈ c.operation? := by
  cases c with
  | run j op' =>
    obtain ⟨-, rfl⟩ : j = i ∧ op' = op := by simpa [task?] using h
    rfl
  | runActive op' =>
    obtain ⟨j, -, hop⟩ := Option.map_eq_some_iff.1 h
    cases hop
    rfl
  | _ => cases h

end Command

namespace Tracked

variable {s : Studio} {known : List Outlet} {c : Command}

theorem lt_of_task? (hs : s.Tracked known) (hc : c.Possible s known) {i : Nat} {op : Operation}
    (h : c.task? s = some (i, op)) : i < s.builders.size := by
  cases c with
  | run j op' =>
    obtain ⟨rfl, -⟩ : j = i ∧ op' = op := by simpa [Command.task?] using h
    exact hc.builder j rfl
  | runActive op' =>
    obtain ⟨j, hj, hop⟩ := Option.map_eq_some_iff.1 h
    cases hop
    exact hs.active i (List.mem_of_mem_head? hj)
  | _ => cases h

/-- The outlets of an operation that are of its builder were given out by this builder. -/
theorem own_outlets (hc : c.Possible s known) {i : Nat} {op : Operation} {b : Builder}
    {own : List Outlet} (htask : c.task? s = some (i, op)) (hscope : b.scope = i)
    (hown : ∀ p ∈ known, p.scope = i → p ∈ own) :
    ∀ p ∈ op.outlets, p ∈ own ∨ p.scope ≠ b.scope := by
  intro p hp
  by_cases hi : p.scope = i
  · exact .inl (hown p (hc.outlets op (Command.mem_operation?_of_task? htask) hp) hi)
  · exact .inr fun h => hi (h.trans hscope)

theorem after_operation (hs : s.Tracked known) (hc : c.Possible s known) {i : Nat} {op : Operation}
    {b : Builder} (htask : c.task? s = some (i, op)) (hdoes : c.Does s i op b) :
    (c.after s).Tracked (known ++ c.given s) := by
  obtain ⟨hscope, ops, own, hhistory, hown⟩ := hs.builders i b hdoes.builder
  have hop := own_outlets hc htask hscope hown
  have hlt := (Array.getElem?_eq_some_iff.1 hdoes.builder).1
  -- an outlet that is new to the caller is of the builder that was worked on
  have horigin : ∀ p ∈ known ++ c.given s, p ∈ known ∨ p ∈ op.given b ∧ p.scope = i := by
    intro p hp
    rw [hdoes.given] at hp
    rcases List.mem_append.1 hp with hp | hp
    · exact .inl hp
    · rcases hhistory.origin_given hop hp with hgiven | hnew
      · exact .inl (hc.outlets op (Command.mem_operation?_of_task? htask) hgiven)
      · exact .inr ⟨hp, hnew.trans hscope⟩
  constructor
  case builders =>
    intro j b' hb'
    rw [hdoes.builders, Array.set!_eq_setIfInBounds, Array.getElem?_setIfInBounds] at hb'
    split at hb'
    · next hij =>
      subst hij
      cases hb'
      refine ⟨(hhistory.outcome hop).extended.scope.trans hscope, _, _, .step op hhistory hop,
        fun p hp hpi => ?_⟩
      rcases horigin p hp with hold | hnew
      · exact List.mem_append_left _ (hown p hold hpi)
      · exact List.mem_append_right _ hnew.1
    · next hij =>
      obtain ⟨hscope', ops', own', hhistory', hown'⟩ := hs.builders j b' hb'
      refine ⟨hscope', ops', own', hhistory', fun p hp hpj => ?_⟩
      rcases horigin p hp with hold | hnew
      · exact hown' p hold hpj
      · exact absurd (hnew.2.symm.trans hpj) hij
  case issued =>
    intro p hp
    rw [hdoes.builders, Array.set!_eq_setIfInBounds, Array.size_setIfInBounds]
    rcases horigin p hp with hold | hnew
    · exact hs.issued p hold
    · exact hnew.2 ▸ hlt
  case active =>
    rw [hdoes.active, hdoes.builders, Array.set!_eq_setIfInBounds, Array.size_setIfInBounds]
    exact hs.active

theorem after (hs : s.Tracked known) (hc : c.Possible s known) :
    (c.after s).Tracked (known ++ c.given s) := by
  cases htask : c.task? s with
  | some task =>
    obtain ⟨i, op⟩ := task
    have hb := Array.getElem?_eq_getElem (hs.lt_of_task? hc htask)
    exact hs.after_operation hc htask (Command.does_of_task? htask hb)
  | none =>
    obtain ⟨hgiven, hbuilders⟩ := Command.perform_of_no_task htask
    have hsize : s.builders.size ≤ (c.after s).builders.size := by
      rcases hbuilders with h | h
      · exact Nat.le_of_eq (congrArg Array.size h.symm)
      · rw [h, Array.size_push]
        omega
    rw [hgiven, List.append_nil]
    constructor
    case builders =>
      intro i b hb
      rcases hbuilders with h | h
      · exact hs.builders i b (h ▸ hb)
      · rw [h, Array.getElem?_push] at hb
        split at hb
        · next hi =>
          cases hb
          refine ⟨hi.symm, [], [], .start _, fun p hp hpi => ?_⟩
          have := hs.issued p hp
          omega
        · exact hs.builders i b hb
    case issued => exact fun p hp => Nat.lt_of_lt_of_le (hs.issued p hp) hsize
    case active =>
      intro i hi
      rcases Command.mem_active_after hi with hold | hnew
      · exact Nat.lt_of_lt_of_le (hs.active i hold) hsize
      · exact Nat.lt_of_lt_of_le (hc.builder i hnew) hsize

/-- A command keeps every builder, up to the slot that it names there. -/
theorem keeps (hs : s.Tracked known) (hc : c.Possible s known) {i : Nat} {b : Builder}
    (hb : s.builders[i]? = some b) :
    ∃ b', (c.after s).builders[i]? = some b' ∧ b.Keeps (c.slot? s i) b' := by
  cases htask : c.task? s with
  | some task =>
    obtain ⟨j, op⟩ := task
    have hj := Array.getElem?_eq_getElem (hs.lt_of_task? hc htask)
    have hdoes := Command.does_of_task? htask hj
    obtain ⟨hscope, ops, own, hhistory, hown⟩ := hs.builders j _ hj
    rw [hdoes.builders, Array.set!_eq_setIfInBounds, Array.getElem?_setIfInBounds]
    by_cases hij : j = i
    · subst hij
      obtain rfl := Option.some.inj (hj.symm.trans hb)
      have hslot : c.slot? s j = op.slot? := by simp [Command.slot?, htask]
      rw [hslot]
      refine ⟨_, ?_, hhistory.keeps_after (own_outlets hc htask hscope hown)⟩
      rw [if_pos rfl, if_pos (hs.lt_of_task? hc htask)]
    · exact ⟨b, by rw [if_neg hij, hb], .refl _ b⟩
  | none =>
    refine ⟨b, ?_, .refl _ b⟩
    rcases (Command.perform_of_no_task htask).2 with h | h
    · rw [h, hb]
    · have hne : i ≠ s.builders.size := Nat.ne_of_lt (Array.getElem?_eq_some_iff.1 hb).1
      rw [h, Array.getElem?_push, if_neg hne, hb]

end Tracked

theorem Session.tracked {commands : List Command} {s : Studio} {known : List Outlet}
    (h : Session commands s known) : s.Tracked known := by
  induction h with
  | start => exact ⟨by simp, by simp, fun i hi => by cases hi⟩
  | step c _ hc ih => exact ih.after hc

/-- Whatever is done with any number of builders, the arena of each one is intact, and no command
takes a node away or changes one, up to the one input slot that an exchange of an input names. -/
theorem session_intact {commands : List Command} {s : Studio} {known : List Outlet}
    (h : Session commands s known) :
    (∀ b ∈ s.builders, b.Intact) ∧
      ∀ c : Command, c.Possible s known → ∀ (i : Nat) (b : Builder), s.builders[i]? = some b →
        ∃ b', (c.after s).builders[i]? = some b' ∧ b.Keeps (c.slot? s i) b' := by
  refine ⟨fun b hb => ?_, fun c hc i b hb => h.tracked.keeps hc hb⟩
  obtain ⟨i, hi⟩ := Array.getElem?_of_mem hb
  obtain ⟨-, ops, own, hhistory, -⟩ := h.tracked.builders i b hi
  exact Builder.Reachable.intact ⟨ops, own, hhistory⟩

/-- Two builders. The second one, which is active, is refused a signal of the first one as an
input, hands it back where it only passes through, and then registers an oscillator. -/
def duetCommands : List Command :=
  [.addBuilder, .addBuilder,
    .run 0 (.addParameter { name := "pan", values := [0, 1] }),
    .enter 1,
    .runActive (.register {
      descriptor := Catalog.sinOsc, rate := .audio
      args := [("frequency", .outlet ⟨0, 0, 1, .control⟩)] }),
    .runActive (.mulAdd (.constant 1) (.constant 0) (.outlet ⟨0, 0, 1, .control⟩)),
    .runActive (.register { descriptor := Catalog.sinOsc, rate := .audio })]

def duetStudio : Studio := duetCommands.foldl (fun s c => c.after s) {}

/-- The outlets that were given out; the second channel of the parameter comes twice. -/
def duetOutlets : List Outlet :=
  [⟨0, 0, 0, .control⟩, ⟨0, 0, 1, .control⟩, ⟨0, 0, 1, .control⟩, ⟨1, 0, 0, .audio⟩]

theorem exists_session_duetStudio : ∃ commands, Session commands duetStudio duetOutlets := by
  have h : ∃ commands known, Session commands duetStudio known ∧ known = duetOutlets :=
    ⟨_, _, .step _ (.step _ (.step _ (.step _ (.step _ (.step _ (.step _ .start
      (by decide +kernel)) (by decide +kernel)) (by decide +kernel)) (by decide +kernel))
      (by decide +kernel)) (by decide +kernel)) (by decide +kernel), by decide +kernel⟩
  obtain ⟨commands, _, hsession, rfl⟩ := h
  exact ⟨commands, hsession⟩

/-- The exchange of the frequency of the oscillator names one slot of the second builder. -/
theorem duetStudio_intact :
    (∃ commands, Session commands duetStudio duetOutlets) ∧
    duetStudio.builders.map (·.nodes.size) = #[1, 1] ∧
    (∀ b ∈ duetStudio.builders, b.Intact) ∧
    ∃ c : Command, c.Possible duetStudio duetOutlets ∧
      c.slot? duetStudio 0 = none ∧ c.slot? duetStudio 1 = some ⟨0, 0⟩ ∧
      ∀ (i : Nat) (b : Builder), duetStudio.builders[i]? = some b →
        ∃ b', (c.after duetStudio).builders[i]? = some b' ∧ b.Keeps (c.slot? duetStudio i) b' := by
  obtain ⟨commands, hsession⟩ := exists_session_duetStudio
  obtain ⟨hintact, hkeeps⟩ := session_intact hsession
  have hpossible : (Command.runActive (.setInput 0 0 (.outlet ⟨1, 0, 0, .audio⟩))).Possible
      duetStudio duetOutlets := by
    decide +kernel
  exact ⟨⟨commands, hsession⟩, by decide +kernel, hintact, _, hpossible, by decide +kernel,
    by decide +kernel, hkeeps _ hpossible⟩

end Studio

end SynthGraph
