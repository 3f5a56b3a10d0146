import SynthGraph.Proofs.Building

/-!
# Operators step by step

An operator on scalars takes one of five steps. It folds constants, gives back a signal that exists,
asks another operator, registers one node, or does two operators one after the other. `Request.step`
says which, and `action_step` that this is what the operator does. Whatever is asked is of a lower
rank, so a property of all operators is proved by looking at one step (`Request.induction`). A node
is registered with one input for each operand (`plan_call_iff`).
-/

namespace SynthGraph

/-- An operator on scalars. -/
inductive Request where
  | unary (op : UnaryOperator) (x : Signal)
  | binary (op : BinaryOperator) (x y : Signal)
  | mulAdd (source multiplier addend : Signal)
  | sum3 (x y z : Signal)
  | sum4 (x y z w : Signal)

/-- One step of an operator. -/
inductive Step where
  /-- The operands are constants and so is the result. -/
  | folds (value : Single)
  | gives (s : Signal)
  | asks (r : Request)
  /-- The call of this operator is registered as it is. -/
  | registers (r : Request)
  | chains (first : Request) (rest : Signal → Request)

namespace Request

def action : Request → Build Signal
  | unary op x => Build.unaryScalar op x
  | binary op x y => Build.binaryScalar op x y
  | mulAdd x y z => Build.mulAddScalar x y z
  | sum3 x y z => Build.sum3Scalar x y z
  | sum4 x y z w => Build.sum4Scalar x y z w

def operands : Request → List Signal
  | unary _ x => [x]
  | binary _ x y => [x, y]
  | mulAdd x y z | sum3 x y z => [x, y, z]
  | sum4 x y z w => [x, y, z, w]

/-- The operands in the order of the inputs they feed. -/
def values : Request → List Signal
  | sum3 x y z => Build.byRate [x, y, z]
  | sum4 x y z w => Build.byRate [x, y, z, w]
  | r => r.operands

/-- The call that stands for the operator if nothing simplifies it. -/
def call : Request → Call
  | unary op x => {
      descriptor := Catalog.unaryOpUGen, rate := x.rate
      args := [("source", x)], special := op.index.toUInt16 }
  | binary op x y => {
      descriptor := Catalog.binaryOpUGen, rate := x.rate.join y.rate
      args := [("left", x), ("right", y)], special := op.index.toUInt16 }
  | mulAdd x y z => {
      descriptor := Catalog.mulAdd, rate := .promote [x.rate, y.rate, z.rate]
      args := [("source", x), ("multiplier", y), ("addend", z)] }
  | sum3 x y z => {
      descriptor := Catalog.sum3, rate := .promote [x.rate, y.rate, z.rate]
      args := ["input_one", "input_two", "input_three"].zip (Build.byRate [x, y, z]) }
  | sum4 x y z w => {
      descriptor := Catalog.sum4, rate := .promote [x.rate, y.rate, z.rate, w.rate]
      args := ["input_one", "input_two", "input_three", "input_four"].zip
        (Build.byRate [x, y, z, w]) }

/-- The request is for the sum of its operands. -/
def IsSum : Request → Prop
  | binary .addition _ _ | sum3 .. | sum4 .. => True
  | _ => False

/-- An operator asks for others of a lower rank only. -/
def rank : Request → Nat
  | unary .. => 0
  | binary .. => 1
  | sum3 .. => 2
  | sum4 .. => 3
  | mulAdd .. => 4

/-! ## Steps -/

/-- The step that an identity of a binary operator allows. -/
def shortcut? (op : BinaryOperator) (x y : Signal) : Option Step :=
  match op with
  | .multiplication =>
    if x.isConstant 0 || y.isConstant 0 then some (.gives (.constant 0))
    else if x.isConstant 1 then some (.gives y)
    else if x.isConstant (-1) then some (.asks (unary .negative y))
    else if y.isConstant 1 then some (.gives x)
    else if y.isConstant (-1) then some (.asks (unary .negative x))
    else none
  | .addition =>
    if x.isConstant 0 then some (.gives y)
    else if y.isConstant 0 then some (.gives x)
    else none
  | .subtraction =>
    if x.isConstant 0 then some (.asks (unary .negative y))
    else if y.isConstant 0 then some (.gives x)
    else none
  | .floatDivision =>
    if y.isConstant 1 then some (.gives x)
    else if y.isConstant (-1) then some (.asks (unary .negative x))
    else none
  | _ => none

def step : Request → Step
  | unary op x =>
    match x.asConstant.bind op.foldConstant with
    | some value => .folds value
    | none => .registers (unary op x)
  | binary op x y =>
    match Build.folded? op x y with
    | some value => .folds value
    | none => (shortcut? op x y).getD (.registers (binary op x y))
  | mulAdd x y z =>
    if y.isConstant 0 then .gives z
    else if y.isConstant 1 && z.isConstant 0 then .gives x
    else if y.isConstant (-1) && z.isConstant 0 then .asks (unary .negative x)
    else if z.isConstant 0 then .asks (binary .multiplication x y)
    else if y.isConstant (-1) then .asks (binary .subtraction z x)
    else if y.isConstant 1 then .asks (binary .addition x z)
    else if Build.fusable x y z then .registers (mulAdd x y z)
    else if Build.fusable y x z then .registers (mulAdd y x z)
    else .chains (binary .multiplication x y) (binary .addition · z)
  | sum3 x y z =>
    if z.isConstant 0 then .asks (binary .addition x y)
    else if y.isConstant 0 then .asks (binary .addition x z)
    else if x.isConstant 0 then .asks (binary .addition y z)
    else .registers (sum3 x y z)
  | sum4 x y z w =>
    if x.isConstant 0 then .asks (sum3 y z w)
    else if y.isConstant 0 then .asks (sum3 x z w)
    else if z.isConstant 0 then .asks (sum3 x y w)
    else if w.isConstant 0 then .asks (sum3 x y z)
    else .registers (sum4 x y z w)

end Request

def Step.action : Step → Build Signal
  | folds value => return .constant value
  | gives s => return s
  | asks r => r.action
  | registers r => Build.register r.call
  | chains first rest => do
    let s ← first.action
    (rest s).action

/-- All that the step works on are operands of the request, or what it has made of them. -/
def Step.Within (r : Request) : Step → Prop
  | folds _ => True
  | gives s => s ∈ r.operands ∨ ∃ value, s = .constant value
  | asks r' => r'.rank < r.rank ∧ r'.operands ⊆ r.operands
  | registers r' => r'.operands ⊆ r.operands
  | chains first rest => (first.rank < r.rank ∧ first.operands ⊆ r.operands) ∧
      ∀ s, (rest s).rank < r.rank ∧ (rest s).operands ⊆ s :: r.operands

namespace Request

theorem identity?_eq (op : BinaryOperator) (x y : Signal) :
    Build.identity? op x y = (shortcut? op x y).map Step.action := by
  cases op with
  | multiplication | addition | subtraction | floatDivision =>
    simp only [Build.identity?, shortcut?, apply_ite (Option.map Step.action)]
    rfl
  | _ => rfl

/-- An operator does what its step says. -/
theorem action_step (r : Request) : r.step.action = r.action := by
  cases r with
  | unary op x =>
    simp only [step, action, Build.unaryScalar]
    cases x.asConstant.bind op.foldConstant <;> rfl
  | binary op x y =>
    simp only [step, action, Build.binaryScalar, identity?_eq]
    cases Build.folded? op x y with
    | some value => rfl
    | none => cases shortcut? op x y <;> rfl
  | mulAdd x y z =>
    simp only [step, action, Build.mulAddScalar, apply_ite Step.action]
    rfl
  | sum3 x y z =>
    simp only [step, action, Build.sum3Scalar, apply_ite Step.action]
    rfl
  | sum4 x y z w =>
    simp only [step, action, Build.sum4Scalar, apply_ite Step.action]
    rfl

theorem within_shortcut? {op : BinaryOperator} {x y : Signal} {step : Step}
    (h : shortcut? op x y = some step) : step.Within (binary op x y) := by
  cases op with
  | multiplication | addition | subtraction | floatDivision =>
    simp only [shortcut?] at h
    repeat' split at h
    all_goals cases h
    all_goals simp [Step.Within, operands, rank]
  | _ => cases h

theorem within_step (r : Request) : r.step.Within r := by
  cases r with
  | unary op x =>
    simp only [step]
    split
    · trivial
    · exact List.Subset.refl _
  | binary op x y =>
    simp only [step]
    split
    · trivial
    · cases hs : shortcut? op x y with
      | some step => exact within_shortcut? hs
      | none => exact List.Subset.refl _
  | mulAdd x y z =>
    simp only [step]
    repeat' split
    all_goals simp [Step.Within, operands, rank]
  | sum3 x y z =>
    simp only [step]
    repeat' split
    all_goals simp [Step.Within, operands, rank]
  | sum4 x y z w =>
    simp only [step]
    repeat' split
    all_goals simp [Step.Within, operands, rank]

/-- An identity gives a signal that exists, or asks for a negation; a sum needs none. -/
theorem shortcut?_cases {op : BinaryOperator} {x y : Signal} {step : Step}
    (h : shortcut? op x y = some step) :
    (∃ s, step = .gives s) ∨ op ≠ .addition ∧ ∃ s, step = .asks (unary .negative s) := by
  cases op with
  | multiplication | addition | subtraction | floatDivision =>
    simp only [shortcut?] at h
    repeat' split at h
    all_goals cases h
    all_goals simp
  | _ => cases h

theorem step_binary (op : BinaryOperator) (x y : Signal) :
    (∃ value, (binary op x y).step = .folds value) ∨ (∃ s, (binary op x y).step = .gives s) ∨
      (op ≠ .addition ∧ ∃ s, (binary op x y).step = .asks (unary .negative s)) ∨
      (binary op x y).step = .registers (binary op x y) := by
  simp only [step]
  cases Build.folded? op x y with
  | some value => exact .inl ⟨value, rfl⟩
  | none =>
    cases hs : shortcut? op x y with
    | some step => exact .inr ((shortcut?_cases hs).imp_right .inl)
    | none => exact .inr (.inr (.inr rfl))

/-- An operator registers itself. A multiply-add may exchange its factors before. -/
theorem eq_of_registers {r r' : Request} (h : r.step = .registers r') :
    r' = r ∨ ∃ x y z, r = mulAdd x y z ∧ r' = mulAdd y x z := by
  cases r with
  | unary op x =>
    simp only [step] at h
    split at h
    · cases h
    · cases h
      exact .inl rfl
  | binary op x y =>
    obtain ⟨value, hs⟩ | ⟨s, hs⟩ | ⟨-, s, hs⟩ | hs := step_binary op x y
    all_goals cases hs.symm.trans h
    exact .inl rfl
  | mulAdd x y z =>
    simp only [step] at h
    repeat' split at h
    all_goals cases h
    · exact .inl rfl
    · exact .inr ⟨x, y, z, rfl, rfl⟩
  | sum3 x y z =>
    simp only [step] at h
    repeat' split at h
    all_goals cases h
    exact .inl rfl
  | sum4 x y z w =>
    simp only [step] at h
    repeat' split at h
    all_goals cases h
    exact .inl rfl

/-- What holds of an operator if it holds of those it asks holds of all operators. -/
theorem induction {P : Request → Prop}
    (h : ∀ r, (∀ r', r.step = .asks r' → P r') →
      (∀ first rest, r.step = .chains first rest → P first ∧ ∀ s, P (rest s)) → P r)
    (r : Request) : P r := by
  have hrank : ∀ n, ∀ r : Request, r.rank = n → P r := by
    intro n
    induction n using Nat.strongRecOn with
    | ind n ih =>
      rintro r rfl
      have hwithin := r.within_step
      refine h r (fun r' hstep => ?_) (fun first rest hstep => ⟨?_, fun s => ?_⟩)
      · rw [hstep] at hwithin
        exact ih _ hwithin.1 r' rfl
      · rw [hstep] at hwithin
        exact ih _ hwithin.1.1 first rfl
      · rw [hstep] at hwithin
        exact ih _ (hwithin.2 s).1 (rest s) rfl
  exact hrank _ r rfl

end Request

/-! ## Wiring scalars -/

/-- A scalar as an input of a node. -/
def Signal.input : Signal → Input
  | constant value => .constant value
  | outlet p => .node ⟨p.ugen, p.output⟩
  | vector _ => .constant 0

namespace Builder

variable {b b' : Builder}

/-- The signal is a constant or an outlet of this builder. -/
def Wires (b : Builder) : Signal → Prop
  | .constant _ => True
  | .outlet p => p.scope = b.scope ∧ p.ugen < b.nodes.size
  | .vector _ => False

theorem wire_eq_ok_iff {ugen input : String} {s : Signal} {i : Input} :
    b.wire ugen input s = .ok i ↔ b.Wires s ∧ i = s.input := by
  cases s with
  | constant value => simp [wire, Wires, Signal.input, eq_comm]
  | outlet p =>
    simp only [wire, Wires, Signal.input]
    split
    · next h => simp [h, eq_comm]
    · next h => simp [h]
  | vector items => simp [wire, Wires]

theorem Extends.size_le (h : b.Extends b') : b.nodes.size ≤ b'.nodes.size := by
  by_contra hlt
  obtain ⟨n, hn, -⟩ := h.node (Array.getElem?_eq_getElem (Nat.lt_of_not_le hlt))
  exact Nat.lt_irrefl _ (Array.getElem?_eq_some_iff.1 hn).1

theorem Wires.mono {s : Signal} (hs : b.Wires s) (h : b.Extends b') : b'.Wires s := by
  cases s with
  | constant value => trivial
  | outlet p => exact ⟨hs.1.trans h.scope.symm, Nat.lt_of_lt_of_le hs.2 h.size_le⟩
  | vector items => cases hs

theorem Wires.isVector {s : Signal} (h : b.Wires s) : s.isVector = false := by
  cases s with
  | constant value => rfl
  | outlet p => rfl
  | vector items => cases h

end Builder

theorem Operands.width_scalars {operands : List Signal} (h : ∀ s ∈ operands, s.isVector = false) :
    width operands = 0 := by
  refine foldr_max_eq_zero fun s hs => ?_
  have hscalar := h s hs
  cases s with
  | constant value => rfl
  | outlet p => rfl
  | vector items => cases hscalar

/-- Scalars do not expand. -/
theorem Expansion.expand_scalars (ugen : String) {args : List Argument}
    (h : ∀ a ∈ args, a.value.isVector = false) : expand ugen args = .ok [args.map (·.value)] :=
  expand_of_spread_none ugen (fun a ha => (Signal.Filled.of_scalar (h a ha)).not_isEmptyVector)
    fun a ha => Argument.spread_scalar (h a ha)

/-- An operator on scalars has one channel. -/
theorem Build.perChannel_scalars (ugen : String) (scalar : List Signal → Build Signal)
    {operands : List Signal} (h : ∀ s ∈ operands, s.isVector = false) :
    perChannel ugen scalar operands = scalar operands := by
  have hany : operands.any Signal.isEmptyVector = false := by
    refine List.any_eq_false.2 fun s hs => ?_
    have hscalar := h s hs
    cases s with
    | constant value => simp [Signal.isEmptyVector]
    | outlet p => simp [Signal.isEmptyVector]
    | vector items => cases hscalar
  rw [perChannel, hany]
  simp [Operands.width_scalars h]

/-! ## Filling slots -/

namespace Call

/-- The input takes the source at its rate. -/
def Passes (call : Call) (decl : InputDecl) (s : Signal) : Prop :=
  ∀ p, s = .outlet p → decl.check.allows call.rate p.rate

/-- What fills the slots of the node that gets the values, with the keys. -/
def slots (call : Call) (values : List Signal) : List (InputKey × Signal) :=
  (call.descriptor.inputs.zip values).flatMap fun dv => dv.1.elements dv.2

/-- The node with these slots. -/
def slotNode (call : Call) (slots : List (InputKey × Signal)) : Node where
  className := call.descriptor.name
  rate := call.rate
  special := call.special
  inputs := slots.map (·.2.input)
  keys := slots.map (·.1)
  outputs := call.outputs
  flags := call.descriptor.flags

end Call

namespace Builder

variable {b : Builder} {call : Call} {decl : InputDecl}

theorem checkRate_eq_ok_iff {s : Signal} : checkRate call decl s = .ok () ↔ call.Passes decl s := by
  cases s with
  | constant value => simp [checkRate, Call.Passes]
  | outlet p => simp [checkRate, Call.Passes]
  | vector items => simp [checkRate, Call.Passes]

theorem slot_eq_ok_iff {e : InputKey × Signal} {slot : InputKey × Input} :
    b.slot call decl e = .ok slot ↔
      (b.Wires e.2 ∧ call.Passes decl e.2) ∧ slot = (e.1, e.2.input) := by
  unfold Builder.slot
  simp only [except_bind_eq_ok, wire_eq_ok_iff]
  constructor
  · rintro ⟨_, ⟨hwires, rfl⟩, ⟨⟩, hrate, h⟩
    cases h
    exact ⟨⟨hwires, checkRate_eq_ok_iff.1 hrate⟩, rfl⟩
  · rintro ⟨⟨hwires, hpasses⟩, rfl⟩
    exact ⟨_, ⟨hwires, rfl⟩, (), checkRate_eq_ok_iff.2 hpasses, rfl⟩

/-- The node is made exactly if the builder knows all that fills its slots and the rates fit. -/
theorem node_eq_ok_iff {values : List Signal} {n : Node} : b.node call values = .ok n ↔
    (∀ dv ∈ call.descriptor.inputs.zip values, ∀ e ∈ dv.1.elements dv.2,
      b.Wires e.2 ∧ call.Passes dv.1 e.2) ∧ n = call.slotNode (call.slots values) := by
  have hgroup : ∀ dv ∈ call.descriptor.inputs.zip values, ∀ group,
      (dv.1.elements dv.2).mapM (b.slot call dv.1) = .ok group ↔
        (∀ e ∈ dv.1.elements dv.2, b.Wires e.2 ∧ call.Passes dv.1 e.2) ∧
          group = (dv.1.elements dv.2).map fun e => (e.1, e.2.input) :=
    fun dv _ group => mapM_eq_ok_iff fun e _ slot => slot_eq_ok_iff
  have hslots : ((call.descriptor.inputs.zip values).map fun dv =>
      (dv.1.elements dv.2).map fun e => (e.1, e.2.input)).flatten =
      (call.slots values).map fun e => (e.1, e.2.input) := by
    rw [Call.slots, List.map_flatMap, List.flatMap_def]
  unfold Builder.node
  simp only [except_bind_eq_ok, mapM_eq_ok_iff hgroup]
  constructor
  · rintro ⟨_, ⟨hfits, rfl⟩, h⟩
    cases h
    refine ⟨hfits, ?_⟩
    simp [hslots, Call.slotNode]
  · rintro ⟨hfits, rfl⟩
    refine ⟨_, ⟨hfits, rfl⟩, ?_⟩
    simp [hslots, Call.slotNode]
    rfl

end Builder

/-- Inputs that take any scalar. -/
def Descriptor.Plain (d : Descriptor) : Prop :=
  ∀ decl ∈ d.inputs, decl.variadic = false ∧ decl.check = .any

namespace Call

variable {call : Call} {values : List Signal}

/-- The node of a call all of whose inputs are scalars. -/
def plainNode (call : Call) (values : List Signal) : Node where
  className := call.descriptor.name
  rate := call.rate
  special := call.special
  inputs := values.map Signal.input
  keys := call.descriptor.inputs.map fun decl => { name := decl.name }
  outputs := call.outputs
  flags := call.descriptor.flags

theorem elements_plain (hplain : call.descriptor.Plain) {dv : InputDecl × Signal}
    (hdv : dv ∈ call.descriptor.inputs.zip values) :
    dv.1.elements dv.2 = [({ name := dv.1.name }, dv.2)] := by
  simp [InputDecl.elements, (hplain dv.1 (List.of_mem_zip hdv).1).1]

theorem slotNode_plain (hplain : call.descriptor.Plain)
    (hlength : values.length = call.descriptor.inputs.length) :
    call.slotNode (call.slots values) = call.plainNode values := by
  have hslots : call.slots values =
      (call.descriptor.inputs.zip values).map fun dv => ({ name := dv.1.name }, dv.2) := by
    rw [slots, List.flatMap_congr fun dv hdv => elements_plain hplain hdv, List.map_eq_flatMap]
  have hinputs : (call.slots values).map (·.2.input) = values.map Signal.input := by
    have hsnd : (call.descriptor.inputs.zip values).map (·.2) = values :=
      List.map_snd_zip (Nat.le_of_eq hlength)
    conv_rhs => rw [← hsnd, List.map_map]
    rw [hslots, List.map_map]
    rfl
  have hkeys : (call.slots values).map (·.1) =
      call.descriptor.inputs.map ({ name := ·.name }) := by
    have hfst : (call.descriptor.inputs.zip values).map (·.1) = call.descriptor.inputs :=
      List.map_fst_zip (Nat.le_of_eq hlength.symm)
    conv_rhs => rw [← hfst, List.map_map]
    rw [hslots, List.map_map]
    rfl
  rw [slotNode, plainNode, hinputs, hkeys]

end Call

theorem Builder.plain_node_eq_ok_iff {b : Builder} {call : Call} (hplain : call.descriptor.Plain)
    {values : List Signal} (hlength : values.length = call.descriptor.inputs.length) {n : Node} :
    b.node call values = .ok n ↔ (∀ s ∈ values, b.Wires s) ∧ n = call.plainNode values := by
  have hsnd : (call.descriptor.inputs.zip values).map (·.2) = values :=
    List.map_snd_zip (Nat.le_of_eq hlength)
  have helements : ∀ dv ∈ call.descriptor.inputs.zip values,
      (∀ e ∈ dv.1.elements dv.2, b.Wires e.2 ∧ call.Passes dv.1 e.2) ↔ b.Wires dv.2 := by
    intro dv hdv
    have hpasses : call.Passes dv.1 dv.2 := by
      intro p _
      simp [(hplain dv.1 (List.of_mem_zip hdv).1).2, RateCheck.allows]
    rw [Call.elements_plain hplain hdv, List.forall_mem_singleton]
    simp [hpasses]
  have hwires : (∀ dv ∈ call.descriptor.inputs.zip values, b.Wires dv.2) ↔
      ∀ s ∈ values, b.Wires s := by
    rw [← List.forall_mem_map (P := b.Wires), hsnd]
  rw [node_eq_ok_iff, forall₂_congr helements, hwires, Call.slotNode_plain hplain hlength]

/-! ## Registering an operator -/

namespace Request

variable {r : Request} {b : Builder}

/-- The node that stands for the operator. -/
def node (r : Request) : Node := r.call.plainNode r.values

theorem values_perm (r : Request) : r.values.Perm r.operands := by
  cases r with
  | sum3 x y z => exact List.mergeSort_perm _ _
  | sum4 x y z w => exact List.mergeSort_perm _ _
  | _ => exact .refl _

theorem plain_call (r : Request) : r.call.descriptor.Plain := by
  have h : ∀ d ∈ [Catalog.unaryOpUGen, Catalog.binaryOpUGen, Catalog.mulAdd, Catalog.sum3,
      Catalog.sum4], d.Plain := by
    unfold Descriptor.Plain
    decide
  cases r <;> exact h _ (by simp [call])

theorem outputs_call (r : Request) : r.call.outputs = 1 := by
  cases r <;> rfl

/-- Every input is given an operand. -/
theorem arguments_call (h : r.call.descriptor.supports r.call.rate) :
    ∃ args, r.call.arguments = .ok args ∧ args.map (·.value) = r.values := by
  have hlength := r.values_perm.length_eq
  unfold Call.arguments
  simp only [h]
  cases r with
  | unary op x => exact ⟨_, rfl, rfl⟩
  | binary op x y => exact ⟨_, rfl, rfl⟩
  | mulAdd x y z => exact ⟨_, rfl, rfl⟩
  | sum3 x y z =>
    simp only [values, call] at hlength ⊢
    match Build.byRate [x, y, z], hlength with
    | [_, _, _], _ => exact ⟨_, rfl, rfl⟩
  | sum4 x y z w =>
    simp only [values, call] at hlength ⊢
    match Build.byRate [x, y, z, w], hlength with
    | [_, _, _, _], _ => exact ⟨_, rfl, rfl⟩

theorem length_values (r : Request) : r.values.length = r.call.descriptor.inputs.length := by
  rw [r.values_perm.length_eq]
  cases r <;> rfl

theorem plan_call_eq (hscalar : ∀ s ∈ r.operands, s.isVector = false)
    (h : r.call.descriptor.supports r.call.rate) :
    b.plan r.call = [r.values].mapM (b.node r.call) := by
  obtain ⟨args, hargs, hvalues⟩ := arguments_call h
  have hexpand : Expansion.expand r.call.descriptor.name args = .ok [r.values] := by
    rw [← hvalues]
    refine Expansion.expand_scalars _ fun a ha => hscalar _ (r.values_perm.mem_iff.1 ?_)
    rw [← hvalues]
    exact List.mem_map_of_mem ha
  unfold Builder.plan
  rw [hargs]
  show (Expansion.expand r.call.descriptor.name args >>= fun calls => calls.mapM _) = _
  rw [hexpand]
  rfl

theorem plan_call_unsupported (h : ¬r.call.descriptor.supports r.call.rate) :
    b.plan r.call =
      .error (.rateMismatch r.call.descriptor.name (.unsupported r.call.rate)) := by
  have hargs : r.call.arguments =
      .error (.rateMismatch r.call.descriptor.name (.unsupported r.call.rate)) := by
    unfold Call.arguments
    simp [h]
  unfold Builder.plan
  rw [hargs]
  rfl

/-- An operator on scalars is registered exactly if it runs at the rate and the builder knows the
operands. -/
theorem plan_call_iff (hscalar : ∀ s ∈ r.operands, s.isVector = false) {nodes : List Node} :
    b.plan r.call = .ok nodes ↔ r.call.descriptor.supports r.call.rate ∧
      (∀ s ∈ r.operands, b.Wires s) ∧ nodes = [r.node] := by
  by_cases h : r.call.descriptor.supports r.call.rate
  · have hmem : (∀ s ∈ r.values, b.Wires s) ↔ ∀ s ∈ r.operands, b.Wires s :=
      forall_congr' fun s => by rw [r.values_perm.mem_iff]
    have hnode : ∀ values ∈ [r.values], ∀ n, b.node r.call values = .ok n ↔
        (∀ s ∈ values, b.Wires s) ∧ n = r.call.plainNode values := by
      intro values hvalues n
      obtain rfl := List.mem_singleton.1 hvalues
      exact Builder.plain_node_eq_ok_iff r.plain_call r.length_values
    rw [plan_call_eq hscalar h, mapM_eq_ok_iff hnode]
    simp [h, hmem, node]
  · simp [plan_call_unsupported h, h]

/-- The first outlet of the node that comes next. -/
def nextOutlet (r : Request) (b : Builder) : Outlet := ⟨b.scope, b.nodes.size, 0, r.call.rate⟩

theorem exec_register_call (h : b.plan r.call = .ok [r.node]) :
    (Build.register r.call).exec b = (.ok (.outlet (r.nextOutlet b)), b.append [r.node]) := by
  rw [Build.exec_register, h]
  have houtputs : r.node.outputs = 1 := r.outputs_call
  simp [Builder.outlets, houtputs, Signal.collapse, List.range_one]
  rfl

end Request

end SynthGraph
