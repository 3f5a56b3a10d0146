import SynthGraph.Proofs.Channels

/-!
# What a failed operation leaves

Registering a call is all or nothing. An operation that registers several calls is not: a fault
stops it where it is, and the calls that were accepted before stay registered. `Operation.Makes`
says which calls an operation makes, and `Build.Leaves` which of them stay if the builder refuses
another one; operations are put together from others. An operator on scalars that needs one node
leaves nothing, nor does a bus writer or a transform into a buffer that is given. The others can
leave operators, which are pure, and a transform can leave the local buffer that it made, which is
not.
-/

namespace SynthGraph

/-- A call expands to one call at least. -/
theorem Expansion.expand_ne_nil {ugen : String} {args : List Argument} {calls : List (List Signal)}
    (h : expand ugen args = .ok calls) : calls ≠ [] := by
  fun_induction expand ugen args generalizing calls with
  | case1 => cases h
  | case2 args =>
    cases h
    exact List.cons_ne_nil _ _
  | case3 args _ hwidth ih =>
    obtain ⟨groups, hgroups, h⟩ := except_bind_eq_ok.1 h
    cases h
    have hlength : groups.length = width args := by simpa using length_of_mapM hgroups
    cases groups with
    | nil => exact absurd hlength.symm hwidth
    | cons group groups =>
      obtain ⟨i, -, hi⟩ := exists_of_mem_mapM hgroups List.mem_cons_self
      simp [ih i hi]

namespace Builder

variable {b b' b'' : Builder} {calls calls' : List Call}

/-! ## Accepted calls -/

/-- The builder accepts the calls one after the other and becomes `b'`. -/
inductive Accepts : Builder → List Call → Builder → Prop
  | nil (b : Builder) : Accepts b [] b
  | cons {b b' : Builder} {call : Call} {nodes : List Node} {calls : List Call}
      (hplan : b.plan call = .ok nodes) (h : Accepts (b.append nodes) calls b') :
      Accepts b (call :: calls) b'

theorem Accepts.append (h : b.Accepts calls b') (h' : b'.Accepts calls' b'') :
    b.Accepts (calls ++ calls') b'' := by
  induction h with
  | nil => exact h'
  | cons hplan _ ih => exact .cons hplan (ih h')

theorem plan_ne_nil {call : Call} {nodes : List Node} (h : b.plan call = .ok nodes) :
    nodes ≠ [] := by
  obtain ⟨args, -, h⟩ := except_bind_eq_ok.1 h
  obtain ⟨expanded, hexpanded, h⟩ := except_bind_eq_ok.1 h
  rintro rfl
  exact Expansion.expand_ne_nil hexpanded (List.eq_nil_of_length_eq_zero (length_of_mapM h).symm)

/-- Every accepted call appends a node at least. -/
theorem Accepts.exists_append (h : b.Accepts calls b') :
    ∃ left, b' = b.append left ∧ (left = [] ↔ calls = []) := by
  induction h with
  | nil b => exact ⟨[], by simp [Builder.append], by simp⟩
  | @cons b b' call nodes calls hplan _ ih =>
    obtain ⟨left, rfl, -⟩ := ih
    exact ⟨nodes ++ left, by simp [Builder.append], by simp [plan_ne_nil hplan]⟩

/-- The fault is that of a call in `made` which the builder refuses, or tells of an empty input. -/
def Refuses (b : Builder) (made : Call → Prop) (empty : Option Fault) (fault : Fault) : Prop :=
  (∃ call, made call ∧ b.plan call = .error fault) ∨ empty = some fault

theorem Refuses.mono {made made' : Call → Prop} {empty : Option Fault} {fault : Fault}
    (h : b.Refuses made empty fault) (hmade : ∀ call, made call → made' call) :
    b.Refuses made' empty fault := by
  refine h.imp_left ?_
  rintro ⟨call, hcall, hplan⟩
  exact ⟨call, hmade call hcall, hplan⟩

end Builder

namespace Build

variable {α β : Type} {left left' made made' : Call → Prop} {empty : Option Fault}

/-- `a` is what the operation gives in some builder. -/
def Gives (x : Build α) (a : α) : Prop := ∃ b b', x.exec b = (.ok a, b')

/-- The operation only registers calls, and makes none but those of `made`. If it fails, then
because the builder that it leaves refuses one of them, and the calls before were of `left`. -/
def Leaves (left made : Call → Prop) (empty : Option Fault) (x : Build α) : Prop :=
  ∀ b, ∃ calls, b.Accepts calls (x.exec b).2 ∧ (∀ call ∈ calls, made call) ∧
    ∀ fault, (x.exec b).1 = .error fault →
      (∀ call ∈ calls, left call) ∧ (x.exec b).2.Refuses made empty fault

namespace Leaves

theorem mono {x : Build α} (h : Leaves left made empty x) (hleft : ∀ call, left call → left' call)
    (hmade : ∀ call, made call → made' call) : Leaves left' made' empty x := by
  intro b
  obtain ⟨calls, haccepts, hcalls, herror⟩ := h b
  refine ⟨calls, haccepts, fun call hcall => hmade call (hcalls call hcall), fun fault hf => ?_⟩
  obtain ⟨hstay, hrefuses⟩ := herror fault hf
  exact ⟨fun call hcall => hleft call (hstay call hcall), hrefuses.mono hmade⟩

theorem pure (a : α) : Leaves left made empty (Pure.pure a : Build α) :=
  fun b => ⟨[], .nil b, by simp, nofun⟩

theorem throw (fault : Fault) : Leaves left made (some fault) (MonadExcept.throw fault : Build α) :=
  fun b => ⟨[], .nil b, by simp, fun _ hfault => ⟨by simp, .inr (congrArg some
    (Except.error.inj hfault))⟩⟩

theorem register {call : Call} (h : made call) : Leaves left made empty (Build.register call) := by
  intro b
  rw [exec_register]
  cases hplan : b.plan call with
  | error fault =>
    refine ⟨[], .nil b, by simp, fun fault' hfault => ⟨by simp, .inl ⟨call, h, ?_⟩⟩⟩
    cases hfault
    exact hplan
  | ok nodes => exact ⟨[call], .cons hplan (.nil _), by simpa using h, nofun⟩

/-- If the second operation fails, what the first one registered stays. -/
theorem bind {x : Build α} {f : α → Build β} (hx : Leaves left made' empty x)
    (hf : ∀ a, x.Gives a → Leaves left made empty (f a))
    (hmade : ∀ call, made' call → left call ∧ made call) : Leaves left made empty (x >>= f) := by
  intro b
  obtain ⟨calls, haccepts, hcalls, herror⟩ := hx b
  have hboth : ∀ call ∈ calls, left call ∧ made call :=
    fun call hcall => hmade call (hcalls call hcall)
  rw [exec_bind]
  rcases hr : x.exec b with ⟨fault | a, b'⟩
  · rw [hr] at haccepts herror
    refine ⟨calls, haccepts, fun call hcall => (hboth call hcall).2, fun fault' hfault => ?_⟩
    cases hfault
    obtain ⟨hstay, hrefuses⟩ := herror fault rfl
    exact ⟨hstay, hrefuses.mono fun call hcall => (hmade call hcall).2⟩
  · rw [hr] at haccepts
    obtain ⟨calls', haccepts', hcalls', herror'⟩ := hf a ⟨b, b', hr⟩ b'
    refine ⟨calls ++ calls', haccepts.append haccepts', ?_, fun fault hfault => ?_⟩
    · exact List.forall_mem_append.2 ⟨fun call hcall => (hboth call hcall).2, hcalls'⟩
    · obtain ⟨hstay, hrefuses⟩ := herror' fault hfault
      exact ⟨List.forall_mem_append.2 ⟨fun call hcall => (hboth call hcall).1, hstay⟩, hrefuses⟩

/-- What follows cannot fail. -/
theorem map {x : Build α} (hx : Leaves left made empty x) (f : α → β) :
    Leaves left made empty (x >>= fun a => Pure.pure (f a)) := by
  intro b
  obtain ⟨calls, haccepts, hcalls, herror⟩ := hx b
  rw [exec_bind]
  rcases hr : x.exec b with ⟨fault | a, b'⟩
  · rw [hr] at haccepts herror
    refine ⟨calls, haccepts, hcalls, fun fault' hfault => ?_⟩
    cases hfault
    exact herror fault rfl
  · rw [hr] at haccepts
    exact ⟨calls, haccepts, hcalls, nofun⟩

theorem mapM {f : α → Build β} {as : List α} (h : ∀ a ∈ as, Leaves left made empty (f a))
    (hmade : ∀ call, made call → left call) : Leaves left made empty (as.mapM f) := by
  induction as with
  | nil => exact pure []
  | cons a as ih =>
    rw [List.mapM_cons]
    refine (h a List.mem_cons_self).bind (fun b _ => ?_) fun call hcall => ⟨hmade call hcall, hcall⟩
    exact (ih fun a ha => h a (List.mem_cons_of_mem _ ha)).map (b :: ·)

end Leaves

end Build

/-! ## Operators on scalars -/

/-- The classes of products. -/
def Build.products : List Descriptor := [Catalog.unaryOpUGen, Catalog.binaryOpUGen]

/-- The classes of sums. -/
def Build.sums : List Descriptor := [Catalog.binaryOpUGen, Catalog.sum3, Catalog.sum4]

/-- What a multiply-add can leave: a product if it is not fused and takes a sum as well. -/
def Build.unfused (source multiplier addend : Signal) : List Descriptor :=
  if multiplier.isConstant 0 || multiplier.isConstant 1 || multiplier.isConstant (-1) ||
    addend.isConstant 0 || fusable source multiplier addend || fusable multiplier source addend
  then [] else products

namespace Request

variable {r r' : Request} {call : Call}

/-- The calls that the operator makes, step after step. -/
inductive Makes : Request → Call → Prop
  | registers {r r' : Request} (h : r.step = .registers r') : Makes r r'.call
  | asks {r r' : Request} {call : Call} (h : r.step = .asks r') (hasked : Makes r' call) :
      Makes r call
  | first {r first : Request} {rest : Signal → Request} {call : Call}
      (h : r.step = .chains first rest) (hfirst : Makes first call) : Makes r call
  | rest {r first : Request} {rest : Signal → Request} {call : Call} {s : Signal}
      (h : r.step = .chains first rest) (hs : first.action.Gives s) (hrest : Makes (rest s) call) :
      Makes r call

/-- If the second of two operators fails, the calls of the first stay. -/
def Keeps (r : Request) (call : Call) : Prop :=
  ∃ first rest, r.step = .chains first rest ∧ first.Makes call

theorem Keeps.makes (h : r.Keeps call) : r.Makes call := by
  obtain ⟨first, rest, hstep, hmade⟩ := h
  exact .first hstep hmade

/-- Only a multiply-add does one operator after the other. -/
theorem eq_of_chains {first : Request} {rest : Signal → Request}
    (h : r.step = .chains first rest) : ∃ x y z, r = mulAdd x y z ∧
      first = binary .multiplication x y ∧ rest = (binary .addition · z) ∧
      Build.unfused x y z = Build.products := by
  cases r with
  | mulAdd x y z =>
    simp only [step] at h
    repeat' split at h
    all_goals cases h
    exact ⟨x, y, z, rfl, rfl, rfl, by simp_all [Build.unfused]⟩
  | unary op x =>
    simp only [step] at h
    split at h <;> cases h
  | binary op x y =>
    obtain ⟨value, hs⟩ | ⟨s, hs⟩ | ⟨-, s, hs⟩ | hs := step_binary op x y
    all_goals cases hs.symm.trans h
  | sum3 x y z | sum4 x y z w =>
    simp only [step] at h
    repeat' split at h
    all_goals cases h

theorem rank_le (r : Request) : r.rank ≤ 4 := by
  cases r <;> simp [rank]

theorem not_keeps (h : r.rank < 4) : ¬r.Keeps call := by
  rintro ⟨first, rest, hstep, -⟩
  obtain ⟨x, y, z, rfl, -⟩ := eq_of_chains hstep
  exact Nat.lt_irrefl 4 h

/-- The operator keeps its own calls, or those of what it asks; what it asks keeps none. -/
theorem leaves_action (r : Request) (empty : Option Fault) :
    Build.Leaves r.Keeps r.Makes empty r.action := by
  induction r using Request.induction with
  | h r hasks hchains =>
    have hwithin := r.within_step
    have hnone : ∀ {r' : Request}, r'.rank < r.rank → ∀ call, r'.Keeps call → r.Keeps call :=
      fun hrank _ hkept => absurd hkept (not_keeps (hrank.trans_le r.rank_le))
    rw [← action_step]
    cases hstep : r.step with
    | folds value => exact .pure _
    | gives s => exact .pure s
    | registers r' => exact .register (.registers hstep)
    | asks r' =>
      rw [hstep] at hwithin
      exact (hasks r' hstep).mono (hnone hwithin.1) fun _ hmade => .asks hstep hmade
    | chains first rest =>
      rw [hstep] at hwithin
      obtain ⟨hfirst, hrest⟩ := hchains first rest hstep
      refine Build.Leaves.bind (hfirst.mono (hnone hwithin.1.1) fun _ => id) (fun s hs => ?_)
        fun call hmade => ⟨⟨first, rest, hstep, hmade⟩, .first hstep hmade⟩
      exact (hrest s).mono (hnone (hwithin.2 s).1) fun _ hmade => .rest hstep hs hmade

/-- The classes of the calls that the operator makes; an addition needs no negation. -/
def classes : Request → List Descriptor
  | unary .. => [Catalog.unaryOpUGen]
  | binary .addition _ _ => [Catalog.binaryOpUGen]
  | binary .. => Build.products
  | mulAdd .. => Build.products ++ [Catalog.mulAdd]
  | sum3 .. | sum4 .. => Build.sums

theorem classes_binary {op : BinaryOperator} (h : op ≠ .addition) (x y : Signal) :
    (binary op x y).classes = Build.products := by
  cases op <;> first | rfl | exact absurd rfl h

theorem descriptor_mem_classes (r : Request) : r.call.descriptor ∈ r.classes := by
  cases r with
  | binary op x y =>
    by_cases hop : op = .addition
    · subst hop
      exact List.mem_cons_self
    · rw [classes_binary hop]
      exact List.mem_cons_of_mem _ List.mem_cons_self
  | _ => simp [classes, call, Build.sums]

theorem classes_subset_of_asks (h : r.step = .asks r') : r'.classes ⊆ r.classes := by
  cases r with
  | unary op x =>
    simp only [step] at h
    split at h <;> cases h
  | binary op x y =>
    obtain ⟨value, hs⟩ | ⟨s, hs⟩ | ⟨hop, s, hs⟩ | hs := step_binary op x y
    all_goals cases hs.symm.trans h
    rw [classes_binary hop]
    simp [classes, Build.products]
  | mulAdd x y z | sum3 x y z | sum4 x y z w =>
    simp only [step] at h
    repeat' split at h
    all_goals cases h
    all_goals simp [classes, Build.products, Build.sums]

theorem Makes.descriptor_mem (h : r.Makes call) : call.descriptor ∈ r.classes := by
  induction h with
  | registers h =>
    rcases eq_of_registers h with rfl | ⟨x, y, z, rfl, rfl⟩
    · exact descriptor_mem_classes _
    · exact descriptor_mem_classes _
  | asks h _ ih => exact classes_subset_of_asks h ih
  | first h _ ih =>
    obtain ⟨x, y, z, rfl, rfl, -⟩ := eq_of_chains h
    exact List.mem_append_left _ ih
  | rest h _ _ ih =>
    obtain ⟨x, y, z, rfl, rfl, rfl, -⟩ := eq_of_chains h
    exact List.mem_append_left _ (List.mem_cons_of_mem _ ih)

end Request

/-! ## Channels -/

/-- The operands of one channel, however deep it is nested. -/
inductive Operands.Lane : List Signal → List Signal → Prop
  | scalars {operands : List Signal} (h : width operands = 0) : Lane operands operands
  | channel {operands lane : List Signal} {i : Nat} (hi : i < width operands)
      (h : Lane (channel operands i) lane) : Lane operands lane

/-- With several channels, what the first ones registered is left if another one fails. -/
theorem Build.leaves_perChannel (ugen : String) {scalar : List Signal → Build Signal} {count : Nat}
    {left made : List Signal → Call → Prop}
    (hscalar : ∀ values, values.length = count →
      Leaves (left values) (made values) (some (.emptyInput ugen "operand")) (scalar values))
    (hleft : ∀ values call, left values call → made values call) (operands : List Signal)
    (hcount : operands.length = count) :
    Leaves (fun call => if Operands.width operands = 0 then left operands call else
        ∃ lane, Operands.Lane operands lane ∧ made lane call)
      (fun call => ∃ lane, Operands.Lane operands lane ∧ made lane call)
      (some (.emptyInput ugen "operand")) (perChannel ugen scalar operands) := by
  fun_induction perChannel ugen scalar operands with
  | case1 => exact .throw _
  | case2 operands _ hwidth =>
    simp only [if_pos hwidth]
    exact (hscalar operands hcount).mono (fun _ => id)
      fun call hcall => ⟨operands, .scalars hwidth, hcall⟩
  | case3 operands _ hwidth ih =>
    simp only [if_neg hwidth]
    refine (Leaves.mapM (fun i hi => ?_) fun _ => id).map _
    have hi := List.mem_range.1 hi
    refine (ih i ((List.length_map _).trans hcount)).mono (fun call hcall => ?_) ?_
    · split at hcall
      · next hscalars => exact ⟨_, .channel hi (.scalars hscalars), hleft _ _ hcall⟩
      · obtain ⟨lane, hlane, hmade⟩ := hcall
        exact ⟨lane, .channel hi hlane, hmade⟩
    · rintro call ⟨lane, hlane, hmade⟩
      exact ⟨lane, .channel hi hlane, hmade⟩

namespace Request

variable {r : Request} {call : Call}

/-- The calls that the operator makes for the channels of its operands. -/
def MakesOn (r : Request) (call : Call) : Prop :=
  ∃ lane, Operands.Lane r.operands lane ∧ (r.withOperands lane).Makes call

theorem withOperands_operands (r : Request) : r.withOperands r.operands = r := by
  cases r <;> rfl

theorem classes_withOperands (r : Request) (values : List Signal) :
    (r.withOperands values).classes = r.classes := by
  unfold withOperands
  split
  all_goals first | rfl | skip
  · next op x y x' y' =>
    by_cases hop : op = .addition
    · subst hop
      rfl
    · rw [classes_binary hop, classes_binary hop]

theorem leaves_operation (r : Request) :
    Build.Leaves
      (fun call => if Operands.width r.operands = 0 then r.Keeps call else r.MakesOn call)
      r.MakesOn (some (.emptyInput r.call.descriptor.name "operand")) r.operation.action := by
  obtain ⟨scalar, hoperation, hscalar⟩ := r.operation_eq
  have hscalar : ∀ values, values.length = r.operands.length →
      Build.Leaves (r.withOperands values).Keeps (r.withOperands values).Makes
        (some (.emptyInput r.call.descriptor.name "operand")) (scalar values) := by
    intro values hvalues
    rw [hscalar values hvalues]
    exact (r.withOperands values).leaves_action _
  have hleaves := Build.leaves_perChannel _ hscalar (fun _ _ => Keeps.makes) r.operands rfl
  rw [withOperands_operands] at hleaves
  rwa [hoperation]

theorem MakesOn.descriptor_mem (h : r.MakesOn call) : call.descriptor ∈ r.classes := by
  obtain ⟨lane, -, hmade⟩ := h
  rw [← r.classes_withOperands lane]
  exact hmade.descriptor_mem

/-- The classes that are left are those that an operator on scalars keeps, or with several channels
any of its classes. -/
theorem leaves_classes (r : Request) {kept classes : List Descriptor}
    (hkept : ∀ call, r.Keeps call → call.descriptor ∈ kept) (hclasses : r.classes ⊆ classes) :
    Build.Leaves
      (fun call => call.descriptor ∈ if Operands.width r.operands = 0 then kept else classes)
      r.MakesOn (some (.emptyInput r.call.descriptor.name "operand")) r.operation.action := by
  refine r.leaves_operation.mono (fun call hcall => ?_) fun _ => id
  split at hcall
  · next hwidth =>
    rw [if_pos hwidth]
    exact hkept call hcall
  · next hwidth =>
    rw [if_neg hwidth]
    exact hclasses (MakesOn.descriptor_mem hcall)

theorem Keeps.descriptor_mem {x y z : Signal} (h : (mulAdd x y z).Keeps call) :
    call.descriptor ∈ Build.unfused x y z := by
  obtain ⟨first, rest, hstep, hmade⟩ := h
  obtain ⟨x', y', z', heq, rfl, -, hunfused⟩ := eq_of_chains hstep
  cases heq
  rw [hunfused]
  exact hmade.descriptor_mem

end Request

/-! ## Mixes -/

/-- A leaf, or what a sum of leaves and such sums gives. -/
inductive Signal.PartialSum (leaves : List Signal) : Signal → Prop
  | leaf {s : Signal} (h : s ∈ leaves) : PartialSum leaves s
  | sum {r : Request} {s : Signal} (hr : r.IsSum) (ho : ∀ o ∈ r.operands, PartialSum leaves o)
      (h : r.action.Gives s) : PartialSum leaves s

namespace Build

variable {signals leaves : List Signal} {empty : Option Fault}

/-- The call is one of a sum that a mix of the leaves takes. -/
def Mixes (leaves : List Signal) (call : Call) : Prop :=
  ∃ r : Request, r.IsSum ∧ (∀ o ∈ r.operands, Signal.PartialSum leaves o) ∧ r.Makes call

/-- A sum makes one call, so it leaves nothing. -/
theorem leaves_sum {r : Request} (hr : r.IsSum)
    (ho : ∀ o ∈ r.operands, Signal.PartialSum leaves o) (left : Call → Prop) :
    Leaves left (Mixes leaves) empty r.action := by
  refine (r.leaves_action empty).mono (fun call hkept => ?_) fun call hmade => ⟨r, hr, ho, hmade⟩
  refine absurd hkept (Request.not_keeps ?_)
  cases r with
  | mulAdd => exact hr.elim
  | _ => simp [Request.rank]

theorem partialSum_of_mixRound (hs : ∀ s ∈ signals, Signal.PartialSum leaves s)
    {round : List Signal} {b b' : Builder} (h : (mixRound signals).exec b = (.ok round, b')) :
    ∀ s ∈ round, Signal.PartialSum leaves s := by
  fun_induction mixRound signals generalizing b round with
  | case1 x y z w rest ih =>
    obtain ⟨s, c, hsum, h⟩ := exec_bind_eq_ok.1 h
    obtain ⟨more, d, hmore, h⟩ := exec_bind_eq_ok.1 h
    obtain ⟨rfl, rfl⟩ := exec_pure_eq_ok.1 h
    obtain ⟨hfour, hrest⟩ := List.forall_mem_append.1 (show ∀ s ∈ [x, y, z, w] ++ rest, _ from hs)
    exact List.forall_mem_cons.2
      ⟨.sum (r := .sum4 x y z w) trivial hfour ⟨_, _, hsum⟩, ih hrest hmore⟩
  | case2 x y z =>
    obtain ⟨s, c, hsum, h⟩ := exec_bind_eq_ok.1 h
    obtain ⟨rfl, rfl⟩ := exec_pure_eq_ok.1 h
    exact List.forall_mem_singleton.2 (.sum (r := .sum3 x y z) trivial hs ⟨_, _, hsum⟩)
  | case3 x y =>
    obtain ⟨s, c, hsum, h⟩ := exec_bind_eq_ok.1 h
    obtain ⟨rfl, rfl⟩ := exec_pure_eq_ok.1 h
    exact List.forall_mem_singleton.2 (.sum (r := .binary .addition x y) trivial hs ⟨_, _, hsum⟩)
  | case4 x | case5 =>
    obtain ⟨rfl, rfl⟩ := exec_pure_eq_ok.1 h
    exact hs

theorem leaves_mixRound (hs : ∀ s ∈ signals, Signal.PartialSum leaves s) :
    Leaves (Mixes leaves) (Mixes leaves) empty (mixRound signals) := by
  fun_induction mixRound signals with
  | case1 x y z w rest ih =>
    obtain ⟨hfour, hrest⟩ := List.forall_mem_append.1 (show ∀ s ∈ [x, y, z, w] ++ rest, _ from hs)
    exact (leaves_sum (r := .sum4 x y z w) trivial hfour _).bind
      (fun s _ => (ih hrest).map (s :: ·)) fun _ h => ⟨h, h⟩
  | case2 x y z => exact (leaves_sum (r := .sum3 x y z) trivial hs _).map _
  | case3 x y => exact (leaves_sum (r := .binary .addition x y) trivial hs _).map _
  | case4 x | case5 => exact .pure _

theorem leaves_mixRounds (fuel : Nat) (hs : ∀ s ∈ signals, Signal.PartialSum leaves s) :
    Leaves (Mixes leaves) (Mixes leaves) empty (mixRounds fuel signals) := by
  induction fuel generalizing signals with
  | zero => exact .pure _
  | succ fuel ih =>
    unfold mixRounds
    refine (leaves_mixRound hs).bind (fun round hround => ?_) fun _ h => ⟨h, h⟩
    obtain ⟨b, b', hround⟩ := hround
    split
    · exact .pure _
    · exact ih (partialSum_of_mixRound hs hround)

theorem Mixes.descriptor_mem {call : Call} (h : Mixes leaves call) : call.descriptor ∈ sums := by
  obtain ⟨r, hr, -, hmade⟩ := h
  have hmem := hmade.descriptor_mem
  cases r with
  | binary op x y =>
    cases op <;> first | exact hr.elim | exact List.mem_cons.2 (.inl (List.mem_singleton.1 hmem))
  | sum3 x y z | sum4 x y z w => exact hmem
  | _ => exact hr.elim

/-- The classes that a mix of the leaves can leave: none if one sum does. -/
def mixed (leaves : List Signal) : List Descriptor := if leaves.length ≤ 4 then [] else sums

theorem leaves_mix (sources : Signal) :
    Leaves (fun call => call.descriptor ∈ mixed sources.leaves) (Mixes sources.leaves)
      (some (.emptyInput "Mix" "sources")) (mix sources) := by
  have hs : ∀ s ∈ sources.leaves, Signal.PartialSum sources.leaves s := fun s => .leaf
  unfold mix
  split
  · exact .throw _
  generalize sources.leaves = leaves at *
  by_cases hfew : leaves.length ≤ 4
  · rcases leaves with _ | ⟨x, _ | ⟨y, _ | ⟨z, _ | ⟨w, _ | ⟨v, rest⟩⟩⟩⟩⟩
    · exact .pure _
    · simpa [mixRounds, mixRound] using .pure x
    · have hround : mixRounds [x, y].length [x, y] = (Request.binary .addition x y).action := by
        simp [mixRounds, mixRound, Request.action, addScalar]
      rw [hround]
      exact leaves_sum (r := .binary .addition x y) trivial hs _
    · have hround : mixRounds [x, y, z].length [x, y, z] = (Request.sum3 x y z).action := by
        simp [mixRounds, mixRound, Request.action]
      rw [hround]
      exact leaves_sum (r := .sum3 x y z) trivial hs _
    · have hround : mixRounds [x, y, z, w].length [x, y, z, w] =
          (Request.sum4 x y z w).action := by
        simp [mixRounds, mixRound, Request.action]
      rw [hround]
      exact leaves_sum (r := .sum4 x y z w) trivial hs _
    · exact absurd hfew (by simp)
  · rw [mixed, if_neg hfew]
    exact (leaves_mixRounds _ hs).mono (fun _ => Mixes.descriptor_mem) fun _ => id

theorem mixed_subset (leaves : List Signal) : mixed leaves ⊆ sums := by
  unfold mixed
  split
  · exact List.nil_subset _
  · exact List.Subset.refl _

/-- The calls that a mix of columns makes. -/
def MixesOf (channels : List (List Signal)) (call : Call) : Prop :=
  ∃ column ∈ channels, Mixes (Signal.vector column).leaves call

/-- The classes that a mix of the columns can leave: if there is one, those of its mix. -/
def mixedColumns : List (List Signal) → List Descriptor
  | [column] => mixed (Signal.vector column).leaves
  | _ => sums

theorem mixedColumns_subset (columns : List (List Signal)) : mixedColumns columns ⊆ sums := by
  unfold mixedColumns
  split
  · exact mixed_subset _
  · exact List.Subset.refl _

theorem leaves_mixChannels (sources : Signal) (count : Nat) :
    Leaves (fun call => call.descriptor ∈ mixedColumns (columns (chunks count sources.leaves)))
      (MixesOf (columns (chunks count sources.leaves))) (some (.emptyInput "Mix" "sources"))
      (mixChannels sources count) := by
  unfold mixChannels
  split
  · exact .throw _
  generalize columns (chunks count sources.leaves) = channels
  refine Leaves.map ?_ _
  unfold mixedColumns
  split
  · next column =>
    have hmapM : [column].mapM (fun column => mix (.vector column)) =
        mix (.vector column) >>= fun s => return [s] := by simp
    rw [hmapM]
    exact ((leaves_mix (.vector column)).map _).mono (fun _ => id)
      fun call hcall => ⟨column, List.mem_singleton_self _, hcall⟩
  · refine Leaves.mapM (fun column hcolumn => (leaves_mix (.vector column)).mono ?_ ?_) ?_
    · exact fun call hcall => mixed_subset _ hcall
    · exact fun call hcall => ⟨column, hcolumn, hcall⟩
    · rintro call ⟨column, -, hcall⟩
      exact hcall.descriptor_mem

/-! ## Constructors -/

theorem leaves_out (left : Call → Prop) (bus source : Signal) :
    Leaves left (· = outCall bus source) empty (out bus source) := by
  have hcall : Leaves left (· = outCall bus source) empty (register (outCall bus source)) :=
    .register rfl
  exact hcall.map _

end Build

namespace FftCall

/-- The buffer is the one that is given, or one that is made. -/
def Fills (call : FftCall) (buffer : Signal) : Prop :=
  match call.bufferId with
  | some given => buffer = given
  | none => (Build.register call.bufferCall).Gives buffer

/-- The calls that a transform makes. -/
def Makes (call : FftCall) (made : Call) : Prop :=
  (call.bufferId = none ∧ made = call.bufferCall) ∨
    ∃ buffer, call.Fills buffer ∧ made = call.transformCall buffer

/-- A buffer that was made is left if its transform fails. -/
theorem leaves_fft (call : FftCall) (empty : Option Fault) :
    Build.Leaves (fun made => call.bufferId = none ∧ made = call.bufferCall) call.Makes empty
      (Build.fft call) := by
  have htransform : ∀ buffer, call.Fills buffer →
      Build.Leaves (fun made => call.bufferId = none ∧ made = call.bufferCall) call.Makes empty
        (Build.register (call.transformCall buffer)) :=
    fun buffer hfills => .register (.inr ⟨buffer, hfills, rfl⟩)
  simp only [Build.fft]
  cases hgiven : call.bufferId with
  | some buffer =>
    have hfills : call.Fills buffer := by rw [Fills, hgiven]
    rw [hgiven] at htransform
    exact htransform buffer hfills
  | none =>
    have hbuffer : Build.Leaves (fun made => call.bufferId = none ∧ made = call.bufferCall)
        (· = call.bufferCall) empty (Build.register call.bufferCall) := .register rfl
    rw [hgiven] at hbuffer htransform
    refine hbuffer.bind (fun buffer hbuffer => htransform buffer ?_) ?_
    · rwa [Fills, hgiven]
    · rintro made rfl
      exact ⟨⟨rfl, rfl⟩, .inl ⟨hgiven, rfl⟩⟩

end FftCall

namespace Operation

/-- The operation is put together from registrations. -/
def composite : Operation → Bool
  | register _ | addParameter _ | parameter _ | setInput .. => false
  | _ => true

/-- The calls that a composite operation makes. -/
def Makes : Operation → Call → Prop
  | unary op x => (Request.unary op x).MakesOn
  | binary op x y => (Request.binary op x y).MakesOn
  | mulAdd x y z => (Request.mulAdd x y z).MakesOn
  | sum3 x y z => (Request.sum3 x y z).MakesOn
  | sum4 x y z w => (Request.sum4 x y z w).MakesOn
  | mix sources => Build.Mixes sources.leaves
  | mixChannels sources count => Build.MixesOf (Build.columns (chunks count sources.leaves))
  | out bus source => (· = Build.outCall bus source)
  | fft call => call.Makes
  | register _ | addParameter _ | parameter _ | setInput .. => fun _ => False

/-- The fault of a composite operation that finds nothing to work on. -/
def emptyFault? : Operation → Option Fault
  | unary .. => some (.emptyInput "UnaryOpUGen" "operand")
  | binary .. => some (.emptyInput "BinaryOpUGen" "operand")
  | mulAdd .. => some (.emptyInput "MulAdd" "operand")
  | sum3 .. => some (.emptyInput "Sum3" "operand")
  | sum4 .. => some (.emptyInput "Sum4" "operand")
  | mix _ | mixChannels .. => some (.emptyInput "Mix" "sources")
  | out .. | fft _ | register _ | addParameter _ | parameter _ | setInput .. => none

/-- The classes that the operation can leave if it fails. -/
def leftovers : Operation → List Descriptor
  | register _ | addParameter _ | parameter _ | setInput .. | out .. => []
  | unary _ x => if Operands.width [x] = 0 then [] else [Catalog.unaryOpUGen]
  | binary _ x y => if Operands.width [x, y] = 0 then [] else Build.products
  | mulAdd x y z =>
    if Operands.width [x, y, z] = 0 then Build.unfused x y z
    else Build.products ++ [Catalog.mulAdd]
  | sum3 x y z => if Operands.width [x, y, z] = 0 then [] else Build.sums
  | sum4 x y z w => if Operands.width [x, y, z, w] = 0 then [] else Build.sums
  | mix sources => Build.mixed sources.leaves
  | mixChannels sources count => Build.mixedColumns (Build.columns (chunks count sources.leaves))
  | fft call => if call.bufferId.isSome then [] else [Catalog.localBuf]

theorem pure_of_mem_leftovers {op : Operation} {d : Descriptor} (h : d ∈ op.leftovers) :
    d.flags.pure ∨ d = Catalog.localBuf := by
  have hproducts : ∀ d ∈ Build.products, d.flags.pure := by decide
  have hsums : ∀ d ∈ Build.sums, d.flags.pure := by decide
  cases op with
  | unary op x => exact .inl (List.mem_singleton.1 (List.mem_ite_nil_left.1 h).2 ▸ rfl)
  | binary op x y => exact .inl (hproducts d (List.mem_ite_nil_left.1 h).2)
  | mulAdd x y z =>
    simp only [leftovers] at h
    split at h
    · exact .inl (hproducts d (List.mem_ite_nil_left.1 h).2)
    · rcases List.mem_append.1 h with h | h
      · exact .inl (hproducts d h)
      · exact .inl (List.mem_singleton.1 h ▸ rfl)
  | sum3 x y z => exact .inl (hsums d (List.mem_ite_nil_left.1 h).2)
  | sum4 x y z w => exact .inl (hsums d (List.mem_ite_nil_left.1 h).2)
  | mix sources => exact .inl (hsums d (Build.mixed_subset _ h))
  | mixChannels sources count => exact .inl (hsums d (Build.mixedColumns_subset _ h))
  | fft call => exact .inr (List.mem_singleton.1 (List.mem_ite_nil_left.1 h).2)
  | _ => cases h

theorem leaves_action {op : Operation} (hop : op.composite) :
    Build.Leaves (fun call => call.descriptor ∈ op.leftovers) op.Makes op.emptyFault?
      op.action := by
  have hnone : ∀ {r : Request}, r.rank < 4 → ∀ call, r.Keeps call → call.descriptor ∈ [] :=
    fun hrank _ hkept => absurd hkept (Request.not_keeps hrank)
  cases op with
  | register call => cases hop
  | addParameter p => cases hop
  | parameter name => cases hop
  | setInput id index value => cases hop
  | unary op x =>
    exact (Request.unary op x).leaves_classes (hnone (show 0 < 4 by decide))
      (List.Subset.refl _)
  | binary op x y =>
    refine (Request.binary op x y).leaves_classes (hnone (show 1 < 4 by decide)) ?_
    by_cases hop : op = .addition
    · subst hop
      exact List.subset_cons_self _ _
    · rw [Request.classes_binary hop]
      exact List.Subset.refl _
  | mulAdd x y z =>
    exact (Request.mulAdd x y z).leaves_classes (fun _ => Request.Keeps.descriptor_mem)
      (List.Subset.refl _)
  | sum3 x y z =>
    exact (Request.sum3 x y z).leaves_classes (hnone (show 2 < 4 by decide))
      (List.Subset.refl _)
  | sum4 x y z w =>
    exact (Request.sum4 x y z w).leaves_classes (hnone (show 3 < 4 by decide))
      (List.Subset.refl _)
  | mix sources => exact Build.leaves_mix sources
  | mixChannels sources count => exact Build.leaves_mixChannels sources count
  | out bus source => exact (Build.leaves_out _ bus source).map _
  | fft call =>
    refine (call.leaves_fft _).mono ?_ fun _ => id
    rintro made ⟨hnone, rfl⟩
    rw [leftovers, hnone]
    exact List.mem_singleton_self _

end Operation

/-- A composite operation that fails has registered some of the calls it makes, one after the other,
and then the builder refused the next one. These calls stay and nothing else is changed. They are of
the classes that the operation can leave, which are pure but for a local buffer; if there is no such
class, nothing stays. -/
theorem failed_leaves {op : Operation} (hop : op.composite) {b b' : Builder} {fault : Fault}
    (h : op.action.exec b = (.error fault, b')) :
    ∃ calls left, b.Accepts calls b' ∧ b' = b.append left ∧ (left = [] ↔ calls = []) ∧
      (∀ call ∈ calls, op.Makes call ∧ call.descriptor ∈ op.leftovers ∧
        (call.descriptor.flags.pure ∨ call.descriptor = Catalog.localBuf)) ∧
      (op.leftovers = [] → b'.nodes = b.nodes) ∧ b'.Refuses op.Makes op.emptyFault? fault := by
  obtain ⟨calls, haccepts, hmade, herror⟩ := Operation.leaves_action hop b
  rw [h] at haccepts herror
  obtain ⟨hcalls, hrefuses⟩ := herror fault rfl
  obtain ⟨left, rfl, hleft⟩ := haccepts.exists_append
  refine ⟨calls, left, haccepts, rfl, hleft, fun call hcall => ?_, fun hnone => ?_, hrefuses⟩
  · exact ⟨hmade call hcall, hcalls call hcall,
      Operation.pure_of_mem_leftovers (hcalls call hcall)⟩
  · have hnil : calls = [] := List.eq_nil_iff_forall_not_mem.2 fun call hcall => by
      simpa [hnone] using hcalls call hcall
    rw [hleft.2 hnil]
    simp [Builder.append]

/-- Signals that are sorted by rate stay as they are. -/
theorem Build.byRate_eq : byRate = fun signals =>
    if signals.Pairwise (fun a b => b.rate.index ≤ a.rate.index) then signals
    else byRate signals := by
  funext signals
  split
  · next hsorted => exact List.mergeSort_of_pairwise (by simpa using hsorted)
  · rfl

/-- A builder with a noise at audio rate and one at control rate. -/
def hissBuilder : Builder :=
  [Operation.register { descriptor := Catalog.whiteNoise, rate := .audio },
    .register { descriptor := Catalog.whiteNoise, rate := .control }].foldl
      (fun b op => op.after b) { scope := 0 }

/-- A sum of three channels, the last of which is an outlet of another builder. -/
def foreignBinary : Operation :=
  .binary .addition (.vector [.outlet ⟨0, 0, 0, .audio⟩, .outlet ⟨0, 1, 0, .control⟩,
    .outlet ⟨1, 0, 0, .audio⟩]) (.outlet ⟨0, 0, 0, .audio⟩)

/-- The sums of the first two channels stay. -/
theorem foreignBinary_leaves : foreignBinary.composite ∧
    ∃ fault b', foreignBinary.action.exec hissBuilder = (.error fault, b') ∧
      ∃ calls left, hissBuilder.Accepts calls b' ∧ b' = hissBuilder.append left ∧
        left.map (·.className) = ["BinaryOpUGen", "BinaryOpUGen"] ∧ calls ≠ [] ∧
        (∀ call ∈ calls, foreignBinary.Makes call ∧ call.descriptor ∈ Build.products) ∧
        b'.Refuses foreignBinary.Makes foreignBinary.emptyFault? fault := by
  have hnone : (foreignBinary.action.exec hissBuilder).1.toOption.isNone := by decide +kernel
  have hclasses : ((foreignBinary.action.exec hissBuilder).2.nodes.toList.map (·.className)) =
      ["WhiteNoise", "WhiteNoise", "BinaryOpUGen", "BinaryOpUGen"] := by decide +kernel
  rcases hexec : foreignBinary.action.exec hissBuilder with ⟨fault | s, b'⟩
  · obtain ⟨calls, left, haccepts, rfl, hleft, hcalls, -, hrefuses⟩ := failed_leaves rfl hexec
    have hnames : left.map (·.className) = ["BinaryOpUGen", "BinaryOpUGen"] := by
      have hhiss : (hissBuilder.nodes.toList.map (·.className)) = ["WhiteNoise", "WhiteNoise"] := by
        decide +kernel
      rw [hexec] at hclasses
      simpa [Builder.append, hhiss] using hclasses
    refine ⟨rfl, fault, _, rfl, calls, left, haccepts, rfl, hnames, ?_, ?_, hrefuses⟩
    · rintro rfl
      rw [hleft.2 rfl] at hnames
      cases hnames
    · exact fun call hcall => ⟨(hcalls call hcall).1, (hcalls call hcall).2.1⟩
  · rw [hexec] at hnone
    cases hnone

/-- Operations on outlets of another builder. -/
def foreignOperations : List Operation :=
  let own : Signal := .outlet ⟨0, 0, 0, .audio⟩
  let slow : Signal := .outlet ⟨0, 1, 0, .control⟩
  let foreign : Signal := .outlet ⟨1, 0, 0, .audio⟩
  [.unary .negative (.vector [own, foreign]),
    .binary .addition (.vector [own, foreign]) own,
    .mulAdd slow slow foreign,
    .sum3 (.vector [own, foreign]) own own,
    .sum4 (.vector [own, foreign]) own own own,
    .mix (.vector [own, own, own, own, foreign]),
    .mixChannels (.vector [own, own, own, foreign]) 2]

/-- A transform of an outlet of another builder. -/
def foreignFft : Operation := .fft { source := .outlet ⟨1, 0, 0, .audio⟩ }

/-- All of them fail and leave a node. -/
theorem foreignOperations_leave :
    (foreignOperations.map fun op => ((op.action.exec hissBuilder).1.toOption.isNone,
        (op.action.exec hissBuilder).2.nodes.toList.map (·.className))) =
      [(true, ["WhiteNoise", "WhiteNoise", "UnaryOpUGen"]),
        (true, ["WhiteNoise", "WhiteNoise", "BinaryOpUGen"]),
        (true, ["WhiteNoise", "WhiteNoise", "BinaryOpUGen"]),
        (true, ["WhiteNoise", "WhiteNoise", "Sum3"]),
        (true, ["WhiteNoise", "WhiteNoise", "Sum4"]),
        (true, ["WhiteNoise", "WhiteNoise", "Sum4"]),
        (true, ["WhiteNoise", "WhiteNoise", "BinaryOpUGen"])] ∧
    (foreignFft.action.exec hissBuilder).1.toOption.isNone ∧
    ((foreignFft.action.exec hissBuilder).2.nodes.toList.map (·.className)) =
      ["WhiteNoise", "WhiteNoise", "LocalBuf"] := by
  refine ⟨?_, by decide +kernel, by decide +kernel⟩
  have hmix : ∀ p q : Outlet, Build.mix (.vector [.outlet p, .outlet p, .outlet p, .outlet p,
      .outlet q]) = Build.sum4Scalar (.outlet p) (.outlet p) (.outlet p) (.outlet p) >>= fun s =>
        Build.mixRounds 4 [s, .outlet q] := by
    intro p q
    have hleaves : (Signal.vector [.outlet p, .outlet p, .outlet p, .outlet p, .outlet q]).leaves =
        [.outlet p, .outlet p, .outlet p, .outlet p, .outlet q] := rfl
    rw [Build.mix, hleaves]
    simp [Build.mixRounds, Build.mixRound]
  -- sorting by rate does not reduce in the kernel, but there is nothing to sort
  simp only [foreignOperations, List.map_cons, List.map_nil, Operation.action, hmix,
    Build.sum3, Build.sum3Scalar, Build.sum4, Build.sum4Scalar, Build.sumOf]
  rw [Build.byRate_eq]
  decide +kernel

end SynthGraph
