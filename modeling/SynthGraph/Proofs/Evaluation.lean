import Mathlib.Algebra.BigOperators.Group.List.Basic
import Mathlib.Algebra.Field.Basic
import Mathlib.Algebra.Field.Rat
import Mathlib.Tactic.NormNum
import SynthGraph.Proofs.Reachability
import SynthGraph.Proofs.Requests

/-!
# Operators keep their meaning

Read the constants of a graph in a field and give every outlet a value there. Then an operator on
scalars has a meaning, and so does the node of an operator that computes. Whatever step an operator
takes, the signal that it returns has the meaning that was asked for, if every node that it added
has the value its class says and no constant that was folded on the way had to be rounded.
-/

namespace SynthGraph

/-! ## Values -/

/-- Constants read as numbers of a field. -/
structure Reading (K : Type*) [Field K] where
  value : Single → K
  zero : value 0 = 0
  negZero : value (-0) = 0
  one : value 1 = 1
  negOne : value (-1) = -1

/-- The value of every outlet, by the scope of its builder. -/
def Valuation (K : Type*) := Nat → NodeRef → K

section Set

variable {K : Type*} {v : Valuation K}

namespace Valuation

/-- The first outlet of a node gets another value. -/
def set (v : Valuation K) (scope id : Nat) (x : K) : Valuation K :=
  fun scope' ref => if scope' = scope ∧ ref = ⟨id, 0⟩ then x else v scope' ref

@[simp] theorem set_self (v : Valuation K) (scope id : Nat) (x : K) :
    v.set scope id x scope ⟨id, 0⟩ = x := if_pos ⟨rfl, rfl⟩

theorem set_of_ne {scope scope' id : Nat} {x : K} {ref : NodeRef}
    (h : scope' = scope → ref.ugen ≠ id) : v.set scope id x scope' ref = v scope' ref := by
  refine if_neg ?_
  rintro ⟨hscope, rfl⟩
  exact h hscope rfl

end Valuation

end Set

variable {K : Type*} [Field K] {ι : Reading K} {v : Valuation K}

namespace Single

/-- The two zeros. -/
theorem eq_zero_of_isZero {a : Single} (h : a.isZero) : a = 0 ∨ a = -0 := by
  have hmask : (a.bits.toNat &&& (2 ^ 31 - 1)) = 0 := by
    have hbits : a.bits &&& 0x7FFFFFFF = 0 := by simpa [isZero] using h
    exact congrArg UInt32.toNat hbits
  rw [Nat.and_two_pow_sub_one_eq_mod] at hmask
  have hlt := a.bits.toNat_lt
  have hcases : a.bits.toNat = 0 ∨ a.bits.toNat = 2 ^ 31 := by omega
  rcases hcases with hbits | hbits
  · exact .inl (congrArg Single.mk (UInt32.toNat_inj.1 hbits))
  · exact .inr (congrArg Single.mk (UInt32.toNat_inj.1 hbits))

theorem eq_or_isZero_of_numEq {a b : Single} (h : a.numEq b) : a = b ∨ a.isZero ∧ b.isZero := by
  simp only [numEq, Bool.and_eq_true, Bool.or_eq_true, beq_iff_eq] at h
  rcases h.2 with hbits | hzero
  · exact .inl (congrArg Single.mk hbits)
  · exact .inr hzero

end Single

namespace Signal

/-- The value of a scalar. -/
def value (ι : Reading K) (v : Valuation K) : Signal → K
  | constant a => ι.value a
  | outlet p => v p.scope ⟨p.ugen, p.output⟩
  | vector _ => 0

variable {s : Signal}

theorem value_of_isConstant (ι : Reading K) (v : Valuation K) {c : Single} (h : s.isConstant c) :
    s.value ι v = ι.value c ∨ c.isZero ∧ s.value ι v = 0 := by
  cases s with
  | constant a =>
    have heq : a.numEq c := h
    rcases Single.eq_or_isZero_of_numEq heq with rfl | ⟨ha, hc⟩
    · exact .inl rfl
    · refine .inr ⟨hc, ?_⟩
      rcases Single.eq_zero_of_isZero ha with rfl | rfl
      · exact ι.zero
      · exact ι.negZero
  | outlet p => cases h
  | vector items => cases h

theorem value_zero (h : s.isConstant 0) : s.value ι v = 0 := by
  rcases value_of_isConstant ι v h with heq | ⟨-, heq⟩
  · exact heq.trans ι.zero
  · exact heq

theorem value_one (h : s.isConstant 1) : s.value ι v = 1 := by
  rcases value_of_isConstant ι v h with heq | ⟨hzero, -⟩
  · exact heq.trans ι.one
  · exact absurd hzero (by decide)

theorem value_negOne (h : s.isConstant (-1)) : s.value ι v = -1 := by
  rcases value_of_isConstant ι v h with heq | ⟨hzero, -⟩
  · exact heq.trans ι.negOne
  · exact absurd hzero (by decide)

end Signal

/-! ## Meanings -/

/-- What the operator computes, if it is one of arithmetic. -/
def UnaryOperator.meaning? : UnaryOperator → Option (K → K)
  | negative => some fun x => -x
  | _ => none

/-- What the operator computes, if it is one of arithmetic. -/
def BinaryOperator.meaning? : BinaryOperator → Option (K → K → K)
  | addition => some fun x y => x + y
  | subtraction => some fun x y => x - y
  | multiplication => some fun x y => x * y
  | floatDivision => some fun x y => x / y
  | _ => none

def Input.value (ι : Reading K) (values : NodeRef → K) : Input → K
  | constant a => ι.value a
  | node ref => values ref

/-- The value of the node of an operator, as its class and its special index say. -/
def Node.value? (ι : Reading K) (values : NodeRef → K) (n : Node) : Option K :=
  match n.className, n.inputs.map (·.value ι values) with
  | "UnaryOpUGen", [x] =>
    ((UnaryOperator.ofIndex? n.special.toNat).bind UnaryOperator.meaning?).map fun f => f x
  | "BinaryOpUGen", [x, y] =>
    ((BinaryOperator.ofIndex? n.special.toNat).bind BinaryOperator.meaning?).map fun f => f x y
  | "MulAdd", [x, y, z] => some (x * y + z)
  | "Sum3", [x, y, z] => some (x + y + z)
  | "Sum4", [x, y, z, w] => some (x + y + z + w)
  | _, _ => none

/-- The value of a node depends only on what it reads. -/
theorem Node.value?_congr {n : Node} {values values' : NodeRef → K}
    (h : ∀ ref, Input.node ref ∈ n.inputs → values ref = values' ref) :
    n.value? ι values = n.value? ι values' := by
  have hinputs : n.inputs.map (·.value ι values) = n.inputs.map (·.value ι values') := by
    refine List.map_congr_left fun input hinput => ?_
    cases input with
    | constant a => rfl
    | node ref => exact h ref hinput
  unfold Node.value?
  rw [hinputs]

namespace Request

/-- The value that the operator is asked for, if it is one of arithmetic. -/
def meaning? (ι : Reading K) (v : Valuation K) : Request → Option K
  | unary op x => op.meaning?.map fun f => f (x.value ι v)
  | binary op x y => op.meaning?.map fun f => f (x.value ι v) (y.value ι v)
  | mulAdd x y z => some (x.value ι v * y.value ι v + z.value ι v)
  | sum3 x y z => some (x.value ι v + y.value ι v + z.value ι v)
  | sum4 x y z w => some (x.value ι v + y.value ι v + z.value ι v + w.value ι v)

end Request

/-! ## One step -/

/-- The step leads to the value. A fold is left open: it may round. -/
def Step.Means (ι : Reading K) (v : Valuation K) (value : K) : Step → Prop
  | folds _ => True
  | gives s => s.value ι v = value
  | asks r | registers r => r.meaning? ι v = some value
  | chains first rest => ∃ between, first.meaning? ι v = some between ∧
      ∀ s : Signal, s.value ι v = between → (rest s).meaning? ι v = some value

namespace Request

variable {x y z w : Signal} {value : K}

/-- Every identity holds in a field. -/
theorem means_shortcut? {op : BinaryOperator} {step : Step} (h : shortcut? op x y = some step)
    (hvalue : (binary op x y).meaning? ι v = some value) : step.Means ι v value := by
  cases op with
  | multiplication =>
    obtain rfl : x.value ι v * y.value ι v = value := Option.some.inj hvalue
    simp only [shortcut?] at h
    split at h
    · next hzero =>
      cases h
      show ι.value 0 = _
      rcases Bool.or_eq_true_iff.1 hzero with hx | hy
      · rw [Signal.value_zero hx, zero_mul, ι.zero]
      · rw [Signal.value_zero hy, mul_zero, ι.zero]
    split at h
    · next hx =>
      cases h
      show y.value ι v = _
      rw [Signal.value_one hx, one_mul]
    split at h
    · next hx =>
      cases h
      show some (-y.value ι v) = _
      rw [Signal.value_negOne hx, neg_one_mul]
    split at h
    · next hy =>
      cases h
      show x.value ι v = _
      rw [Signal.value_one hy, mul_one]
    split at h
    · next hy =>
      cases h
      show some (-x.value ι v) = _
      rw [Signal.value_negOne hy, mul_neg_one]
    · cases h
  | addition =>
    obtain rfl : x.value ι v + y.value ι v = value := Option.some.inj hvalue
    simp only [shortcut?] at h
    split at h
    · next hx =>
      cases h
      show y.value ι v = _
      rw [Signal.value_zero hx, zero_add]
    split at h
    · next hy =>
      cases h
      show x.value ι v = _
      rw [Signal.value_zero hy, add_zero]
    · cases h
  | subtraction =>
    obtain rfl : x.value ι v - y.value ι v = value := Option.some.inj hvalue
    simp only [shortcut?] at h
    split at h
    · next hx =>
      cases h
      show some (-y.value ι v) = _
      rw [Signal.value_zero hx, zero_sub]
    split at h
    · next hy =>
      cases h
      show x.value ι v = _
      rw [Signal.value_zero hy, sub_zero]
    · cases h
  | floatDivision =>
    obtain rfl : x.value ι v / y.value ι v = value := Option.some.inj hvalue
    simp only [shortcut?] at h
    split at h
    · next hy =>
      cases h
      show x.value ι v = _
      rw [Signal.value_one hy, div_one]
    split at h
    · next hy =>
      cases h
      show some (-x.value ι v) = _
      rw [Signal.value_negOne hy, div_neg, div_one]
    · cases h
  | _ => cases h

theorem means_mulAdd (hvalue : (mulAdd x y z).meaning? ι v = some value) :
    (mulAdd x y z).step.Means ι v value := by
  obtain rfl : x.value ι v * y.value ι v + z.value ι v = value := Option.some.inj hvalue
  simp only [step]
  split
  · next hy =>
    show z.value ι v = _
    rw [Signal.value_zero hy, mul_zero, zero_add]
  split
  · next hyz =>
    obtain ⟨hy, hz⟩ := Bool.and_eq_true_iff.1 hyz
    show x.value ι v = _
    rw [Signal.value_one hy, Signal.value_zero hz, mul_one, add_zero]
  split
  · next hyz =>
    obtain ⟨hy, hz⟩ := Bool.and_eq_true_iff.1 hyz
    show some (-x.value ι v) = _
    rw [Signal.value_negOne hy, Signal.value_zero hz, mul_neg_one, add_zero]
  split
  · next hz =>
    show some (x.value ι v * y.value ι v) = _
    rw [Signal.value_zero hz, add_zero]
  split
  · next hy =>
    show some (z.value ι v - x.value ι v) = _
    rw [Signal.value_negOne hy, mul_neg_one, neg_add_eq_sub]
  split
  · next hy =>
    show some (x.value ι v + z.value ι v) = _
    rw [Signal.value_one hy, mul_one]
  split
  · rfl
  split
  · show some (y.value ι v * x.value ι v + z.value ι v) = _
    rw [mul_comm]
  · refine ⟨_, rfl, fun s hs => ?_⟩
    show some (s.value ι v + z.value ι v) = _
    rw [hs]

theorem means_sum3 (hvalue : (sum3 x y z).meaning? ι v = some value) :
    (sum3 x y z).step.Means ι v value := by
  obtain rfl : x.value ι v + y.value ι v + z.value ι v = value := Option.some.inj hvalue
  simp only [step]
  split
  · next hz =>
    show some (x.value ι v + y.value ι v) = _
    rw [Signal.value_zero hz, add_zero]
  split
  · next hy =>
    show some (x.value ι v + z.value ι v) = _
    rw [Signal.value_zero hy, add_zero]
  split
  · next hx =>
    show some (y.value ι v + z.value ι v) = _
    rw [Signal.value_zero hx, zero_add]
  · rfl

theorem means_sum4 (hvalue : (sum4 x y z w).meaning? ι v = some value) :
    (sum4 x y z w).step.Means ι v value := by
  obtain rfl : x.value ι v + y.value ι v + z.value ι v + w.value ι v = value :=
    Option.some.inj hvalue
  simp only [step]
  split
  · next hx =>
    show some (y.value ι v + z.value ι v + w.value ι v) = _
    rw [Signal.value_zero hx, zero_add]
  split
  · next hy =>
    show some (x.value ι v + z.value ι v + w.value ι v) = _
    rw [Signal.value_zero hy, add_zero]
  split
  · next hz =>
    show some (x.value ι v + y.value ι v + w.value ι v) = _
    rw [Signal.value_zero hz, add_zero]
  split
  · next hw =>
    show some (x.value ι v + y.value ι v + z.value ι v) = _
    rw [Signal.value_zero hw, add_zero]
  · rfl

/-- No step leads away from the value that was asked for. -/
theorem means_step {r : Request} (hvalue : r.meaning? ι v = some value) :
    r.step.Means ι v value := by
  cases r with
  | unary op x =>
    simp only [step]
    split
    · trivial
    · exact hvalue
  | binary op x y =>
    simp only [step]
    split
    · trivial
    · cases hs : shortcut? op x y with
      | some step => exact means_shortcut? hs hvalue
      | none => exact hvalue
  | mulAdd x y z => exact means_mulAdd hvalue
  | sum3 x y z => exact means_sum3 hvalue
  | sum4 x y z w => exact means_sum4 hvalue

end Request

/-! ## Runs -/

/-- What the operator does to a builder, step after step, with the constants it folds on the way. -/
inductive Request.Runs : Request → Builder → Signal → Builder → List (Request × Single) → Prop
  | folds {r : Request} {b : Builder} {value : Single} (h : r.step = .folds value) :
      Runs r b (.constant value) b [(r, value)]
  | gives {r : Request} {b : Builder} {s : Signal} (h : r.step = .gives s) : Runs r b s b []
  | asks {r r' : Request} {b b' : Builder} {s : Signal} {folds : List (Request × Single)}
      (h : r.step = .asks r') (hasked : Runs r' b s b' folds) : Runs r b s b' folds
  | registers {r r' : Request} {b : Builder} (h : r.step = .registers r')
      (hrate : r'.call.descriptor.supports r'.call.rate)
      (hwires : ∀ o ∈ r'.operands, b.Wires o) :
      Runs r b (.outlet (r'.nextOutlet b)) (b.append [r'.node]) []
  | chains {r first : Request} {rest : Signal → Request} {b c b' : Builder} {t s : Signal}
      {folds folds' : List (Request × Single)} (h : r.step = .chains first rest)
      (hfirst : Runs first b t c folds) (hrest : Runs (rest t) c s b' folds') :
      Runs r b s b' (folds ++ folds')

namespace Request

variable {r : Request} {b b' : Builder} {s : Signal} {folds : List (Request × Single)}

/-- The operation of a builder that the request is for. -/
def operation : Request → Operation
  | unary op x => .unary op x
  | binary op x y => .binary op x y
  | mulAdd x y z => .mulAdd x y z
  | sum3 x y z => .sum3 x y z
  | sum4 x y z w => .sum4 x y z w

theorem action_operation (hscalar : ∀ o ∈ r.operands, o.isVector = false) :
    r.operation.action = r.action := by
  cases r <;> exact Build.perChannel_scalars _ _ hscalar

/-- A request on scalars that succeeds gives a scalar, by a run. -/
theorem runs_of_exec (hscalar : ∀ o ∈ r.operands, o.isVector = false)
    (h : r.action.exec b = (.ok s, b')) : s.isVector = false ∧ ∃ folds, r.Runs b s b' folds := by
  induction r using Request.induction generalizing b s b' with
  | h r hasks hchains =>
    have hwithin := r.within_step
    rw [← action_step] at h
    cases hstep : r.step with
    | folds value =>
      rw [hstep] at h
      cases h
      exact ⟨rfl, _, .folds hstep⟩
    | gives t =>
      rw [hstep] at h hwithin
      cases h
      refine ⟨?_, _, .gives hstep⟩
      rcases hwithin with hmem | ⟨value, rfl⟩
      · exact hscalar _ hmem
      · rfl
    | asks r' =>
      rw [hstep] at h hwithin
      obtain ⟨hs, folds, hrun⟩ := hasks r' hstep (fun o ho => hscalar o (hwithin.2 ho)) h
      exact ⟨hs, folds, .asks hstep hrun⟩
    | registers r' =>
      rw [hstep] at h hwithin
      have hscalar' : ∀ o ∈ r'.operands, o.isVector = false := fun o ho => hscalar o (hwithin ho)
      have hexec : (Build.register r'.call).exec b = (.ok s, b') := h
      have hplan : b.plan r'.call = .ok [r'.node] := by
        rw [Build.exec_register] at hexec
        cases hnodes : b.plan r'.call with
        | ok nodes => rw [((plan_call_iff hscalar').1 hnodes).2.2]
        | error fault =>
          rw [hnodes] at hexec
          cases hexec
      rw [exec_register_call hplan] at hexec
      cases hexec
      obtain ⟨hrate, hwires, -⟩ := (plan_call_iff hscalar').1 hplan
      exact ⟨rfl, _, .registers hstep hrate hwires⟩
    | chains first rest =>
      rw [hstep] at h hwithin
      obtain ⟨hfirst, hrest⟩ := hchains first rest hstep
      obtain ⟨t, c, hrun, hexec⟩ := Build.exec_bind_eq_ok.1
        (h : (first.action >>= fun t => (rest t).action).exec b = (.ok s, b'))
      obtain ⟨ht, folds, hrun⟩ := hfirst (fun o ho => hscalar o (hwithin.1.2 ho)) hrun
      have hscalar' : ∀ o ∈ (rest t).operands, o.isVector = false := by
        intro o ho
        rcases List.mem_cons.1 ((hwithin.2 t).2 ho) with rfl | ho
        · exact ht
        · exact hscalar o ho
      obtain ⟨hs, folds', hrun'⟩ := hrest t hscalar' hexec
      exact ⟨hs, _, .chains hstep hrun hrun'⟩

theorem Runs.exec (h : r.Runs b s b' folds) : r.action.exec b = (.ok s, b') := by
  induction h with
  | folds h =>
    rw [← action_step, h]
    rfl
  | gives h =>
    rw [← action_step, h]
    rfl
  | asks h _ ih =>
    rw [← action_step, h]
    exact ih
  | registers h hrate hwires =>
    rw [← action_step, h]
    have hscalar := fun o ho => (hwires o ho).isVector
    exact exec_register_call ((plan_call_iff hscalar).2 ⟨hrate, hwires, rfl⟩)
  | @chains r first rest _ _ _ _ _ _ _ h _ _ ihfirst ihrest =>
    rw [← action_step, h]
    show (first.action >>= fun t => (rest t).action).exec _ = _
    rw [Build.exec_bind, ihfirst]
    exact ihrest

/-- The constants that are folded are determined. -/
theorem Runs.folds_unique {t : Signal} {c : Builder} {folds' : List (Request × Single)}
    (h : r.Runs b s b' folds) (h' : r.Runs b t c folds') : folds' = folds := by
  induction h generalizing t c folds' with
  | folds h =>
    cases h' with
    | folds h' =>
      cases h.symm.trans h'
      rfl
    | gives h' | asks h' | registers h' | chains h' => cases h.symm.trans h'
  | gives h =>
    cases h' with
    | gives h' => rfl
    | folds h' | asks h' | registers h' | chains h' => cases h.symm.trans h'
  | asks h _ ih =>
    cases h' with
    | asks h' hasked =>
      cases h.symm.trans h'
      exact ih hasked
    | folds h' | gives h' | registers h' | chains h' => cases h.symm.trans h'
  | registers h =>
    cases h' with
    | registers h' => rfl
    | folds h' | gives h' | asks h' | chains h' => cases h.symm.trans h'
  | chains h hfirst _ ihfirst ihrest =>
    cases h' with
    | chains h' hfirst' hrest' =>
      cases h.symm.trans h'
      -- Both runs go on from the same signal, in the same builder.
      cases hfirst.exec.symm.trans hfirst'.exec
      rw [ihfirst hfirst', ihrest hrest']
    | folds h' | gives h' | asks h' | registers h' => cases h.symm.trans h'

end Request

/-! ## Solving the nodes that were added -/

/-- Some nodes follow, and each reads only what stands before it. -/
structure Builder.Appends (b b' : Builder) : Prop where
  nodes : ∃ nodes, b' = b.append nodes
  earlier : ∀ id n, b.nodes.size ≤ id → b'.nodes[id]? = some n →
    ∀ ref, Input.node ref ∈ n.inputs → ref.ugen < id

namespace Builder.Appends

variable {b b' b'' : Builder}

theorem refl (b : Builder) : b.Appends b := by
  refine ⟨⟨[], by simp [append]⟩, fun id n hid hn => ?_⟩
  exact absurd (Array.getElem?_eq_some_iff.1 hn).1 (Nat.not_lt.2 hid)

theorem extended (h : b.Appends b') : b.Extends b' := by
  obtain ⟨nodes, rfl⟩ := h.nodes
  exact b.extends_append nodes

theorem scope (h : b.Appends b') : b'.scope = b.scope := h.extended.scope

theorem size_le (h : b.Appends b') : b.nodes.size ≤ b'.nodes.size := h.extended.size_le

theorem getElem? (h : b.Appends b') {id : Nat} {n : Node} (hn : b.nodes[id]? = some n) :
    b'.nodes[id]? = some n := by
  obtain ⟨nodes, rfl⟩ := h.nodes
  exact getElem?_append hn nodes

theorem trans (h : b.Appends b') (h' : b'.Appends b'') : b.Appends b'' := by
  refine ⟨?_, fun id n hid hn => ?_⟩
  · obtain ⟨nodes, rfl⟩ := h.nodes
    obtain ⟨nodes', rfl⟩ := h'.nodes
    exact ⟨nodes ++ nodes', by simp [append, Array.append_assoc]⟩
  · rcases Nat.lt_or_ge id b'.nodes.size with hlt | hge
    · have hn' := h'.getElem? (Array.getElem?_eq_getElem hlt)
      rw [hn] at hn'
      obtain rfl := Option.some.inj hn'
      exact h.earlier id _ hid (Array.getElem?_eq_getElem hlt)
    · exact h'.earlier id n hge hn

end Builder.Appends

namespace Valuation

variable {b b' b'' : Builder}

/-- Each node that was added has the value its class says, if it is one of an operator. -/
def Solves (v : Valuation K) (ι : Reading K) (b b' : Builder) : Prop :=
  ∀ id n x, b.nodes.size ≤ id → b'.nodes[id]? = some n → n.value? ι (v b.scope) = some x →
    v b.scope ⟨id, 0⟩ = x

/-- The valuations agree on all that was there before. -/
def AgreesOn (v v' : Valuation K) (b : Builder) : Prop :=
  ∀ scope ref, (scope = b.scope → ref.ugen < b.nodes.size) → v scope ref = v' scope ref

theorem Solves.left (hv : v.Solves ι b b'') (h' : b'.Appends b'') : v.Solves ι b b' :=
  fun id n x hid hn hx => hv id n x hid (h'.getElem? hn) hx

theorem Solves.right (hv : v.Solves ι b b'') (h : b.Appends b') : v.Solves ι b' b'' := by
  intro id n x hid hn hx
  rw [h.scope] at hx ⊢
  exact hv id n x (h.size_le.trans hid) hn hx

/-- The nodes that were added can be solved one after the other. -/
theorem exists_solves (ι : Reading K) (v : Valuation K) (h : b.Appends b') :
    ∃ v' : Valuation K, v'.AgreesOn v b ∧ v'.Solves ι b b' := by
  -- The first nodes are solved already, and the next one reads no other.
  have hfirst : ∀ count, ∃ v' : Valuation K, v'.AgreesOn v b ∧
      ∀ id n x, id < b.nodes.size + count → b.nodes.size ≤ id → b'.nodes[id]? = some n →
        n.value? ι (v' b.scope) = some x → v' b.scope ⟨id, 0⟩ = x := by
    intro count
    induction count with
    | zero => exact ⟨v, fun _ _ _ => rfl, fun id n x hlt hge => absurd hlt (Nat.not_lt.2 hge)⟩
    | succ count ih =>
      obtain ⟨v', hagrees, hsolved⟩ := ih
      let next := b.nodes.size + count
      let x := (b'.nodes[next]?.bind (·.value? ι (v' b.scope))).getD 0
      refine ⟨v'.set b.scope next x, fun scope ref hbefore => ?_, fun id n y hlt hge hn hy => ?_⟩
      · rw [set_of_ne fun hscope => ?_, hagrees scope ref hbefore]
        have := hbefore hscope
        omega
      · have hreads : n.value? ι (v'.set b.scope next x b.scope) = n.value? ι (v' b.scope) := by
          refine Node.value?_congr fun ref href => set_of_ne fun _ => ?_
          have := h.earlier id n hge hn ref href
          omega
        rw [hreads] at hy
        rcases Nat.lt_or_eq_of_le (Nat.le_of_lt_succ hlt : id ≤ next) with hlt | heq
        · rw [set_of_ne fun _ => Nat.ne_of_lt hlt]
          exact hsolved id n y hlt hge hn hy
        · rw [heq] at hn ⊢
          rw [set_self]
          show (b'.nodes[next]?.bind (·.value? ι (v' b.scope))).getD 0 = y
          rw [hn, Option.bind_some, hy, Option.getD_some]
  obtain ⟨v', hagrees, hsolved⟩ := hfirst b'.nodes.size
  refine ⟨v', hagrees, fun id n x hge hn => hsolved id n x ?_ hge hn⟩
  have := (Array.getElem?_eq_some_iff.1 hn).1
  omega

end Valuation

/-! ## What a run makes -/

theorem UnaryOperator.ofIndex?_index (op : UnaryOperator) :
    ofIndex? op.index.toUInt16.toNat = some op := by
  cases op <;> rfl

theorem BinaryOperator.ofIndex?_index (op : BinaryOperator) :
    ofIndex? op.index.toUInt16.toNat = some op := by
  cases op <;> rfl

theorem Builder.Wires.value_input {b : Builder} {s : Signal} (h : b.Wires s) :
    s.input.value ι (v b.scope) = s.value ι v := by
  cases s with
  | constant a => rfl
  | outlet p =>
    show v b.scope _ = v p.scope _
    rw [h.1]
  | vector items => cases h

namespace Request

variable {r : Request} {b b' : Builder} {s : Signal} {folds : List (Request × Single)}

/-- The node that is registered computes what was asked for, in whichever order it has the
operands. -/
theorem value?_node (hwires : ∀ o ∈ r.operands, b.Wires o) :
    r.node.value? ι (v b.scope) = r.meaning? ι v := by
  have hinputs : r.node.inputs.map (·.value ι (v b.scope)) = r.values.map (·.value ι v) := by
    show (r.values.map Signal.input).map _ = _
    rw [List.map_map]
    exact List.map_congr_left fun o ho => (hwires o (r.values_perm.mem_iff.1 ho)).value_input
  have hlength := r.values_perm.length_eq
  have hsum := (r.values_perm.map (·.value ι v)).sum_eq
  unfold Node.value?
  rw [hinputs]
  cases r with
  | unary op x =>
    show ((UnaryOperator.ofIndex? op.index.toUInt16.toNat).bind _).map _ = _
    rw [op.ofIndex?_index]
    rfl
  | binary op x y =>
    show ((BinaryOperator.ofIndex? op.index.toUInt16.toNat).bind _).map _ = _
    rw [op.ofIndex?_index]
    rfl
  | mulAdd x y z => rfl
  | sum3 x y z =>
    obtain ⟨x', y', z', hvalues⟩ := List.length_eq_three.1 hlength
    rw [hvalues] at hsum ⊢
    refine congrArg some (?_ : x'.value ι v + y'.value ι v + z'.value ι v = _)
    simpa [operands, add_assoc] using hsum
  | sum4 x y z w =>
    obtain ⟨x', rest, hvalues⟩ := List.exists_cons_of_length_eq_add_one hlength
    rw [hvalues] at hlength hsum ⊢
    obtain ⟨y', z', w', rfl⟩ := List.length_eq_three.1 (Nat.succ.inj hlength)
    refine congrArg some (?_ : x'.value ι v + y'.value ι v + z'.value ι v + w'.value ι v = _)
    simpa [operands, add_assoc] using hsum

/-- The node reads its operands, which stand before it. -/
theorem appends_node (hwires : ∀ o ∈ r.operands, b.Wires o) : b.Appends (b.append [r.node]) := by
  refine ⟨⟨_, rfl⟩, fun id n hid hn ref href => ?_⟩
  obtain ⟨k, rfl⟩ := Nat.exists_eq_add_of_le hid
  rw [Builder.getElem?_append_new, List.getElem?_singleton] at hn
  split at hn
  · obtain rfl := Option.some.inj hn
    obtain ⟨o, ho, hinput⟩ := List.mem_map.1 href
    have hwires' := hwires o (r.values_perm.mem_iff.1 ho)
    cases o with
    | constant a => cases hinput
    | outlet p =>
      cases hinput
      exact Nat.lt_of_lt_of_le hwires'.2 hid
    | vector items => cases hwires'
  · cases hn

theorem Runs.appends (h : r.Runs b s b' folds) : b.Appends b' := by
  induction h with
  | folds _ => exact .refl _
  | gives _ => exact .refl _
  | asks _ _ ih => exact ih
  | registers _ _ hwires => exact appends_node hwires
  | chains _ _ _ ihfirst ihrest => exact ihfirst.trans ihrest

/-- The constant is the value of what was folded. -/
def Exact (ι : Reading K) (v : Valuation K) (fold : Request × Single) : Prop :=
  ∀ x, fold.1.meaning? ι v = some x → ι.value fold.2 = x

theorem Runs.value {x : K} (h : r.Runs b s b' folds) (hexact : ∀ fold ∈ folds, Exact ι v fold)
    (hv : v.Solves ι b b') (hx : r.meaning? ι v = some x) : s.value ι v = x := by
  induction h generalizing x with
  | folds h => exact hexact _ List.mem_cons_self x hx
  | gives h =>
    have hmeans := means_step hx
    rw [h] at hmeans
    exact hmeans
  | asks h _ ih =>
    have hmeans := means_step hx
    rw [h] at hmeans
    exact ih hexact hv hmeans
  | @registers _ r' b h _ hwires =>
    have hmeans := means_step hx
    rw [h] at hmeans
    refine hv b.nodes.size r'.node x (Nat.le_refl _) (Builder.getElem?_append_new 0) ?_
    exact (value?_node hwires).trans hmeans
  | chains h hfirst hrest ihfirst ihrest =>
    have hmeans := means_step hx
    rw [h] at hmeans
    obtain ⟨between, hbetween, hvalue⟩ := hmeans
    have ht := ihfirst (fun f hf => hexact f (List.mem_append_left _ hf))
      (hv.left hrest.appends) hbetween
    exact ihrest (fun f hf => hexact f (List.mem_append_right _ hf))
      (hv.right hfirst.appends) (hvalue _ ht)

/-- Whichever steps an operator takes on scalars, what it returns has the value that was asked for.
It only adds nodes. They can be given the values that their classes say, whatever the outlets that
existed have, and then no fold but one that rounds leads to another value. -/
theorem operation_evaluates {r : Request} (hscalar : ∀ o ∈ r.operands, o.isVector = false)
    (hexec : r.operation.action.exec b = (.ok s, b')) :
    (∃ nodes, b' = b.append nodes) ∧
    ∃ folds, (∀ folds', r.Runs b s b' folds' ↔ folds' = folds) ∧
      ∀ {K : Type*} [Field K] (ι : Reading K),
        (∀ v : Valuation K, ∃ v' : Valuation K, v'.AgreesOn v b ∧ v'.Solves ι b b') ∧
        ∀ v : Valuation K, v.Solves ι b b' → (∀ fold ∈ folds, Exact ι v fold) →
          ∀ x, r.meaning? ι v = some x → s.value ι v = x := by
  rw [action_operation hscalar] at hexec
  obtain ⟨-, folds, hruns⟩ := runs_of_exec hscalar hexec
  refine ⟨hruns.appends.nodes, folds, fun folds' => ⟨hruns.folds_unique, ?_⟩, fun ι => ⟨?_, ?_⟩⟩
  · rintro rfl
    exact hruns
  · exact fun v => Valuation.exists_solves ι v hruns.appends
  · exact fun v hv hexact x hx => hruns.value hexact hv hx

end Request

/-! ## Rational numbers -/

/-- Every finite constant as the number it is. -/
def Reading.rational : Reading ℚ where
  value a := (if a.isNegative then -1 else 1) * a.significand * 2 ^ a.scale
  zero := by
    have hzero : (0 : Single).significand = 0 := by decide
    simp [hzero]
  negZero := by
    have hzero : (-0 : Single).significand = 0 := by decide
    simp [hzero]
  one := by
    have hone : (1 : Single).isNegative = false ∧ (1 : Single).significand = 2 ^ 23 ∧
        (1 : Single).scale = -23 := by decide
    norm_num [hone]
  negOne := by
    have hone : (-1 : Single).isNegative = true ∧ (-1 : Single).significand = 2 ^ 23 ∧
        (-1 : Single).scale = -23 := by decide
    norm_num [hone]

/-- Two noises, at control rate and at audio rate. -/
def blendBuilder : Builder :=
  [Operation.register { descriptor := Catalog.whiteNoise, rate := .control },
    .register { descriptor := Catalog.whiteNoise, rate := .audio }].foldl
      (fun b op => op.after b) { scope := 0 }

/-- Twice the first noise and the second. -/
def blendMulAdd : Request :=
  .mulAdd (.outlet ⟨0, 0, 0, .control⟩) (.constant 2) (.outlet ⟨0, 1, 0, .audio⟩)

/-- It is not fused, and the product and the sum have its value. -/
theorem blendMulAdd_evaluates :
    ∃ s b', blendMulAdd.operation.action.exec blendBuilder = (.ok s, b') ∧
      ∃ v : Valuation ℚ, v.AgreesOn (fun _ ref => ref.ugen + 3) blendBuilder ∧
        v.Solves .rational blendBuilder b' ∧ s.value .rational v = 3 * 2 + 4 := by
  have hscalar : ∀ o ∈ blendMulAdd.operands, o.isVector = false := by decide
  have hsize : blendBuilder.scope = 0 ∧ blendBuilder.nodes.size = 2 := by decide +kernel
  have hruns : blendMulAdd.Runs blendBuilder _ _ _ :=
    .chains rfl (.registers rfl (by decide) ?_) (.registers rfl (by decide) ?_)
  · have hexec := hruns.exec
    rw [← Request.action_operation hscalar] at hexec
    obtain ⟨-, folds, hfolds, heval⟩ := Request.operation_evaluates hscalar hexec
    obtain rfl := (hfolds _).1 hruns
    obtain ⟨hsolve, hvalue⟩ := heval Reading.rational
    obtain ⟨v, hagrees, hv⟩ := hsolve fun _ ref => ref.ugen + 3
    refine ⟨_, _, hexec, v, hagrees, hv, hvalue v hv (by simp) _ ?_⟩
    have htwo : Reading.rational.value 2 = 2 := by
      have htwo : (2 : Single).isNegative = false ∧ (2 : Single).significand = 2 ^ 23 ∧
          (2 : Single).scale = -22 := by decide
      norm_num [Reading.rational, htwo]
    have hnoises : v 0 ⟨0, 0⟩ = 3 ∧ v 0 ⟨1, 0⟩ = 4 := by
      rw [hagrees 0 ⟨0, 0⟩ (by simp [hsize]), hagrees 0 ⟨1, 0⟩ (by simp [hsize])]
      norm_num
    show some (v 0 ⟨0, 0⟩ * Reading.rational.value 2 + v 0 ⟨1, 0⟩) = _
    rw [hnoises.1, hnoises.2, htwo]
  · simp [Request.operands, Builder.Wires, hsize]
  · simp [Request.operands, Builder.Wires, Request.nextOutlet, Builder.append, hsize]

end SynthGraph
