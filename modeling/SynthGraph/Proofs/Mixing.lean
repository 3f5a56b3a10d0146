import Mathlib.Order.Interval.Multiset
import Mathlib.Order.Interval.Finset.Nat
import SynthGraph.Proofs.ChosenRates
import SynthGraph.Proofs.Evaluation

/-!
# Mixing

A mix adds its sources four by four until one signal is left. `Builder.Unfolds` goes down from a
signal through the sums that are new and counts the outlets and the sums it comes by. A sum keeps
this count, as it reads each of its operands once, except that constants fold and zeros are left
out. So do a round of sums and all rounds together (`Builder.Gathers`). In the end every outlet is
reached as often as it stands among the sources, and every new node once.
-/

namespace SynthGraph

/-- The node adds its inputs. -/
def Node.IsSum (n : Node) : Prop :=
  n.className = "BinaryOpUGen" ∧ n.special = BinaryOperator.addition.index.toUInt16 ∨
    n.className = "Sum3" ∨ n.className = "Sum4"

/-- The output of a node that the outlet is. -/
def Outlet.ref (p : Outlet) : NodeRef := ⟨p.ugen, p.output⟩

namespace Builder

variable {b b' c : Builder} {start : Nat} {xs ys : List Input} {refs : Multiset NodeRef}
  {sums : Multiset Nat}

/-! ## Unfolding sums -/

/-- The way down from the inputs, through the sums at `start` or later, ends at constants and at the
outputs `refs` of earlier nodes. It comes by the nodes `sums`. -/
inductive Unfolds (b : Builder) (start : Nat) :
    List Input → Multiset NodeRef → Multiset Nat → Prop
  | nil : Unfolds b start [] 0 0
  | constant {value : Single} {rest : List Input} {refs : Multiset NodeRef} {sums : Multiset Nat}
      (hrest : Unfolds b start rest refs sums) :
      Unfolds b start (.constant value :: rest) refs sums
  | source {ref : NodeRef} {rest : List Input} {refs : Multiset NodeRef} {sums : Multiset Nat}
      (href : ref.ugen < start) (hrest : Unfolds b start rest refs sums) :
      Unfolds b start (.node ref :: rest) (ref ::ₘ refs) sums
  | sum {id : Nat} {n : Node} {rest : List Input} {refs refs' : Multiset NodeRef}
      {sums sums' : Multiset Nat} (hid : start ≤ id) (hn : b.nodes[id]? = some n) (hsum : n.IsSum)
      (hinputs : Unfolds b start n.inputs refs sums) (hrest : Unfolds b start rest refs' sums') :
      Unfolds b start (.node ⟨id, 0⟩ :: rest) (refs + refs') (id ::ₘ (sums + sums'))

namespace Unfolds

theorem unique {refs' : Multiset NodeRef} {sums' : Multiset Nat} (h : b.Unfolds start xs refs sums)
    (h' : b.Unfolds start xs refs' sums') : refs' = refs ∧ sums' = sums := by
  induction h generalizing refs' sums' with
  | nil =>
    cases h'
    exact ⟨rfl, rfl⟩
  | constant _ ih =>
    cases h' with
    | constant hrest => exact ih hrest
  | source href _ ih =>
    cases h' with
    | source _ hrest =>
      obtain ⟨rfl, rfl⟩ := ih hrest
      exact ⟨rfl, rfl⟩
    | sum hid => exact absurd href (Nat.not_lt.2 hid)
  | sum hid hn _ _ _ ihinputs ihrest =>
    cases h' with
    | source href => exact absurd href (Nat.not_lt.2 hid)
    | sum _ hn' _ hinputs hrest =>
      cases hn.symm.trans hn'
      obtain ⟨rfl, rfl⟩ := ihinputs hinputs
      obtain ⟨rfl, rfl⟩ := ihrest hrest
      exact ⟨rfl, rfl⟩

theorem mono (h : b.Unfolds start xs refs sums) (happends : b.Appends b') :
    b'.Unfolds start xs refs sums := by
  induction h with
  | nil => exact .nil
  | constant _ ih => exact .constant ih
  | source href _ ih => exact .source href ih
  | sum hid hn hsum _ _ ihinputs ihrest =>
    exact .sum hid (happends.getElem? hn) hsum ihinputs ihrest

theorem append {refs' : Multiset NodeRef} {sums' : Multiset Nat} (h : b.Unfolds start xs refs sums)
    (h' : b.Unfolds start ys refs' sums') :
    b.Unfolds start (xs ++ ys) (refs + refs') (sums + sums') := by
  induction h with
  | nil => simpa using h'
  | constant _ ih => exact .constant ih
  | source href _ ih =>
    rw [Multiset.cons_add]
    exact .source href ih
  | sum hid hn hsum hinputs _ _ ihrest =>
    rw [Multiset.cons_add, add_assoc, add_assoc]
    exact .sum hid hn hsum hinputs ihrest

theorem split (h : b.Unfolds start (xs ++ ys) refs sums) : ∃ refs₁ refs₂ sums₁ sums₂,
    b.Unfolds start xs refs₁ sums₁ ∧ b.Unfolds start ys refs₂ sums₂ ∧
      refs = refs₁ + refs₂ ∧ sums = sums₁ + sums₂ := by
  induction xs generalizing refs sums with
  | nil => exact ⟨0, refs, 0, sums, .nil, h, by simp, by simp⟩
  | cons x xs ih =>
    cases h with
    | constant hrest =>
      obtain ⟨refs₁, refs₂, sums₁, sums₂, hxs, hys, hrefs, hsums⟩ := ih hrest
      exact ⟨refs₁, refs₂, sums₁, sums₂, .constant hxs, hys, hrefs, hsums⟩
    | source href hrest =>
      obtain ⟨refs₁, refs₂, sums₁, sums₂, hxs, hys, rfl, hsums⟩ := ih hrest
      exact ⟨_, refs₂, sums₁, sums₂, .source href hxs, hys, (Multiset.cons_add ..).symm, hsums⟩
    | sum hid hn hsum hinputs hrest =>
      obtain ⟨refs₁, refs₂, sums₁, sums₂, hxs, hys, rfl, rfl⟩ := ih hrest
      refine ⟨_, refs₂, _, sums₂, .sum hid hn hsum hinputs hxs, hys, (add_assoc ..).symm, ?_⟩
      rw [Multiset.cons_add, add_assoc]

theorem split_cons {x : Input} (h : b.Unfolds start (x :: xs) refs sums) :
    ∃ refs₁ refs₂ sums₁ sums₂, b.Unfolds start [x] refs₁ sums₁ ∧ b.Unfolds start xs refs₂ sums₂ ∧
      refs = refs₁ + refs₂ ∧ sums = sums₁ + sums₂ :=
  split (h : b.Unfolds start ([x] ++ xs) refs sums)

/-- The order of the inputs does not matter. -/
theorem perm (h : b.Unfolds start xs refs sums) (hperm : xs.Perm ys) :
    b.Unfolds start ys refs sums := by
  induction hperm generalizing refs sums with
  | nil => exact h
  | cons x _ ih =>
    obtain ⟨refs₁, refs₂, sums₁, sums₂, hx, hxs, rfl, rfl⟩ := h.split_cons
    exact hx.append (ih hxs)
  | swap x y xs =>
    obtain ⟨refs₁, refs', sums₁, sums', hy, hrest, rfl, rfl⟩ := h.split_cons
    obtain ⟨refs₂, refs₃, sums₂, sums₃, hx, hxs, rfl, rfl⟩ := hrest.split_cons
    rw [add_left_comm refs₁, add_left_comm sums₁]
    exact hx.append (hy.append hxs)
  | trans _ _ ih ih' => exact ih' (ih h)

theorem of_constant {value : Single} (h : b.Unfolds start (.constant value :: xs) refs sums) :
    b.Unfolds start xs refs sums := by
  cases h with
  | constant hrest => exact hrest

theorem of_constants (h : b.Unfolds start xs refs sums)
    (hxs : ∀ x ∈ xs, ∃ value, x = .constant value) : refs = 0 ∧ sums = 0 := by
  induction xs with
  | nil =>
    cases h
    exact ⟨rfl, rfl⟩
  | cons x xs ih =>
    obtain ⟨⟨value, rfl⟩, hrest⟩ := List.forall_mem_cons.1 hxs
    exact ih h.of_constant hrest

end Unfolds

/-- Signals of earlier nodes unfold to themselves. -/
theorem unfolds_wired {signals : List Signal} (h : ∀ s ∈ signals, b.Wires s) :
    b.Unfolds b.nodes.size (signals.map Signal.input)
      ↑((signals.filterMap Signal.asOutlet).map Outlet.ref) 0 := by
  induction signals with
  | nil => exact .nil
  | cons s signals ih =>
    obtain ⟨hs, hsignals⟩ := List.forall_mem_cons.1 h
    cases s with
    | constant value => exact .constant (ih hsignals)
    | outlet p => exact .source (hs.2 : p.ref.ugen < b.nodes.size) (ih hsignals)
    | vector items => cases hs

/-! ## Gathering -/

/-- The signals `sums` stand for the signals before: nodes are appended so that nothing else is
reached from them, except each new node once. -/
structure Gathers (b : Builder) (signals : List Signal) (b' : Builder) (sums : List Signal) :
    Prop where
  appends : b.Appends b'
  wires : ∀ s ∈ sums, b'.Wires s
  unfolds : ∀ {start refs passed}, start ≤ b.nodes.size →
    b.Unfolds start (signals.map Signal.input) refs passed →
      b'.Unfolds start (sums.map Signal.input) refs
        (passed + Multiset.Ico b.nodes.size b'.nodes.size)

namespace Gathers

variable {signals signals' sums sums' : List Signal}

theorem refl (h : ∀ s ∈ signals, b.Wires s) : b.Gathers signals b signals :=
  ⟨.refl b, h, fun _ hunfolds => by simpa using hunfolds⟩

theorem trans (h : b.Gathers signals c sums) (h' : c.Gathers sums b' sums') :
    b.Gathers signals b' sums' := by
  refine ⟨h.appends.trans h'.appends, h'.wires, fun hstart hunfolds => ?_⟩
  have hlast := h'.unfolds (hstart.trans h.appends.size_le) (h.unfolds hstart hunfolds)
  rwa [add_assoc, Multiset.Ico_add_Ico_eq_Ico h.appends.size_le h'.appends.size_le] at hlast

/-- What is gathered first and what is gathered then stand side by side. -/
theorem append (h : b.Gathers signals c sums) (h' : c.Gathers signals' b' sums') :
    b.Gathers (signals ++ signals') b' (sums ++ sums') := by
  refine ⟨h.appends.trans h'.appends, fun s hs => ?_, fun hstart hunfolds => ?_⟩
  · rcases List.mem_append.1 hs with hs | hs
    · exact (h.wires s hs).mono h'.appends.extended
    · exact h'.wires s hs
  · rw [List.map_append] at hunfolds ⊢
    obtain ⟨refs₁, refs₂, passed₁, passed₂, hfirst, hthen, rfl, rfl⟩ := hunfolds.split
    -- the first signals unfold in the builder between, the others are still what they were there
    have hfirst := (h.unfolds hstart hfirst).mono h'.appends
    have hthen := h'.unfolds (hstart.trans h.appends.size_le) (hthen.mono h.appends)
    have hboth := hfirst.append hthen
    rwa [add_add_add_comm, Multiset.Ico_add_Ico_eq_Ico h.appends.size_le h'.appends.size_le]
      at hboth

end Gathers

end Builder

/-! ## Sums -/

theorem Signal.exists_constant_of_isConstant {s : Signal} {a : Single} (h : s.isConstant a) :
    ∃ value, s = .constant value := by
  cases s with
  | constant value => exact ⟨value, rfl⟩
  | outlet p => cases h
  | vector items => cases h

/-- One step of a sum folds constants, leaves out a zero or registers the sum as it is. -/
def Step.Adds (r : Request) : Step → Prop
  | folds _ => ∀ o ∈ r.operands, ∃ value, o = .constant value
  | gives s => ∃ value, r.operands.Perm [.constant value, s]
  | asks r' => r'.IsSum ∧ ∃ value, r.operands.Perm (.constant value :: r'.operands)
  | registers r' => r' = r
  | chains .. => False

namespace Request

variable {r : Request} {b b' : Builder} {s : Signal} {folds : List (Request × Single)}

theorem adds_addition (x y : Signal) : (binary .addition x y).step.Adds (binary .addition x y) := by
  simp only [step]
  split
  · next value hfolded =>
    cases x with
    | constant a =>
      cases y with
      | constant c => simp [Step.Adds, operands]
      | outlet p => cases hfolded
      | vector items => cases hfolded
    | outlet p => cases hfolded
    | vector items => cases hfolded
  · simp only [shortcut?]
    split
    · next hx =>
      obtain ⟨value, rfl⟩ := Signal.exists_constant_of_isConstant hx
      exact ⟨value, .refl _⟩
    · split
      · next hy =>
        obtain ⟨value, rfl⟩ := Signal.exists_constant_of_isConstant hy
        exact ⟨value, .swap ..⟩
      · rfl

/-- A constant among the operands is left out. -/
theorem adds_asks (before after : List Signal) {r' : Request} {z : Signal} {a : Single}
    (hz : z.isConstant a) (hr : r.operands = before ++ z :: after)
    (hr' : r'.operands = before ++ after) (hsum : r'.IsSum) : (Step.asks r').Adds r := by
  obtain ⟨value, rfl⟩ := Signal.exists_constant_of_isConstant hz
  refine ⟨hsum, value, ?_⟩
  rw [hr, hr']
  exact List.perm_middle

theorem adds_step (h : r.IsSum) : r.step.Adds r := by
  cases r with
  | unary op x => cases h
  | binary op x y =>
    cases op with
    | addition => exact adds_addition x y
    | _ => cases h
  | mulAdd x y z => cases h
  | sum3 x y z =>
    simp only [step]
    split
    · next hz => exact adds_asks [x, y] [] hz rfl rfl trivial
    · split
      · next hy => exact adds_asks [x] [z] hy rfl rfl trivial
      · split
        · next hx => exact adds_asks [] [y, z] hx rfl rfl trivial
        · rfl
  | sum4 x y z w =>
    simp only [step]
    split
    · next hx => exact adds_asks [] [y, z, w] hx rfl rfl trivial
    · split
      · next hy => exact adds_asks [x] [z, w] hy rfl rfl trivial
      · split
        · next hz => exact adds_asks [x, y] [w] hz rfl rfl trivial
        · split
          · next hw => exact adds_asks [x, y, z] [] hw rfl rfl trivial
          · rfl

theorem isSum_node (h : r.IsSum) : r.node.IsSum := by
  cases r with
  | unary op x => cases h
  | binary op x y =>
    cases op with
    | addition => exact .inl ⟨rfl, rfl⟩
    | _ => cases h
  | mulAdd x y z => cases h
  | sum3 x y z => exact .inr (.inl rfl)
  | sum4 x y z w => exact .inr (.inr rfl)

/-- The new node reads each operand once. -/
theorem gathers_append (hsum : r.IsSum) (hwires : ∀ o ∈ r.operands, b.Wires o) :
    b.Gathers r.operands (b.append [r.node]) [.outlet (r.nextOutlet b)] := by
  have hsize : (b.append [r.node]).nodes.size = b.nodes.size + 1 := by simp [Builder.append]
  have hnew : Multiset.Ico b.nodes.size (b.nodes.size + 1) = {b.nodes.size} :=
    congrArg Finset.val (Nat.Ico_succ_singleton _)
  have happends := appends_node hwires
  refine ⟨happends, ?_, fun hstart hunfolds => ?_⟩
  · simp [Builder.Wires, nextOutlet, Builder.append]
  · -- the node may have its operands in another order, the faster ones first
    have hinputs := hunfolds.perm (r.values_perm.map Signal.input).symm
    have hunfold := Builder.Unfolds.sum hstart (Builder.getElem?_append_new 0) (isSum_node hsum)
      (hinputs.mono happends) .nil
    rw [add_zero, add_zero] at hunfold
    rw [hsize, hnew, add_comm, Multiset.singleton_add]
    exact hunfold

/-- A sum stands for its operands. -/
theorem Runs.gathers (h : r.Runs b s b' folds) (hsum : r.IsSum)
    (hwires : ∀ o ∈ r.operands, b.Wires o) : b.Gathers r.operands b' [s] := by
  have hadds := adds_step hsum
  induction h with
  | @folds r b value h =>
    rw [h] at hadds
    refine ⟨.refl b, by simp [Builder.Wires], fun hstart hunfolds => ?_⟩
    have hconstants : ∀ x ∈ r.operands.map Signal.input, ∃ value, x = .constant value := by
      refine List.forall_mem_map.2 fun o ho => ?_
      obtain ⟨value, rfl⟩ := hadds o ho
      exact ⟨value, rfl⟩
    obtain ⟨rfl, rfl⟩ := hunfolds.of_constants hconstants
    rw [Multiset.Ico_self]
    exact .constant .nil
  | @gives r b s h =>
    rw [h] at hadds
    obtain ⟨value, hperm⟩ := hadds
    have hs : b.Wires s := hwires s (hperm.mem_iff.2 (by simp))
    refine ⟨.refl b, by simpa using hs, fun hstart hunfolds => ?_⟩
    rw [Multiset.Ico_self, add_zero]
    exact (hunfolds.perm (hperm.map _)).of_constant
  | @asks r r' b b' s folds h _ ih =>
    rw [h] at hadds
    -- the constant that is left out leads nowhere
    obtain ⟨hsum', value, hperm⟩ := hadds
    have hgathers := ih hsum' (fun o ho => hwires o (hperm.mem_iff.2 (List.mem_cons_of_mem _ ho)))
      (adds_step hsum')
    refine ⟨hgathers.appends, hgathers.wires, fun hstart hunfolds => hgathers.unfolds hstart ?_⟩
    exact (hunfolds.perm (hperm.map _)).of_constant
  | registers h _ _ =>
    rw [h] at hadds
    obtain rfl := hadds
    exact gathers_append hsum hwires
  | chains h =>
    rw [h] at hadds
    cases hadds

end Request

/-! ## Rounds -/

namespace Build

variable {b b' : Builder} {signals sums : List Signal} {s : Signal} {fuel : Nat}

theorem gathers_request {r : Request} (hsum : r.IsSum) (hwires : ∀ o ∈ r.operands, b.Wires o)
    (h : r.action.exec b = (.ok s, b')) : b.Gathers r.operands b' [s] := by
  obtain ⟨-, folds, hruns⟩ := Request.runs_of_exec (fun o ho => (hwires o ho).isVector) h
  exact hruns.gathers hsum hwires

theorem gathers_mixRound (hwires : ∀ s ∈ signals, b.Wires s)
    (h : (mixRound signals).exec b = (.ok sums, b')) : b.Gathers signals b' sums := by
  fun_induction mixRound signals generalizing b sums with
  | case1 x y z w rest ih =>
    obtain ⟨s, c, hs, h⟩ := exec_bind_eq_ok.1 h
    obtain ⟨more, d, hmore, h⟩ := exec_bind_eq_ok.1 h
    obtain ⟨rfl, rfl⟩ := exec_pure_eq_ok.1 h
    have hfour : ∀ o ∈ [x, y, z, w], b.Wires o :=
      fun o ho => hwires o (List.mem_append_left rest ho)
    have hgathers := gathers_request (r := .sum4 x y z w) trivial hfour hs
    refine hgathers.append (ih (fun t ht => ?_) hmore)
    exact (hwires t (List.mem_append_right [x, y, z, w] ht)).mono hgathers.appends.extended
  | case2 x y z =>
    obtain ⟨s, c, hs, h⟩ := exec_bind_eq_ok.1 h
    obtain ⟨rfl, rfl⟩ := exec_pure_eq_ok.1 h
    exact gathers_request (r := .sum3 x y z) trivial hwires hs
  | case3 x y =>
    obtain ⟨s, c, hs, h⟩ := exec_bind_eq_ok.1 h
    obtain ⟨rfl, rfl⟩ := exec_pure_eq_ok.1 h
    exact gathers_request (r := .binary .addition x y) trivial hwires hs
  | case4 x =>
    obtain ⟨rfl, rfl⟩ := exec_pure_eq_ok.1 h
    exact .refl hwires
  | case5 =>
    obtain ⟨rfl, rfl⟩ := exec_pure_eq_ok.1 h
    exact .refl hwires

/-- A round leaves a fourth of the signals. -/
theorem length_mixRound (h : (mixRound signals).exec b = (.ok sums, b')) :
    sums.length = (signals.length + 3) / 4 := by
  fun_induction mixRound signals generalizing b sums with
  | case1 x y z w rest ih =>
    obtain ⟨s, c, -, h⟩ := exec_bind_eq_ok.1 h
    obtain ⟨more, d, hmore, h⟩ := exec_bind_eq_ok.1 h
    obtain ⟨rfl, rfl⟩ := exec_pure_eq_ok.1 h
    have hrest := ih hmore
    simp only [List.length_cons]
    omega
  | case2 x y z | case3 x y =>
    obtain ⟨s, c, -, h⟩ := exec_bind_eq_ok.1 h
    obtain ⟨rfl, rfl⟩ := exec_pure_eq_ok.1 h
    simp
  | case4 x =>
    obtain ⟨rfl, rfl⟩ := exec_pure_eq_ok.1 h
    simp
  | case5 =>
    obtain ⟨rfl, rfl⟩ := exec_pure_eq_ok.1 h
    simp

/-- If a round does not leave one signal, it leaves fewer than there were, but not none. -/
theorem shorter_mixRound (hne : signals ≠ []) (h : (mixRound signals).exec b = (.ok sums, b'))
    (hmany : ∀ s, sums = [s] → False) : sums ≠ [] ∧ sums.length < signals.length := by
  have hlength := length_mixRound h
  have hpos := List.length_pos_iff.2 hne
  have hone : sums.length ≠ 1 := by
    intro hone
    obtain ⟨s, hs⟩ := List.length_eq_one_iff.1 hone
    exact hmany s hs
  exact ⟨List.length_pos_iff.1 (by omega), by omega⟩

theorem gathers_mixRounds (hwires : ∀ s ∈ signals, b.Wires s) (hne : signals ≠ [])
    (hfuel : signals.length ≤ fuel) (h : (mixRounds fuel signals).exec b = (.ok s, b')) :
    b.Gathers signals b' [s] := by
  induction fuel generalizing signals b with
  | zero => exact absurd (List.eq_nil_of_length_eq_zero (Nat.le_zero.1 hfuel)) hne
  | succ fuel ih =>
    obtain ⟨sums, c, hround, h⟩ := exec_bind_eq_ok.1 h
    have hgathers := gathers_mixRound hwires hround
    split at h
    · obtain ⟨rfl, rfl⟩ := exec_pure_eq_ok.1 h
      exact hgathers
    · next hmany =>
      obtain ⟨hsums, hshorter⟩ := shorter_mixRound hne hround hmany
      exact hgathers.trans (ih hgathers.wires hsums (by omega) h)

/-- One signal is left before the fuel runs out. -/
theorem exec_mixRounds_fuel {fuel' : Nat} (hne : signals ≠ []) (hfuel : signals.length ≤ fuel)
    (hfuel' : signals.length ≤ fuel') (b : Builder) :
    (mixRounds fuel signals).exec b = (mixRounds fuel' signals).exec b := by
  have hpos := List.length_pos_iff.2 hne
  induction fuel generalizing fuel' signals b with
  | zero => omega
  | succ fuel ih =>
    obtain ⟨fuel', rfl⟩ := Nat.exists_eq_add_one.2 (show 0 < fuel' by omega)
    unfold mixRounds
    rw [exec_bind, exec_bind]
    rcases hround : (mixRound signals).exec b with ⟨fault | sums, c⟩
    · rfl
    · dsimp only
      split
      · rfl
      · next hmany =>
        obtain ⟨hsums, hshorter⟩ := shorter_mixRound hne hround hmany
        exact ih hsums (by omega) (by omega) c (List.length_pos_iff.2 hsums)

/-- Mixing fails exactly if there is nothing to mix. Otherwise rounds of sums end in one scalar.
Down from there, through the sums that were appended, every outlet among the sources is reached as
often as it stands there, and every new node is passed once. -/
theorem mix_gathers_sources {sources : Signal} (howns : b.Owns sources) :
    (sources.leaves = [] ∧ (mix sources).exec b = (.error (.emptyInput "Mix" "sources"), b)) ∨
    sources.leaves ≠ [] ∧ ∃ s b', (mix sources).exec b = (.ok s, b') ∧
      (∀ fuel, sources.leaves.length ≤ fuel →
        (mixRounds fuel sources.leaves).exec b = (.ok s, b')) ∧
      b'.Wires s ∧ (∃ nodes, b' = b.append nodes) ∧
      ∀ refs sums, b'.Unfolds b.nodes.size [s.input] refs sums ↔
        refs = ↑(sources.outlets.map Outlet.ref) ∧
          sums = Multiset.Ico b.nodes.size b'.nodes.size := by
  by_cases hne : sources.leaves = []
  · refine .inl ⟨hne, ?_⟩
    simp only [mix, hne]
    rfl
  · have hwires : ∀ s ∈ sources.leaves, b.Wires s := fun s hs =>
      (howns.of_subset (Signal.outlets_leaf_subset hs)).wires
        (sources.not_isVector_of_mem_leaves hs)
    have hmix : mix sources = mixRounds sources.leaves.length sources.leaves := by
      simp [mix, hne]
    obtain ⟨s, b', hexec⟩ : ∃ s b', (mix sources).exec b = (.ok s, b') := by
      rw [hmix]
      rcases (attempts_mixRounds hwires _).error_or_ok with ⟨_, _, -, hfault⟩ | ⟨hok, -⟩
      · cases hfault
      · exact hok
    rw [hmix] at hexec
    have hgathers := gathers_mixRounds hwires hne le_rfl hexec
    have hunfolds := hgathers.unfolds le_rfl (Builder.unfolds_wired hwires)
    rw [zero_add] at hunfolds
    refine .inr ⟨hne, s, b', hmix ▸ hexec, fun fuel hfuel => ?_,
      hgathers.wires s List.mem_cons_self, hgathers.appends.nodes, fun refs sums => ⟨?_, ?_⟩⟩
    · exact (exec_mixRounds_fuel hne hfuel le_rfl b).trans hexec
    · exact hunfolds.unique
    · rintro ⟨rfl, rfl⟩
      exact hunfolds

end Build

/-- The two noises several times, a zero and a one. -/
def blendSources : Signal :=
  let first : Signal := .outlet ⟨0, 0, 0, .control⟩
  let second : Signal := .outlet ⟨0, 1, 0, .audio⟩
  .vector [.vector [first, second], .constant 0, first,
    .vector [.vector [second, .constant 1], first]]

/-- The first noise is reached three times and the second one twice. -/
theorem blendSources_gathered : blendBuilder.Owns blendSources ∧
    ∃ s b', (Build.mix blendSources).exec blendBuilder = (.ok s, b') ∧
      ∀ refs sums, b'.Unfolds 2 [s.input] refs sums ↔
        refs = {⟨0, 0⟩, ⟨1, 0⟩, ⟨0, 0⟩, ⟨1, 0⟩, ⟨0, 0⟩} ∧ sums = Multiset.Ico 2 b'.nodes.size := by
  have hsize : blendBuilder.scope = 0 ∧ blendBuilder.nodes.size = 2 := by decide +kernel
  have howns : blendBuilder.Owns blendSources := by
    rw [Builder.Owns, hsize.1, hsize.2]
    decide
  rcases Build.mix_gathers_sources howns with ⟨hnil, -⟩ | ⟨-, s, b', hexec, -, -, -, hunfolds⟩
  · cases hnil
  · rw [hsize.2] at hunfolds
    exact ⟨howns, s, b', hexec, hunfolds⟩

end SynthGraph
