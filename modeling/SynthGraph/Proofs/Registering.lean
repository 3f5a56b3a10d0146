import SynthGraph.Proofs.Attempts
import SynthGraph.Proofs.Catalogued

/-!
# Registering a call

A call is registered exactly if its descriptor knows the rate and all names that are given, every
input has a value, and the values hold no empty vector and no outlet that is foreign or at a wrong
rate. These conditions are about the values as they are given. They say the same of the slots that
are filled in the end, because expansion takes every leaf of a value and nothing else.
-/

namespace SynthGraph

/-! ## Values of inputs -/

namespace Call

variable {call : Call} {decl : InputDecl} {value : Signal} {args : List Argument}

/-- The input gets the last value that is given for it, or its default if there is none. -/
inductive Feeds (call : Call) (decl : InputDecl) : Signal → Prop
  | given {before after : List (String × Signal)} {value : Signal}
      (hargs : call.args = before ++ (decl.name, value) :: after)
      (hlast : ∀ later ∈ after, later.1 ≠ decl.name) : Feeds call decl value
  | default {value : Single} (hnone : ∀ given ∈ call.args, given.1 ≠ decl.name)
      (hdefault : decl.default? = some value) : Feeds call decl (.constant value)

theorem value?_eq_some_iff : call.value? decl = some value ↔ call.Feeds decl value := by
  constructor
  · intro h
    unfold value? at h
    split at h
    · next name found hfind =>
      cases h
      obtain ⟨hname, after, before, hargs, hlast⟩ := List.find?_eq_some_iff_append.1 hfind
      obtain rfl : name = decl.name := by simpa using hname
      have hargs : call.args = before.reverse ++ (decl.name, value) :: after.reverse := by
        simpa using congrArg List.reverse hargs
      exact .given hargs (by simpa using hlast)
    · next hfind =>
      obtain ⟨c, hdefault, rfl⟩ := Option.map_eq_some_iff.1 h
      exact .default (by simpa using hfind) hdefault
  · rintro (⟨hargs, hlast⟩ | ⟨hnone, hdefault⟩)
    · have hfind : call.args.reverse.find? (·.1 == decl.name) = some (decl.name, value) := by
        rw [hargs, List.reverse_append, List.reverse_cons, List.append_assoc]
        exact List.find?_eq_some_iff_append.2 ⟨by simp, _, _, rfl, by simpa using hlast⟩
      rw [value?, hfind]
    · have hfind : call.args.reverse.find? (·.1 == decl.name) = none := by
        simpa using hnone
      rw [value?, hfind, hdefault]
      rfl

theorem Feeds.unique {value' : Signal} (h : call.Feeds decl value) (h' : call.Feeds decl value') :
    value' = value :=
  Option.some.inj ((value?_eq_some_iff.2 h').symm.trans (value?_eq_some_iff.2 h))

theorem exists_feeds_iff : (∃ value, call.Feeds decl value) ↔
    (∃ given ∈ call.args, given.1 = decl.name) ∨ ∃ value, decl.default? = some value := by
  constructor
  · rintro ⟨_, ⟨hargs, -⟩ | ⟨-, hdefault⟩⟩
    · exact .inl ⟨_, hargs ▸ List.mem_append_right _ List.mem_cons_self, rfl⟩
    · exact .inr ⟨_, hdefault⟩
  · intro h
    by_cases hgiven : ∃ given ∈ call.args, given.1 = decl.name
    · obtain ⟨given, hmem, hname⟩ := hgiven
      have hfind : (call.args.reverse.find? (·.1 == decl.name)).isSome := by
        rw [List.find?_isSome]
        exact ⟨given, by simpa using hmem, by simpa using hname⟩
      obtain ⟨⟨name, value⟩, hfind⟩ := Option.isSome_iff_exists.1 hfind
      exact ⟨value, value?_eq_some_iff.1 (by rw [value?, hfind])⟩
    · obtain ⟨value, hdefault⟩ := h.resolve_left hgiven
      exact ⟨_, .default (fun given hmem hname => hgiven ⟨given, hmem, hname⟩) hdefault⟩

/-- The argument stands for the input in the expansion. -/
structure Answers (call : Call) (decl : InputDecl) (a : Argument) : Prop where
  name : a.name = decl.name
  variadic : a.variadic = decl.variadic
  value : call.Feeds decl a.value

theorem answers_of_arguments (h : call.arguments = .ok args) :
    List.Forall₂ call.Answers call.descriptor.inputs args := by
  refine (forall₂_of_mapM (arguments_eq_ok h)).imp fun decl a ha => ?_
  have hargument := ha.2
  unfold argument at hargument
  split at hargument
  · next value hvalue =>
    cases hargument
    exact ⟨rfl, rfl, value?_eq_some_iff.1 hvalue⟩
  · cases hargument

theorem exists_argument_iff :
    (∃ a, call.argument decl = .ok a) ↔ ∃ value, call.Feeds decl value := by
  unfold argument
  cases hvalue : call.value? decl with
  | some value => exact iff_of_true ⟨_, rfl⟩ ⟨value, value?_eq_some_iff.1 hvalue⟩
  | none =>
    refine iff_of_false (by simp) ?_
    rintro ⟨value, hfeeds⟩
    cases hvalue.symm.trans (value?_eq_some_iff.2 hfeeds)

theorem input?_isNone_iff {d : Descriptor} {name : String} :
    (d.input? name).isNone ↔ ∀ decl ∈ d.inputs, decl.name ≠ name := by
  unfold Descriptor.input?
  cases hfind : d.inputs.findIdx? (·.name == name) with
  | none => simpa using hfind
  | some i =>
    obtain ⟨hi, hname, -⟩ := List.findIdx?_eq_some_iff_getElem.1 hfind
    simp only [List.getElem?_eq_getElem hi, Option.map_some, Option.isNone_some,
      Bool.false_eq_true, false_iff]
    exact fun hnone => hnone _ (List.getElem_mem hi) (by simpa using hname)

/-- All names that are given are declared. -/
theorem find?_unknown_iff :
    (call.args.find? fun given => (call.descriptor.input? given.1).isNone) = none ↔
      ∀ given ∈ call.args, ∃ decl ∈ call.descriptor.inputs, decl.name = given.1 := by
  rw [List.find?_eq_none]
  refine forall₂_congr fun given _ => ?_
  rw [input?_isNone_iff]
  push Not
  rfl

theorem exists_arguments_iff : (∃ args, call.arguments = .ok args) ↔
    call.rate ∈ call.descriptor.rates ∧
    (∀ given ∈ call.args, ∃ decl ∈ call.descriptor.inputs, decl.name = given.1) ∧
    ∀ decl ∈ call.descriptor.inputs, ∃ value, call.Feeds decl value := by
  have hrate : call.descriptor.supports call.rate ↔ call.rate ∈ call.descriptor.rates := by
    simp [Descriptor.supports]
  have hinputs : (∃ args, call.descriptor.inputs.mapM call.argument = .ok args) ↔
      ∀ decl ∈ call.descriptor.inputs, ∃ value, call.Feeds decl value := by
    rw [exists_mapM_iff]
    exact forall₂_congr fun decl _ => exists_argument_iff
  unfold arguments
  rw [← hrate, ← find?_unknown_iff, ← hinputs]
  by_cases hsupports : call.descriptor.supports call.rate
  · simp only [hsupports, Bool.not_true, Bool.false_eq_true, if_false, true_and]
    cases call.args.find? fun given => (call.descriptor.input? given.1).isNone with
    | some given => simp
    | none => simp
  · simp [hsupports]

theorem kind_of_arguments {fault : Fault} (h : call.arguments = .error fault) :
    fault.kind ≠ .invalidInput := by
  unfold arguments at h
  simp only at h
  split at h
  · cases h
    simp [Fault.kind]
  · split at h
    · cases h
      simp [Fault.kind]
    · obtain ⟨decl, -, hfault⟩ := exists_error_of_mapM h
      unfold argument at hfault
      split at hfault
      · cases hfault
      · cases hfault
        simp [Fault.kind]

end Call

/-! ## Slots -/

/-- What holds of every leaf of the arguments holds of all that the calls take, and the other way
round. -/
theorem Expansion.forall_leaves_iff {ugen : String} {args : List Argument}
    {calls : List (List Signal)} (h : expand ugen args = .ok calls) {P : Nat → Signal → Prop} :
    (∀ values ∈ calls, ∀ (k : Nat) (v : Signal), values[k]? = some v →
      ∀ leaf ∈ v.leaves, P k leaf) ↔
    ∀ (k : Nat) (a : Argument), args[k]? = some a → ∀ leaf ∈ a.value.leaves, P k leaf := by
  constructor
  · intro hP k a ha leaf hleaf
    obtain ⟨values, hvalues, v, hv, hleaf⟩ := exists_taken h ha hleaf
    exact hP values hvalues k v hv leaf hleaf
  · intro hP values hvalues k v hv leaf hleaf
    have htakes := takes_of_expand h values hvalues
    obtain ⟨hk, rfl⟩ := List.getElem?_eq_some_iff.1 hv
    have hk' : k < args.length := htakes.length_eq ▸ hk
    exact hP k _ (List.getElem?_eq_getElem hk') leaf ((htakes.get hk' hk).leaves_subset hleaf)

theorem mem_zip_iff {α β : Type} {as : List α} {bs : List β} {a : α} {b : β} :
    (a, b) ∈ as.zip bs ↔ ∃ k : Nat, as[k]? = some a ∧ bs[k]? = some b := by
  rw [List.mem_iff_getElem?]
  exact exists_congr fun k => List.getElem?_zip_eq_some

namespace Call

variable {call : Call} {values : List Signal} {args : List Argument} {calls : List (List Signal)}

/-- The node that gets the values: the leaves fill the slots, and those of a variadic input are
numbered. -/
def nodeOf (call : Call) (values : List Signal) : Node where
  className := call.descriptor.name
  rate := call.rate
  special := call.special
  inputs := (values.flatMap Signal.leaves).map Signal.input
  keys := (call.descriptor.inputs.zip values).flatMap fun dv => dv.1.keys dv.2.leaves.length
  outputs := call.outputs
  flags := call.descriptor.flags

/-- Inputs that are not variadic get scalars. -/
def Fills (call : Call) (values : List Signal) : Prop :=
  values.length = call.descriptor.inputs.length ∧
    ∀ dv ∈ call.descriptor.inputs.zip values, dv.1.variadic = false → dv.2.isVector = false

theorem fills_of_expand (hargs : call.arguments = .ok args)
    (hcalls : Expansion.expand call.descriptor.name args = .ok calls) (hvalues : values ∈ calls) :
    call.Fills values := by
  have hanswers := answers_of_arguments hargs
  have htakes := Expansion.takes_of_expand hcalls values hvalues
  refine ⟨htakes.length_eq.symm.trans hanswers.length_eq.symm, ?_⟩
  rintro ⟨decl, v⟩ hdv hordinary
  obtain ⟨k, hdecl, hv⟩ := mem_zip_iff.1 hdv
  obtain ⟨hk, rfl⟩ := List.getElem?_eq_some_iff.1 hdecl
  obtain ⟨hk'', rfl⟩ := List.getElem?_eq_some_iff.1 hv
  have hk' : k < args.length := hanswers.length_eq ▸ hk
  exact (htakes.get hk' hk'').not_isVector ((hanswers.get hk hk').variadic.trans hordinary)

theorem Fills.map_snd_elements (h : call.Fills values) {dv : InputDecl × Signal}
    (hdv : dv ∈ call.descriptor.inputs.zip values) :
    (dv.1.elements dv.2).map (·.2) = dv.2.leaves := by
  rw [InputDecl.map_snd_elements]
  split
  · rfl
  · next hvariadic => rw [Signal.leaves_scalar (h.2 dv hdv (by simpa using hvariadic))]

theorem Fills.slotNode (h : call.Fills values) :
    call.slotNode (call.slots values) = call.nodeOf values := by
  have hsnd : (call.descriptor.inputs.zip values).map (·.2) = values :=
    List.map_snd_zip (Nat.le_of_eq h.1)
  have hinputs : (call.slots values).map (·.2) = values.flatMap Signal.leaves := by
    conv_rhs => rw [← hsnd, List.flatMap_map]
    rw [slots, List.map_flatMap]
    exact List.flatMap_congr fun dv hdv => h.map_snd_elements hdv
  have hkeys : (call.slots values).map (·.1) =
      (call.descriptor.inputs.zip values).flatMap fun dv => dv.1.keys dv.2.leaves.length := by
    rw [slots, List.map_flatMap]
    exact List.flatMap_congr fun dv _ => dv.1.map_fst_elements dv.2
  have hcompose : (call.slots values).map (·.2.input) =
      ((call.slots values).map (·.2)).map Signal.input := by
    rw [List.map_map]
    rfl
  rw [Call.slotNode, nodeOf, hcompose, hinputs, hkeys]

end Call

namespace Builder

variable {b : Builder} {call : Call} {args : List Argument} {calls : List (List Signal)}

/-- Every leaf of the value can feed the input. -/
def Feedable (b : Builder) (call : Call) (decl : InputDecl) (value : Signal) : Prop :=
  ∀ leaf ∈ value.leaves, b.Wires leaf ∧ call.Passes decl leaf

theorem filled_node_eq_ok_iff {values : List Signal} (h : call.Fills values) {n : Node} :
    b.node call values = .ok n ↔ (∀ dv ∈ call.descriptor.inputs.zip values,
      b.Feedable call dv.1 dv.2) ∧ n = call.nodeOf values := by
  rw [node_eq_ok_iff, h.slotNode]
  refine and_congr_left' (forall₂_congr fun dv hdv => ?_)
  rw [Feedable, ← h.map_snd_elements hdv, List.forall_mem_map]

theorem mapM_node_eq_ok_iff (hargs : call.arguments = .ok args)
    (hcalls : Expansion.expand call.descriptor.name args = .ok calls) {nodes : List Node} :
    calls.mapM (b.node call) = .ok nodes ↔ (∀ da ∈ call.descriptor.inputs.zip args,
      b.Feedable call da.1 da.2.value) ∧ nodes = calls.map call.nodeOf := by
  have hnode : calls.mapM (b.node call) = .ok nodes ↔ _ := mapM_eq_ok_iff fun values hvalues n =>
    filled_node_eq_ok_iff (b := b) (n := n) (Call.fills_of_expand hargs hcalls hvalues)
  have hleaves := Expansion.forall_leaves_iff hcalls (P := fun k leaf =>
    ∀ decl, call.descriptor.inputs[k]? = some decl → b.Wires leaf ∧ call.Passes decl leaf)
  rw [hnode]
  refine and_congr_left' ⟨fun h => ?_, fun h => ?_⟩
  · rintro ⟨decl, a⟩ hda leaf hleaf
    obtain ⟨k, hdecl, ha⟩ := mem_zip_iff.1 hda
    refine hleaves.1 (fun values hvalues k v hv leaf hleaf decl hdecl => ?_) k a ha leaf hleaf
      decl hdecl
    exact h values hvalues (decl, v) (mem_zip_iff.2 ⟨k, hdecl, hv⟩) leaf hleaf
  · rintro values hvalues ⟨decl, v⟩ hdv leaf hleaf
    obtain ⟨k, hdecl, hv⟩ := mem_zip_iff.1 hdv
    refine hleaves.2 (fun k a ha leaf hleaf decl hdecl => ?_) values hvalues k v hv leaf hleaf
      decl hdecl
    exact h (decl, a) (mem_zip_iff.2 ⟨k, hdecl, ha⟩) leaf hleaf

/-- The nodes of a call, one for each call it expands to. -/
theorem plan_eq_ok_iff {nodes : List Node} : b.plan call = .ok nodes ↔
    ∃ args calls, call.arguments = .ok args ∧
      Expansion.expand call.descriptor.name args = .ok calls ∧
      (∀ da ∈ call.descriptor.inputs.zip args, b.Feedable call da.1 da.2.value) ∧
      nodes = calls.map call.nodeOf := by
  unfold plan
  simp only [except_bind_eq_ok]
  constructor
  · rintro ⟨args, hargs, calls, hcalls, hnodes⟩
    exact ⟨args, calls, hargs, hcalls, (mapM_node_eq_ok_iff hargs hcalls).1 hnodes⟩
  · rintro ⟨args, calls, hargs, hcalls, hnodes⟩
    exact ⟨args, hargs, calls, hcalls, (mapM_node_eq_ok_iff hargs hcalls).2 hnodes⟩

/-! ## Conditions -/

/-- The builder has no reason to refuse the call. -/
structure Admits (b : Builder) (call : Call) : Prop where
  rate : call.rate ∈ call.descriptor.rates
  declared : ∀ given ∈ call.args, ∃ decl ∈ call.descriptor.inputs, decl.name = given.1
  provided : ∀ decl ∈ call.descriptor.inputs,
    (∃ given ∈ call.args, given.1 = decl.name) ∨ ∃ value, decl.default? = some value
  filled : ∀ decl ∈ call.descriptor.inputs, ∀ value, call.Feeds decl value → value.Filled
  owned : ∀ decl ∈ call.descriptor.inputs, ∀ value, call.Feeds decl value → b.Owns value
  rated : ∀ decl ∈ call.descriptor.inputs, ∀ value, call.Feeds decl value →
    ∀ p ∈ value.outlets, decl.check.allows call.rate p.rate

theorem feedable_iff {decl : InputDecl} {value : Signal} : b.Feedable call decl value ↔
    b.Owns value ∧ ∀ p ∈ value.outlets, decl.check.allows call.rate p.rate := by
  constructor
  · intro h
    have hleaf : ∀ p ∈ value.outlets, b.Wires (.outlet p) ∧ call.Passes decl (.outlet p) :=
      fun p hp => h _ (Signal.mem_outlets_iff.1 hp)
    exact ⟨fun p hp => (hleaf p hp).1, fun p hp => (hleaf p hp).2 p rfl⟩
  · rintro ⟨howns, hrates⟩ leaf hleaf
    have hsub := Signal.outlets_leaf_subset hleaf
    refine ⟨(howns.of_subset hsub).wires (value.not_isVector_of_mem_leaves hleaf), ?_⟩
    rintro p rfl
    exact hrates p (hsub (by simp))

theorem exists_plan_iff : (∃ nodes, b.plan call = .ok nodes) ↔ b.Admits call := by
  constructor
  · rintro ⟨nodes, hplan⟩
    obtain ⟨args, calls, hargs, hcalls, hfeedable, -⟩ := plan_eq_ok_iff.1 hplan
    obtain ⟨hrate, hdeclared, hfeeds⟩ := Call.exists_arguments_iff.1 ⟨args, hargs⟩
    obtain ⟨hlength, hanswers⟩ := List.forall₂_iff_zip.1 (Call.answers_of_arguments hargs)
    -- the argument that stands for an input has the value which feeds it
    have hargument : ∀ decl ∈ call.descriptor.inputs, ∀ value, call.Feeds decl value →
        value.Filled ∧ b.Owns value ∧ ∀ p ∈ value.outlets, decl.check.allows call.rate p.rate := by
      intro decl hdecl value hvalue
      rw [← List.map_fst_zip (Nat.le_of_eq hlength)] at hdecl
      obtain ⟨⟨decl, a⟩, hda, rfl⟩ := List.mem_map.1 hdecl
      obtain rfl := (hanswers hda).value.unique hvalue
      have hfilled := Expansion.filled_of_expand hcalls a (List.of_mem_zip hda).2
      exact ⟨hfilled, feedable_iff.1 (hfeedable (decl, a) hda)⟩
    exact ⟨hrate, hdeclared, fun decl hdecl => Call.exists_feeds_iff.1 (hfeeds decl hdecl),
      fun decl hdecl value hvalue => (hargument decl hdecl value hvalue).1,
      fun decl hdecl value hvalue => (hargument decl hdecl value hvalue).2.1,
      fun decl hdecl value hvalue => (hargument decl hdecl value hvalue).2.2⟩
  · intro h
    obtain ⟨args, hargs⟩ := Call.exists_arguments_iff.2
      ⟨h.rate, h.declared, fun decl hdecl => Call.exists_feeds_iff.2 (h.provided decl hdecl)⟩
    obtain ⟨hlength, hanswers⟩ := List.forall₂_iff_zip.1 (Call.answers_of_arguments hargs)
    have hfilled : ∀ a ∈ args, a.value.Filled := by
      intro a ha
      rw [← List.map_snd_zip (Nat.le_of_eq hlength.symm)] at ha
      obtain ⟨⟨decl, a⟩, hda, rfl⟩ := List.mem_map.1 ha
      exact h.filled decl (List.of_mem_zip hda).1 a.value (hanswers hda).value
    obtain ⟨calls, hcalls⟩ := Expansion.exists_expand call.descriptor.name hfilled
    refine ⟨_, plan_eq_ok_iff.2 ⟨args, calls, hargs, hcalls, ?_, rfl⟩⟩
    rintro ⟨decl, a⟩ hda
    have hdecl := (List.of_mem_zip hda).1
    have hvalue := (hanswers hda).value
    exact feedable_iff.2 ⟨h.owned decl hdecl a.value hvalue, h.rated decl hdecl a.value hvalue⟩

/-! ## Faults -/

theorem kind_of_slot {decl : InputDecl} {e : InputKey × Signal} (he : e.2.isVector = false)
    {fault : Fault} (h : b.slot call decl e = .error fault) : fault.kind ≠ .invalidInput := by
  unfold slot at h
  rcases except_bind_eq_error.1 h with hwire | ⟨input, -, h⟩
  · cases hsignal : e.2 with
    | constant value => simp [hsignal, wire] at hwire
    | vector items => simp [hsignal, Signal.isVector] at he
    | outlet p =>
      simp only [hsignal, wire] at hwire
      split at hwire
      · cases hwire
      · cases hwire
        simp [Fault.kind]
  · rcases except_bind_eq_error.1 h with hrate | ⟨_, -, h⟩
    · cases hsignal : e.2 with
      | constant value => simp [hsignal, checkRate] at hrate
      | vector items => simp [hsignal, checkRate] at hrate
      | outlet p =>
        simp only [hsignal, checkRate] at hrate
        split at hrate
        · cases hrate
        · cases hrate
          simp [Fault.kind]
    · cases h

theorem kind_of_node {values : List Signal} (hfills : call.Fills values) {fault : Fault}
    (h : b.node call values = .error fault) : fault.kind ≠ .invalidInput := by
  unfold node at h
  rcases except_bind_eq_error.1 h with hslots | ⟨slots, -, h⟩
  · obtain ⟨dv, hdv, hslots⟩ := exists_error_of_mapM hslots
    obtain ⟨e, he, hslot⟩ := exists_error_of_mapM hslots
    refine kind_of_slot (dv.2.not_isVector_of_mem_leaves ?_) hslot
    rw [← hfills.map_snd_elements hdv]
    exact List.mem_map_of_mem he
  · cases h

/-- Expansion leaves no vector for an input that takes a scalar. -/
theorem kind_of_plan {fault : Fault} (h : b.plan call = .error fault) :
    fault.kind ≠ .invalidInput := by
  unfold plan at h
  rcases except_bind_eq_error.1 h with hargs | ⟨args, hargs, h⟩
  · exact Call.kind_of_arguments hargs
  · rcases except_bind_eq_error.1 h with hcalls | ⟨calls, hcalls, h⟩
    · obtain ⟨a, -, -, rfl⟩ := Expansion.fault_of_expand hcalls
      simp [Fault.kind]
    · obtain ⟨values, hvalues, hnode⟩ := exists_error_of_mapM h
      exact kind_of_node (Call.fills_of_expand hargs hcalls hvalues) hnode

end Builder

namespace Build

/-- A call is registered exactly if the builder admits it. Every call that it expands to appends one
node, and the outputs of these nodes are returned in the same order. A call that is not admitted
changes nothing, and its fault is never an invalid input. -/
theorem register_iff_admits (call : Call) (b : Builder) :
    ((∃ s, ((register call).exec b).1 = .ok s) ↔ b.Admits call) ∧
    (∀ s b', (register call).exec b = (.ok s, b') → ∃ args calls,
      List.Forall₂ call.Answers call.descriptor.inputs args ∧
      Expansion.expand call.descriptor.name args = .ok calls ∧
      b' = { b with nodes := b.nodes ++ (calls.map call.nodeOf).toArray } ∧
      s = .collapse ((List.range' b.nodes.size calls.length).map fun id =>
        b.outlets id call.outputs call.rate)) ∧
    ∀ fault b', (register call).exec b = (.error fault, b') →
      b' = b ∧ fault.kind ≠ .invalidInput := by
  rw [← Builder.exists_plan_iff, exec_register]
  cases hplan : b.plan call with
  | error fault =>
    refine ⟨by simp, ?_, ?_⟩
    · rintro s b' ⟨⟩
    · rintro fault' b' ⟨⟩
      exact ⟨rfl, Builder.kind_of_plan hplan⟩
  | ok nodes =>
    refine ⟨by simp, ?_, ?_⟩
    · rintro s b' ⟨⟩
      obtain ⟨args, calls, hargs, hcalls, -, rfl⟩ := Builder.plan_eq_ok_iff.1 hplan
      refine ⟨args, calls, Call.answers_of_arguments hargs, hcalls, rfl, ?_⟩
      rw [List.zipIdx_map, List.map_map, ← List.zipIdx_map_snd, List.map_map]
      rfl
    · rintro fault b' ⟨⟩

end Build

end SynthGraph
