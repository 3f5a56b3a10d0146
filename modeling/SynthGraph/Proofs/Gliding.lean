import SynthGraph.Proofs.Recovery

/-!
# Lags of controls

A parameter with a lag that is not zero glides to new values. Of the groups only the one at control
rate changes its class for that, to `LagControl`. But the control of every group in which a
parameter glides gets inputs: for each output the lag of the parameter that the output belongs to,
or zero. So controls of the classes `Control`, `TrigControl` and `AudioControl`, whose descriptors
have no inputs, are built with inputs as well.
-/

namespace SynthGraph

/-- The parameter has a lag, and the lag is not zero. -/
def Parameter.glides (p : Parameter) : Bool := p.lag.any (!·.isZero)

/-- The slot is one of the parameter with its first slot. -/
def Parameter.Covers (e : Parameter × Nat) (slot : Nat) : Prop := e.2 ≤ slot ∧ slot < e.2 + e.1.size

/-- Some parameter of this rate glides. -/
def Builder.glides (b : Builder) (rate : ParameterRate) : Bool :=
  b.parameters.any fun p => p.rate == rate && p.glides

/-- The class of the control for a rate. -/
def ParameterRate.controlClass (glides : Bool) : ParameterRate → String
  | scalar => "Control"
  | trigger => "TrigControl"
  | audio => "AudioControl"
  | control => if glides then "LagControl" else "Control"

/-- The node is the control for the parameters of one rate, of its class and with its lags. -/
structure Builder.Drives (b : Builder) (d : Definition) (rate : ParameterRate) (u : Node) :
    Prop where
  controls : d.Controls rate u
  className : u.className = rate.controlClass (b.glides rate)
  still : b.glides rate = false → u.inputs = []
  count : b.glides rate → u.inputs.length = u.outputs
  /-- The input for an output is the lag of the one parameter that covers its slot. -/
  lag : b.glides rate → ∀ output < u.outputs,
    ∃ e ∈ d.parameters, Parameter.Covers e (u.special.toNat + output) ∧
      (∀ e' ∈ d.parameters, Parameter.Covers e' (u.special.toNat + output) → e' = e) ∧
      e.1 ∈ b.parameters ∧ e.1.rate = rate ∧ u.inputs[output]? = some (.constant (e.1.lag.getD 0))

/-! ## Slots -/

theorem Parameter.isLagged_eq (p : Parameter) : p.isLagged = p.glides := by
  simp only [isLagged, glides, Single.numEq_zero]

namespace Graph

theorem pairwise_ends_slotsFrom (start : Nat) (ps : List Parameter) :
    (slotsFrom start ps).Pairwise fun e e' => e.2 + e.1.size ≤ e'.2 := by
  induction ps generalizing start with
  | nil => exact .nil
  | cons p ps ih => exact .cons (fun _ he => slot_ge_of_mem_slotsFrom he) (ih _)

theorem eq_of_covers {start slot : Nat} {ps : List Parameter} {e e' : Parameter × Nat}
    (he : e ∈ slotsFrom start ps) (he' : e' ∈ slotsFrom start ps) (h : Parameter.Covers e slot)
    (h' : Parameter.Covers e' slot) : e' = e := by
  obtain ⟨hge, hlt⟩ := h
  obtain ⟨hge', hlt'⟩ := h'
  rcases eq_or_rel_of_pairwise (pairwise_ends_slotsFrom start ps) he' he with heq | hle | hle
  · exact heq
  · omega
  · omega

theorem exists_covers (start : Nat) {offset : Nat} {ps : List Parameter}
    (h : offset < (ps.flatMap (·.values)).length) :
    ∃ e ∈ slotsFrom start ps, Parameter.Covers e (start + offset) := by
  induction ps generalizing start offset with
  | nil => exact absurd h (Nat.not_lt_zero _)
  | cons p ps ih =>
    by_cases hfirst : offset < p.size
    · exact ⟨(p, start), List.mem_cons_self, Nat.le_add_right .., Nat.add_lt_add_left hfirst _⟩
    · rw [List.flatMap_cons, List.length_append] at h
      change offset < p.size + _ at h
      obtain ⟨rest, rfl⟩ : ∃ rest, offset = p.size + rest := ⟨offset - p.size, by omega⟩
      obtain ⟨e, he, hcovers⟩ := ih (start + p.size) (by omega : rest < _)
      refine ⟨e, List.mem_cons_of_mem _ he, ?_⟩
      rwa [← Nat.add_assoc]

end Graph

/-! ## Groups -/

namespace ControlGroup

theorem length_lags (group : ControlGroup) : group.lags.length = group.size := by
  simp [lags, size, List.length_flatMap, Parameter.size]

theorem className_node_eq (group : ControlGroup) :
    group.node.className = group.rate.controlClass group.isLagged := by
  have hclass : group.node.className = group.descriptor.name := rfl
  rw [hclass, descriptor]
  cases group.rate with
  | scalar => rfl
  | trigger => rfl
  | audio => rfl
  | control => cases group.isLagged <;> rfl

/-- In every slot of a parameter stands its lag. -/
theorem getElem?_lags_of_covers {group : ControlGroup} {e : Parameter × Nat} {output : Nat}
    (he : e ∈ Graph.slotsFrom group.start (group.members.map (·.2)))
    (hcovers : Parameter.Covers e (group.start + output)) :
    group.lags[output]? = some (e.1.lag.getD 0) := by
  obtain ⟨p, slot⟩ := e
  obtain ⟨hge, hlt⟩ : slot ≤ group.start + output ∧ group.start + output < slot + p.size := hcovers
  obtain ⟨first, rfl⟩ := Nat.exists_eq_add_of_le (Graph.slot_ge_of_mem_slotsFrom he)
  obtain ⟨channel, rfl⟩ : ∃ channel, output = first + channel := ⟨output - first, by omega⟩
  have hchannel : channel < p.size := by omega
  have hlags : group.lags = (group.members.map (·.2)).flatMap
      fun p => List.replicate p.size p.lagOrZero := by
    rw [List.flatMap_map]
    rfl
  rw [hlags, Graph.getElem?_flatMap_of_mem_slotsFrom (fun p => List.length_replicate) _ he hchannel,
    List.getElem?_replicate, if_pos hchannel]
  rfl

end ControlGroup

namespace Graph

variable {source : Graph} {group : ControlGroup} {d : Definition}

theorem isLagged_eq (hg : group ∈ source.controlGroups) :
    group.isLagged = (source.placeholders.map (·.2)).any
      fun p => p.rate == group.rate && p.glides := by
  rw [Bool.eq_iff_iff]
  simp only [ControlGroup.isLagged, List.any_eq_true, (mem_groupsFrom hg).2.1, mem_groupMembers,
    Parameter.isLagged_eq, List.mem_map, Bool.and_eq_true, beq_iff_eq]
  constructor
  · rintro ⟨m, ⟨hm, hrate⟩, hglides⟩
    exact ⟨m.2, ⟨m, hm, rfl⟩, hrate, hglides⟩
  · rintro ⟨_, ⟨m, hm, rfl⟩, hrate, hglides⟩
    exact ⟨m, ⟨hm, hrate⟩, hglides⟩

theorem Tabulated.exists_covers (h : source.Tabulated d) (hg : group ∈ source.controlGroups)
    {output : Nat} (houtput : output < group.node.outputs) :
    ∃ e ∈ slotsFrom group.start (group.members.map (·.2)), e ∈ d.parameters ∧
      Parameter.Covers e (group.start + output) ∧
      ∀ e' ∈ d.parameters, Parameter.Covers e' (group.start + output) → e' = e := by
  have hlt : output < ((group.members.map (·.2)).flatMap (·.values)).length := by
    rw [List.flatMap_map]
    exact houtput
  obtain ⟨e, he, hcovers⟩ := Graph.exists_covers group.start hlt
  have hmem : e ∈ d.parameters := by
    rw [h.parameters]
    exact List.mem_flatMap.2 ⟨group, hg, he⟩
  refine ⟨e, he, hmem, hcovers, fun e' he' hcovers' => ?_⟩
  rw [h.parameters_eq] at hmem he'
  exact eq_of_covers hmem he' hcovers hcovers'

end Graph

theorem Builder.drives_of_group {b : Builder} {d : Definition} {group : ControlGroup}
    (ht : (Graph.ofNodes b.nodes).Tabulated d)
    (hg : group ∈ (Graph.ofNodes b.nodes).controlGroups) : b.Drives d group.rate group.node := by
  have hparameters : (Graph.ofNodes b.nodes).placeholders.map (·.2) = b.parameters :=
    Graph.map_placeholders b.nodes
  have hglides : b.glides group.rate = group.isLagged := by
    rw [Graph.isLagged_eq hg, hparameters, Builder.glides]
  have hinputs : group.node.inputs = group.lagInputs.map Input.constant := rfl
  constructor
  case controls => exact ht.control hg
  case className => rw [hglides, group.className_node_eq]
  case still =>
    intro h
    rw [hglides] at h
    simp [hinputs, ControlGroup.lagInputs, h]
  case count =>
    intro h
    rw [hinputs, ControlGroup.lagInputs, if_pos (hglides ▸ h), List.length_map, group.length_lags]
    rfl
  case lag =>
    intro h output houtput
    obtain ⟨e, he, hmem, hcovers, hunique⟩ := ht.exists_covers hg houtput
    rw [ht.toNat_special hg]
    refine ⟨e, hmem, hcovers, hunique, ?_, (Graph.member_of_mem_slotsFrom hg he).2, ?_⟩
    · rw [← hparameters, ← (Graph.slotOrder_perm _).mem_iff, ← ht.map_fst_parameters]
      exact List.mem_map_of_mem hmem
    · rw [hinputs, ControlGroup.lagInputs, if_pos (hglides ▸ h), List.getElem?_map,
        ControlGroup.getElem?_lags_of_covers he hcovers, Option.map_some]

theorem Builder.map_rate_controlGroups (b : Builder) :
    (Graph.ofNodes b.nodes).controlGroups.map (·.rate) =
      ParameterRate.all.filter fun rate => b.parameters.any (·.rate = rate) := by
  rw [Graph.map_rate_controlGroups, Graph.parameterRates, Builder.parameters,
    ← Graph.map_placeholders]
  refine List.filter_congr fun rate _ => ?_
  rw [Graph.parametersAt, List.isEmpty_map, List.any_map, Bool.eq_iff_iff]
  simp

/-- The controls of a definition are one for each rate of which there are parameters. One at control
rate is a `LagControl` exactly if a parameter at control rate glides. A control of any rate has the
lags of its parameters as inputs, one for each output, exactly if one of them glides. -/
theorem build_drives_lags {b : Builder} (hb : b.Reachable) {options : Options} {d : Definition}
    (h : b.build options = .ok d) :
    List.Forall₂ (b.Drives d)
      (ParameterRate.all.filter fun rate => b.parameters.any (·.rate = rate))
      (d.ugens.filter Node.isControl) := by
  obtain ⟨-, g, hg, rfl⟩ := Builder.build_eq_ok.1 h
  have ht := hb.wellFormed.sourced.tabulated hg options.effectiveName
  rw [← b.map_rate_controlGroups, ht.controls, List.forall₂_map_left_iff,
    List.forall₂_map_right_iff, List.forall₂_same]
  exact fun group hgroup => Builder.drives_of_group ht hgroup

/-- The lag of one parameter makes a `LagControl` of the control for two, of which the second one
has two slots. -/
theorem panelBuilder_drives : ∃ d, panelBuilder.Reachable ∧ panelBuilder.build {} = .ok d ∧
    (d.ugens.filter Node.isControl).map (fun u => (u.className, u.inputs)) =
      [("Control", []), ("TrigControl", []),
        ("LagControl", [.constant 1, .constant 0, .constant 0])] ∧
    List.Forall₂ (panelBuilder.Drives d) [.scalar, .trigger, .control]
      (d.ugens.filter Node.isControl) := by
  have hcompiled : ((Graph.ofNodes panelBuilder.nodes).compiled {}).toOption.map
      (fun g => (g.numbered.filter Node.isControl).map fun u => (u.className, u.inputs)) =
      some [("Control", []), ("TrigControl", []),
        ("LagControl", [.constant 1, .constant 0, .constant 0])] := by
    unfold Graph.compiled Graph.complete Graph.makeControls
    rw [controlGroups_panelBuilder]
    decide +kernel
  obtain ⟨g, hg, hcontrols⟩ := exists_eq_ok_of_map_toOption hcompiled
  have hd : panelBuilder.build {} = .ok (g.finish none) :=
    Builder.build_eq_ok.2 ⟨by decide +kernel, g, hg, rfl⟩
  have hrates : (ParameterRate.all.filter fun rate => panelBuilder.parameters.any (·.rate = rate)) =
      [.scalar, .trigger, .control] := by
    decide +kernel
  exact ⟨_, reachable_panelBuilder, hd, hcontrols,
    hrates ▸ build_drives_lags reachable_panelBuilder hd⟩

/-- A parameter with a lag at each rate but control rate. -/
def glideOperations : List Operation :=
  [.addParameter { name := "out", values := [0], rate := .scalar, lag := some 1 },
    .addParameter { name := "gate", values := [1], rate := .trigger, lag := some 2 },
    .addParameter { name := "mod", values := [2, 3], rate := .audio, lag := some 3 }]

def glideBuilder : Builder := glideOperations.foldl (fun b op => op.after b) { scope := 0 }

/-- The controls have lags as inputs, although their descriptors take none. -/
theorem glideBuilder_lags : glideBuilder.Reachable ∧ ∃ d, glideBuilder.build {} = .ok d ∧
    d.ugens.map (fun u => (u.className, u.inputs)) =
      [(Catalog.control.name, [.constant 1]), (Catalog.trigControl.name, [.constant 2]),
        (Catalog.audioControl.name, [.constant 3, .constant 3])] ∧
    ∀ e ∈ [Catalog.control, Catalog.trigControl, Catalog.audioControl], e.inputs = [] := by
  have hreachable : glideBuilder.Reachable := reachable_of_admitted (by decide +kernel)
  have hbuild : (glideBuilder.build {}).toOption.map
      (fun d => d.ugens.map fun u => (u.className, u.inputs)) =
      some [(Catalog.control.name, [.constant 1]), (Catalog.trigControl.name, [.constant 2]),
        (Catalog.audioControl.name, [.constant 3, .constant 3])] := by
    decide +kernel
  obtain ⟨d, hd, hugens⟩ := exists_eq_ok_of_map_toOption hbuild
  exact ⟨hreachable, d, hd, hugens, by decide⟩

end SynthGraph
