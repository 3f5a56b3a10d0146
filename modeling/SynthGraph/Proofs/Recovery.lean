import SynthGraph.Proofs.Catalogued
import SynthGraph.Proofs.Execution

/-!
# What a file leaves out

A file holds neither the keys and flags of generators nor the rates and lags of parameters. Reading
takes keys and flags from the catalog, and rate and lag of a parameter from the control that covers
its first slot. The slots of the groups do not overlap, so this is the control that was made for it.
Of the lags only those are found again that do something: a control has none if it does not run at
control rate or if all are zero.
-/

namespace SynthGraph

open Scgf

/-- The second parameter is the first one without a lag that does nothing. -/
structure Parameter.Recovers (p q : Parameter) : Prop where
  name : q.name = p.name
  values : q.values = p.values
  rate : q.rate = p.rate
  lag : ∀ l, q.lag = some l ↔ p.rate = .control ∧ p.lag = some l ∧ l.isZero = false

/-- The second generator has what the catalog and the tables tell about the first. -/
structure Node.Recovers (u u' : Node) : Prop where
  kind : u'.isControl = u.isControl
  flags : u'.flags = u.flags
  keys : u.isControl = false → u'.keys = u.keys
  parameters : u.isControl → List.Forall₂ Parameter.Recovers u.parameters u'.parameters

/-- In the second definition everything is found again that the first one, a definition of the
builder, has besides its wiring. -/
structure Builder.Recovers (b : Builder) (d d' : Definition) : Prop where
  ugens : List.Forall₂ Node.Recovers d.ugens d'.ugens
  parameters : List.Forall₂ (fun p q => p.1.Recovers q.1 ∧ q.2 = p.2) d.parameters d'.parameters
  registered : (d.parameters.map (·.1)).Perm b.parameters ∧
    ∀ u ∈ d.ugens, u.parameters ⊆ b.parameters

theorem Node.parameters_eq_nil {u : Node} (h : u.isControl = false) : u.parameters = [] := by
  obtain ⟨_, _, _, _, _, _, _, role⟩ := u
  cases role with
  | control => cases h
  | generator => rfl
  | parameter => rfl

theorem Single.numEq_zero (s : Single) : s.numEq 0 = s.isZero := by
  by_cases hs : s.isZero
  · have hnan := Single.isNaN_eq_false_of_isZero hs
    have hzero : Single.isZero 0 ∧ Single.isNaN 0 = false := by decide
    simp [Single.numEq, hs, hnan, hzero]
  · have hbits : s.bits ≠ Single.bits 0 := fun h => hs (by rw [Single.isZero, h]; decide)
    simp [Single.numEq, hs, hbits]

/-! ## Slots of groups -/

/-- The slot is one of the group. -/
def ControlGroup.Holds (group : ControlGroup) (slot : Nat) : Prop :=
  group.start ≤ slot ∧ slot < group.start + group.size

namespace Graph

theorem start_le_of_mem_groupsFrom {placeholders : List (Nat × Parameter)} {start : Nat}
    {rates : List ParameterRate} {group : ControlGroup}
    (h : group ∈ groupsFrom placeholders start rates) : start ≤ group.start := by
  induction rates generalizing start with
  | nil => cases h
  | cons rate rates ih =>
    unfold groupsFrom at h
    simp only at h
    split at h
    · exact Nat.le_trans (Nat.le_add_right _ _) (ih h)
    · rcases List.mem_cons.1 h with rfl | h
      · exact Nat.le_refl _
      · exact Nat.le_trans (Nat.le_add_right _ _) (ih h)

theorem pairwise_groupsFrom (placeholders : List (Nat × Parameter)) (start : Nat)
    (rates : List ParameterRate) :
    (groupsFrom placeholders start rates).Pairwise fun a b => a.start + a.size ≤ b.start := by
  induction rates generalizing start with
  | nil => exact .nil
  | cons rate rates ih =>
    unfold groupsFrom
    simp only
    split
    · exact ih _
    · exact List.pairwise_cons.2 ⟨fun b hb => start_le_of_mem_groupsFrom hb, ih _⟩

variable {source g : Graph} {group other : ControlGroup} {p : Parameter} {slot : Nat}
  {d : Definition}

/-- No slot is one of two groups. -/
theorem eq_of_holds (hg : group ∈ source.controlGroups) (ho : other ∈ source.controlGroups)
    (hslot : group.Holds slot) (hslot' : other.Holds slot) : group = other := by
  obtain ⟨hge, hlt⟩ := hslot
  obtain ⟨hge', hlt'⟩ := hslot'
  rcases eq_or_rel_of_pairwise (pairwise_groupsFrom _ _ _) hg ho with heq | hle | hle
  · exact heq
  · omega
  · omega

theorem Sourced.values_ne_nil (hs : source.Sourced) (hg : group ∈ source.controlGroups)
    {m : Nat × Parameter} (hm : m ∈ group.members) : m.2.values ≠ [] := by
  obtain ⟨⟨hlive, hparameter⟩, -⟩ := (mem_controlGroups hg).1 hm
  exact (hs.placeholders m.1 hlive m.2 hparameter).2

/-- A member of a group has its first slot there. -/
theorem Sourced.holds (hs : source.Sourced) (hg : group ∈ source.controlGroups)
    (h : (p, slot) ∈ slotsFrom group.start (group.members.map (·.2))) : group.Holds slot := by
  have hvalues : ∀ p ∈ group.members.map (·.2), p.values ≠ [] := by
    intro p hp
    obtain ⟨m, hm, rfl⟩ := List.mem_map.1 hp
    exact hs.values_ne_nil hg hm
  have hlt := slot_lt_of_mem_slotsFrom hvalues h
  rw [List.flatMap_map] at hlt
  exact ⟨slot_ge_of_mem_slotsFrom h, hlt⟩

theorem member_of_mem_slotsFrom (hg : group ∈ source.controlGroups)
    (h : (p, slot) ∈ slotsFrom group.start (group.members.map (·.2))) :
    (∃ m ∈ group.members, m.2 = p) ∧ p.rate = group.rate := by
  have hmem : p ∈ group.members.map (·.2) := by
    rw [← map_fst_slotsFrom group.start (group.members.map (·.2))]
    exact List.mem_map_of_mem (f := (·.1)) h
  obtain ⟨m, hm, rfl⟩ := List.mem_map.1 hmem
  exact ⟨⟨m, hm, rfl⟩, ((mem_controlGroups hg).1 hm).2⟩

/-- In the slots of a parameter stands its lag. -/
theorem getElem?_lags (h : (p, slot) ∈ slotsFrom group.start (group.members.map (·.2)))
    (hp : p.values ≠ []) : group.lags[slot - group.start]? = some p.lagOrZero := by
  have hsize : 0 < p.size := List.length_pos_of_ne_nil hp
  have hge : group.start ≤ slot := slot_ge_of_mem_slotsFrom h
  obtain ⟨offset, rfl⟩ := Nat.exists_eq_add_of_le hge
  have hlags : group.lags = (group.members.map (·.2)).flatMap
      fun p => List.replicate p.size p.lagOrZero := by
    rw [List.flatMap_map]
    rfl
  have hget := getElem?_flatMap_of_mem_slotsFrom (f := fun p => List.replicate p.size p.lagOrZero)
    (fun p => List.length_replicate) group.start h hsize
  rw [hlags, Nat.add_sub_cancel_left, ← Nat.add_zero offset, hget, List.getElem?_replicate,
    if_pos hsize]

end Graph

/-! ## Generators -/

namespace Definition

variable {d : Definition} {u : Node} {e : Descriptor}

/-- The generator as it is read, before it gets parameters. -/
def asRead (d : Definition) (u : Node) : Node := (d.ugenRecord u).node Catalog.full d.constants

theorem ugens_tables (d : Definition) (name : String) :
    ((d.record name).tables Catalog.full).ugens = d.ugens.map d.asRead := by
  simp only [Record.tables, record, List.map_map]
  rfl

/-- Flags and keys are those that the catalog has for the class. -/
theorem described_asRead (d : Definition) (he : e ∈ Catalog.full) (hname : u.className = e.name) :
    (d.asRead u).flags = e.flags ∧ (d.asRead u).keys = inputKeys (some e) u.inputs.length := by
  have hlookup : (Catalog.full.lookup? (d.ugenRecord u).className <|>
      Catalog.synthesized.lookup? (d.ugenRecord u).className) = some e := by
    show (Catalog.full.lookup? u.className <|> _) = some e
    rw [hname, Catalog.lookup?_of_mem he]
    rfl
  have hlength : (d.ugenRecord u).inputs.length = u.inputs.length := List.length_map _
  simp only [asRead, UGenRecord.node, hlookup, hlength, Option.map_some, Option.getD_some, and_self]

end Definition

namespace Graph

variable {source g : Graph} {group other : ControlGroup} {p : Parameter} {slot : Nat}
  {d : Definition} {u : Node}

/-- What reading relies on: the catalog describes all generators but the controls, which are those
of the groups. -/
structure Legible (source : Graph) (d : Definition) : Prop extends Tabulated source d where
  sourced : source.Sourced
  described : ∀ u ∈ d.ugens, u.isControl = false → ∃ e ∈ Catalog.full, u.Described e
  flagged : ∀ u ∈ d.ugens, u.flags.control = u.isControl

namespace Legible

theorem exists_group (h : source.Legible d) (hu : u ∈ d.ugens) (hcontrol : u.isControl) :
    ∃ group ∈ source.controlGroups, group.node = u := by
  have hmem : u ∈ d.ugens.filter Node.isControl := List.mem_filter.2 ⟨hu, hcontrol⟩
  rw [h.controls] at hmem
  exact List.mem_map.1 hmem

theorem node_mem (h : source.Legible d) (hg : group ∈ source.controlGroups) :
    group.node ∈ d.ugens := by
  have hmem : group.node ∈ d.ugens.filter Node.isControl := by
    rw [h.controls]
    exact List.mem_map_of_mem hg
  exact (List.mem_filter.1 hmem).1

theorem flags_asRead (h : source.Legible d) (hu : u ∈ d.ugens) :
    (d.asRead u).flags = u.flags := by
  cases hcontrol : u.isControl with
  | true =>
    obtain ⟨group, -, rfl⟩ := h.exists_group hu hcontrol
    have hclasses : ∀ e ∈ ControlGroup.classes, e ∈ Catalog.full := by decide +kernel
    exact (d.described_asRead (hclasses _ group.descriptor_mem_classes) rfl).1
  | false =>
    obtain ⟨e, he, hdescribed⟩ := h.described u hu hcontrol
    rw [hdescribed.flags]
    exact (d.described_asRead he hdescribed.className).1

theorem covers_asRead (h : source.Legible d) (hg : group ∈ source.controlGroups) :
    covers (d.asRead group.node) slot ↔ group.Holds slot := by
  have houtputs : (d.asRead group.node).outputs = group.size := by
    show (List.replicate group.size _).length = _
    exact List.length_replicate
  have hspecial : (d.asRead group.node).special.toNat = group.start := h.toNat_special hg
  simp only [covers, houtputs, hspecial, ControlGroup.Holds, Bool.and_eq_true, decide_eq_true_iff]

/-- The control that covers the first slot of a parameter is that of its group. -/
theorem driven_eq (h : source.Legible d) (hg : group ∈ source.controlGroups)
    (hp : (p, slot) ∈ slotsFrom group.start (group.members.map (·.2))) :
    driven (d.ugens.map d.asRead) p.name slot p.values =
      { name := p.name, values := p.values, rate := controlRate (d.asRead group.node)
        lag := controlLag (d.asRead group.node) slot } := by
  have hholds := h.sourced.holds hg hp
  have hmatch : ∃ w ∈ d.ugens.map d.asRead, (w.flags.control && covers w slot) = true := by
    refine ⟨_, List.mem_map_of_mem (h.node_mem hg), ?_⟩
    rw [h.flags_asRead (h.node_mem hg), group.flags_node, (h.covers_asRead hg).2 hholds]
    rfl
  obtain ⟨w, hfind⟩ := Option.isSome_iff_exists.1 (List.find?_isSome.2 hmatch)
  have hw := List.find?_some hfind
  rw [Bool.and_eq_true] at hw
  obtain ⟨u, hu, rfl⟩ := List.mem_map.1 (List.mem_of_find?_eq_some hfind)
  have hcontrol : u.isControl := by
    rw [← h.flagged u hu, ← h.flags_asRead hu]
    exact hw.1
  obtain ⟨other, ho, rfl⟩ := h.exists_group hu hcontrol
  obtain rfl := eq_of_holds hg ho hholds ((h.covers_asRead ho).1 hw.2)
  unfold driven
  rw [hfind]

theorem controlRate_asRead (d : Definition) (group : ControlGroup) :
    controlRate (d.asRead group.node) = group.rate := by
  have hclass : (d.asRead group.node).className = group.descriptor.name := rfl
  have hrate : (d.asRead group.node).rate = group.rate.calculation := rfl
  unfold controlRate
  rw [hclass, hrate]
  unfold ControlGroup.descriptor
  cases group.rate with
  | scalar => rfl
  | trigger => rfl
  | audio => rfl
  | control =>
    have hname : (if group.isLagged then Catalog.lagControl else Catalog.control).name ≠
        Catalog.trigControl.name := by
      split <;> decide
    rw [if_neg hname]
    rfl

theorem name_eq_lagControl_iff (group : ControlGroup) :
    group.descriptor.name = Catalog.lagControl.name ↔ group.rate = .control ∧ group.isLagged := by
  have hcontrol : Catalog.control.name ≠ Catalog.lagControl.name := by decide
  have htrigger : Catalog.trigControl.name ≠ Catalog.lagControl.name := by decide
  have haudio : Catalog.audioControl.name ≠ Catalog.lagControl.name := by decide
  unfold ControlGroup.descriptor
  cases group.rate with
  | scalar => exact ⟨fun h => absurd h hcontrol, nofun⟩
  | trigger => exact ⟨fun h => absurd h htrigger, nofun⟩
  | audio => exact ⟨fun h => absurd h haudio, nofun⟩
  | control =>
    cases group.isLagged with
    | true => exact ⟨fun _ => ⟨rfl, rfl⟩, fun _ => rfl⟩
    | false => exact ⟨fun h => absurd h hcontrol, nofun⟩

/-- The control of a group that glides is read with the lag of a parameter in its slots, up to the
sign of zero. -/
theorem exists_lag_asRead (h : source.Legible d) (hw : d.Writable)
    (hg : group ∈ source.controlGroups) (hlagged : group.isLagged)
    (hp : (p, slot) ∈ slotsFrom group.start (group.members.map (·.2))) :
    ∃ lag, (d.asRead group.node).inputs[slot - group.start]? = some (.constant lag) ∧
      (lag = p.lagOrZero ∨ lag.isZero ∧ p.lagOrZero.isZero) := by
  obtain ⟨m, hm, rfl⟩ := (member_of_mem_slotsFrom hg hp).1
  have hinput : group.node.inputs[slot - group.start]? = some (.constant m.2.lagOrZero) := by
    show (group.lagInputs.map Input.constant)[slot - group.start]? = _
    rw [ControlGroup.lagInputs, if_pos hlagged, List.getElem?_map,
      getElem?_lags hp (h.sourced.values_ne_nil hg hm), Option.map_some]
  have hlists := (hw.ugens _ (h.node_mem hg)).2 _ (List.mem_of_getElem? hinput)
  obtain ⟨-, lag, -, -, hsame, hread⟩ :=
    Definition.inputOf_inputPair hlists fun ref href => by cases href
  refine ⟨lag, ?_, hsame⟩
  show ((group.node.inputs.map d.inputPair).map (inputOf d.constants))[slot - group.start]? = _
  rw [List.getElem?_map, List.getElem?_map, hinput, Option.map_some, Option.map_some, hread]

theorem lag_eq_some_iff {p : Parameter} {l : Single} (hl : l.isZero = false) :
    p.lag = some l ↔ p.lagOrZero = l := by
  unfold Parameter.lagOrZero
  cases p.lag with
  | none =>
    refine ⟨nofun, ?_⟩
    rintro rfl
    exact absurd hl (by decide)
  | some lag => exact Option.some_inj

/-- Of a lag that is read up to the sign of zero, exactly what is not zero is kept. -/
theorem some_lag_iff {p : Parameter} {lag : Single}
    (hsame : lag = p.lagOrZero ∨ lag.isZero ∧ p.lagOrZero.isZero) (l : Single) :
    (if lag.isZero then none else some lag) = some l ↔ p.lag = some l ∧ l.isZero = false := by
  constructor
  · intro hread
    split at hread
    · cases hread
    · next hzero =>
      obtain rfl : lag = l := Option.some.inj hread
      have hzero : lag.isZero = false := by simpa using hzero
      refine ⟨(lag_eq_some_iff hzero).2 ?_, hzero⟩
      rcases hsame with heq | ⟨hzero', -⟩
      · exact heq.symm
      · rw [hzero] at hzero'
        cases hzero'
  · rintro ⟨hlag, hzero⟩
    rw [(lag_eq_some_iff hzero).1 hlag, hzero] at hsame
    rcases hsame with rfl | ⟨-, hzero'⟩
    · rw [hzero]
      rfl
    · cases hzero'

/-- Exactly the lags that do something are read. -/
theorem controlLag_asRead (h : source.Legible d) (hw : d.Writable)
    (hg : group ∈ source.controlGroups)
    (hp : (p, slot) ∈ slotsFrom group.start (group.members.map (·.2))) (l : Single) :
    controlLag (d.asRead group.node) slot = some l ↔
      p.rate = .control ∧ p.lag = some l ∧ l.isZero = false := by
  obtain ⟨⟨m, hm, hmember⟩, hrate⟩ := member_of_mem_slotsFrom hg hp
  have hclass : (d.asRead group.node).className = group.descriptor.name := rfl
  unfold controlLag
  rw [hclass, hrate]
  split
  · next hname =>
    obtain ⟨hcontrol, hlagged⟩ := (name_eq_lagControl_iff group).1 hname
    obtain ⟨lag, hlag, hsame⟩ := h.exists_lag_asRead hw hg hlagged hp
    have hspecial : (d.asRead group.node).special.toNat = group.start := h.toNat_special hg
    rw [hspecial, hlag]
    simp only [Option.bind_some, Input.constant?, Single.numEq_zero, hcontrol, true_and]
    exact some_lag_iff hsame l
  · next hname =>
    refine ⟨nofun, ?_⟩
    rintro ⟨hcontrol, hlag, hzero⟩
    refine absurd ((name_eq_lagControl_iff group).2 ⟨hcontrol, ?_⟩) hname
    refine List.any_eq_true.2 ⟨m, hm, ?_⟩
    rw [hmember, Parameter.isLagged, hlag]
    simp [Single.numEq_zero, hzero]

theorem recovers_driven (h : source.Legible d) (hw : d.Writable)
    (hg : group ∈ source.controlGroups)
    (hp : (p, slot) ∈ slotsFrom group.start (group.members.map (·.2))) :
    p.Recovers (driven (d.ugens.map d.asRead) p.name slot p.values) := by
  rw [h.driven_eq hg hp]
  refine ⟨rfl, rfl, ?_, h.controlLag_asRead hw hg hp⟩
  rw [controlRate_asRead, (member_of_mem_slotsFrom hg hp).2]

theorem exists_slots (h : source.Legible d) {e : Parameter × Nat} (he : e ∈ d.parameters) :
    ∃ group ∈ source.controlGroups, e ∈ slotsFrom group.start (group.members.map (·.2)) := by
  rw [h.parameters] at he
  exact List.mem_flatMap.1 he

/-- A control covers the parameters of its group. -/
theorem filter_covers (h : source.Legible d) (hg : group ∈ source.controlGroups) :
    d.parameters.filter (fun e => covers (d.asRead group.node) e.2) =
      slotsFrom group.start (group.members.map (·.2)) := by
  rw [← h.group_eq hg, Definition.group]
  refine List.filter_congr fun e he => ?_
  rw [Bool.eq_iff_iff, h.covers_asRead hg, decide_eq_true_iff]
  constructor
  · intro hholds
    obtain ⟨other, ho, hmem⟩ := h.exists_slots he
    obtain rfl := eq_of_holds hg ho hholds (h.sourced.holds ho hmem)
    exact (member_of_mem_slotsFrom hg hmem).2
  · intro hrate
    have hmem : e ∈ d.group group.rate := List.mem_filter.2 ⟨he, by simpa using hrate⟩
    rw [h.group_eq hg] at hmem
    exact h.sourced.holds hg hmem

theorem recovers_attach (h : source.Legible d) (hw : d.Writable) (hu : u ∈ d.ugens) :
    u.Recovers (attach (d.parameters.map fun e =>
      (driven (d.ugens.map d.asRead) e.1.name e.2 e.1.values, e.2)) (d.asRead u)) := by
  have hflags := h.flags_asRead hu
  have hflag : (d.asRead u).flags.control = u.isControl := by rw [hflags, h.flagged u hu]
  unfold attach
  rw [hflag]
  cases hcontrol : u.isControl with
  | false =>
    obtain ⟨e, he, hdescribed⟩ := h.described u hu hcontrol
    refine ⟨hcontrol.symm, hflags, fun _ => ?_, fun hc => ?_⟩
    · rw [hdescribed.keys]
      exact (d.described_asRead he hdescribed.className).2
    · rw [hcontrol] at hc
      cases hc
  | true =>
    obtain ⟨group, hg, rfl⟩ := h.exists_group hu hcontrol
    refine ⟨hcontrol.symm, hflags, fun hc => ?_, fun _ => ?_⟩
    · rw [hcontrol] at hc
      cases hc
    · show List.Forall₂ _ (group.members.map (·.2)) (List.map _ (List.filter _ _))
      have hcovered := h.filter_covers hg
      rw [← map_fst_slotsFrom group.start (group.members.map (·.2)), ← hcovered, List.filter_map,
        List.map_map, List.forall₂_map_left_iff, List.forall₂_map_right_iff]
      refine List.forall₂_same.2 fun e he => ?_
      rw [hcovered] at he
      exact h.recovers_driven hw hg he

theorem recovers_fileRecord [Digest] (h : source.Legible d) (hd : d.Coherent) (hw : d.Writable)
    (anonymous : Bool) :
    List.Forall₂ Node.Recovers d.ugens ((d.fileRecord anonymous).definition Catalog.full).ugens ∧
      List.Forall₂ (fun p q => p.1.Recovers q.1 ∧ q.2 = p.2) d.parameters
        ((d.fileRecord anonymous).definition Catalog.full).parameters := by
  rw [Record.definition_eq, Definition.fileRecord]
  simp only [Record.content, hd.parameters_record, d.ugens_tables]
  constructor
  · rw [List.forall₂_map_right_iff, List.forall₂_map_right_iff]
    exact List.forall₂_same.2 fun u hu => h.recovers_attach hw hu
  · rw [List.forall₂_map_right_iff]
    refine List.forall₂_same.2 fun e he => ?_
    obtain ⟨group, hg, hmem⟩ := h.exists_slots he
    exact ⟨h.recovers_driven hw hg hmem, rfl⟩

end Legible

/-- What is compiled from registered classes of the catalog, none of them a control, is legible. -/
theorem Sourced.legible (hs : source.Sourced) (hcatalogued : source.Catalogued)
    (hcontrol : ∀ id ∈ source.order, (source.node id).flags.control = false) {options : Options}
    (h : source.compiled options = .ok g) (name : Option String) :
    source.Legible (g.finish name) := by
  have hl := (hs.resolved_compiled h).2.1
  refine ⟨hs.tabulated h name, hs, ?_, ?_⟩
  · intro u hu hkind
    obtain ⟨id, hid, rfl⟩ := mem_numbered.1 hu
    refine (hs.catalogued_compiled hcatalogued h id hid).mapRefs _ (hl.others id hid ?_)
    intro hmem
    rw [isControl_mapRefs, (hl.isControl_iff hid).2 hmem] at hkind
    cases hkind
  · intro u hu
    obtain ⟨id, hid, rfl⟩ := mem_numbered.1 hu
    rw [isControl_mapRefs, Bool.eq_iff_iff, hl.isControl_iff hid]
    exact hs.flags_control_iff hcontrol h hid

end Graph

theorem Builder.mem_parameters_of_member {b : Builder} {group : ControlGroup}
    (hg : group ∈ (Graph.ofNodes b.nodes).controlGroups) {m : Nat × Parameter}
    (hm : m ∈ group.members) : m.2 ∈ b.parameters := by
  have hmem := Graph.mem_placeholders.2 ((Graph.mem_controlGroups hg).1 hm).1
  have hparameters := List.mem_map_of_mem (f := (·.2)) hmem
  rwa [Graph.map_placeholders] at hparameters

/-- What is built from classes of the catalog can be read with the catalog. -/
theorem History.legible {ops : List Operation} {b : Builder} {known : List Outlet}
    (h : History ops b known)
    (hcalls : ∀ call, Operation.register call ∈ ops → call.descriptor ∈ Catalog.full)
    (hcontrol : ∀ n ∈ b.nodes, n.flags.control = false) {options : Options} {g : Graph}
    (hg : (Graph.ofNodes b.nodes).compiled options = .ok g) (name : Option String) :
    (Graph.ofNodes b.nodes).Legible (g.finish name) := by
  have hreachable : b.Reachable := ⟨ops, known, h⟩
  have hmem : ∀ id ∈ (Graph.ofNodes b.nodes).order, (Graph.ofNodes b.nodes).node id ∈ b.nodes :=
    fun id hid => Array.mem_of_getElem? (Graph.getElem?_of_mem_ofNodes hid)
  refine hreachable.wellFormed.sourced.legible (fun id hid => h.catalogued ?_ _ (hmem id hid))
    (fun id hid => hcontrol _ (hmem id hid)) hg name
  rintro op hop call rfl
  exact .inl (hcalls call hop)

/-- The parameters of a definition that can be read are all the parameters of the builder. -/
theorem Builder.parameters_perm {b : Builder} {d : Definition}
    (h : (Graph.ofNodes b.nodes).Legible d) : (d.parameters.map (·.1)).Perm b.parameters := by
  rw [h.map_fst_parameters]
  have hperm := (Graph.ofNodes b.nodes).slotOrder_perm
  rwa [Graph.map_placeholders] at hperm

theorem Builder.mem_parameters_of_ugen {b : Builder} {d : Definition}
    (h : (Graph.ofNodes b.nodes).Legible d) {u : Node} (hu : u ∈ d.ugens) {p : Parameter}
    (hp : p ∈ u.parameters) : p ∈ b.parameters := by
  cases hkind : u.isControl with
  | true =>
    obtain ⟨group, hgroup, rfl⟩ := h.exists_group hu hkind
    obtain ⟨m, hm, rfl⟩ := List.mem_map.1 hp
    exact Builder.mem_parameters_of_member hgroup hm
  | false =>
    rw [Node.parameters_eq_nil hkind] at hp
    cases hp

/-- If everything registered is of a class of the catalog, but no control and no declaration, then a
file of what is built is read, and everything the file leaves out is found again. The counts in the
file are words of 32 bits, which `Definition.Fits` says are large enough; by `Builder.fits_build`
they are for every builder that is not huge. -/
theorem decode_recovers [Digest] {ops : List Operation} {b : Builder} {known : List Outlet}
    (h : History ops b known)
    (hcalls : ∀ call, Operation.register call ∈ ops → call.descriptor ∈ Catalog.full)
    (hcontrol : ∀ n ∈ b.nodes, n.flags.control = false)
    (hnone : ∀ n ∈ b.nodes, n.className ≠ Catalog.maxLocalBufs.name) {options : Options}
    {d : Definition} (hd : b.build options = .ok d) (hf : d.Fits) {bytes : Bytes}
    (hb : d.encode false = .ok bytes) :
    ∃ d', decodeSingle bytes Catalog.full = .ok d' ∧ b.Recovers d d' := by
  have hcoherent := Builder.coherent_build ⟨ops, known, h⟩ hnone hd
  obtain ⟨-, g, hg, rfl⟩ := Builder.build_eq_ok.1 hd
  have hlegible := h.legible hcalls hcontrol hg options.effectiveName
  obtain ⟨hlen, hw, hrecord, rfl⟩ :=
    encode_coherent (by simpa using hcoherent) (by simpa using hf) hb
  have hread := decode_fileLayout hlen (fun r hr => (hrecord r hr).1) Catalog.full
  obtain ⟨hugens, hparameters⟩ :=
    hlegible.recovers_fileRecord hcoherent (hw _ List.mem_cons_self) false
  refine ⟨_, ?_, hugens, hparameters, Builder.parameters_perm hlegible,
    fun u hu p hp => Builder.mem_parameters_of_ugen hlegible hu hp⟩
  unfold decodeSingle
  rw [hread]
  rfl

/-- Two oscillators, one of them through a spectrum, on the buses from a scalar parameter on. Of the
three lags only the first does something. -/
def voiceOperations : List Operation :=
  [.addParameter { name := "freq", values := [440, 441], lag := some 1 },
    .addParameter { name := "level", values := [1], lag := some 0 },
    .addParameter { name := "bus", values := [2], rate := .scalar, lag := some 1 },
    .register {
      descriptor := Catalog.sinOsc, rate := .audio
      args := [("frequency",
        .vector [.outlet ⟨0, 0, 0, .control⟩, .outlet ⟨0, 0, 1, .control⟩])] },
    .fft { source := .outlet ⟨0, 3, 0, .audio⟩ },
    .register {
      descriptor := Catalog.ifft, rate := .audio
      args := [("pv_chain", .outlet ⟨0, 6, 0, .control⟩)] },
    .out (.outlet ⟨0, 2, 0, .scalar⟩)
      (.vector [.outlet ⟨0, 7, 0, .audio⟩, .outlet ⟨0, 4, 0, .audio⟩])]

def voiceBuilder : Builder := voiceOperations.foldl (fun b op => op.after b) { scope := 0 }

theorem history_voiceBuilder : ∃ known, History voiceOperations voiceBuilder known :=
  ⟨_, history_of_admitted (by decide +kernel)⟩

theorem controlGroups_voiceBuilder : (Graph.ofNodes voiceBuilder.nodes).controlGroups =
    [⟨.scalar, 0, [(2, { name := "bus", values := [2], rate := .scalar, lag := some 1 })]⟩,
      ⟨.control, 1, [(0, { name := "freq", values := [440, 441], lag := some 1 }),
        (1, { name := "level", values := [1], lag := some 0 })]⟩] := by
  have hplaceholders : (Graph.ofNodes voiceBuilder.nodes).placeholders =
      [(0, { name := "freq", values := [440, 441], lag := some 1 }),
        (1, { name := "level", values := [1], lag := some 0 }),
        (2, { name := "bus", values := [2], rate := .scalar, lag := some 1 })] := by
    decide +kernel
  rw [Graph.controlGroups, hplaceholders]
  simp [ParameterRate.all, Graph.groupsFrom, Graph.groupMembers, List.mergeSort, ControlGroup.size]

/-- A local buffer with a third slot, an output with two elements, and controls of two rates. -/
theorem voiceBuilder_recovers : ∃ d bytes, (∃ known, History voiceOperations voiceBuilder known) ∧
    (∀ call, Operation.register call ∈ voiceOperations → call.descriptor ∈ Catalog.full) ∧
    (∀ n ∈ voiceBuilder.nodes, n.flags.control = false) ∧
    (∀ n ∈ voiceBuilder.nodes, n.className ≠ Catalog.maxLocalBufs.name) ∧
    voiceBuilder.build {} = .ok d ∧
    d.ugens.map (fun u => (u.className, u.inputs.length, u.keys.length)) =
      [("Control", 1, 1), ("LagControl", 3, 3), ("SinOsc", 2, 2), ("SinOsc", 2, 2),
        ("MaxLocalBufs", 1, 1), ("LocalBuf", 3, 2), ("FFT", 6, 6), ("IFFT", 3, 3),
        ("Out", 3, 3)] ∧
    d.Fits ∧ d.encode false = .ok bytes ∧
    ∃ d', decodeSingle bytes Catalog.full = .ok d' ∧ voiceBuilder.Recovers d d' := by
  obtain ⟨known, h⟩ := history_voiceBuilder
  have hcalls : ∀ call, Operation.register call ∈ voiceOperations →
      call.descriptor ∈ Catalog.full := by
    have hsinOsc : Catalog.sinOsc ∈ Catalog.full := by decide +kernel
    have hifft : Catalog.ifft ∈ Catalog.full := by decide +kernel
    intro call hcall
    simp only [voiceOperations, List.mem_cons, List.not_mem_nil, reduceCtorEq, false_or, or_false,
      Operation.register.injEq] at hcall
    rcases hcall with rfl | rfl
    · exact hsinOsc
    · exact hifft
  have hcontrol : ∀ n ∈ voiceBuilder.nodes, n.flags.control = false := by decide +kernel
  have hnone : ∀ n ∈ voiceBuilder.nodes, n.className ≠ Catalog.maxLocalBufs.name := by
    decide +kernel
  have hcompiled : (((Graph.ofNodes voiceBuilder.nodes).compiled {}).toOption.map fun g =>
      decide (g.numbered.map (fun u => (u.className, u.inputs.length, u.keys.length)) =
        [("Control", 1, 1), ("LagControl", 3, 3), ("SinOsc", 2, 2), ("SinOsc", 2, 2),
          ("MaxLocalBufs", 1, 1), ("LocalBuf", 3, 2), ("FFT", 6, 6), ("IFFT", 3, 3),
          ("Out", 3, 3)] ∧
        (∀ p ∈ (g.finish none).parameters, IsShort p.1.name) ∧
        ∀ u ∈ (g.finish none).ugens, IsShort u.className ∧
          ∀ input ∈ u.inputs, (g.finish none).Lists input)) = some true := by
    -- sorting by name does not reduce in the kernel, so the groups are put in by hand
    unfold Graph.compiled Graph.complete Graph.makeControls
    rw [controlGroups_voiceBuilder]
    decide +kernel
  obtain ⟨g, hg, hfacts⟩ := exists_eq_ok_of_map_toOption hcompiled
  obtain ⟨hugens, hnames, hlists⟩ := of_decide_eq_true hfacts
  have hd : voiceBuilder.build {} = .ok (g.finish none) :=
    Builder.build_eq_ok.2 ⟨by decide +kernel, g, hg, rfl⟩
  have hf : (g.finish none).Fits := Builder.fits_build ⟨_, _, h⟩ (by decide +kernel) hd
  have hcoherent := Builder.coherent_build ⟨_, _, h⟩ hnone hd
  obtain ⟨bytes, hb⟩ : ∃ bytes, (g.finish none).encode false = .ok bytes := by
    refine ⟨_, (encode_eq_ok_iff ?_).2 ⟨by simp, ?_, rfl⟩⟩
    · simpa using hcoherent.indexedParameters_perm.length_eq
    · simpa using ⟨⟨fun p hp => hnames p (hcoherent.indexedParameters_perm.mem_iff.1 hp), hlists⟩,
        Definition.isShort_digestName _⟩
  exact ⟨_, _, ⟨known, h⟩, hcalls, hcontrol, hnone, hd, hugens, hf, hb,
    decode_recovers h hcalls hcontrol hnone hd hf hb⟩

end SynthGraph
