import Mathlib.Data.List.Forall2
import SynthGraph.Compile
import SynthGraph.Proofs.Acceptance
import SynthGraph.Proofs.Canonical
import SynthGraph.Sha256

/-!
# Reading what was written

A definition is coherent if its references name outputs that exist, its tables repeat nothing and
its parameters fill the slots one after the other. The record of a coherent definition is canonical,
so the file it is written to is read, and what is read is the definition again, except that the
zeros among the constants take the sign of the zero in the table.
-/

namespace SynthGraph

open Scgf

/-! ## Slots -/

namespace Graph

theorem map_fst_slotsFrom (start : Nat) (ps : List Parameter) :
    (slotsFrom start ps).map (·.1) = ps := by
  induction ps generalizing start with
  | nil => rfl
  | cons p rest ih => simp [slotsFrom, ih]

theorem flatMap_slotsFrom (start : Nat) (ps : List Parameter) :
    (slotsFrom start ps).flatMap (·.1.values) = ps.flatMap (·.values) := by
  rw [← map_fst_slotsFrom start ps, List.flatMap_map, map_fst_slotsFrom]

theorem slot_ge_of_mem_slotsFrom {start : Nat} {ps : List Parameter} {p : Parameter × Nat}
    (h : p ∈ slotsFrom start ps) : start ≤ p.2 := by
  induction ps generalizing start with
  | nil => simp [slotsFrom] at h
  | cons q rest ih =>
    rcases List.mem_cons.1 h with rfl | h
    · exact Nat.le_refl _
    · exact Nat.le_trans (Nat.le_add_right _ _) (ih h)

theorem slot_lt_of_mem_slotsFrom {start : Nat} {ps : List Parameter} (hps : ∀ p ∈ ps, p.values ≠ [])
    {p : Parameter × Nat} (h : p ∈ slotsFrom start ps) :
    p.2 < start + (ps.flatMap (·.values)).length := by
  induction ps generalizing start with
  | nil => simp [slotsFrom] at h
  | cons q rest ih =>
    have hq := List.length_pos_of_ne_nil (hps q (by simp))
    simp only [List.flatMap_cons, List.length_append]
    rcases List.mem_cons.1 h with rfl | h
    · omega
    · have := ih (fun p hp => hps p (List.mem_cons_of_mem _ hp)) h
      simp only [Parameter.size] at this
      omega

theorem pairwise_slotsFrom {ps : List Parameter} (hps : ∀ p ∈ ps, p.values ≠ []) (start : Nat) :
    (slotsFrom start ps).Pairwise (·.2 < ·.2) := by
  induction ps generalizing start with
  | nil => exact List.Pairwise.nil
  | cons p rest ih =>
    have hp := List.length_pos_of_ne_nil (hps p (by simp))
    refine List.pairwise_cons.2 ⟨fun q hq => ?_, ih (fun p hp => hps p (by simp [hp])) _⟩
    have := slot_ge_of_mem_slotsFrom hq
    simp only [Parameter.size] at this
    omega

end Graph

/-- Cutting consecutive parameters out of the values gives their values. -/
theorem Scgf.parametersFrom_slotsFrom (ugens : List Node) {values : List Single}
    {ps : List Parameter} {start : Nat} (h : values.drop start = ps.flatMap (·.values)) :
    parametersFrom ugens values ((Graph.slotsFrom start ps).map fun p => (p.1.name, p.2)) =
      (Graph.slotsFrom start ps).map fun p =>
        (driven ugens p.1.name p.2 p.1.values, p.2) := by
  induction ps generalizing start with
  | nil => rfl
  | cons p rest ih =>
    have hrest : values.drop (start + p.size) = rest.flatMap (·.values) := by
      rw [← List.drop_drop, h]
      simp [Parameter.size]
    have hstop : (((Graph.slotsFrom (start + p.size) rest).map fun p => (p.1.name, p.2)).head?.map
        (·.2)).getD values.length - start = p.values.length ∨ rest = [] ∧
          (values.drop start).length = p.values.length := by
      cases rest with
      | nil => exact .inr ⟨rfl, by simp [h]⟩
      | cons q rest =>
        left
        simp [Graph.slotsFrom, Parameter.size]
    have hvalues : (values.drop start).take ((((Graph.slotsFrom (start + p.size) rest).map
        fun p => (p.1.name, p.2)).head?.map (·.2)).getD values.length - start) = p.values := by
      rcases hstop with hstop | ⟨rfl, hstop⟩
      · rw [hstop, h]
        simp
      · rw [List.take_of_length_le (by simp [Graph.slotsFrom]), h]
        simp
    simp only [Graph.slotsFrom, List.map_cons, parametersFrom, hvalues, ih hrest]

namespace Definition

/-- The references of the definition name outputs that exist. -/
def Connected (d : Definition) : Prop :=
  ∀ u ∈ d.ugens, ∀ ref ∈ u.refs, ∃ v, d.ugens[ref.ugen]? = some v ∧ ref.output < v.outputs

/-- The definition is connected, and its tables hold everything once and in order. -/
structure Coherent (d : Definition) : Prop where
  connected : d.Connected
  constants : Single.Distinct d.constants
  parameters : ∃ ps : List Parameter, d.parameters = Graph.slotsFrom 0 ps ∧ ∀ p ∈ ps, p.values ≠ []
  nameOrder : d.nameOrder.Perm (List.range d.parameters.length)

/-- The counts of the definition are numbers of 32 bits. -/
structure Fits (d : Definition) : Prop where
  slots : d.slotCount < 4294967296
  ugens : d.ugens.length < 4294967296
  inputs : ∀ u ∈ d.ugens, u.inputs.length < 4294967296
  outputs : ∀ u ∈ d.ugens, u.outputs < 4294967296

instance (d : Definition) : Decidable d.Fits :=
  decidable_of_iff (d.slotCount < 4294967296 ∧ d.ugens.length < 4294967296 ∧
      (∀ u ∈ d.ugens, u.inputs.length < 4294967296) ∧ ∀ u ∈ d.ugens, u.outputs < 4294967296)
    ⟨fun ⟨hs, hu, hi, ho⟩ => ⟨hs, hu, hi, ho⟩, fun ⟨hs, hu, hi, ho⟩ => ⟨hs, hu, hi, ho⟩⟩

variable {d : Definition}

theorem constantIndex?_lt {value : Single} {i : Nat} (h : d.constantIndex? value = some i) :
    i < d.constants.length := (List.findIdx?_eq_some_iff_getElem.1 h).1

/-- The position of a generator is never the mark of a constant. -/
theorem Connected.ugen_ne_constantMark (hd : d.Connected) (hf : d.Fits) {u : Node}
    (hu : u ∈ d.ugens) {ref : NodeRef} (hr : ref ∈ u.refs) : ref.ugen ≠ constantMark := by
  obtain ⟨v, hv, -⟩ := hd u hu ref hr
  have hlt := (List.getElem?_eq_some_iff.1 hv).1
  have := hf.ugens
  unfold constantMark
  omega

theorem Connected.inputExists (hd : d.Connected) (hf : d.Fits) (name : String) {u : Node}
    (hu : u ∈ d.ugens) {input : Input} (hi : input ∈ u.inputs) (hl : d.Lists input) :
    InputExists d.constants.length (d.record name).outputCounts (d.inputPair input) := by
  cases input with
  | constant value =>
    obtain ⟨i, hindex⟩ := Option.isSome_iff_exists.1 hl
    simpa [InputExists, inputPair, hindex] using constantIndex?_lt hindex
  | node ref =>
    have hr : ref ∈ u.refs := List.mem_filterMap.2 ⟨_, hi, rfl⟩
    obtain ⟨v, hv, hlt⟩ := hd u hu ref hr
    rw [InputExists, inputPair, if_neg (hd.ugen_ne_constantMark hf hu hr)]
    refine ⟨v.outputs, ?_, hlt⟩
    simp [Record.outputCounts, record, ugenRecord, hv]

/-- The generators of a definition are written as valid ones. -/
theorem Connected.valid_ugens (hd : d.Connected) (hf : d.Fits) (hw : d.Writable) (name : String) :
    ∀ u ∈ (d.record name).ugens, u.Valid d.constants.length (d.record name).outputCounts := by
  intro w hw'
  obtain ⟨u, hu, rfl⟩ := List.mem_map.1 hw'
  obtain ⟨hclass, hlists⟩ := hw.ugens u hu
  refine ⟨hclass, ?_, ?_, ?_⟩
  · simpa [ugenRecord] using hf.inputs u hu
  · simpa [ugenRecord] using hf.outputs u hu
  · intro pair hpair
    obtain ⟨input, hi, rfl⟩ := List.mem_map.1 hpair
    exact hd.inputExists hf name hu hi (hlists input hi)

namespace Coherent

theorem pairwise_slots (hd : d.Coherent) : d.parameters.Pairwise (·.2 < ·.2) := by
  obtain ⟨ps, hps, hne⟩ := hd.parameters
  rw [hps]
  exact Graph.pairwise_slotsFrom hne 0

theorem indexedParameters_perm (hd : d.Coherent) : d.indexedParameters.Perm d.parameters :=
  perm_filterMap_getElem? hd.nameOrder

theorem record_names_perm (hd : d.Coherent) (name : String) :
    (d.record name).names.Perm (d.parameters.map fun p => (p.1.name, p.2)) :=
  hd.indexedParameters_perm.map _

theorem record_canonical (hd : d.Coherent) (name : String) : (d.record name).Canonical where
  constants := hd.constants
  outputRates := by
    intro u hu rate hrate
    obtain ⟨node, -, rfl⟩ := List.mem_map.1 hu
    exact (List.mem_replicate.1 hrate).2
  slots := by
    have hslots : (d.parameters.map fun p => (p.1.name, p.2)).Pairwise (·.2 ≠ ·.2) :=
      List.pairwise_map.2 (hd.pairwise_slots.imp Nat.ne_of_lt)
    exact ((hd.record_names_perm name).map _).nodup_iff.2 (List.pairwise_map.2 hslots)
  first := by
    intro hvalues
    rw [((hd.record_names_perm name).map _).mem_iff]
    obtain ⟨ps, hps, -⟩ := hd.parameters
    cases ps with
    | nil =>
      simp only [record, hps] at hvalues
      exact absurd rfl hvalues
    | cons p rest => simp [hps, Graph.slotsFrom]

theorem sortedNames_record (hd : d.Coherent) (name : String) :
    (d.record name).sortedNames = d.parameters.map fun p => (p.1.name, p.2) := by
  refine List.Perm.eq_of_pairwise (fun a b _ _ hab hba => absurd hab (Nat.not_lt_of_gt hba))
    (Record.pairwise_sortedNames (hd.record_canonical name))
    (List.pairwise_map.2 hd.pairwise_slots) ?_
  exact (List.mergeSort_perm _ _).trans (hd.record_names_perm name)

/-- The parameters that are read have the rates and lags of the controls that are read. -/
theorem parameters_record (hd : d.Coherent) (name : String) (catalog : Catalog) :
    (d.record name).parameters catalog = d.parameters.map fun p =>
      (driven ((d.record name).tables catalog).ugens p.1.name p.2 p.1.values, p.2) := by
  rw [Record.parameters, hd.sortedNames_record name]
  obtain ⟨ps, hps, -⟩ := hd.parameters
  rw [hps]
  refine parametersFrom_slotsFrom _ ?_
  rw [List.drop_zero, record, hps, Graph.flatMap_slotsFrom]

/-- Looking up the slots of the name table gives the positions it was made from. -/
theorem nameOrder_record (hd : d.Coherent) (name : String) (catalog : Catalog) :
    ((d.record name).content catalog).nameOrder = d.nameOrder := by
  have hnames : (d.record name).names =
      d.nameOrder.filterMap fun i => d.parameters[i]?.map fun p => (p.1.name, p.2) := by
    simp [record, indexedParameters, List.map_filterMap]
  simp only [Record.content, hnames, List.filterMap_filterMap]
  rw [List.filterMap_congr (fun i hi => ?_), List.filterMap_some]
  have hlt : i < d.parameters.length := by
    simpa using hd.nameOrder.mem_iff.1 hi
  have hget : (d.record name).sortedNames[i]? =
      some (d.parameters[i].1.name, d.parameters[i].2) := by
    simp [hd.sortedNames_record name, hlt]
  have hfind := (parametersFrom_findIdx? ((d.record name).tables catalog).ugens
    (d.record name).values (Record.pairwise_sortedNames (hd.record_canonical name)) hget).1
  simpa [hlt, Record.parameters] using hfind

theorem length_parameters_le (hd : d.Coherent) : d.parameters.length ≤ d.slotCount := by
  obtain ⟨ps, hps, hne⟩ := hd.parameters
  have hone : ∀ p ∈ ps, 1 ≤ p.values.length := fun p hp => List.length_pos_of_ne_nil (hne p hp)
  calc d.parameters.length = ps.length * 1 := by
        rw [hps, ← Graph.map_fst_slotsFrom 0 ps, List.length_map, Graph.map_fst_slotsFrom,
          Nat.mul_one]
    _ ≤ (ps.flatMap (·.values)).length := length_flatMap_ge hone
    _ = d.slotCount := by rw [slotCount, hps, Graph.flatMap_slotsFrom]

theorem record_valid (hd : d.Coherent) (hf : d.Fits) (hw : d.Writable) {name : String}
    (hname : IsShort name) : (d.record name).Valid where
  name := hname
  constantCount := hd.constants.length_lt
  valueCount := hf.slots
  nameCount := by
    rw [(hd.record_names_perm name).length_eq, List.length_map]
    exact Nat.lt_of_le_of_lt hd.length_parameters_le hf.slots
  ugenCount := by simpa [record] using hf.ugens
  names := by
    intro entry he
    obtain ⟨p, hp, rfl⟩ := List.mem_map.1 he
    obtain ⟨ps, hps, hne⟩ := hd.parameters
    have hmem : p ∈ Graph.slotsFrom 0 ps := hps ▸ hd.indexedParameters_perm.mem_iff.1 hp
    refine ⟨hw.names p hp, ?_⟩
    simpa [record, hps, Graph.flatMap_slotsFrom] using Graph.slot_lt_of_mem_slotsFrom hne hmem
  ugens := hd.connected.valid_ugens hf hw name

end Coherent

/-! ## What is read back -/

/-- The second input is the first as the table of constants holds it. -/
def InputReadBack (d : Definition) : Input → Input → Prop
  | .constant value, input => ∃ (i : Nat) (entry : Single), d.constantIndex? value = some i ∧
      d.constants[i]? = some entry ∧ (entry = value ∨ entry.isZero ∧ value.isZero) ∧
      input = .constant entry
  | .node ref, input => input = .node ref

/-- The second generator is the first as a file holds it. -/
structure UGenReadBack (d : Definition) (u u' : Node) : Prop where
  className : u'.className = u.className
  rate : u'.rate = u.rate
  special : u'.special = u.special
  outputs : u'.outputs = u.outputs
  inputs : List.Forall₂ d.InputReadBack u.inputs u'.inputs

/-- The second definition is the first as a file holds it: the rate and the lag of a parameter are
those of its control, and the zeros of a table have one sign. -/
structure ReadBack (d d' : Definition) : Prop where
  ugens : List.Forall₂ d.UGenReadBack d.ugens d'.ugens
  constants : d'.constants = d.constants
  parameters : d'.parameters.map (fun p => (p.1.name, p.1.values, p.2)) =
    d.parameters.map fun p => (p.1.name, p.1.values, p.2)
  nameOrder : d'.nameOrder = d.nameOrder

theorem inputOf_inputPair {input : Input} (hl : d.Lists input)
    (hmark : ∀ ref, input = .node ref → ref.ugen ≠ constantMark) :
    d.InputReadBack input (inputOf d.constants (d.inputPair input)) := by
  cases input with
  | constant value =>
    obtain ⟨i, hindex⟩ := Option.isSome_iff_exists.1 hl
    obtain ⟨hlt, hsame, -⟩ := List.findIdx?_eq_some_iff_getElem.1 hindex
    refine ⟨i, d.constants[i], hindex, List.getElem?_eq_getElem hlt,
      Single.sameConstant_iff.1 hsame, ?_⟩
    simp [inputPair, inputOf, hindex, hlt]
  | node ref =>
    simp [InputReadBack, inputPair, inputOf, hmark ref rfl]

theorem Coherent.readBack [Digest] (hd : d.Coherent) (hf : d.Fits) (hw : d.Writable) (name : String)
    (catalog : Catalog) : d.ReadBack ((d.record name).definition catalog) := by
  rw [Record.definition_eq]
  have hparameters : ((d.record name).parameters catalog).map
      (fun p => (p.1.name, p.1.values, p.2)) =
        d.parameters.map fun p => (p.1.name, p.1.values, p.2) := by
    rw [hd.parameters_record, List.map_map]
    exact List.map_congr_left fun p _ => by simp
  refine ⟨?_, rfl, hparameters, hd.nameOrder_record name catalog⟩
  simp only [Record.content, Record.tables, record, List.map_map]
  rw [List.forall₂_map_right_iff, List.forall₂_same]
  intro u hu
  have hattach : ∀ parameters, d.UGenReadBack u
      (attach parameters ((d.ugenRecord u).node catalog d.constants)) ↔
        d.UGenReadBack u ((d.ugenRecord u).node catalog d.constants) := by
    intro parameters
    unfold attach
    split
    · exact ⟨fun h => ⟨h.1, h.2, h.3, h.4, h.5⟩, fun h => ⟨h.1, h.2, h.3, h.4, h.5⟩⟩
    · exact Iff.rfl
  refine (hattach _).2 ⟨rfl, rfl, rfl, ?_, ?_⟩
  · simp [UGenRecord.node, ugenRecord]
  · simp only [UGenRecord.node, ugenRecord, List.map_map]
    rw [List.forall₂_map_right_iff, List.forall₂_same]
    intro input hi
    refine inputOf_inputPair ((hw.ugens u hu).2 input hi) fun ref href => ?_
    exact hd.connected.ugen_ne_constantMark hf hu
      (List.mem_filterMap.2 ⟨input, hi, by rw [href]; rfl⟩)

end Definition

namespace Scgf

/-- Coherent definitions are written as valid records in which nothing is redundant. -/
theorem encode_coherent [Digest] {ds : List Definition} {anonymous : Bool} {b : Bytes}
    (hd : ∀ d ∈ ds, d.Coherent) (hf : ∀ d ∈ ds, d.Fits) (hb : encode ds anonymous = .ok b) :
    (ds.map (·.fileRecord anonymous)).length < 65536 ∧ (∀ d ∈ ds, d.Writable) ∧
      (∀ r ∈ ds.map (·.fileRecord anonymous), r.Valid ∧ r.Canonical) ∧
      b = fileLayout (ds.map (·.fileRecord anonymous)) := by
  obtain ⟨hlen, hw, rfl⟩ :=
    (encode_eq_ok_iff fun d h => (hd d h).indexedParameters_perm.length_eq).1 hb
  refine ⟨by simpa using hlen, fun d h => (hw d h).1, fun r hr => ?_, rfl⟩
  obtain ⟨d, h, rfl⟩ := List.mem_map.1 hr
  exact ⟨(hd d h).record_valid (hf d h) (hw d h).1 (hw d h).2, (hd d h).record_canonical _⟩

/-- A file of coherent definitions is read back, and written as the same file again. -/
theorem decode_encode [Digest] {ds : List Definition} {anonymous : Bool} {b : Bytes}
    (catalog : Catalog) (hd : ∀ d ∈ ds, d.Coherent) (hf : ∀ d ∈ ds, d.Fits)
    (hb : encode ds anonymous = .ok b) :
    ∃ ds', decode b catalog = .ok ds' ∧ List.Forall₂ Definition.ReadBack ds ds' ∧
      encode ds' anonymous = .ok b := by
  obtain ⟨hlen, hw, hrecord, rfl⟩ := encode_coherent hd hf hb
  refine ⟨(ds.map (·.fileRecord anonymous)).map (·.definition catalog),
    decode_fileLayout hlen (fun r hr => (hrecord r hr).1) catalog, ?_,
    encode_definitions hlen hrecord catalog ?_⟩
  · rw [List.map_map, List.forall₂_map_right_iff, List.forall₂_same]
    exact fun d h => (hd d h).readBack (hf d h) (hw d h) _ catalog
  · rintro rfl r hr
    obtain ⟨d, -, rfl⟩ := List.mem_map.1 hr
    rfl

/-! ## Writing what was read -/

/-- The bytes are a file of valid records in which nothing is redundant. -/
def IsCanonicalFile (bytes : Bytes) : Prop :=
  ∃ records : List Record, records.length < 65536 ∧ (∀ r ∈ records, r.Valid ∧ r.Canonical) ∧
    bytes = fileLayout records

/-- Whatever the catalog, a canonical file that was read is written byte for byte again. -/
theorem encode_decode_canonical [Digest] {bytes : Bytes} (hb : IsCanonicalFile bytes)
    {catalog : Catalog} {ds : List Definition} (hd : decode bytes catalog = .ok ds) :
    encode ds false = .ok bytes := by
  obtain ⟨records, hn, hr, rfl⟩ := hb
  rw [decode_fileLayout hn (fun r h => (hr r h).1) catalog] at hd
  cases hd
  exact encode_definitions hn hr catalog fun h => by cases h

/-- Two notes and their level, which are named in another order than they are stored; two of the
constants are not numbers and differ in their payload only. -/
def chordDraft : Record where
  name := ""
  constants := [⟨0x7FC00000⟩, ⟨0x7FC00001⟩, 0]
  values := [440, 441, 1]
  names := [("level", 2), ("notes", 0)]
  ugens := [
    { className := "Control", rate := .control, special := 0, inputs := []
      outputRates := [1, 1, 1] },
    { className := "SinOsc", rate := .audio, special := 0
      inputs := [(0, 1), (constantMark, 2)], outputRates := [2] },
    { className := "Hypot", rate := .audio, special := 7
      inputs := [(1, 0), (constantMark, 1), (0, 2)], outputRates := [] }]

/-- The chord under its name by content. -/
def chord : Record := { chordDraft with name := Definition.digestName chordDraft.body }

theorem encode_decode_chord : ∃ ds, IsCanonicalFile (fileLayout [chord]) ∧
    decode (fileLayout [chord]) Catalog.full = .ok ds ∧ ds.map (·.name) = [none] ∧
    encode ds false = .ok (fileLayout [chord]) := by
  have hdraft : chordDraft.Valid ∧ chordDraft.Canonical := by decide +kernel
  have hvalid : chord.Valid := hdraft.1.rename (Definition.isShort_digestName _)
  have hcanonical : chord.Canonical := ⟨hdraft.2.1, hdraft.2.2, hdraft.2.3, hdraft.2.4⟩
  have hfile : IsCanonicalFile (fileLayout [chord]) :=
    ⟨[chord], by decide, by simpa using ⟨hvalid, hcanonical⟩, rfl⟩
  have hread : decode (fileLayout [chord]) Catalog.full = .ok [chord.definition Catalog.full] :=
    decode_fileLayout (by decide) (by simpa using hvalid) _
  refine ⟨_, hfile, hread, ?_, encode_decode_canonical hfile hread⟩
  have hname : chord.name = Definition.digestName chord.body := by simp only [chord, Record.body]
  rw [List.map_singleton, Record.definition_eq, Record.anonymousName_content hvalid hcanonical,
    if_pos hname]

end Scgf

end SynthGraph
