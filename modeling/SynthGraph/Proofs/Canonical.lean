import Mathlib.Data.List.Perm.Subperm
import SynthGraph.Proofs.Basic
import SynthGraph.Proofs.Writing

/-!
# Canonical records

What is read from a valid record can be written again: the values from the first named slot on, and
the name table with the first name of its slot in every entry. It is written as the same record if
nothing in the record is redundant: no two constants share a place in a table, every output carries
the rate of its generator, and the parameters cover all values without sharing a slot. Then each
table can be rebuilt from the definition, whatever the catalog says about the classes.
-/

namespace SynthGraph

/-! ## Constants -/

namespace Single

theorem isNaN_eq_false_of_isZero {s : Single} (h : s.isZero) : s.isNaN = false := by
  have hz : s.bits &&& 0x7FFFFFFF = 0 := by simpa [isZero] using h
  have hf : s.bits &&& 0x7FFFFF = 0 := by
    calc s.bits &&& 0x7FFFFF = s.bits &&& (0x7FFFFFFF &&& 0x7FFFFF) := rfl
      _ = (s.bits &&& 0x7FFFFFFF) &&& 0x7FFFFF := (UInt32.and_assoc _ _ _).symm
      _ = 0 := by rw [hz, UInt32.zero_and]
  simp [isNaN, fraction, hf]

/-- Two numbers share a place in a table if they are the same or both are zero. -/
theorem sameConstant_iff {a b : Single} :
    a.sameConstant b ↔ a = b ∨ a.isZero ∧ b.isZero := by
  have hbits : a.bits = b.bits ↔ a = b := by cases a; cases b; simp
  simp only [sameConstant, numEq, Bool.or_eq_true, Bool.and_eq_true, Bool.not_eq_true', beq_iff_eq,
    hbits]
  constructor
  · rintro (⟨-, h⟩ | h)
    · exact h
    · exact .inl h
  · rintro (h | ⟨ha, hb⟩)
    · exact .inr h
    · exact .inl ⟨⟨isNaN_eq_false_of_isZero ha, isNaN_eq_false_of_isZero hb⟩, .inr ⟨ha, hb⟩⟩

theorem sameConstant_refl (a : Single) : a.sameConstant a := sameConstant_iff.2 (.inl rfl)

/-- No two entries of the table share a place. -/
def Distinct (table : List Single) : Prop := table.Pairwise fun a b => ¬a.sameConstant b

instance (table : List Single) : Decidable (Distinct table) :=
  inferInstanceAs (Decidable (table.Pairwise fun a b => ¬a.sameConstant b))

theorem Distinct.findIdx? {table : List Single} (h : Distinct table) {i : Nat} {v : Single}
    (hi : table[i]? = some v) : table.findIdx? (·.sameConstant v) = some i :=
  findIdx?_of_pairwise h hi (sameConstant_refl v) fun _ hb => hb

theorem sameConstant_of_key_eq {a b : Single} (h : a.key = b.key) : a.sameConstant b := by
  have hzero : ∀ s : Single, s.isZero = (s.key == 0) := by
    intro s
    unfold key
    split
    · next hs => simp [hs]
    · next hs =>
      have : s.bits ≠ 0 := fun h0 => hs (by simp [isZero, h0])
      simp [hs, this]
  rw [sameConstant_iff, hzero a, hzero b, h]
  by_cases hb : b.key = 0
  · exact .inr (by simp [hb])
  · have ha : a.key ≠ 0 := h ▸ hb
    have hbits : ∀ s : Single, s.key ≠ 0 → s.key = s.bits := by
      intro s hs
      unfold key at hs ⊢
      split <;> simp_all
    rw [hbits a ha, hbits b hb] at h
    cases a
    cases b
    exact .inl (congrArg mk h)

/-- Keys tell apart exactly what a table keeps apart. -/
theorem key_eq_iff {a b : Single} : a.key = b.key ↔ a.sameConstant b := by
  refine ⟨sameConstant_of_key_eq, fun h => ?_⟩
  rcases sameConstant_iff.1 h with rfl | ⟨ha, hb⟩
  · rfl
  · rw [key, if_pos ha, key, if_pos hb]

theorem key_ne_negativeZero (s : Single) : s.key ≠ 0x80000000 := by
  unfold key
  split
  · decide
  · next hs => exact fun h => hs (by rw [isZero, h]; decide)

/-- Less than all 32-bit patterns fit a table, for the two zeros share a place. -/
theorem Distinct.length_lt {table : List Single} (h : Distinct table) :
    table.length < 4294967296 := by
  have hkeys : ((0x80000000 :: table.map key).map UInt32.toNat).Nodup := by
    refine List.Nodup.map (fun _ _ => UInt32.toNat_inj.1) (List.nodup_cons.2 ⟨?_, ?_⟩)
    · rw [List.mem_map]
      rintro ⟨s, -, hs⟩
      exact key_ne_negativeZero s hs
    · exact List.pairwise_map.2 (h.imp fun hab hkey => hab (sameConstant_of_key_eq hkey))
  have hrange : (0x80000000 :: table.map key).map UInt32.toNat ⊆ List.range (4294967296) := by
    intro n hn
    obtain ⟨k, -, rfl⟩ := List.mem_map.1 hn
    exact List.mem_range.2 k.toNat_lt
  have hlen := (hkeys.subperm hrange).length_le
  simp only [List.length_map, List.length_cons, List.length_range] at hlen
  omega

end Single

/-! ## Parameters cut out of the values -/

namespace Scgf

@[simp] theorem driven_name (ugens : List Node) (name : String) (slot : Nat)
    (values : List Single) : (driven ugens name slot values).name = name := by
  unfold driven
  split <;> rfl

@[simp] theorem driven_values (ugens : List Node) (name : String) (slot : Nat)
    (values : List Single) : (driven ugens name slot values).values = values := by
  unfold driven
  split <;> rfl

theorem map_parametersFrom (ugens : List Node) (values : List Single)
    (names : List (String × Nat)) :
    (parametersFrom ugens values names).map (fun p => (p.1.name, p.2)) = names := by
  induction names with
  | nil => rfl
  | cons e rest ih => simp [parametersFrom, ih]

/-- Together the parameters take all values from the first slot on. -/
theorem flatMap_parametersFrom (ugens : List Node) (values : List Single)
    {names : List (String × Nat)} (hs : names.Pairwise (·.2 ≤ ·.2))
    (hb : ∀ e ∈ names, e.2 ≤ values.length) :
    (parametersFrom ugens values names).flatMap (·.1.values) =
      values.drop ((names.head?.map (·.2)).getD values.length) := by
  induction names with
  | nil => simp [parametersFrom]
  | cons e rest ih =>
    obtain ⟨hle, hs⟩ := List.pairwise_cons.1 hs
    have hstop : e.2 ≤ (rest.head?.map (·.2)).getD values.length := by
      cases rest with
      | nil => exact hb e (by simp)
      | cons next rest => exact hle next (by simp)
    simp only [parametersFrom, List.flatMap_cons, driven_values, List.head?_cons, Option.map_some,
      Option.getD_some, ih hs fun e he => hb e (List.mem_cons_of_mem _ he)]
    generalize (rest.head?.map (·.2)).getD values.length = stop at hstop
    calc (values.drop e.2).take (stop - e.2) ++ values.drop stop
        = (values.drop e.2).take (stop - e.2) ++ (values.drop e.2).drop (stop - e.2) := by
          rw [List.drop_drop, Nat.add_sub_of_le hstop]
      _ = values.drop e.2 := List.take_append_drop _ _

/-- The parameter of a slot is found by the slot. -/
theorem parametersFrom_findIdx? (ugens : List Node) (values : List Single)
    {names : List (String × Nat)} (hs : names.Pairwise (·.2 < ·.2)) {e : String × Nat} {i : Nat}
    (hi : names[i]? = some e) :
    (parametersFrom ugens values names).findIdx? (·.2 = e.2) = some i ∧
      ∃ p : Parameter, p.name = e.1 ∧ (parametersFrom ugens values names)[i]? = some (p, e.2) := by
  have hmap := map_parametersFrom ugens values names
  rw [← hmap, List.pairwise_map] at hs
  rw [← hmap, List.getElem?_map, Option.map_eq_some_iff] at hi
  obtain ⟨⟨p, slot⟩, hp, rfl⟩ := hi
  refine ⟨findIdx?_of_pairwise hs hp (by simp) fun b hb => ?_, p, rfl, hp⟩
  simpa using Nat.ne_of_lt hb

theorem attach_className (parameters : List (Parameter × Nat)) (ugen : Node) :
    (attach parameters ugen).className = ugen.className := by
  unfold attach
  split <;> rfl

theorem attach_inputs (parameters : List (Parameter × Nat)) (ugen : Node) :
    (attach parameters ugen).inputs = ugen.inputs := by
  unfold attach
  split <;> rfl

theorem attach_outputs (parameters : List (Parameter × Nat)) (ugen : Node) :
    (attach parameters ugen).outputs = ugen.outputs := by
  unfold attach
  split <;> rfl

theorem refs_attach (parameters : List (Parameter × Nat)) (ugen : Node) :
    (attach parameters ugen).refs = ugen.refs := by
  rw [Node.refs, attach_inputs, Node.refs]

/-! ## The definition of a record, up to its name -/

namespace Record

/-- The name table sorted by slot. -/
def sortedNames (r : Record) : List (String × Nat) := r.names.mergeSort fun a b => a.2 ≤ b.2

def parameters (r : Record) (catalog : Catalog) : List (Parameter × Nat) :=
  parametersFrom (r.tables catalog).ugens r.values r.sortedNames

/-- What is read from a record, before a name by content is recognized. -/
def content (r : Record) (catalog : Catalog) : Definition where
  name := some r.name
  ugens := (r.tables catalog).ugens.map (attach (r.parameters catalog))
  constants := r.constants
  parameters := r.parameters catalog
  nameOrder := r.names.filterMap fun (_, slot) => (r.parameters catalog).findIdx? (·.2 = slot)

theorem definition_eq [Digest] (r : Record) (catalog : Catalog) :
    r.definition catalog =
      { r.content catalog with
        name := if r.name = (r.content catalog).anonymousName then none else some r.name } := by
  have h : r.definition catalog = if r.name = (r.content catalog).anonymousName
      then { r.content catalog with name := none } else r.content catalog := rfl
  rw [h]
  split <;> rfl

theorem mem_sortedNames {r : Record} {e : String × Nat} : e ∈ r.sortedNames ↔ e ∈ r.names :=
  List.mem_mergeSort

theorem sorted_sortedNames (r : Record) : r.sortedNames.Pairwise (·.2 ≤ ·.2) := by
  have h : r.sortedNames.Pairwise fun a b => decide (a.2 ≤ b.2) = true :=
    List.pairwise_mergeSort (fun a b c => by simpa using Nat.le_trans)
      (fun a b => by simpa using Nat.le_total a.2 b.2) _
  exact h.imp fun h => by simpa using h

/-- Sorting is stable: the first entry of a slot stays the first. -/
theorem find?_sortedNames (r : Record) (slot : Nat) :
    r.sortedNames.find? (·.2 = slot) = r.names.find? (·.2 = slot) := by
  have hfilter : r.names.filter (·.2 = slot) = r.sortedNames.filter (·.2 = slot) := by
    have hsublist : (r.names.filter (·.2 = slot)).Sublist r.sortedNames := by
      refine List.sublist_mergeSort (fun a b c => by simpa using Nat.le_trans)
        (fun a b => by simpa using Nat.le_total a.2 b.2) ?_ List.filter_sublist
      refine List.pairwise_of_forall_mem_list fun a ha b hb => ?_
      have ha := (List.mem_filter.1 ha).2
      have hb := (List.mem_filter.1 hb).2
      simp_all
    refine List.Sublist.eq_of_length ?_ ((List.mergeSort_perm _ _).filter _).length_eq.symm
    simpa using hsublist.filter fun e => decide (e.2 = slot)
  rw [← List.head?_filter, ← List.head?_filter, hfilter]

/-- The lowest slot that has a name, or the end of the values. -/
def firstSlot (r : Record) : Nat := (r.names.map (·.2)).min?.getD r.values.length

/-- The values that parameters are cut out of. -/
def keptValues (r : Record) : List Single := r.values.drop r.firstSlot

/-- The name table with the first name of its slot in every entry. -/
def keptNames (r : Record) : List (String × Nat) :=
  r.names.map fun e => (r.names.find? (·.2 = e.2)).getD e

theorem head?_sortedNames (r : Record) :
    r.sortedNames.head?.map (·.2) = (r.names.map (·.2)).min? := by
  cases hs : r.sortedNames with
  | nil =>
    have hnames : r.names = [] :=
      List.eq_nil_iff_forall_not_mem.2 fun e he => by simpa [hs] using mem_sortedNames.2 he
    rw [hnames]
    rfl
  | cons e rest =>
    have he : e ∈ r.names := mem_sortedNames.1 (by simp [hs])
    have hle := r.sorted_sortedNames
    rw [hs, List.pairwise_cons] at hle
    refine (List.min?_eq_some_iff.2 ⟨List.mem_map_of_mem he, fun slot hslot => ?_⟩).symm
    obtain ⟨f, hf, rfl⟩ := List.mem_map.1 hslot
    rcases List.mem_cons.1 (hs ▸ mem_sortedNames.2 hf) with rfl | hrest
    · exact Nat.le_refl _
    · exact hle.1 f hrest

theorem flatMap_parameters {r : Record} (hv : r.Valid) (catalog : Catalog) :
    (r.parameters catalog).flatMap (·.1.values) = r.keptValues := by
  rw [parameters, flatMap_parametersFrom _ _ r.sorted_sortedNames fun e he =>
    Nat.le_of_lt (hv.names e (mem_sortedNames.1 he)).2, head?_sortedNames]
  rfl

theorem keptValues_eq_iff {r : Record} :
    r.keptValues = r.values ↔ r.values = [] ∨ 0 ∈ r.names.map (·.2) := by
  have hfirst : r.firstSlot = 0 ↔ 0 ∈ r.names.map (·.2) ∨ r.names = [] ∧ r.values = [] := by
    unfold firstSlot
    cases hmin : (r.names.map (·.2)).min? with
    | none =>
      have hnames : r.names = [] := by simpa using hmin
      simp [hnames]
    | some slot =>
      obtain ⟨hmem, hle⟩ := List.min?_eq_some_iff.1 hmin
      have hne : r.names ≠ [] := by
        rintro h
        simp [h] at hmem
      simp only [Option.getD_some, hne, false_and, or_false]
      exact ⟨fun h => h ▸ hmem, fun h => Nat.le_zero.1 (hle 0 h)⟩
  have hdrop : r.keptValues = r.values ↔ r.firstSlot = 0 ∨ r.values = [] := by
    rw [keptValues]
    refine ⟨fun h => ?_, ?_⟩
    · have := congrArg List.length h
      rw [List.length_drop] at this
      rw [← List.length_eq_zero_iff]
      omega
    · rintro (h | h) <;> simp [h]
  rw [hdrop, hfirst]
  tauto

/-- Where the parameter of an entry of the name table stands: it has the first name of the slot. -/
theorem exists_parameter (r : Record) (catalog : Catalog) {e : String × Nat} (he : e ∈ r.names) :
    ∃ (i : Nat) (p : Parameter), (r.parameters catalog).findIdx? (·.2 = e.2) = some i ∧
      (r.parameters catalog)[i]? = some (p, e.2) ∧
      r.names.find? (·.2 = e.2) = some (p.name, e.2) := by
  have hmap := map_parametersFrom (r.tables catalog).ugens r.values r.sortedNames
  have hsome : ((r.parameters catalog).findIdx? (·.2 = e.2)).isSome := by
    have hmem := mem_sortedNames.2 he
    rw [← hmap] at hmem
    obtain ⟨q, hq, rfl⟩ := List.mem_map.1 hmem
    exact List.findIdx?_isSome.trans (List.any_eq_true.2 ⟨q, hq, by simp⟩)
  obtain ⟨i, hi⟩ := Option.isSome_iff_exists.1 hsome
  obtain ⟨hlt, hslot, hbefore⟩ := List.findIdx?_eq_some_iff_getElem.1 hi
  have hfind : (r.parameters catalog).find? (·.2 = e.2) = some (r.parameters catalog)[i] :=
    List.find?_eq_some_iff_getElem.2 ⟨hslot, i, hlt, rfl, fun j hj => by simpa using hbefore j hj⟩
  have hslot : (r.parameters catalog)[i].2 = e.2 := by simpa using hslot
  refine ⟨i, (r.parameters catalog)[i].1, hi, ?_, ?_⟩
  · rw [List.getElem?_eq_getElem hlt, ← hslot]
  · rw [← find?_sortedNames, ← hmap, List.find?_map]
    show ((r.parameters catalog).find? (·.2 = e.2)).map _ = _
    rw [hfind, ← hslot]
    rfl

theorem map_indexedParameters (r : Record) (catalog : Catalog) :
    (r.content catalog).indexedParameters.map (fun (p, slot) => (p.name, slot)) =
      r.keptNames := by
  simp only [content, Definition.indexedParameters, List.filterMap_filterMap, List.map_filterMap,
    keptNames]
  rw [← List.filterMap_eq_map]
  refine List.filterMap_congr fun e he => ?_
  obtain ⟨i, p, hi, hp, hfind⟩ := r.exists_parameter catalog he
  simp [hi, hp, hfind]

theorem exists_first {r : Record} {e : String × Nat} (he : e ∈ r.names) :
    ∃ first ∈ r.names, first.2 = e.2 ∧ r.names.find? (·.2 = e.2) = some first := by
  have hsome : (r.names.find? (·.2 = e.2)).isSome := List.find?_isSome.2 ⟨e, he, by simp⟩
  obtain ⟨first, hfirst⟩ := Option.isSome_iff_exists.1 hsome
  exact ⟨first, List.mem_of_find?_eq_some hfirst, by simpa using List.find?_some hfirst, hfirst⟩

theorem map_slot_keptNames (r : Record) : r.keptNames.map (·.2) = r.names.map (·.2) := by
  rw [keptNames, List.map_map]
  refine List.map_congr_left fun e he => ?_
  obtain ⟨first, -, hslot, hfirst⟩ := exists_first he
  rw [Function.comp_apply, hfirst, Option.getD_some, hslot]

theorem mem_names_of_mem_keptNames {r : Record} {e : String × Nat} (he : e ∈ r.keptNames) :
    e ∈ r.names := by
  obtain ⟨f, hf, rfl⟩ := List.mem_map.1 he
  obtain ⟨first, hmem, -, hfirst⟩ := exists_first hf
  rwa [hfirst, Option.getD_some]

/-- Every entry keeps its name if entries of one slot have one name. -/
theorem keptNames_eq_iff {r : Record} :
    r.keptNames = r.names ↔ ∀ e ∈ r.names, ∀ f ∈ r.names, e.2 = f.2 → e.1 = f.1 := by
  have hid : r.keptNames = r.names ↔
      ∀ e ∈ r.names, (r.names.find? (·.2 = e.2)).getD e = e := by
    have h := List.map_inj_left (l := r.names) (g := id)
      (f := fun e => (r.names.find? (·.2 = e.2)).getD e)
    rwa [List.map_id] at h
  rw [hid]
  constructor
  · intro h e he f hf hslot
    have hef : e = f := by
      obtain ⟨g, -, -, hg⟩ := exists_first he
      have hge := h e he
      have hgf := h f hf
      rw [hg] at hge
      rw [← hslot, hg] at hgf
      exact hge.symm.trans hgf
    rw [hef]
  · intro h e he
    obtain ⟨g, hmem, hslot, hg⟩ := exists_first he
    rw [hg, Option.getD_some]
    exact Prod.ext (h g hmem e he hslot) hslot

theorem length_parameters (r : Record) (catalog : Catalog) :
    (r.parameters catalog).length = r.names.length := by
  calc (r.parameters catalog).length
      = r.sortedNames.length := by
        rw [← map_parametersFrom (r.tables catalog).ugens r.values r.sortedNames, List.length_map]
        rfl
    _ = r.names.length := List.length_mergeSort _

theorem length_indexedParameters (r : Record) (catalog : Catalog) :
    (r.content catalog).indexedParameters.length = (r.content catalog).parameters.length := by
  calc (r.content catalog).indexedParameters.length
      = r.keptNames.length := by rw [← r.map_indexedParameters catalog, List.length_map]
    _ = r.names.length := List.length_map _
    _ = (r.content catalog).parameters.length := (r.length_parameters catalog).symm

/-- Constants that are read come from the table. -/
theorem lists_inputOf {d : Definition} {outputs : List Nat} {input : Nat × Nat}
    (hi : InputExists d.constants.length outputs input) : d.Lists (inputOf d.constants input) := by
  unfold InputExists at hi
  unfold inputOf
  split at hi
  · next hm =>
    rw [if_pos hm]
    refine List.findIdx?_isSome.trans (List.any_eq_true.2 ⟨d.constants[input.2], by simp, ?_⟩)
    simpa [List.getD, hi] using Single.sameConstant_refl _
  · next hm =>
    rw [if_neg hm]
    trivial

/-- Whatever is read can be written. -/
theorem writable_content {r : Record} (hv : r.Valid) (catalog : Catalog) :
    (r.content catalog).Writable := by
  constructor
  · intro p hp
    obtain ⟨i, -, hi⟩ := List.mem_filterMap.1 hp
    have hmem : (p.1.name, p.2) ∈ r.sortedNames := by
      rw [← map_parametersFrom (r.tables catalog).ugens r.values r.sortedNames]
      exact List.mem_map.2 ⟨p, List.mem_of_getElem? hi, rfl⟩
    exact (hv.names _ (mem_sortedNames.1 hmem)).1
  · intro u hu
    simp only [content, tables, List.map_map, List.mem_map, Function.comp_apply] at hu
    obtain ⟨w, hw, rfl⟩ := hu
    rw [attach_className, attach_inputs]
    refine ⟨(hv.ugens w hw).className, List.forall_mem_map.2 fun i hi => ?_⟩
    exact lists_inputOf (d := r.content catalog) ((hv.ugens w hw).inputs i hi)

theorem body_content {r : Record} (hv : r.Valid) (catalog : Catalog) (name : String) :
    (r.content catalog).body = .ok ((r.content catalog).record name).body :=
  (Definition.body_eq_ok (r.length_indexedParameters catalog) name).2
    ⟨writable_content hv catalog, rfl⟩

/-! ## Records in which nothing is redundant -/

/-- Nothing in the record is redundant. -/
structure Canonical (r : Record) : Prop where
  constants : Single.Distinct r.constants
  outputRates : ∀ u ∈ r.ugens, ∀ rate ∈ u.outputRates, rate = u.rate.index.toUInt8
  slots : (r.names.map (·.2)).Nodup
  first : r.values ≠ [] → 0 ∈ r.names.map (·.2)

instance (r : Record) : Decidable r.Canonical :=
  decidable_of_iff (Single.Distinct r.constants ∧
      (∀ u ∈ r.ugens, u.outputRates.all (· == u.rate.index.toUInt8)) ∧
      (r.names.map (·.2)).Nodup ∧ (r.values ≠ [] → 0 ∈ r.names.map (·.2)))
    ⟨fun ⟨hc, ho, hs, hf⟩ => ⟨hc, by simpa using ho, hs, hf⟩,
      fun ⟨hc, ho, hs, hf⟩ => ⟨hc, by simpa using ho, hs, hf⟩⟩

variable {r : Record}

theorem pairwise_sortedNames (hr : r.Canonical) : r.sortedNames.Pairwise (·.2 < ·.2) := by
  have hperm : (r.sortedNames.map (·.2)).Perm (r.names.map (·.2)) :=
    (List.mergeSort_perm _ _).map _
  have hne : r.sortedNames.Pairwise (·.2 ≠ ·.2) := List.pairwise_map.1 (hperm.nodup_iff.2 hr.slots)
  exact (r.sorted_sortedNames.and hne).imp fun h => Nat.lt_of_le_of_ne h.1 h.2

theorem keptValues_eq (hr : r.Canonical) : r.keptValues = r.values :=
  keptValues_eq_iff.2 ((eq_or_ne r.values []).imp_right hr.first)

theorem keptNames_eq (hr : r.Canonical) : r.keptNames = r.names :=
  keptNames_eq_iff.2 fun _ he _ hf hslot =>
    congrArg Prod.fst (List.inj_on_of_nodup_map hr.slots he hf hslot)

theorem inputPair_inputOf {d : Definition} {constants : List Single} {outputs : List Nat}
    (hc : Single.Distinct constants) (hd : d.constants = constants)
    {input : Nat × Nat} (hi : InputExists constants.length outputs input) :
    d.inputPair (inputOf constants input) = input := by
  unfold InputExists at hi
  unfold inputOf
  split at hi
  · next hm =>
    have hget : constants[input.2]? = some (constants.getD input.2 default) := by
      simp [List.getD, hi]
    have hindex : d.constantIndex? (constants.getD input.2 default) = some input.2 := by
      rw [Definition.constantIndex?, hd]
      exact hc.findIdx? hget
    rw [if_pos hm]
    simp only [Definition.inputPair, hindex, Option.getD_some]
    rw [← hm]
  · next hm =>
    rw [if_neg hm]
    rfl

/-- Reading a generator and writing it again gives the same generator. -/
theorem ugenRecord_attach {d : Definition} {u : UGenRecord} {constants : List Single}
    {outputs : List Nat} (hc : Single.Distinct constants) (hd : d.constants = constants)
    (hu : u.Valid constants.length outputs)
    (hrates : ∀ rate ∈ u.outputRates, rate = u.rate.index.toUInt8) (catalog : Catalog)
    (parameters : List (Parameter × Nat)) :
    d.ugenRecord (attach parameters (u.node catalog constants)) = u := by
  have hattach : d.ugenRecord (attach parameters (u.node catalog constants)) =
      d.ugenRecord (u.node catalog constants) := by
    unfold attach
    split <;> rfl
  have hinputs : u.inputs.map (d.inputPair ∘ inputOf constants) = u.inputs :=
    (List.map_congr_left fun i hi => inputPair_inputOf hc hd (hu.inputs i hi)).trans
      (List.map_id _)
  have houtputs : List.replicate u.outputRates.length u.rate.index.toUInt8 = u.outputRates :=
    (List.eq_replicate_iff.2 ⟨rfl, hrates⟩).symm
  rw [hattach]
  simp only [Definition.ugenRecord, UGenRecord.node, List.map_map, hinputs, houtputs]

theorem record_content (hv : r.Valid) (hr : r.Canonical) (catalog : Catalog) :
    (r.content catalog).record r.name = r := by
  have hugens : (r.content catalog).ugens.map (r.content catalog).ugenRecord = r.ugens := by
    simp only [content, tables, List.map_map]
    refine (List.map_congr_left fun u hu => ?_).trans (List.map_id _)
    exact ugenRecord_attach hr.constants rfl (hv.ugens u hu) (hr.outputRates u hu) _ _
  rw [Definition.record, hugens, map_indexedParameters, keptNames_eq hr]
  simp only [content, flatMap_parameters hv, keptValues_eq hr]

theorem body_definition [Digest] (hv : r.Valid) (hr : r.Canonical) (catalog : Catalog) :
    (r.definition catalog).body = .ok r.body := by
  rw [definition_eq]
  refine (body_content hv catalog r.name).trans ?_
  rw [record_content hv hr]

theorem anonymousName_content [Digest] (hv : r.Valid) (hr : r.Canonical) (catalog : Catalog) :
    (r.content catalog).anonymousName = Definition.digestName r.body := by
  have hbody : (r.content catalog).body = .ok r.body := by
    rw [← body_definition hv hr catalog, definition_eq]
    rfl
  simp [Definition.anonymousName, hbody]

/-- What is read from a canonical record is written as this record again. -/
theorem bytes_definition [Digest] (hv : r.Valid) (hr : r.Canonical) (catalog : Catalog)
    {anonymous : Bool} (hname : anonymous = true → r.name = Definition.digestName r.body) :
    (r.definition catalog).bytes anonymous = .ok r.layout := by
  have hbody := body_definition hv hr catalog
  have hwritten : (r.definition catalog).writtenName anonymous r.body = r.name := by
    unfold Definition.writtenName
    split
    · next h => exact (hname h).symm
    · rw [definition_eq, anonymousName_content hv hr]
      simp only
      split
      · next h => exact h.symm
      · rfl
  exact Definition.bytes_eq_ok.2 ⟨r.body, hbody, hwritten ▸ hv.name, by rw [hwritten, layout]⟩

end Record

/-- What is read from canonical records is written as a file of these records again. -/
theorem encode_definitions [Digest] {records : List Record} (hn : records.length < 65536)
    (hr : ∀ r ∈ records, r.Valid ∧ r.Canonical) (catalog : Catalog) {anonymous : Bool}
    (hname : anonymous = true → ∀ r ∈ records, r.name = Definition.digestName r.body) :
    encode (records.map (·.definition catalog)) anonymous = .ok (fileLayout records) := by
  have hbytes : ∀ r ∈ records, ∀ b,
      (r.definition catalog).bytes anonymous = .ok b ↔ True ∧ b = r.layout := by
    intro r hmem b
    rw [Record.bytes_definition (hr r hmem).1 (hr r hmem).2 catalog fun h => hname h r hmem]
    simp [eq_comm]
  refine encode_eq_ok.2 ⟨by simpa using hn, records.map Record.layout, ?_, ?_⟩
  · rw [List.mapM_map]
    exact (mapM_eq_ok_iff hbytes).2 ⟨fun _ _ => trivial, rfl⟩
  · rw [fileLayout, List.length_map, List.flatMap_def]

end Scgf

end SynthGraph
