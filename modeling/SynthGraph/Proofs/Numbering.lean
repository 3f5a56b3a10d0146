import SynthGraph.Proofs.Compilation
import SynthGraph.Proofs.RoundTrip

/-!
# Numbering

The nodes that are live in the end are numbered by their places in the emission order. A reference
to a live node follows it there. What `finish` makes of a graph whose references are all to live
nodes is coherent: its tables hold every constant once and the parameters slot after slot.
-/

namespace SynthGraph.Graph

variable {g : Graph} {first : Nat} {groups : List ControlGroup}

/-! ## Places -/

theorem emission_eq (g : Graph) : g.emission =
    g.order.filter (fun id => (g.node id).flags.control) ++
      g.order.filter fun id => !(g.node id).flags.control := by
  simp only [emission, List.partition_eq_filter_filter]
  rfl

theorem emission_perm (g : Graph) : g.emission.Perm g.order := by
  rw [emission_eq]
  exact List.filter_append_perm _ _

theorem placed_of_mem {order : List Nat} {ref : NodeRef} (h : ref.ugen ∈ order) :
    order[(placed order ref).ugen]? = some ref.ugen := by
  obtain ⟨pos, hpos⟩ := Option.isSome_iff_exists.1 (List.isSome_idxOf?.2 h)
  simp only [placed, hpos, Option.getD_some, getElem?_of_idxOf? hpos]

theorem placed_of_not_mem {order : List Nat} {ref : NodeRef} (h : ref.ugen ∉ order) :
    placed order ref = ⟨0, ref.output⟩ := by
  simp only [placed, List.idxOf?_eq_none_iff.2 h, Option.getD_none]

theorem getElem?_numbered (g : Graph) (pos : Nat) : g.numbered[pos]? =
    (g.emission[pos]?).map fun id => (g.node id).mapRefs (placed g.emission) := by
  simp [numbered]

theorem mem_numbered {u : Node} : u ∈ g.numbered ↔
    ∃ id ∈ g.order, (g.node id).mapRefs (placed g.emission) = u := by
  simp only [numbered, List.mem_map, g.emission_perm.mem_iff]

/-- The place of a node. -/
def ordinal (g : Graph) (id : Nat) : Nat := (placed g.emission ⟨id, 0⟩).ugen

theorem emission_ordinal {id : Nat} (h : id ∈ g.order) : g.emission[g.ordinal id]? = some id :=
  placed_of_mem (g.emission_perm.mem_iff.2 h)

theorem getElem?_ordinal {id : Nat} (h : id ∈ g.order) :
    g.numbered[g.ordinal id]? = some ((g.node id).mapRefs (placed g.emission)) := by
  rw [getElem?_numbered, emission_ordinal h, Option.map_some]

theorem mem_order_of_emission {id pos : Nat} (h : g.emission[pos]? = some id) : id ∈ g.order :=
  g.emission_perm.mem_iff.1 (List.mem_of_getElem? h)

theorem ordinal_eq (hg : g.Ordered) {id pos : Nat} (h : g.emission[pos]? = some id) :
    g.ordinal id = pos :=
  eq_of_getElem?_of_nodup (g.emission_perm.nodup_iff.2 hg.nodup)
    (emission_ordinal (mem_order_of_emission h)) h

theorem map_ordinal_emission (hg : g.order.Nodup) :
    g.emission.map g.ordinal = List.range g.numbered.length := by
  have hidx : ∀ id ∈ g.emission, g.ordinal id = g.emission.idxOf id := by
    intro id hid
    obtain ⟨pos, hpos⟩ := Option.isSome_iff_exists.1 (List.isSome_idxOf?.2 hid)
    rw [List.idxOf_eq_getD_idxOf?, ordinal, placed, hpos]
    rfl
  rw [List.map_congr_left hidx, map_idxOf_self (g.emission_perm.nodup_iff.2 hg), numbered,
    List.length_map]

/-- If all references are to live nodes, each is to an output of the node at its new place. -/
theorem Closed.refs_numbered (hg : g.Closed) {u : Node} (hu : u ∈ g.numbered) {ref : NodeRef}
    (href : ref ∈ u.refs) : ∃ v, g.numbered[ref.ugen]? = some v ∧ ref.output < v.outputs := by
  obtain ⟨id, hid, rfl⟩ := mem_numbered.1 hu
  rw [Node.refs_mapRefs] at href
  obtain ⟨old, hold, rfl⟩ := List.mem_map.1 href
  obtain ⟨hlive, hlt⟩ := hg.ref hid hold
  refine ⟨(g.node old.ugen).mapRefs (placed g.emission), ?_, hlt⟩
  rw [getElem?_numbered, placed_of_mem (g.emission_perm.mem_iff.2 hlive), Option.map_some]

/-! ## Tables -/

theorem distinct_snoc {table : List Single} (h : Single.Distinct table) {value : Single}
    (hnew : table.any (·.sameConstant value) = false) : Single.Distinct (table ++ [value]) := by
  refine List.pairwise_append.2 ⟨h, List.pairwise_singleton _ _, fun a ha b hb => ?_⟩
  obtain rfl := List.mem_singleton.1 hb
  simpa using List.any_eq_false.1 hnew a ha

theorem distinct_constantTable (ugens : List Node) : Single.Distinct (constantTable ugens) := by
  unfold constantTable
  generalize ugens.flatMap (fun node => node.inputs.filterMap Input.constant?) = values
  suffices h : ∀ table : List Single, Single.Distinct table → Single.Distinct (values.foldl
      (fun table value => if table.any (·.sameConstant value) then table else table ++ [value])
      table) from h [] .nil
  induction values with
  | nil => exact fun _ h => h
  | cons value values ih =>
    intro table h
    rw [List.foldl_cons]
    split
    · exact ih table h
    · next hnew => exact ih _ (distinct_snoc h (by simpa using hnew))

theorem alphabetical_perm (parameters : List (Parameter × Nat)) :
    (Definition.alphabetical parameters).Perm (List.range parameters.length) := by
  have hperm := (List.mergeSort_perm parameters.zipIdx
    fun a b => decide (a.1.1.name ≤ b.1.1.name)).map (·.2)
  rwa [List.zipIdx_map_snd, ← List.range_eq_range'] at hperm

/-- The controls keep their order when they are brought to the front. -/
theorem Listed.filter_emission (hl : g.Listed first groups) :
    g.emission.filter (· ∈ controlIds first groups) = controlIds first groups := by
  have hcontrol : ∀ id, id ∈ controlIds first groups → (g.node id).flags.control := by
    intro id hid
    obtain ⟨group, -, hnode⟩ := hl.exists_group hid
    rw [hnode, group.flags_node]
  have hrest : (g.order.filter fun id => !(g.node id).flags.control).filter
      (· ∈ controlIds first groups) = [] := by
    refine List.filter_eq_nil_iff.2 fun id hid hmem => ?_
    have hnot := (List.mem_filter.1 hid).2
    rw [hcontrol id (by simpa using hmem)] at hnot
    cases hnot
  rw [emission_eq, List.filter_append, hrest, List.append_nil, List.filter_filter]
  refine (List.filter_congr fun id _ => ?_).trans hl.listed
  by_cases hmem : id ∈ controlIds first groups
  · simp [hmem, hcontrol id hmem]
  · simp [hmem]

theorem flatMap_range' {α β : Type} {f : Nat → List β} {h : α → List β} {as : List α} {start : Nat}
    (hf : ∀ k a, as[k]? = some a → f (start + k) = h a) :
    (List.range' start as.length).flatMap f = as.flatMap h := by
  induction as generalizing start with
  | nil => rfl
  | cons a as ih =>
    rw [List.length_cons, List.range'_succ, List.flatMap_cons, List.flatMap_cons, ← hf 0 a rfl,
      ih fun k b hk => by rw [← hf (k + 1) b hk, Nat.add_assoc, Nat.add_comm 1]]
    rfl

theorem parameterTable_numbered (hl : g.Listed first groups)
    (hfits : ∀ group ∈ groups, group.start < 65536) : parameterTable g.numbered =
      groups.flatMap fun group => slotsFrom group.start (group.members.map (·.2)) := by
  let slots := fun id => slotsFrom (g.node id).special.toNat (g.node id).parameters
  -- nodes that are no controls hold no parameters
  have hskip : ∀ ids : List Nat, (∀ id ∈ ids, id ∈ g.order) →
      ids.flatMap slots = (ids.filter (· ∈ controlIds first groups)).flatMap slots := by
    intro ids
    induction ids with
    | nil => exact fun _ => rfl
    | cons id ids ih =>
      intro hids
      rw [List.flatMap_cons, ih fun j hj => hids j (List.mem_cons_of_mem _ hj), List.filter_cons]
      by_cases hmem : id ∈ controlIds first groups
      · simp [hmem]
      · have hnone : slots id = [] := by
          simp only [slots, Node.parameters, hl.others id (hids id List.mem_cons_self) hmem,
            slotsFrom]
        simp [hmem, hnone]
  calc parameterTable g.numbered = g.emission.flatMap slots := by
        rw [parameterTable, numbered, List.flatMap_map]
        rfl
    _ = (controlIds first groups).flatMap slots := by
        rw [hskip _ fun id hid => g.emission_perm.mem_iff.1 hid, hl.filter_emission]
    _ = _ := by
        refine flatMap_range' fun k group hk => ?_
        have hlt := hfits group (List.mem_of_getElem? hk)
        simp only [slots, hl.node k group hk]
        simp only [ControlGroup.node, Node.parameters, Nat.toUInt16, UInt16.toNat_ofNat']
        rw [Nat.mod_eq_of_lt hlt]

/-! ## Coherence -/

/-- The definition of a graph whose references are all to live nodes and whose controls are those
of a builder's parameters. -/
theorem coherent_finish {source : Graph} (hs : source.Sourced) (hg : g.Closed)
    (hl : g.Listed source.nodes.size source.controlGroups)
    (hfits : ∀ group ∈ source.controlGroups, group.start < 65536) (name : Option String) :
    (g.finish name).Coherent where
  connected u hu ref href := hg.refs_numbered hu href
  constants := distinct_constantTable _
  parameters := by
    refine ⟨_, (parameterTable_numbered hl hfits).trans (flatMap_groupsFrom _ _ _), ?_⟩
    intro p hp
    obtain ⟨rate, -, hp⟩ := List.mem_flatMap.1 hp
    obtain ⟨m, hm, rfl⟩ := List.mem_map.1 hp
    obtain ⟨hlive, hparam⟩ := mem_placeholders.1 (mem_groupMembers.1 hm).1
    exact (hs.placeholders m.1 hlive m.2 hparam).2
  nameOrder := alphabetical_perm _

end SynthGraph.Graph
