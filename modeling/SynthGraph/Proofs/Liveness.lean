import SynthGraph.Proofs.Culling
import SynthGraph.Proofs.Order

/-!
# Dropping dead nodes

All that depends on a dead position is dead. So what a survivor reads survives, and the order of the
survivors is the order there was.
-/

namespace SynthGraph.Graph

variable {g : Graph}

/-! ## Dependents -/

theorem mem_sources {id pos : Nat} :
    pos ∈ g.sources id ↔ ∃ ref ∈ (g.node id).refs, g.position? ref.ugen = some pos := by
  have hsources : g.sources id = ((g.node id).refs.filterMap fun ref => g.position? ref.ugen).foldl
      (fun seen pos => if pos ∈ seen then seen else seen ++ [pos]) [] := by
    rw [List.foldl_filterMap, sources]
    congr 1
    funext seen ref
    cases g.position? ref.ugen <;> rfl
  rw [hsources, (foldl_collect (fun pos => pos) _ [] List.nodup_nil).2]
  simp [List.mem_filterMap]

/-- Whoever reads a node depends on it. -/
theorem mem_dependentsOf_of_ref {id pos q : Nat} {ref : NodeRef} (hq : g.order[q]? = some id)
    (href : ref ∈ (g.node id).refs) (hpos : g.position? ref.ugen = some pos) :
    q ∈ g.dependentsOf pos := by
  refine mem_consumers.2 ⟨_, by simp [dependencies, hq]; rfl, ?_⟩
  have hsource : pos ∈ g.sources id := mem_sources.2 ⟨ref, href, hpos⟩
  by_cases hbefore : pos ∈ g.constraints.antecedents.getD q []
  · exact List.mem_append_left _ hbefore
  · exact List.mem_append_right _ (List.mem_filter.2 ⟨hsource, by simpa using hbefore⟩)

theorem pure_of_dead {pos id : Nat} (hpos : g.order[pos]? = some id)
    (hdead : pos ∈ g.deadPositions) : (g.node id).flags.pure := by
  have hpure := (free_of_dead hdead).1
  simpa [isPureAt, hpos] using hpure

/-! ## The pass -/

theorem order_dropDead (g : Graph) : g.dropDead.2.order =
    (g.order.zipIdx.filter fun (_, pos) => !g.deadPositions.contains pos).map (·.1) := by
  simp only [dropDead, getD_removed]

theorem mem_dropDead {id : Nat} : id ∈ g.dropDead.2.order ↔
    ∃ pos, g.order[pos]? = some id ∧ pos ∉ g.deadPositions := by
  simp only [order_dropDead, List.mem_map, List.mem_filter, Bool.not_eq_true',
    List.contains_eq_mem, decide_eq_false_iff_not]
  constructor
  · rintro ⟨⟨id, pos⟩, ⟨hmem, hpos⟩, rfl⟩
    exact ⟨pos, List.mk_mem_zipIdx_iff_getElem?.1 hmem, hpos⟩
  · rintro ⟨pos, hget, hpos⟩
    exact ⟨(id, pos), ⟨List.mk_mem_zipIdx_iff_getElem?.2 hget, hpos⟩, rfl⟩

theorem dropDead_sublist (g : Graph) : g.dropDead.2.order.Sublist g.order := by
  have hsub : g.dropDead.2.order.Sublist (g.order.zipIdx.map (·.1)) := List.filter_sublist.map _
  rwa [List.zipIdx_map_fst] at hsub

theorem Wired.dropDead {gone : Nat → Prop} (hg : g.Wired gone) : g.dropDead.2.Wired gone := by
  refine ⟨hg.toOrdered.of_sublist g.dropDead_sublist, fun id hid ref href => ?_⟩
  obtain ⟨q, hq, hlive⟩ := mem_dropDead.1 hid
  obtain ⟨hmem, hlt⟩ := hg.refs id (List.mem_of_getElem? hq) ref href
  refine ⟨hmem.imp_left fun hmem => ?_, hlt⟩
  obtain ⟨pos, hpos⟩ := Option.isSome_iff_exists.1 (List.isSome_idxOf?.2 hmem)
  refine mem_dropDead.2 ⟨pos, getElem?_of_idxOf? hpos, fun hdead => hlive ?_⟩
  exact (free_of_dead hdead).2 q (mem_dependentsOf_of_ref hq href hpos)

/-- Only pure nodes are dropped. -/
theorem pure_of_dropped {id : Nat} (hid : id ∈ g.order) (hnot : id ∉ g.dropDead.2.order) :
    (g.node id).flags.pure := by
  obtain ⟨pos, hpos⟩ := List.getElem?_of_mem hid
  have hdead : pos ∈ g.deadPositions := by
    by_contra hlive
    exact hnot (mem_dropDead.2 ⟨pos, hpos, hlive⟩)
  exact pure_of_dead hpos hdead

theorem filter_dropDead {p : Nat → Bool}
    (h : ∀ id ∈ g.order, p id → (g.node id).flags.pure = false) :
    g.dropDead.2.order.filter p = g.order.filter p := by
  have hkeep : (g.order.zipIdx.filter fun (_, pos) => !g.deadPositions.contains pos).filter
      (p ∘ Prod.fst) = g.order.zipIdx.filter (p ∘ Prod.fst) := by
    rw [List.filter_filter]
    refine List.filter_congr fun (id, pos) hmem => ?_
    have hget := List.mk_mem_zipIdx_iff_getElem?.1 hmem
    by_cases hp : p id
    · have hpos : pos ∉ g.deadPositions := by
        intro hdead
        have hpure := pure_of_dead hget hdead
        rw [h id (List.mem_of_getElem? hget) hp] at hpure
        cases hpure
      simp [hp, hpos]
    · simp [hp]
  rw [order_dropDead, List.filter_map, hkeep, ← List.filter_map, List.zipIdx_map_fst]

end SynthGraph.Graph
