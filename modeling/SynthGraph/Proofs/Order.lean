import SynthGraph.Proofs.Arena
import SynthGraph.Proofs.Countdown

/-!
# Sorting permutes the emission order

Emission never lists a position twice: what it frees has just had its last antecedent emitted, so it
was not free before. A schedule that lists as many positions as there are is therefore a permutation
of them. Positions without antecedents come in their own order, because nothing is ever freed among
them.
-/

namespace SynthGraph

namespace Constraints

variable {c : Constraints}

/-- Emission ends in a state like the one it starts from. -/
theorem Emitting.emit {fuel : Nat} {free emitted : List Nat} (h : c.Emitting free emitted) :
    ∃ rest, c.Emitting rest (c.emit fuel free emitted) := by
  induction fuel generalizing free emitted with
  | zero => exact ⟨free, h⟩
  | succ fuel ih =>
    cases free with
    | nil => exact ⟨[], h⟩
    | cons pos free => exact ih h.step

theorem emitting_schedule (c : Constraints) : ∃ rest, c.Emitting rest c.schedule := by
  rw [schedule_eq_emit]
  exact c.emitting_start.emit

theorem nodup_schedule (c : Constraints) : c.schedule.Nodup := by
  obtain ⟨rest, h⟩ := c.emitting_schedule
  exact (List.nodup_append.1 h.nodup).2.1

theorem lt_of_mem_schedule {p : Nat} (hp : p ∈ c.schedule) : p < c.size := by
  obtain ⟨rest, h⟩ := c.emitting_schedule
  exact h.bound p (List.mem_append_right _ hp)

theorem perm_schedule (h : c.schedule.length = c.size) :
    c.schedule.Perm (List.range c.size) := by
  have hsub : c.schedule ⊆ List.range c.size :=
    fun p hp => List.mem_range.2 (lt_of_mem_schedule hp)
  exact (c.nodup_schedule.subperm hsub).perm_of_length_le (by simp [h])

/-! ## Positions without antecedents -/

theorem emit_filter_prefix (fuel : Nat) (free emitted : List Nat) :
    (c.emit fuel free emitted).filter (c.isFree []) <+:
      (emitted ++ free).filter (c.isFree []) := by
  induction fuel generalizing free emitted with
  | zero => exact (List.prefix_append _ _).filter _
  | succ fuel ih =>
    cases free with
    | nil => exact (List.prefix_append _ _).filter _
    | cons pos free =>
      have hfreed : ((c.descendants pos).filter (c.isFree (emitted ++ [pos]))).filter
          (c.isFree []) = [] := by
        rw [List.filter_eq_nil_iff]
        intro p hp hfree
        have := isFree_iff.1 hfree pos (mem_descendants.1 (List.mem_filter.1 hp).1).2
        cases this
      have := ih ((c.descendants pos).filter (c.isFree (emitted ++ [pos])) ++ free)
        (emitted ++ [pos])
      rw [emit]
      simpa [List.filter_append, hfreed, List.filter_cons] using this

theorem filter_schedule (h : c.schedule.length = c.size) :
    c.schedule.filter (c.isFree []) = (List.range c.size).filter (c.isFree []) := by
  have hprefix : c.schedule.filter (c.isFree []) <+:
      ((List.range c.size).filter (c.isFree [])).filter (c.isFree []) := by
    rw [schedule_eq_emit]
    exact emit_filter_prefix c.size _ []
  rw [List.filter_filter] at hprefix
  simp only [Bool.and_self] at hprefix
  exact hprefix.eq_of_length ((perm_schedule h).filter _).length_eq

end Constraints

namespace Graph

variable {g g' : Graph}

/-! ## The pass -/

theorem size_constraints (g : Graph) : g.constraints.size = g.order.length := by
  simp [constraints, Constraints.size]

theorem sort_eq_ok (h : g.sort = .ok g') :
    g.constraints.schedule.Perm (List.range g.order.length) ∧
      g' = { g with order := g.constraints.schedule.filterMap (g.order[·]?) } := by
  unfold sort at h
  simp only at h
  split at h
  · next hlen =>
    cases h
    refine ⟨?_, rfl⟩
    rw [← size_constraints] at hlen ⊢
    exact Constraints.perm_schedule hlen
  · cases h

theorem sort_perm (h : g.sort = .ok g') :
    (∀ id, g'.node id = g.node id) ∧ g'.order.Perm g.order := by
  obtain ⟨hperm, rfl⟩ := sort_eq_ok h
  exact ⟨fun _ => rfl, perm_filterMap_getElem? hperm⟩

theorem Wired.sort {gone : Nat → Prop} (hg : g.Wired gone) (h : g.sort = .ok g') :
    g'.Wired gone := by
  obtain ⟨hperm, rfl⟩ := sort_eq_ok h
  have hperm := perm_filterMap_getElem? hperm
  refine ⟨hg.toOrdered.of_perm hperm, fun id hid ref href => ?_⟩
  obtain ⟨hlive, hlt⟩ := hg.refs id (hperm.mem_iff.1 hid) ref href
  exact ⟨hlive.imp_left hperm.mem_iff.2, hlt⟩

theorem sources_of_refs_nil {id : Nat} (h : (g.node id).refs = []) : g.sources id = [] := by
  simp [sources, h]

/-- Nodes at the front that read nothing and delay nothing have no antecedents. -/
theorem antecedentsOf_front {front : List Nat} (hfront : front <+: g.order)
    (hfree : ∀ id ∈ front, (g.node id).refs = [] ∧ (g.node id).flags.widthFirst = false)
    {pos : Nat} (hpos : pos < front.length) : g.constraints.antecedentsOf pos = [] := by
  obtain ⟨rest, hrest⟩ := hfront
  have hlt : pos < g.order.length := by
    rw [← hrest, List.length_append]
    omega
  have hid : g.order[pos] ∈ front := by
    have : g.order[pos] = front[pos] := by simp [← hrest, List.getElem_append_left hpos]
    rw [this]
    exact List.getElem_mem hpos
  have hwidth : g.widthFirstBefore pos = [] := by
    simp only [widthFirstBefore, List.map_eq_nil_iff, List.filter_eq_nil_iff]
    rintro ⟨id, i⟩ hmem
    have hid := List.mem_of_getElem? (List.mk_mem_zipIdx_iff_getElem?.1 hmem)
    rw [← hrest, List.take_append_of_le_length (Nat.le_of_lt hpos)] at hid
    simp [(hfree id (List.mem_of_mem_take hid)).2]
  have hsources : (g.sourceTable[pos]?).getD [] = [] := by
    simp [sourceTable, hlt, sources_of_refs_nil (hfree _ hid).1]
  have hat : g.antecedentsAt g.sourceTable pos g.order[pos] = [] := by
    simp [antecedentsAt, hwidth, hsources]
  simp [Constraints.antecedentsOf, constraints, List.getD, hlt, hat]

/-- Sorting keeps such nodes in their order. -/
theorem sort_front (hg : g.Ordered) (h : g.sort = .ok g') {front : List Nat}
    (hfront : front <+: g.order)
    (hfree : ∀ id ∈ front, (g.node id).refs = [] ∧ (g.node id).flags.widthFirst = false) :
    g'.order.filter (· ∈ front) = front := by
  obtain ⟨hperm, rfl⟩ := sort_eq_ok h
  have hlen : g.constraints.schedule.length = g.constraints.size := by
    rw [hperm.length_eq, List.length_range, size_constraints]
  have hle : front.length ≤ g.order.length := hfront.length_le
  have hisFree : ∀ pos < front.length, g.constraints.isFree [] pos := by
    intro pos hpos
    simp [Constraints.isFree, antecedentsOf_front hfront hfree hpos]
  -- the positions of the front are scheduled in order
  have hschedule : g.constraints.schedule.filter (· < front.length) =
      List.range front.length := by
    have hboth : ∀ l : List Nat, l.filter (· < front.length) =
        (l.filter (g.constraints.isFree [])).filter (· < front.length) := by
      intro l
      rw [List.filter_filter]
      refine List.filter_congr fun pos _ => ?_
      by_cases hpos : pos < front.length
      · simp [hpos, hisFree pos hpos]
      · simp [hpos]
    rw [hboth, Constraints.filter_schedule hlen, ← hboth, size_constraints, filter_lt_range hle]
  calc (g.constraints.schedule.filterMap (g.order[·]?)).filter (· ∈ front)
      = (g.constraints.schedule.filter (· < front.length)).filterMap (g.order[·]?) := by
        rw [List.filter_filterMap, List.filterMap_filter]
        refine List.filterMap_congr fun pos _ => ?_
        cases hpos : g.order[pos]? with
        | none => simp
        | some id => simp [Option.filter, mem_front_iff hg.nodup hfront hpos]
    _ = (List.range front.length).filterMap (front[·]?) := by
        rw [hschedule]
        refine List.filterMap_congr fun pos hpos => ?_
        obtain ⟨rest, hrest⟩ := hfront
        rw [← hrest, List.getElem?_append_left (List.mem_range.1 hpos)]
    _ = front := filterMap_getElem?_range front

end Graph

end SynthGraph
