import Mathlib.Order.Bounds.Basic
import SynthGraph.Graph.Liveness
import SynthGraph.Proofs.Countdown

/-!
# Removing dead positions by counting down

While positions are removed, the counter of each stands at the dependents that have not been
removed. So what is found dead has none left, no position is found twice, and a pure position whose
dependents are all removed has been found (`Culling.step`). When nothing is left to remove, the
removed positions are the least set that holds every pure position all of whose dependents it holds
(`isLeast_deadPositions`).
-/

namespace SynthGraph

/-! ## Counting dependents -/

/-- Every occurrence is counted. -/
theorem getD_foldl_modify (row : List Nat) {counts : Array Nat} {p : Nat} (hp : p < counts.size) :
    (row.foldl (fun counts pos => counts.modify pos (· + 1)) counts).getD p 0 =
      counts.getD p 0 + row.count p := by
  induction row generalizing counts with
  | nil => rfl
  | cons pos row ih =>
    rw [List.foldl_cons, ih (by simpa using hp), List.count_cons]
    simp only [Array.getD_eq_getD_getElem?, Array.getElem?_modify]
    by_cases h : pos = p
    · subst h
      simp [hp]
      omega
    · simp [h]

theorem length_consumers {table : List (List Nat)} (h : ∀ row ∈ table, row.Nodup) (pos : Nat) :
    (consumers table pos).length = table.flatten.count pos := by
  have hcount : (consumers table pos).length = table.countP (·.contains pos) := by
    have hmap := List.countP_map (p := (·.contains pos)) (f := Prod.fst) (l := table.zipIdx)
    rw [List.zipIdx_map_fst] at hmap
    rw [hmap, consumers, List.length_map, ← List.countP_eq_length_filter]
    rfl
  rw [hcount]
  clear hcount
  induction table with
  | nil => rfl
  | cons row table ih =>
    have hrow : row.count pos = if row.contains pos then 1 else 0 := by
      split
      · next hmem =>
        exact List.count_eq_one_of_mem (h row List.mem_cons_self) (by simpa using hmem)
      · next hmem => exact List.count_eq_zero.2 (by simpa using hmem)
    rw [List.countP_cons, ih fun row' hrow' => h row' (List.mem_cons_of_mem _ hrow'),
      List.flatten_cons, List.count_append, hrow, Nat.add_comm]

namespace Graph

variable {g : Graph}

theorem nodup_dependencies (g : Graph) : ∀ row ∈ g.dependencies, row.Nodup := by
  intro row hrow
  obtain ⟨⟨id, pos⟩, -, rfl⟩ := List.mem_map.1 hrow
  exact List.nodup_append.2 ⟨g.constraints.nodup_antecedentsOf pos, (g.nodup_sources id).filter _,
    by grind [Constraints.antecedentsOf]⟩

theorem nodup_dependenciesAt (g : Graph) (pos : Nat) : (g.dependencies.getD pos []).Nodup := by
  rw [List.getD_eq_getElem?_getD]
  cases hget : g.dependencies[pos]? with
  | none => exact List.nodup_nil
  | some row => exact g.nodup_dependencies row (List.mem_of_getElem? hget)

/-- The positions that depend on `pos`. -/
def dependentsOf (g : Graph) (pos : Nat) : List Nat := consumers g.dependencies pos

/-- The dependents of `pos` that have not been removed. -/
def holders (g : Graph) (removed : List Nat) (pos : Nat) : Nat :=
  (g.dependentsOf pos).countP (· ∉ removed)

theorem holders_eq_zero {removed : List Nat} {pos : Nat} :
    g.holders removed pos = 0 ↔ ∀ q ∈ g.dependentsOf pos, q ∈ removed := by
  simp [holders, List.countP_eq_zero]

theorem holders_snoc {removed : List Nat} {pos p : Nat} (hpos : pos ∉ removed) :
    g.holders (removed ++ [pos]) p =
      g.holders removed p - if pos ∈ g.dependentsOf p then 1 else 0 :=
  countP_not_mem_snoc (nodup_consumers g.dependencies p) hpos

theorem getD_dependentCounts {p : Nat} (hp : p < g.order.length) :
    g.dependentCounts.getD p 0 = g.holders [] p := by
  have hflat : g.dependentCounts = g.dependencies.flatten.foldl
      (fun counts pos => counts.modify pos (· + 1)) (Array.replicate g.order.length 0) := by
    rw [dependentCounts, List.foldl_flatten]
  rw [hflat, getD_foldl_modify _ (by simpa using hp), ← length_consumers g.nodup_dependencies]
  simp [holders, dependentsOf, hp]

theorem mem_dependentsOf {p q : Nat} :
    q ∈ g.dependentsOf p ↔ p ∈ g.dependencies.getD q [] := by
  rw [dependentsOf, mem_consumers, List.getD_eq_getElem?_getD]
  cases g.dependencies[q]? <;> simp

theorem isPureAt_lt {p : Nat} (h : g.isPureAt p) : p < g.order.length := by
  by_contra hge
  have hnone : g.order[p]? = none := List.getElem?_eq_none (Nat.le_of_not_lt hge)
  simp [isPureAt, hnone] at h

/-! ## One removal -/

/-- `s'` is `s` after a dependent of each of `positions` has been removed. -/
structure Unlinked (g : Graph) (s : Cull) (positions : List Nat) (s' : Cull) : Prop where
  removed : s'.removed = s.removed
  dependents : ∀ p, s'.dependents.getD p 0 = s.dependents.getD p 0 - if p ∈ positions then 1 else 0
  dead : s'.dead = (positions.filter fun p =>
    s.dependents.getD p 0 - 1 = 0 && g.isPureAt p && !s.removed.getD p false).reverse ++ s.dead

theorem unlinked_foldl (s : Cull) {positions : List Nat} (hn : positions.Nodup) :
    g.Unlinked s positions (positions.foldl g.unlink s) := by
  induction positions generalizing s with
  | nil => exact ⟨rfl, by simp, by simp⟩
  | cons pos positions ih =>
    rw [List.nodup_cons] at hn
    rw [List.foldl_cons]
    have hstep : (g.unlink s pos).removed = s.removed ∧
        (∀ p, (g.unlink s pos).dependents.getD p 0 =
          s.dependents.getD p 0 - if pos = p then 1 else 0) ∧
        (g.unlink s pos).dead = ([pos].filter fun p =>
          s.dependents.getD p 0 - 1 = 0 && g.isPureAt p && !s.removed.getD p false) ++ s.dead := by
      unfold unlink
      simp only [getD_modify_pred, if_pos]
      split
      · next hdead =>
        exact ⟨rfl, fun p => getD_modify_pred _ _ _, by rw [List.filter_cons, if_pos hdead]; rfl⟩
      · next hdead =>
        exact ⟨rfl, fun p => getD_modify_pred _ _ _, by rw [List.filter_cons, if_neg hdead]; rfl⟩
    obtain ⟨hremoved, hdependents, hdead⟩ := hstep
    have h := ih (g.unlink s pos) hn.2
    refine ⟨h.removed.trans hremoved, fun p => ?_, ?_⟩
    · rw [h.dependents, hdependents]
      grind
    · -- the counters of the others are as they were
      have hrest : positions.filter (fun p => (g.unlink s pos).dependents.getD p 0 - 1 = 0 &&
            g.isPureAt p && !(g.unlink s pos).removed.getD p false) =
          positions.filter fun p => s.dependents.getD p 0 - 1 = 0 && g.isPureAt p &&
            !s.removed.getD p false := by
        refine List.filter_congr fun p hp => ?_
        have hne : pos ≠ p := fun heq => hn.1 (heq ▸ hp)
        rw [hdependents, hremoved, if_neg hne, Nat.sub_zero]
      rw [h.dead, hrest, hdead, ← List.append_assoc, ← List.singleton_append (l := positions),
        List.filter_append, List.reverse_append]
      congr 2
      rw [List.filter_cons]
      split <;> rfl

/-- The set holds every pure position all of whose dependents it holds. -/
def ClosedUp (g : Graph) (set : Set Nat) : Prop :=
  ∀ p, g.isPureAt p → (∀ q ∈ g.dependentsOf p, q ∈ set) → p ∈ set

/-- What holds while positions are removed. -/
structure Culling (g : Graph) (s : Cull) (done : List Nat) : Prop where
  nodup : (s.dead ++ done).Nodup
  pure : ∀ p ∈ s.dead ++ done, g.isPureAt p
  size : s.removed.size = g.order.length
  removed : ∀ p, s.removed.getD p false = true ↔ p ∈ done
  dependents : ∀ p < g.order.length, s.dependents.getD p 0 = g.holders done p
  /-- What is found dead has no dependents left. -/
  free : ∀ p ∈ s.dead ++ done, ∀ q ∈ g.dependentsOf p, q ∈ done
  /-- What has none left is found. -/
  found : ∀ p, g.isPureAt p → (∀ q ∈ g.dependentsOf p, q ∈ done) → p ∈ s.dead ++ done
  /-- Nothing is found that need not be. -/
  least : ∀ set, g.ClosedUp set → ∀ p ∈ s.dead ++ done, p ∈ set

theorem culling_startCull (g : Graph) : g.Culling g.startCull [] := by
  have hmem : ∀ p, p ∈ g.startCull.dead ++ [] ↔
      g.isPureAt p ∧ ∀ q ∈ g.dependentsOf p, q ∈ ([] : List Nat) := by
    intro p
    simp only [startCull, List.append_nil, List.mem_reverse, List.mem_filter, List.mem_range,
      Bool.and_eq_true, beq_iff_eq]
    constructor
    · rintro ⟨hlt, hpure, hcount⟩
      rw [getD_dependentCounts hlt] at hcount
      exact ⟨hpure, holders_eq_zero.1 hcount⟩
    · rintro ⟨hpure, hnone⟩
      have hlt := isPureAt_lt hpure
      exact ⟨hlt, hpure, by rw [getD_dependentCounts hlt, holders_eq_zero.2 hnone]⟩
  constructor
  case nodup => simpa [startCull] using List.nodup_range.filter _
  case pure => exact fun p hp => ((hmem p).1 hp).1
  case size => simp [startCull]
  case removed =>
    intro p
    rw [startCull, getD_replicate_false]
    simp
  case dependents => exact fun p hp => getD_dependentCounts hp
  case free => exact fun p hp => ((hmem p).1 hp).2
  case found => exact fun p hpure hnone => (hmem p).2 ⟨hpure, hnone⟩
  case least =>
    intro set hset p hp
    obtain ⟨hpure, hnone⟩ := (hmem p).1 hp
    exact hset p hpure fun q hq => absurd (hnone q hq) List.not_mem_nil

theorem Culling.not_mem {s : Cull} {done dead : List Nat} {pos : Nat} (h : g.Culling s done)
    (hdead : s.dead = pos :: dead) : pos ∉ done := fun hmem =>
  (List.nodup_append.1 h.nodup).2.2 pos (by simp [hdead]) pos hmem rfl

/-- What the next position depends on has not been found yet. -/
theorem Culling.waits {s : Cull} {done dead : List Nat} {pos p : Nat} (h : g.Culling s done)
    (hdead : s.dead = pos :: dead) (hp : pos ∈ g.dependentsOf p) : p ∉ s.dead ++ done :=
  fun hmem => h.not_mem hdead (h.free p hmem pos hp)

/-- What is found next depended on nothing but `pos` and what has been removed before. -/
theorem Culling.exists_found {s s' : Cull} {done dead : List Nat} {pos : Nat}
    (h : g.Culling s done) (hdead : s.dead = pos :: dead)
    (hremoved : ∀ p, s'.removed.getD p false = true ↔ p ∈ done ++ [pos])
    (hun : g.Unlinked { s with dead, removed := s.removed.setIfInBounds pos true }
      (g.dependencies.getD pos []) s') :
    ∃ new : List Nat, s'.dead = new ++ dead ∧ new.Nodup ∧
      ∀ p, p ∈ new ↔ pos ∈ g.dependentsOf p ∧ g.isPureAt p ∧
        ∀ q ∈ g.dependentsOf p, q ∈ done ++ [pos] := by
  refine ⟨_, hun.dead, List.nodup_reverse.2 ((g.nodup_dependenciesAt pos).filter _), fun p => ?_⟩
  rw [List.mem_reverse, List.mem_filter, ← mem_dependentsOf]
  refine and_congr_right fun hp => ?_
  have hnot : s'.removed.getD p false = false := by
    rw [Bool.eq_false_iff, ne_eq, hremoved]
    intro hmem
    have hmem := (perm_of_next pos dead done).mem_iff.2 (List.mem_append_right _ hmem)
    exact h.waits hdead hp (hdead ▸ hmem)
  rw [hun.removed] at hnot
  simp only [Bool.and_eq_true, decide_eq_true_iff, hnot, Bool.not_false, and_true]
  rw [and_comm]
  refine and_congr_right fun hpure => ?_
  rw [h.dependents p (isPureAt_lt hpure), ← holders_eq_zero, holders_snoc (h.not_mem hdead),
    if_pos hp]

theorem Culling.step {s : Cull} {done dead : List Nat} {pos : Nat} (h : g.Culling s done)
    (hdead : s.dead = pos :: dead) :
    g.Culling ((g.dependencies.getD pos []).foldl g.unlink
      { s with dead, removed := s.removed.setIfInBounds pos true }) (done ++ [pos]) := by
  have hlt : pos < g.order.length := isPureAt_lt (h.pure pos (by simp [hdead]))
  have hperm : (s.dead ++ done).Perm (dead ++ (done ++ [pos])) :=
    hdead ▸ perm_of_next pos dead done
  have hun := unlinked_foldl (g := g) { s with dead, removed := s.removed.setIfInBounds pos true }
    (g.nodup_dependenciesAt pos)
  generalize (g.dependencies.getD pos []).foldl g.unlink
    { s with dead, removed := s.removed.setIfInBounds pos true } = s' at hun
  have hremoved : ∀ p, s'.removed.getD p false = true ↔ p ∈ done ++ [pos] := by
    intro p
    rw [hun.removed, getD_set_true (by rw [h.size]; exact hlt), h.removed]
    simp
  obtain ⟨new, hdead', hnodup', hnew⟩ := h.exists_found hdead hremoved hun
  have hall : ∀ p, p ∈ s'.dead ++ (done ++ [pos]) ↔ p ∈ new ∨ p ∈ s.dead ++ done := by
    intro p
    rw [hdead', List.append_assoc, List.mem_append, hperm.mem_iff]
  constructor
  case nodup =>
    rw [hdead', List.append_assoc, List.nodup_append]
    exact ⟨hnodup', hperm.nodup_iff.1 h.nodup, fun p hp q hq heq =>
      h.waits hdead ((hnew p).1 hp).1 (hperm.mem_iff.2 (heq ▸ hq))⟩
  case pure =>
    intro p hp
    rcases (hall p).1 hp with hp | hp
    · exact ((hnew p).1 hp).2.1
    · exact h.pure p hp
  case size => rw [hun.removed, Array.size_setIfInBounds, h.size]
  case removed => exact hremoved
  case dependents =>
    intro p hp
    simp only [hun.dependents, h.dependents p hp, holders_snoc (h.not_mem hdead),
      mem_dependentsOf]
  case free =>
    intro p hp q hq
    rcases (hall p).1 hp with hp | hp
    · exact ((hnew p).1 hp).2.2 q hq
    · exact List.mem_append_left _ (h.free p hp q hq)
  case found =>
    intro p hpure hfree
    refine (hall p).2 ?_
    by_cases hp : pos ∈ g.dependentsOf p
    · exact .inl ((hnew p).2 ⟨hp, hpure, hfree⟩)
    · refine .inr (h.found p hpure fun q hq => ?_)
      rcases List.mem_append.1 (hfree q hq) with hmem | hmem
      · exact hmem
      · exact absurd (List.mem_singleton.1 hmem ▸ hq) hp
  case least =>
    intro set hset p hp
    rcases (hall p).1 hp with hp | hp
    · obtain ⟨-, hpure, hfree⟩ := (hnew p).1 hp
      refine hset p hpure fun q hq => h.least set hset q ?_
      have := hfree q hq
      rw [hdead]
      simp only [List.mem_append, List.mem_cons, List.not_mem_nil, or_false] at this ⊢
      tauto
    · exact h.least set hset p hp

/-- No removed position is found again, so the search ends with nothing left to remove. -/
theorem Culling.cull {fuel : Nat} {s : Cull} {done : List Nat} (h : g.Culling s done)
    (hfuel : g.order.length ≤ fuel + done.length) :
    ∃ done', g.Culling (g.cull g.dependencies fuel s) done' ∧
      (g.cull g.dependencies fuel s).dead = [] := by
  induction fuel generalizing s done with
  | zero =>
    exact ⟨done, h, eq_nil_of_full h.nodup (fun p hp => isPureAt_lt (h.pure p hp)) (by omega)⟩
  | succ fuel ih =>
    cases hdead : s.dead with
    | nil => exact ⟨done, by simpa [Graph.cull, hdead] using h, by simp [Graph.cull, hdead]⟩
    | cons pos dead =>
      have hnot : s.removed.getD pos false = false := by
        rw [Bool.eq_false_iff, ne_eq, h.removed]
        exact h.not_mem hdead
      have hrest := ih (h.step hdead) (by rw [List.length_append, List.length_singleton]; omega)
      simpa only [Graph.cull, hdead, hnot, Bool.false_eq_true, if_false] using hrest

/-! ## Dead positions -/

/-- The positions that are removed, in list order. -/
def deadPositions (g : Graph) : List Nat :=
  (List.range g.order.length).filter (g.removed.getD · false)

theorem nodup_deadPositions (g : Graph) : g.deadPositions.Nodup := List.nodup_range.filter _

/-- What has been removed when nothing is left to remove. -/
theorem exists_culling (g : Graph) : ∃ s done, g.Culling s done ∧ s.dead = [] ∧
    s.removed = g.removed ∧ ∀ p, p ∈ g.deadPositions ↔ p ∈ done := by
  obtain ⟨done, h, hdead⟩ := g.culling_startCull.cull (Nat.le_add_right g.order.length _)
  refine ⟨_, done, h, hdead, rfl, fun p => ?_⟩
  rw [deadPositions, List.mem_filter, List.mem_range, removed, h.removed]
  exact and_iff_right_of_imp fun hp => isPureAt_lt (h.pure p (List.mem_append_right _ hp))

theorem getD_removed (g : Graph) (p : Nat) :
    g.removed.getD p false = g.deadPositions.contains p := by
  obtain ⟨s, done, h, -, hremoved, hmem⟩ := g.exists_culling
  rw [← hremoved, Bool.eq_iff_iff, h.removed, List.contains_iff_mem, hmem]

/-- A dead position is pure, and all that depends on it is dead. -/
theorem free_of_dead {p : Nat} (hp : p ∈ g.deadPositions) :
    g.isPureAt p ∧ ∀ q ∈ g.dependentsOf p, q ∈ g.deadPositions := by
  obtain ⟨s, done, h, -, -, hmem⟩ := g.exists_culling
  have hp := List.mem_append_right s.dead ((hmem p).1 hp)
  exact ⟨h.pure p hp, fun q hq => (hmem q).2 (h.free p hp q hq)⟩

theorem isLeast_deadPositions (g : Graph) :
    IsLeast {set | g.ClosedUp set} {p | p ∈ g.deadPositions} := by
  obtain ⟨s, done, h, hdead, -, hmem⟩ := g.exists_culling
  constructor
  · intro p hpure hfree
    have hp := h.found p hpure fun q hq => (hmem q).1 (hfree q hq)
    rw [hdead, List.nil_append] at hp
    exact (hmem p).2 hp
  · exact fun set hset p hp => h.least set hset p (List.mem_append_right _ ((hmem p).1 hp))

end Graph

end SynthGraph
