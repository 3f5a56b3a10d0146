import SynthGraph.Proofs.Cycles
import SynthGraph.Proofs.Precedence

/-!
# Sorting is topological

A node is stuck if it has to follow itself through others, or if it has to follow one that does.
Sorting puts every node behind those that it has to follow, and it fails exactly if some node is
stuck; it then reports the stuck nodes, in the order of the list, and no others.
-/

namespace SynthGraph

namespace Graph

variable {g : Graph} {a b p q : Nat}

/-- The node has to follow itself through others, or it has to follow one that does. -/
def Stuck (g : Graph) (id : Nat) : Prop :=
  ∃ a, Relation.TransGen g.Follows a a ∧ Relation.ReflTransGen g.Follows a id

/-! ## Nodes and their positions -/

theorem follows_of_awaits (h : g.constraints.Awaits p q) :
    g.Follows (g.order.getD p 0) (g.order.getD q 0) := by
  have hp := lt_of_awaits h
  have hq := h.lt_size
  rw [size_constraints] at hp hq
  exact ⟨p, q, by simp [List.getD, hp], by simp [List.getD, hq], h⟩

theorem awaits_of_follows (hn : g.order.Nodup) (h : g.Follows a b) :
    g.constraints.Awaits (g.order.idxOf a) (g.order.idxOf b) := by
  obtain ⟨p, q, hp, hq, hmem⟩ := h
  rw [idxOf_of_getElem? hn hp, idxOf_of_getElem? hn hq]
  exact hmem

theorem exists_awaits_loop_iff (hn : g.order.Nodup) :
    (∃ p, Relation.TransGen g.constraints.Awaits p p) ↔ ∃ a, Relation.TransGen g.Follows a a := by
  constructor
  · rintro ⟨p, hloop⟩
    exact ⟨_, Relation.TransGen.lift (g.order.getD · 0) (fun _ _ => follows_of_awaits) p p hloop⟩
  · rintro ⟨a, hloop⟩
    exact ⟨_, Relation.TransGen.lift g.order.idxOf (fun _ _ => awaits_of_follows hn) a a hloop⟩

theorem stuck_iff (hn : g.order.Nodup) (hp : g.order[p]? = some a) :
    g.constraints.Stuck p ↔ g.Stuck a := by
  constructor
  · rintro ⟨q, hloop, hpath⟩
    have hlift : ∀ x y, g.constraints.Awaits x y →
        g.Follows (g.order.getD x 0) (g.order.getD y 0) := fun _ _ => follows_of_awaits
    have hend := Relation.ReflTransGen.lift (g.order.getD · 0) hlift q p hpath
    rw [Function.onFun, show g.order.getD p 0 = a by simp [List.getD, hp]] at hend
    exact ⟨_, Relation.TransGen.lift (g.order.getD · 0) hlift q q hloop, hend⟩
  · rintro ⟨c, hloop, hpath⟩
    have hlift : ∀ x y, g.Follows x y →
        g.constraints.Awaits (g.order.idxOf x) (g.order.idxOf y) :=
      fun _ _ => awaits_of_follows hn
    have hend := Relation.ReflTransGen.lift g.order.idxOf hlift c a hpath
    rw [Function.onFun, idxOf_of_getElem? hn hp] at hend
    exact ⟨_, Relation.TransGen.lift g.order.idxOf hlift c c hloop, hend⟩

/-! ## What is left over -/

/-- The nodes that are missing from the schedule, in list order. -/
def leftOver (g : Graph) : List Nat :=
  (g.order.zipIdx.filter fun (_, pos) => !g.constraints.schedule.contains pos).map (·.1)

theorem leftOver_sublist (g : Graph) : g.leftOver.Sublist g.order := by
  have h : (g.order.zipIdx.map (·.1)) = g.order := by simp
  exact h ▸ List.filter_sublist.map _

theorem mem_leftOver (hn : g.order.Nodup) : a ∈ g.leftOver ↔ a ∈ g.order ∧ g.Stuck a := by
  have hpos : a ∈ g.leftOver ↔ ∃ p, g.order[p]? = some a ∧ p ∉ g.constraints.schedule := by
    simp [leftOver, List.mem_zipIdx_iff_getElem?]
  rw [hpos]
  constructor
  · rintro ⟨p, hp, hnot⟩
    have hlt : p < g.constraints.size := by
      rw [size_constraints]
      exact (List.getElem?_eq_some_iff.1 hp).1
    refine ⟨List.mem_of_getElem? hp, (stuck_iff hn hp).1 ?_⟩
    by_contra hfree
    exact hnot (Constraints.mem_schedule_of_not_stuck (fun _ _ => lt_of_awaits) hlt hfree)
  · rintro ⟨ha, hstuck⟩
    have hp := List.getElem?_idxOf ha
    refine ⟨_, hp, fun hmem => ?_⟩
    exact Constraints.not_stuck_of_mem_schedule hmem ((stuck_iff hn hp).2 hstuck)

theorem fault_of_sort {fault : Fault} (h : g.sort = .error fault) :
    fault = .cyclicGraph (g.leftOver.map fun id => (g.node id).className) := by
  unfold sort at h
  simp only at h
  split at h
  · cases h
  · obtain rfl := Except.error.inj h
    rw [leftOver, List.map_map]
    simp only [Constraints.queued_outcome]
    rfl

end Graph

/-- Sorting succeeds exactly if no node has to follow itself through others. If it does, it
rearranges the list so that every node comes after all that it has to follow. Otherwise there is no
new graph, and the fault lists, in the order of the list, the classes of the nodes that have to
follow themselves or others that do. -/
theorem sort_topological (g : Graph) (hn : g.order.Nodup) :
    ((∃ g', g.sort = .ok g') ↔ ∀ id, ¬Relation.TransGen g.Follows id id) ∧
    (∀ g', g.sort = .ok g' → g'.nodes = g.nodes ∧ g'.order.Perm g.order ∧
      ∀ a b, g.Follows a b → g'.Precedes a b) ∧
    ∀ fault, g.sort = .error fault → ∃ stuck : List Nat, stuck.Sublist g.order ∧
      (∀ id, id ∈ stuck ↔ id ∈ g.order ∧ g.Stuck id) ∧
      fault = .cyclicGraph (stuck.map fun id => (g.node id).className) := by
  refine ⟨?_, ?_, ?_⟩
  · rw [Graph.exists_sort_iff, ← not_exists, ← not_exists, Graph.exists_awaits_loop_iff hn]
  · intro g' hsort
    obtain ⟨-, hperm⟩ := Graph.sort_perm hsort
    obtain ⟨hbehind, hirrefl⟩ := Graph.sort_respects hn hsort
    refine ⟨?_, hperm, fun a b hab => ?_⟩
    · obtain ⟨-, rfl⟩ := Graph.sort_eq_ok hsort
      rfl
    · obtain ⟨p, q, hp, hq, -⟩ := id hab
      exact Graph.precedes_of_pairwise_not hbehind hirrefl
        (hperm.mem_iff.2 (List.mem_of_getElem? hp)) (hperm.mem_iff.2 (List.mem_of_getElem? hq)) hab
  · intro fault hsort
    exact ⟨g.leftOver, g.leftOver_sublist, fun id => Graph.mem_leftOver hn,
      Graph.fault_of_sort hsort⟩

/-- An oscillator and a filter that read each other, with an output behind them; `reader` says
whether the oscillator reads what the filter wrote one block earlier. The filter also reads a
width-first node twice. -/
def tangledGraph (reader : Bool) : Graph where
  nodes := #[
    { className := "In", rate := .audio },
    { className := "SetBuf", rate := .scalar, flags := { widthFirst := true } },
    { className := "SinOsc", rate := .audio, inputs := [.node ⟨3, 0⟩]
      flags := { feedbackReader := reader } },
    { className := "LPF", rate := .audio
      inputs := [.node ⟨1, 0⟩, .node ⟨2, 0⟩, .node ⟨1, 0⟩] },
    { className := "Out", rate := .audio, inputs := [.node ⟨3, 0⟩] },
    { className := "WhiteNoise", rate := .audio }]
  order := [0, 4, 2, 1, 3, 5]

/-- The fault names the output as well, which is on no cycle. -/
theorem tangledGraph_sorts : (∀ reader, (tangledGraph reader).order.Nodup) ∧
    (tangledGraph false).sort = .error (.cyclicGraph ["Out", "SinOsc", "LPF"]) ∧
    (∃ id, Relation.TransGen (tangledGraph false).Follows id id) ∧
    (∃ stuck : List Nat, stuck.Sublist (tangledGraph false).order ∧
      (∀ id, id ∈ stuck ↔ id ∈ (tangledGraph false).order ∧ (tangledGraph false).Stuck id) ∧
      Fault.cyclicGraph ["Out", "SinOsc", "LPF"] =
        .cyclicGraph (stuck.map fun id => ((tangledGraph false).node id).className)) ∧
    ∃ g', (tangledGraph true).sort = .ok g' ∧ g'.order = [0, 2, 1, 3, 4, 5] ∧
      ∀ a b, (tangledGraph true).Follows a b → g'.Precedes a b := by
  have hn : ∀ reader, (tangledGraph reader).order.Nodup := by decide
  have hfault : (tangledGraph false).sort = .error (.cyclicGraph ["Out", "SinOsc", "LPF"]) := by
    decide +kernel
  have horder : ((tangledGraph true).sort.toOption.map (·.order)) = some [0, 2, 1, 3, 4, 5] := by
    decide +kernel
  obtain ⟨hok, -, hstuck⟩ := sort_topological (tangledGraph false) (hn false)
  obtain ⟨g', hsort, hg'⟩ := exists_eq_ok_of_map_toOption horder
  refine ⟨hn, hfault, ?_, hstuck _ hfault, g', hsort, hg', ?_⟩
  · by_contra hnone
    obtain ⟨g', hg'⟩ := hok.2 (not_exists.1 hnone)
    rw [hfault] at hg'
    cases hg'
  · exact ((sort_topological (tangledGraph true) (hn true)).2.1 g' hsort).2.2

end SynthGraph
