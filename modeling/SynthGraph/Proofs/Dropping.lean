import Mathlib.Data.Set.Card
import Mathlib.Order.Bounds.Basic
import SynthGraph.Proofs.Cycles

/-!
# Dead nodes are a least fixed point

A set of positions is closed if it holds every pure node all of whose dependents it holds, and the
dead positions are the least closed set. A survivor needs survivors only, and what needs it
among the survivors still does when the list is shorter: the places of the nodes shift, but neither
their order nor the ways that lead to a feedback reader get more. So nothing dies anew.
-/

namespace SynthGraph.Graph

variable {g : Graph} {p q : Nat}

/-- The node at `q` reads the one at `p`, or it has to follow it because that one is width-first. -/
def DependsOn (g : Graph) (q p : Nat) : Prop :=
  ∃ id, g.order[q]? = some id ∧
    ((∃ ref ∈ (g.node id).refs, g.position? ref.ugen = some p) ∨
      p ∈ g.constraints.antecedentsOf q ∧
        ∃ first, g.order[p]? = some first ∧ (g.node first).flags.widthFirst)

/-- The set holds every pure node all of whose dependents it holds. -/
def DeadClosed (g : Graph) (set : Set Nat) : Prop :=
  ∀ p, g.isPureAt p → (∀ q, g.DependsOn q p → q ∈ set) → p ∈ set

theorem dependencies_of_getElem? {id : Nat} (hq : g.order[q]? = some id) :
    ∃ table, g.dependencies[q]? = some table ∧
      ∀ p, p ∈ table ↔ p ∈ g.constraints.antecedentsOf q ∨ p ∈ g.sources id := by
  have hget : g.dependencies[q]? = some (g.constraints.antecedentsOf q ++
      (g.sources id).filter (!(g.constraints.antecedentsOf q).contains ·)) := by
    simp [dependencies, hq]
    rfl
  refine ⟨_, hget, fun p => ?_⟩
  by_cases hbefore : p ∈ g.constraints.antecedentsOf q
  · simp [hbefore]
  · simp [hbefore]

theorem mem_dependentsOf_iff : q ∈ g.dependentsOf p ↔ g.DependsOn q p := by
  rw [dependentsOf, mem_consumers]
  constructor
  · rintro ⟨table, htable, hmem⟩
    have hlt : q < g.order.length := by
      have := (List.getElem?_eq_some_iff.1 htable).1
      simpa [dependencies] using this
    have hq := List.getElem?_eq_getElem hlt
    obtain ⟨table', htable', hiff⟩ := dependencies_of_getElem? hq
    obtain rfl : table = table' := Option.some.inj (htable.symm.trans htable')
    refine ⟨_, hq, ?_⟩
    rcases (hiff p).1 hmem with hbefore | hsource
    · rcases ((mem_antecedentsOf hq).1 hbefore).1 with hsource | hwidth
      · exact .inl (mem_sources.1 hsource)
      · exact .inr ⟨hbefore, (mem_widthFirstBefore.1 hwidth).2⟩
    · exact .inl (mem_sources.1 hsource)
  · rintro ⟨id, hq, hneeds⟩
    obtain ⟨table, htable, hiff⟩ := dependencies_of_getElem? hq
    refine ⟨table, htable, (hiff p).2 ?_⟩
    rcases hneeds with hreads | ⟨hbefore, -⟩
    · exact .inr (mem_sources.2 hreads)
    · exact .inl hbefore

/-- The dead positions are the least closed set. -/
theorem isLeast_deadClosed (g : Graph) :
    IsLeast {set | g.DeadClosed set} {p | p ∈ g.deadPositions} := by
  have hclosed : ∀ set, g.DeadClosed set ↔ g.ClosedUp set := fun set => by
    simp only [DeadClosed, ClosedUp, mem_dependentsOf_iff]
  simpa only [hclosed] using g.isLeast_deadPositions

/-- What a survivor depends on survives. -/
theorem not_dead_of_dependsOn (h : g.DependsOn q p) (hq : q ∉ g.deadPositions) :
    p ∉ g.deadPositions := by
  intro hp
  exact hq ((free_of_dead hp).2 q (mem_dependentsOf_iff.2 h))

/-! ## Survivors -/

/-- The positions of the survivors. -/
def keptPositions (g : Graph) : List Nat :=
  (List.range g.order.length).filter fun p => !g.deadPositions.contains p

theorem mem_keptPositions : p ∈ g.keptPositions ↔ p < g.order.length ∧ p ∉ g.deadPositions := by
  simp [keptPositions]

theorem pairwise_keptPositions (g : Graph) : g.keptPositions.Pairwise (· < ·) :=
  List.pairwise_lt_range.filter _

/-- The survivors are what stands at the positions that are kept. -/
theorem map_some_order_dropDead (g : Graph) :
    g.dropDead.2.order.map some = g.keptPositions.map (g.order[·]?) := by
  have hkept : g.keptPositions =
      (g.order.zipIdx.filter fun e => !g.deadPositions.contains e.2).map (·.2) := by
    have hrange : List.range g.order.length = g.order.zipIdx.map (·.2) := by
      simp [List.range_eq_range']
    rw [keptPositions, hrange, List.filter_map]
    rfl
  rw [order_dropDead, hkept, List.map_map, List.map_map]
  refine List.map_congr_left fun e hmem => ?_
  exact (List.mem_zipIdx_iff_getElem?.1 (List.mem_filter.1 hmem).1).symm

theorem order_dropDead_eq (g : Graph) :
    g.dropDead.2.order = g.keptPositions.filterMap (g.order[·]?) := by
  have h := congrArg (List.filterMap id) g.map_some_order_dropDead
  simpa [List.filterMap_map] using h

theorem length_order_dropDead (g : Graph) : g.dropDead.2.order.length = g.keptPositions.length := by
  simpa using congrArg List.length g.map_some_order_dropDead

theorem getElem?_order_dropDead {i : Nat} (hi : g.keptPositions[i]? = some p) :
    g.dropDead.2.order[i]? = g.order[p]? := by
  have h := congrArg (·[i]?) g.map_some_order_dropDead
  simp only [List.getElem?_map, hi, Option.map_some] at h
  obtain ⟨id, hid, heq⟩ := Option.map_eq_some_iff.1 h
  rw [hid, heq]

theorem exists_kept {i id : Nat} (hi : g.dropDead.2.order[i]? = some id) :
    ∃ p, g.keptPositions[i]? = some p ∧ g.order[p]? = some id := by
  have hlt : i < g.keptPositions.length := by
    rw [← length_order_dropDead]
    exact (List.getElem?_eq_some_iff.1 hi).1
  have hp := List.getElem?_eq_getElem hlt
  exact ⟨_, hp, by rw [← getElem?_order_dropDead hp, hi]⟩

/-- Survivors keep their order. -/
theorem kept_lt_iff {i j : Nat} (hi : g.keptPositions[i]? = some p)
    (hj : g.keptPositions[j]? = some q) : p < q ↔ i < j := by
  obtain ⟨hilt, rfl⟩ := List.getElem?_eq_some_iff.1 hi
  obtain ⟨hjlt, rfl⟩ := List.getElem?_eq_some_iff.1 hj
  exact g.pairwise_keptPositions.sortedLT.strictMono_get.lt_iff_lt (a := ⟨i, hilt⟩) (b := ⟨j, hjlt⟩)

theorem exists_place (hp : p < g.order.length) (hlive : p ∉ g.deadPositions) :
    ∃ i : Nat, g.keptPositions[i]? = some p :=
  List.getElem?_of_mem (mem_keptPositions.2 ⟨hp, hlive⟩)

theorem not_dead_of_kept {i : Nat} (hi : g.keptPositions[i]? = some p) : p ∉ g.deadPositions :=
  (mem_keptPositions.1 (List.mem_of_getElem? hi)).2

/-- What stands first among all still does among the survivors. -/
theorem position?_dropDead {i id : Nat} (hp : g.position? id = some p)
    (hi : g.keptPositions[i]? = some p) : g.dropDead.2.position? id = some i := by
  obtain ⟨hlt, hget, hfirst⟩ := List.idxOf?_eq_some_iff.1 hp
  have hplace : g.dropDead.2.order[i]? = some id := by
    rw [getElem?_order_dropDead hi, List.getElem?_eq_getElem hlt, hget]
  obtain ⟨hilt, higet⟩ := List.getElem?_eq_some_iff.1 hplace
  refine List.idxOf?_eq_some_iff.2 ⟨hilt, higet, fun j hj heq => ?_⟩
  obtain ⟨q, hq, hqget⟩ := exists_kept (List.getElem?_eq_some_iff.2 ⟨hj.trans hilt, heq⟩)
  have hqlt : q < p := (kept_lt_iff hq hi).2 hj
  exact hfirst q hqlt (List.getElem?_eq_some_iff.1 hqget).2

/-! ## Dependence among survivors -/

/-- A survivor reads the same survivors. -/
theorem mem_sources_dropDead {i j id : Nat} (hq : g.keptPositions[j]? = some q)
    (hid : g.order[q]? = some id) (hi : i ∈ g.dropDead.2.sources id) :
    ∃ p, g.keptPositions[i]? = some p ∧ p ∈ g.sources id := by
  obtain ⟨ref, href, hpos⟩ := mem_sources.1 hi
  -- the first node of this name is read in the whole graph too, so it survives
  have hmem : ref.ugen ∈ g.order := g.dropDead_sublist.subset
    (List.mem_of_getElem? (getElem?_of_idxOf? hpos))
  obtain ⟨p, hp⟩ := Option.isSome_iff_exists.1 (List.isSome_idxOf?.2 hmem)
  have hlive : p ∉ g.deadPositions :=
    not_dead_of_dependsOn ⟨id, hid, .inl ⟨ref, href, hp⟩⟩ (not_dead_of_kept hq)
  obtain ⟨i', hi'⟩ := exists_place (List.idxOf?_eq_some_iff.1 hp).1 hlive
  obtain rfl : i = i' := Option.some.inj (hpos.symm.trans (position?_dropDead hp hi'))
  exact ⟨p, hi', mem_sources.2 ⟨ref, href, hp⟩⟩

/-- No way leads from one survivor to another that was not there before. -/
theorem reachable_dropDead {i j : Nat} (hq : g.keptPositions[j]? = some q)
    (hp : g.keptPositions[i]? = some p) (h : i ∈ reachable g.dropDead.2.sourceTable j) :
    p ∈ reachable g.sourceTable q := by
  have hpath : Relation.ReflTransGen (fun p q => q ∈ consumers g.sourceTable p) q p := by
    have hshort := mem_reachable h
    clear h
    induction hshort generalizing p with
    | refl =>
      obtain rfl := Option.some.inj (hq.symm.trans hp)
      exact .refl
    | tail _ hstep ih =>
      obtain ⟨sources, hget, hmem⟩ := mem_consumers.1 hstep
      rw [sourceTable, List.getElem?_map] at hget
      obtain ⟨id, hid, rfl⟩ := Option.map_eq_some_iff.1 hget
      rw [getElem?_order_dropDead hp] at hid
      obtain ⟨r, hr, hsource⟩ := mem_sources_dropDead hp hid hmem
      refine (ih hr).tail (mem_consumers.2 ⟨g.sources id, ?_, hsource⟩)
      rw [sourceTable, List.getElem?_map, hid, Option.map_some]
  refine mem_reachable_of_path ?_ hpath
  rw [sourceTable, List.length_map]
  exact (mem_keptPositions.1 (List.mem_of_getElem? hq)).1

theorem DependsOn.dropDead {i j : Nat} (h : g.DependsOn q p) (hq : g.keptPositions[j]? = some q)
    (hp : g.keptPositions[i]? = some p) : g.dropDead.2.DependsOn j i := by
  obtain ⟨id, hid, hneeds⟩ := h
  have hj : g.dropDead.2.order[j]? = some id := by rw [getElem?_order_dropDead hq, hid]
  have hreads : (∃ ref ∈ (g.node id).refs, g.position? ref.ugen = some p) →
      ∃ ref ∈ (g.dropDead.2.node id).refs, g.dropDead.2.position? ref.ugen = some i := by
    rintro ⟨ref, href, hpos⟩
    exact ⟨ref, href, position?_dropDead hpos hp⟩
  refine ⟨id, hj, ?_⟩
  rcases hneeds with hread | ⟨hbefore, first, hfirst, hwidth⟩
  · exact .inl (hreads hread)
  · obtain ⟨hwhy, hfeedback⟩ := (mem_antecedentsOf hid).1 hbefore
    rcases hwhy with hsource | hlisted
    · exact .inl (hreads (mem_sources.1 hsource))
    · have hi : g.dropDead.2.order[i]? = some first := by rw [getElem?_order_dropDead hp, hfirst]
      have hlt : i < j := (kept_lt_iff hp hq).1 (mem_widthFirstBefore.1 hlisted).1
      refine .inr ⟨(mem_antecedentsOf hj).2 ⟨.inr ?_, fun hreader hmem => ?_⟩, first, hi, hwidth⟩
      · exact mem_widthFirstBefore.2 ⟨hlt, first, hi, hwidth⟩
      · exact hfeedback hreader (reachable_dropDead hq hp hmem)

/-- Whatever survives is impure or needed by a survivor, so nothing more is dead. -/
theorem deadClosed_dropDead (g : Graph) : g.dropDead.2.DeadClosed ∅ := by
  intro i hpure hneeds
  obtain ⟨p, hp, hget⟩ := exists_kept (List.getElem?_eq_getElem (isPureAt_lt hpure))
  have hpureAt : g.isPureAt p := by
    have hi := getElem?_order_dropDead hp
    simp only [isPureAt, hi] at hpure ⊢
    exact hpure
  -- `p` is not dead, so some position that depends on it is not
  have hneeded : ∃ q, g.DependsOn q p ∧ q ∉ g.deadPositions := by
    by_contra hnone
    push Not at hnone
    exact not_dead_of_kept hp (g.isLeast_deadClosed.1 p hpureAt hnone)
  obtain ⟨q, hq, hlive⟩ := hneeded
  obtain ⟨j, hj⟩ := exists_place (List.getElem?_eq_some_iff.1 hq.choose_spec.1).1 hlive
  exact hneeds j (hq.dropDead hj hp)

theorem deadPositions_dropDead (g : Graph) : g.dropDead.2.deadPositions = [] :=
  List.eq_nil_iff_forall_not_mem.2 fun _ hp =>
    g.dropDead.2.isLeast_deadClosed.2 g.deadClosed_dropDead hp

theorem dropDead_of_deadPositions (h : g.deadPositions = []) : g.dropDead = (0, g) := by
  have horder : g.dropDead.2.order = g.order := by
    rw [order_dropDead, h]
    simp
  have hfst : g.dropDead.1 = g.order.length - g.dropDead.2.order.length := rfl
  have hsnd : g.dropDead.2 = { g with order := g.dropDead.2.order } := rfl
  refine Prod.ext ?_ ?_
  · rw [hfst, horder, Nat.sub_self]
  · rw [hsnd, horder]

/-- Every position is dead or kept. -/
theorem length_keptPositions (g : Graph) :
    g.keptPositions.length + g.deadPositions.length = g.order.length := by
  have hdead : g.deadPositions = (List.range g.order.length).filter (g.deadPositions.contains ·) :=
    List.filter_congr fun p _ => g.getD_removed p
  have hsplit := List.length_eq_length_filter_add (l := List.range g.order.length)
    (g.deadPositions.contains ·)
  rw [← hdead, List.length_range] at hsplit
  rw [keptPositions, Nat.add_comm]
  exact hsplit.symm

end SynthGraph.Graph

namespace SynthGraph

/-- Exactly the least closed set is dropped. The survivors keep their contents and their order, they
refer to no dropped node, and a second pass drops nothing. -/
theorem dropDead_drops_least (g : Graph) : ∃ dead : Set Nat,
    IsLeast {set | g.DeadClosed set} dead ∧
      (∃ kept : List Nat, kept.Pairwise (· < ·) ∧
        (∀ p, p ∈ kept ↔ p < g.order.length ∧ p ∉ dead) ∧
        g.dropDead = (dead.ncard, { g with order := kept.filterMap (g.order[·]?) })) ∧
      (∀ id ∈ g.dropDead.2.order, ∀ ref ∈ (g.node id).refs,
        ref.ugen ∈ g.order → ref.ugen ∈ g.dropDead.2.order) ∧
      g.dropDead.2.dropDead = (0, g.dropDead.2) := by
  refine ⟨{p | p ∈ g.deadPositions}, g.isLeast_deadClosed, ?_, ?_, ?_⟩
  · refine ⟨g.keptPositions, g.pairwise_keptPositions, fun p => Graph.mem_keptPositions, ?_⟩
    refine Prod.ext ?_ ?_
    · have hcount : g.dropDead.1 = g.order.length - g.dropDead.2.order.length := rfl
      have hcard : {p | p ∈ g.deadPositions}.ncard = g.deadPositions.length := by
        rw [← List.toFinset_card_of_nodup g.nodup_deadPositions, ← Set.ncard_coe_finset,
          List.coe_toFinset]
      have hlength := g.length_keptPositions
      rw [hcount, hcard, g.length_order_dropDead]
      omega
    · rw [← g.order_dropDead_eq]
      rfl
  · intro id hid ref href hmem
    obtain ⟨q, hq, hlive⟩ := Graph.mem_dropDead.1 hid
    obtain ⟨p, hp⟩ := Option.isSome_iff_exists.1 (List.isSome_idxOf?.2 hmem)
    refine Graph.mem_dropDead.2 ⟨p, getElem?_of_idxOf? hp, ?_⟩
    exact Graph.not_dead_of_dependsOn ⟨id, hq, .inl ⟨ref, href, hp⟩⟩ hlive
  · exact Graph.dropDead_of_deadPositions g.deadPositions_dropDead

end SynthGraph
