import Mathlib.Data.List.Cycle
import Mathlib.Order.WellFoundedSet
import SynthGraph.Proofs.Schedule

/-!
# When sorting succeeds

Emission stops only when every position that is left waits for another one that is left. So a
schedule is complete exactly if no position waits for itself through others. In a graph without
width-first nodes this says that every cycle of references has a feedback reader on it: a reader
does not wait for what depends on it, and along a cycle everything depends on everything.
-/

namespace SynthGraph

/-! ## Schedules -/

namespace Constraints

variable {c : Constraints}

/-- The position `q` waits for `p`. -/
def Awaits (c : Constraints) (p q : Nat) : Prop := p ∈ c.antecedentsOf q

theorem Awaits.lt_size {p q : Nat} (h : c.Awaits p q) : q < c.size := by
  by_contra hge
  have hnone : c.antecedents[q]? = none := List.getElem?_eq_none (Nat.le_of_not_lt hge)
  simp [Awaits, antecedentsOf, List.getD, hnone] at h

/-- Emission goes on until no position that is left is free. -/
theorem Emitting.mem_emit {fuel : Nat} {free emitted : List Nat} (h : c.Emitting free emitted)
    (hfuel : c.size ≤ fuel + emitted.length)
    (hfree : ∀ p < c.size, c.isFree emitted p → p ∈ free ++ emitted) {p : Nat} (hp : p < c.size)
    (hready : c.isFree (c.emit fuel free emitted) p) : p ∈ c.emit fuel free emitted := by
  induction fuel generalizing free emitted with
  | zero =>
    obtain rfl := eq_nil_of_full h.nodup h.bound (by omega)
    exact hfree p hp hready
  | succ fuel ih =>
    cases free with
    | nil => exact hfree p hp hready
    | cons pos free =>
      refine ih h.step (by rw [List.length_append, List.length_singleton]; omega) ?_ hready
      intro q hq hnow
      by_cases hbefore : c.isFree emitted q
      · have := hfree q hq hbefore
        simp only [List.mem_append, List.mem_cons, List.not_mem_nil, or_false] at this ⊢
        tauto
      -- what was not free before waited for `pos`
      · have hpos : pos ∈ c.antecedentsOf q := by
          by_contra hnot
          refine hbefore (isFree_iff.2 fun a ha => ?_)
          rcases List.mem_append.1 (isFree_iff.1 hnow a ha) with hmem | hmem
          · exact hmem
          · exact absurd (List.mem_singleton.1 hmem ▸ ha) hnot
        have hfreed : q ∈ (c.descendants pos).filter (c.isFree (emitted ++ [pos])) :=
          List.mem_filter.2 ⟨mem_descendants.2 ⟨hq, hpos⟩, hnow⟩
        exact List.mem_append_left _ (List.mem_append_left _ hfreed)

theorem mem_schedule {p : Nat} (hp : p < c.size) (hready : c.isFree c.schedule p) :
    p ∈ c.schedule := by
  rw [schedule_eq_emit] at hready ⊢
  refine c.emitting_start.mem_emit (by simp) ?_ hp hready
  intro q hq hfree
  simp [hq, hfree]

theorem idxOf_lt_of_awaits {p q : Nat} (hq : q ∈ c.schedule) (h : c.Awaits p q) :
    p ∈ c.schedule ∧ c.schedule.idxOf p < c.schedule.idxOf q := by
  obtain ⟨rest, hemit⟩ := c.emitting_schedule
  have hp : p ∈ c.schedule := isFree_iff.1 (hemit.ready q (List.mem_append_right _ hq)) p h
  have hr := c.respects_schedule
  have hlt := lt_of_pairwise_not (R := fun p q => p ∈ c.schedule ∧ c.Awaits p q)
    (hr.behind.imp fun hnot hpq => hnot hpq.2) (fun r hrr => hr.irrefl r hrr.1 hrr.2)
    (List.getElem?_idxOf hp) (List.getElem?_idxOf hq) ⟨hp, h⟩
  exact ⟨hp, hlt⟩

theorem idxOf_lt_of_transGen {p q : Nat} (hq : q ∈ c.schedule)
    (h : Relation.TransGen c.Awaits p q) :
    p ∈ c.schedule ∧ c.schedule.idxOf p < c.schedule.idxOf q := by
  induction h with
  | single h => exact idxOf_lt_of_awaits hq h
  | tail _ h ih =>
    obtain ⟨hmid, hlt⟩ := idxOf_lt_of_awaits hq h
    exact ⟨(ih hmid).1, (ih hmid).2.trans hlt⟩

/-- The position waits for itself through others, or it waits for one that does. -/
def Stuck (c : Constraints) (p : Nat) : Prop :=
  ∃ a, Relation.TransGen c.Awaits a a ∧ Relation.ReflTransGen c.Awaits a p

theorem not_stuck_of_mem_schedule {p : Nat} (hp : p ∈ c.schedule) : ¬c.Stuck p := by
  rintro ⟨a, hloop, hpath⟩
  have ha : a ∈ c.schedule := by
    rcases Relation.reflTransGen_iff_eq_or_transGen.1 hpath with rfl | hpath
    · exact hp
    · exact (idxOf_lt_of_transGen hp hpath).1
  exact Nat.lt_irrefl _ (idxOf_lt_of_transGen ha hloop).2

theorem mem_schedule_of_not_stuck (hbound : ∀ p q, c.Awaits p q → p < c.size) {p : Nat}
    (hp : p < c.size) (h : ¬c.Stuck p) : p ∈ c.schedule := by
  -- among the positions that are not stuck, waiting is a strict order
  have : IsStrictOrder Nat fun a b => Relation.TransGen c.Awaits a b ∧ ¬c.Stuck b :=
    { irrefl := fun a ha => ha.2 ⟨a, ha.1, .refl⟩
      trans := fun _ _ _ hab hbd => ⟨hab.1.trans hbd.1, hbd.2⟩ }
  have hfounded := (Set.finite_lt_nat c.size).wellFoundedOn
    (r := fun a b => Relation.TransGen c.Awaits a b ∧ ¬c.Stuck b)
  revert h
  refine hfounded.induction (P := fun q => ¬c.Stuck q → q ∈ c.schedule) hp ?_
  intro q hq ih hfree
  refine mem_schedule hq (isFree_iff.2 fun a ha => ?_)
  refine ih a (hbound a q ha) ⟨.single ha, hfree⟩ ?_
  rintro ⟨b, hloop, hpath⟩
  exact hfree ⟨b, hloop, hpath.tail ha⟩

theorem mem_schedule_iff (hbound : ∀ p q, c.Awaits p q → p < c.size) {p : Nat} :
    p ∈ c.schedule ↔ p < c.size ∧ ¬c.Stuck p :=
  ⟨fun hp => ⟨lt_of_mem_schedule hp, not_stuck_of_mem_schedule hp⟩,
    fun hp => mem_schedule_of_not_stuck hbound hp.1 hp.2⟩

theorem length_schedule_eq_iff (hbound : ∀ p q, c.Awaits p q → p < c.size) :
    c.schedule.length = c.size ↔ ∀ p, ¬Relation.TransGen c.Awaits p p := by
  constructor
  · intro hlen p hloop
    have hp : p < c.size := by
      obtain ⟨q, -, hq⟩ := Relation.TransGen.tail'_iff.1 hloop
      exact hq.lt_size
    exact not_stuck_of_mem_schedule ((perm_schedule hlen).mem_iff.2 (List.mem_range.2 hp))
      ⟨p, hloop, .refl⟩
  · intro hacyclic
    have hperm : c.schedule.Perm (List.range c.size) := by
      rw [List.perm_ext_iff_of_nodup c.nodup_schedule List.nodup_range]
      intro p
      rw [mem_schedule_iff hbound, List.mem_range]
      exact and_iff_left fun ⟨a, hloop, _⟩ => hacyclic a hloop
    rw [hperm.length_eq, List.length_range]

end Constraints

/-! ## What depends on a position -/

/-- What holds while the consumers of positions are looked for. -/
structure Exploring (table : List (List Nat)) (done frontier : List Nat) : Prop where
  nodup : (done ++ frontier).Nodup
  bound : ∀ p ∈ done ++ frontier, p < table.length
  closed : ∀ p ∈ done, ∀ q ∈ consumers table p, q ∈ done ++ frontier

variable {table : List (List Nat)}

theorem Exploring.step {pos : Nat} {done frontier : List Nat}
    (h : Exploring table done (pos :: frontier)) :
    Exploring table (done ++ [pos]) (frontier ++
      (consumers table pos).filter (!(done ++ pos :: frontier).contains ·)) := by
  have hsplit : ∀ new : List Nat,
      done ++ [pos] ++ (frontier ++ new) = (done ++ pos :: frontier) ++ new := by
    intro new
    simp
  constructor
  case nodup =>
    rw [hsplit, List.nodup_append]
    refine ⟨h.nodup, (nodup_consumers _ _).filter _, ?_⟩
    rintro a ha b hb rfl
    simpa [ha] using (List.mem_filter.1 hb).2
  case bound =>
    intro p hp
    rw [hsplit, List.mem_append] at hp
    rcases hp with hp | hp
    · exact h.bound p hp
    · obtain ⟨sources, hget, -⟩ := mem_consumers.1 (List.mem_filter.1 hp).1
      exact (List.getElem?_eq_some_iff.1 hget).1
  case closed =>
    intro p hp q hq
    rw [hsplit, List.mem_append]
    rcases List.mem_append.1 hp with hp | hp
    · exact .inl (h.closed p hp q hq)
    · rw [List.mem_singleton.1 hp] at hq
      by_cases hseen : q ∈ done ++ pos :: frontier
      · exact .inl hseen
      · exact .inr (List.mem_filter.2 ⟨hq, by simpa using hseen⟩)

theorem Exploring.closed_reach {fuel : Nat} {done frontier : List Nat}
    (h : Exploring table done frontier) (hfuel : table.length ≤ fuel + done.length) :
    done ++ frontier ⊆ reach table fuel frontier (done ++ frontier) ∧
      ∀ p ∈ reach table fuel frontier (done ++ frontier), ∀ q ∈ consumers table p,
        q ∈ reach table fuel frontier (done ++ frontier) := by
  have hdone : ∀ {done}, Exploring table done [] →
      ∀ p ∈ done ++ [], ∀ q ∈ consumers table p, q ∈ done ++ [] := by
    intro done h p hp
    exact h.closed p (by simpa using hp)
  induction fuel generalizing done frontier with
  | zero =>
    have hnodup : (frontier ++ done).Nodup := List.perm_append_comm.nodup_iff.1 h.nodup
    have hbound : ∀ p ∈ frontier ++ done, p < table.length := fun p hp =>
      h.bound p (List.perm_append_comm.mem_iff.1 hp)
    obtain rfl := eq_nil_of_full hnodup hbound (by omega)
    exact ⟨List.Subset.refl _, hdone h⟩
  | succ fuel ih =>
    cases frontier with
    | nil => exact ⟨List.Subset.refl _, hdone h⟩
    | cons pos frontier =>
      have hnext := ih h.step (by rw [List.length_append, List.length_singleton]; omega)
      simp only [List.append_assoc, List.singleton_append] at hnext
      unfold reach
      simp only [List.append_assoc, List.cons_append] at hnext ⊢
      refine ⟨fun p hp => hnext.1 ?_, hnext.2⟩
      rw [← List.cons_append, ← List.append_assoc]
      exact List.mem_append_left _ hp

theorem mem_reachable_of_path {start pos : Nat} (hstart : start < table.length)
    (h : Relation.ReflTransGen (fun p q => q ∈ consumers table p) start pos) :
    pos ∈ reachable table start := by
  have hstart : Exploring table [] [start] := by
    constructor
    · simp
    · simpa using hstart
    · simp
  obtain ⟨hkept, hclosed⟩ := hstart.closed_reach (show table.length ≤ table.length + 1 + 0 by omega)
  induction h with
  | refl => exact hkept (by simp)
  | tail _ hstep ih => exact hclosed _ ih _ hstep

/-! ## Cycles -/

section Cycles

variable {α : Type} {R S : α → α → Prop} {P : α → Prop}

/-- There is a cycle of elements with a property exactly if something comes back to itself along
them. -/
theorem exists_cycle_iff :
    (∃ cycle : Cycle α, cycle ≠ .nil ∧ cycle.Chain R ∧ ∀ a ∈ cycle, P a) ↔
      ∃ a, Relation.TransGen (fun a b => R a b ∧ P b) a a := by
  have hloops : ∀ {cycle : Cycle α}, cycle.Chain (fun a b => R a b ∧ P b) → ∀ a ∈ cycle,
      Relation.TransGen (fun a b => R a b ∧ P b) a a := by
    intro cycle hchain a ha
    have hpaths : cycle.Chain (Relation.TransGen fun a b => R a b ∧ P b) :=
      hchain.imp fun _ _ h => .single h
    exact Cycle.chain_iff_pairwise.1 hpaths a ha a ha
  constructor
  · rintro ⟨cycle, hne, hchain, hall⟩
    induction cycle with
    | nil => exact absurd rfl hne
    | cons a l =>
      rw [Cycle.chain_coe_cons] at hchain
      refine ⟨a, @hloops (a :: l : List α) ?_ a (by simp)⟩
      rw [Cycle.chain_coe_cons]
      refine hchain.imp_of_mem_tail_imp ?_
      intro x y _ hy hxy
      exact ⟨hxy, hall y (by simpa [or_comm] using hy)⟩
  · rintro ⟨a, hloop⟩
    obtain ⟨b, hab, hback⟩ := Relation.TransGen.head'_iff.1 hloop
    obtain ⟨l, hpath, hlast⟩ := List.exists_isChain_cons_of_relationReflTransGen hback
    have hchain : Cycle.Chain (fun a b => R a b ∧ P b) (b :: l : List α) := by
      rw [Cycle.chain_ne_nil _ (List.cons_ne_nil b l), hlast]
      exact List.isChain_cons_cons.2 ⟨hab, hpath⟩
    refine ⟨(b :: l : List α), by simp, hchain.imp fun _ _ => And.left, ?_⟩
    intro x hx
    obtain ⟨y, -, -, hPx⟩ := Relation.TransGen.tail'_iff.1 (hloops hchain x hx)
    exact hPx

/-- On the way back to where it came from, `R` takes only steps of `S`. -/
theorem transGen_of_loop (h : ∀ a b, R a b → Relation.ReflTransGen R b a → S a b) {a b : α}
    (hab : Relation.TransGen R a b) (hback : Relation.ReflTransGen R b a) :
    Relation.TransGen S a b := by
  induction hab with
  | single hstep => exact .single (h _ _ hstep hback)
  | tail hpath hstep ih =>
    exact (ih (hback.head hstep)).tail (h _ _ hstep (hback.trans hpath.to_reflTransGen))

end Cycles

namespace Graph

variable {g : Graph} {a b p q : Nat}

theorem position?_of_mem (h : a ∈ g.order) : g.position? a = some (g.order.idxOf a) := by
  obtain ⟨p, hp⟩ := Option.isSome_iff_exists.1 (List.isSome_idxOf?.2 h)
  rw [position?, List.idxOf_eq_getD_idxOf?, hp, Option.getD_some]

theorem lt_of_awaits (h : g.constraints.Awaits p q) : p < g.constraints.size := by
  have hq := h.lt_size
  rw [size_constraints] at hq ⊢
  obtain ⟨hp | hp, -⟩ := (mem_antecedentsOf (List.getElem?_eq_getElem hq)).1 h
  · obtain ⟨ref, -, hpos⟩ := mem_sources.1 hp
    exact (List.idxOf?_eq_some_iff.1 hpos).1
  · exact (mem_widthFirstBefore.1 hp).1.trans hq

theorem exists_sort_iff (g : Graph) :
    (∃ g', g.sort = .ok g') ↔ ∀ p, ¬Relation.TransGen g.constraints.Awaits p p := by
  have hok : (∃ g', g.sort = .ok g') ↔
      g.constraints.schedule.length = g.constraints.size := by
    unfold sort
    simp only [size_constraints, Constraints.schedule]
    split
    · next hlen => simp [hlen]
    · next hlen => simp [hlen]
  rw [hok, Constraints.length_schedule_eq_iff fun p q => lt_of_awaits]

/-- The live node `b` reads the live node `a`. -/
def Links (g : Graph) (a b : Nat) : Prop := a ∈ g.order ∧ g.Feeds a b

theorem awaits_of_links (h : g.Links a b) (hreader : (g.node b).flags.feedbackReader = false) :
    g.constraints.Awaits (g.order.idxOf a) (g.order.idxOf b) := by
  obtain ⟨ha, hb, ref, href, rfl⟩ := h
  refine (mem_antecedentsOf (List.getElem?_idxOf hb)).2 ⟨.inl ?_, by simp [hreader]⟩
  exact mem_sources.2 ⟨ref, href, position?_of_mem ha⟩

/-- Without width-first nodes, all that a position waits for is read, and depends on no reader
there. -/
theorem links_of_awaits (hwidth : ∀ id ∈ g.order, (g.node id).flags.widthFirst = false)
    (h : g.constraints.Awaits p q) : ∃ a b, g.order[p]? = some a ∧ g.order[q]? = some b ∧
      g.Links a b ∧ q ∈ consumers g.sourceTable p ∧
      ((g.node b).flags.feedbackReader → p ∉ reachable g.sourceTable q) := by
  have hq := h.lt_size
  rw [size_constraints] at hq
  have hb := List.getElem?_eq_getElem hq
  obtain ⟨hsource | hbefore, hreader⟩ := (mem_antecedentsOf hb).1 h
  · obtain ⟨ref, href, hpos⟩ := mem_sources.1 hsource
    have ha : g.order[p]? = some ref.ugen := getElem?_of_idxOf? hpos
    refine ⟨ref.ugen, _, ha, hb, ⟨List.mem_of_getElem? ha, List.mem_of_getElem? hb, ref, href, rfl⟩,
      mem_consumers.2 ⟨_, ?_, hsource⟩, hreader⟩
    rw [sourceTable, List.getElem?_map, hb, Option.map_some]
  · obtain ⟨-, id, hid, hflag⟩ := mem_widthFirstBefore.1 hbefore
    rw [hwidth id (List.mem_of_getElem? hid)] at hflag
    cases hflag

theorem not_reader_of_loop (hwidth : ∀ id ∈ g.order, (g.node id).flags.widthFirst = false)
    (h : g.constraints.Awaits p q) (hback : Relation.ReflTransGen g.constraints.Awaits q p)
    (hb : g.order[q]? = some b) : (g.node b).flags.feedbackReader = false := by
  obtain ⟨-, b', -, hb', -, -, hreader⟩ := links_of_awaits hwidth h
  obtain rfl := Option.some.inj (hb.symm.trans hb')
  have hlt : q < g.sourceTable.length := by
    rw [sourceTable, List.length_map]
    exact (List.getElem?_eq_some_iff.1 hb).1
  have hpath : Relation.ReflTransGen (fun p q => q ∈ consumers g.sourceTable p) q p := by
    refine Relation.ReflTransGen.mono (r := g.constraints.Awaits) ?_ q p hback
    intro x y hxy
    obtain ⟨-, -, -, -, -, hconsumer, -⟩ := links_of_awaits hwidth hxy
    exact hconsumer
  rw [← Bool.not_eq_true]
  exact fun hflag => hreader hflag (mem_reachable_of_path hlt hpath)

theorem exists_loop_iff (hwidth : ∀ id ∈ g.order, (g.node id).flags.widthFirst = false) :
    (∃ p, Relation.TransGen g.constraints.Awaits p p) ↔
      ∃ a, Relation.TransGen
        (fun a b => g.Links a b ∧ (g.node b).flags.feedbackReader = false) a a := by
  constructor
  · rintro ⟨p, hloop⟩
    let clear (p q : Nat) := ∃ a b, g.order[p]? = some a ∧ g.order[q]? = some b ∧ g.Links a b ∧
      (g.node b).flags.feedbackReader = false
    have hclear : Relation.TransGen clear p p := by
      refine transGen_of_loop ?_ hloop .refl
      intro x y hxy hback
      obtain ⟨a, b, ha, hb, hlinks, -, -⟩ := links_of_awaits hwidth hxy
      exact ⟨a, b, ha, hb, hlinks, not_reader_of_loop hwidth hxy hback hb⟩
    refine ⟨g.order.getD p 0, Relation.TransGen.lift (g.order.getD · 0) ?_ p p hclear⟩
    rintro x y ⟨a, b, ha, hb, hlinks⟩
    simpa [Function.onFun, List.getD, ha, hb] using hlinks
  · rintro ⟨a, hloop⟩
    refine ⟨g.order.idxOf a, Relation.TransGen.lift g.order.idxOf ?_ a a hloop⟩
    exact fun x y hxy => awaits_of_links hxy.1 hxy.2

end Graph

/-- Without width-first nodes, sorting succeeds exactly if every cycle of live nodes that read each
other has a feedback reader on it. -/
theorem sort_succeeds_iff (g : Graph)
    (hwidth : ∀ id ∈ g.order, (g.node id).flags.widthFirst = false) :
    (∃ g', g.sort = .ok g') ↔ ∀ cycle : Cycle Nat, cycle ≠ .nil → cycle.Chain g.Links →
      ∃ id ∈ cycle, (g.node id).flags.feedbackReader := by
  rw [Graph.exists_sort_iff, ← not_exists, Graph.exists_loop_iff hwidth, ← exists_cycle_iff]
  constructor
  · intro hnone cycle hne hchain
    by_contra hclear
    refine hnone ⟨cycle, hne, hchain, fun id hid => ?_⟩
    rw [← Bool.not_eq_true]
    exact fun hreader => hclear ⟨id, hid, hreader⟩
  · rintro h ⟨cycle, hne, hchain, hclear⟩
    obtain ⟨id, hid, hreader⟩ := h cycle hne hchain
    rw [hclear id hid] at hreader
    cases hreader

/-- A feedback reader, a delay that reads it, a filter that reads the delay, and a mixer that reads
the filter; filter and mixer feed the reader. All stand in the wrong order. -/
def echoGraph : Graph where
  nodes := #[
    { className := "LocalIn", rate := .audio, flags := { feedbackReader := true }
      inputs := [.node ⟨2, 0⟩, .node ⟨3, 0⟩] },
    { className := "DelayN", rate := .audio, inputs := [.node ⟨0, 0⟩] },
    { className := "LPF", rate := .audio, inputs := [.node ⟨1, 0⟩, .constant 440] },
    { className := "MulAdd", rate := .audio, inputs := [.node ⟨2, 0⟩, .constant 2, .node ⟨1, 0⟩] }]
  order := [3, 2, 1, 0]

/-- The graph sorts, so both of its loops go through the reader. -/
theorem echoGraph_sorts : (∀ id ∈ echoGraph.order, (echoGraph.node id).flags.widthFirst = false) ∧
    (echoGraph.sort.toOption.map (·.order)) = some [0, 1, 2, 3] ∧
    ∀ cycle : Cycle Nat, cycle ≠ .nil → cycle.Chain echoGraph.Links →
      ∃ id ∈ cycle, (echoGraph.node id).flags.feedbackReader := by
  have hwidth : ∀ id ∈ echoGraph.order, (echoGraph.node id).flags.widthFirst = false := by
    decide
  have horder : (echoGraph.sort.toOption.map (·.order)) = some [0, 1, 2, 3] := by
    decide +kernel
  obtain ⟨g', hg', -⟩ := exists_eq_ok_of_map_toOption horder
  exact ⟨hwidth, horder, (sort_succeeds_iff echoGraph hwidth).1 ⟨g', hg'⟩⟩

end SynthGraph
