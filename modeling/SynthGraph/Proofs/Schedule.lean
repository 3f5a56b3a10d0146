import Mathlib.Logic.Relation
import SynthGraph.Proofs.Liveness

/-!
# Sorting respects the constraints

A position is emitted when all its antecedents have been, so in a schedule every position stands
behind its antecedents. For the nodes this says that a node stands behind those it reads and behind
the width-first nodes listed before it. The one exception is a feedback reader that these depend on,
and what is found to depend on it does so along references.
-/

namespace SynthGraph

/-! ## Schedules -/

namespace Constraints

variable {c : Constraints}

/-- No position is its own antecedent or stands before one of its antecedents. -/
structure Respects (c : Constraints) (positions : List Nat) : Prop where
  behind : positions.Pairwise fun p q => q ∉ c.antecedentsOf p
  irrefl : ∀ p ∈ positions, p ∉ c.antecedentsOf p

theorem Emitting.respects_snoc {pos : Nat} {free emitted : List Nat}
    (h : c.Emitting (pos :: free) emitted) (hr : c.Respects emitted) :
    c.Respects (emitted ++ [pos]) := by
  have hpos : pos ∉ emitted := fun hmem =>
    (List.nodup_append.1 h.nodup).2.2 pos List.mem_cons_self pos hmem rfl
  -- all antecedents of what is emitted now or was emitted before are among `emitted`
  have hready : ∀ p ∈ emitted ++ [pos], ∀ a ∈ c.antecedentsOf p, a ∈ emitted := by
    intro p hp
    refine isFree_iff.1 (h.ready p ?_)
    rcases List.mem_append.1 hp with hp | hp
    · exact List.mem_append_right _ hp
    · rw [List.mem_singleton.1 hp]
      exact List.mem_cons_self
  constructor
  · refine List.pairwise_append.2 ⟨hr.behind, List.pairwise_singleton _ _, fun p hp q hq hmem => ?_⟩
    rw [List.mem_singleton.1 hq] at hmem
    exact hpos (hready p (List.mem_append_left _ hp) pos hmem)
  · intro p hp hmem
    rcases List.mem_append.1 hp with hold | hnew
    · exact hr.irrefl p hold hmem
    · rw [List.mem_singleton.1 hnew] at hmem hp
      exact hpos (hready pos hp pos hmem)

theorem Emitting.respects_emit {fuel : Nat} {free emitted : List Nat} (h : c.Emitting free emitted)
    (hr : c.Respects emitted) : c.Respects (c.emit fuel free emitted) := by
  induction fuel generalizing free emitted with
  | zero => exact hr
  | succ fuel ih =>
    cases free with
    | nil => exact hr
    | cons pos free => exact ih h.step (h.respects_snoc hr)

theorem respects_schedule (c : Constraints) : c.Respects c.schedule := by
  rw [schedule_eq_emit]
  exact c.emitting_start.respects_emit ⟨.nil, by simp⟩

end Constraints

/-! ## What depends on a position -/

/-- What is found on the way from `start` depends on it. -/
theorem mem_reach {table : List (List Nat)} {start fuel : Nat} {frontier seen : List Nat}
    (hfrontier : ∀ p ∈ frontier, Relation.ReflTransGen (fun p q => q ∈ consumers table p) start p)
    (hseen : ∀ p ∈ seen, Relation.ReflTransGen (fun p q => q ∈ consumers table p) start p) :
    ∀ p ∈ reach table fuel frontier seen,
      Relation.ReflTransGen (fun p q => q ∈ consumers table p) start p := by
  induction fuel generalizing frontier seen with
  | zero => exact hseen
  | succ fuel ih =>
    cases frontier with
    | nil => exact hseen
    | cons pos frontier =>
      have hnew : ∀ p ∈ (consumers table pos).filter (!seen.contains ·),
          Relation.ReflTransGen (fun p q => q ∈ consumers table p) start p := fun p hp =>
        (hfrontier pos List.mem_cons_self).tail (List.mem_filter.1 hp).1
      refine ih ?_ ?_
      · exact List.forall_mem_append.2 ⟨fun p hp => hfrontier p (List.mem_cons_of_mem _ hp), hnew⟩
      · exact List.forall_mem_append.2 ⟨hseen, hnew⟩

theorem mem_reachable {table : List (List Nat)} {start pos : Nat}
    (h : pos ∈ reachable table start) :
    Relation.ReflTransGen (fun p q => q ∈ consumers table p) start pos := by
  have hstart : ∀ p ∈ [start],
      Relation.ReflTransGen (fun p q => q ∈ consumers table p) start p := by
    intro p hp
    rw [List.mem_singleton.1 hp]
  exact mem_reach hstart hstart pos h

namespace Graph

variable {g g' : Graph} {a b : Nat}

/-- The live node `b` reads `a`. -/
def Feeds (g : Graph) (a b : Nat) : Prop := b ∈ g.order ∧ ∃ ref ∈ (g.node b).refs, ref.ugen = a

theorem feeds_of_mem_consumers {p q : Nat} (h : q ∈ consumers g.sourceTable p) :
    ∃ a b, g.order[p]? = some a ∧ g.order[q]? = some b ∧ g.Feeds a b := by
  obtain ⟨sources, hget, hmem⟩ := mem_consumers.1 h
  rw [sourceTable, List.getElem?_map] at hget
  obtain ⟨b, hb, rfl⟩ := Option.map_eq_some_iff.1 hget
  obtain ⟨ref, href, hpos⟩ := mem_sources.1 hmem
  exact ⟨ref.ugen, b, getElem?_of_idxOf? hpos, hb, List.mem_of_getElem? hb, ref, href, rfl⟩

theorem reaches_of_mem_reachable {p q : Nat} (hq : g.order[q]? = some b)
    (hp : g.order[p]? = some a) (h : p ∈ reachable g.sourceTable q) :
    Relation.ReflTransGen g.Feeds b a := by
  have hpath := mem_reachable h
  clear h
  induction hpath generalizing a with
  | refl =>
    obtain rfl := Option.some.inj (hq.symm.trans hp)
    exact .refl
  | tail _ hstep ih =>
    obtain ⟨x, y, hx, hy, hfeeds⟩ := feeds_of_mem_consumers hstep
    obtain rfl := Option.some.inj (hp.symm.trans hy)
    exact (ih hx).tail hfeeds

/-! ## Who has to follow whom -/

theorem mem_widthFirstBefore {pos count : Nat} : pos ∈ g.widthFirstBefore count ↔
    pos < count ∧ ∃ id, g.order[pos]? = some id ∧ (g.node id).flags.widthFirst := by
  simp only [widthFirstBefore, List.mem_map, List.mem_filter]
  constructor
  · rintro ⟨⟨id, i⟩, ⟨hmem, hflag⟩, rfl⟩
    have hget := List.mk_mem_zipIdx_iff_getElem?.1 hmem
    rw [List.getElem?_take] at hget
    split at hget
    · next hlt => exact ⟨hlt, id, hget, hflag⟩
    · cases hget
  · rintro ⟨hlt, id, hget, hflag⟩
    refine ⟨(id, pos), ⟨List.mk_mem_zipIdx_iff_getElem?.2 ?_, hflag⟩, rfl⟩
    rw [List.getElem?_take, if_pos hlt, hget]

theorem mem_antecedentsOf {p q : Nat} (hq : g.order[q]? = some b) :
    p ∈ g.constraints.antecedentsOf q ↔
      (p ∈ g.sources b ∨ p ∈ g.widthFirstBefore q) ∧
        ((g.node b).flags.feedbackReader → p ∉ reachable g.sourceTable q) := by
  have hat : g.constraints.antecedentsOf q = g.antecedentsAt g.sourceTable q b := by
    simp [Constraints.antecedentsOf, constraints, List.getD, hq]
  have hsources : g.sourceTable.getD q [] = g.sources b := by
    simp [sourceTable, List.getD, hq]
  have hall : ∀ l : List Nat, p ∈ g.sources b ++ l.filter (!(g.sources b).contains ·) ↔
      p ∈ g.sources b ∨ p ∈ l := by
    intro l
    by_cases hp : p ∈ g.sources b
    · simp [hp]
    · simp [hp]
  rw [hat, antecedentsAt]
  simp only [hsources]
  split
  · next hreader =>
    rw [List.mem_filter, hall]
    simp [hreader]
  · next hreader => simp only [hall, hreader, Bool.false_eq_true, false_implies, and_true]

/-- The node `b` has to follow the node `a`. -/
def Follows (g : Graph) (a b : Nat) : Prop :=
  ∃ p q, g.order[p]? = some a ∧ g.order[q]? = some b ∧ p ∈ g.constraints.antecedentsOf q

theorem follows_of_feeds (ha : a ∈ g.order) (hf : g.Feeds a b)
    (hreader : (g.node b).flags.feedbackReader = false) : g.Follows a b := by
  obtain ⟨hb, ref, href, rfl⟩ := hf
  obtain ⟨q, hq⟩ := List.getElem?_of_mem hb
  obtain ⟨p, hp⟩ := Option.isSome_iff_exists.1 (List.isSome_idxOf?.2 ha)
  refine ⟨p, q, getElem?_of_idxOf? hp, hq, (mem_antecedentsOf hq).2 ⟨.inl ?_, by simp [hreader]⟩⟩
  exact mem_sources.2 ⟨ref, href, hp⟩

/-- What is listed behind a width-first node has to follow it, if it is not a feedback reader that
this node depends on. -/
theorem follows_of_widthFirst {p q : Nat} (hp : g.order[p]? = some a) (hq : g.order[q]? = some b)
    (hlt : p < q) (hwidth : (g.node a).flags.widthFirst) :
    g.Follows a b ∨
      (g.node b).flags.feedbackReader ∧ Relation.ReflTransGen g.Feeds b a := by
  by_cases hexempt : (g.node b).flags.feedbackReader ∧ p ∈ reachable g.sourceTable q
  · exact .inr ⟨hexempt.1, reaches_of_mem_reachable hq hp hexempt.2⟩
  · refine .inl ⟨p, q, hp, hq, (mem_antecedentsOf hq).2 ⟨.inr ?_, fun hr hmem => ?_⟩⟩
    · exact mem_widthFirstBefore.2 ⟨hlt, a, hp, hwidth⟩
    · exact hexempt ⟨hr, hmem⟩

/-- In a sorted graph no node has to follow itself or one that stands behind it. -/
theorem sort_respects (hn : g.order.Nodup) (h : g.sort = .ok g') :
    (g'.order.Pairwise fun a b => ¬g.Follows b a) ∧ ∀ a, ¬g.Follows a a := by
  obtain ⟨hperm, rfl⟩ := sort_eq_ok h
  have hr := g.constraints.respects_schedule
  constructor
  · refine List.pairwise_filterMap.2 (hr.behind.imp ?_)
    rintro p q hnot a hp b hq ⟨q', p', hq', hp', hmem⟩
    obtain rfl := eq_of_getElem?_of_nodup hn hp hp'
    obtain rfl := eq_of_getElem?_of_nodup hn hq hq'
    exact hnot hmem
  · rintro a ⟨p, q, hp, hq, hmem⟩
    obtain rfl := eq_of_getElem?_of_nodup hn hp hq
    have hlt : p < g.order.length := (List.getElem?_eq_some_iff.1 hp).1
    exact hr.irrefl p (hperm.mem_iff.2 (List.mem_range.2 hlt)) hmem

/-- Nodes at the front that read nothing and delay nothing follow nobody. -/
theorem not_follows_front (hg : g.Ordered) {front : List Nat} (hfront : front <+: g.order)
    (hfree : ∀ id ∈ front, (g.node id).refs = [] ∧ (g.node id).flags.widthFirst = false)
    (hb : b ∈ front) : ¬g.Follows a b := by
  rintro ⟨p, q, -, hq, hmem⟩
  have hlt := (mem_front_iff hg.nodup hfront hq).1 hb
  rw [antecedentsOf_front hfront hfree hlt] at hmem
  cases hmem

end Graph

end SynthGraph
