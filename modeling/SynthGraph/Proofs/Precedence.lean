import SynthGraph.Proofs.Arena
import SynthGraph.Proofs.Basic

/-!
# Who is listed before whom

Passes only drop nodes from the emission order and place new ones before a node that is there, so
what was listed before another node stays before it.
-/

namespace SynthGraph.Graph

variable {g g' : Graph} {a b c id : Nat}

/-- Both nodes are live, and `a` is listed before `b`. -/
def Precedes (g : Graph) (a b : Nat) : Prop := [a, b].Sublist g.order

theorem precedes_iff : g.Precedes a b ↔
    ∃ p q : Nat, p < q ∧ g.order[p]? = some a ∧ g.order[q]? = some b := by
  unfold Precedes
  constructor
  · intro h
    obtain ⟨front, back, horder, ha, hb⟩ := List.cons_sublist_iff.1 h
    obtain ⟨p, hp⟩ := List.getElem?_of_mem ha
    obtain ⟨q, hq⟩ := List.getElem?_of_mem (List.singleton_sublist.1 hb)
    have hlt : p < front.length := (List.getElem?_eq_some_iff.1 hp).1
    refine ⟨p, front.length + q, by omega, ?_, ?_⟩
    · rw [horder, List.getElem?_append_left hlt, hp]
    · rw [horder, List.getElem?_append_right (Nat.le_add_right _ _), Nat.add_sub_cancel_left, hq]
  · rintro ⟨p, q, hlt, hp, hq⟩
    have ha : a ∈ g.order.take q := List.mem_of_getElem? (by rw [List.getElem?_take_of_lt hlt, hp])
    have hb : b ∈ g.order.drop q := List.mem_of_getElem? (i := 0) (by simpa using hq)
    rw [← List.take_append_drop q g.order]
    show ([a] ++ [b]).Sublist _
    exact (List.singleton_sublist.2 ha).append (List.singleton_sublist.2 hb)

theorem idxOf_of_getElem? (hn : g.order.Nodup) {p : Nat} (hp : g.order[p]? = some a) :
    g.order.idxOf a = p :=
  eq_of_getElem?_of_nodup hn (List.getElem?_idxOf (List.mem_of_getElem? hp)) hp

theorem Precedes.mem_left (h : g.Precedes a b) : a ∈ g.order := h.mem (by simp)

theorem Precedes.mem_right (h : g.Precedes a b) : b ∈ g.order := h.mem (by simp)

theorem Precedes.mono (h : g.Precedes a b) (hsub : g.order.Sublist g'.order) : g'.Precedes a b :=
  List.Sublist.trans h hsub

theorem Precedes.filter (h : g.Precedes a b) {keep : Nat → Bool} (ha : keep a) (hb : keep b) :
    [a, b].Sublist (g.order.filter keep) := by
  have := List.Sublist.filter keep h
  rwa [List.filter_eq_self.2 (by simp [ha, hb])] at this

theorem Precedes.trans (hn : g.order.Nodup) (h : g.Precedes a b) (h' : g.Precedes b c) :
    g.Precedes a c := by
  obtain ⟨p, q, hpq, hp, hq⟩ := precedes_iff.1 h
  obtain ⟨q', r, hqr, hq', hr⟩ := precedes_iff.1 h'
  obtain rfl := eq_of_getElem?_of_nodup hn hq hq'
  exact precedes_iff.2 ⟨p, r, by omega, hp, hr⟩

/-- Where nobody is listed before one that it has to follow, whoever has to follow another one is
listed behind it. -/
theorem precedes_of_pairwise_not {R : Nat → Nat → Prop} (hg : g.order.Pairwise fun x y => ¬R y x)
    (hR : ∀ x, ¬R x x) (ha : a ∈ g.order) (hb : b ∈ g.order) (hab : R a b) : g.Precedes a b := by
  obtain ⟨p, hp⟩ := List.getElem?_of_mem ha
  obtain ⟨q, hq⟩ := List.getElem?_of_mem hb
  exact precedes_iff.2 ⟨p, q, lt_of_pairwise_not hg hR hp hq hab, hp, hq⟩

/-! ## Nodes placed before another one -/

theorem mem_dropWhile_of_precedes {l : List Nat} (h : b = id ∧ id ∈ l ∨ [id, b].Sublist l) :
    b ∈ l.dropWhile (· != id) := by
  induction l with
  | nil => simp at h
  | cons x xs ih =>
    by_cases hx : x = id
    · subst hx
      rw [List.dropWhile_cons_of_neg (by simp)]
      rcases h with ⟨rfl, -⟩ | h
      · exact List.mem_cons_self
      · exact h.mem (by simp)
    · rw [List.dropWhile_cons_of_pos (by simpa using hx)]
      rcases h with ⟨hb, hmem⟩ | hsub
      · exact ih (.inl ⟨hb, (List.mem_cons.1 hmem).resolve_left (Ne.symm hx)⟩)
      · cases hsub with
        | cons _ hsub => exact ih (.inr hsub)
        | cons_cons => exact absurd rfl hx

theorem mem_takeWhile_of_precedes {l : List Nat} (hn : l.Nodup) (h : [a, id].Sublist l) :
    a ∈ l.takeWhile (· != id) := by
  induction l with
  | nil => cases h
  | cons x xs ih =>
    obtain ⟨hx, hn⟩ := List.nodup_cons.1 hn
    have hne : x ≠ id := by
      rintro rfl
      cases h with
      | cons _ hsub => exact hx (hsub.mem (by simp))
      | cons_cons _ hsub => exact hx (hsub.mem (by simp))
    rw [List.takeWhile_cons_of_pos (by simpa using hne)]
    cases h with
    | cons _ hsub => exact List.mem_cons_of_mem _ (ih hn hsub)
    | cons_cons => exact List.mem_cons_self

/-- What is placed before a node comes before it and before all that it precedes. -/
theorem precedes_insertBefore {new : List Nat} (ha : a ∈ new)
    (hb : b = id ∧ id ∈ g.order ∨ g.Precedes id b) : (g.insertBefore id new).Precedes a b := by
  show ([a] ++ [b]).Sublist _
  refine List.Sublist.append ?_ ?_
  · exact List.singleton_sublist.2 (List.mem_append_right _ ha)
  · exact List.singleton_sublist.2 (mem_dropWhile_of_precedes hb)

/-- What is placed before a node comes after all that precede this node. -/
theorem Precedes.insertBefore (hn : g.order.Nodup) (h : g.Precedes a id) {new : List Nat}
    (hb : b ∈ new) : (g.insertBefore id new).Precedes a b := by
  have ha : a ∈ g.order.takeWhile (· != id) := mem_takeWhile_of_precedes hn h
  have hpair : ([a] ++ [b]).Sublist (g.order.takeWhile (· != id) ++ new) :=
    (List.singleton_sublist.2 ha).append (List.singleton_sublist.2 hb)
  exact hpair.trans (List.sublist_append_left _ _)

end SynthGraph.Graph
