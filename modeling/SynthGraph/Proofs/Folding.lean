import SynthGraph.Graph.Folding
import SynthGraph.Proofs.Precedence

/-!
# Folding keeps a graph wired

Going through the emission order, folding finds for a node either an earlier node of the same
structure, which survives, or keeps it as the first of its structure. So a survivor is live, is not
folded itself and has as many outputs as the node it stands for, and every reference can be turned
to it.
-/

namespace SynthGraph

theorem mem_of_lookup {α β : Type} [BEq α] [LawfulBEq α] {l : List (α × β)} {a : α} {b : β}
    (h : l.lookup a = some b) : (a, b) ∈ l := by
  obtain ⟨before, after, rfl, -⟩ := List.lookup_eq_some_iff.1 h
  simp

theorem lookup_eq_none_iff_not_mem {α β : Type} [BEq α] [LawfulBEq α] {l : List (α × β)} {a : α} :
    l.lookup a = none ↔ a ∉ l.map (·.1) := by
  simp only [List.lookup_eq_none_iff, bne_iff_ne, List.mem_map, not_exists, not_and]
  exact ⟨fun h p hp he => h p hp he.symm, fun h p hp he => h p hp he.symm⟩

namespace Graph

variable {g : Graph}

/-! ## What one pass finds -/

/-- What is known when the nodes of `visited` have been met. -/
structure FoldState.Sound (g : Graph) (visited : List Nat) (state : FoldState) : Prop where
  /-- A structure is listed with a node that has it and is not folded. -/
  seen : ∀ e ∈ state.seen, e.2 ∈ visited ∧ (g.node e.2).flags.pure ∧
    e.2 ∉ state.survivors.map (·.1) ∧ ∃ survivors, e.1 = (g.node e.2).structure survivors
  /-- A folded node has a structure that is listed with its survivor. -/
  survivors : ∀ e ∈ state.survivors, e.1 ∈ visited ∧ (g.node e.1).flags.pure ∧
    ∃ survivors, ((g.node e.1).structure survivors, e.2) ∈ state.seen
  /-- A survivor has been met before the node it stands for. -/
  earlier : ∀ e ∈ state.survivors, [e.2, e.1].Sublist visited

theorem FoldState.Sound.visit {visited : List Nat} {state : FoldState}
    (h : state.Sound g visited) {id : Nat} (hid : id ∉ visited) :
    (g.foldVisit state id).Sound g (visited ++ [id]) := by
  have hseen : ∀ e ∈ state.seen, e.2 ∈ visited ++ [id] ∧ (g.node e.2).flags.pure ∧
      e.2 ∉ state.survivors.map (·.1) ∧ ∃ survivors, e.1 = (g.node e.2).structure survivors :=
    fun e he => ⟨List.mem_append_left _ (h.seen e he).1, (h.seen e he).2⟩
  have hsurvivors : ∀ e ∈ state.survivors, e.1 ∈ visited ++ [id] ∧ (g.node e.1).flags.pure ∧
      ∃ survivors, ((g.node e.1).structure survivors, e.2) ∈ state.seen :=
    fun e he => ⟨List.mem_append_left _ (h.survivors e he).1, (h.survivors e he).2⟩
  have hearlier : ∀ e ∈ state.survivors, [e.2, e.1].Sublist (visited ++ [id]) :=
    fun e he => (h.earlier e he).trans (List.sublist_append_left _ _)
  unfold foldVisit
  simp only
  split
  · next hpure =>
    split
    · next survivor hlookup =>
      constructor
      · intro e he
        obtain ⟨hmem, hp, hnot, hkey⟩ := hseen e he
        refine ⟨hmem, hp, ?_, hkey⟩
        have hne : e.2 ≠ id := fun heq => hid (heq ▸ (h.seen e he).1)
        simpa [hne] using hnot
      · intro e he
        rcases List.mem_append.1 he with he | he
        · exact hsurvivors e he
        · obtain rfl : e = (id, survivor) := by simpa using he
          exact ⟨by simp, hpure, state.survivors, mem_of_lookup hlookup⟩
      · intro e he
        rcases List.mem_append.1 he with he | he
        · exact hearlier e he
        · obtain rfl : e = (id, survivor) := by simpa using he
          have hmet : survivor ∈ visited := (h.seen _ (mem_of_lookup hlookup)).1
          exact (List.singleton_sublist.2 hmet).append (.refl [id])
    · constructor
      · intro e he
        rcases List.mem_append.1 he with he | he
        · exact hseen e he
        · obtain rfl : e = ((g.node id).structure state.survivors, id) := by simpa using he
          refine ⟨by simp, hpure, fun hmem => ?_, state.survivors, rfl⟩
          obtain ⟨e', he', rfl⟩ := List.mem_map.1 hmem
          exact hid (h.survivors e' he').1
      · intro e he
        obtain ⟨hmem, hp, survivors, hkey⟩ := hsurvivors e he
        exact ⟨hmem, hp, survivors, List.mem_append_left _ hkey⟩
      · exact hearlier
  · exact ⟨hseen, hsurvivors, hearlier⟩

theorem FoldState.Sound.foldl {ids visited : List Nat} {state : FoldState}
    (h : state.Sound g visited) (hn : (visited ++ ids).Nodup) :
    (ids.foldl g.foldVisit state).Sound g (visited ++ ids) := by
  induction ids generalizing visited state with
  | nil => simpa using h
  | cons id ids ih =>
    have hid : id ∉ visited := fun hmem =>
      (List.nodup_append.1 hn).2.2 id hmem id List.mem_cons_self rfl
    rw [List.append_cons] at hn ⊢
    exact ih (h.visit hid) hn

theorem Ordered.sound_foldVisit (hg : g.Ordered) :
    (g.order.foldl g.foldVisit {}).Sound g g.order := by
  have hinit : FoldState.Sound g [] {} := by constructor <;> simp
  exact hinit.foldl hg.nodup

/-- A survivor is listed before the node it stands for. -/
theorem precedes_of_mem_duplicates (hg : g.Ordered) {e : Nat × Nat} (he : e ∈ g.duplicates) :
    g.Precedes e.2 e.1 :=
  hg.sound_foldVisit.earlier e he

/-- A folded node is pure, and its survivor is another live node of the same structure. -/
theorem duplicates_spec (hg : g.Ordered) {e : Nat × Nat} (he : e ∈ g.duplicates) :
    (e.1 ∈ g.order ∧ (g.node e.1).flags.pure) ∧ e.2 ∈ g.order ∧ g.duplicates.lookup e.2 = none ∧
      ∃ s s', (g.node e.1).structure s = (g.node e.2).structure s' := by
  have hsound := hg.sound_foldVisit
  obtain ⟨hmem, hpure, s, hkey⟩ := hsound.survivors e he
  obtain ⟨hmem', -, hnot, s', hs'⟩ := hsound.seen _ hkey
  exact ⟨⟨hmem, hpure⟩, hmem', lookup_eq_none_iff_not_mem.2 hnot, s, s', hs'⟩

theorem survivor_pure (hg : g.Ordered) {e : Nat × Nat} (he : e ∈ g.duplicates) :
    (g.node e.2).flags.pure := by
  obtain ⟨-, -, s, hkey⟩ := hg.sound_foldVisit.survivors e he
  exact (hg.sound_foldVisit.seen _ hkey).2.1

/-- What is not pure is never folded. -/
theorem lookup_duplicates_of_impure (hg : g.Ordered) {id : Nat}
    (h : (g.node id).flags.pure = false) : g.duplicates.lookup id = none := by
  refine lookup_eq_none_iff_not_mem.2 fun hmem => ?_
  obtain ⟨e, he, rfl⟩ := List.mem_map.1 hmem
  have hpure := (duplicates_spec hg he).1.2
  rw [h] at hpure
  cases hpure

/-! ## Merging -/

theorem merge_spec (hg : g.Ordered) (survivors : Survivors) :
    (g.merge survivors).order = g.order.filter (fun id => (survivors.lookup id).isNone) ∧
      (g.merge survivors).nodes.size = g.nodes.size ∧
      ∀ id, (g.merge survivors).node id =
        if id ∈ (g.merge survivors).order then (g.node id).mapRefs survivors.resolveRef
        else g.node id := by
  have hkept : Ordered { g with
      order := g.order.filter fun id => (survivors.lookup id).isNone } :=
    hg.of_sublist List.filter_sublist
  obtain ⟨horder, hsize, hnode⟩ := hkept.mapRefs survivors.resolveRef
  refine ⟨horder, hsize, fun id => ?_⟩
  have horder' : (g.merge survivors).order =
      g.order.filter fun id => (survivors.lookup id).isNone := horder
  rw [horder']
  exact hnode id

theorem alike_merge (hg : g.Ordered) (survivors : Survivors) (id : Nat) :
    (g.node id).Alike ((g.merge survivors).node id) := by
  rw [(merge_spec hg survivors).2.2 id]
  split
  · exact Node.alike_mapRefs _ _
  · exact .refl _

theorem Ordered.merge (hg : g.Ordered) : (g.merge g.duplicates).Ordered := by
  obtain ⟨horder, hsize, -⟩ := merge_spec hg g.duplicates
  refine ⟨horder ▸ hg.nodup.filter _, fun id hid => hsize ▸ hg.bound id ?_⟩
  rw [horder] at hid
  exact (List.mem_filter.1 hid).1

theorem Wired.merge {gone : Nat → Prop} (hg : g.Wired gone) :
    (g.merge g.duplicates).Wired gone := by
  obtain ⟨horder, -, hnode⟩ := merge_spec hg.toOrdered g.duplicates
  have hlive : ∀ {id}, id ∈ (g.merge g.duplicates).order ↔
      id ∈ g.order ∧ g.duplicates.lookup id = none := by
    intro id
    rw [horder, List.mem_filter, Option.isNone_iff_eq_none]
  refine ⟨hg.toOrdered.merge, ?_⟩
  intro id hid ref href
  rw [hnode id, if_pos hid, Node.refs_mapRefs, List.mem_map] at href
  obtain ⟨old, hold, rfl⟩ := href
  obtain ⟨hmem, hlt⟩ := hg.refs id (hlive.1 hid).1 old hold
  rw [(alike_merge hg.toOrdered _ _).outputs]
  unfold Survivors.resolveRef Survivors.resolve
  cases hlookup : g.duplicates.lookup old.ugen with
  | none =>
    refine ⟨?_, hlt⟩
    exact hmem.imp_left fun hmem => hlive.2 ⟨hmem, hlookup⟩
  | some survivor =>
    obtain ⟨-, hsurvivor, hkept, s, s', hsame⟩ :=
      duplicates_spec hg.toOrdered (mem_of_lookup hlookup)
    refine ⟨.inl (hlive.2 ⟨hsurvivor, hkept⟩), ?_⟩
    have houtputs : (g.node old.ugen).outputs = (g.node survivor).outputs :=
      congrArg Structure.outputs hsame
    exact houtputs ▸ hlt

/-- What merging preserves, folding preserves. -/
theorem foldPasses_preserves {P : Graph → Prop} (hmerge : ∀ g, P g → P (g.merge g.duplicates))
    (fuel : Nat) (hg : P g) : P (foldPasses fuel g).2 := by
  induction fuel generalizing g with
  | zero => exact hg
  | succ fuel ih =>
    have hnext := ih (hmerge g hg)
    unfold foldPasses
    split
    · exact hg
    · next hduplicates =>
      rw [hduplicates] at hnext
      exact hnext

end Graph

end SynthGraph
