import SynthGraph.Proofs.Canonical
import SynthGraph.Proofs.Folding

/-!
# Folding is a quotient

Within one pass the structure of a node is taken with the survivors known at that time. Survivors
are never folded themselves, so a structure that is taken early says the same as one that is taken
at the end of the pass: nodes are folded only if they agree once all references are turned. Each
pass is a quotient of its graph, quotients compose, and the last pass finds nothing to fold.
-/

namespace SynthGraph

/-- The same output of the node that stands for the one referred to. -/
def NodeRef.through (h : Nat → Nat) (ref : NodeRef) : NodeRef := { ref with ugen := h ref.ugen }

/-! ## Nodes that agree -/

/-- Both inputs read the same output, or they are constants that share a place in a table. -/
inductive Input.Same : Input → Input → Prop
  | constant {a b : Single} (h : a.sameConstant b) : Same (.constant a) (.constant b)
  | node (ref : NodeRef) : Same (.node ref) (.node ref)

theorem Input.Same.mapNode {i j : Input} (h : i.Same j) (f : NodeRef → NodeRef) :
    (i.mapNode f).Same (j.mapNode f) := by
  cases h with
  | constant h => exact .constant h
  | node ref => exact .node (f ref)

/-- An input as folding sees it before anything is folded. -/
def Input.shape : Input → InputShape
  | .constant value => .constant value.key
  | .node ref => .node ref

theorem Input.shape_eq_iff {i j : Input} : i.shape = j.shape ↔ i.Same j := by
  constructor
  · intro h
    cases i <;> cases j <;>
      simp only [Input.shape, InputShape.constant.injEq, InputShape.node.injEq, reduceCtorEq] at h
    · exact .constant (Single.key_eq_iff.1 h)
    · exact h ▸ .node _
  · rintro (h | ref)
    · exact congrArg InputShape.constant (Single.key_eq_iff.2 h)
    · rfl

/-- The nodes have the same class, rate and special index, equally many outputs, and the same
inputs. -/
structure Node.Congruent (n m : Node) : Prop where
  className : n.className = m.className
  rate : n.rate = m.rate
  special : n.special = m.special
  outputs : n.outputs = m.outputs
  inputs : List.Forall₂ Input.Same n.inputs m.inputs

namespace Node

variable {n m k : Node}

theorem inputs_structure (n : Node) (s : Survivors) :
    (n.structure s).inputs = (n.mapRefs s.resolveRef).inputs.map Input.shape := by
  rw [Node.structure, mapRefs, List.map_map]
  refine List.map_congr_left fun i _ => ?_
  cases i <;> rfl

/-- Structures are equal exactly if the nodes agree once their references are turned. -/
theorem structure_eq_iff {s t : Survivors} : n.structure s = m.structure t ↔
    (n.mapRefs s.resolveRef).Congruent (m.mapRefs t.resolveRef) := by
  have hinputs : (n.structure s).inputs = (m.structure t).inputs ↔
      List.Forall₂ Input.Same (n.mapRefs s.resolveRef).inputs (m.mapRefs t.resolveRef).inputs := by
    rw [inputs_structure, inputs_structure, ← List.forall₂_eq_eq_eq, List.forall₂_map_left_iff,
      List.forall₂_map_right_iff]
    simp only [Input.shape_eq_iff]
  constructor
  · intro h
    exact ⟨congrArg Structure.className h, congrArg Structure.rate h, congrArg Structure.special h,
      congrArg Structure.outputs h, hinputs.1 (congrArg Structure.inputs h)⟩
  · intro h
    have hall := And.intro h.className (And.intro h.rate (And.intro h.special
      (And.intro (hinputs.2 h.inputs) h.outputs)))
    rwa [← Structure.mk.injEq] at hall

namespace Congruent

theorem iff_structure : n.Congruent m ↔ n.structure [] = m.structure [] := by
  have hself : ∀ n : Node, n.mapRefs (Survivors.resolveRef []) = n :=
    fun n => mapRefs_eq_self fun _ _ => rfl
  rw [structure_eq_iff, hself, hself]

theorem refl (n : Node) : n.Congruent n := iff_structure.2 rfl

theorem symm (h : n.Congruent m) : m.Congruent n := iff_structure.2 (iff_structure.1 h).symm

theorem trans (h : n.Congruent m) (h' : m.Congruent k) : n.Congruent k :=
  iff_structure.2 ((iff_structure.1 h).trans (iff_structure.1 h'))

theorem mapRefs (h : n.Congruent m) (f : NodeRef → NodeRef) :
    (n.mapRefs f).Congruent (m.mapRefs f) := by
  refine ⟨h.className, h.rate, h.special, h.outputs, ?_⟩
  exact List.forall₂_map_left_iff.2 (List.forall₂_map_right_iff.2
    (h.inputs.imp fun _ _ hsame => hsame.mapNode f))

end Congruent

end Node

/-! ## Survivors -/

namespace Survivors

variable {s t : Survivors}

/-- To resolve with `t` what is resolved with `s` already is to resolve it with `t`. -/
def Settles (s t : Survivors) : Prop := ∀ id, t.resolve (s.resolve id) = t.resolve id

/-- What had the same structure at some time agrees once everything is settled. -/
theorem Settles.congruent {n m : Node} {s' : Survivors} (hs : s.Settles t) (hs' : s'.Settles t)
    (h : n.structure s = m.structure s') :
    (n.mapRefs t.resolveRef).Congruent (m.mapRefs t.resolveRef) := by
  have hturned : ∀ (n : Node) {s : Survivors}, s.Settles t →
      (n.mapRefs s.resolveRef).mapRefs t.resolveRef = n.mapRefs t.resolveRef := by
    intro n s hs
    rw [Node.mapRefs_mapRefs]
    refine Node.mapRefs_congr fun ref _ => ?_
    rw [resolveRef, resolveRef, resolveRef, hs ref.ugen]
  rw [← hturned n hs, ← hturned m hs']
  exact (Node.structure_eq_iff.1 h).mapRefs _

theorem Settles.structure_nil (hs : s.Settles []) (n : Node) :
    n.structure s = n.structure [] := by
  have hid : ∀ id, s.resolve id = id := hs
  have hself : n.mapRefs s.resolveRef = n := Node.mapRefs_eq_self fun ref _ => by
    rw [resolveRef, hid]
  have hnil : n.mapRefs (resolveRef []) = n := Node.mapRefs_eq_self fun _ _ => rfl
  rw [Node.structure_eq_iff, hself, hnil]
  exact .refl n

theorem resolve_of_lookup {id survivor : Nat} (h : s.lookup id = some survivor) :
    s.resolve id = survivor := by
  rw [resolve, h, Option.getD_some]

/-- One more node is folded, which no one survives by. -/
theorem resolve_append {id survivor : Nat} (h : ∀ e ∈ s, e.2 ≠ id) (x : Nat) :
    Survivors.resolve (s ++ [(id, survivor)]) x =
      if s.resolve x = id then survivor else s.resolve x := by
  unfold resolve
  rw [List.lookup_append]
  cases hx : s.lookup x with
  | some y => simp [h _ (mem_of_lookup hx)]
  | none =>
    by_cases hid : x = id
    · simp [hid]
    · have hne : (x == id) = false := by simpa using hid
      simp [List.lookup_cons, hne, hid]

end Survivors

namespace Graph

variable {g g' g'' : Graph}

/-! ## One pass -/

namespace FoldState

variable {visited : List Nat} {state : FoldState}

/-- Survivors are not folded. -/
theorem Sound.settles (h : state.Sound g visited) : state.survivors.Settles state.survivors := by
  intro id
  cases hid : state.survivors.lookup id with
  | none => simp [Survivors.resolve, hid]
  | some survivor =>
    obtain ⟨-, -, s, hkey⟩ := h.survivors _ (mem_of_lookup hid)
    have hkept := lookup_eq_none_iff_not_mem.2 (h.seen _ hkey).2.2.1
    simp [Survivors.resolve, hid, hkept]

/-- What is known about structures when the nodes of `visited` have been met. -/
structure Exact (g : Graph) (visited : List Nat) (state : FoldState) : Prop where
  /-- A listed structure was taken when less was folded. -/
  seen : ∀ e ∈ state.seen, ∃ s : Survivors, s.Settles state.survivors ∧
    e.1 = (g.node e.2).structure s
  distinct : (state.seen.map (·.1)).Nodup
  /-- A folded node agrees with its survivor. -/
  survivors : ∀ e ∈ state.survivors, ((g.node e.1).mapRefs state.survivors.resolveRef).Congruent
    ((g.node e.2).mapRefs state.survivors.resolveRef)
  /-- A pure node is folded, or its structure is listed. -/
  met : ∀ id ∈ visited, (g.node id).flags.pure →
    id ∈ state.survivors.map (·.1) ∨ id ∈ state.seen.map (·.2)
  folded : (state.survivors.map (·.1)).Sublist visited

theorem Exact.met_append (h : state.Exact g visited) {id x : Nat} (hx : x ∈ visited ++ [id])
    (hpure : (g.node x).flags.pure) :
    x = id ∨ x ∈ state.survivors.map (·.1) ∨ x ∈ state.seen.map (·.2) := by
  rcases List.mem_append.1 hx with hx | hx
  · exact .inr (h.met x hx hpure)
  · exact .inl (List.mem_singleton.1 hx)

/-- A node whose structure is listed is folded. -/
theorem Exact.fold (h : state.Exact g visited) (hs : state.Sound g visited) {id survivor : Nat}
    (hid : id ∉ visited)
    (hlookup : state.seen.lookup ((g.node id).structure state.survivors) = some survivor) :
    Exact g (visited ++ [id])
      { state with survivors := state.survivors ++ [(id, survivor)] } := by
  -- to fold one more node is to send it to its survivor after everything else
  have hresolve : ∀ x, Survivors.resolve (state.survivors ++ [(id, survivor)]) x =
      if state.survivors.resolve x = id then survivor else state.survivors.resolve x := by
    refine Survivors.resolve_append fun e he heq => hid ?_
    obtain ⟨-, -, s, hkey⟩ := hs.survivors e he
    exact heq ▸ (hs.seen _ hkey).1
  have hsettles : ∀ s : Survivors, s.Settles state.survivors →
      s.Settles (state.survivors ++ [(id, survivor)]) := by
    intro s hs x
    rw [hresolve, hresolve, hs x]
  have hlast := hsettles _ hs.settles
  constructor
  · intro e he
    obtain ⟨s, hsettled, hkey⟩ := h.seen e he
    exact ⟨s, hsettles s hsettled, hkey⟩
  · exact h.distinct
  · intro e he
    rcases List.mem_append.1 he with he | he
    · exact hlast.congruent hlast (Node.structure_eq_iff.2 (h.survivors e he))
    · obtain rfl : e = (id, survivor) := by simpa using he
      obtain ⟨s, hsettled, hkey⟩ := h.seen _ (mem_of_lookup hlookup)
      exact hlast.congruent (hsettles s hsettled) hkey
  · intro x hx hpure
    rw [List.map_append, List.mem_append]
    rcases h.met_append hx hpure with rfl | hx | hx
    · exact .inl (.inr (by simp))
    · exact .inl (.inl hx)
    · exact .inr hx
  · rw [List.map_append]
    exact h.folded.append (.refl [id])

/-- A node whose structure is new is listed. -/
theorem Exact.list (h : state.Exact g visited) (hs : state.Sound g visited) {id : Nat}
    (hlookup : state.seen.lookup ((g.node id).structure state.survivors) = none) :
    Exact g (visited ++ [id])
      { state with seen := state.seen ++ [((g.node id).structure state.survivors, id)] } := by
  constructor
  · intro e he
    rcases List.mem_append.1 he with he | he
    · exact h.seen e he
    · obtain rfl : e = ((g.node id).structure state.survivors, id) := by simpa using he
      exact ⟨state.survivors, hs.settles, rfl⟩
  · rw [List.map_append, List.nodup_append]
    refine ⟨h.distinct, by simp, ?_⟩
    rintro key hkey _ hnew rfl
    obtain rfl : key = (g.node id).structure state.survivors := by simpa using hnew
    exact lookup_eq_none_iff_not_mem.1 hlookup hkey
  · exact h.survivors
  · intro x hx hpure
    rw [List.map_append, List.mem_append]
    rcases h.met_append hx hpure with rfl | hx | hx
    · exact .inr (.inr (by simp))
    · exact .inl hx
    · exact .inr (.inl hx)
  · exact h.folded.trans (List.sublist_append_left _ _)

theorem Exact.visit (h : state.Exact g visited) (hs : state.Sound g visited) {id : Nat}
    (hid : id ∉ visited) : (g.foldVisit state id).Exact g (visited ++ [id]) := by
  unfold foldVisit
  simp only
  split
  · split
    · next survivor hlookup => exact h.fold hs hid hlookup
    · next hlookup => exact h.list hs hlookup
  · next himpure =>
    refine ⟨h.seen, h.distinct, h.survivors, ?_, h.folded.trans (List.sublist_append_left _ _)⟩
    intro x hx hpure
    rcases h.met_append hx hpure with rfl | hx
    · exact absurd hpure himpure
    · exact hx

theorem Exact.foldl {ids : List Nat} (h : state.Exact g visited) (hs : state.Sound g visited)
    (hn : (visited ++ ids).Nodup) : (ids.foldl g.foldVisit state).Exact g (visited ++ ids) := by
  induction ids generalizing visited state with
  | nil => simpa using h
  | cons id ids ih =>
    have hid : id ∉ visited := fun hmem =>
      (List.nodup_append.1 hn).2.2 id hmem id List.mem_cons_self rfl
    rw [List.append_cons] at hn ⊢
    exact ih (h.visit hs hid) (hs.visit hid) hn

end FoldState

theorem Ordered.exact_foldVisit (hg : g.Ordered) :
    (g.order.foldl g.foldVisit {}).Exact g g.order := by
  have hinit : FoldState.Exact g [] {} := by constructor <;> simp
  have hsound : FoldState.Sound g [] {} := by constructor <;> simp
  exact hinit.foldl hsound hg.nodup

/-! ## Quotients -/

/-- The second graph is what is left of the first one if `h id` stands for every node `id`. -/
structure Quotient (g g' : Graph) (h : Nat → Nat) : Prop where
  /-- What stands for itself is left, in the order there was. -/
  order : g'.order = g.order.filter fun id => h id = id
  live : ∀ id ∈ g.order, h id ∈ g'.order
  outside : ∀ id, id ∉ g.order → h id = id
  impure : ∀ id, (g.node id).flags.pure = false → h id = id
  earlier : ∀ id, h id ≠ id → g.Precedes (h id) id
  /-- What stands for a node has the inputs of that node, their references turned. -/
  node : ∀ id ∈ g.order, ((g.node id).mapRefs (NodeRef.through h)).Congruent (g'.node (h id))
  /-- In what is left nothing but references changes. -/
  kept : ∀ id ∈ g'.order, g'.node id = (g.node id).mapRefs (NodeRef.through h)

namespace Quotient

variable {h h' : Nat → Nat}

theorem refl (g : Graph) : g.Quotient g id where
  order := by simp
  live _ hid := hid
  outside _ _ := rfl
  impure _ _ := rfl
  earlier _ hne := absurd rfl hne
  node i _ := by
    have hself : (g.node i).mapRefs (NodeRef.through id) = g.node i :=
      Node.mapRefs_eq_self fun _ _ => rfl
    rw [hself]
    exact .refl _
  kept i _ := (Node.mapRefs_eq_self fun _ _ => rfl).symm

theorem mem_iff (hq : g.Quotient g' h) {id : Nat} : id ∈ g'.order ↔ id ∈ g.order ∧ h id = id := by
  rw [hq.order, List.mem_filter, decide_eq_true_eq]

theorem trans (hn : g.order.Nodup) (hq : g.Quotient g' h) (hq' : g'.Quotient g'' h') :
    g.Quotient g'' fun id => h' (h id) := by
  have hsub : g'.order.Sublist g.order := hq.order ▸ List.filter_sublist
  have hfix : ∀ id ∈ g.order, h' (h id) = id ↔ h id = id ∧ h' id = id := by
    intro id hid
    constructor
    · intro heq
      have hlive := hq'.live _ (hq.live id hid)
      rw [heq] at hlive
      have hfixed := (hq.mem_iff.1 (hq'.mem_iff.1 hlive).1).2
      exact ⟨hfixed, (hq'.mem_iff.1 hlive).2⟩
    · rintro ⟨heq, heq'⟩
      rw [heq, heq']
  have hturn : ∀ n : Node, n.mapRefs (NodeRef.through fun id => h' (h id)) =
      (n.mapRefs (NodeRef.through h)).mapRefs (NodeRef.through h') :=
    fun n => (n.mapRefs_mapRefs (NodeRef.through h) (NodeRef.through h')).symm
  constructor
  · rw [hq'.order, hq.order, List.filter_filter]
    refine List.filter_congr fun id hid => ?_
    rw [← Bool.decide_and, decide_eq_decide, hfix id hid, and_comm]
  · exact fun id hid => hq'.live _ (hq.live id hid)
  · intro id hid
    rw [hq.outside id hid]
    exact hq'.outside id fun hmem => hid (hsub.mem hmem)
  · intro id hpure
    have hid := hq.impure id hpure
    rw [hid]
    by_cases hmem : id ∈ g'.order
    · refine hq'.impure id ?_
      rw [hq.kept id hmem]
      exact hpure
    · exact hq'.outside id hmem
  · intro id hne
    by_cases hid : h id = id
    · rw [hid] at hne ⊢
      exact (hq'.earlier id hne).mono hsub
    · have hfirst := hq.earlier id hid
      by_cases hid' : h' (h id) = h id
      · rwa [hid']
      · exact ((hq'.earlier _ hid').mono hsub).trans hn hfirst
  · intro id hid
    rw [hturn]
    exact ((hq.node id hid).mapRefs _).trans (hq'.node _ (hq.live id hid))
  · intro id hid
    rw [hq'.kept id hid, hq.kept id (hq'.mem_iff.1 hid).1, hturn]

theorem countP (hq : g.Quotient g' h) :
    g.order.countP (fun id => h id ≠ id) + g'.order.length = g.order.length := by
  have hsplit := List.length_eq_countP_add_countP (fun id => decide (h id = id)) (l := g.order)
  simp only [decide_eq_true_eq] at hsplit
  rw [hq.order, ← List.countP_eq_length_filter, hsplit, Nat.add_comm]

end Quotient

theorem resolve_duplicates_eq_iff (hg : g.Ordered) {id : Nat} :
    g.duplicates.resolve id = id ↔ g.duplicates.lookup id = none := by
  cases hid : g.duplicates.lookup id with
  | none => simp [Survivors.resolve, hid]
  | some survivor =>
    have hkept := (duplicates_spec hg (mem_of_lookup hid)).2.2.1
    rw [Survivors.resolve_of_lookup hid]
    simp only [reduceCtorEq, iff_false]
    rintro rfl
    rw [hid] at hkept
    cases hkept

/-- One pass is a quotient. -/
theorem quotient_merge (hg : g.Ordered) :
    g.Quotient (g.merge g.duplicates) g.duplicates.resolve := by
  obtain ⟨horder, -, hnode⟩ := merge_spec hg g.duplicates
  have hexact := hg.exact_foldVisit
  have hlive : ∀ id ∈ g.order, g.duplicates.resolve id ∈ (g.merge g.duplicates).order := by
    intro id hid
    rw [horder, List.mem_filter, Option.isNone_iff_eq_none]
    cases hlookup : g.duplicates.lookup id with
    | none =>
      rw [(resolve_duplicates_eq_iff hg).2 hlookup]
      exact ⟨hid, hlookup⟩
    | some survivor =>
      rw [Survivors.resolve_of_lookup hlookup]
      obtain ⟨-, hmem, hkept, -⟩ := duplicates_spec hg (mem_of_lookup hlookup)
      exact ⟨hmem, hkept⟩
  have hkept : ∀ id ∈ (g.merge g.duplicates).order, (g.merge g.duplicates).node id =
      (g.node id).mapRefs g.duplicates.resolveRef := by
    intro id hid
    rw [hnode, if_pos hid]
  constructor
  · rw [horder]
    refine List.filter_congr fun id _ => ?_
    rw [Bool.eq_iff_iff, Option.isNone_iff_eq_none, decide_eq_true_eq,
      resolve_duplicates_eq_iff hg]
  · exact hlive
  · intro id hid
    refine (resolve_duplicates_eq_iff hg).2 (lookup_eq_none_iff_not_mem.2 fun hmem => ?_)
    exact hid (hexact.folded.mem hmem)
  · exact fun id himpure =>
      (resolve_duplicates_eq_iff hg).2 (lookup_duplicates_of_impure hg himpure)
  · intro id hne
    obtain ⟨survivor, hlookup⟩ :=
      Option.ne_none_iff_exists'.1 (mt (resolve_duplicates_eq_iff hg).2 hne)
    rw [Survivors.resolve_of_lookup hlookup]
    exact precedes_of_mem_duplicates hg (mem_of_lookup hlookup)
  · intro id hid
    rw [hkept _ (hlive id hid)]
    cases hlookup : g.duplicates.lookup id with
    | none =>
      rw [(resolve_duplicates_eq_iff hg).2 hlookup]
      exact .refl _
    | some survivor =>
      rw [Survivors.resolve_of_lookup hlookup]
      exact hexact.survivors _ (mem_of_lookup hlookup)
  · exact hkept

theorem length_duplicates (hg : g.Ordered) :
    g.duplicates.length + (g.merge g.duplicates).order.length = g.order.length := by
  have hkeys : (g.duplicates.map (·.1)).Perm
      (g.order.filter fun id => g.duplicates.resolve id ≠ id) := by
    have hsub : (g.duplicates.map (·.1)).Sublist g.order := hg.exact_foldVisit.folded
    rw [List.perm_ext_iff_of_nodup (hg.nodup.sublist hsub) (hg.nodup.filter _)]
    intro id
    rw [List.mem_filter, decide_eq_true_eq, ne_eq, resolve_duplicates_eq_iff hg,
      lookup_eq_none_iff_not_mem, not_not]
    exact ⟨fun hid => ⟨hsub.mem hid, hid⟩, And.right⟩
  have hlength := hkeys.length_eq
  rw [List.length_map, ← List.countP_eq_length_filter] at hlength
  rw [hlength, (quotient_merge hg).countP]

/-- If nothing is folded, no two pure nodes agree. -/
theorem eq_of_congruent (hg : g.Ordered) (hnone : g.duplicates = []) {a b : Nat}
    (ha : a ∈ g.order) (hb : b ∈ g.order) (hpa : (g.node a).flags.pure)
    (hpb : (g.node b).flags.pure) (h : (g.node a).Congruent (g.node b)) : a = b := by
  have hexact := hg.exact_foldVisit
  have hnone' : (g.order.foldl g.foldVisit {}).survivors = [] := hnone
  -- nothing is folded, so every structure was taken with all references as they are
  have hlisted : ∀ id ∈ g.order, (g.node id).flags.pure →
      ((g.node id).structure [], id) ∈ (g.order.foldl g.foldVisit {}).seen := by
    intro id hid hpure
    rcases hexact.met id hid hpure with hmem | hmem
    · rw [hnone'] at hmem
      cases hmem
    · obtain ⟨⟨key, _⟩, he, rfl⟩ := List.mem_map.1 hmem
      obtain ⟨s, hsettled, hkey⟩ := hexact.seen _ he
      rw [hnone'] at hsettled
      rw [← hsettled.structure_nil, ← hkey]
      exact he
  have heq := List.inj_on_of_nodup_map hexact.distinct (hlisted a ha hpa) (hlisted b hb hpb)
    (Node.Congruent.iff_structure.1 h)
  exact congrArg Prod.snd heq

/-! ## All passes -/

theorem length_merge_lt (hg : g.Ordered) (h : g.duplicates ≠ []) :
    (g.merge g.duplicates).order.length < g.order.length := by
  have hlen := length_duplicates hg
  have hpos := List.length_pos_of_ne_nil h
  omega

theorem foldPasses_of_nil {fuel : Nat} (h : g.duplicates = []) :
    foldPasses (fuel + 1) g = (0, g) := by
  rw [foldPasses, h]

theorem foldPasses_of_ne_nil {fuel : Nat} (h : g.duplicates ≠ []) :
    foldPasses (fuel + 1) g =
      (g.duplicates.length + (foldPasses fuel (g.merge g.duplicates)).1,
        (foldPasses fuel (g.merge g.duplicates)).2) := by
  obtain ⟨e, rest, he⟩ := List.exists_cons_of_ne_nil h
  rw [foldPasses, he]

/-- Every pass but the last one drops a node, so there are no more passes than nodes. -/
theorem foldPasses_eq {fuel fuel' : Nat} (hg : g.Ordered) (hfuel : g.order.length < fuel)
    (hfuel' : g.order.length < fuel') : foldPasses fuel g = foldPasses fuel' g := by
  induction fuel generalizing g fuel' with
  | zero => omega
  | succ fuel ih =>
    cases fuel' with
    | zero => omega
    | succ fuel' =>
      by_cases h : g.duplicates = []
      · rw [foldPasses_of_nil h, foldPasses_of_nil h]
      · have hlt := length_merge_lt hg h
        rw [foldPasses_of_ne_nil h, foldPasses_of_ne_nil h,
          ih hg.merge (by omega) (Nat.lt_of_lt_of_le hlt (Nat.le_of_lt_succ hfuel'))]

/-- All passes together are a quotient whose pure nodes are distinct. -/
theorem foldPasses_spec {fuel : Nat} (hg : g.Ordered) (hfuel : g.order.length < fuel) :
    (foldPasses fuel g).2.Ordered ∧ (foldPasses fuel g).2.duplicates = [] ∧
      (foldPasses fuel g).1 + (foldPasses fuel g).2.order.length = g.order.length ∧
      ∃ h, g.Quotient (foldPasses fuel g).2 h := by
  induction fuel generalizing g with
  | zero => omega
  | succ fuel ih =>
    by_cases h : g.duplicates = []
    · rw [foldPasses_of_nil h]
      exact ⟨hg, h, Nat.zero_add _, id, .refl g⟩
    · have hlt := length_merge_lt hg h
      have hlen := length_duplicates hg
      obtain ⟨hordered, hnone, hcount, h', hq⟩ := ih hg.merge (by omega)
      rw [foldPasses_of_ne_nil h]
      exact ⟨hordered, hnone, by simp only; omega, _, (quotient_merge hg).trans hg.nodup hq⟩

end Graph

/-- Folding ends with a quotient of the graph: a map says which node is left for every live node,
and the number that folding returns counts the nodes that another one stands for. In the end no two
pure nodes agree. -/
theorem foldCommon_quotient (g : Graph) (hg : g.Ordered) :
    (∀ fuel, g.order.length < fuel → Graph.foldPasses fuel g = g.foldCommon) ∧
    (∃ h, g.Quotient g.foldCommon.2 h ∧ g.foldCommon.1 = g.order.countP fun id => h id ≠ id) ∧
    ∀ a ∈ g.foldCommon.2.order, ∀ b ∈ g.foldCommon.2.order,
      (g.foldCommon.2.node a).flags.pure → (g.foldCommon.2.node b).flags.pure →
      (g.foldCommon.2.node a).Congruent (g.foldCommon.2.node b) → a = b := by
  obtain ⟨hordered, hnone, hcount, h, hq⟩ := Graph.foldPasses_spec hg (Nat.lt_succ_self _)
  refine ⟨fun fuel hfuel => Graph.foldPasses_eq hg hfuel (Nat.lt_succ_self _), ⟨h, hq, ?_⟩, ?_⟩
  · exact Nat.add_right_cancel (hcount.trans hq.countP.symm)
  · intro a ha b hb hpa hpb hagree
    exact Graph.eq_of_congruent hordered hnone ha hb hpa hpb hagree

/-- Two filters listed before the equal oscillators that they read; their constants are the two
zeros. The noises are equal as well, but not pure. -/
def twinGraph : Graph where
  nodes := #[
    { className := "LPF", rate := .audio, flags := { pure := true }
      inputs := [.node ⟨2, 0⟩, .constant 0] },
    { className := "LPF", rate := .audio, flags := { pure := true }
      inputs := [.node ⟨3, 0⟩, .constant ⟨0x80000000⟩] },
    { className := "SinOsc", rate := .audio, flags := { pure := true }, inputs := [.constant 440] },
    { className := "SinOsc", rate := .audio, flags := { pure := true }, inputs := [.constant 440] },
    { className := "WhiteNoise", rate := .audio },
    { className := "WhiteNoise", rate := .audio },
    { className := "Out", rate := .audio, outputs := 0
      inputs := [.constant 0, .node ⟨0, 0⟩, .node ⟨1, 0⟩, .node ⟨4, 0⟩, .node ⟨5, 0⟩] }]
  order := [0, 1, 2, 3, 4, 5, 6]

/-- The filters become equal only when the oscillators have been folded. -/
theorem twinGraph_folds : twinGraph.Ordered ∧ twinGraph.foldCommon.1 = 2 ∧
    twinGraph.foldCommon.2.order = [0, 2, 4, 5, 6] ∧
    ∃ h, twinGraph.Quotient twinGraph.foldCommon.2 h ∧ h 1 = 0 ∧ h 3 = 2 ∧
      2 = twinGraph.order.countP fun id => h id ≠ id := by
  have hg : twinGraph.Ordered := ⟨by decide, by decide⟩
  have hcount : twinGraph.foldCommon.1 = 2 := by decide +kernel
  have horder : twinGraph.foldCommon.2.order = [0, 2, 4, 5, 6] := by decide +kernel
  obtain ⟨-, ⟨h, hq, hmerged⟩, -⟩ := foldCommon_quotient twinGraph hg
  have hlive : ∀ id ∈ twinGraph.order, h id ∈ [0, 2, 4, 5, 6] := fun id hid =>
    horder ▸ hq.live id hid
  have hclass : ∀ id ∈ twinGraph.order,
      (twinGraph.node id).className = (twinGraph.foldCommon.2.node (h id)).className :=
    fun id hid => (hq.node id hid).className
  refine ⟨hg, hcount, horder, h, hq, ?_, ?_, hcount ▸ hmerged⟩
  · have hmem := hlive 1 (by decide)
    have hname := hclass 1 (by decide)
    generalize h 1 = survivor at hmem hname
    revert survivor
    decide +kernel
  · have hmem := hlive 3 (by decide)
    have hname := hclass 3 (by decide)
    generalize h 3 = survivor at hmem hname
    revert survivor
    decide +kernel

end SynthGraph
