import SynthGraph.Proofs.Faithful

/-!
# What becomes of registered nodes

A node keeps the number of its registration through all passes. If it is still live in the end, it
is the generator that was registered: only its inputs have changed, and where it read a channel of a
parameter it reads the control that carries this channel. Until the nodes are sorted, those that
were registered also stand in the order of registration. All other live nodes are controls or of one
of the classes in `insertedClasses`.
-/

namespace SynthGraph

theorem Node.getElem?_keptInputs_of {n m : Node} {index : Nat} {input input' : Input}
    (hclass : m.className = n.className) (hn : n.keptInputs[index]? = some input)
    (hm : m.inputs[index]? = some input') : m.keptInputs[index]? = some input' := by
  unfold keptInputs at hn ⊢
  rw [hclass]
  split at hn
  · next hbuffer =>
    have hlt : index < 2 := by
      have := (List.getElem?_eq_some_iff.1 hn).1
      rw [List.length_take] at this
      omega
    rw [if_pos hbuffer, List.getElem?_take, if_pos hlt, hm]
  · next hbuffer => rw [if_neg hbuffer, hm]

/-- A list from which nothing was taken, with `new` put into it, is the same where `new` does not
count. -/
theorem filter_eq_of_sublist_of_perm {α : Type} {l l' new : List α} {p : α → Bool}
    (hsub : l.Sublist l') (hperm : l'.Perm (l ++ new)) (hnew : ∀ a ∈ new, p a = false) :
    l'.filter p = l.filter p := by
  have hnil : new.filter p = [] := List.filter_eq_nil_iff.2 fun a ha => by simp [hnew a ha]
  have hlength := (hperm.filter p).length_eq
  rw [List.filter_append, hnil, List.append_nil] at hlength
  exact ((hsub.filter p).eq_of_length hlength.symm).symm

namespace Graph

variable {source g₁ g₂ g g' : Graph} {copies : List ChainCopy} {options : Options}

/-- The classes of the nodes that are inserted besides controls. -/
def insertedClasses : Catalog :=
  [Catalog.bufFrames, Catalog.localBuf, Catalog.pvCopy, Catalog.maxLocalBufs]

/-- What the live nodes of `g` are, whose numbers tell which of them were registered in `source`. -/
structure Descends (source g : Graph) : Prop where
  generator : ∀ id ∈ g.order, id < source.nodes.size → id ∈ source.generators
  alike : ∀ id ∈ g.order, id < source.nodes.size → (source.node id).Alike (g.node id)
  controlled : ∀ id ∈ g.order, id < source.nodes.size → ∀ (index : Nat) (ref : NodeRef),
    (source.node id).keptInputs[index]? = some (.node ref) → (source.node ref.ugen).isParameter →
    (g.node id).inputs[index]? =
      some (.node (controlRef source.controlGroups source.nodes.size ref))
  inserted : ∀ id ∈ g.order, source.nodes.size ≤ id →
    id ∈ controlIds source.nodes.size source.controlGroups ∨
      ∃ d ∈ insertedClasses, (g.node id).className = d.name ∧ (g.node id).flags = d.flags

/-- What refers to a parameter is turned to a control. -/
theorem Sourced.controlRef_parameter (hs : source.Sourced) {id index : Nat} {ref : NodeRef}
    (hid : id ∈ source.order) (hi : (source.node id).inputs[index]? = some (.node ref))
    (hp : (source.node ref.ugen).isParameter) :
    ∃ p k group output, (source.node ref.ugen).parameter? = some p ∧
      source.controlGroups[k]? = some group ∧ group.node.Carries output p ref.output ∧
      controlRef source.controlGroups source.nodes.size ref = ⟨source.nodes.size + k, output⟩ := by
  rcases hs.controlRef_cases hid (Node.mem_refs.2 (List.mem_of_getElem? hi)) with
    ⟨p, k, group, output, hp, hk, -, hcarries, href⟩ | ⟨hgen, -⟩
  · exact ⟨p, k, group, output, hp, hk, hcarries, href⟩
  · rw [(mem_generators.1 hgen).2] at hp
    cases hp

/-! ## The passes that add nodes -/

namespace Stages

/-- A registered node that is live now was live all along. -/
theorem live_of_lt (h : Stages source g₁ g₂ g copies) {id : Nat} (hid : id ∈ g.order)
    (hlt : id < source.nodes.size) :
    id ∈ g₂.order ∧ id ∈ g₁.order ∧ id ∈ source.generators := by
  have hsize₁ := h.controls.size
  have hsize₂ := h.split.size
  have hid₂ : id ∈ g₂.order := by
    rcases h.declared.mem_order.1 hid with ⟨hid₂, -⟩ | ⟨-, rfl⟩
    · exact hid₂
    · omega
  have hid₁ : id ∈ g₁.order := by
    rcases List.mem_append.1 (h.split.order.mem_iff.1 hid₂) with hid₁ | hnew
    · exact hid₁
    · rw [h.split.ids, List.mem_range'_1] at hnew
      omega
  refine ⟨hid₂, hid₁, mem_generators.2 ?_⟩
  rcases h.controls.mem_order.1 hid₁ with ⟨k, group, -, rfl⟩ | hold
  · omega
  · exact hold

/-- Slots that read no chain are never rerouted. -/
theorem not_rerouted (h : Stages source g₁ g₂ g copies) {id index : Nat} {ref : NodeRef}
    (hpv : g₁.isPv ref.ugen = false) (hi : (g₁.node id).inputs[index]? = some (.node ref)) :
    ∀ c ∈ copies, c.slot ≠ ⟨id, index⟩ := by
  intro c hc hslot
  have hreads := h.readsChain hc
  obtain ⟨output, hchain⟩ := hreads.input
  rw [hslot] at hchain
  obtain rfl : ref = ⟨c.chain, output⟩ :=
    Input.node.inj (Option.some.inj (hi.symm.trans hchain))
  rw [hreads.chain] at hpv
  cases hpv

theorem bound_of_lt (h : Stages source g₁ g₂ g copies) {id : Nat} (hid : id ∈ g.order)
    (hlt : id < source.nodes.size) : id < g₁.nodes.size ∧ id < g₂.nodes.size :=
  ⟨h.closed₁.bound _ (h.live_of_lt hid hlt).2.1, h.closed₂.bound _ (h.live_of_lt hid hlt).1⟩

theorem alike₂_of_lt (h : Stages source g₁ g₂ g copies) {id : Nat} (hid : id ∈ g.order)
    (hlt : id < source.nodes.size) : (source.node id).Alike (g₂.node id) :=
  (h.controls.alike (h.live_of_lt hid hlt).2.2).trans (h.split.alike _ (h.bound_of_lt hid hlt).1)

/-- A kept input that reads no chain reads what it read, or the control that was made for it. -/
theorem getElem?_of_kept (h : Stages source g₁ g₂ g copies) {id index : Nat} {ref : NodeRef}
    (hid : id ∈ g.order) (hlt : id < source.nodes.size)
    (hkept : (source.node id).keptInputs[index]? = some (.node ref))
    (hpv : g₁.isPv (controlRef source.controlGroups source.nodes.size ref).ugen = false) :
    (g.node id).inputs[index]? =
      some (.node (controlRef source.controlGroups source.nodes.size ref)) := by
  obtain ⟨hid₂, -, hgen⟩ := h.live_of_lt hid hlt
  obtain ⟨hlt₁, hlt₂⟩ := h.bound_of_lt hid hlt
  have hi₁ : (g₁.node id).inputs[index]? =
      some (.node (controlRef source.controlGroups source.nodes.size ref)) := by
    rw [h.controls.inputs hgen, Node.getElem?_keptInputs hkept, Option.map_some, Input.mapNode]
  have hi₂ := (h.split.others id hlt₁ index (h.not_rerouted hpv hi₁)).trans hi₁
  have hkept₂ := Node.getElem?_keptInputs_of (h.alike₂_of_lt hid hlt).className hkept hi₂
  rw [h.declared.inputs hid₂ hlt₂,
    List.getElem?_append_left (List.getElem?_eq_some_iff.1 hkept₂).1, hkept₂]

theorem inserted (h : Stages source g₁ g₂ g copies) (hs : source.Sourced) {id : Nat}
    (hid : id ∈ g.order) (hge : source.nodes.size ≤ id) :
    id ∈ controlIds source.nodes.size source.controlGroups ∨
      ∃ d ∈ insertedClasses, (g.node id).className = d.name ∧ (g.node id).flags = d.flags := by
  rcases h.declared.mem_order.1 hid with ⟨hid₂, -⟩ | ⟨hne, rfl⟩
  · have halike := h.declared.alike (h.closed₂.bound id hid₂)
    rcases List.mem_append.1 (h.split.order.mem_iff.1 hid₂) with hid₁ | hnew
    · rcases h.controls.mem_order.1 hid₁ with ⟨k, group, hk, rfl⟩ | ⟨hold, -⟩
      · exact .inl (mem_controlIds hk)
      · have := hs.closed.bound id hold
        omega
    · obtain ⟨c, hc, hmem⟩ := List.mem_flatMap.1 hnew
      rw [halike.className, halike.flags]
      rcases h.split.synthesized hc hmem with ⟨input, hnode⟩ | hnode | hnode <;> rw [hnode]
      · exact .inr ⟨Catalog.bufFrames, by simp [insertedClasses], rfl, rfl⟩
      · exact .inr ⟨Catalog.localBuf, by simp [insertedClasses], rfl, rfl⟩
      · exact .inr ⟨Catalog.pvCopy, by simp [insertedClasses], rfl, rfl⟩
  · rw [h.declared.declaration hne]
    exact .inr ⟨Catalog.maxLocalBufs, by simp [insertedClasses], rfl, rfl⟩

theorem descends (h : Stages source g₁ g₂ g copies) (hs : source.Sourced) :
    source.Descends g := by
  constructor
  case generator => exact fun id hid hlt => (h.live_of_lt hid hlt).2.2
  case alike =>
    exact fun id hid hlt =>
      (h.alike₂_of_lt hid hlt).trans (h.declared.alike (h.bound_of_lt hid hlt).2)
  case controlled =>
    intro id hid hlt index ref hkept hparam
    have hsource := (mem_generators.1 (h.live_of_lt hid hlt).2.2).1
    obtain ⟨p, k, group, output, -, hk, -, href⟩ :=
      hs.controlRef_parameter hsource (Node.getElem?_keptInputs hkept) hparam
    refine h.getElem?_of_kept hid hlt hkept ?_
    rw [href]
    exact h.controls.not_isPv hk
  case inserted => exact fun id hid => h.inserted hs hid

end Stages

/-! ## The passes that turn references and drop nodes -/

theorem Descends.of_subset (h : source.Descends g) (horder : g'.order ⊆ g.order)
    (hnode : ∀ id, g'.node id = g.node id) : source.Descends g' := by
  constructor
  · exact fun id hid => h.generator id (horder hid)
  · intro id hid
    rw [hnode]
    exact h.alike id (horder hid)
  · intro id hid
    rw [hnode]
    exact h.controlled id (horder hid)
  · intro id hid
    rw [hnode]
    exact h.inserted id (horder hid)

theorem Descends.merge (h : source.Descends g) (hs : source.Sourced) (hg : g.Ordered)
    (hc : g.HasControls source.nodes.size source.controlGroups) :
    source.Descends (g.merge g.duplicates) := by
  obtain ⟨horder, -, hnode⟩ := merge_spec hg g.duplicates
  have hlive : ∀ {id}, id ∈ (g.merge g.duplicates).order → id ∈ g.order := by
    intro id hid
    rw [horder] at hid
    exact (List.mem_filter.1 hid).1
  constructor
  case generator => exact fun id hid => h.generator id (hlive hid)
  case alike =>
    exact fun id hid hlt => (h.alike id (hlive hid) hlt).trans (alike_merge hg _ id)
  case controlled =>
    intro id hid hlt index ref hkept hparam
    have hsource := (mem_generators.1 (h.generator id (hlive hid) hlt)).1
    obtain ⟨p, k, group, output, -, hk, -, href⟩ :=
      hs.controlRef_parameter hsource (Node.getElem?_keptInputs hkept) hparam
    rw [hnode, if_pos hid, Node.mapRefs, List.getElem?_map,
      h.controlled id (hlive hid) hlt index ref hkept hparam, href]
    simp [Input.mapNode, Survivors.resolveRef, Survivors.resolve,
      hc.lookup_duplicates hg (mem_controlIds hk)]
  case inserted =>
    intro id hid
    rw [(alike_merge hg _ id).className, (alike_merge hg _ id).flags]
    exact h.inserted id (hlive hid)

theorem Descends.foldIf (h : source.Descends g) (hs : source.Sourced) (hr : source.Resolved g)
    (hl : g.Led source.nodes.size source.controlGroups) (options : Options) :
    source.Descends (g.foldIf options) := by
  refine (hr.wired.foldIf (P := fun g => g.Led source.nodes.size source.controlGroups ∧
    source.Descends g) ?_ ⟨hl, h⟩ options).2.2
  rintro g hw ⟨hl, h⟩
  exact ⟨hl.merge hw.toOrdered, h.merge hs hw.toOrdered hl.toHasControls⟩

theorem Sourced.descends_compiled (hs : source.Sourced) (h : source.compiled options = .ok g) :
    source.Descends g := by
  obtain ⟨complete, hc, hlive, hnode⟩ := exists_complete h
  obtain ⟨g₁, g₂, copies, hstages⟩ := hs.stages hc
  obtain ⟨hr, hl, -⟩ := hs.resolved_complete hc
  exact ((hstages.descends hs).foldIf hs hr hl options).of_subset hlive hnode

/-! ## The order of registration -/

/-- The nodes of `source` that are live in `g` are listed as they are in `source`. -/
def InOrder (source g : Graph) : Prop :=
  (g.order.filter (· < source.nodes.size)).Sublist source.order

theorem Stages.inOrder (h : Stages source g₁ g₂ g copies) (hs : source.Sourced) :
    source.InOrder g := by
  have hsize₁ := h.controls.size
  have hsize₂ := h.split.size
  have hfilter₁ : g₁.order.filter (· < source.nodes.size) = source.generators := by
    rw [h.controls.order, List.filter_append, List.filter_eq_nil_iff.2, List.nil_append]
    · refine List.filter_eq_self.2 fun id hid => ?_
      simpa using hs.closed.bound id (List.mem_filter.1 hid).1
    · intro id hid
      have := (List.mem_range'_1.1 hid).1
      simpa using this
  have hfilter₂ : g₂.order.filter (· < source.nodes.size) =
      g₁.order.filter (· < source.nodes.size) := by
    refine filter_eq_of_sublist_of_perm h.split.kept h.split.order fun id hid => ?_
    rw [h.split.ids, List.mem_range'_1] at hid
    simp only [decide_eq_false_iff_not]
    omega
  have hfilter : g.order.filter (· < source.nodes.size) =
      g₂.dropDeclarations.order.filter (· < source.nodes.size) := by
    refine filter_eq_of_sublist_of_perm h.declared.kept h.declared.order fun id hid => ?_
    unfold declarations at hid
    split at hid
    · cases hid
    · obtain rfl := List.mem_singleton.1 hid
      simp only [decide_eq_false_iff_not]
      omega
  have hdropped : g₂.dropDeclarations.order.Sublist g₂.order := List.filter_sublist
  have hsub := hdropped.filter (· < source.nodes.size)
  rw [← hfilter, hfilter₂, hfilter₁] at hsub
  exact hsub.trans List.filter_sublist

theorem InOrder.foldIf (h : source.InOrder g) (hg : g.Wired source.IsDeclaration)
    (options : Options) : source.InOrder (g.foldIf options) := by
  refine (hg.foldIf (P := source.InOrder) (fun g hw h => ?_) h options).2
  refine .trans (List.Sublist.filter _ ?_) h
  rw [(merge_spec hw.toOrdered _).1]
  exact List.filter_sublist

/-- Of two registered nodes the one registered first comes first. -/
theorem InOrder.lt_of_lt (h : source.InOrder g) (hs : source.Sourced) {i j a b : Nat}
    (hi : g.order[i]? = some a) (hj : g.order[j]? = some b) (hb : b < source.nodes.size)
    (hab : a < b) : i < j := by
  have hpair : g.order.Pairwise fun x y => ¬(y < x ∧ x < source.nodes.size) := by
    have hfiltered := hs.ascending.sublist h
    rw [List.pairwise_filter] at hfiltered
    refine hfiltered.imp fun {x y} hxy ⟨hyx, hx⟩ => ?_
    have := hxy (by simpa using hx) (by simpa using Nat.lt_trans hyx hx)
    omega
  exact lt_of_pairwise_not (R := fun x y => x < y ∧ y < source.nodes.size) hpair (by simp) hi hj
    ⟨hab, hb⟩

end Graph

/-- The registered node `id` is still live when `b` is built, at place `pos` of the definition. -/
def Builder.Places (b : Builder) (options : Options) (id pos : Nat) : Prop :=
  id < b.nodes.size ∧
    ∃ g, (Graph.ofNodes b.nodes).compiled options = .ok g ∧ g.emission[pos]? = some id

end SynthGraph
