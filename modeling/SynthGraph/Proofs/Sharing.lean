import SynthGraph.Proofs.Execution

/-!
# No chain is transformed twice

A generator in a chain transforms the buffer of the chain in place, so after compilation at most one
slot reads each chain in place, and all copies of the chain are taken before that. The slots that
got a copy read the copy, and the last one keeps the chain. The copies stand before the readers they
are for, which are listed before the last one; they are width-first, so sorting leaves them there.
-/

namespace SynthGraph

/-- The slot belongs to a generator that transforms the chain at place `chain` in place. -/
structure Definition.ReadsChain (d : Definition) (chain : Nat) (slot : Slot) : Prop where
  reader : ∃ u, d.ugens[slot.ugen]? = some u ∧ (u.flags.isPv ∧ u.flags.pv ≠ .copy) ∧
    ∃ output, u.inputs[slot.index]? = some (.node ⟨chain, output⟩)
  chain : ∃ u, d.ugens[chain]? = some u ∧ u.flags.isPv

/-- The generator at place `pos` was inserted to copy the chain at place `chain`. -/
structure Builder.CopiesChain (b : Builder) (options : Options) (d : Definition)
    (chain pos : Nat) : Prop where
  inserted : ∀ id, ¬b.Places options id pos
  copy : ∃ u, d.ugens[pos]? = some u ∧ u.className = Catalog.pvCopy.name ∧
    ∃ output, u.inputs[0]? = some (.node ⟨chain, output⟩)

/-- No chain is transformed in place twice, or before it is copied. -/
structure Builder.Unshared (b : Builder) (options : Options) (d : Definition) : Prop where
  single : ∀ chain slot slot', d.ReadsChain chain slot → d.ReadsChain chain slot' → slot = slot'
  copied : ∀ chain slot pos, d.ReadsChain chain slot → b.CopiesChain options d chain pos →
    pos < slot.ugen

theorem Slot.before_or_eq (s t : Slot) : s.Before t ∨ s = t ∨ t.Before s := by
  obtain ⟨u, i⟩ := s
  obtain ⟨v, j⟩ := t
  simp only [Before, Slot.mk.injEq]
  omega

namespace Graph

variable {source g₁ g₂ g g' f : Graph} {copies : List ChainCopy} {a : Nat} {s t : Slot}

/-! ## Slots that read a chain -/

theorem Split.copy_inj (h : g.Split copies g') {c c' : ChainCopy} (hc : c ∈ copies)
    (hc' : c' ∈ copies) (heq : c.copy = c'.copy) : c = c' := by
  have hnodup : (copies.flatMap ChainCopy.ids).Nodup := h.ids ▸ List.nodup_range'
  have hcopies : (copies.map ChainCopy.copy).Nodup := by
    refine List.pairwise_map.2 ((List.nodup_flatMap.1 hnodup).2.imp ?_)
    intro c c' hdisjoint heq
    exact hdisjoint c.copy_mem_ids (heq ▸ c'.copy_mem_ids)
  exact List.inj_on_of_nodup_map hcopies hc hc' heq

/-- A slot reads the copy that was made for it, or a chain that it has read before. -/
theorem Split.readsChain (h : g.Split copies g') (hg : g.Closed) (hr : g'.ReadsChain a s) :
    (∃ c ∈ copies, c.slot = s ∧ c.copy = a) ∨
      g.ReadsChain a s ∧ ∀ c ∈ copies, c.slot ≠ s := by
  obtain ⟨output, hinput⟩ := hr.input
  have hlive : s.ugen ∈ g.order := by
    rcases List.mem_append.1 (h.order.mem_iff.1 hr.live) with hlive | hnew
    · exact hlive
    · obtain ⟨c, hc, hid⟩ := List.mem_flatMap.1 hnew
      have hreader := hr.reader
      rcases h.synthesized hc hid with ⟨input, hnode⟩ | hnode | hnode <;> rw [hnode] at hreader
      · cases hreader.1
      · cases hreader.1
      · exact absurd rfl hreader.2
  have hlt := hg.bound _ hlive
  by_cases hslot : ∃ c ∈ copies, c.slot = s
  · obtain ⟨c, hc, rfl⟩ := hslot
    rw [h.rerouted c hc] at hinput
    cases hinput
    exact .inl ⟨c, hc, rfl, rfl⟩
  · have hnot : ∀ c ∈ copies, c.slot ≠ s := fun c hc heq => hslot ⟨c, hc, heq⟩
    rw [h.others s.ugen hlt s.index hnot] at hinput
    have hchain := (hg.ref hlive (Node.mem_refs.2 (List.mem_of_getElem? hinput))).1
    refine .inr ⟨⟨hlive, ?_, ⟨output, hinput⟩, ?_⟩, hnot⟩
    · rw [← (h.alike _ hlt).flags]
      exact hr.reader
    · rw [isPv, ← (h.alike _ (hg.bound _ hchain)).flags]
      exact hr.chain

/-- Declarations are in no chain. -/
theorem Declared.readsChain (h : g.Declared g') (hg : g.Closed) (hr : g'.ReadsChain a s) :
    g.ReadsChain a s := by
  obtain ⟨output, hinput⟩ := hr.input
  have hnot : ∀ id, g'.isPv id → ¬(g.buffers ≠ [] ∧ id = g.nodes.size) := by
    rintro id hpv ⟨hne, rfl⟩
    rw [isPv, h.declaration hne] at hpv
    cases hpv
  have hlive : s.ugen ∈ g.order := by
    rcases h.mem_order.1 hr.live with ⟨hlive, -⟩ | hnew
    · exact hlive
    · exact absurd hnew (hnot _ hr.reader.1)
  have hlt := hg.bound _ hlive
  have hold : (g.node s.ugen).inputs[s.index]? = some (.node ⟨a, output⟩) := by
    rw [h.inputs hlive hlt, List.getElem?_append] at hinput
    split at hinput
    · exact Node.getElem?_keptInputs hinput
    · split at hinput
      · next hclass =>
        have hbuffers : g.buffers ≠ [] := List.ne_nil_of_mem (mem_buffers.2 ⟨hlive, hclass⟩)
        have heq := List.mem_of_getElem? hinput
        rw [List.mem_singleton] at heq
        cases heq
        exact absurd ⟨hbuffers, rfl⟩ (hnot _ hr.chain)
      · cases hinput
  have hchain := (hg.ref hlive (Node.mem_refs.2 (List.mem_of_getElem? hold))).1
  refine ⟨hlive, ?_, ⟨output, hold⟩, ?_⟩
  · rw [← (h.alike hlt).flags]
    exact hr.reader
  · rw [isPv, ← (h.alike (hg.bound _ hchain)).flags]
    exact hr.chain

/-! ## After the passes that add nodes -/

/-- In `f` no chain is transformed twice, and the inserted copies of a chain are listed before what
transforms it. -/
structure Unshared (source f : Graph) (copies : List ChainCopy) : Prop where
  single : ∀ a s t, f.ReadsChain a s → f.ReadsChain a t → s = t
  before : ∀ c ∈ copies, ∀ s, f.ReadsChain c.chain s → f.Precedes c.copy s.ugen
  copy : ∀ c ∈ copies, c.chain ∈ f.order ∧ f.isPv c.chain ∧ c.copy ∈ f.order ∧
    (f.node c.copy).inputs[0]? = some (.node ⟨c.chain, 0⟩) ∧
    (f.node c.copy).flags = Catalog.pvCopy.flags
  known : ∀ id ∈ f.order, source.nodes.size ≤ id →
    (f.node id).className = Catalog.pvCopy.name → ∃ c ∈ copies, c.copy = id

namespace Stages

theorem not_mem_copyPlan (h : Stages source g₁ g₂ g copies) (hs : ∀ c ∈ copies, c.slot ≠ s) :
    (a, s) ∉ g₁.copyPlan := by
  intro hmem
  rw [← h.plan] at hmem
  obtain ⟨c, hc, heq⟩ := List.mem_map.1 hmem
  exact hs c hc (congrArg Prod.snd heq)

/-- Of the slots that read a chain only the last one still does. -/
theorem eq_of_readsChain (h : Stages source g₁ g₂ g copies) (hs : source.Sourced)
    (hr : g₂.ReadsChain a s) (hr' : g₂.ReadsChain a t) : s = t := by
  have hnew : ∀ c ∈ copies, ∀ s, c.copy = a → ¬g₁.ReadsChain a s := by
    rintro c hc s rfl hr
    have hlt := h.closed₁.bound _ (hr.chain_live h.closed₁).1
    have hge := (h.split.mem_ids hc c.copy_mem_ids).1
    omega
  rcases h.split.readsChain h.closed₁ hr with ⟨c, hc, rfl, hcopy⟩ | ⟨hr, hnot⟩
  · rcases h.split.readsChain h.closed₁ hr' with ⟨c', hc', rfl, hcopy'⟩ | ⟨hr', -⟩
    · rw [h.split.copy_inj hc hc' (hcopy.trans hcopy'.symm)]
    · exact absurd hr' (hnew c hc t hcopy)
  · rcases h.split.readsChain h.closed₁ hr' with ⟨c', hc', rfl, hcopy'⟩ | ⟨hr', hnot'⟩
    · exact absurd hr (hnew c' hc' s hcopy')
    · have hsorted := h.controls.ascending hs
      rcases s.before_or_eq t with hbefore | heq | hbefore
      · exact absurd ((mem_copyPlan_iff hsorted).2 ⟨hr, t, hr', hbefore⟩) (h.not_mem_copyPlan hnot)
      · exact heq
      · exact absurd ((mem_copyPlan_iff hsorted).2 ⟨hr', s, hr, hbefore⟩)
          (h.not_mem_copyPlan hnot')

/-- Copies are listed before the slot that still reads their chain. -/
theorem precedes_of_readsChain (h : Stages source g₁ g₂ g copies) (hs : source.Sourced)
    {c : ChainCopy} (hc : c ∈ copies) (hr : g₂.ReadsChain c.chain s) :
    g₂.Precedes c.copy s.ugen := by
  have hreads := h.readsChain hc
  have hcopied : g₂.Precedes c.copy c.slot.ugen := h.split.before c hc _ c.copy_mem_ids
  obtain ⟨hr, hnot⟩ : g₁.ReadsChain c.chain s ∧ ∀ c ∈ copies, c.slot ≠ s := by
    rcases h.split.readsChain h.closed₁ hr with ⟨c', hc', -, heq⟩ | hkept
    · have hlt := h.closed₁.bound _ (hreads.chain_live h.closed₁).1
      have hge := (h.split.mem_ids hc' c'.copy_mem_ids).1
      omega
    · exact hkept
  have hsorted := h.controls.ascending hs
  rcases c.slot.before_or_eq s with hbefore | heq | hbefore
  · rcases hbefore with hlt | ⟨heq, -⟩
    · have hlisted : g₁.order.Pairwise fun x y => ¬(g₁.isPv y ∧ g₁.isPv x ∧ y < x) :=
        hsorted.imp fun hxy ⟨hy, hx, hlt⟩ => Nat.lt_asymm hlt (hxy hx hy)
      have hreaders := precedes_of_pairwise_not hlisted (fun x hx => Nat.lt_irrefl x hx.2.2)
        hreads.live hr.live ⟨hreads.reader.1, hr.reader.1, hlt⟩
      exact hcopied.trans h.closed₂.nodup (hreaders.mono h.split.kept)
    · exact heq ▸ hcopied
  · exact absurd heq (hnot c hc)
  · exact absurd ((mem_copyPlan_iff hsorted).2 ⟨hr, c.slot, hreads, hbefore⟩)
      (h.not_mem_copyPlan hnot)

/-- Without declarations of the builder, nothing is dropped when local buffers are declared. -/
theorem sublist_complete (h : Stages source g₁ g₂ g copies) (hs : source.Sourced)
    (hnone : ∀ id, ¬source.IsDeclaration id) : g₂.order.Sublist g.order := by
  have hkept := h.declared.kept
  rwa [dropDeclarations, List.filter_eq_self.2] at hkept
  intro id hid
  have hnot : ¬g₂.IsDeclaration id := fun hdecl => hnone id ((h.isDeclaration_iff hs hid).1 hdecl)
  simpa [IsDeclaration, hid] using hnot

/-- An inserted copy is one of those that the plan asked for. -/
theorem exists_copy (h : Stages source g₁ g₂ g copies) (hs : source.Sourced) {id : Nat}
    (hid : id ∈ g.order) (hge : source.nodes.size ≤ id)
    (hclass : (g.node id).className = Catalog.pvCopy.name) : ∃ c ∈ copies, c.copy = id := by
  have hcontrols : ∀ d ∈ ControlGroup.classes, d.name ≠ Catalog.pvCopy.name := by decide
  rcases h.declared.mem_order.1 hid with ⟨hid₂, -⟩ | ⟨hne, rfl⟩
  · rw [(h.declared.alike (h.closed₂.bound id hid₂)).className] at hclass
    rcases List.mem_append.1 (h.split.order.mem_iff.1 hid₂) with hid₁ | hnew
    · rw [(h.split.alike id (h.closed₁.bound id hid₁)).className] at hclass
      rcases h.controls.mem_order.1 hid₁ with ⟨k, group, hk, rfl⟩ | ⟨hold, -⟩
      · rw [h.controls.control k group hk] at hclass
        exact absurd hclass (hcontrols _ group.descriptor_mem_classes)
      · have := hs.closed.bound id hold
        omega
    · obtain ⟨c, hc, hmem⟩ := List.mem_flatMap.1 hnew
      rcases ChainCopy.mem_ids.1 hmem with hframes | rfl | rfl
      · obtain ⟨input, hnode⟩ := h.split.frames c hc id hframes
        rw [hnode] at hclass
        exact absurd hclass (show Catalog.bufFrames.name ≠ Catalog.pvCopy.name by decide)
      · rw [h.split.buffer c hc] at hclass
        exact absurd hclass (show Catalog.localBuf.name ≠ Catalog.pvCopy.name by decide)
      · exact ⟨c, hc, rfl⟩
  · rw [h.declared.declaration hne] at hclass
    exact absurd hclass (show Catalog.maxLocalBufs.name ≠ Catalog.pvCopy.name by decide)

theorem unshared (h : Stages source g₁ g₂ g copies) (hs : source.Sourced)
    (hnone : ∀ id, ¬source.IsDeclaration id) : source.Unshared g copies := by
  have hsub := h.sublist_complete hs hnone
  constructor
  case single =>
    intro a s t hr hr'
    exact h.eq_of_readsChain hs (h.declared.readsChain h.closed₂ hr)
      (h.declared.readsChain h.closed₂ hr')
  case before =>
    intro c hc s hr
    exact (h.precedes_of_readsChain hs hc (h.declared.readsChain h.closed₂ hr)).mono hsub
  case copy =>
    intro c hc
    have hreads := h.readsChain hc
    have hchain := (hreads.chain_live h.closed₁).1
    have hchain₂ := h.split.kept.mem hchain
    have hcopy₂ : c.copy ∈ g₂.order := by
      refine h.split.order.mem_iff.2 (List.mem_append_right _ (List.mem_flatMap.2 ⟨c, hc, ?_⟩))
      exact c.copy_mem_ids
    have hnode : g.node c.copy = c.copyNode := by
      rw [h.declared.node_of_ne (h.closed₂.bound _ hcopy₂), h.split.copy c hc]
      rw [h.split.copy c hc]
      exact show Catalog.pvCopy.name ≠ Catalog.localBuf.name by decide
    refine ⟨hsub.mem hchain₂, ?_, hsub.mem hcopy₂, ?_, ?_⟩
    · rw [isPv, (h.declared.alike (h.closed₂.bound _ hchain₂)).flags,
        (h.split.alike _ (h.closed₁.bound _ hchain)).flags]
      exact hreads.chain
    · rw [hnode]
      rfl
    · rw [hnode]
      rfl
  case known => exact fun id hid => h.exists_copy hs hid

end Stages

/-! ## Folding -/

/-- What is in a chain is not folded, does not run before what it reads and is not brought to the
front. -/
def PlainChains (g : Graph) : Prop :=
  ∀ id ∈ g.order, g.isPv id → (g.node id).flags.pure = false ∧
    (g.node id).flags.feedbackReader = false ∧ (g.node id).flags.control = false

theorem Descends.plainChains (h : source.Descends g)
    (hc : g.HasControls source.nodes.size source.controlGroups) (hplain : source.PlainChains) :
    g.PlainChains := by
  intro id hid hpv
  unfold isPv at hpv
  by_cases hlt : id < source.nodes.size
  · have hflags := (h.alike id hid hlt).flags
    rw [hflags] at hpv ⊢
    exact hplain id (mem_generators.1 (h.generator id hid hlt)).1 hpv
  · rcases h.inserted id hid (by omega) with hmem | ⟨d, hd, -, hflags⟩
    · obtain ⟨group, -, hnode⟩ := hc.exists_group hmem
      rw [hnode, group.flags_node] at hpv
      cases hpv
    · have hclasses : ∀ d ∈ insertedClasses, d.flags.isPv →
          d.flags.pure = false ∧ d.flags.feedbackReader = false ∧ d.flags.control = false := by
        decide
      rw [hflags] at hpv ⊢
      exact hclasses d hd hpv

theorem PlainChains.merge (h : g.PlainChains) (hg : g.Ordered) :
    (g.merge g.duplicates).PlainChains := by
  intro id hid hpv
  rw [(merge_spec hg _).1] at hid
  unfold isPv at hpv
  rw [(alike_merge hg _ id).flags] at hpv ⊢
  exact h id (List.mem_filter.1 hid).1 hpv

/-- Only pure nodes are found to survive others, so no slot comes to read a chain. -/
theorem ReadsChain.of_merge (hr : (g.merge g.duplicates).ReadsChain a s) (hg : g.Ordered)
    (hplain : g.PlainChains) : g.ReadsChain a s := by
  obtain ⟨horder, -, hnode⟩ := merge_spec hg g.duplicates
  have hlive : s.ugen ∈ g.order := (List.mem_filter.1 (horder ▸ hr.live)).1
  have hchain : g.isPv a := by
    rw [isPv, ← (alike_merge hg g.duplicates a).flags]
    exact hr.chain
  refine ⟨hlive, ?_, ?_, hchain⟩
  · rw [← (alike_merge hg g.duplicates s.ugen).flags]
    exact hr.reader
  · obtain ⟨output, hinput⟩ := hr.input
    rw [hnode, if_pos hr.live, Node.mapRefs, List.getElem?_map] at hinput
    obtain ⟨input, hold, hmap⟩ := Option.map_eq_some_iff.1 hinput
    cases input with
    | constant value => cases hmap
    | node ref =>
      cases hlookup : g.duplicates.lookup ref.ugen with
      | none =>
        simp only [Input.mapNode, Survivors.resolveRef, Survivors.resolve, hlookup] at hmap
        cases hmap
        exact ⟨ref.output, hold⟩
      | some survivor =>
        simp only [Input.mapNode, Survivors.resolveRef, Survivors.resolve, hlookup] at hmap
        cases hmap
        have hmem := mem_of_lookup hlookup
        have hpure := survivor_pure hg hmem
        rw [(hplain _ (duplicates_spec hg hmem).2.1 hchain).1] at hpure
        cases hpure

theorem Unshared.merge (h : source.Unshared g copies) (hg : g.Ordered) (hplain : g.PlainChains) :
    source.Unshared (g.merge g.duplicates) copies := by
  obtain ⟨horder, -, hnode⟩ := merge_spec hg g.duplicates
  have hkept : ∀ {id}, id ∈ g.order → g.isPv id → g.duplicates.lookup id = none := fun hid hpv =>
    lookup_duplicates_of_impure hg (hplain _ hid hpv).1
  have hcopyPv : ∀ c ∈ copies, g.isPv c.copy := by
    intro c hc
    rw [isPv, (h.copy c hc).2.2.2.2]
    rfl
  constructor
  case single =>
    intro a s t hr hr'
    exact h.single a s t (hr.of_merge hg hplain) (hr'.of_merge hg hplain)
  case before =>
    intro c hc s hr
    have hr := hr.of_merge hg hplain
    have hcopy : g.duplicates.lookup c.copy = none := hkept (h.copy c hc).2.2.1 (hcopyPv c hc)
    have hreader : g.duplicates.lookup s.ugen = none := hkept hr.live hr.reader.1
    unfold Precedes
    rw [horder]
    exact (h.before c hc s hr).filter (by rw [hcopy]; rfl) (by rw [hreader]; rfl)
  case copy =>
    intro c hc
    obtain ⟨hchain, hpv, hcopy, hinput, hflags⟩ := h.copy c hc
    have hlive : ∀ {id}, id ∈ g.order → g.isPv id → id ∈ (g.merge g.duplicates).order := by
      intro id hid hpv
      rw [horder]
      exact List.mem_filter.2 ⟨hid, by rw [hkept hid hpv]; rfl⟩
    have hcopy' := hlive hcopy (hcopyPv c hc)
    refine ⟨hlive hchain hpv, ?_, hcopy', ?_, ?_⟩
    · rw [isPv, (alike_merge hg g.duplicates _).flags]
      exact hpv
    · rw [hnode, if_pos hcopy', Node.mapRefs, List.getElem?_map, hinput]
      simp [Input.mapNode, Survivors.resolveRef, Survivors.resolve, hkept hchain hpv]
    · rw [(alike_merge hg g.duplicates _).flags, hflags]
  case known =>
    intro id hid hge hclass
    rw [horder] at hid
    rw [(alike_merge hg g.duplicates id).className] at hclass
    exact h.known id (List.mem_filter.1 hid).1 hge hclass

theorem Unshared.foldIf (h : source.Unshared g copies) (hg : g.Wired source.IsDeclaration)
    (hplain : g.PlainChains) (options : Options) :
    (g.foldIf options).PlainChains ∧ source.Unshared (g.foldIf options) copies := by
  refine (hg.foldIf (P := fun g => g.PlainChains ∧ source.Unshared g copies) ?_ ⟨hplain, h⟩
    options).2
  rintro g hw ⟨hplain, h⟩
  exact ⟨hplain.merge hw.toOrdered, h.merge hw.toOrdered hplain⟩

theorem Sourced.unshared_compiled {options : Options} (hs : source.Sourced)
    (hnone : ∀ id, ¬source.IsDeclaration id) (hplain : source.PlainChains)
    (h : source.compiled options = .ok g) :
    ∃ f copies, SortedFrom source f g ∧ f.PlainChains ∧ source.Unshared f copies := by
  obtain ⟨complete, sorted, hc, hsort, rfl⟩ := compiled_eq_ok.1 h
  obtain ⟨g₁, g₂, copies, hstages⟩ := hs.stages hc
  obtain ⟨hr, hl, -⟩ := hs.resolved_complete hc
  have hplain := (hstages.descends hs).plainChains hl.toHasControls hplain
  obtain ⟨hplain, hunshared⟩ := (hstages.unshared hs hnone).foldIf hr.wired hplain options
  exact ⟨_, copies, hs.sortedFrom_foldIf hc hsort, hplain, hunshared⟩

/-! ## Places -/

/-- A slot of a definition that reads a place comes from a slot that read the node there. -/
theorem Closed.exists_input (hg : g.Closed) {pos index place output : Nat} {u : Node}
    (hu : g.numbered[pos]? = some u) (hi : u.inputs[index]? = some (.node ⟨place, output⟩)) :
    ∃ id a, g.emission[pos]? = some id ∧ g.emission[place]? = some a ∧
      u = (g.node id).mapRefs (placed g.emission) ∧
      (g.node id).inputs[index]? = some (.node ⟨a, output⟩) := by
  rw [getElem?_numbered] at hu
  obtain ⟨id, hpos, rfl⟩ := Option.map_eq_some_iff.1 hu
  rw [Node.mapRefs, List.getElem?_map] at hi
  obtain ⟨input, hold, hmap⟩ := Option.map_eq_some_iff.1 hi
  cases input with
  | constant value => cases hmap
  | node ref =>
    have href : ref ∈ (g.node id).refs := Node.mem_refs.2 (List.mem_of_getElem? hold)
    have hlive := (hg.ref (mem_order_of_emission hpos) href).1
    have hplace := placed_of_mem (g.emission_perm.mem_iff.2 hlive)
    obtain ⟨rfl, rfl⟩ := NodeRef.mk.inj (Input.node.inj hmap)
    exact ⟨id, ref.ugen, hpos, hplace, rfl, hold⟩

theorem Closed.exists_readsChain (hg : g.Closed) {name : Option String} {chain : Nat}
    (hr : (g.finish name).ReadsChain chain s) :
    ∃ a id, g.emission[chain]? = some a ∧ g.emission[s.ugen]? = some id ∧
      g.ReadsChain a ⟨id, s.index⟩ := by
  obtain ⟨u, hu, hreader, output, hinput⟩ := hr.reader
  obtain ⟨id, a, hid, ha, rfl, hold⟩ := hg.exists_input hu hinput
  refine ⟨a, id, ha, hid, mem_order_of_emission hid, hreader, ⟨output, hold⟩, ?_⟩
  obtain ⟨v, hv, hpv⟩ := hr.chain
  have hv' := g.getElem?_numbered chain
  rw [ha] at hv'
  obtain rfl := Option.some.inj (hv.symm.trans hv')
  exact hpv

theorem SortedFrom.readsChain (h : SortedFrom source f g) (hr : g.ReadsChain a s) :
    f.ReadsChain a s :=
  ⟨h.live hr.live, h.node s.ugen ▸ hr.reader, h.node s.ugen ▸ hr.input,
    by rw [isPv, ← h.node]; exact hr.chain⟩

/-- The sort keeps a copy before what transforms its chain, as no reader of feedback transforms
chains. -/
theorem SortedFrom.copy_lt (h : SortedFrom source f g) (hplain : f.PlainChains)
    (hu : source.Unshared f copies) {c : ChainCopy} (hc : c ∈ copies)
    (hr : g.ReadsChain c.chain s) {pos place : Nat} (hcopy : g.emission[pos]? = some c.copy)
    (hreader : g.emission[place]? = some s.ugen) : pos < place := by
  obtain ⟨-, -, -, -, hflags⟩ := hu.copy c hc
  have hread := h.readsChain hr
  obtain ⟨-, hfeedback, hcontrol⟩ := hplain _ hread.live hread.reader.1
  obtain ⟨p, q, hlt, hp, hq⟩ := precedes_iff.1 (hu.before c hc _ hread)
  rcases follows_of_widthFirst hp hq hlt (by rw [hflags]; rfl) with hfollows | hexempt
  · refine h.place_lt_of_not_control hcopy hreader hfollows ?_ ?_
    · rw [h.node, hflags]
      rfl
    · rw [h.node]
      exact hcontrol
  · rw [hfeedback] at hexempt
    cases hexempt.1

end Graph

/-- What is built from plain chains and without declarations of the caller transforms no chain
twice, and takes all copies of a chain before it is transformed. -/
theorem build_unshared {b : Builder} (hb : b.Reachable)
    (hnone : ∀ n ∈ b.nodes, n.className ≠ Catalog.maxLocalBufs.name)
    (hplain : ∀ n ∈ b.nodes, n.flags.isPv →
      n.flags.pure = false ∧ n.flags.feedbackReader = false ∧ n.flags.control = false)
    {options : Options} {d : Definition} (h : b.build options = .ok d) :
    b.Unshared options d := by
  obtain ⟨-, g, hg, rfl⟩ := Builder.build_eq_ok.1 h
  have hclosed := Builder.closed_compiled hb hnone hg
  have hnodup : g.emission.Nodup := g.emission_perm.nodup_iff.2 hclosed.nodup
  have hdecl : ∀ id, ¬(Graph.ofNodes b.nodes).IsDeclaration id := by
    intro id
    rw [Builder.isDeclaration_iff_declares]
    exact Builder.not_declares hnone id
  have hchains : (Graph.ofNodes b.nodes).PlainChains := fun id hid =>
    hplain _ (Array.mem_of_getElem? (Graph.getElem?_of_mem_ofNodes hid))
  obtain ⟨f, copies, hf, hplain, hunshared⟩ :=
    hb.wellFormed.sourced.unshared_compiled hdecl hchains hg
  constructor
  case single =>
    intro chain slot slot' hr hr'
    obtain ⟨a, id, hchain, hid, hr⟩ := hclosed.exists_readsChain hr
    obtain ⟨a', id', hchain', hid', hr'⟩ := hclosed.exists_readsChain hr'
    obtain rfl := Option.some.inj (hchain.symm.trans hchain')
    have hslots := hunshared.single a _ _ (hf.readsChain hr) (hf.readsChain hr')
    obtain ⟨rfl, hindex⟩ := Slot.mk.inj hslots
    have hugen := eq_of_getElem?_of_nodup hnodup hid hid'
    exact Slot.ext hugen hindex
  case copied =>
    intro chain slot pos hr hcopies
    obtain ⟨a, id, hchain, hid, hr⟩ := hclosed.exists_readsChain hr
    obtain ⟨u, hu, hclass, output, hinput⟩ := hcopies.copy
    obtain ⟨copy, a', hcopy, hchain', rfl, hold⟩ := hclosed.exists_input hu hinput
    obtain rfl := Option.some.inj (hchain.symm.trans hchain')
    have hge : b.nodes.size ≤ copy := by
      by_contra hlt
      exact hcopies.inserted copy ⟨by omega, g, hg, hcopy⟩
    rw [hf.node] at hold
    obtain ⟨c, hc, rfl⟩ := hunshared.known copy (hf.live (Graph.mem_order_of_emission hcopy)) hge
      (by rw [← hf.node]; exact hclass)
    obtain ⟨-, -, -, hfirst, -⟩ := hunshared.copy c hc
    obtain ⟨rfl, -⟩ := NodeRef.mk.inj (Input.node.inj (Option.some.inj (hfirst.symm.trans hold)))
    exact hf.copy_lt hplain hunshared hc hr hcopy hid

/-- A spectrum that is multiplied by itself and filtered. -/
def crossOperations : List Operation :=
  [.register { descriptor := Catalog.whiteNoise, rate := .audio },
    .fft { source := .outlet ⟨0, 0, 0, .audio⟩ },
    .register {
      descriptor := Catalog.pvMagMul, rate := .control
      args := [("pv_chain_a", .outlet ⟨0, 2, 0, .control⟩),
        ("pv_chain_b", .outlet ⟨0, 2, 0, .control⟩)] },
    .register {
      descriptor := Catalog.pvBrickWall, rate := .control
      args := [("pv_chain", .outlet ⟨0, 2, 0, .control⟩)] }]

def crossBuilder : Builder := crossOperations.foldl (fun b op => op.after b) { scope := 0 }

theorem reachable_crossBuilder : crossBuilder.Reachable :=
  reachable_of_admitted (by decide +kernel)

/-- Both slots of the product get a copy, and the filter is behind them. -/
theorem crossBuilder_unshared : ∃ d, crossBuilder.Reachable ∧
    (∀ n ∈ crossBuilder.nodes, n.className ≠ Catalog.maxLocalBufs.name) ∧
    (∀ n ∈ crossBuilder.nodes, n.flags.isPv →
      n.flags.pure = false ∧ n.flags.feedbackReader = false ∧ n.flags.control = false) ∧
    crossBuilder.build {} = .ok d ∧
    d.ugens.map (fun u => (u.className, u.refs.map NodeRef.ugen)) =
      [("WhiteNoise", []), ("MaxLocalBufs", []), ("LocalBuf", [1]), ("FFT", [2, 0]),
        ("BufFrames", [2]), ("LocalBuf", [4, 1]), ("PV_Copy", [3, 5]),
        ("BufFrames", [2]), ("LocalBuf", [7, 1]), ("PV_Copy", [3, 8]),
        ("PV_MagMul", [6, 9]), ("PV_BrickWall", [3])] ∧
    crossBuilder.Unshared {} d := by
  have hnone : ∀ n ∈ crossBuilder.nodes, n.className ≠ Catalog.maxLocalBufs.name := by
    decide +kernel
  have hplain : ∀ n ∈ crossBuilder.nodes, n.flags.isPv →
      n.flags.pure = false ∧ n.flags.feedbackReader = false ∧ n.flags.control = false := by
    decide +kernel
  have hbuild : ((crossBuilder.build {}).toOption.map
      fun d => d.ugens.map fun u => (u.className, u.refs.map NodeRef.ugen)) =
      some [("WhiteNoise", []), ("MaxLocalBufs", []), ("LocalBuf", [1]), ("FFT", [2, 0]),
        ("BufFrames", [2]), ("LocalBuf", [4, 1]), ("PV_Copy", [3, 5]),
        ("BufFrames", [2]), ("LocalBuf", [7, 1]), ("PV_Copy", [3, 8]),
        ("PV_MagMul", [6, 9]), ("PV_BrickWall", [3])] := by
    decide +kernel
  obtain ⟨d, hd, hugens⟩ := exists_eq_ok_of_map_toOption hbuild
  exact ⟨d, reachable_crossBuilder, hnone, hplain, hd, hugens,
    build_unshared reachable_crossBuilder hnone hplain hd⟩

end SynthGraph
