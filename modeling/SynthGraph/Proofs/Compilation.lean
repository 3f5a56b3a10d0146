import SynthGraph.Compile
import SynthGraph.Proofs.Chains
import SynthGraph.Proofs.Controls
import SynthGraph.Proofs.Folding
import SynthGraph.Proofs.Liveness
import SynthGraph.Proofs.LocalBuffers

/-!
# All passes together

Through all passes the only references that go astray are those to declarations that the builder
held, and the controls stay as they were made and in the order of their slots.
-/

namespace SynthGraph

/-! ## Controls take part in nothing else -/

namespace ControlGroup

/-- The classes of controls. -/
def classes : Catalog :=
  [Catalog.control, Catalog.trigControl, Catalog.audioControl, Catalog.lagControl]

theorem descriptor_mem_classes (group : ControlGroup) : group.descriptor ∈ classes := by
  unfold descriptor
  split
  · simp [classes]
  · simp [classes]
  · simp [classes]
  · split <;> simp [classes]

theorem flags_node (group : ControlGroup) : group.node.flags = { control := true } := by
  have hflags : ∀ d ∈ classes, d.flags = { control := true } := by decide
  exact hflags _ group.descriptor_mem_classes

theorem className_node (group : ControlGroup) :
    group.node.className ≠ Catalog.localBuf.name ∧
      group.node.className ≠ Catalog.maxLocalBufs.name := by
  have hnames : ∀ d ∈ classes, d.name ≠ Catalog.localBuf.name ∧
      d.name ≠ Catalog.maxLocalBufs.name := by decide
  exact hnames _ group.descriptor_mem_classes

end ControlGroup

namespace Graph

variable {g g' : Graph} {first : Nat} {groups : List ControlGroup}

/-- The positions of the controls of the groups. -/
abbrev controlIds (first : Nat) (groups : List ControlGroup) : List Nat :=
  List.range' first groups.length

theorem mem_controlIds {k : Nat} {group : ControlGroup} (hk : groups[k]? = some group) :
    first + k ∈ controlIds first groups := by
  have hlt := (List.getElem?_eq_some_iff.1 hk).1
  exact List.mem_range'_1.2 ⟨by omega, by omega⟩

/-- The controls of the groups stand from `first` on, and all other live nodes are generators. -/
structure HasControls (g : Graph) (first : Nat) (groups : List ControlGroup) : Prop where
  node : ∀ k group, groups[k]? = some group → g.node (first + k) = group.node
  others : ∀ id ∈ g.order, id ∉ controlIds first groups → (g.node id).role = .generator

theorem HasControls.exists_group (h : g.HasControls first groups) {id : Nat}
    (hid : id ∈ controlIds first groups) : ∃ group ∈ groups, g.node id = group.node := by
  obtain ⟨hle, hlt⟩ := List.mem_range'_1.1 hid
  have hk : groups[id - first]? = some groups[id - first] := List.getElem?_eq_getElem (by omega)
  refine ⟨_, List.mem_of_getElem? hk, ?_⟩
  rw [← h.node _ _ hk, Nat.add_sub_of_le hle]

/-- A pass that leaves the controls alone and adds none. -/
theorem HasControls.step (h : g.HasControls first groups)
    (hsame : ∀ id ∈ controlIds first groups, g'.node id = g.node id)
    (hothers : ∀ id ∈ g'.order, id ∉ controlIds first groups →
      (id ∈ g.order ∧ (g.node id).Alike (g'.node id)) ∨ (g'.node id).role = .generator) :
    g'.HasControls first groups := by
  constructor
  · intro k group hk
    rw [← h.node k group hk]
    exact hsame _ (mem_controlIds hk)
  · intro id hid hnot
    rcases hothers id hid hnot with ⟨hold, halike⟩ | hrole
    · rw [halike.role]
      exact h.others id hold hnot
    · exact hrole

/-- The controls come first. -/
structure Led (g : Graph) (first : Nat) (groups : List ControlGroup) : Prop
    extends HasControls g first groups where
  front : controlIds first groups <+: g.order

theorem WithControls.led (h : g.WithControls g')
    (hg : ∀ id ∈ g.order, (g.node id).isParameter = false → (g.node id).role = .generator) :
    g'.Led g.nodes.size g.controlGroups := by
  refine ⟨⟨h.control, fun id hid hnot => ?_⟩, h.order ▸ List.prefix_append _ _⟩
  rcases h.mem_order.1 hid with ⟨k, group, hk, rfl⟩ | ⟨hid, hkind⟩
  · exact absurd (mem_controlIds hk) hnot
  · rw [h.node id hid hkind, (Node.alike_mapRefs _ _).role]
    exact hg id hid hkind

theorem Split.led {copies : List ChainCopy} (h : g.Split copies g') (hg : g.Ordered)
    (hslots : ∀ c ∈ copies, (g.node c.slot.ugen).flags.isPv) (hl : g.Led first groups) :
    g'.Led first groups := by
  have hreader : ∀ id ∈ controlIds first groups, ∀ c ∈ copies, c.slot.ugen ≠ id := by
    rintro id hid c hc rfl
    obtain ⟨group, -, hnode⟩ := hl.exists_group hid
    have := hslots c hc
    rw [hnode, group.flags_node] at this
    cases this
  refine ⟨hl.toHasControls.step ?_ ?_,
    h.leading _ hl.front fun c hc hmem => hreader _ hmem c hc rfl⟩
  · intro id hid
    exact h.untouched id (hg.bound id (hl.front.subset hid)) (hreader id hid)
  · intro id hid _
    rcases List.mem_append.1 (h.order.mem_iff.1 hid) with hid | hid
    · exact .inl ⟨hid, h.alike id (hg.bound id hid)⟩
    · obtain ⟨c, hc, hmem⟩ := List.mem_flatMap.1 hid
      right
      rcases h.synthesized hc hmem with ⟨input, hnode⟩ | hnode | hnode <;> rw [hnode] <;> rfl

theorem Declared.led (h : g.Declared g') (hg : g.Ordered) (hl : g.Led first groups) :
    g'.Led first groups := by
  have hclass : ∀ id ∈ controlIds first groups,
      (g.node id).className ≠ Catalog.localBuf.name ∧
        (g.node id).className ≠ Catalog.maxLocalBufs.name := by
    intro id hid
    obtain ⟨group, -, hnode⟩ := hl.exists_group hid
    rw [hnode]
    exact group.className_node
  have hdropped : controlIds first groups <+: g.dropDeclarations.order := by
    have := hl.front.filter fun id => (g.node id).className != Catalog.maxLocalBufs.name
    rwa [List.filter_eq_self.2 fun id hid => by simpa using (hclass id hid).2] at this
  refine ⟨hl.toHasControls.step ?_ ?_, h.leading _ hdropped fun id hid => (hclass id hid).1⟩
  · intro id hid
    rw [h.node id (hg.bound id (hl.front.subset hid)), if_neg]
    exact fun hmem => (hclass id hid).1 (mem_buffers.1 hmem).2
  · intro id hid _
    rcases h.mem_order.1 hid with ⟨hid, -⟩ | ⟨hne, rfl⟩
    · exact .inl ⟨hid, h.alike (hg.bound id hid)⟩
    · rw [h.declaration hne]
      exact .inr rfl

/-- Controls are not pure, so they are never folded. -/
theorem HasControls.lookup_duplicates (h : g.HasControls first groups) (hg : g.Ordered) {id : Nat}
    (hid : id ∈ controlIds first groups) : g.duplicates.lookup id = none := by
  obtain ⟨group, -, hgroup⟩ := h.exists_group hid
  exact lookup_duplicates_of_impure hg (by rw [hgroup, group.flags_node])

theorem Led.merge (hl : g.Led first groups) (hg : g.Ordered) :
    (g.merge g.duplicates).Led first groups := by
  obtain ⟨horder, -, hnode⟩ := merge_spec hg g.duplicates
  refine ⟨hl.toHasControls.step ?_ ?_, ?_⟩
  · intro id hid
    rw [hnode id]
    split
    · obtain ⟨group, -, hgroup⟩ := hl.exists_group hid
      rw [hgroup]
      exact Node.mapRefs_of_refs_nil (refs_control group) _
    · rfl
  · intro id hid _
    rw [horder] at hid
    exact .inl ⟨(List.mem_filter.1 hid).1, alike_merge hg _ id⟩
  · rw [horder]
    have := hl.front.filter fun id => (g.duplicates.lookup id).isNone
    rwa [List.filter_eq_self.2 fun id hid => by simp [hl.lookup_duplicates hg hid]] at this

/-- The controls are all there, in their order. -/
structure Listed (g : Graph) (first : Nat) (groups : List ControlGroup) : Prop
    extends HasControls g first groups where
  listed : g.order.filter (· ∈ controlIds first groups) = controlIds first groups

theorem Led.sort (hl : g.Led first groups) (hg : g.Ordered) (h : g.sort = .ok g') :
    g'.Listed first groups := by
  obtain ⟨hnode, hperm⟩ := sort_perm h
  refine ⟨hl.toHasControls.step (fun id _ => hnode id) fun id hid _ => ?_, ?_⟩
  · exact .inl ⟨hperm.mem_iff.1 hid, hnode id ▸ .refl _⟩
  · refine sort_front hg h hl.front fun id hid => ?_
    obtain ⟨group, -, hgroup⟩ := hl.exists_group hid
    rw [hgroup, group.flags_node]
    exact ⟨refs_control group, rfl⟩

theorem Listed.dropDead (hl : g.Listed first groups) : g.dropDead.2.Listed first groups := by
  refine ⟨hl.toHasControls.step (fun _ _ => rfl) fun id hid _ => ?_, ?_⟩
  · exact .inl ⟨g.dropDead_sublist.mem hid, .refl _⟩
  · rw [filter_dropDead, hl.listed]
    intro id _ hid
    obtain ⟨group, -, hgroup⟩ := hl.exists_group (by simpa using hid)
    rw [hgroup, group.flags_node]

/-! ## The passes that add nodes -/

/-- What a builder hands over: references name outputs of registered nodes, which are listed in
the order of registration, and no controls have been made yet. -/
structure Sourced (g : Graph) : Prop where
  closed : g.Closed
  ascending : g.order.Pairwise (· < ·)
  roles : ∀ id ∈ g.order, (g.node id).isParameter = false → (g.node id).role = .generator
  placeholders : ∀ id ∈ g.order, ∀ p, (g.node id).parameter? = some p →
    g.node id = Builder.placeholder p ∧ p.values ≠ []

variable {source : Graph}

theorem Sourced.placeholdersFit (hs : source.Sourced) : source.PlaceholdersFit := by
  intro id hid p hp
  rw [(hs.placeholders id hid p hp).1]
  rfl

/-- The graphs between the passes that add nodes: `g₁` has controls, `g₂` copies as well, and `g` a
declaration. -/
structure Stages (source g₁ g₂ g : Graph) (copies : List ChainCopy) : Prop where
  controls : source.WithControls g₁
  closed₁ : g₁.Closed
  plan : copies.map (fun c => (c.chain, c.slot)) = g₁.copyPlan
  chains : g₁.splitChains = some g₂
  split : g₁.Split copies g₂
  closed₂ : g₂.Closed
  declared : g₂.Declared g

theorem complete_eq_ok : source.complete = .ok g ↔ ∃ g₁ g₂, source.makeControls = .ok g₁ ∧
    g₁.splitChains = some g₂ ∧ g = g₂.declareLocalBuffers := by
  simp only [complete, except_bind_eq_ok, mapError_eq_ok]
  refine exists_congr fun g₁ => ?_
  cases g₁.splitChains with
  | none => simp [throw, throwThe, MonadExceptOf.throw]
  | some g₂ => simp [pure, Except.pure, eq_comm]

theorem Sourced.stages (hs : source.Sourced) (h : source.complete = .ok g) :
    ∃ g₁ g₂ copies, Stages source g₁ g₂ g copies := by
  obtain ⟨g₁, g₂, hmake, hchains, rfl⟩ := complete_eq_ok.1 h
  have hcontrols := makeControls_spec hs.closed.toOrdered hmake
  have hclosed := hcontrols.closed hs.closed hs.placeholdersFit
  obtain ⟨copies, hplan, hsplit, hclosed', -⟩ :=
    splitChains_spec hclosed (P := fun _ => True) (fun _ _ _ _ _ _ _ _ => trivial) trivial hchains
  exact ⟨g₁, g₂, copies, hcontrols, hclosed, hplan, hchains, hsplit, hclosed',
    declareLocalBuffers_spec hclosed'.toOrdered⟩

namespace Stages

variable {g₁ g₂ : Graph} {copies : List ChainCopy}

theorem readsChain (h : Stages source g₁ g₂ g copies) {c : ChainCopy} (hc : c ∈ copies) :
    g₁.ReadsChain c.chain c.slot :=
  readsChain_of_mem_copyPlan (h.plan ▸ List.mem_map.2 ⟨c, hc, rfl⟩)

theorem led (h : Stages source g₁ g₂ g copies) (hs : source.Sourced) :
    g.Led source.nodes.size source.controlGroups :=
  h.declared.led h.closed₂.toOrdered (h.split.led h.closed₁.toOrdered
    (fun _ hc => (h.readsChain hc).reader.1) (h.controls.led hs.roles))

/-- The compiler makes no declarations before it declares the local buffers. -/
theorem isDeclaration_iff (h : Stages source g₁ g₂ g copies) (hs : source.Sourced) {id : Nat}
    (hid : id ∈ g₂.order) : g₂.IsDeclaration id ↔ source.IsDeclaration id := by
  rcases List.mem_append.1 (h.split.order.mem_iff.1 hid) with hid₁ | hnew
  · have hclass := (h.split.alike id (h.closed₁.bound id hid₁)).className
    rcases h.controls.mem_order.1 hid₁ with ⟨k, group, hk, rfl⟩ | ⟨hold, hkind⟩
    · rw [h.controls.control k group hk] at hclass
      constructor
      · rintro ⟨-, hname⟩
        exact absurd (hclass.symm.trans hname) group.className_node.2
      · rintro ⟨hlive, -⟩
        have := hs.closed.bound _ hlive
        omega
    · rw [h.controls.node id hold hkind, (Node.alike_mapRefs _ _).className] at hclass
      simp only [IsDeclaration, hid, hold, hclass]
  · obtain ⟨c, hc, hmem⟩ := List.mem_flatMap.1 hnew
    constructor
    · rintro ⟨-, hname⟩
      rcases h.split.synthesized hc hmem with ⟨input, hnode⟩ | hnode | hnode <;> rw [hnode] at hname
      · exact absurd hname (show Catalog.bufFrames.name ≠ Catalog.maxLocalBufs.name by decide)
      · exact absurd hname (show Catalog.localBuf.name ≠ Catalog.maxLocalBufs.name by decide)
      · exact absurd hname (show Catalog.pvCopy.name ≠ Catalog.maxLocalBufs.name by decide)
    · rintro ⟨hlive, -⟩
      have := hs.closed.bound _ hlive
      have := (h.split.mem_ids hc hmem).1
      have := h.controls.size
      omega

end Stages

/-- What the passes keep: only declarations of the builder can be missed, and none of them is
live. -/
structure Resolved (source g : Graph) : Prop where
  wired : g.Wired source.IsDeclaration
  dropped : ∀ id ∈ g.order, ¬source.IsDeclaration id

theorem Sourced.resolved_complete (hs : source.Sourced) (hc : source.complete = .ok g) :
    source.Resolved g ∧ g.Led source.nodes.size source.controlGroups ∧
      ∀ group ∈ source.controlGroups, group.start < 65536 := by
  obtain ⟨g₁, g₂, copies, h⟩ := hs.stages hc
  have hwired := h.declared.wired h.closed₂
  refine ⟨⟨⟨hwired.toOrdered, fun id hid ref href => ?_⟩, fun id hid => ?_⟩, h.led hs,
    h.controls.fits⟩
  · obtain ⟨hlive, hlt⟩ := hwired.refs id hid ref href
    exact ⟨hlive.imp_right fun hgone => (h.isDeclaration_iff hs hgone.1).1 hgone, hlt⟩
  · rcases h.declared.mem_order.1 hid with ⟨hold, hnot⟩ | ⟨-, rfl⟩
    · rwa [← h.isDeclaration_iff hs hold]
    · rintro ⟨hlive, -⟩
      have := hs.closed.bound _ hlive
      have := h.controls.size
      have := h.split.size
      omega

/-! ## The passes that rearrange and drop nodes -/

/-- What merging keeps in a wired graph, folding keeps. -/
theorem Wired.foldIf {gone : Nat → Prop} {P : Graph → Prop} (hg : g.Wired gone)
    (hmerge : ∀ g, g.Wired gone → P g → P (g.merge g.duplicates)) (hP : P g) (options : Options) :
    (g.foldIf options).Wired gone ∧ P (g.foldIf options) := by
  unfold Graph.foldIf
  split
  · exact foldPasses_preserves (P := fun g => g.Wired gone ∧ P g)
      (fun g ⟨hw, h⟩ => ⟨hw.merge, hmerge g hw h⟩) _ ⟨hg, hP⟩
  · exact ⟨hg, hP⟩

theorem Resolved.foldIf (hr : source.Resolved g) (hl : g.Led first groups) (options : Options) :
    source.Resolved (g.foldIf options) ∧ (g.foldIf options).Led first groups := by
  have hfold := hr.wired.foldIf (P := fun g => (∀ id ∈ g.order, ¬source.IsDeclaration id) ∧
    g.Led first groups) (fun g hw ⟨hdropped, hl⟩ => ?_) ⟨hr.dropped, hl⟩ options
  · exact ⟨⟨hfold.1, hfold.2.1⟩, hfold.2.2⟩
  · refine ⟨fun id hid => ?_, hl.merge hw.toOrdered⟩
    rw [(merge_spec hw.toOrdered _).1] at hid
    exact hdropped id (List.mem_filter.1 hid).1

theorem Resolved.sort (hr : source.Resolved g) (h : g.sort = .ok g') : source.Resolved g' :=
  ⟨hr.wired.sort h, fun id hid => hr.dropped id ((sort_perm h).2.mem_iff.1 hid)⟩

theorem dropDeadIf_sublist (g : Graph) (options : Options) :
    (g.dropDeadIf options).order.Sublist g.order := by
  unfold dropDeadIf
  split
  · exact g.dropDead_sublist
  · exact .refl _

theorem node_dropDeadIf (g : Graph) (options : Options) (id : Nat) :
    (g.dropDeadIf options).node id = g.node id := by
  unfold dropDeadIf
  split <;> rfl

theorem Resolved.dropDeadIf (hr : source.Resolved g) (hl : g.Listed first groups)
    (options : Options) :
    source.Resolved (g.dropDeadIf options) ∧ (g.dropDeadIf options).Listed first groups := by
  unfold Graph.dropDeadIf
  split
  · exact ⟨⟨hr.wired.dropDead, fun id hid => hr.dropped id (g.dropDead_sublist.mem hid)⟩,
      hl.dropDead⟩
  · exact ⟨hr, hl⟩

theorem compiled_eq_ok {options : Options} : source.compiled options = .ok g ↔
    ∃ complete sorted, source.complete = .ok complete ∧
      (complete.foldIf options).sort = .ok sorted ∧ g = sorted.dropDeadIf options := by
  simp only [compiled, except_bind_eq_ok, mapError_eq_ok]
  constructor
  · rintro ⟨complete, hc, sorted, hs, h⟩
    cases h
    exact ⟨complete, sorted, hc, hs, rfl⟩
  · rintro ⟨complete, sorted, hc, hs, rfl⟩
    exact ⟨complete, hc, sorted, hs, rfl⟩

/-- What is compiled is left of the folded graph. -/
theorem exists_complete {options : Options} (h : source.compiled options = .ok g) :
    ∃ complete, source.complete = .ok complete ∧ g.order ⊆ (complete.foldIf options).order ∧
      ∀ id, g.node id = (complete.foldIf options).node id := by
  obtain ⟨complete, sorted, hc, hsort, rfl⟩ := compiled_eq_ok.1 h
  obtain ⟨hnode, hperm⟩ := sort_perm hsort
  refine ⟨complete, hc, fun id hid => ?_, fun id => ?_⟩
  · exact hperm.subset ((sorted.dropDeadIf_sublist options).subset hid)
  · exact (sorted.node_dropDeadIf options id).trans (hnode id)

theorem Sourced.resolved_compiled (hs : source.Sourced) {options : Options}
    (h : source.compiled options = .ok g) :
    source.Resolved g ∧ g.Listed source.nodes.size source.controlGroups ∧
      ∀ group ∈ source.controlGroups, group.start < 65536 := by
  obtain ⟨complete, sorted, hc, hsort, rfl⟩ := compiled_eq_ok.1 h
  obtain ⟨hr, hl, hfits⟩ := hs.resolved_complete hc
  obtain ⟨hr, hl⟩ := hr.foldIf hl options
  obtain ⟨hr, hl⟩ := (hr.sort hsort).dropDeadIf (hl.sort hr.wired.toOrdered hsort) options
  exact ⟨hr, hl, hfits⟩

end Graph

end SynthGraph
