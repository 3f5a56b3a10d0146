import SynthGraph.Proofs.Addressing
import SynthGraph.Proofs.Schedule

/-!
# Definitions run in order

The generators of a definition stand in an order in which they can run one after the other: controls
first, then every generator behind what it reads and behind the width-first generators that were
registered before it. Only a feedback reader may stand before those that depend on it. Sorting gives
this order, dropping dead nodes keeps it, and moving the controls to the front does not disturb it
because controls follow nobody.
-/

namespace SynthGraph

/-- The generator at place `j` reads the one at place `i`. -/
def Definition.Feeds (d : Definition) (i j : Nat) : Prop :=
  ∃ u, d.ugens[j]? = some u ∧ ∃ ref ∈ u.refs, ref.ugen = i

/-- The definition of the builder can be executed from the first place to the last. -/
structure Builder.Sequenced (b : Builder) (options : Options) (d : Definition) : Prop where
  /-- The controls come first, in the order of their rates. -/
  controls : ∃ controls rest, d.ugens = controls ++ rest ∧
    List.Forall₂ d.Controls (ParameterRate.all.filter fun rate => !(d.group rate).isEmpty)
      controls ∧
    (∀ u ∈ controls, u.isControl) ∧ ∀ u ∈ rest, u.isControl = false
  inputs : ∀ (pos : Nat) (u : Node), d.ugens[pos]? = some u → u.flags.feedbackReader = false →
    ∀ ref ∈ u.refs, ref.ugen < pos
  widthFirst : ∀ first later i j : Nat, b.Places options first i → b.Places options later j →
    first < later → (∃ n, b.nodes[first]? = some n ∧ n.flags.widthFirst) →
    i < j ∨ (∃ n, b.nodes[later]? = some n ∧ n.flags.feedbackReader) ∧
      Relation.ReflTransGen d.Feeds j i

namespace Graph

variable {source f g : Graph} {options : Options} {a b : Nat}

/-! ## Controls -/

/-- If nothing that was registered is a control, the controls are those of the groups. -/
theorem Sourced.flags_control_iff (hs : source.Sourced)
    (hcontrol : ∀ id ∈ source.order, (source.node id).flags.control = false)
    (h : source.compiled options = .ok g) {id : Nat} (hid : id ∈ g.order) :
    (g.node id).flags.control ↔ id ∈ controlIds source.nodes.size source.controlGroups := by
  have hdescends := hs.descends_compiled h
  constructor
  · intro hflag
    by_cases hlt : id < source.nodes.size
    · have hsource := (mem_generators.1 (hdescends.generator id hid hlt)).1
      rw [(hdescends.alike id hid hlt).flags, hcontrol id hsource] at hflag
      cases hflag
    · rcases hdescends.inserted id hid (by omega) with hmem | ⟨d, hd, -, hflags⟩
      · exact hmem
      · have hnone : ∀ d ∈ insertedClasses, d.flags.control = false := by decide
        rw [hflags, hnone d hd] at hflag
        cases hflag
  · intro hmem
    obtain ⟨group, -, hnode⟩ := (hs.resolved_compiled h).2.1.exists_group hmem
    rw [hnode, group.flags_node]

/-- The controls of the groups are emitted first, and all else in its order. -/
def ControlsFirst (source g : Graph) : Prop :=
  g.emission = controlIds source.nodes.size source.controlGroups ++
    g.order.filter fun id => !(g.node id).flags.control

theorem Sourced.controlsFirst (hs : source.Sourced)
    (hcontrol : ∀ id ∈ source.order, (source.node id).flags.control = false)
    (h : source.compiled options = .ok g) : source.ControlsFirst g := by
  have hl := (hs.resolved_compiled h).2.1
  have hcontrols : g.order.filter (fun id => (g.node id).flags.control) =
      controlIds source.nodes.size source.controlGroups := by
    refine .trans (List.filter_congr fun id hid => ?_) hl.listed
    rw [Bool.eq_iff_iff, hs.flags_control_iff hcontrol h hid, decide_eq_true_iff]
  rw [ControlsFirst, emission_eq, hcontrols]

theorem ControlsFirst.numbered_eq_append (h : source.ControlsFirst g)
    (hl : g.Listed source.nodes.size source.controlGroups) :
    ∃ rest, g.numbered = g.numbered.filter Node.isControl ++ rest ∧
      ∀ u ∈ rest, u.isControl = false := by
  have hmap : ∀ f : NodeRef → NodeRef, g.emission.map (fun id => (g.node id).mapRefs f) =
      source.controlGroups.map ControlGroup.node ++
        (g.order.filter fun id => !(g.node id).flags.control).map
          fun id => (g.node id).mapRefs f := by
    intro f
    rw [h, List.map_append, hl.map_controlIds]
  refine ⟨_, (hmap (placed g.emission)).trans (by rw [filter_isControl_numbered hl]), ?_⟩
  intro u hu
  obtain ⟨id, hid, rfl⟩ := List.mem_map.1 hu
  obtain ⟨hid, hflag⟩ := List.mem_filter.1 hid
  rw [isControl_mapRefs, ← Bool.not_eq_true, hl.isControl_iff hid]
  intro hmem
  obtain ⟨group, -, hnode⟩ := hl.exists_group hmem
  rw [hnode, group.flags_node] at hflag
  cases hflag

/-! ## The graph that was sorted -/

/-- `f` is the graph that was sorted, and `g` what is left of it in the end. -/
structure SortedFrom (source f g : Graph) : Prop where
  led : f.Led source.nodes.size source.controlGroups
  ordered : f.Ordered
  inOrder : source.InOrder f
  node : ∀ id, g.node id = f.node id
  live : g.order ⊆ f.order
  behind : g.order.Pairwise fun a b => ¬f.Follows b a
  irrefl : ∀ a, ¬f.Follows a a

theorem Sourced.sortedFrom_foldIf {complete sorted : Graph} (hs : source.Sourced)
    (hc : source.complete = .ok complete) (hsort : (complete.foldIf options).sort = .ok sorted) :
    SortedFrom source (complete.foldIf options) (sorted.dropDeadIf options) := by
  obtain ⟨g₁, g₂, copies, hstages⟩ := hs.stages hc
  obtain ⟨hr, hl, -⟩ := hs.resolved_complete hc
  have hinOrder := (hstages.inOrder hs).foldIf hr.wired options
  obtain ⟨hr, hl⟩ := hr.foldIf hl options
  obtain ⟨hbehind, hirrefl⟩ := sort_respects hr.wired.toOrdered.nodup hsort
  obtain ⟨hnode, hperm⟩ := sort_perm hsort
  have hsub := sorted.dropDeadIf_sublist options
  exact ⟨hl, hr.wired.toOrdered, hinOrder,
    fun id => (sorted.node_dropDeadIf options id).trans (hnode id),
    fun id hid => hperm.subset (hsub.subset hid), hbehind.sublist hsub, hirrefl⟩

theorem Sourced.sortedFrom (hs : source.Sourced) (h : source.compiled options = .ok g) :
    ∃ f, SortedFrom source f g := by
  obtain ⟨complete, sorted, hc, hsort, rfl⟩ := compiled_eq_ok.1 h
  exact ⟨_, hs.sortedFrom_foldIf hc hsort⟩

namespace SortedFrom

theorem not_follows_control (h : SortedFrom source f g)
    (hb : b ∈ controlIds source.nodes.size source.controlGroups) : ¬f.Follows a b := by
  refine not_follows_front h.ordered h.led.front (fun id hid => ?_) hb
  obtain ⟨group, -, hnode⟩ := h.led.exists_group hid
  rw [hnode, group.flags_node]
  exact ⟨refs_control group, rfl⟩

theorem place_lt (h : SortedFrom source f g) (hc : source.ControlsFirst g) {i j : Nat}
    (hi : g.emission[i]? = some a) (hj : g.emission[j]? = some b) (hab : f.Follows a b) :
    i < j := by
  have hpair : g.emission.Pairwise fun a b => ¬f.Follows b a := by
    rw [hc]
    refine List.pairwise_append.2 ⟨?_, h.behind.filter _, fun a ha b _ => h.not_follows_control ha⟩
    exact List.Pairwise.imp_of_mem (fun ha _ _ => h.not_follows_control ha)
      List.pairwise_lt_range'
  exact lt_of_pairwise_not hpair h.irrefl hi hj hab

/-- The same among the nodes that are not brought to the front, whatever controls the caller has
registered. -/
theorem place_lt_of_not_control (h : SortedFrom source f g) {i j : Nat}
    (hi : g.emission[i]? = some a) (hj : g.emission[j]? = some b) (hab : f.Follows a b)
    (ha : (g.node a).flags.control = false) (hb : (g.node b).flags.control = false) : i < j := by
  let late := fun a b => f.Follows a b ∧ (g.node a).flags.control = false ∧
    (g.node b).flags.control = false
  have hpair : g.emission.Pairwise fun a b => ¬late b a := by
    have hfront : ∀ x ∈ g.order.filter (fun id => (g.node id).flags.control),
        ∀ y, ¬late y x := by
      rintro x hx y ⟨-, -, hcontrol⟩
      rw [(List.mem_filter.1 hx).2] at hcontrol
      cases hcontrol
    rw [emission_eq]
    refine List.pairwise_append.2 ⟨?_, ?_, fun x hx y _ => hfront x hx y⟩
    · exact List.pairwise_of_forall_mem_list fun x hx y _ => hfront x hx y
    · exact (h.behind.filter _).imp fun hnot hlate => hnot hlate.1
  exact lt_of_pairwise_not hpair (fun x hlate => h.irrefl x hlate.1) hi hj ⟨hab, ha, hb⟩

end SortedFrom

/-! ## References by place -/

theorem Closed.feeds_finish (hg : g.Closed) (hab : g.Feeds a b) (name : Option String) :
    a ∈ g.order ∧ (g.finish name).Feeds (g.ordinal a) (g.ordinal b) := by
  obtain ⟨hb, ref, href, rfl⟩ := hab
  refine ⟨(hg.ref hb href).1, _, getElem?_ordinal hb, placed g.emission ref, ?_, rfl⟩
  rw [Node.refs_mapRefs]
  exact List.mem_map_of_mem href

theorem SortedFrom.reaches_finish (h : SortedFrom source f g) (hg : g.Closed) (hb : b ∈ g.order)
    (hpath : Relation.ReflTransGen f.Feeds a b) (name : Option String) :
    a ∈ g.order ∧
      Relation.ReflTransGen (g.finish name).Feeds (g.ordinal a) (g.ordinal b) := by
  induction hpath using Relation.ReflTransGen.head_induction_on with
  | refl => exact ⟨hb, .refl⟩
  | @head x y hxy _ ih =>
    obtain ⟨hy, hrest⟩ := ih
    obtain ⟨-, ref, href, hx⟩ := hxy
    rw [← h.node] at href
    obtain ⟨hlive, hfeeds⟩ := hg.feeds_finish ⟨hy, ref, href, hx⟩ name
    exact ⟨hlive, .head hfeeds hrest⟩

theorem SortedFrom.ref_lt (h : SortedFrom source f g) (hg : g.Closed)
    (hc : source.ControlsFirst g) {pos : Nat} {u : Node} (hu : g.numbered[pos]? = some u)
    (hreader : u.flags.feedbackReader = false) {ref : NodeRef} (href : ref ∈ u.refs) :
    ref.ugen < pos := by
  rw [getElem?_numbered] at hu
  obtain ⟨id, hpos, rfl⟩ := Option.map_eq_some_iff.1 hu
  have hid := mem_order_of_emission hpos
  rw [Node.refs_mapRefs] at href
  obtain ⟨old, hold, rfl⟩ := List.mem_map.1 href
  have hlive := (hg.ref hid hold).1
  have hfeeds : f.Feeds old.ugen id := ⟨h.live hid, old, h.node id ▸ hold, rfl⟩
  have hreader : (f.node id).flags.feedbackReader = false := h.node id ▸ hreader
  exact h.place_lt hc (emission_ordinal hlive) hpos
    (follows_of_feeds (h.live hlive) hfeeds hreader)

/-- What was registered after a width-first node has a later place, or is a feedback reader that
this node depends on. -/
theorem SortedFrom.widthFirst_lt (h : SortedFrom source f g) (hs : source.Sourced) (hg : g.Closed)
    (hc : source.ControlsFirst g) {first later i j : Nat} (hi : g.emission[i]? = some first)
    (hj : g.emission[j]? = some later) (hlt : first < later) (hlater : later < source.nodes.size)
    (hwidth : (g.node first).flags.widthFirst) (name : Option String) :
    i < j ∨ (g.node later).flags.feedbackReader ∧
      Relation.ReflTransGen (g.finish name).Feeds j i := by
  obtain ⟨p, hp⟩ := List.getElem?_of_mem (h.live (mem_order_of_emission hi))
  obtain ⟨q, hq⟩ := List.getElem?_of_mem (h.live (mem_order_of_emission hj))
  rw [h.node] at hwidth ⊢
  rcases follows_of_widthFirst hp hq (h.inOrder.lt_of_lt hs hp hq hlater hlt) hwidth with
    hfollows | ⟨hreader, hpath⟩
  · exact .inl (h.place_lt hc hi hj hfollows)
  · have hreaches := (h.reaches_finish hg (mem_order_of_emission hi) hpath name).2
    rw [ordinal_eq hg.toOrdered hi, ordinal_eq hg.toOrdered hj] at hreaches
    exact .inr ⟨hreader, hreaches⟩

end Graph

/-- What is built without controls and declarations of the caller stands in execution order. -/
theorem build_sequenced {b : Builder} (hb : b.Reachable)
    (hcontrol : ∀ n ∈ b.nodes, n.flags.control = false)
    (hnone : ∀ n ∈ b.nodes, n.className ≠ Catalog.maxLocalBufs.name) {options : Options}
    {d : Definition} (h : b.build options = .ok d) : b.Sequenced options d := by
  obtain ⟨-, g, hg, rfl⟩ := Builder.build_eq_ok.1 h
  have hs := hb.wellFormed.sourced
  have hl := (hs.resolved_compiled hg).2.1
  have hclosed := Builder.closed_compiled hb hnone hg
  have hc := hs.controlsFirst (fun id hid =>
    hcontrol _ (Array.mem_of_getElem? (Graph.getElem?_of_mem_ofNodes hid))) hg
  obtain ⟨f, hf⟩ := hs.sortedFrom hg
  constructor
  case controls =>
    obtain ⟨rest, hrest, hothers⟩ := hc.numbered_eq_append hl
    exact ⟨_, rest, hrest, (hs.tabulated hg options.effectiveName).forall₂_controls,
      fun u hu => (List.mem_filter.1 hu).2, hothers⟩
  case inputs => exact fun pos u hu hreader ref href => hf.ref_lt hclosed hc hu hreader href
  case widthFirst =>
    rintro first later i j ⟨hfirst, g', hg', hi⟩ ⟨hlater, g'', hg'', hj⟩ hlt ⟨n, hn, hwidth⟩
    obtain rfl := Except.ok.inj (hg.symm.trans hg')
    obtain rfl := Except.ok.inj (hg.symm.trans hg'')
    have hdescends := hs.descends_compiled hg
    have hflags : ∀ {pos id : Nat} {n : Node}, g.emission[pos]? = some id → b.nodes[id]? = some n →
        (g.node id).flags = n.flags := by
      intro pos id n hpos hn
      have hid := Graph.mem_order_of_emission hpos
      rw [(hdescends.alike id hid (Array.getElem?_eq_some_iff.1 hn).1).flags, Graph.node_ofNodes hn]
    have hm := Graph.getElem?_of_mem_ofNodes (List.mem_range.2 hlater)
    rcases hf.widthFirst_lt hs hclosed hc hi hj hlt hlater (by rwa [hflags hi hn]) _ with
      hplace | ⟨hreader, hpath⟩
    · exact .inl hplace
    · exact .inr ⟨⟨_, hm, by rwa [← hflags hj hm]⟩, hpath⟩

/-- A spectrum whose source is exchanged for a feedback bus that was registered after it. -/
def loopOperations : List Operation :=
  [.register { descriptor := Catalog.whiteNoise, rate := .audio },
    .fft { source := .outlet ⟨0, 0, 0, .audio⟩ },
    .register {
      descriptor := Catalog.ifft, rate := .audio
      args := [("pv_chain", .outlet ⟨0, 2, 0, .control⟩)] },
    .register { descriptor := Catalog.localIn, rate := .audio },
    .setInput 2 1 (.outlet ⟨0, 4, 0, .audio⟩),
    .parameter "bus",
    .out (.outlet ⟨0, 5, 0, .control⟩) (.outlet ⟨0, 3, 0, .audio⟩)]

def loopBuilder : Builder := loopOperations.foldl (fun b op => op.after b) { scope := 0 }

theorem reachable_loopBuilder : loopBuilder.Reachable :=
  reachable_of_admitted (by decide +kernel)

/-- The spectrum and its inverse are width-first, but the bus they depend on may stand before
them. -/
theorem loopBuilder_sequenced : ∃ d, loopBuilder.Reachable ∧
    (∀ n ∈ loopBuilder.nodes, n.flags.control = false) ∧
    (∀ n ∈ loopBuilder.nodes, n.className ≠ Catalog.maxLocalBufs.name) ∧
    loopBuilder.build {} = .ok d ∧
    d.ugens.map (·.className) =
      ["Control", "WhiteNoise", "MaxLocalBufs", "LocalBuf", "LocalIn", "FFT", "IFFT", "Out"] ∧
    loopBuilder.Places {} 2 5 ∧ loopBuilder.Places {} 4 4 ∧ loopBuilder.Sequenced {} d := by
  have hcontrol : ∀ n ∈ loopBuilder.nodes, n.flags.control = false := by decide +kernel
  have hnone : ∀ n ∈ loopBuilder.nodes, n.className ≠ Catalog.maxLocalBufs.name := by
    decide +kernel
  have hcompiled : (((Graph.ofNodes loopBuilder.nodes).compiled {}).toOption.map
      fun g => (g.numbered.map (·.className), g.emission[5]?, g.emission[4]?)) =
      some (["Control", "WhiteNoise", "MaxLocalBufs", "LocalBuf", "LocalIn", "FFT", "IFFT", "Out"],
        some 2, some 4) := by
    decide +kernel
  obtain ⟨g, hg, hfacts⟩ := exists_eq_ok_of_map_toOption hcompiled
  simp only [Prod.mk.injEq] at hfacts
  obtain ⟨hugens, hspectrum, hbus⟩ := hfacts
  have hd : loopBuilder.build {} = .ok (g.finish none) :=
    Builder.build_eq_ok.2 ⟨by decide +kernel, g, hg, rfl⟩
  exact ⟨_, reachable_loopBuilder, hcontrol, hnone, hd, hugens,
    ⟨by decide +kernel, g, hg, hspectrum⟩, ⟨by decide +kernel, g, hg, hbus⟩,
    build_sequenced reachable_loopBuilder hcontrol hnone hd⟩

end SynthGraph
