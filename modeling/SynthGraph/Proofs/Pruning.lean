import SynthGraph.Proofs.Circles

/-!
# Optimization only deletes

Without folding, optimization changes nothing but which generators are there. Up to sorting both
builds are the same, so they fail alike, and neither returns if the other does not; then dead nodes
are dropped from one of them. The places of those that stay name the part of the unoptimized
definition that is left.
-/

namespace SynthGraph

namespace Definition

/-- The reference when only the generators at the places `kept` are left. -/
def renumber (kept : List Nat) (ref : NodeRef) : NodeRef :=
  { ref with ugen := kept.idxOf ref.ugen }

/-- `d'` is `d` without the generators that do not stand at the places `kept`. -/
structure Pruned (d d' : Definition) (kept : List Nat) : Prop where
  ascending : kept.Pairwise (· < ·)
  bound : ∀ pos ∈ kept, pos < d.ugens.length
  ugens : d'.ugens = (kept.filterMap (d.ugens[·]?)).map (·.mapRefs (renumber kept))
  /-- What is left reads only what is left. -/
  closed : ∀ pos ∈ kept, ∀ u, d.ugens[pos]? = some u → ∀ ref ∈ u.refs, ref.ugen ∈ kept
  /-- Only what is pure is gone. -/
  deleted : ∀ (pos : Nat) (u : Node), d.ugens[pos]? = some u → pos ∉ kept → u.flags.pure
  name : d'.name = d.name
  parameters : d'.parameters = d.parameters
  nameOrder : d'.nameOrder = d.nameOrder
  constants : d'.constants = Graph.constantTable d'.ugens

end Definition

namespace Graph

variable {g : Graph} {first : Nat} {groups : List ControlGroup}

/-! ## Dropped nodes -/

theorem emission_dropDead_sublist (g : Graph) : g.dropDead.2.emission.Sublist g.emission := by
  rw [emission_eq, emission_eq]
  exact (g.dropDead_sublist.filter _).append (g.dropDead_sublist.filter _)

/-- The places of the nodes that are left. -/
def keptPlaces (g : Graph) : List Nat := g.dropDead.2.emission.map g.ordinal

theorem keptPlaces_sublist (hg : g.Ordered) :
    g.keptPlaces.Sublist (List.range g.numbered.length) := by
  rw [← map_ordinal_emission hg.nodup]
  exact g.emission_dropDead_sublist.map _

theorem ordinal_mem_keptPlaces {id : Nat} (h : id ∈ g.dropDead.2.order) :
    g.ordinal id ∈ g.keptPlaces :=
  List.mem_map_of_mem (g.dropDead.2.emission_perm.mem_iff.2 h)

theorem idxOf_keptPlaces (hg : g.Ordered) {id : Nat} (h : id ∈ g.dropDead.2.order) :
    g.keptPlaces.idxOf (g.ordinal id) = g.dropDead.2.ordinal id := by
  have hkept : g.keptPlaces[g.dropDead.2.ordinal id]? = some (g.ordinal id) := by
    rw [keptPlaces, List.getElem?_map, emission_ordinal h, Option.map_some]
  obtain ⟨hlt, heq⟩ := List.getElem?_eq_some_iff.1 hkept
  have hnodup : g.keptPlaces.Nodup := (keptPlaces_sublist hg).nodup List.nodup_range
  rw [← heq, hnodup.idxOf_getElem _ hlt]

theorem renumber_placed (hg : g.Closed) {id : Nat} (hid : id ∈ g.dropDead.2.order) {ref : NodeRef}
    (href : ref ∈ (g.node id).refs) :
    Definition.renumber g.keptPlaces (placed g.emission ref) =
      placed g.dropDead.2.emission ref := by
  have hlive : ref.ugen ∈ g.dropDead.2.order := (Closed.ref hg.dropDead hid href).1
  exact congrArg (NodeRef.mk · ref.output) (idxOf_keptPlaces hg.toOrdered hlive)

theorem numbered_dropDead (hg : g.Closed) :
    g.dropDead.2.numbered = (g.keptPlaces.filterMap (g.numbered[·]?)).map
      (·.mapRefs (Definition.renumber g.keptPlaces)) := by
  have hlive : ∀ id ∈ g.dropDead.2.emission, id ∈ g.dropDead.2.order :=
    fun id hid => g.dropDead.2.emission_perm.mem_iff.1 hid
  have hfound : g.keptPlaces.filterMap (g.numbered[·]?) =
      g.dropDead.2.emission.map fun id => (g.node id).mapRefs (placed g.emission) := by
    rw [keptPlaces, List.filterMap_map, ← List.filterMap_eq_map]
    refine List.filterMap_congr fun id hid => ?_
    exact getElem?_ordinal (g.dropDead_sublist.mem (hlive id hid))
  rw [hfound, List.map_map]
  refine List.map_congr_left fun id hid => ?_
  show (g.node id).mapRefs _ = ((g.node id).mapRefs _).mapRefs _
  rw [Node.mapRefs_mapRefs]
  exact Node.mapRefs_congr fun ref href => (renumber_placed hg (hlive id hid) href).symm

theorem pruned_finish (hg : g.Closed) (hl : g.Listed first groups)
    (hfits : ∀ group ∈ groups, group.start < 65536) (name : Option String) :
    (g.finish name).Pruned (g.dropDead.2.finish name) g.keptPlaces := by
  have hparameters : parameterTable g.dropDead.2.numbered = parameterTable g.numbered :=
    (parameterTable_numbered hl.dropDead hfits).trans (parameterTable_numbered hl hfits).symm
  have hsub := keptPlaces_sublist hg.toOrdered
  constructor
  case ascending => exact List.pairwise_lt_range.sublist hsub
  case bound => exact fun pos hpos => List.mem_range.1 (hsub.mem hpos)
  case ugens => exact numbered_dropDead hg
  case closed =>
    intro pos hpos u hu ref href
    obtain ⟨id, hid, rfl⟩ := List.mem_map.1 hpos
    have hid := g.dropDead.2.emission_perm.mem_iff.1 hid
    have hu : g.numbered[g.ordinal id]? = some u := hu
    rw [getElem?_ordinal (g.dropDead_sublist.mem hid)] at hu
    obtain rfl := Option.some.inj hu
    rw [Node.refs_mapRefs] at href
    obtain ⟨old, hold, rfl⟩ := List.mem_map.1 href
    exact ordinal_mem_keptPlaces (Closed.ref hg.dropDead hid hold).1
  case deleted =>
    intro pos u hu hnot
    have hu : g.numbered[pos]? = some u := hu
    rw [getElem?_numbered] at hu
    obtain ⟨id, hpos, rfl⟩ := Option.map_eq_some_iff.1 hu
    refine pure_of_dropped (mem_order_of_emission hpos) fun hid => hnot ?_
    rw [← ordinal_eq hg.toOrdered hpos]
    exact ordinal_mem_keptPlaces hid
  case name => rfl
  case parameters => exact hparameters
  case nameOrder => exact congrArg Definition.alphabetical hparameters
  case constants => rfl

/-! ## Both builds -/

/-- Optimization starts from the graph that the build without it has. -/
theorem compiled_optimized (source : Graph) (name : Option String) :
    source.compiled { name, optimize := true } =
      (source.compiled { name, optimize := false }).map (·.dropDead.2) := by
  have hfold : ∀ (g : Graph) (optimize : Bool), g.foldIf { name, optimize } = g := by
    intro g optimize
    simp [foldIf, foldsWith]
  unfold compiled
  simp only [bind, Except.bind, hfold]
  cases source.complete with
  | error fault => rfl
  | ok complete =>
    simp only
    cases complete.sort <;> rfl

end Graph

/-- Neither build returns where a shared chain runs in a circle. Anywhere else a build with
optimization fails like the one without it, or deletes generators from its result. -/
theorem build_pruned {b : Builder} (hb : b.Reachable)
    (hnone : ∀ n ∈ b.nodes, n.className ≠ Catalog.maxLocalBufs.name) (name : Option String) :
    (∀ optimize, b.build { name, optimize } = .error .endless ↔ b.Endless) ∧
    (¬b.Endless →
      (∃ fault, b.build { name, optimize := true } = .error (.fault fault) ∧
        b.build { name, optimize := false } = .error (.fault fault)) ∨
      ∃ d d' kept, b.build { name, optimize := false } = .ok d ∧
        b.build { name, optimize := true } = .ok d' ∧ d.Pruned d' kept) := by
  have hendless : ∀ options, b.build options = .error .endless ↔ b.Endless :=
    hb.wellFormed.build_eq_endless
  refine ⟨fun optimize => hendless _, fun hends => ?_⟩
  by_cases hempty : b.nodes.isEmpty = true
  · exact .inl ⟨.emptyGraph, if_pos hempty, if_pos hempty⟩
  rw [Bool.not_eq_true] at hempty
  have hsame := Graph.compiled_optimized (Graph.ofNodes b.nodes) name
  cases hg : (Graph.ofNodes b.nodes).compiled { name, optimize := false } with
  | error failure =>
    rw [hg] at hsame
    have hplain := (Builder.build_eq_error hempty).2 hg
    cases failure with
    | endless => exact absurd ((hendless _).1 hplain) hends
    | fault fault => exact .inl ⟨fault, (Builder.build_eq_error hempty).2 hsame, hplain⟩
  | ok g =>
    rw [hg] at hsame
    obtain ⟨-, hl, hfits⟩ := hb.wellFormed.sourced.resolved_compiled hg
    exact .inr ⟨_, _, g.keptPlaces, Builder.build_eq_ok.2 ⟨hempty, g, hg, rfl⟩,
      Builder.build_eq_ok.2 ⟨hempty, _, hsame, rfl⟩,
      Graph.pruned_finish (Builder.closed_compiled hb hnone hg) hl hfits _⟩

/-- Two oscillators, the second reading the first, that nothing else reads, and noise on bus
zero. -/
def sketchOperations : List Operation :=
  [.register { descriptor := Catalog.sinOsc, rate := .control },
    .register {
      descriptor := Catalog.sinOsc, rate := .audio
      args := [("frequency", .outlet ⟨0, 0, 0, .control⟩)] },
    .register { descriptor := Catalog.whiteNoise, rate := .audio },
    .out (.constant 0) (.outlet ⟨0, 2, 0, .audio⟩)]

def sketchBuilder : Builder := sketchOperations.foldl (fun b op => op.after b) { scope := 0 }

theorem reachable_sketchBuilder : sketchBuilder.Reachable :=
  reachable_of_admitted (by decide +kernel)

/-- The oscillators go, the second one before the first, and what is left is numbered again. -/
theorem sketchBuilder_pruned : sketchBuilder.Reachable ∧
    (∀ n ∈ sketchBuilder.nodes, n.className ≠ Catalog.maxLocalBufs.name) ∧
    ¬sketchBuilder.Endless ∧
    ∃ d d' kept, sketchBuilder.build { name := some "sketch", optimize := false } = .ok d ∧
      sketchBuilder.build { name := some "sketch", optimize := true } = .ok d' ∧
      d.Pruned d' kept ∧ d.ugens.map Node.refs = [[], [⟨0, 0⟩], [], [⟨2, 0⟩]] ∧
      d'.ugens.map Node.refs = [[], [⟨0, 0⟩]] := by
  have hnone : ∀ n ∈ sketchBuilder.nodes, n.className ≠ Catalog.maxLocalBufs.name := by
    decide +kernel
  have hplain : ((sketchBuilder.build { name := some "sketch", optimize := false }).toOption.map
      fun d => d.ugens.map Node.refs) = some [[], [⟨0, 0⟩], [], [⟨2, 0⟩]] := by
    decide +kernel
  have hoptimized : ((sketchBuilder.build { name := some "sketch", optimize := true }).toOption.map
      fun d => d.ugens.map Node.refs) = some [[], [⟨0, 0⟩]] := by
    decide +kernel
  obtain ⟨hendless, hpruned⟩ := build_pruned reachable_sketchBuilder hnone (some "sketch")
  have hends : ¬sketchBuilder.Endless := by
    intro h
    rw [(hendless true).2 h] at hoptimized
    cases hoptimized
  refine ⟨reachable_sketchBuilder, hnone, hends, ?_⟩
  rcases hpruned hends with ⟨fault, hfault, -⟩ | ⟨d, d', kept, hd, hd', hpruned⟩
  · rw [hfault] at hoptimized
    cases hoptimized
  · rw [hd] at hplain
    rw [hd'] at hoptimized
    exact ⟨d, d', kept, hd, hd', hpruned, Option.some.inj hplain, Option.some.inj hoptimized⟩

/-- A transform that is made to read itself, with another one reading it. -/
def circleOperations : List Operation :=
  [.register {
      descriptor := Catalog.pvMagFreeze, rate := .control, args := [("pv_chain", .constant 0)] },
    .register {
      descriptor := Catalog.pvMagFreeze, rate := .control
      args := [("pv_chain", .outlet ⟨0, 0, 0, .control⟩)] },
    .setInput 0 0 (.outlet ⟨0, 0, 0, .control⟩)]

def circleBuilder : Builder := circleOperations.foldl (fun b op => op.after b) { scope := 0 }

/-- Neither build fails, and neither gives a definition. -/
theorem circleBuilder_endless : circleBuilder.Reachable ∧
    (∀ n ∈ circleBuilder.nodes, n.className ≠ Catalog.maxLocalBufs.name) ∧
    (∀ options, circleBuilder.build options = .error .endless) ∧
    ∀ name, ¬((∃ fault, circleBuilder.build { name, optimize := true } = .error (.fault fault) ∧
        circleBuilder.build { name, optimize := false } = .error (.fault fault)) ∨
      ∃ d d', circleBuilder.build { name, optimize := false } = .ok d ∧
        circleBuilder.build { name, optimize := true } = .ok d') := by
  have hreachable : circleBuilder.Reachable := reachable_of_admitted (by decide +kernel)
  have hplain : circleBuilder.build { optimize := false } = .error .endless := by decide +kernel
  have hendless : ∀ options, circleBuilder.build options = .error .endless := fun options =>
    (hreachable.wellFormed.build_eq_endless options).2
      ((hreachable.wellFormed.build_eq_endless _).1 hplain)
  refine ⟨hreachable, by decide +kernel, hendless, fun name => ?_⟩
  rw [hendless { name, optimize := false }]
  rintro (⟨fault, -, hfault⟩ | ⟨d, d', hd, -⟩)
  · cases hfault
  · cases hd

end SynthGraph
