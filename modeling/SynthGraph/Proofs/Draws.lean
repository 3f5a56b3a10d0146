import SynthGraph.Proofs.Catalogued
import SynthGraph.Proofs.Quotients
import SynthGraph.Proofs.Registered

/-!
# Where random values are drawn

Noises are not pure, so each of them is in the definition, at a place of its own. An operator that
draws at random is of a class that is pure for the sake of the other operators. It is in the
definition if something reads it that stays there, but two of them share a place as soon as they
read the same.
-/

namespace SynthGraph

/-- The operator draws a new value every time. -/
def UnaryOperator.isRandom : UnaryOperator → Bool
  | rand | rand2 | linRand | bilinRand | sum3Rand | coin => true
  | _ => false

/-- The operator draws a new value every time. -/
def BinaryOperator.isRandom : BinaryOperator → Bool
  | randRange | expRandRange => true
  | _ => false

namespace Node

def IsNoise (n : Node) : Prop := ∃ d ∈ Catalog.full, d.category = .noise ∧ n.className = d.name

/-- The special index is that of a random operator. -/
def IsRandomOperator (n : Node) : Prop :=
  n.className = Catalog.unaryOpUGen.name ∧
      (UnaryOperator.ofIndex? n.special.toNat).any UnaryOperator.isRandom ∨
    n.className = Catalog.binaryOpUGen.name ∧
      (BinaryOperator.ofIndex? n.special.toNat).any BinaryOperator.isRandom

end Node

namespace Graph

/-- An impure generator that is compiled reads the node. -/
def Consumed (g : Graph) (id : Nat) : Prop :=
  ∃ consumer ∈ g.generators, ¬g.IsDeclaration consumer ∧
    (g.node consumer).flags.pure = false ∧
    ∃ output, Input.node ⟨id, output⟩ ∈ (g.node consumer).keptInputs

/-- The node draws random values that are used. -/
inductive Draws (g : Graph) (id : Nat) : Prop
  | noise (hid : id ∈ g.generators) (hnoise : (g.node id).IsNoise)
  | operator (hid : id ∈ g.generators) (hrandom : (g.node id).IsRandomOperator)
      (hconsumed : g.Consumed id)

/-- What a reference of a builder reads in the end, if `stand id` stands for the node `id`. -/
def follow (g : Graph) (stand : Nat → Nat) (ref : NodeRef) : NodeRef :=
  (controlRef g.controlGroups g.nodes.size ref).through stand

/-- Two random operators do the same with what they read in the end. -/
structure Agree (g : Graph) (stand : Nat → Nat) (a b : Nat) : Prop where
  left : (g.node a).IsRandomOperator
  right : (g.node b).IsRandomOperator
  congruent : ((g.node a).mapRefs (g.follow stand)).Congruent ((g.node b).mapRefs (g.follow stand))

/-- The compiled graph and the map that says what folding leaves for every node. -/
structure Folded (source complete g : Graph) (options : Options) (stand : Nat → Nat) : Prop where
  completed : source.complete = .ok complete
  quotient : complete.Quotient (complete.foldIf options) stand
  compiled : source.compiled options = .ok g
  /-- Without folding every node stands for itself, and with it nodes that agree are one. -/
  apart : foldsWith options = false → ∀ id, stand id = id
  merged : foldsWith options → ∀ a ∈ (complete.foldIf options).order,
    ∀ b ∈ (complete.foldIf options).order, ((complete.foldIf options).node a).flags.pure →
    ((complete.foldIf options).node b).flags.pure →
    ((complete.foldIf options).node a).Congruent ((complete.foldIf options).node b) → a = b

end Graph

/-- The places of the draws of a builder in a definition. What stands for a draw is there, and it is
of the same kind. -/
structure Builder.PlacesDraws (b : Builder) (options : Options) (d : Definition)
    (stand place : Nat → Nat) : Prop where
  folded : ∃ complete g, (Graph.ofNodes b.nodes).Folded complete g options stand
  placed : ∀ id n, (Graph.ofNodes b.nodes).Draws id → b.nodes[id]? = some n →
    b.Places options (stand id) (place id) ∧ ∃ u, d.ugens[place id]? = some u ∧
      u.className = n.className ∧ u.rate = n.rate ∧ u.special = n.special
  noise : ∀ id ∈ (Graph.ofNodes b.nodes).generators, ((Graph.ofNodes b.nodes).node id).IsNoise →
    stand id = id
  /-- Two draws share a place only if they are random operators that folding found to agree. -/
  shared : ∀ a c, (Graph.ofNodes b.nodes).Draws a → (Graph.ofNodes b.nodes).Draws c →
    (place a = place c ↔
      a = c ∨ Graph.foldsWith options ∧ (Graph.ofNodes b.nodes).Agree stand a c)

/-! ## Classes -/

namespace Catalog

/-- The classes of operators. -/
def operators : Catalog := [unaryOpUGen, binaryOpUGen]

theorem noise_spec : ∀ d ∈ full, d.category = .noise → d.flags.pure = false ∧
    d.name ≠ maxLocalBufs.name ∧ ∀ e ∈ operators, d.name ≠ e.name := by
  decide +kernel

theorem operators_spec : ∀ d ∈ operators, d ∈ full ∧ d.flags.pure ∧ d.flags.isPv = false ∧
    ∀ e ∈ Graph.insertedClasses ++ ControlGroup.classes, d.name ≠ e.name := by
  decide +kernel

end Catalog

namespace Node

variable {n m : Node}

theorem Catalogued.flags_eq (h : n.Catalogued) (hrole : n.role = .generator)
    {d : Descriptor} (hd : d ∈ Catalog.full) (hclass : n.className = d.name) :
    n.flags = d.flags := by
  obtain ⟨d', hd', hn⟩ := h hrole
  obtain rfl : d' = d :=
    List.inj_on_of_nodup_map Catalog.nodup_names hd' hd (hn.className.symm.trans hclass)
  exact hn.flags

theorem IsRandomOperator.className (h : n.IsRandomOperator) :
    ∃ d ∈ Catalog.operators, n.className = d.name := by
  rcases h with ⟨hclass, -⟩ | ⟨hclass, -⟩
  · exact ⟨_, by simp [Catalog.operators], hclass⟩
  · exact ⟨_, by simp [Catalog.operators], hclass⟩

theorem IsNoise.not_isRandomOperator (h : n.IsNoise) (hclass : m.className = n.className) :
    ¬m.IsRandomOperator := by
  intro hrandom
  obtain ⟨d, hd, hcategory, hnoise⟩ := h
  obtain ⟨e, he, hoperator⟩ := hrandom.className
  refine (Catalog.noise_spec d hd hcategory).2.2 e he ?_
  rw [← hnoise, ← hclass, hoperator]

end Node

namespace Graph

variable {source g₁ g₂ complete g : Graph} {copies : List ChainCopy} {options : Options}
  {stand : Nat → Nat} {id : Nat}

/-! ## Folding -/

theorem Sourced.exists_folded (hs : source.Sourced) (h : source.compiled options = .ok g) :
    ∃ complete stand, source.Folded complete g options stand := by
  obtain ⟨complete, hc, -, -⟩ := exists_complete h
  have hordered := (hs.resolved_complete hc).1.wired.toOrdered
  cases hfolds : foldsWith options with
  | false =>
    have hsame : complete.foldIf options = complete := if_neg (by simp [hfolds])
    refine ⟨complete, _, hc, ?_, h, fun _ _ => rfl, fun hfold => by simp [hfolds] at hfold⟩
    rw [hsame]
    exact .refl complete
  | true =>
    have hfold : complete.foldIf options = complete.foldCommon.2 := if_pos hfolds
    obtain ⟨hordered', hnone, -, stand, hq⟩ := foldPasses_spec hordered (Nat.lt_succ_self _)
    refine ⟨complete, stand, hc, ?_, h, fun hfalse => by simp [hfolds] at hfalse, fun _ => ?_⟩
    · rw [hfold]
      exact hq
    · rw [hfold]
      exact fun a ha b hb hpa hpb => eq_of_congruent hordered' hnone ha hb hpa hpb

/-! ## Nodes of the completed graph -/

/-- All generators but declarations are completed. -/
theorem Stages.mem_order_of_generator (h : Stages source g₁ g₂ complete copies)
    (hs : source.Sourced) (hid : id ∈ source.generators) (hnot : ¬source.IsDeclaration id) :
    id ∈ complete.order := by
  have hid₁ : id ∈ g₁.order := h.controls.mem_order.2 (.inr (mem_generators.1 hid))
  have hid₂ : id ∈ g₂.order := h.split.kept.subset hid₁
  refine h.declared.mem_order.2 (.inl ⟨hid₂, fun hdeclaration => hnot ?_⟩)
  exact (h.isDeclaration_iff hs hid₂).1 hdeclaration

/-- A generator that is in no chain and no local buffer reads what it read, and controls for
parameters. -/
theorem Stages.node_of_plain (h : Stages source g₁ g₂ complete copies)
    (hid : id ∈ source.generators)
    (hpv : (source.node id).flags.isPv = false)
    (hclass : (source.node id).className ≠ Catalog.localBuf.name) :
    complete.node id =
      (source.node id).mapRefs (controlRef source.controlGroups source.nodes.size) := by
  have hid₁ : id ∈ g₁.order := h.controls.mem_order.2 (.inr (mem_generators.1 hid))
  have hlt₁ := h.closed₁.bound id hid₁
  have halike := h.controls.alike hid
  have hslot : ∀ c ∈ copies, c.slot.ugen ≠ id := by
    rintro c hc rfl
    have hreader := (h.readsChain hc).reader.1
    rw [halike.flags, hpv] at hreader
    cases hreader
  have hnode₂ := h.split.untouched id hlt₁ hslot
  rw [h.declared.node id (h.closed₂.bound id (h.split.kept.subset hid₁)), if_neg, hnode₂]
  · exact h.controls.node id (mem_generators.1 hid).1 (mem_generators.1 hid).2
  · intro hbuffer
    have hname := (mem_buffers.1 hbuffer).2
    rw [hnode₂, halike.className] at hname
    exact hclass hname

namespace Folded

theorem exists_sorted (h : source.Folded complete g options stand) :
    ∃ sorted, (complete.foldIf options).sort = .ok sorted ∧ g = sorted.dropDeadIf options := by
  obtain ⟨complete', sorted, hc, hsort, hg⟩ := compiled_eq_ok.1 h.compiled
  obtain rfl := Except.ok.inj (h.completed.symm.trans hc)
  exact ⟨sorted, hsort, hg⟩

theorem node_eq (h : source.Folded complete g options stand) (id : Nat) :
    g.node id = (complete.foldIf options).node id := by
  obtain ⟨sorted, hsort, rfl⟩ := h.exists_sorted
  rw [node_dropDeadIf, (sort_perm hsort).1]

/-- What is not pure stands for itself and stays. -/
theorem live_of_impure (h : source.Folded complete g options stand) (hid : id ∈ complete.order)
    (himpure : (complete.node id).flags.pure = false) : stand id = id ∧ id ∈ g.order := by
  have hself := h.quotient.impure id himpure
  have hfolded := h.quotient.mem_iff.2 ⟨hid, hself⟩
  refine ⟨hself, ?_⟩
  obtain ⟨sorted, hsort, rfl⟩ := h.exists_sorted
  obtain ⟨hnode, hperm⟩ := sort_perm hsort
  have hsorted := hperm.mem_iff.2 hfolded
  unfold dropDeadIf
  split
  · by_contra hnot
    have hpure := pure_of_dropped hsorted hnot
    rw [hnode, h.quotient.kept id hfolded, (Node.alike_mapRefs _ _).flags, himpure] at hpure
    cases hpure
  · exact hsorted

theorem kind_stand (h : source.Folded complete g options stand) (hs : source.Sourced)
    (hid : id ∈ complete.order) (hlt : id < source.nodes.size) :
    (g.node (stand id)).className = (source.node id).className ∧
      (g.node (stand id)).rate = (source.node id).rate ∧
      (g.node (stand id)).special = (source.node id).special := by
  obtain ⟨g₁, g₂, copies, hstages⟩ := hs.stages h.completed
  have halike := (hstages.descends hs).alike id hid hlt
  have hcongruent := h.quotient.node id hid
  rw [h.node_eq]
  exact ⟨hcongruent.className.symm.trans halike.className,
    hcongruent.rate.symm.trans halike.rate, hcongruent.special.symm.trans halike.special⟩

/-- What a compiled impure node reads stays, if it is in no chain. -/
theorem live_of_consumed (h : source.Folded complete g options stand) (hs : source.Sourced)
    (hconsumed : source.Consumed id) (hid : id ∈ source.generators)
    (hlive : id ∈ complete.order) (hpv : (source.node id).flags.isPv = false) :
    stand id ∈ g.order := by
  obtain ⟨g₁, g₂, copies, hstages⟩ := hs.stages h.completed
  obtain ⟨consumer, hgen, hnot, himpure, output, hmem⟩ := hconsumed
  have hlt := hs.closed.bound _ (mem_generators.1 hgen).1
  have hcomplete := hstages.mem_order_of_generator hs hgen hnot
  -- The consumer reads the node after completion as well.
  obtain ⟨index, hkept⟩ := List.getElem?_of_mem hmem
  have hnone : (source.node id).parameter? = none := by
    simpa [isParameter_eq] using (mem_generators.1 hid).2
  have href : controlRef source.controlGroups source.nodes.size ⟨id, output⟩ = ⟨id, output⟩ :=
    controlRef_other fun _ => hnone
  have hreads : (complete.node consumer).inputs[index]? = some (.node ⟨id, output⟩) := by
    rw [hstages.getElem?_of_kept hcomplete hlt hkept, href]
    rw [href, hstages.controls.isPv_eq hid]
    exact hpv
  -- It stays, and so does what stands for the node.
  have himpure' : (complete.node consumer).flags.pure = false := by
    rw [((hstages.descends hs).alike consumer hcomplete hlt).flags, himpure]
  obtain ⟨hself, hconsumer⟩ := h.live_of_impure hcomplete himpure'
  have hfolded := h.quotient.live consumer hcomplete
  rw [hself] at hfolded
  have hturned : ⟨stand id, output⟩ ∈ (g.node consumer).refs := by
    rw [h.node_eq, h.quotient.kept consumer hfolded, Node.refs_mapRefs]
    exact List.mem_map.2 ⟨_, Node.mem_refs.2 (List.mem_of_getElem? hreads), rfl⟩
  obtain ⟨hresolved, -, -⟩ := hs.resolved_compiled h.compiled
  obtain ⟨hr, hl, -⟩ := hs.resolved_complete h.completed
  rcases (hresolved.wired.refs consumer hconsumer _ hturned).1 with hstays | hgone
  · exact hstays
  · exact absurd hgone ((hr.foldIf hl options).1.dropped _ (h.quotient.live id hlive))

end Folded

/-! ## Draws -/

theorem Draws.generator (hd : source.Draws id) : id ∈ source.generators := by
  cases hd with
  | noise hid => exact hid
  | operator hid => exact hid

namespace Folded

theorem noise_live (h : source.Folded complete g options stand) (hs : source.Sourced)
    (hcat : source.Catalogued) (hid : id ∈ source.generators) (hnoise : (source.node id).IsNoise) :
    id ∈ complete.order ∧ stand id = id ∧ id ∈ g.order := by
  obtain ⟨g₁, g₂, copies, hstages⟩ := hs.stages h.completed
  obtain ⟨hlive, hkind⟩ := mem_generators.1 hid
  obtain ⟨d, hd, hcategory, hclass⟩ := hnoise
  obtain ⟨himpure, hname, -⟩ := Catalog.noise_spec d hd hcategory
  have hcomplete : id ∈ complete.order := by
    refine hstages.mem_order_of_generator hs hid fun hdeclaration => hname ?_
    rw [← hclass, hdeclaration.2]
  refine ⟨hcomplete, h.live_of_impure hcomplete ?_⟩
  rw [((hstages.descends hs).alike id hcomplete (hs.closed.bound id hlive)).flags,
    (hcat id hlive).flags_eq (hs.roles id hlive hkind) hd hclass, himpure]

theorem operator_live (h : source.Folded complete g options stand) (hs : source.Sourced)
    (hcat : source.Catalogued) (hid : id ∈ source.generators)
    (hrandom : (source.node id).IsRandomOperator) : id ∈ complete.order ∧
      complete.node id =
        (source.node id).mapRefs (controlRef source.controlGroups source.nodes.size) ∧
      (source.node id).flags.isPv = false := by
  obtain ⟨g₁, g₂, copies, hstages⟩ := hs.stages h.completed
  obtain ⟨hlive, hkind⟩ := mem_generators.1 hid
  obtain ⟨d, hd, hclass⟩ := hrandom.className
  obtain ⟨hfull, -, hpv, hother⟩ := Catalog.operators_spec d hd
  have hpv' : (source.node id).flags.isPv = false := by
    rw [(hcat id hlive).flags_eq (hs.roles id hlive hkind) hfull hclass, hpv]
  refine ⟨?_, hstages.node_of_plain hid hpv' ?_, hpv'⟩
  · refine hstages.mem_order_of_generator hs hid fun hdeclaration => ?_
    exact hother Catalog.maxLocalBufs (by simp [insertedClasses]) (hclass ▸ hdeclaration.2)
  · rw [hclass]
    exact hother Catalog.localBuf (by simp [insertedClasses])

theorem operator_stand (h : source.Folded complete g options stand) (hs : source.Sourced)
    (hcat : source.Catalogued) (hid : id ∈ source.generators)
    (hrandom : (source.node id).IsRandomOperator) (hstays : stand id ∈ g.order) :
    stand id < source.nodes.size ∧ (g.node (stand id)).flags.pure := by
  obtain ⟨hcomplete, -, -⟩ := h.operator_live hs hcat hid hrandom
  obtain ⟨hname, -, -⟩ := h.kind_stand hs hcomplete (hs.closed.bound id (mem_generators.1 hid).1)
  obtain ⟨d, hd, hclass⟩ := hrandom.className
  obtain ⟨hfull, hpure, -, hother⟩ := Catalog.operators_spec d hd
  obtain ⟨-, hl, -⟩ := hs.resolved_compiled h.compiled
  rw [hclass] at hname
  have hnot : stand id ∉ controlIds source.nodes.size source.controlGroups := by
    intro hcontrol
    obtain ⟨group, -, hnode⟩ := hl.exists_group hcontrol
    rw [hnode] at hname
    exact hother _ (List.mem_append_right _ group.descriptor_mem_classes) hname.symm
  constructor
  · by_contra hge
    rcases (hs.descends_compiled h.compiled).inserted _ hstays (Nat.le_of_not_lt hge) with
      hcontrol | ⟨e, he, hinserted, -⟩
    · exact hnot hcontrol
    · exact hother e (List.mem_append_left _ he) (hname.symm.trans hinserted)
  · rw [(hs.catalogued_compiled hcat h.compiled _ hstays).flags_eq (hl.others _ hstays hnot) hfull
      hname]
    exact hpure

theorem live_of_draws (h : source.Folded complete g options stand) (hs : source.Sourced)
    (hcat : source.Catalogued) (hd : source.Draws id) :
    id ∈ complete.order ∧ stand id ∈ g.order ∧ stand id < source.nodes.size := by
  cases hd with
  | noise hid hnoise =>
    obtain ⟨hcomplete, hself, hstays⟩ := h.noise_live hs hcat hid hnoise
    rw [hself]
    exact ⟨hcomplete, hstays, hs.closed.bound id (mem_generators.1 hid).1⟩
  | operator hid hrandom hconsumed =>
    obtain ⟨hcomplete, -, hpv⟩ := h.operator_live hs hcat hid hrandom
    have hstays := h.live_of_consumed hs hconsumed hid hcomplete hpv
    exact ⟨hcomplete, hstays, (h.operator_stand hs hcat hid hrandom hstays).1⟩

theorem operator_congruent (h : source.Folded complete g options stand) (hs : source.Sourced)
    (hcat : source.Catalogued) (hid : id ∈ source.generators)
    (hrandom : (source.node id).IsRandomOperator) :
    ((source.node id).mapRefs (source.follow stand)).Congruent (g.node (stand id)) := by
  obtain ⟨hcomplete, hnode, -⟩ := h.operator_live hs hcat hid hrandom
  have hcongruent := h.quotient.node id hcomplete
  rw [hnode, Node.mapRefs_mapRefs, ← h.node_eq] at hcongruent
  exact hcongruent

/-- Two draws become one exactly if they are random operators that agree. -/
theorem stand_eq_iff (h : source.Folded complete g options stand) (hs : source.Sourced)
    (hcat : source.Catalogued) {a b : Nat} (ha : source.Draws a) (hb : source.Draws b) :
    stand a = stand b ↔ a = b ∨ foldsWith options ∧ source.Agree stand a b := by
  constructor
  · intro heq
    -- Only nodes of one class become one.
    have hclass : (source.node a).className = (source.node b).className := by
      have hkind : ∀ id, source.Draws id →
          (g.node (stand id)).className = (source.node id).className := by
        intro id hd
        obtain ⟨hcomplete, -, -⟩ := h.live_of_draws hs hcat hd
        exact (h.kind_stand hs hcomplete (hs.closed.bound id (mem_generators.1 hd.generator).1)).1
      rw [← hkind a ha, ← hkind b hb, heq]
    cases ha with
    | noise hid hnoise =>
      cases hb with
      | noise hid' hnoise' =>
        rw [(h.noise_live hs hcat hid hnoise).2.1, (h.noise_live hs hcat hid' hnoise').2.1] at heq
        exact .inl heq
      | operator hid' hrandom' => exact absurd hrandom' (hnoise.not_isRandomOperator hclass.symm)
    | operator hid hrandom =>
      cases hb with
      | noise hid' hnoise' => exact absurd hrandom (hnoise'.not_isRandomOperator hclass)
      | operator hid' hrandom' =>
        cases hfolds : foldsWith options with
        | false =>
          rw [h.apart hfolds, h.apart hfolds] at heq
          exact .inl heq
        | true =>
          have hcongruent := h.operator_congruent hs hcat hid hrandom
          rw [heq] at hcongruent
          refine .inr ⟨rfl, hrandom, hrandom', hcongruent.trans ?_⟩
          exact (h.operator_congruent hs hcat hid' hrandom').symm
  · rintro (rfl | ⟨hfolds, hrandom, hrandom', hcongruent⟩)
    · rfl
    · have hpure : ∀ id, source.Draws id → (source.node id).IsRandomOperator →
          stand id ∈ (complete.foldIf options).order ∧ (g.node (stand id)).flags.pure := by
        intro id hd hrandom
        obtain ⟨hcomplete, hstays, -⟩ := h.live_of_draws hs hcat hd
        exact ⟨h.quotient.live id hcomplete,
          (h.operator_stand hs hcat hd.generator hrandom hstays).2⟩
      obtain ⟨hlive, hpa⟩ := hpure a ha hrandom
      obtain ⟨hlive', hpb⟩ := hpure b hb hrandom'
      have hagree : (g.node (stand a)).Congruent (g.node (stand b)) :=
        (h.operator_congruent hs hcat ha.generator hrandom).symm.trans
          (hcongruent.trans (h.operator_congruent hs hcat hb.generator hrandom'))
      rw [h.node_eq] at hpa hpb hagree
      rw [h.node_eq (stand b)] at hagree
      exact h.merged hfolds _ hlive _ hlive' hpa hpb hagree

end Folded

end Graph

/-- Every definition has the noises of its builder at places of their own. Random operators that
something impure reads are there as well, and two of them are at one place exactly if the builder is
folded and they agree. -/
theorem build_places_draws {ops : List Operation} {b : Builder} {known : List Outlet}
    (hb : History ops b known)
    (hcalls : ∀ call, Operation.register call ∈ ops → call.descriptor ∈ Catalog.full)
    {options : Options} {d : Definition} (h : b.build options = .ok d) :
    ∃ stand place, b.PlacesDraws options d stand place := by
  have hops : ∀ op ∈ ops, op.Registers fun _ => False :=
    fun op hop call heq => .inl (hcalls call (heq ▸ hop))
  obtain ⟨-, g, hg, rfl⟩ := Builder.build_eq_ok.1 h
  have hs : (Graph.ofNodes b.nodes).Sourced := (hb.sound hops).1.sourced
  have hcat : (Graph.ofNodes b.nodes).Catalogued := fun id hid =>
    hb.catalogued hops _ (Array.mem_of_getElem? (Graph.getElem?_of_mem_ofNodes hid))
  obtain ⟨complete, stand, hfolded⟩ := hs.exists_folded hg
  refine ⟨stand, fun id => g.ordinal (stand id), ⟨complete, g, hfolded⟩, ?_, ?_, ?_⟩
  · intro id n hd hn
    obtain ⟨hcomplete, hstays, hlt⟩ := hfolded.live_of_draws hs hcat hd
    have hid := (Array.getElem?_eq_some_iff.1 hn).1
    obtain ⟨hclass, hrate, hspecial⟩ := hfolded.kind_stand hs hcomplete hid
    rw [Graph.node_ofNodes hn] at hclass hrate hspecial
    exact ⟨⟨hlt, g, hg, Graph.emission_ordinal hstays⟩, _, Graph.getElem?_ordinal hstays, hclass,
      hrate, hspecial⟩
  · exact fun id hid hnoise => (hfolded.noise_live hs hcat hid hnoise).2.1
  · intro a c ha hc
    rw [← hfolded.stand_eq_iff hs hcat ha hc]
    constructor
    · intro heq
      have hplace := Graph.emission_ordinal (hfolded.live_of_draws hs hcat ha).2.1
      rw [heq, Graph.emission_ordinal (hfolded.live_of_draws hs hcat hc).2.1] at hplace
      exact (Option.some.inj hplace).symm
    · intro heq
      rw [heq]

/-- Random operators on one noise, each read by a noise of its own. The first two agree. -/
def drawOperations : List Operation :=
  [.register { descriptor := Catalog.whiteNoise, rate := .control },
    .unary .rand (.outlet ⟨0, 0, 0, .control⟩),
    .unary .rand (.outlet ⟨0, 0, 0, .control⟩),
    .unary .coin (.outlet ⟨0, 0, 0, .control⟩)] ++
  [1, 2, 3].map fun id => .register {
    descriptor := Catalog.dust, rate := .control
    args := [("density", .outlet ⟨0, id, 0, .control⟩)] }

def drawBuilder : Builder := drawOperations.foldl (fun b op => op.after b) { scope := 0 }

theorem history_drawBuilder : ∃ known, History drawOperations drawBuilder known :=
  ⟨_, history_of_admitted (by decide +kernel)⟩

theorem isRandomOperator_drawBuilder : ∀ id < 7,
    ((Graph.ofNodes drawBuilder.nodes).node id).IsRandomOperator ↔ id ∈ [1, 2, 3] := by
  unfold Node.IsRandomOperator
  decide +kernel

theorem draws_drawBuilder : ∀ id < 7, (Graph.ofNodes drawBuilder.nodes).Draws id := by
  have hgenerators : ∀ id < 7, id ∈ (Graph.ofNodes drawBuilder.nodes).generators := by
    decide +kernel
  have hnoise : ∀ id ∈ [0, 4, 5, 6], ((Graph.ofNodes drawBuilder.nodes).node id).IsNoise := by
    unfold Node.IsNoise
    decide +kernel
  have hconsumed : ∀ id ∈ [1, 2, 3], ¬(Graph.ofNodes drawBuilder.nodes).IsDeclaration (id + 3) ∧
      ((Graph.ofNodes drawBuilder.nodes).node (id + 3)).flags.pure = false ∧
      Input.node ⟨id, 0⟩ ∈ ((Graph.ofNodes drawBuilder.nodes).node (id + 3)).keptInputs := by
    unfold Graph.IsDeclaration
    decide +kernel
  intro id hid
  have hcases : id ∈ [0, 4, 5, 6] ∨ id ∈ [1, 2, 3] ∧ id + 3 < 7 := by
    revert id
    decide
  rcases hcases with hmem | ⟨hmem, hlt⟩
  · exact .noise (hgenerators id hid) (hnoise id hmem)
  · obtain ⟨hcompiled, himpure, hreads⟩ := hconsumed id hmem
    exact .operator (hgenerators id hid) ((isRandomOperator_drawBuilder id hid).2 hmem)
      ⟨id + 3, hgenerators _ hlt, hcompiled, himpure, 0, hreads⟩

/-- The equal operators share a place, and neither another operator nor the noises do. -/
theorem drawBuilder_places_draws : ∃ d stand place,
    (∃ known, History drawOperations drawBuilder known) ∧
    (∀ call, Operation.register call ∈ drawOperations → call.descriptor ∈ Catalog.full) ∧
    drawBuilder.build { fold := true } = .ok d ∧
    drawBuilder.PlacesDraws { fold := true } d stand place ∧
    place 1 = place 2 ∧ place 1 ≠ place 3 ∧ place 4 ≠ place 5 := by
  obtain ⟨known, h⟩ := history_drawBuilder
  have hcalls : ∀ call, Operation.register call ∈ drawOperations →
      call.descriptor ∈ Catalog.full := by
    have hclasses : ∀ d ∈ [Catalog.whiteNoise, Catalog.dust], d ∈ Catalog.full := by
      decide +kernel
    intro call hcall
    simp only [drawOperations, List.map_cons, List.map_nil, List.cons_append, List.nil_append,
      List.mem_cons, List.not_mem_nil, reduceCtorEq, false_or, or_false,
      Operation.register.injEq] at hcall
    rcases hcall with rfl | rfl | rfl | rfl
    all_goals exact hclasses _ (by simp)
  obtain ⟨d, hd, -⟩ : ∃ d, drawBuilder.build { fold := true } = .ok d ∧ () = () :=
    exists_eq_ok_of_map_toOption (by decide +kernel)
  obtain ⟨stand, place, hplaces⟩ := build_places_draws h hcalls hd
  have hshared : ∀ {a c : Nat}, a < 7 → c < 7 → _ := fun ha hc =>
    hplaces.shared _ _ (draws_drawBuilder _ ha) (draws_drawBuilder _ hc)
  have hrandom := isRandomOperator_drawBuilder
  refine ⟨d, stand, place, ⟨known, h⟩, hcalls, hd, hplaces, ?_, fun heq => ?_, fun heq => ?_⟩
  · have hsame : (Graph.ofNodes drawBuilder.nodes).node 1 =
        (Graph.ofNodes drawBuilder.nodes).node 2 := by decide +kernel
    refine (hshared (by decide) (by decide)).2 (.inr ⟨rfl, ?_, ?_, ?_⟩)
    · exact (hrandom 1 (by decide)).2 (by decide)
    · exact (hrandom 2 (by decide)).2 (by decide)
    · rw [hsame]
      exact .refl _
  · rcases (hshared (by decide) (by decide)).1 heq with heq | ⟨-, hagree⟩
    · cases heq
    · have hspecial : ((Graph.ofNodes drawBuilder.nodes).node 1).special =
          ((Graph.ofNodes drawBuilder.nodes).node 3).special := hagree.congruent.special
      exact absurd hspecial (by decide +kernel)
  · rcases (hshared (by decide) (by decide)).1 heq with heq | ⟨-, hagree⟩
    · cases heq
    · exact absurd ((hrandom 4 (by decide)).1 hagree.left) (by decide)

/-- Random operators that only declarations of local buffers read. -/
def lostOperations : List Operation :=
  [.register { descriptor := Catalog.whiteNoise, rate := .control },
    .unary .rand (.outlet ⟨0, 0, 0, .control⟩),
    .unary .coin (.outlet ⟨0, 0, 0, .control⟩)] ++
  [1, 2].map fun id => .register {
    descriptor := Catalog.maxLocalBufs, rate := .scalar
    args := [("maximum", .outlet ⟨0, id, 0, .control⟩)] }

def lostBuilder : Builder := lostOperations.foldl (fun b op => op.after b) { scope := 0 }

/-- Of three random operators that noises read folding leaves two. Nothing is left of those that
declarations read, because all declarations are made anew. -/
theorem exists_draws_lost :
    (∃ d, drawBuilder.build { fold := true } = .ok d ∧
      (∀ id ∈ [1, 2, 3], (Graph.ofNodes drawBuilder.nodes).Draws id ∧
        ((Graph.ofNodes drawBuilder.nodes).node id).IsRandomOperator) ∧
      d.ugens.map (fun u => (u.className, u.refs)) =
        [("WhiteNoise", []), ("UnaryOpUGen", [⟨0, 0⟩]), ("Dust", [⟨1, 0⟩]), ("Dust", [⟨1, 0⟩]),
          ("UnaryOpUGen", [⟨0, 0⟩]), ("Dust", [⟨4, 0⟩])]) ∧
    ∃ d, lostBuilder.build { fold := true } = .ok d ∧
      (∀ id ∈ [1, 2], ((Graph.ofNodes lostBuilder.nodes).node id).IsRandomOperator ∧
        ((Graph.ofNodes lostBuilder.nodes).node (id + 2)).flags.pure = false ∧
        ⟨id, 0⟩ ∈ ((Graph.ofNodes lostBuilder.nodes).node (id + 2)).refs) ∧
      d.ugens.map (·.className) = ["WhiteNoise"] := by
  constructor
  · obtain ⟨d, hd, hugens⟩ : ∃ d, drawBuilder.build { fold := true } = .ok d ∧
        d.ugens.map (fun u => (u.className, u.refs)) =
          [("WhiteNoise", []), ("UnaryOpUGen", [⟨0, 0⟩]), ("Dust", [⟨1, 0⟩]), ("Dust", [⟨1, 0⟩]),
            ("UnaryOpUGen", [⟨0, 0⟩]), ("Dust", [⟨4, 0⟩])] :=
      exists_eq_ok_of_map_toOption (by decide +kernel)
    refine ⟨d, hd, fun id hid => ?_, hugens⟩
    have hlt : id < 7 := by
      revert id
      decide
    exact ⟨draws_drawBuilder id hlt, (isRandomOperator_drawBuilder id hlt).2 hid⟩
  · obtain ⟨d, hd, hugens⟩ : ∃ d, lostBuilder.build { fold := true } = .ok d ∧
        d.ugens.map (·.className) = ["WhiteNoise"] :=
      exists_eq_ok_of_map_toOption (by decide +kernel)
    refine ⟨d, hd, ?_, hugens⟩
    unfold Node.IsRandomOperator
    decide +kernel

end SynthGraph
