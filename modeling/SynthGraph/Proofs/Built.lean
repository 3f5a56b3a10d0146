import SynthGraph.Catalog
import SynthGraph.Proofs.Reachability
import SynthGraph.Proofs.Sizes

/-!
# What reachable builders build

No pass loses a reference, with one exception: a declaration of local buffers that the caller has
registered is dropped, and what still reads it falls on the first generator. Without such
declarations the definition is coherent, so a file of such definitions is read back and written as
the same file again.
-/

namespace SynthGraph

namespace Builder

/-- The caller registered a declaration of local buffers at position `id`. -/
def Declares (b : Builder) (id : Nat) : Prop :=
  ∃ n, b.nodes[id]? = some n ∧ n.className = Catalog.maxLocalBufs.name

variable {b : Builder} {options : Options} {d : Definition}

theorem isDeclaration_iff_declares {id : Nat} :
    (Graph.ofNodes b.nodes).IsDeclaration id ↔ b.Declares id := by
  constructor
  · rintro ⟨hid, hname⟩
    exact ⟨_, Graph.getElem?_of_mem_ofNodes hid, hname⟩
  · rintro ⟨n, hn, hname⟩
    refine ⟨List.mem_range.2 (Array.getElem?_eq_some_iff.1 hn).1, ?_⟩
    rwa [Graph.node_ofNodes hn]

theorem build_eq_ok : b.build options = .ok d ↔ b.nodes.isEmpty = false ∧
    ∃ g, (Graph.ofNodes b.nodes).compiled options = .ok g ∧
      d = g.finish options.effectiveName := by
  unfold build
  split
  · next hempty => simp [hempty]
  · next hempty =>
    simp only [Graph.compile, except_bind_eq_ok, hempty, true_and]
    refine exists_congr fun g => and_congr_right fun _ => ?_
    constructor
    · intro h
      cases h
      rfl
    · rintro rfl
      rfl

end Builder

/-! ## References -/

/-- The number that the reference gets is the place of the node it names, and that node has the
output. -/
def Graph.Locates (g : Graph) (ref : NodeRef) : Prop :=
  g.emission[(placed g.emission ref).ugen]? = some ref.ugen ∧
    ref.output < (g.node ref.ugen).outputs

theorem Graph.Resolved.locates_iff {source g : Graph} (hr : source.Resolved g) {id : Nat}
    (hid : id ∈ g.order) {ref : NodeRef} (href : ref ∈ (g.node id).refs) :
    (g.Locates ref ↔ ¬source.IsDeclaration ref.ugen) ∧
      (source.IsDeclaration ref.ugen → placed g.emission ref = ⟨0, ref.output⟩) := by
  obtain ⟨hlive, hlt⟩ := hr.wired.refs id hid ref href
  have hmem : ref.ugen ∈ g.emission ↔ ¬source.IsDeclaration ref.ugen := by
    rw [g.emission_perm.mem_iff]
    exact ⟨hr.dropped _, hlive.resolve_right⟩
  refine ⟨⟨fun h => hmem.1 (List.mem_of_getElem? h.1), fun h => ⟨?_, hlt⟩⟩, fun h => ?_⟩
  · exact placed_of_mem (hmem.2 h)
  · exact placed_of_not_mem fun hin => hmem.1 hin h

/-- The inputs of a built definition are the numbered references of a graph, and of these exactly
the ones to declarations that the caller registered miss the node they name. -/
theorem build_locates_iff_not_declares {b : Builder} (hb : b.Reachable) {options : Options}
    {d : Definition} (h : b.build options = .ok d) :
    ∃ g, (Graph.ofNodes b.nodes).compiled options = .ok g ∧
      d.ugens = g.emission.map (fun id => (g.node id).mapRefs (Graph.placed g.emission)) ∧
      ∀ id ∈ g.emission, ∀ ref ∈ (g.node id).refs,
        (g.Locates ref ↔ ¬b.Declares ref.ugen) ∧
          (b.Declares ref.ugen → Graph.placed g.emission ref = ⟨0, ref.output⟩) := by
  obtain ⟨-, g, hg, rfl⟩ := Builder.build_eq_ok.1 h
  refine ⟨g, hg, rfl, fun id hid ref href => ?_⟩
  have hr := (hb.wellFormed.sourced.resolved_compiled hg).1
  have := hr.locates_iff (g.emission_perm.mem_iff.1 hid) href
  rwa [Builder.isDeclaration_iff_declares] at this

/-- Noise, a declaration of one local buffer, a local buffer, and an oscillator whose frequency is
the declaration. -/
def strayOperations : List Operation :=
  [.register { descriptor := Catalog.whiteNoise, rate := .control },
    .register {
      descriptor := Catalog.maxLocalBufs, rate := .scalar, args := [("maximum", .constant 1)] },
    .register { descriptor := Catalog.localBuf, rate := .scalar },
    .register {
      descriptor := Catalog.sinOsc, rate := .control
      args := [("frequency", .outlet ⟨0, 1, 0, .scalar⟩)] }]

def strayBuilder : Builder := strayOperations.foldl (fun b op => op.after b) { scope := 0 }

theorem reachable_strayBuilder : strayBuilder.Reachable :=
  reachable_of_admitted (by decide +kernel)

theorem refs_strayBuilder : ((strayBuilder.build { optimize := false }).toOption.map
    fun d => d.ugens.map Node.refs) = some [[], [], [⟨1, 0⟩], [⟨0, 0⟩]] := by
  decide +kernel

theorem build_strayBuilder : ∃ d, strayBuilder.build { optimize := false } = .ok d ∧
    d.ugens.map Node.refs = [[], [], [⟨1, 0⟩], [⟨0, 0⟩]] :=
  exists_eq_ok_of_map_toOption refs_strayBuilder

/-- The statement at a builder with a stray reference. -/
theorem strayBuilder_locates_iff : ∃ d, strayBuilder.Reachable ∧
    strayBuilder.build { optimize := false } = .ok d ∧
    ∃ g, (Graph.ofNodes strayBuilder.nodes).compiled { optimize := false } = .ok g ∧
      d.ugens = g.emission.map (fun id => (g.node id).mapRefs (Graph.placed g.emission)) ∧
      ∀ id ∈ g.emission, ∀ ref ∈ (g.node id).refs,
        (g.Locates ref ↔ ¬strayBuilder.Declares ref.ugen) ∧
          (strayBuilder.Declares ref.ugen → Graph.placed g.emission ref = ⟨0, ref.output⟩) := by
  obtain ⟨d, hd, -⟩ := build_strayBuilder
  exact ⟨d, reachable_strayBuilder, hd, build_locates_iff_not_declares reachable_strayBuilder hd⟩

/-- The oscillator ends up reading the noise. -/
theorem exists_build_not_locates : ∃ (b : Builder) (options : Options) (d : Definition) (g : Graph),
    b.Reachable ∧ b.build options = .ok d ∧ d.ugens.map Node.refs = [[], [], [⟨1, 0⟩], [⟨0, 0⟩]] ∧
      (Graph.ofNodes b.nodes).compiled options = .ok g ∧
      ∃ id ∈ g.emission, ∃ ref ∈ (g.node id).refs, ¬g.Locates ref := by
  have hstray : ((Graph.ofNodes strayBuilder.nodes).compiled { optimize := false }).toOption.any
      (fun g => 3 ∈ g.emission ∧ ⟨1, 0⟩ ∈ (g.node 3).refs ∧ 1 ∉ g.emission) := by
    decide +kernel
  obtain ⟨d, hd, hrefs⟩ := build_strayBuilder
  obtain ⟨-, g, hg, -⟩ := Builder.build_eq_ok.1 hd
  rw [hg] at hstray
  obtain ⟨hid, href, hout⟩ := of_decide_eq_true hstray
  exact ⟨_, _, d, g, reachable_strayBuilder, hd, hrefs, hg, 3, hid, _, href,
    fun h => hout (List.mem_of_getElem? h.1)⟩

/-! ## Files -/

theorem Graph.Resolved.closed {source g : Graph} (hr : source.Resolved g)
    (hnone : ∀ id, ¬source.IsDeclaration id) : g.Closed :=
  ⟨hr.wired.toOrdered, fun id hid ref href =>
    ⟨.inl ((hr.wired.refs id hid ref href).1.resolve_right (hnone _)),
      (hr.wired.refs id hid ref href).2⟩⟩

theorem Builder.not_declares {b : Builder}
    (h : ∀ n ∈ b.nodes, n.className ≠ Catalog.maxLocalBufs.name) (id : Nat) : ¬b.Declares id := by
  rintro ⟨n, hn, hname⟩
  exact h n (Array.mem_of_getElem? hn) hname

theorem Builder.closed_compiled {b : Builder} (hb : b.Reachable)
    (hnone : ∀ n ∈ b.nodes, n.className ≠ Catalog.maxLocalBufs.name) {options : Options} {g : Graph}
    (h : (Graph.ofNodes b.nodes).compiled options = .ok g) : g.Closed := by
  refine (hb.wellFormed.sourced.resolved_compiled h).1.closed fun id => ?_
  rw [Builder.isDeclaration_iff_declares]
  exact Builder.not_declares hnone id

theorem Builder.coherent_build {b : Builder} (hb : b.Reachable)
    (hnone : ∀ n ∈ b.nodes, n.className ≠ Catalog.maxLocalBufs.name) {options : Options}
    {d : Definition} (h : b.build options = .ok d) : d.Coherent := by
  obtain ⟨-, g, hg, rfl⟩ := Builder.build_eq_ok.1 h
  have hs := hb.wellFormed.sourced
  obtain ⟨-, hl, hfits⟩ := hs.resolved_compiled hg
  exact Graph.coherent_finish hs (Builder.closed_compiled hb hnone hg) hl hfits _

/-- The counts of what is built from a small builder fit into the words of a file. -/
theorem Builder.fits_build {b : Builder} (hb : b.Reachable)
    (hw : (Graph.ofNodes b.nodes).weight < 4294967296) {options : Options} {d : Definition}
    (h : b.build options = .ok d) : d.Fits := by
  obtain ⟨-, g, hg, rfl⟩ := Builder.build_eq_ok.1 h
  exact hb.wellFormed.sourced.fits_finish hw hg _

/-- A file of built definitions is read back, whatever the catalog, and written as the same file
again. The counts in a file are words of 32 bits, which `Definition.Fits` says are large enough; by
`Builder.fits_build` they are for every builder that is not huge. -/
theorem decode_encode_build [Digest] {ds : List Definition} {anonymous : Bool} {bytes : Bytes}
    (catalog : Catalog)
    (hd : ∀ d ∈ ds, ∃ (b : Builder) (options : Options), b.Reachable ∧
      (∀ n ∈ b.nodes, n.className ≠ Catalog.maxLocalBufs.name) ∧ b.build options = .ok d)
    (hf : ∀ d ∈ ds, d.Fits) (hb : Scgf.encode ds anonymous = .ok bytes) :
    ∃ ds', Scgf.decode bytes catalog = .ok ds' ∧ List.Forall₂ Definition.ReadBack ds ds' ∧
      Scgf.encode ds' anonymous = .ok bytes := by
  refine Scgf.decode_encode catalog (fun d h => ?_) hf hb
  obtain ⟨b, options, hreach, hnone, hbuild⟩ := hd d h
  exact Builder.coherent_build hreach hnone hbuild

/-- A stereo parameter that glides, an oscillator that starts at a negative zero, and its output on
bus zero. -/
def toneOperations : List Operation :=
  [.addParameter { name := "freq", values := [440, 441], lag := some 1 },
    .register {
      descriptor := Catalog.sinOsc, rate := .audio
      args := [("frequency", .vector [.outlet ⟨0, 0, 0, .control⟩, .outlet ⟨0, 0, 1, .control⟩]),
        ("phase", .constant ⟨0x80000000⟩)] },
    .out (.constant 0) (.vector [.outlet ⟨0, 1, 0, .audio⟩, .outlet ⟨0, 2, 0, .audio⟩])]

def toneBuilder : Builder := toneOperations.foldl (fun b op => op.after b) { scope := 0 }

theorem reachable_toneBuilder : toneBuilder.Reachable :=
  reachable_of_admitted (by decide +kernel)

/-- Both zeros share a slot of the constant table. -/
theorem decode_encode_toneBuilder : ∃ d bytes, (toneBuilder.Reachable ∧
      (∀ n ∈ toneBuilder.nodes, n.className ≠ Catalog.maxLocalBufs.name) ∧
      toneBuilder.build { name := some "tone" } = .ok d) ∧ d.Fits ∧
    d.constants = [1, ⟨0x80000000⟩] ∧ Scgf.encode [d] false = .ok bytes ∧
    ∃ ds', Scgf.decode bytes Catalog.full = .ok ds' ∧
      List.Forall₂ Definition.ReadBack [d] ds' ∧ Scgf.encode ds' false = .ok bytes := by
  have hnone : ∀ n ∈ toneBuilder.nodes, n.className ≠ Catalog.maxLocalBufs.name := by
    decide +kernel
  have hbuild : ((toneBuilder.build { name := some "tone" }).toOption.map fun d =>
      (d.constants, (Scgf.encode [d] false).isOk)) = some ([1, ⟨0x80000000⟩], true) := by
    decide +kernel
  obtain ⟨d, hd, hfacts⟩ := exists_eq_ok_of_map_toOption hbuild
  obtain ⟨hconstants, hok⟩ := Prod.mk.inj hfacts
  have hf : d.Fits := Builder.fits_build reachable_toneBuilder (by decide +kernel) hd
  cases hb : Scgf.encode [d] false with
  | error fault =>
    rw [hb] at hok
    cases hok
  | ok bytes =>
    refine ⟨d, bytes, ⟨reachable_toneBuilder, hnone, hd⟩, hf, hconstants, hb,
      decode_encode_build Catalog.full ?_ (by simpa using hf) hb⟩
    intro d' hd'
    obtain rfl := List.mem_singleton.1 hd'
    exact ⟨toneBuilder, _, reachable_toneBuilder, hnone, hd⟩

end SynthGraph
