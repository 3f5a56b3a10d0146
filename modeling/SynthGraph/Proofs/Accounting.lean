import Mathlib.Data.Nat.Bitwise
import SynthGraph.Proofs.Draws
import SynthGraph.Proofs.Evaluation
import SynthGraph.Proofs.Execution

/-!
# Accounting for local buffers

The declaration is made in the middle of compilation: after chains were copied, which adds local
buffers, and before equal nodes are folded and dead ones dropped. Its count is still right in the
end, because neither local buffers nor the declaration are pure, so all of them stay. The local
buffers read the declaration, so it is sorted before them. The number itself is exact as long as it
fits the 24 bits of a significand.
-/

namespace SynthGraph

/-! ## Small numbers are exact -/

namespace Single

theorem exponent_eq (s : Single) : s.exponent = s.bits.toNat / 2 ^ 23 % 2 ^ 8 := by
  have hmask : (0xFF : UInt32).toNat = 2 ^ 8 - 1 := rfl
  rw [exponent, UInt32.toNat_and, UInt32.toNat_shiftRight, hmask, Nat.and_two_pow_sub_one_eq_mod,
    Nat.shiftRight_eq_div_pow]
  rfl

theorem fraction_eq (s : Single) : s.fraction = s.bits.toNat % 2 ^ 23 := by
  have hmask : (0x7FFFFF : UInt32).toNat = 2 ^ 23 - 1 := rfl
  rw [fraction, UInt32.toNat_and, hmask, Nat.and_two_pow_sub_one_eq_mod]

theorem isNegative_eq_false {s : Single} (h : s.bits.toNat < 2 ^ 31) : s.isNegative = false := by
  have hmask : s.bits &&& 0x80000000 = 0 := by
    apply UInt32.toNat_inj.1
    have hbit : (0x80000000 : UInt32).toNat = 2 ^ 31 := rfl
    rw [UInt32.toNat_and, hbit, Nat.and_two_pow, Nat.testBit_lt_two_pow h, Bool.toNat_false,
      Nat.zero_mul]
    rfl
  simp [isNegative, hmask]

/-- The number shifted so that its leading bit is the 24th. -/
def aligned (n : Nat) : Nat := n * 2 ^ (23 - n.log2)

variable {n : Nat}

theorem log2_le (hpos : n ≠ 0) (hlt : n < 2 ^ 24) : n.log2 ≤ 23 :=
  Nat.le_of_lt_succ ((Nat.log2_lt hpos).2 hlt)

theorem aligned_bounds (hpos : n ≠ 0) (hlt : n < 2 ^ 24) :
    2 ^ 23 ≤ aligned n ∧ aligned n < 2 ^ 24 := by
  have hpow (k : Nat) : 2 ^ (n.log2 + k) * 2 ^ (23 - n.log2) = 2 ^ (23 + k) := by
    have := log2_le hpos hlt
    rw [← Nat.pow_add]
    congr 1
    omega
  constructor
  · rw [← hpow 0]
    exact Nat.mul_le_mul_right _ (Nat.log2_self_le hpos)
  · rw [← hpow 1]
    exact Nat.mul_lt_mul_of_pos_right Nat.lt_log2_self (Nat.two_pow_pos _)

/-- Small numbers need no rounding. -/
theorem toNat_bits_ofNat (hpos : n ≠ 0) (hlt : n < 2 ^ 24) :
    (ofNat n).bits.toNat = (n.log2 + 126) * 2 ^ 23 + aligned n := by
  have hlead := log2_le hpos hlt
  have hbounds := aligned_bounds hpos hlt
  have hleast : max ((n.log2 : Int) + 0 - 23) (-149) = (n.log2 : Int) - 23 := by omega
  have hshift : ((0 : Int) - ((n.log2 : Int) - 23)).toNat = 23 - n.log2 := by omega
  have hbias : ((n.log2 : Int) - 23 + 149).toNat = n.log2 + 126 := by omega
  have hmagnitude : magnitude n 0 = (n.log2 + 126) * 2 ^ 23 + aligned n := by
    unfold magnitude
    rw [if_neg hpos]
    simp only [hleast, hshift, hbias]
    rw [if_pos (by omega), Nat.shiftLeft_eq, Nat.shiftLeft_eq, ← aligned, Nat.min_eq_left]
    omega
  show (magnitude n 0).toUInt32.toNat = _
  rw [hmagnitude, Nat.toUInt32, UInt32.toNat_ofNat', Nat.mod_eq_of_lt]
  omega

end Single

/-- Small numbers are exact. -/
theorem Reading.rational_ofNat {n : Nat} (hpos : n ≠ 0) (hlt : n < 2 ^ 24) :
    Reading.rational.value (.ofNat n) = n := by
  have hlead := Single.log2_le hpos hlt
  have hbounds := Single.aligned_bounds hpos hlt
  have hbits := Single.toNat_bits_ofNat hpos hlt
  have hexponent : (Single.ofNat n).exponent = n.log2 + 127 := by
    rw [Single.exponent_eq, hbits]
    omega
  have hsignificand : (Single.ofNat n).significand = Single.aligned n := by
    rw [Single.significand, hexponent, if_neg (by omega), Single.fraction_eq, hbits]
    omega
  have hscale : (Single.ofNat n).scale = -((23 - n.log2 : Nat) : Int) := by
    rw [Single.scale, hexponent, if_neg (by omega)]
    omega
  have hsign : (Single.ofNat n).isNegative = false :=
    Single.isNegative_eq_false (by omega)
  show (if (Single.ofNat n).isNegative then (-1 : ℚ) else 1) * _ * _ = _
  rw [hsign, hsignificand, hscale, Single.aligned]
  push_cast
  rw [zpow_neg, zpow_natCast, one_mul, mul_inv_cancel_right₀ (pow_ne_zero _ two_ne_zero)]

/-! ## Local buffers in a graph -/

/-- The node is a local buffer. -/
def Node.isBuffer (n : Node) : Bool := n.className == Catalog.localBuf.name

/-- A local buffer has the flags of its descriptor and at least its inputs. -/
def Node.Standard (n : Node) : Prop :=
  n.className = Catalog.localBuf.name →
    n.flags = Catalog.localBuf.flags ∧ Catalog.localBuf.inputs.length ≤ n.inputs.length

namespace Graph

/-- The local buffers of the graph are `buffers`. If there are any, `declaration` is the only
declaration, it counts them, and they read it in their third and last input. -/
structure Accounted (g : Graph) (buffers : List Nat) (declaration : Nat) : Prop where
  buffer : ∀ id, id ∈ buffers ↔ id ∈ g.order ∧ (g.node id).className = Catalog.localBuf.name
  declares : ∀ id, g.IsDeclaration id ↔ buffers ≠ [] ∧ id = declaration
  node : buffers ≠ [] →
    (g.node declaration).inputs = [.constant (.ofNat buffers.length)] ∧
      (g.node declaration).flags = Catalog.maxLocalBufs.flags
  reads : ∀ id ∈ buffers, (g.node id).flags = Catalog.localBuf.flags ∧
    ∃ x y, (g.node id).inputs = [x, y, .node ⟨declaration, 0⟩]

variable {source g₁ g₂ complete g : Graph} {copies : List ChainCopy} {options : Options}
  {stand : Nat → Nat} {buffers : List Nat} {declaration : Nat}

/-- What is copied for chains are local buffers with two inputs. -/
theorem Stages.standard (h : Stages source g₁ g₂ g copies)
    (hsource : ∀ id ∈ source.order, (source.node id).Standard) :
    ∀ id ∈ g₂.order, (g₂.node id).Standard := by
  intro id hid hclass
  rcases List.mem_append.1 (h.split.order.mem_iff.1 hid) with hid₁ | hnew
  · have hlt₁ := h.closed₁.bound id hid₁
    have halike := h.split.alike id hlt₁
    rw [halike.className] at hclass
    rw [halike.flags, h.split.length id hlt₁]
    rcases h.controls.mem_order.1 hid₁ with ⟨k, group, hk, rfl⟩ | ⟨hold, hkind⟩
    · rw [h.controls.control k group hk] at hclass
      exact absurd hclass group.className_node.1
    · rw [h.controls.node id hold hkind] at hclass ⊢
      obtain ⟨hflags, hlength⟩ := hsource id hold hclass
      refine ⟨hflags, ?_⟩
      rw [Node.mapRefs, List.length_map]
      exact hlength
  · obtain ⟨c, hc, hmem⟩ := List.mem_flatMap.1 hnew
    rcases h.split.synthesized hc hmem with ⟨input, hnode⟩ | hnode | hnode
    all_goals rw [hnode] at hclass ⊢
    · exact absurd hclass (show Catalog.bufFrames.name ≠ Catalog.localBuf.name by decide)
    · exact ⟨rfl, Nat.le_refl 2⟩
    · exact absurd hclass (show Catalog.pvCopy.name ≠ Catalog.localBuf.name by decide)

theorem inputs_declareBuffer {n : Node} (h : 2 ≤ n.inputs.length) (id : Nat) :
    ∃ x y, (declareBuffer id n).inputs = [x, y, .node ⟨id, 0⟩] := by
  obtain ⟨x, rest, hx⟩ : ∃ x rest, n.inputs = x :: rest := List.exists_cons_of_length_pos (by omega)
  obtain ⟨y, rest, rfl⟩ : ∃ y rest', rest = y :: rest' :=
    List.exists_cons_of_length_pos (by simp only [hx, List.length_cons] at h; omega)
  exact ⟨x, y, by rw [declareBuffer, hx]; rfl⟩

/-- When it is made, the declaration counts the local buffers. -/
theorem Declared.accounted (h : g₂.Declared g) (hordered : g₂.Ordered)
    (hstandard : ∀ id ∈ g₂.order, (g₂.node id).Standard) :
    g.Accounted g₂.buffers g₂.nodes.size := by
  have hother : Catalog.maxLocalBufs.name ≠ Catalog.localBuf.name := by decide
  have hdeclaration : g₂.buffers ≠ [] → (g.node g₂.nodes.size).className =
      Catalog.maxLocalBufs.name := fun hne => by rw [h.declaration hne]; rfl
  constructor
  case buffer =>
    intro id
    rw [mem_buffers, h.mem_order]
    constructor
    · rintro ⟨hid, hclass⟩
      refine ⟨.inl ⟨hid, fun hdecl => hother (hdecl.2.symm.trans hclass)⟩, ?_⟩
      rw [(h.alike (hordered.bound id hid)).className, hclass]
    · rintro ⟨⟨hid, -⟩ | ⟨hne, rfl⟩, hclass⟩
      · exact ⟨hid, (h.alike (hordered.bound id hid)).className ▸ hclass⟩
      · exact absurd ((hdeclaration hne).symm.trans hclass) hother
  case declares =>
    intro id
    constructor
    · rintro ⟨hid, hclass⟩
      rcases h.mem_order.1 hid with ⟨hold, hnot⟩ | hnew
      · refine absurd ⟨hold, ?_⟩ hnot
        rw [← (h.alike (hordered.bound id hold)).className, hclass]
      · exact hnew
    · rintro ⟨hne, rfl⟩
      exact ⟨h.mem_order.2 (.inr ⟨hne, rfl⟩), hdeclaration hne⟩
  case node =>
    intro hne
    rw [h.declaration hne]
    exact ⟨rfl, rfl⟩
  case reads =>
    intro id hid
    obtain ⟨hlive, hclass⟩ := mem_buffers.1 hid
    obtain ⟨hflags, hlength⟩ := hstandard id hlive hclass
    rw [h.node id (hordered.bound id hlive), if_pos hid]
    exact ⟨hflags, inputs_declareBuffer hlength _⟩

/-- A node that is left has only its references turned. -/
theorem Folded.node_of_live (h : source.Folded complete g options stand) {id : Nat}
    (hid : id ∈ g.order) :
    id ∈ complete.order ∧ g.node id = (complete.node id).mapRefs (NodeRef.through stand) := by
  have hfolded : id ∈ (complete.foldIf options).order := by
    obtain ⟨sorted, hsort, rfl⟩ := h.exists_sorted
    exact (sort_perm hsort).2.mem_iff.1 ((sorted.dropDeadIf_sublist options).subset hid)
  exact ⟨(h.quotient.mem_iff.1 hfolded).1, (h.node_eq id).trans (h.quotient.kept id hfolded)⟩

/-- Folding, sorting and dropping change nothing of the account, as none of its nodes is pure. -/
theorem Accounted.compiled (h : complete.Accounted buffers declaration)
    (hf : source.Folded complete g options stand) : g.Accounted buffers declaration := by
  have hbuffer : ∀ {id}, id ∈ buffers → id ∈ g.order := by
    intro id hid
    refine (hf.live_of_impure ((h.buffer id).1 hid).1 ?_).2
    rw [(h.reads id hid).1]
    rfl
  have hclass : ∀ {id}, id ∈ g.order → (g.node id).className = (complete.node id).className := by
    intro id hid
    rw [(hf.node_of_live hid).2]
    rfl
  have hdeclaration : buffers ≠ [] → stand declaration = declaration ∧ declaration ∈ g.order := by
    intro hne
    refine hf.live_of_impure ((h.declares declaration).2 ⟨hne, rfl⟩).1 ?_
    rw [(h.node hne).2]
    rfl
  constructor
  case buffer =>
    intro id
    constructor
    · intro hid
      exact ⟨hbuffer hid, (hclass (hbuffer hid)).trans ((h.buffer id).1 hid).2⟩
    · rintro ⟨hid, hname⟩
      exact (h.buffer id).2 ⟨(hf.node_of_live hid).1, (hclass hid).symm.trans hname⟩
  case declares =>
    intro id
    rw [← h.declares]
    constructor
    · rintro ⟨hid, hname⟩
      exact ⟨(hf.node_of_live hid).1, (hclass hid).symm.trans hname⟩
    · intro hdecl
      obtain ⟨hne, rfl⟩ := (h.declares id).1 hdecl
      have hlive := (hdeclaration hne).2
      exact ⟨hlive, (hclass hlive).trans hdecl.2⟩
  case node =>
    intro hne
    rw [(hf.node_of_live (hdeclaration hne).2).2, Node.mapRefs, (h.node hne).1]
    exact ⟨rfl, (h.node hne).2⟩
  case reads =>
    intro id hid
    obtain ⟨hflags, x, y, hinputs⟩ := h.reads id hid
    rw [(hf.node_of_live (hbuffer hid)).2, Node.mapRefs, hinputs]
    -- the first two inputs may be turned, the declaration stands for itself
    have hself := (hdeclaration (List.ne_nil_of_mem hid)).1
    refine ⟨hflags, x.mapNode (NodeRef.through stand), y.mapNode (NodeRef.through stand), ?_⟩
    simp [Input.mapNode, NodeRef.through, hself]

/-! ## The number of local buffers -/

theorem length_buffers (g : Graph) : g.buffers.length = g.order.countP fun id =>
    (g.node id).isBuffer := by
  have hother : Catalog.localBuf.name ≠ Catalog.maxLocalBufs.name := by decide
  rw [buffers, localBuffers, ofClass, ← List.countP_eq_length_filter, dropDeclarations,
    List.countP_filter]
  refine List.countP_congr fun id _ => ?_
  simp only [Bool.and_eq_true, beq_iff_eq, bne_iff_ne, Node.isBuffer]
  exact ⟨fun h => h.1, fun h => ⟨h, fun hname => hother (h.symm.trans hname)⟩⟩

/-- One local buffer is added for each slot that gets a copy. -/
theorem Split.countP_ids (h : g₁.Split copies g₂) {c : ChainCopy} (hc : c ∈ copies) :
    c.ids.countP (fun id => (g₂.node id).isBuffer) = 1 := by
  have hframes : c.frames.toList.countP (fun id => (g₂.node id).isBuffer) = 0 := by
    refine List.countP_eq_zero.2 fun id hid => ?_
    obtain ⟨input, hnode⟩ := h.frames c hc id (by simpa using hid)
    rw [hnode]
    exact Bool.false_ne_true
  have hbuffer : (g₂.node c.buffer).isBuffer = true := by
    rw [h.buffer c hc]
    rfl
  have hcopy : (g₂.node c.copy).isBuffer = false := by
    rw [h.copy c hc]
    rfl
  rw [ChainCopy.ids, List.countP_append, hframes]
  simp [hbuffer, hcopy]

theorem Split.countP_copies (h : g₁.Split copies g₂) :
    (copies.flatMap ChainCopy.ids).countP (fun id => (g₂.node id).isBuffer) = copies.length := by
  have hone : copies.map (List.countP (fun id => (g₂.node id).isBuffer) ∘ ChainCopy.ids) =
      copies.map fun _ => 1 := List.map_congr_left fun c hc => h.countP_ids hc
  rw [List.countP_flatMap, hone]
  simp

namespace Stages

theorem countP_controls (h : Stages source g₁ g₂ g copies) :
    (List.range' source.nodes.size source.controlGroups.length).countP
      (fun id => (g₂.node id).isBuffer) = 0 := by
  refine List.countP_eq_zero.2 fun id hid => ?_
  obtain ⟨k, hk, rfl⟩ := List.mem_range'.1 hid
  have hlt : source.nodes.size + 1 * k < g₁.nodes.size := by rw [h.controls.size]; omega
  rw [Node.isBuffer, (h.split.alike _ hlt).className, Nat.one_mul,
    h.controls.control k _ (List.getElem?_eq_getElem hk), beq_iff_eq]
  exact (ControlGroup.className_node _).1

theorem isBuffer_generator (h : Stages source g₁ g₂ g copies) {id : Nat}
    (hid : id ∈ source.generators) : (g₂.node id).isBuffer = (source.node id).isBuffer := by
  have hlt₁ := h.closed₁.bound id (h.controls.mem_order.2 (.inr (mem_generators.1 hid)))
  have halike := (h.controls.alike hid).trans (h.split.alike id hlt₁)
  rw [Node.isBuffer, halike.className, Node.isBuffer]

/-- Placeholders are no local buffers, so those of the builder are among its generators. -/
theorem countP_generators (h : Stages source g₁ g₂ g copies) (hs : source.Sourced) :
    source.generators.countP (fun id => (g₂.node id).isBuffer) =
      source.order.countP fun id => (source.node id).isBuffer := by
  rw [generators, List.countP_filter]
  refine List.countP_congr fun id hid => ?_
  cases hp : (source.node id).parameter? with
  | some p =>
    rw [(hs.placeholders id hid p hp).1]
    simp [Node.isBuffer, Builder.placeholder, Catalog.localBuf, Node.isParameter]
  | none =>
    have hkind : (source.node id).isParameter = false := by rw [isParameter_eq, hp]; rfl
    rw [h.isBuffer_generator (mem_generators.2 ⟨hid, hkind⟩), hkind, Bool.not_false, Bool.and_true]

theorem length_buffers (h : Stages source g₁ g₂ g copies) (hs : source.Sourced) :
    g₂.buffers.length =
      source.order.countP (fun id => (source.node id).isBuffer) + copies.length := by
  have horder : g₁.order = List.range' source.nodes.size source.controlGroups.length ++
      source.generators := h.controls.order
  rw [Graph.length_buffers, h.split.order.countP_eq, List.countP_append, horder,
    List.countP_append, h.countP_controls, h.countP_generators hs, h.split.countP_copies,
    Nat.zero_add]

end Stages

end Graph

/-! ## Local buffers in a definition -/

namespace Definition

/-- The number of local buffers. -/
def bufferCount (d : Definition) : Nat := d.ugens.countP Node.isBuffer

/-- The generator at `pos` is the only declaration. It holds the number of local buffers, comes
before all of them and is the third and last input of each. -/
structure Declares (d : Definition) (pos : Nat) : Prop where
  count : ∃ u value, d.ugens[pos]? = some u ∧ u.className = Catalog.maxLocalBufs.name ∧
    u.inputs = [.constant value] ∧ Reading.rational.value value = d.bufferCount
  only : ∀ (other : Nat) (u : Node), d.ugens[other]? = some u →
    u.className = Catalog.maxLocalBufs.name → other = pos
  buffers : ∀ (later : Nat) (u : Node), d.ugens[later]? = some u →
    u.className = Catalog.localBuf.name → pos < later ∧ ∃ x y, u.inputs = [x, y, .node ⟨pos, 0⟩]

end Definition

namespace Graph

variable {source f g : Graph} {buffers : List Nat} {declaration : Nat}

theorem Accounted.bufferCount_finish (h : g.Accounted buffers declaration) (hg : g.Ordered)
    (hnodup : buffers.Nodup) (name : Option String) :
    (g.finish name).bufferCount = buffers.length := by
  have hperm : (g.order.filter fun id => (g.node id).isBuffer).Perm buffers := by
    refine (List.perm_ext_iff_of_nodup (hg.nodup.filter _) hnodup).2 fun id => ?_
    rw [List.mem_filter, h.buffer, Node.isBuffer, beq_iff_eq]
  calc
    (g.finish name).bufferCount = g.emission.countP fun id => (g.node id).isBuffer := by
      rw [Definition.bufferCount]
      exact List.countP_map
    _ = buffers.length := by
      rw [g.emission_perm.countP_eq, List.countP_eq_length_filter, hperm.length_eq]

theorem exists_emission_of_ugens {name : Option String} {pos : Nat} {u : Node}
    (h : (g.finish name).ugens[pos]? = some u) :
    ∃ id, g.emission[pos]? = some id ∧ (g.node id).mapRefs (placed g.emission) = u := by
  have h : g.numbered[pos]? = some u := h
  rwa [getElem?_numbered, Option.map_eq_some_iff] at h

/-- The declaration is before the local buffers because they read it. -/
theorem Accounted.declares_finish (h : g.Accounted buffers declaration) (hg : g.Ordered)
    (hsorted : SortedFrom source f g) (hnodup : buffers.Nodup) (hne : buffers ≠ [])
    (hfew : buffers.length < 2 ^ 24) (name : Option String) :
    (g.finish name).Declares (g.ordinal declaration) := by
  obtain ⟨hlive, hclass⟩ := (h.declares declaration).2 ⟨hne, rfl⟩
  constructor
  case count =>
    refine ⟨_, .ofNat buffers.length, getElem?_ordinal hlive, hclass, ?_, ?_⟩
    · rw [Node.mapRefs, (h.node hne).1]
      rfl
    · rw [h.bufferCount_finish hg hnodup name]
      exact Reading.rational_ofNat (by simpa using hne) hfew
  case only =>
    intro other u hu hname
    obtain ⟨id, hpos, rfl⟩ := exists_emission_of_ugens hu
    obtain ⟨-, rfl⟩ := (h.declares id).1 ⟨mem_order_of_emission hpos, hname⟩
    exact (ordinal_eq hg hpos).symm
  case buffers =>
    intro later u hu hname
    obtain ⟨id, hpos, rfl⟩ := exists_emission_of_ugens hu
    have hid := mem_order_of_emission hpos
    obtain ⟨hflags, x, y, hinputs⟩ := h.reads id ((h.buffer id).2 ⟨hid, hname⟩)
    constructor
    · have hfeeds : f.Feeds declaration id := by
        refine ⟨hsorted.live hid, ⟨declaration, 0⟩, ?_, rfl⟩
        rw [← hsorted.node, Node.mem_refs, hinputs]
        simp
      have hreader : (f.node id).flags.feedbackReader = false := by
        rw [← hsorted.node, hflags]
        rfl
      refine hsorted.place_lt_of_not_control (emission_ordinal hlive) hpos
        (follows_of_feeds (hsorted.live hlive) hfeeds hreader) ?_ ?_
      · rw [(h.node hne).2]
        rfl
      · rw [hflags]
        rfl
    · rw [Node.mapRefs, hinputs]
      exact ⟨_, _, rfl⟩

end Graph

/-! ## Builders -/

theorem Builder.Changes.standard {b b' : Builder}
    (h : b.Changes (fun e => e.name = Catalog.localBuf.name → e = Catalog.localBuf) b')
    (hb : ∀ n ∈ b.nodes, n.Standard) : ∀ n ∈ b'.nodes, n.Standard := by
  refine h.forall_mem hb (fun call values n hcall hlength hnode hclass => ?_) (fun p hclass => ?_)
    fun n inputs hlength hn hclass => ?_
  · have hname : n.className = call.descriptor.name := by
      obtain ⟨slots, -, hslots⟩ := except_bind_eq_ok.1 hnode
      cases hslots
      rfl
    have hbuffer : call.descriptor = Catalog.localBuf := by
      rcases hcall with hmem | hextra
      · exact List.inj_on_of_nodup_map Catalog.nodup_names hmem (by decide +kernel)
          (hname.symm.trans hclass)
      · exact hextra (hname.symm.trans hclass)
    have hdescribed := described_of_node hnode hlength (by rw [hbuffer]; decide)
    rw [hbuffer] at hdescribed
    exact ⟨hdescribed.flags, hdescribed.filled⟩
  · exact absurd hclass (show "Parameter" ≠ Catalog.localBuf.name by decide)
  · rw [hlength]
    exact hn hclass

/-- The local buffers of a builder, and the slots that get a copy of their chain and with it one
more. -/
structure Builder.AllBuffers (b : Builder) (d : Definition) (slots : List Slot) : Prop where
  nodup : slots.Nodup
  rerouted : ∀ slot, slot ∈ slots ↔ (Graph.ofNodes b.nodes).Rerouted slot
  total : d.bufferCount = b.nodes.toList.countP Node.isBuffer + slots.length

/-- If local buffers are registered with their descriptor from the catalog only, all of them are in
the definition, and one for each copy of a chain. If there are any, there is one declaration: it
holds their number, comes before them, and each has it as the last of three inputs. Otherwise there
is none, whatever declarations were registered. -/
theorem build_accounts_buffers {ops : List Operation} {b : Builder} {known : List Outlet}
    (h : History ops b known)
    (hbuffers : ∀ call, .register call ∈ ops → call.descriptor.name = Catalog.localBuf.name →
      call.descriptor = Catalog.localBuf)
    {options : Options} {d : Definition} (hd : b.build options = .ok d)
    (hfew : d.bufferCount < 2 ^ 24) :
    (∃ slots, b.AllBuffers d slots) ∧
      (d.bufferCount = 0 → ∀ u ∈ d.ugens, u.className ≠ Catalog.maxLocalBufs.name) ∧
      (0 < d.bufferCount → ∃ pos, d.Declares pos) := by
  have hcalls : ∀ op ∈ ops, op.Registers
      fun e => e.name = Catalog.localBuf.name → e = Catalog.localBuf := by
    rintro _ hop call rfl
    exact .inr (hbuffers call hop)
  have hstandard := h.invariant hcalls (P := fun b => ∀ n ∈ b.nodes, n.Standard)
    (fun _ n hn => by simp at hn) fun _ _ => Builder.Changes.standard
  have hs := (h.sound hcalls).1.sourced
  obtain ⟨-, g, hg, rfl⟩ := Builder.build_eq_ok.1 hd
  obtain ⟨complete, stand, hf⟩ := hs.exists_folded hg
  obtain ⟨g₁, g₂, copies, hstages⟩ := hs.stages hf.completed
  have hstandard₂ := hstages.standard fun id hid =>
    hstandard _ (Array.mem_of_getElem? (Graph.getElem?_of_mem_ofNodes hid))
  have haccount := (hstages.declared.accounted hstages.closed₂.toOrdered hstandard₂).compiled hf
  have hordered := (hs.resolved_compiled hg).1.wired.toOrdered
  have hnodup : g₂.buffers.Nodup := (hstages.closed₂.nodup.filter _).filter _
  have hcount := haccount.bufferCount_finish hordered hnodup options.effectiveName
  refine ⟨⟨copies.map (·.slot), hstages.nodup_slots, fun slot => hstages.mem_slots hs, ?_⟩, ?_, ?_⟩
  · rw [hcount, hstages.length_buffers hs, List.length_map, Graph.toList_eq_map_node,
      List.countP_map]
    rfl
  · intro hzero u hu hname
    obtain ⟨id, hid, rfl⟩ := Graph.mem_numbered.1 hu
    have hne := ((haccount.declares id).1 ⟨hid, hname⟩).1
    rw [hcount] at hzero
    exact hne (List.eq_nil_of_length_eq_zero hzero)
  · intro hpos
    rw [hcount] at hpos hfew
    obtain ⟨f, hsorted⟩ := hs.sortedFrom hg
    exact ⟨_, haccount.declares_finish hordered hsorted hnodup (List.length_pos_iff.1 hpos) hfew _⟩

/-- A spectrum that two generators transform, a local buffer besides the one of the spectrum, and
two declarations with numbers that are not right. -/
def reservedOperations : List Operation :=
  [.register {
      descriptor := Catalog.maxLocalBufs, rate := .scalar, args := [("maximum", .constant 7)] },
    .register { descriptor := Catalog.whiteNoise, rate := .audio },
    .fft { source := .outlet ⟨0, 1, 0, .audio⟩ },
    .register { descriptor := Catalog.localBuf, rate := .scalar },
    .register {
      descriptor := Catalog.pvMagAbove, rate := .control
      args := [("pv_chain", .outlet ⟨0, 3, 0, .control⟩), ("threshold", .constant 1)] },
    .register {
      descriptor := Catalog.pvBrickWall, rate := .control
      args := [("pv_chain", .outlet ⟨0, 3, 0, .control⟩)] },
    .register { descriptor := Catalog.maxLocalBufs, rate := .scalar }]

def reservedBuilder : Builder := reservedOperations.foldl (fun b op => op.after b) { scope := 0 }

theorem history_reservedBuilder : ∃ known, History reservedOperations reservedBuilder known :=
  ⟨_, history_of_admitted (by decide +kernel)⟩

/-- Three local buffers are declared, the third one for the copy of the spectrum. -/
theorem reservedBuilder_accounted :
    (∃ known, History reservedOperations reservedBuilder known) ∧
    (∀ call, .register call ∈ reservedOperations →
      call.descriptor.name = Catalog.localBuf.name → call.descriptor = Catalog.localBuf) ∧
    ∃ d, reservedBuilder.build { fold := true } = .ok d ∧
      d.ugens.map (·.className) = ["WhiteNoise", "MaxLocalBufs", "LocalBuf", "FFT", "LocalBuf",
        "BufFrames", "LocalBuf", "PV_Copy", "PV_MagAbove", "PV_BrickWall"] ∧
      d.bufferCount = 3 ∧ ∃ pos, d.Declares pos := by
  have hbuffers : ∀ call, .register call ∈ reservedOperations →
      call.descriptor.name = Catalog.localBuf.name → call.descriptor = Catalog.localBuf := by
    intro call hcall hname
    simp only [reservedOperations, List.mem_cons, Operation.register.injEq, reduceCtorEq,
      List.not_mem_nil, or_false, false_or] at hcall
    rcases hcall with rfl | rfl | rfl | rfl | rfl | rfl
    · exact absurd hname (by decide)
    · exact absurd hname (by decide)
    · rfl
    · exact absurd hname (by decide)
    · exact absurd hname (by decide)
    · exact absurd hname (by decide)
  have hbuild : (reservedBuilder.build { fold := true }).toOption.map
      (fun d => (d.ugens.map (·.className), d.bufferCount)) =
      some (["WhiteNoise", "MaxLocalBufs", "LocalBuf", "FFT", "LocalBuf",
        "BufFrames", "LocalBuf", "PV_Copy", "PV_MagAbove", "PV_BrickWall"], 3) := by
    decide +kernel
  obtain ⟨d, hd, hparts⟩ := exists_eq_ok_of_map_toOption hbuild
  obtain ⟨hclasses, hcount⟩ := Prod.mk.inj hparts
  obtain ⟨known, hhistory⟩ := history_reservedBuilder
  refine ⟨⟨known, hhistory⟩, hbuffers, d, hd, hclasses, hcount, ?_⟩
  have hfew : d.bufferCount < 2 ^ 24 := by rw [hcount]; decide
  exact (build_accounts_buffers hhistory hbuffers hd hfew).2.2 (by rw [hcount]; decide)

end SynthGraph
