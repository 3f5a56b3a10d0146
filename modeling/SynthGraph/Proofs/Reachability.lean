import SynthGraph.Proofs.Building
import SynthGraph.Proofs.Compilation

/-!
# Reachable builders

A builder is reachable if it comes from an empty one by operations whose operands are made of
constants, outlets that earlier operations gave out, and outlets of other builders. Every operation
is sound, so reachable builders are well formed, and what they hand to the compiler is `Sourced`.
Other invariants follow from the steps that operations take; names of parameters are never given
twice.
-/

namespace SynthGraph

namespace Build

variable {extra : Descriptor → Prop} {known : List Outlet} {x y z w : Signal}

/-! ## Operators on scalars -/

theorem sound_unaryScalar (op : UnaryOperator) (hx : x.outlets ⊆ known) :
    Sound extra known Signal.outlets (unaryScalar op x) := by
  have hcall : Catalog.unaryOpUGen ∈ Catalog.full := by decide +kernel
  unfold unaryScalar
  split
  · exact .pure (by simp)
  · exact (sound_register _ (.inl hcall)).mono (by simpa [Call.outlets] using hx)

theorem sound_identity? {op : BinaryOperator} {r : Build Signal} (hx : x.outlets ⊆ known)
    (hy : y.outlets ⊆ known) (h : identity? op x y = some r) :
    Sound extra known Signal.outlets r := by
  have hnegx : Sound extra known Signal.outlets (negScalar x) := sound_unaryScalar _ hx
  have hnegy : Sound extra known Signal.outlets (negScalar y) := sound_unaryScalar _ hy
  have hzero : Sound extra known Signal.outlets (return .constant 0) := .pure (by simp)
  have hretx : Sound extra known Signal.outlets (return x) := .pure hx
  have hrety : Sound extra known Signal.outlets (return y) := .pure hy
  unfold identity? at h
  repeat' split at h
  all_goals first
    | (obtain rfl := Option.some.inj h; assumption)
    | cases h

theorem sound_binaryScalar (op : BinaryOperator) (hx : x.outlets ⊆ known)
    (hy : y.outlets ⊆ known) : Sound extra known Signal.outlets (binaryScalar op x y) := by
  have hcall : Catalog.binaryOpUGen ∈ Catalog.full := by decide +kernel
  unfold binaryScalar
  split
  · exact .pure (by simp)
  · split
    · next r hr => exact sound_identity? hx hy hr
    · exact (sound_register _ (.inl hcall)).mono (by simpa [Call.outlets] using ⟨hx, hy⟩)

theorem sound_fuse (hx : x.outlets ⊆ known) (hy : y.outlets ⊆ known) (hz : z.outlets ⊆ known) :
    Sound extra known Signal.outlets (fuse x y z) := by
  have hcall : Catalog.mulAdd ∈ Catalog.full := by decide +kernel
  exact (sound_register _ (.inl hcall)).mono (by simpa [Call.outlets] using ⟨hx, hy, hz⟩)

theorem sound_mulAddScalar (hx : x.outlets ⊆ known) (hy : y.outlets ⊆ known)
    (hz : z.outlets ⊆ known) : Sound extra known Signal.outlets (mulAddScalar x y z) := by
  have hproduct : Sound extra known Signal.outlets (do
      let product ← binaryScalar .multiplication x y
      addScalar product z) :=
    (sound_binaryScalar _ hx hy).bind fun product =>
      sound_binaryScalar _ (by simp) (List.Subset.trans hz (by simp))
  unfold mulAddScalar
  repeat' split
  · exact .pure hz
  · exact .pure hx
  · exact sound_unaryScalar _ hx
  · exact sound_binaryScalar _ hx hy
  · exact sound_binaryScalar _ hz hx
  · exact sound_binaryScalar _ hx hz
  · exact sound_fuse hx hy hz
  · exact sound_fuse hy hx hz
  · exact hproduct

theorem sound_sumOf {descriptor : Descriptor} (hcall : descriptor ∈ Catalog.full)
    (names : List String) {signals : List Signal} (h : ∀ s ∈ signals, s.outlets ⊆ known) :
    Sound extra known Signal.outlets (sumOf descriptor names signals) := by
  refine (sound_register _ (.inl hcall)).mono fun p hp => ?_
  obtain ⟨⟨name, s⟩, hmem, hp⟩ := List.mem_flatMap.1 hp
  exact h s (List.mem_mergeSort.1 (List.of_mem_zip hmem).2) hp

theorem sound_sum3Scalar (hx : x.outlets ⊆ known) (hy : y.outlets ⊆ known)
    (hz : z.outlets ⊆ known) : Sound extra known Signal.outlets (sum3Scalar x y z) := by
  unfold sum3Scalar
  repeat' split
  · exact sound_binaryScalar _ hx hy
  · exact sound_binaryScalar _ hx hz
  · exact sound_binaryScalar _ hy hz
  · exact sound_sumOf (by decide +kernel) _ (by simp [hx, hy, hz])

theorem sound_sum4Scalar (hx : x.outlets ⊆ known) (hy : y.outlets ⊆ known)
    (hz : z.outlets ⊆ known) (hw : w.outlets ⊆ known) :
    Sound extra known Signal.outlets (sum4Scalar x y z w) := by
  unfold sum4Scalar
  repeat' split
  · exact sound_sum3Scalar hy hz hw
  · exact sound_sum3Scalar hx hz hw
  · exact sound_sum3Scalar hx hy hw
  · exact sound_sum3Scalar hx hy hz
  · exact sound_sumOf (by decide +kernel) _ (by simp [hx, hy, hz, hw])

/-! ## Channels and mixes -/

theorem sound_perChannel (ugen : String) {scalar : List Signal → Build Signal}
    (hscalar : ∀ operands : List Signal, (∀ s ∈ operands, s.outlets ⊆ known) →
      Sound extra known Signal.outlets (scalar operands))
    {operands : List Signal} (h : ∀ s ∈ operands, s.outlets ⊆ known) :
    Sound extra known Signal.outlets (perChannel ugen scalar operands) := by
  fun_induction perChannel ugen scalar operands with
  | case1 => exact .throw _
  | case2 operands => exact hscalar operands h
  | case3 operands _ _ ih =>
    refine (Sound.mapM fun i _ => ih i fun s hs => ?_).bind fun results => .pure (by simp)
    obtain ⟨t, ht, rfl⟩ := List.mem_map.1 hs
    exact List.Subset.trans (t.outlets_channel_subset i) (h t ht)

theorem sound_unary (op : UnaryOperator) (hx : x.outlets ⊆ known) :
    Sound extra known Signal.outlets (unary op x) := by
  refine sound_perChannel _ (fun xs hxs => ?_) (by simpa using hx)
  split
  · exact sound_unaryScalar op (hxs _ (by simp))
  · exact .pure hx

theorem sound_binary (op : BinaryOperator) (hx : x.outlets ⊆ known) (hy : y.outlets ⊆ known) :
    Sound extra known Signal.outlets (binary op x y) := by
  refine sound_perChannel _ (fun xs hxs => ?_) (by simp [hx, hy])
  split
  · exact sound_binaryScalar op (hxs _ (by simp)) (hxs _ (by simp))
  · exact .pure hx

theorem sound_mulAdd (hx : x.outlets ⊆ known) (hy : y.outlets ⊆ known) (hz : z.outlets ⊆ known) :
    Sound extra known Signal.outlets (mulAdd x y z) := by
  refine sound_perChannel _ (fun xs hxs => ?_) (by simp [hx, hy, hz])
  split
  · exact sound_mulAddScalar (hxs _ (by simp)) (hxs _ (by simp)) (hxs _ (by simp))
  · exact .pure hx

theorem sound_sum3 (hx : x.outlets ⊆ known) (hy : y.outlets ⊆ known) (hz : z.outlets ⊆ known) :
    Sound extra known Signal.outlets (sum3 x y z) := by
  refine sound_perChannel _ (fun xs hxs => ?_) (by simp [hx, hy, hz])
  split
  · exact sound_sum3Scalar (hxs _ (by simp)) (hxs _ (by simp)) (hxs _ (by simp))
  · exact .pure hx

theorem sound_sum4 (hx : x.outlets ⊆ known) (hy : y.outlets ⊆ known) (hz : z.outlets ⊆ known)
    (hw : w.outlets ⊆ known) : Sound extra known Signal.outlets (sum4 x y z w) := by
  refine sound_perChannel _ (fun xs hxs => ?_) (by simp [hx, hy, hz, hw])
  split
  · exact sound_sum4Scalar (hxs _ (by simp)) (hxs _ (by simp)) (hxs _ (by simp)) (hxs _ (by simp))
  · exact .pure hx

theorem sound_mixRound {signals : List Signal} (h : ∀ s ∈ signals, s.outlets ⊆ known) :
    Sound extra known (·.flatMap Signal.outlets) (mixRound signals) := by
  fun_induction mixRound signals generalizing known with
  | case1 x y z w rest ih =>
    simp only [List.forall_mem_cons] at h
    obtain ⟨hx, hy, hz, hw, hrest⟩ := h
    refine (sound_sum4Scalar hx hy hz hw).bind fun s => ?_
    refine (ih fun t ht => List.Subset.trans (hrest t ht) (by simp)).bind
      fun more => .pure (by simp)
  | case2 x y z =>
    simp only [List.forall_mem_cons] at h
    exact (sound_sum3Scalar h.1 h.2.1 h.2.2.1).bind fun s => .pure (by simp)
  | case3 x y =>
    simp only [List.forall_mem_cons] at h
    exact (sound_binaryScalar _ h.1 h.2.1).bind fun s => .pure (by simp)
  | case4 x => exact .pure (by simpa using h)
  | case5 => exact .pure (by simp)

theorem sound_mixRounds (fuel : Nat) {signals : List Signal}
    (h : ∀ s ∈ signals, s.outlets ⊆ known) :
    Sound extra known Signal.outlets (mixRounds fuel signals) := by
  induction fuel generalizing known signals with
  | zero =>
    refine .pure fun p hp => ?_
    rw [Signal.outlets_collapse] at hp
    obtain ⟨s, hs, hp⟩ := List.mem_flatMap.1 hp
    exact h s hs hp
  | succ fuel ih =>
    unfold mixRounds
    refine (sound_mixRound h).bind fun round => ?_
    split
    · exact .pure (by simp)
    · exact ih fun s hs p hp => List.mem_append_right _ (List.mem_flatMap.2 ⟨s, hs, hp⟩)

theorem sound_mix (hx : x.outlets ⊆ known) : Sound extra known Signal.outlets (mix x) := by
  unfold mix
  split
  · exact .throw _
  · exact sound_mixRounds _ fun leaf hl => List.Subset.trans (Signal.outlets_leaf_subset hl) hx

theorem mem_of_mem_chunks {α : Type} {size : Nat} {list chunk : List α} {a : α}
    (hc : chunk ∈ chunks size list) (ha : a ∈ chunk) : a ∈ list := by
  fun_induction chunks size list with
  | case1 => cases hc
  | case2 list _ ih =>
    rcases List.mem_cons.1 hc with rfl | hc
    · exact List.mem_of_mem_take ha
    · exact List.mem_of_mem_drop (ih hc)

theorem mem_of_mem_columns {α : Type} {rows : List (List α)} {column : List α} {a : α}
    (hc : column ∈ columns rows) (ha : a ∈ column) : ∃ row ∈ rows, a ∈ row := by
  obtain ⟨i, -, rfl⟩ := List.mem_map.1 hc
  obtain ⟨row, hrow, hget⟩ := List.mem_filterMap.1 ha
  exact ⟨row, hrow, List.mem_of_getElem? hget⟩

theorem sound_mixChannels (count : Nat) (hx : x.outlets ⊆ known) :
    Sound extra known Signal.outlets (mixChannels x count) := by
  unfold mixChannels
  split
  · exact .throw _
  · refine (Sound.mapM fun column hcolumn => sound_mix fun p hp => ?_).bind
      fun mixes => .pure (by simp)
    rw [Signal.outlets_vector] at hp
    obtain ⟨leaf, hleaf, hp⟩ := List.mem_flatMap.1 hp
    obtain ⟨chunk, hchunk, hleaf⟩ := mem_of_mem_columns hcolumn hleaf
    exact hx (Signal.outlets_leaf_subset (mem_of_mem_chunks hchunk hleaf) hp)

/-! ## Constructors -/

/-- The call of a bus writer. -/
def outCall (bus source : Signal) : Call where
  descriptor := Catalog.out
  rate := if source.rate = .audio then .audio else .control
  args := [("bus", bus), ("source", source)]

theorem sound_out (hx : x.outlets ⊆ known) (hy : y.outlets ⊆ known) :
    Sound extra known (fun _ => []) (out x y) := by
  have hcall : Catalog.out ∈ Catalog.full := by decide +kernel
  refine ((sound_register _ (.inl hcall)).mono ?_).bind fun _ => .pure (by simp)
  simpa [Call.outlets] using ⟨hx, hy⟩

end Build

namespace FftCall

/-- The signals a transform is given. -/
def operands (call : FftCall) : List Signal :=
  call.bufferId.toList ++ [call.source, call.hop, call.windowType, call.active, call.windowSize]

/-- The call of the buffer that a transform needs if none is given. -/
def bufferCall (call : FftCall) : Call where
  descriptor := Catalog.localBuf
  rate := .scalar
  args := [("frame_count", call.frameCount)]

/-- The call of the transform itself. -/
def transformCall (call : FftCall) (buffer : Signal) : Call where
  descriptor := Catalog.fft
  rate := .control
  args := [("buffer_id", buffer), ("source", call.source), ("hop", call.hop),
    ("window_type", call.windowType), ("active", call.active), ("window_size", call.windowSize)]

theorem outlets_frameCount (call : FftCall) :
    call.frameCount.outlets ⊆ call.windowSize.outlets := by
  unfold frameCount
  split
  · simp
  · exact List.Subset.refl _

end FftCall

theorem Build.sound_fft {extra : Descriptor → Prop} {known : List Outlet} {call : FftCall}
    (h : ∀ s ∈ call.operands, s.outlets ⊆ known) :
    Sound extra known Signal.outlets (Build.fft call) := by
  simp only [FftCall.operands, List.forall_mem_append, List.forall_mem_cons] at h
  obtain ⟨hbuffer, hsource, hhop, htype, hactive, hsize, -⟩ := h
  have htransform : ∀ buffer : Signal, Sound extra (known ++ buffer.outlets) Signal.outlets
      (register (call.transformCall buffer)) := by
    intro buffer
    have hcall : Catalog.fft ∈ Catalog.full := by decide +kernel
    refine (sound_register _ (.inl hcall)).mono ?_
    have hleft : ∀ {s : Signal}, s.outlets ⊆ known → s.outlets ⊆ known ++ buffer.outlets :=
      fun hs => List.Subset.trans hs (List.subset_append_left _ _)
    simpa [Call.outlets, FftCall.transformCall] using
      ⟨hleft hsource, hleft hhop, hleft htype, hleft hactive, hleft hsize⟩
  simp only [Build.fft]
  split
  · next buffer hid => exact (Sound.pure (hbuffer buffer (by simp [hid]))).bind htransform
  · have hcall : Catalog.localBuf ∈ Catalog.full := by decide +kernel
    refine Sound.bind ((sound_register _ (.inl hcall)).mono ?_) htransform
    simpa [Call.outlets] using List.Subset.trans call.outlets_frameCount hsize

/-! ## Histories -/

/-- An operation of the interface of builders. -/
inductive Operation where
  | register (call : Call)
  | addParameter (p : Parameter)
  | parameter (name : String)
  | setInput (id index : Nat) (value : Signal)
  | unary (op : UnaryOperator) (x : Signal)
  | binary (op : BinaryOperator) (x y : Signal)
  | mulAdd (source multiplier addend : Signal)
  | sum3 (x y z : Signal)
  | sum4 (x y z w : Signal)
  | mix (sources : Signal)
  | mixChannels (sources : Signal) (channelCount : Nat)
  | out (bus source : Signal)
  | fft (call : FftCall)

namespace Operation

/-- What the operation does; one without a result gives no channels. -/
def action : Operation → Build Signal
  | register call => Build.register call
  | addParameter p => Build.addParameter p
  | parameter name => Build.parameter name
  | setInput id index value => do
    Build.setInput id index value
    return .vector []
  | unary op x => Build.unary op x
  | binary op x y => Build.binary op x y
  | mulAdd source multiplier addend => Build.mulAdd source multiplier addend
  | sum3 x y z => Build.sum3 x y z
  | sum4 x y z w => Build.sum4 x y z w
  | mix sources => Build.mix sources
  | mixChannels sources channelCount => Build.mixChannels sources channelCount
  | out bus source => do
    Build.out bus source
    return .vector []
  | fft call => Build.fft call

/-- The signals the operation is given. -/
def operands : Operation → List Signal
  | register call => call.args.map (·.2)
  | addParameter _ | parameter _ => []
  | setInput _ _ value => [value]
  | unary _ x => [x]
  | binary _ x y => [x, y]
  | mulAdd x y z | sum3 x y z => [x, y, z]
  | sum4 x y z w => [x, y, z, w]
  | mix x | mixChannels x _ => [x]
  | out bus source => [bus, source]
  | fft call => call.operands

/-- The outlets the operation is given. -/
def outlets (op : Operation) : List Outlet := op.operands.flatMap Signal.outlets

/-- The operation exchanges an input. -/
def rewires : Operation → Bool
  | setInput .. => true
  | _ => false

/-- What the operation itself registers is in the catalog or among `extra`. -/
def Registers (extra : Descriptor → Prop) (op : Operation) : Prop :=
  ∀ call, op = register call → call.descriptor ∈ Catalog.full ∨ extra call.descriptor

theorem registers_true (op : Operation) : op.Registers fun _ => True :=
  fun _ _ => .inr trivial

/-- Everything but the exchange of an input only adds to the builder. -/
theorem sound_action {extra : Descriptor → Prop} {op : Operation} (hop : op.rewires = false)
    (hcall : op.Registers extra) : Build.Sound extra op.outlets Signal.outlets op.action := by
  have hoperand : ∀ s ∈ op.operands, s.outlets ⊆ op.outlets :=
    fun s hs p hp => List.mem_flatMap.2 ⟨s, hs, hp⟩
  cases op with
  | register call =>
    refine (Build.sound_register call (hcall call rfl)).mono ?_
    simp [outlets, operands, Call.outlets, List.flatMap_map]
  | addParameter p => exact Build.sound_addParameter p
  | parameter name => exact Build.sound_parameter name
  | setInput id index value => cases hop
  | unary op x => exact Build.sound_unary op (hoperand x (by simp [operands]))
  | binary op x y =>
    exact Build.sound_binary op (hoperand x (by simp [operands])) (hoperand y (by simp [operands]))
  | mulAdd x y z =>
    exact Build.sound_mulAdd (hoperand x (by simp [operands])) (hoperand y (by simp [operands]))
      (hoperand z (by simp [operands]))
  | sum3 x y z =>
    exact Build.sound_sum3 (hoperand x (by simp [operands])) (hoperand y (by simp [operands]))
      (hoperand z (by simp [operands]))
  | sum4 x y z w =>
    exact Build.sound_sum4 (hoperand x (by simp [operands])) (hoperand y (by simp [operands]))
      (hoperand z (by simp [operands])) (hoperand w (by simp [operands]))
  | mix x => exact Build.sound_mix (hoperand x (by simp [operands]))
  | mixChannels x count => exact Build.sound_mixChannels count (hoperand x (by simp [operands]))
  | out bus source =>
    exact (Build.sound_out (hoperand bus (by simp [operands]))
      (hoperand source (by simp [operands]))).bind fun _ => .pure (by simp)
  | fft call => exact Build.sound_fft hoperand

theorem outcome_action {extra : Descriptor → Prop} {op : Operation} (hcall : op.Registers extra)
    {b : Builder} (hb : b.WellFormed) (hknown : ∀ p ∈ op.outlets, b.Knows p) :
    Build.Outcome (Builder.Changes extra) op.outlets Signal.outlets b (op.action.exec b) := by
  by_cases hop : op.rewires = false
  · have hout := sound_action hop hcall b hb hknown
    exact ⟨Relation.ReflTransGen.mono (fun _ _ => .grows) _ _ hout.steps, hout.extended,
      hout.wellFormed, hout.known, hout.origin⟩
  · cases op with
    | setInput id index value =>
      have hout := Build.outcome_setInput extra hb id index value fun p hp =>
        hknown p (by simpa [outlets, operands] using hp)
      simp only [action]
      rw [Build.exec_bind]
      rcases hexec : (Build.setInput id index value).exec b with ⟨result, b'⟩
      rw [hexec] at hout
      cases result with
      | error fault => exact ⟨hout.steps, hout.extended, hout.wellFormed, nofun, nofun⟩
      | ok _ =>
        refine ⟨hout.steps, hout.extended, hout.wellFormed, fun s hs p hp => ?_,
          fun s hs p hp => ?_⟩
        all_goals
          cases hs
          simp at hp
    | _ => exact absurd rfl hop

/-- The builder after the operation. What it registered stays, also if it failed. -/
def after (op : Operation) (b : Builder) : Builder := (op.action.exec b).2

/-- The outlets the caller gets. -/
def given (op : Operation) (b : Builder) : List Outlet :=
  match (op.action.exec b).1 with
  | .ok s => s.outlets
  | .error _ => []

end Operation

/-- The operations take an empty builder to `b` and have given out the outlets `known`. An operation
may use those and the outlets of other builders, which have other scopes. -/
inductive History : List Operation → Builder → List Outlet → Prop
  | start (scope : Nat) : History [] { scope } []
  | step {ops : List Operation} {b : Builder} {known : List Outlet} (op : Operation)
      (h : History ops b known) (hop : ∀ p ∈ op.outlets, p ∈ known ∨ p.scope ≠ b.scope) :
      History (ops ++ [op]) (op.after b) (known ++ op.given b)

namespace Operation

/-- Every operation uses only outlets that it may use when its turn comes. -/
def admitted : List Operation → Builder → List Outlet → Bool
  | [], _, _ => true
  | op :: ops, b, known =>
    op.outlets.all (fun p => known.contains p || p.scope != b.scope) &&
      admitted ops (op.after b) (known ++ op.given b)

/-- All outlets the caller gets. -/
def givenBy : List Operation → Builder → List Outlet
  | [], _ => []
  | op :: ops, b => op.given b ++ givenBy ops (op.after b)

end Operation

theorem History.append {done ops : List Operation} {b : Builder} {known : List Outlet}
    (h : History done b known) (hops : Operation.admitted ops b known) :
    History (done ++ ops) (ops.foldl (fun b op => op.after b) b)
      (known ++ Operation.givenBy ops b) := by
  induction ops generalizing done b known with
  | nil => simpa [Operation.givenBy] using h
  | cons op ops ih =>
    simp only [Operation.admitted, Bool.and_eq_true, List.all_eq_true, Bool.or_eq_true,
      List.contains_iff_mem, bne_iff_ne] at hops
    simpa [Operation.givenBy] using ih (h.step op hops.1) hops.2

/-- Admitted operations are a history of the builder they lead to. -/
theorem history_of_admitted {ops : List Operation} {scope : Nat}
    (h : Operation.admitted ops { scope } []) :
    History ops (ops.foldl (fun b op => op.after b) { scope })
      (Operation.givenBy ops { scope }) := by
  simpa using (History.start scope).append h

theorem History.sound {extra : Descriptor → Prop} {ops : List Operation} {b : Builder}
    {known : List Outlet} (h : History ops b known) (hcalls : ∀ op ∈ ops, op.Registers extra) :
    b.WellFormed ∧ (∀ p ∈ known, b.Knows p) ∧
      ∃ scope, Relation.ReflTransGen (Builder.Changes extra) { scope } b := by
  induction h with
  | start scope => exact ⟨⟨by simp, by simp⟩, by simp, scope, .refl⟩
  | @step ops b known op _ hop ih =>
    obtain ⟨hcalls, hcall⟩ := List.forall_mem_append.1 hcalls
    obtain ⟨hb, hknown, scope, hsteps⟩ := ih hcalls
    have hout := Operation.outcome_action (hcall op (by simp)) hb fun p hp =>
      (hop p hp).elim (hknown p) fun hs he => absurd he hs
    refine ⟨hout.wellFormed, fun p hp => ?_, scope, hsteps.trans hout.steps⟩
    rcases List.mem_append.1 hp with hp | hp
    · exact hout.extended.knows (hknown p hp)
    · unfold Operation.given at hp
      split at hp
      · next s hs => exact hout.known s hs p hp
      · cases hp

/-- As long as no input is exchanged, the builder only grows. -/
theorem History.grows {ops : List Operation} {b : Builder} {known : List Outlet}
    (h : History ops b known) (hops : ∀ op ∈ ops, op.rewires = false) :
    ∃ scope, Relation.ReflTransGen (Builder.Grows fun _ => True) { scope } b := by
  induction h with
  | start scope => exact ⟨scope, .refl⟩
  | @step ops b known op hhistory hop ih =>
    obtain ⟨hops, hlast⟩ := List.forall_mem_append.1 hops
    obtain ⟨scope, hsteps⟩ := ih hops
    obtain ⟨hb, hknown, -⟩ := hhistory.sound fun op _ => op.registers_true
    have hout := Operation.sound_action (hlast op (by simp)) op.registers_true b hb fun p hp =>
      (hop p hp).elim (hknown p) fun hs he => absurd he hs
    exact ⟨scope, hsteps.trans hout.steps⟩

/-- What holds of empty builders and is kept by every step holds of the builders operations lead
to. -/
theorem History.invariant {extra : Descriptor → Prop} {ops : List Operation} {b : Builder}
    {known : List Outlet} (h : History ops b known) (hcalls : ∀ op ∈ ops, op.Registers extra)
    {P : Builder → Prop} (start : ∀ scope, P { scope })
    (step : ∀ b b', b.Changes extra b' → P b → P b') : P b := by
  obtain ⟨-, -, scope, hsteps⟩ := h.sound hcalls
  clear h
  induction hsteps with
  | refl => exact start scope
  | tail _ hstep ih => exact step _ _ hstep ih

/-- What holds of new nodes and is kept when an input is exchanged holds of all nodes. -/
theorem Builder.Changes.forall_mem {extra : Descriptor → Prop} {b b' : Builder}
    (h : b.Changes extra b') {P : Node → Prop} (hb : ∀ n ∈ b.nodes, P n)
    (generator : ∀ (call : Call) (values : List Signal) (n : Node),
      (call.descriptor ∈ Catalog.full ∨ extra call.descriptor) →
      values.length = call.descriptor.inputs.length → b.node call values = .ok n → P n)
    (parameter : ∀ p, P (placeholder p))
    (exchange : ∀ (n : Node) (inputs : List Input), inputs.length = n.inputs.length → P n →
      P { n with inputs }) : ∀ n ∈ b'.nodes, P n := by
  cases h with
  | grows h =>
    cases h with
    | @register call nodes hcall _ hplan =>
      intro n hn
      rcases Array.mem_append.1 hn with hold | hnew
      · exact hb n hold
      · obtain ⟨values, -, hlength, hnode⟩ := exists_node_of_plan hplan (by simpa using hnew)
        exact generator call values n hcall hlength hnode
    | @parameter p =>
      intro n hn
      rcases Array.mem_append.1 hn with hold | hnew
      · exact hb n hold
      · obtain rfl : n = placeholder p := by simpa using hnew
        exact parameter p
  | rewires hn =>
    intro m hm
    rcases Array.mem_or_eq_of_mem_setIfInBounds (Array.set!_eq_setIfInBounds ▸ hm) with hold | rfl
    · exact hb m hold
    · exact exchange _ _ List.length_set (hb _ (Array.mem_of_getElem? hn))

/-- Some operations lead to the builder. -/
def Builder.Reachable (b : Builder) : Prop := ∃ ops known, History ops b known

theorem reachable_of_admitted {ops : List Operation} {scope : Nat}
    (h : Operation.admitted ops { scope } []) :
    Builder.Reachable (ops.foldl (fun b op => op.after b) { scope }) :=
  ⟨ops, _, history_of_admitted h⟩

theorem Builder.Reachable.wellFormed {b : Builder} (h : b.Reachable) : b.WellFormed := by
  obtain ⟨ops, known, h⟩ := h
  exact (h.sound fun op _ => op.registers_true).1

/-! ## Names of parameters -/

namespace Builder

variable {extra : Descriptor → Prop} {b b' : Builder}

theorem parameters_append (b : Builder) (nodes : List Node) :
    (b.append nodes).parameters = b.parameters ++ nodes.filterMap Node.parameter? := by
  simp [parameters, append]

theorem parameter?_eq_none {name : String} (h : b.parameter? name = none) :
    ∀ p ∈ b.parameters, p.name ≠ name := by
  intro p hp hname
  obtain ⟨n, hn, hparam⟩ := List.mem_filterMap.1 hp
  obtain ⟨i, hi⟩ := List.getElem?_of_mem hn
  have := List.findSome?_eq_none_iff.1 h (n, i) (List.mk_mem_zipIdx_iff_getElem?.2 hi)
  simp [hparam, hname] at this

theorem parameter?_of_plan {call : Call} {nodes : List Node} (h : b.plan call = .ok nodes) :
    ∀ n ∈ nodes, n.parameter? = none := by
  intro n hn
  obtain ⟨values, -, -, hnode⟩ := exists_node_of_plan h hn
  rw [Node.parameter?, role_of_node hnode]

/-- Exchanging a generator for another one leaves the parameters alone. -/
theorem parameters_exchange {id : Nat} {n n' : Node} (hn : b.nodes[id]? = some n)
    (hold : n.parameter? = none) (hnew : n'.parameter? = none) :
    ({ b with nodes := b.nodes.set! id n' } : Builder).parameters = b.parameters := by
  have hmap : (b.nodes.toList.set id n').map Node.parameter? =
      b.nodes.toList.map Node.parameter? := by
    refine List.ext_getElem? fun i => ?_
    rw [List.map_set, hnew, List.getElem?_set]
    split
    · next hi =>
      subst hi
      obtain ⟨hlt, -⟩ := Array.getElem?_eq_some_iff.1 hn
      rw [List.getElem?_map, Array.getElem?_toList, hn, Option.map_some, hold, if_pos (by simpa)]
    · rfl
  have hid : ∀ nodes : List Node,
      nodes.filterMap Node.parameter? = (nodes.map Node.parameter?).filterMap fun p => p := by
    intro nodes
    rw [List.filterMap_map]
    rfl
  simp only [parameters, Array.set!_eq_setIfInBounds, Array.toList_setIfInBounds]
  rw [hid, hmap, ← hid]

theorem Changes.parameters (h : b.Changes extra b') : b'.parameters = b.parameters ∨
    ∃ p, p.name.utf8ByteSize ≤ maxNameSize ∧ (∀ q ∈ b.parameters, q.name ≠ p.name) ∧
      b'.parameters = b.parameters ++ [p] := by
  cases h with
  | grows h =>
    cases h with
    | register _ _ hplan =>
      left
      rw [parameters_append, List.filterMap_eq_nil_iff.2 (parameter?_of_plan hplan),
        List.append_nil]
    | @parameter p _ hname hnew =>
      exact .inr ⟨p, hname, parameter?_eq_none hnew, parameters_append b [placeholder p]⟩
  | rewires hn hkind =>
    have hold := by simpa [Graph.isParameter_eq] using hkind
    exact .inl (parameters_exchange hn hold hold)

/-- No two parameters have one name. -/
theorem Reachable.nodup_names (hb : b.Reachable) : (b.parameters.map (·.name)).Nodup := by
  obtain ⟨ops, known, hhistory⟩ := hb
  refine hhistory.invariant (fun op _ => op.registers_true)
    (P := fun b => (b.parameters.map (·.name)).Nodup) (fun _ => List.nodup_nil)
    fun b b' hstep ih => ?_
  rcases hstep.parameters with hsame | ⟨p, -, hnew, happend⟩
  · rwa [hsame]
  · rw [happend, List.map_append, List.nodup_append]
    refine ⟨ih, by simp, fun name hname other hother heq => ?_⟩
    obtain ⟨q, hq, rfl⟩ := List.mem_map.1 hname
    obtain rfl : other = p.name := by simpa using hother
    exact hnew q hq heq

/-- The names of parameters fit a file. -/
theorem Reachable.size_names_le (hb : b.Reachable) :
    ∀ p ∈ b.parameters, p.name.utf8ByteSize ≤ maxNameSize := by
  obtain ⟨ops, known, hhistory⟩ := hb
  refine hhistory.invariant (fun op _ => op.registers_true)
    (P := fun b => ∀ p ∈ b.parameters, p.name.utf8ByteSize ≤ maxNameSize)
    (fun _ p hp => by cases hp) fun b b' hstep ih => ?_
  rcases hstep.parameters with hsame | ⟨p, hname, -, happend⟩
  · rwa [hsame]
  · rw [happend, List.forall_mem_append]
    exact ⟨ih, by simpa using hname⟩

end Builder

/-! ## What the compiler is given -/

namespace Graph

theorem node_ofNodes {nodes : Array Node} {id : Nat} {n : Node} (h : nodes[id]? = some n) :
    (ofNodes nodes).node id = n :=
  node_of_getElem? h

theorem getElem?_of_mem_ofNodes {nodes : Array Node} {id : Nat} (h : id ∈ (ofNodes nodes).order) :
    nodes[id]? = some ((ofNodes nodes).node id) := by
  have hlt : id < nodes.size := List.mem_range.1 h
  rw [Array.getElem?_eq_getElem hlt, node_ofNodes (Array.getElem?_eq_getElem hlt)]

end Graph

theorem Builder.WellFormed.sourced {b : Builder} (hb : b.WellFormed) :
    (Graph.ofNodes b.nodes).Sourced := by
  have hmem : ∀ {id}, id ∈ (Graph.ofNodes b.nodes).order →
      (Graph.ofNodes b.nodes).node id ∈ b.nodes :=
    fun h => Array.mem_of_getElem? (Graph.getElem?_of_mem_ofNodes h)
  constructor
  case closed =>
    refine ⟨⟨List.nodup_range, fun id hid => List.mem_range.1 hid⟩, fun id hid ref href => ?_⟩
    obtain ⟨n, hn, hlt⟩ := hb.refs _ (hmem hid) ref href
    refine ⟨.inl (List.mem_range.2 (Array.getElem?_eq_some_iff.1 hn).1), ?_⟩
    rwa [Graph.node_ofNodes hn]
  case placeholders => exact fun id hid p hp => hb.placeholder (hmem hid) hp
  case ascending => exact List.pairwise_lt_range
  case roles =>
    intro id hid hkind
    rcases hb.roles _ (hmem hid) with hrole | ⟨p, hp, -⟩
    · exact hrole
    · rw [hp] at hkind
      cases hkind

end SynthGraph
