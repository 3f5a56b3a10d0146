import SynthGraph.Proofs.Attempts
import SynthGraph.Proofs.Reachability

/-!
# Rates that operations choose

An operator runs at the fastest rate of its operands, and a bus writer at audio rate if that is the
rate of its source. Given outlets of the builder and no empty vectors, all goes well with two
exceptions. A multiply-add is fused as soon as one of its factors runs at audio rate, and does not
run if another operand is demand driven. And a bus writer at audio rate does not take channels that
are slower.
-/

namespace SynthGraph

/-! ## Operators on scalars -/

/-- No constant simplifies the multiply-add. -/
structure Unsimplified (multiplier addend : Signal) : Prop where
  factor : ∀ value ∈ [0, 1, -1], multiplier.isConstant value = false
  summand : addend.isConstant 0 = false

/-- The multiply-add is fused because of a factor at audio rate, but has to run at demand rate. -/
structure Clashes (source multiplier addend : Signal) : Prop
    extends Unsimplified multiplier addend where
  audio : source.rate = .audio ∨ multiplier.rate = .audio
  demand : .demand ∈ [source.rate, multiplier.rate, addend.rate]

/-- A multiply-add does not run at demand rate. -/
def demandFault : Fault := .rateMismatch "MulAdd" (.unsupported .demand)

theorem Rate.promote_eq_demand_iff (x y z : Rate) :
    promote [x, y, z] = .demand ↔ .demand ∈ [x, y, z] := by
  cases x <;> cases y <;> cases z <;> decide

theorem Catalog.supports_mulAdd (rate : Rate) : Catalog.mulAdd.supports rate ↔ rate ≠ .demand := by
  cases rate <;> decide

theorem Build.fusable_iff {x y z : Signal} : fusable x y z ↔ x.rate = .audio ∨
    x.rate = .control ∧ y.rate.index ≤ Rate.control.index ∧ z.rate.index ≤ Rate.control.index := by
  unfold fusable
  cases x.rate <;> simp

/-- A multiply-add that is fused and demand driven is fused at audio rate. -/
theorem Build.audio_of_fusable {x y z : Signal} (h : fusable x y z)
    (hdemand : .demand ∈ [x.rate, y.rate, z.rate]) : x.rate = .audio := by
  rcases fusable_iff.1 h with haudio | ⟨hx, hy, hz⟩
  · exact haudio
  · have hslow : ∀ rate : Rate, rate.index ≤ Rate.control.index → rate ≠ .demand := by
      rintro rate hrate rfl
      exact absurd hrate (by decide)
    simp only [List.mem_cons, List.not_mem_nil, or_false] at hdemand
    rcases hdemand with hdemand | hdemand | hdemand
    · rw [hx] at hdemand
      cases hdemand
    · exact absurd hdemand.symm (hslow _ hy)
    · exact absurd hdemand.symm (hslow _ hz)

namespace Request

variable {r r' : Request} {b : Builder} {x y z : Signal} {fault : Fault}

/-- The faults of an operator on outlets of the builder. -/
def Clash : Request → Fault → Prop
  | mulAdd x y z, fault => Clashes x y z ∧ fault = demandFault
  | _, _ => False

/-- All other operators run at every rate. -/
theorem supports_call (h : ∀ x y z, r ≠ mulAdd x y z) :
    r.call.descriptor.supports r.call.rate := by
  have hall : ∀ rate, ∀ d ∈ [Catalog.unaryOpUGen, Catalog.binaryOpUGen, Catalog.sum3, Catalog.sum4],
      d.supports rate := by
    intro rate
    cases rate <;> decide
  cases r with
  | mulAdd x y z => exact absurd rfl (h x y z)
  | _ => exact hall _ _ (by simp [call])

theorem supports_mulAdd : (mulAdd x y z).call.descriptor.supports (mulAdd x y z).call.rate ↔
    .demand ∉ [x.rate, y.rate, z.rate] := by
  show Catalog.mulAdd.supports (.promote [x.rate, y.rate, z.rate]) ↔ _
  rw [Catalog.supports_mulAdd, ne_eq, Rate.promote_eq_demand_iff]

theorem fault_mulAdd (h : .demand ∈ [x.rate, y.rate, z.rate]) :
    Fault.rateMismatch (mulAdd x y z).call.descriptor.name
      (.unsupported (mulAdd x y z).call.rate) = demandFault := by
  have hrate : (mulAdd x y z).call.rate = .demand := (Rate.promote_eq_demand_iff _ _ _).2 h
  rw [hrate]
  rfl

theorem step_of_unsimplified (h : Unsimplified y z) : (mulAdd x y z).step =
    if Build.fusable x y z then .registers (mulAdd x y z)
    else if Build.fusable y x z then .registers (mulAdd y x z)
    else .chains (binary .multiplication x y) (binary .addition · z) := by
  have hzero := h.factor 0 (by simp)
  have hone := h.factor 1 (by simp)
  have hminus := h.factor (-1) (by simp)
  simp only [step, hzero, hone, hminus, h.summand, Bool.false_and, Bool.false_eq_true, if_false]

theorem step_of_clashes (h : Clashes x y z) : (mulAdd x y z).step = .registers (mulAdd x y z) ∨
    (mulAdd x y z).step = .registers (mulAdd y x z) := by
  have hfusable : Build.fusable x y z ∨ Build.fusable y x z :=
    h.audio.imp (fun hx => Build.fusable_iff.2 (.inl hx)) fun hy => Build.fusable_iff.2 (.inl hy)
  rw [step_of_unsimplified h.toUnsimplified]
  by_cases hxy : Build.fusable x y z
  · exact .inl (if_pos hxy)
  · exact .inr ((if_neg hxy).trans (if_pos (hfusable.resolve_left hxy)))

theorem clashes_of_step (h : (mulAdd x y z).step = .registers r')
    (hrate : ¬r'.call.descriptor.supports r'.call.rate) : Clashes x y z ∧
      Fault.rateMismatch r'.call.descriptor.name (.unsupported r'.call.rate) = demandFault := by
  simp only [step] at h
  repeat' split at h
  all_goals cases h
  · next hzero _ _ hsummand hminus hone hfusable =>
    have hdemand := not_not.1 (supports_mulAdd.not.1 hrate)
    have haudio := Build.audio_of_fusable hfusable hdemand
    refine ⟨⟨⟨by simp [hzero, hone, hminus], by simpa using hsummand⟩, .inl haudio, hdemand⟩, ?_⟩
    exact fault_mulAdd hdemand
  · next hzero _ _ hsummand hminus hone _ hfusable =>
    have hdemand := not_not.1 (supports_mulAdd.not.1 hrate)
    have haudio := Build.audio_of_fusable hfusable hdemand
    refine ⟨⟨⟨by simp [hzero, hone, hminus], by simpa using hsummand⟩, .inr haudio, ?_⟩, ?_⟩
    · exact (List.Perm.swap ..).mem_iff.1 hdemand
    · exact fault_mulAdd hdemand

/-- An operator fails if what it registers does not run at the rate. -/
theorem clash_iff : r.Clash fault ↔ ∃ r', r.step = .registers r' ∧
    ¬r'.call.descriptor.supports r'.call.rate ∧
      fault = .rateMismatch r'.call.descriptor.name (.unsupported r'.call.rate) := by
  by_cases hr : ∃ x y z, r = mulAdd x y z
  · obtain ⟨x, y, z, rfl⟩ := hr
    constructor
    · rintro ⟨hclashes, rfl⟩
      have hdemand := hclashes.demand
      rcases step_of_clashes hclashes with hstep | hstep
      · exact ⟨_, hstep, supports_mulAdd.not.2 (not_not.2 hdemand), (fault_mulAdd hdemand).symm⟩
      · have hswapped := (List.Perm.swap ..).mem_iff.1 hdemand
        exact ⟨_, hstep, supports_mulAdd.not.2 (not_not.2 hswapped), (fault_mulAdd hswapped).symm⟩
    · rintro ⟨r', hstep, hrate, rfl⟩
      exact clashes_of_step hstep hrate
  · have hother : ∀ x y z, r ≠ mulAdd x y z := fun x y z heq => hr ⟨x, y, z, heq⟩
    constructor
    · intro hclash
      cases r with
      | mulAdd x y z => exact absurd rfl (hother x y z)
      | _ => cases hclash
    · rintro ⟨r', hstep, hrate, -⟩
      rcases eq_of_registers hstep with rfl | ⟨x, y, z, heq, -⟩
      · exact absurd (supports_call hother) hrate
      · exact absurd heq (hother x y z)

/-- What an operator asks is no multiply-add, so it does not clash. -/
theorem not_clash_of_rank_lt (h : r'.rank < r.rank) : ¬r'.Clash fault := by
  have hle : r.rank ≤ 4 := by cases r <;> simp [rank]
  intro hclash
  cases r' with
  | mulAdd x y z => exact Nat.not_lt_of_le hle h
  | _ => cases hclash

/-- An operator on constants and outlets of the builder fails for a clash of rates or not at all. -/
theorem attempts (r : Request) (hoperands : ∀ s ∈ r.operands, b.Wires s) :
    Build.Attempts r.Clash (fun s b' => b'.Wires s) r.action b := by
  induction r using Request.induction generalizing b with
  | h r hasks hchains =>
    have hwithin := r.within_step
    have hnone : (∀ r', r.step ≠ .registers r') → ∀ fault, ¬r.Clash fault := by
      intro hstep fault hclash
      obtain ⟨r', hr', -⟩ := clash_iff.1 hclash
      exact hstep r' hr'
    rw [← r.action_step]
    cases hstep : r.step with
    | folds value => exact .pure (hnone (by simp [hstep])) trivial
    | gives s =>
      rw [hstep] at hwithin
      refine .pure (hnone (by simp [hstep])) ?_
      rcases hwithin with hs | ⟨value, rfl⟩
      · exact hoperands s hs
      · trivial
    | asks r' =>
      rw [hstep] at hwithin
      have hattempts := hasks r' hstep (b := b) fun s hs => hoperands s (hwithin.2 hs)
      refine hattempts.congr fun fault => ?_
      exact iff_of_false (not_clash_of_rank_lt hwithin.1) (hnone (by simp [hstep]) fault)
    | registers r' =>
      rw [hstep] at hwithin
      have hwires : ∀ s ∈ r'.operands, b.Wires s := fun s hs => hoperands s (hwithin hs)
      by_cases hrate : r'.call.descriptor.supports r'.call.rate
      · have hplan : b.plan r'.call = .ok [r'.node] :=
          (plan_call_iff fun s hs => (hwires s hs).isVector).2 ⟨hrate, hwires, rfl⟩
        refine .of_ok (exec_register_call hplan) (fun fault hclash => ?_) (b.extends_append _) ?_
        · obtain ⟨r'', hstep', hrate', -⟩ := clash_iff.1 hclash
          cases hstep.symm.trans hstep'
          exact hrate' hrate
        · exact ⟨rfl, by simp [nextOutlet, Builder.append]⟩
      · have hexec : (Build.register r'.call).exec b = (.error (.rateMismatch
            r'.call.descriptor.name (.unsupported r'.call.rate)), b) := by
          rw [Build.exec_register, plan_call_unsupported hrate]
        exact .of_error hexec (clash_iff.2 ⟨r', hstep, hrate, rfl⟩)
    | chains first rest =>
      rw [hstep] at hwithin
      obtain ⟨hfirst, hrest⟩ := hchains first rest hstep
      refine Build.Attempts.congr (P := fun fault => first.Clash fault ∨ False) ?_ fun fault => ?_
      · refine (hfirst fun s hs => hoperands s (hwithin.1.2 hs)).bind fun s b' hext hs => ?_
        refine (hrest s fun t ht => ?_).congr fun fault => ?_
        · rcases List.mem_cons.1 ((hwithin.2 s).2 ht) with rfl | ht
          · exact hs
          · exact (hoperands t ht).mono hext
        · exact iff_of_false (not_clash_of_rank_lt (hwithin.2 s).1) id
      · rw [or_false]
        exact iff_of_false (not_clash_of_rank_lt hwithin.1.1) (hnone (by simp [hstep]) fault)

end Request

/-! ## Channels and mixes -/

/-- The operands on which an operator works channel by channel. -/
inductive Operands.Visits : List Signal → List Signal → Prop
  | here {operands : List Signal} (h : width operands = 0) : Visits operands operands
  | channel {operands tuple : List Signal} {i : Nat} (hi : i < width operands)
      (h : Visits (channel operands i) tuple) : Visits operands tuple

theorem Operands.width_le {operands : List Signal} {s : Signal} (hs : s ∈ operands) :
    s.width ≤ width operands :=
  le_foldr_max hs

namespace Build

variable {b : Builder}

theorem attempts_perChannel {P : List Signal → Fault → Prop} (ugen : String)
    {scalar : List Signal → Build Signal}
    (hscalar : ∀ tuple b, (∀ s ∈ tuple, b.Wires s) →
      Attempts (P tuple) (fun _ _ => True) (scalar tuple) b)
    {operands : List Signal} (hfilled : ∀ s ∈ operands, s.Filled)
    (howns : ∀ s ∈ operands, b.Owns s) :
    Attempts (fun fault => ∃ tuple, Operands.Visits operands tuple ∧ P tuple fault)
      (fun _ _ => True) (perChannel ugen scalar operands) b := by
  fun_induction perChannel ugen scalar operands generalizing b with
  | case1 operands hany =>
    obtain ⟨s, hs, hempty⟩ := List.any_eq_true.1 hany
    rw [(hfilled s hs).not_isEmptyVector] at hempty
    cases hempty
  | case2 operands _ hwidth =>
    have hwires : ∀ s ∈ operands, b.Wires s := fun s hs =>
      (howns s hs).wires ((hfilled s hs).isVector_of_width
        (Nat.eq_zero_of_le_zero (hwidth ▸ Operands.width_le hs)))
    refine (hscalar operands b hwires).congr fun fault => ?_
    constructor
    · exact fun hfault => ⟨operands, .here hwidth, hfault⟩
    · rintro ⟨tuple, hvisits, hfault⟩
      cases hvisits with
      | here => exact hfault
      | channel hi => omega
  | case3 operands _ hwidth ih =>
    refine (Attempts.congr (Attempts.mapM fun i hi b' hext => ih i ?_ ?_) fun fault => ?_).map
      fun _ _ _ => trivial
    · intro s hs
      obtain ⟨t, ht, rfl⟩ := List.mem_map.1 hs
      exact (hfilled t ht).channel i
    · intro s hs
      obtain ⟨t, ht, rfl⟩ := List.mem_map.1 hs
      exact ((howns t ht).of_subset (t.outlets_channel_subset i)).mono hext
    · constructor
      · rintro ⟨i, hi, tuple, hvisits, hfault⟩
        exact ⟨tuple, .channel (List.mem_range.1 hi) hvisits, hfault⟩
      · rintro ⟨tuple, hvisits, hfault⟩
        cases hvisits with
        | here hzero => exact absurd hzero hwidth
        | @channel _ _ i hi hvisits =>
          exact ⟨i, List.mem_range.2 hi, tuple, hvisits, hfault⟩

/-- An operator that is no multiply-add succeeds. -/
theorem attempts_plain {r : Request} (h : ∀ x y z, r ≠ .mulAdd x y z)
    (hoperands : ∀ s ∈ r.operands, b.Wires s) :
    Attempts (fun _ => False) (fun s b' => b'.Wires s) r.action b := by
  refine (r.attempts hoperands).congr fun fault => iff_of_false (fun hclash => ?_) id
  cases r with
  | mulAdd x y z => exact h x y z rfl
  | _ => cases hclash

/-- Where no channel fails, nothing does. -/
theorem attempts_channels (ugen : String) {scalar : List Signal → Build Signal}
    (hscalar : ∀ tuple b, (∀ s ∈ tuple, b.Wires s) →
      Attempts (fun _ => False) (fun _ _ => True) (scalar tuple) b)
    {operands : List Signal} (h : ∀ s ∈ operands, s.Filled ∧ b.Owns s) :
    Attempts (fun _ => False) (fun _ _ => True) (perChannel ugen scalar operands) b :=
  (attempts_perChannel ugen hscalar (fun s hs => (h s hs).1) fun s hs => (h s hs).2).congr
    (by simp)

theorem attempts_unary (op : UnaryOperator) {x : Signal} (h : ∀ s ∈ [x], s.Filled ∧ b.Owns s) :
    Attempts (fun _ => False) (fun _ _ => True) (unary op x) b := by
  refine attempts_channels _ (fun tuple b hwires => ?_) h
  split
  · next x => exact (attempts_plain (r := .unary op x) (by simp) hwires).weaken
  · exact .pure (by simp) trivial

theorem attempts_binary (op : BinaryOperator) {x y : Signal}
    (h : ∀ s ∈ [x, y], s.Filled ∧ b.Owns s) :
    Attempts (fun _ => False) (fun _ _ => True) (binary op x y) b := by
  refine attempts_channels _ (fun tuple b hwires => ?_) h
  split
  · next x y => exact (attempts_plain (r := .binary op x y) (by simp) hwires).weaken
  · exact .pure (by simp) trivial

theorem attempts_sum3 {x y z : Signal} (h : ∀ s ∈ [x, y, z], s.Filled ∧ b.Owns s) :
    Attempts (fun _ => False) (fun _ _ => True) (sum3 x y z) b := by
  refine attempts_channels _ (fun tuple b hwires => ?_) h
  split
  · next x y z => exact (attempts_plain (r := .sum3 x y z) (by simp) hwires).weaken
  · exact .pure (by simp) trivial

theorem attempts_sum4 {x y z w : Signal} (h : ∀ s ∈ [x, y, z, w], s.Filled ∧ b.Owns s) :
    Attempts (fun _ => False) (fun _ _ => True) (sum4 x y z w) b := by
  refine attempts_channels _ (fun tuple b hwires => ?_) h
  split
  · next x y z w => exact (attempts_plain (r := .sum4 x y z w) (by simp) hwires).weaken
  · exact .pure (by simp) trivial

/-- A multiply-add that cannot run at its rate becomes a product and a sum, if no factor runs at
audio rate. -/
theorem mulAdd_falls_back {x y z : Signal} (hscalar : ∀ s ∈ [x, y, z], s.isVector = false)
    (hplain : Unsimplified y z)
    (hrate : ¬Catalog.mulAdd.supports (.promote [x.rate, y.rate, z.rate]))
    (hclash : ¬Clashes x y z) :
    mulAdd x y z = binaryScalar .multiplication x y >>= (addScalar · z) := by
  have hdemand := not_not.1 (Request.supports_mulAdd.not.1 hrate)
  have hfirst : ¬fusable x y z := fun hfusable =>
    hclash ⟨hplain, .inl (audio_of_fusable hfusable hdemand), hdemand⟩
  have hsecond : ¬fusable y x z := fun hfusable =>
    hclash ⟨hplain, .inr (audio_of_fusable hfusable ((List.Perm.swap ..).mem_iff.1 hdemand)),
      hdemand⟩
  have hstep := (Request.mulAdd x y z).action_step
  rw [Request.step_of_unsimplified hplain, if_neg hfirst, if_neg hsecond] at hstep
  rw [mulAdd, perChannel_scalars _ _ hscalar]
  exact hstep.symm

/-- The factors and the addend of one channel clash. -/
def MulAddClash (x y z : Signal) (fault : Fault) : Prop :=
  fault = demandFault ∧ ∃ x' y' z', Operands.Visits [x, y, z] [x', y', z'] ∧ Clashes x' y' z'

theorem attempts_mulAdd {x y z : Signal} (h : ∀ s ∈ [x, y, z], s.Filled ∧ b.Owns s) :
    Attempts (MulAddClash x y z) (fun _ _ => True) (mulAdd x y z) b := by
  have hchannels : Attempts (fun fault => ∃ tuple, Operands.Visits [x, y, z] tuple ∧
      ∃ x' y' z', tuple = [x', y', z'] ∧ (Request.mulAdd x' y' z').Clash fault)
      (fun _ _ => True) (mulAdd x y z) b := by
    refine attempts_perChannel _ (fun tuple b hwires => ?_) (fun s hs => (h s hs).1)
      fun s hs => (h s hs).2
    split
    · next x y z =>
      refine ((Request.mulAdd x y z).attempts hwires).weaken.congr fun fault => ?_
      constructor
      · exact fun hclash => ⟨x, y, z, rfl, hclash⟩
      · rintro ⟨x', y', z', heq, hclash⟩
        cases heq
        exact hclash
    · next hlength =>
      refine .pure (fun fault => ?_) trivial
      rintro ⟨x', y', z', rfl, -⟩
      exact hlength x' y' z' rfl
  refine hchannels.congr fun fault => ?_
  constructor
  · rintro ⟨_, hvisits, x', y', z', rfl, hclashes, rfl⟩
    exact ⟨rfl, x', y', z', hvisits, hclashes⟩
  · rintro ⟨rfl, x', y', z', hvisits, hclashes⟩
    exact ⟨_, hvisits, x', y', z', rfl, hclashes, rfl⟩

theorem attempts_mixRound {signals : List Signal} (h : ∀ s ∈ signals, b.Wires s) :
    Attempts (fun _ => False) (fun sums b' => ∀ s ∈ sums, b'.Wires s) (mixRound signals) b := by
  have hone : ∀ {b : Builder} {x : Build Signal},
      Attempts (fun _ => False) (fun s b' => b'.Wires s) x b →
        Attempts (fun _ => False) (fun sums b' => ∀ s ∈ sums, b'.Wires s)
          (x >>= fun s => Pure.pure [s]) b :=
    fun hx => hx.map fun s b' hs => by simpa using hs
  fun_induction mixRound signals generalizing b with
  | case1 x y z w rest ih =>
    have hfour : ∀ s ∈ (Request.sum4 x y z w).operands, b.Wires s := fun s hs =>
      h s (List.mem_append_left rest hs)
    refine (attempts_plain (r := .sum4 x y z w) (by simp) hfour).seq fun s b' hext hs => ?_
    have hrest : ∀ t ∈ rest, b'.Wires t := fun t ht =>
      (h t (List.mem_append_right [x, y, z, w] ht)).mono hext
    refine (ih hrest).seq fun sums b'' hext' hsums => .pure (by simp) ?_
    exact List.forall_mem_cons.2 ⟨hs.mono hext', hsums⟩
  | case2 x y z => exact hone (attempts_plain (r := .sum3 x y z) (by simp) h)
  | case3 x y => exact hone (attempts_plain (r := .binary .addition x y) (by simp) h)
  | case4 x => exact .pure (by simp) h
  | case5 => exact .pure (by simp) h

theorem attempts_mixRounds {signals : List Signal} (h : ∀ s ∈ signals, b.Wires s) (fuel : Nat) :
    Attempts (fun _ => False) (fun _ _ => True) (mixRounds fuel signals) b := by
  induction fuel generalizing signals b with
  | zero => exact .pure (by simp) trivial
  | succ fuel ih =>
    unfold mixRounds
    refine (attempts_mixRound h).seq fun sums b' _ hsums => ?_
    split
    · exact .pure (by simp) trivial
    · exact ih hsums

theorem attempts_mix {sources : Signal} (hfilled : sources.Filled) (howns : b.Owns sources) :
    Attempts (fun _ => False) (fun _ _ => True) (mix sources) b := by
  have hleaves : ∀ s ∈ sources.leaves, b.Wires s := fun s hs =>
    (howns.of_subset (Signal.outlets_leaf_subset hs)).wires (sources.not_isVector_of_mem_leaves hs)
  unfold mix
  rw [if_neg (by simpa using hfilled.leaves_ne_nil)]
  exact attempts_mixRounds hleaves _

end Build

/-! ## Bus writers -/

namespace Build

variable {b : Builder} {bus source : Signal}

/-- A bus writer at audio rate is given a slower channel. -/
def OutClash (source : Signal) (fault : Fault) : Prop :=
  source.rate = .audio ∧ ∃ p ∈ source.outlets, p.rate ≠ .audio ∧
    fault = .rateMismatch "Out" (.input "source" p.rate .audio)

def outArguments (bus source : Signal) : List Argument :=
  [⟨"bus", bus, false⟩, ⟨"source", source, true⟩]

theorem arguments_outCall (bus source : Signal) :
    (outCall bus source).arguments = .ok (outArguments bus source) := by
  unfold outCall
  split <;> rfl

/-- What a bus writer is given for its bus and for its channels. -/
theorem values_of_mem_expand {calls : List (List Signal)} {values : List Signal}
    (hcalls : Expansion.expand "Out" (outArguments bus source) = .ok calls)
    (hvalues : values ∈ calls) : ∃ v w, values = [v, w] ∧ v.isVector = false ∧
      v.outlets ⊆ bus.outlets ∧ w.outlets ⊆ source.outlets := by
  have htakes := Expansion.takes_of_expand hcalls values hvalues
  rcases htakes with _ | ⟨hv, _ | ⟨hw, _ | _⟩⟩
  exact ⟨_, _, rfl, hv.not_isVector rfl, hv.outlets_subset, hw.outlets_subset⟩

theorem rate_outCall : (outCall bus source).rate = .audio ↔ source.rate = .audio := by
  unfold outCall
  simp

/-- The call clashes exactly if one of its channels is slower than the writer. -/
theorem valuesClash_outCall {v w : Signal} {fault : Fault} :
    Builder.ValuesClash (outCall bus source) [v, w] fault ↔
      source.rate = .audio ∧ ∃ p ∈ w.outlets, p.rate ≠ .audio ∧
        fault = .rateMismatch "Out" (.input "source" p.rate .audio) := by
  have hallows : ∀ p : Outlet, RateCheck.allows .audioWhenAudio (outCall bus source).rate p.rate =
      false ↔ source.rate = .audio ∧ p.rate ≠ .audio := by
    intro p
    simp [RateCheck.allows, rate_outCall]
  have helements : ∀ p : Outlet, p ∈ w.outlets ↔ ∃ e ∈ InputDecl.elements { required "source" with
      variadic := true, check := .audioWhenAudio } w, e.2 = .outlet p := by
    intro p
    rw [← List.mem_map, InputDecl.map_snd_elements, Signal.mem_outlets_iff]
    rfl
  constructor
  · rintro ⟨dv, hdv, e, he, p, hp, hclash, rfl⟩
    rcases List.mem_cons.1 hdv with rfl | hdv
    · cases hclash
    · obtain rfl := List.mem_singleton.1 hdv
      obtain ⟨haudio, hslow⟩ := (hallows p).1 hclash
      refine ⟨haudio, p, (helements p).2 ⟨e, he, hp⟩, hslow, ?_⟩
      rw [rate_outCall.2 haudio]
      rfl
  · rintro ⟨haudio, p, hp, hslow, rfl⟩
    obtain ⟨e, he, hep⟩ := (helements p).1 hp
    refine ⟨_, List.mem_cons_of_mem _ List.mem_cons_self, e, he, p, hep,
      (hallows p).2 ⟨haudio, hslow⟩, ?_⟩
    rw [rate_outCall.2 haudio]
    rfl

theorem attempts_out (hbus : bus.Filled) (hsource : source.Filled) (hownsBus : b.Owns bus)
    (hownsSource : b.Owns source) :
    Attempts (OutClash source) (fun _ _ => True) (out bus source) b := by
  have hfilled : ∀ a ∈ outArguments bus source, a.value.Filled := by
    simp [outArguments, hbus, hsource]
  obtain ⟨calls, hcalls⟩ := Expansion.exists_expand "Out" hfilled
  have hwires : ∀ values ∈ calls, ∀ dv ∈ Catalog.out.inputs.zip values,
      ∀ e ∈ dv.1.elements dv.2, b.Wires e.2 := by
    intro values hvalues dv hdv e he
    obtain ⟨v, w, rfl, hscalar, hv, hw⟩ := values_of_mem_expand hcalls hvalues
    have hmem := List.mem_map_of_mem (f := Prod.snd) he
    rw [InputDecl.map_snd_elements] at hmem
    rcases List.mem_cons.1 hdv with rfl | hdv
    · obtain heq : e.2 = v := List.mem_singleton.1 hmem
      rw [heq]
      exact (hownsBus.of_subset hv).wires hscalar
    · obtain rfl := List.mem_singleton.1 hdv
      have hleaf : e.2 ∈ w.leaves := hmem
      have howns := (hownsSource.of_subset hw).of_subset (Signal.outlets_leaf_subset hleaf)
      exact howns.wires (w.not_isVector_of_mem_leaves hleaf)
  have hplan := Builder.failsFor_plan (arguments_outCall bus source) hcalls hwires
  have hout : Attempts _ (fun _ _ => True) (out bus source) b :=
    (attempts_register hplan).map fun _ _ _ => trivial
  refine hout.congr fun fault => ?_
  constructor
  · rintro ⟨values, hvalues, hclash⟩
    obtain ⟨v, w, rfl, -, -, hw⟩ := values_of_mem_expand hcalls hvalues
    obtain ⟨haudio, p, hp, hrest⟩ := valuesClash_outCall.1 hclash
    exact ⟨haudio, p, hw hp, hrest⟩
  · rintro ⟨haudio, p, hp, hrest⟩
    obtain ⟨values, hvalues, w, hw, hpw⟩ :=
      Expansion.exists_taken hcalls (k := 1) rfl (Signal.mem_outlets_iff.1 hp)
    obtain ⟨v, w', rfl, -⟩ := values_of_mem_expand hcalls hvalues
    cases hw
    exact ⟨_, hvalues, valuesClash_outCall.2 ⟨haudio, p, Signal.mem_outlets_iff.2 hpw, hrest⟩⟩

end Build

namespace Operation

/-- The operation decides itself at which rate it runs. -/
def choosesRate : Operation → Bool
  | unary .. | binary .. | mulAdd .. | sum3 .. | sum4 .. | mix .. | out .. => true
  | _ => false

/-- The faults of an operation on outlets of the builder. -/
def Clash : Operation → Fault → Prop
  | mulAdd x y z, fault => Build.MulAddClash x y z fault
  | out _ source, fault => Build.OutClash source fault
  | _, _ => False

theorem attempts {op : Operation} (hop : op.choosesRate) {b : Builder}
    (hoperands : ∀ s ∈ op.operands, s.Filled ∧ b.Owns s) :
    Build.Attempts op.Clash (fun _ _ => True) op.action b := by
  cases op with
  | unary op x => exact Build.attempts_unary op hoperands
  | binary op x y => exact Build.attempts_binary op hoperands
  | mulAdd x y z => exact Build.attempts_mulAdd hoperands
  | sum3 x y z => exact Build.attempts_sum3 hoperands
  | sum4 x y z w => exact Build.attempts_sum4 hoperands
  | mix sources =>
    obtain ⟨hfilled, howns⟩ := hoperands sources List.mem_cons_self
    exact Build.attempts_mix hfilled howns
  | out bus source =>
    obtain ⟨hbus, hownsBus⟩ := hoperands bus List.mem_cons_self
    obtain ⟨hsource, hownsSource⟩ := hoperands source (by simp [operands])
    exact (Build.attempts_out hbus hsource hownsBus hownsSource).map fun _ _ _ => trivial
  | _ => cases hop

end Operation

theorem Operation.exists_fault {op : Operation} (hop : op.choosesRate) {b : Builder}
    (hoperands : ∀ s ∈ op.operands, s.Filled ∧ b.Owns s) {fault : Fault} (hclash : op.Clash fault) :
    ∃ fault b', op.action.exec b = (.error fault, b') ∧ op.Clash fault :=
  (attempts hop hoperands).error_or_ok.resolve_right fun hok => hok.2 fault hclash

/-- On constants and outlets of the builder, in vectors that are not empty, an operation that
chooses its rate fails exactly if rates clash: a fused multiply-add is demand driven, or a bus
writer at audio rate has a slower channel. Nothing else fails, and a multiply-add that cannot run at
its rate becomes a product and a sum. -/
theorem fails_exactly_on_clash {op : Operation} (hop : op.choosesRate) {b : Builder}
    (hoperands : ∀ s ∈ op.operands, s.Filled ∧ b.Owns s) :
    (∃ fault b', op.action.exec b = (.error fault, b') ∧ op.Clash fault) ∨
      (∃ s b', op.action.exec b = (.ok s, b')) ∧ (∀ fault, ¬op.Clash fault) ∧
        ∀ x y z, op = .mulAdd x y z → (∀ s ∈ [x, y, z], s.isVector = false) →
          Unsimplified y z → ¬Catalog.mulAdd.supports (.promote [x.rate, y.rate, z.rate]) →
          op.action = Build.binaryScalar .multiplication x y >>= (Build.addScalar · z) := by
  refine (Operation.attempts hop hoperands).error_or_ok.imp_right fun ⟨hok, hnone⟩ => ?_
  refine ⟨hok, hnone, ?_⟩
  rintro x y z rfl hscalar hplain hrate
  refine Build.mulAdd_falls_back hscalar hplain hrate fun hclash => hnone demandFault ⟨rfl, ?_⟩
  exact ⟨x, y, z, .here (Operands.width_scalars hscalar), hclash⟩

def dripDescriptor : Descriptor where
  name := "Drip"
  description := "Demand-driven values"
  category := .control
  inputs := []
  rates := [.demand]

/-- A builder with a noise at audio rate, one at control rate and a demand-driven source. -/
def dripBuilder : Builder :=
  [Operation.register { descriptor := Catalog.whiteNoise, rate := .audio },
    .register { descriptor := Catalog.whiteNoise, rate := .control },
    .register { descriptor := dripDescriptor, rate := .demand }].foldl
      (fun b op => op.after b) { scope := 0 }

/-- The sources at control rate are multiplied on demand. -/
def dripMulAdd : Operation :=
  .mulAdd (.outlet ⟨0, 1, 0, .control⟩) (.outlet ⟨0, 2, 0, .demand⟩) (.outlet ⟨0, 1, 0, .control⟩)

/-- The multiply-add does not run on demand, but a product and a sum do. -/
theorem dripMulAdd_falls_back :
    (∀ s ∈ dripMulAdd.operands, s.Filled ∧ dripBuilder.Owns s) ∧
      (∃ s b', dripMulAdd.action.exec dripBuilder = (.ok s, b')) ∧
      dripMulAdd.action = Build.binaryScalar .multiplication (.outlet ⟨0, 1, 0, .control⟩)
        (.outlet ⟨0, 2, 0, .demand⟩) >>= (Build.addScalar · (.outlet ⟨0, 1, 0, .control⟩)) := by
  have hscalar : ∀ s ∈ dripMulAdd.operands, s.isVector = false := by decide
  have howns : ∀ s ∈ dripMulAdd.operands, dripBuilder.Owns s := by
    unfold Builder.Owns
    decide +kernel
  have hoperands : ∀ s ∈ dripMulAdd.operands, s.Filled ∧ dripBuilder.Owns s :=
    fun s hs => ⟨.of_scalar (hscalar s hs), howns s hs⟩
  have hnone : ∀ fault, ¬dripMulAdd.Clash fault := by
    rintro fault ⟨-, x, y, z, hvisits, hclashes⟩
    cases hvisits with
    | here => exact absurd hclashes.audio (by decide)
    | channel hi => cases hi
  rcases fails_exactly_on_clash (show dripMulAdd.choosesRate from rfl) hoperands with
    ⟨fault, -, -, hclash⟩ | ⟨hok, -, hfallback⟩
  · exact absurd hclash (hnone fault)
  · refine ⟨hoperands, hok, hfallback _ _ _ rfl hscalar ⟨?_, rfl⟩ (by decide)⟩
    exact fun value _ => rfl

/-- A multiply-add of two channels. The first becomes a product and a sum, the second is fused. -/
def dripMulAdds : Operation :=
  .mulAdd (.vector [.outlet ⟨0, 1, 0, .control⟩, .outlet ⟨0, 0, 0, .audio⟩]) (.constant 0.5)
    (.outlet ⟨0, 2, 0, .demand⟩)

/-- A bus writer that is given a fast channel and a slow one. -/
def dripOut : Operation :=
  .out (.constant 0) (.vector [.outlet ⟨0, 0, 0, .audio⟩, .outlet ⟨0, 1, 0, .control⟩])

/-- Both choose a rate at which they cannot run. -/
theorem dripBuilder_clashes :
    (∃ b', dripMulAdds.action.exec dripBuilder =
      (.error (.rateMismatch "MulAdd" (.unsupported .demand)), b')) ∧
    ∃ b', dripOut.action.exec dripBuilder =
      (.error (.rateMismatch "Out" (.input "source" .control .audio)), b') := by
  have howns : ∀ op ∈ [dripMulAdds, dripOut], ∀ s ∈ op.operands, dripBuilder.Owns s := by
    unfold Builder.Owns
    decide +kernel
  constructor
  · have hfilled : ∀ s ∈ dripMulAdds.operands, s.Filled := by
      refine List.forall_mem_cons.2 ⟨.flat (by simp) (by decide), fun s hs => .of_scalar ?_⟩
      revert s
      decide
    have hclash : dripMulAdds.Clash demandFault := by
      refine ⟨rfl, _, _, _, .channel (i := 1) (by decide) (.here (by decide)), ⟨?_, rfl⟩, ?_, ?_⟩
      · decide +kernel
      · exact .inl rfl
      · decide
    have hoperands : ∀ s ∈ dripMulAdds.operands, s.Filled ∧ dripBuilder.Owns s :=
      fun s hs => ⟨hfilled s hs, howns _ (by simp) s hs⟩
    obtain ⟨_, b', hexec, rfl, -⟩ := Operation.exists_fault rfl hoperands hclash
    exact ⟨b', hexec⟩
  · have hfilled : ∀ s ∈ dripOut.operands, s.Filled := by
      refine List.forall_mem_cons.2 ⟨.constant 0, List.forall_mem_singleton.2 ?_⟩
      exact .flat (by simp) (by decide)
    have hcontrol : ∀ p ∈ (Signal.vector [.outlet ⟨0, 0, 0, .audio⟩,
        .outlet ⟨0, 1, 0, .control⟩]).outlets, p.rate ≠ .audio → p.rate = .control := by
      decide
    have hclash : dripOut.Clash (.rateMismatch "Out" (.input "source" .control .audio)) :=
      ⟨rfl, ⟨0, 1, 0, .control⟩, by decide, by decide, rfl⟩
    have hoperands : ∀ s ∈ dripOut.operands, s.Filled ∧ dripBuilder.Owns s :=
      fun s hs => ⟨hfilled s hs, howns _ (by simp) s hs⟩
    obtain ⟨_, b', hexec, -, p, hp, hslow, rfl⟩ := Operation.exists_fault rfl hoperands hclash
    rw [hcontrol p hp hslow] at hexec
    exact ⟨b', hexec⟩

end SynthGraph
