import Mathlib.Data.List.Forall2
import SynthGraph.Envelope

/-!
# The two layouts of an envelope

`Envelope.SameCourse` says that two envelopes go through the same levels, with the same durations
and the same written curves. Each layout determines the course up to the entries of its own that
the other one lacks, and is determined by it up to these: the gated layout has the nodes of release
and loop, the indexed one has the offset. The standard envelopes are those that `Envelope.ofLevels`
makes from their levels, durations and curves.
-/

namespace SynthGraph

/-- The segments are written alike: a named shape and a curvature may have the same code. -/
structure Segment.Alike (s t : Segment) : Prop where
  amplitude : s.amplitude = t.amplitude
  duration : s.duration = t.duration
  code : s.curve.code = t.curve.code
  bend : s.curve.bend = t.curve.bend

/-- The lists are equal up to the entries at the given positions. -/
def AgreeExcept (positions : List Nat) (a b : List Single) : Prop :=
  a.length = b.length ∧ ∀ i ∉ positions, a[i]? = b[i]?

theorem AgreeExcept.of_eq {positions : List Nat} {a b : List Single} (h : a = b) :
    AgreeExcept positions a b := by
  rw [h]
  exact ⟨rfl, fun _ _ => rfl⟩

/-- Where only entries of a header may differ, what follows the header is equal. -/
theorem agreeExcept_append_iff {positions : List Nat} {a b rest rest' : List Single}
    (hlen : a.length = b.length) (hpos : ∀ i ∈ positions, i < a.length) :
    AgreeExcept positions (a ++ rest) (b ++ rest') ↔ AgreeExcept positions a b ∧ rest = rest' := by
  constructor
  · rintro ⟨hlength, hget⟩
    refine ⟨⟨hlen, fun i hi => ?_⟩, List.ext_getElem? fun i => ?_⟩
    · by_cases hlt : i < a.length
      · have := hget i hi
        rwa [List.getElem?_append_left hlt, List.getElem?_append_left (hlen ▸ hlt)] at this
      · rw [List.getElem?_eq_none (by omega), List.getElem?_eq_none (by omega)]
    · have := hget (a.length + i) fun hi => by
        have := hpos _ hi
        omega
      rwa [List.getElem?_append_right (by omega), List.getElem?_append_right (by omega), ← hlen,
        Nat.add_sub_cancel_left] at this
  · rintro ⟨⟨-, hget⟩, rfl⟩
    refine ⟨by rw [List.length_append, List.length_append, hlen], fun i hi => ?_⟩
    by_cases hlt : i < a.length
    · rw [List.getElem?_append_left hlt, List.getElem?_append_left (hlen ▸ hlt), hget i hi]
    · rw [List.getElem?_append_right (by omega), List.getElem?_append_right (by omega), hlen]

theorem agreeExcept_four_iff {positions : List Nat} {a b c d a' b' c' d' : Single} :
    AgreeExcept positions [a, b, c, d] [a', b', c', d'] ↔
      (0 ∉ positions → a = a') ∧ (1 ∉ positions → b = b') ∧ (2 ∉ positions → c = c') ∧
        (3 ∉ positions → d = d') := by
  constructor
  · rintro ⟨-, hget⟩
    exact ⟨fun h => Option.some.inj (hget 0 h), fun h => Option.some.inj (hget 1 h),
      fun h => Option.some.inj (hget 2 h), fun h => Option.some.inj (hget 3 h)⟩
  · rintro ⟨ha, hb, hc, hd⟩
    refine ⟨rfl, fun i hi => ?_⟩
    rcases i with _ | _ | _ | _ | i
    · exact congrArg some (ha hi)
    · exact congrArg some (hb hi)
    · exact congrArg some (hc hi)
    · exact congrArg some (hd hi)
    · rfl

namespace Envelope

/-- The shape code and the curvature written for each segment. -/
def writtenCurves (e : Envelope) : List (Single × Single) :=
  e.segments.map fun s => (s.curve.code, s.curve.bend)

/-- The same levels, durations and written curves. -/
structure SameCourse (e f : Envelope) : Prop where
  amplitudes : e.amplitudes = f.amplitudes
  durations : e.durations = f.durations
  curves : e.writtenCurves = f.writtenCurves

/-! ## Layouts -/

theorem forall₂_alike_iff {l m : List Segment} : List.Forall₂ Segment.Alike l m ↔
    l.map (·.amplitude) = m.map (·.amplitude) ∧ l.map (·.duration) = m.map (·.duration) ∧
      l.map (fun s => (s.curve.code, s.curve.bend)) =
        m.map fun s => (s.curve.code, s.curve.bend) := by
  induction l generalizing m with
  | nil => cases m <;> simp
  | cons s l ih =>
    cases m with
    | nil => simp
    | cons t m =>
      simp only [List.forall₂_cons, ih, List.map_cons, List.cons.injEq, Prod.mk.injEq]
      constructor
      · rintro ⟨⟨ha, hd, hc, hb⟩, has, hds, hcs⟩
        exact ⟨⟨ha, has⟩, ⟨hd, hds⟩, ⟨hc, hb⟩, hcs⟩
      · rintro ⟨⟨ha, has⟩, ⟨hd, hds⟩, ⟨hc, hb⟩, hcs⟩
        exact ⟨⟨ha, hd, hc, hb⟩, has, hds, hcs⟩

theorem sameCourse_iff {e f : Envelope} : e.SameCourse f ↔
    e.initial = f.initial ∧ List.Forall₂ Segment.Alike e.segments f.segments := by
  rw [forall₂_alike_iff]
  constructor
  · rintro ⟨ha, hd, hc⟩
    obtain ⟨hi, ha⟩ := List.cons.inj ha
    exact ⟨hi, ha, hd, hc⟩
  · rintro ⟨hi, ha, hd, hc⟩
    exact ⟨congrArg₂ List.cons hi ha, hd, hc⟩

/-- Segments written one after the other, where what is written for one tells its fields. -/
theorem flatMap_eq_flatMap_iff {write : Segment → List Single}
    (hwrite : ∀ s t rest rest', write s ++ rest = write t ++ rest' ↔ s.Alike t ∧ rest = rest')
    (hne : ∀ s, write s ≠ []) {l m : List Segment} :
    l.flatMap write = m.flatMap write ↔ List.Forall₂ Segment.Alike l m := by
  induction l generalizing m with
  | nil =>
    cases m with
    | nil => simp
    | cons t m => simp [hne]
  | cons s l ih =>
    cases m with
    | nil => simp [hne]
    | cons t m => rw [List.flatMap_cons, List.flatMap_cons, hwrite, ih, List.forall₂_cons]

theorem gatedSegments_eq_iff {l m : List Segment} :
    (l.flatMap fun s => [s.amplitude, s.duration, s.curve.code, s.curve.bend]) =
        (m.flatMap fun s => [s.amplitude, s.duration, s.curve.code, s.curve.bend]) ↔
      List.Forall₂ Segment.Alike l m := by
  refine flatMap_eq_flatMap_iff (fun s t rest rest' => ?_) fun _ => List.cons_ne_nil _ _
  simp only [List.cons_append, List.nil_append, List.cons.injEq]
  constructor
  · rintro ⟨ha, hd, hc, hb, hrest⟩
    exact ⟨⟨ha, hd, hc, hb⟩, hrest⟩
  · rintro ⟨⟨ha, hd, hc, hb⟩, hrest⟩
    exact ⟨ha, hd, hc, hb, hrest⟩

theorem indexedSegments_eq_iff {l m : List Segment} :
    (l.flatMap fun s => [s.duration, s.curve.code, s.curve.bend, s.amplitude]) =
        (m.flatMap fun s => [s.duration, s.curve.code, s.curve.bend, s.amplitude]) ↔
      List.Forall₂ Segment.Alike l m := by
  refine flatMap_eq_flatMap_iff (fun s t rest rest' => ?_) fun _ => List.cons_ne_nil _ _
  simp only [List.cons_append, List.nil_append, List.cons.injEq]
  constructor
  · rintro ⟨hd, hc, hb, ha, hrest⟩
    exact ⟨⟨ha, hd, hc, hb⟩, hrest⟩
  · rintro ⟨⟨ha, hd, hc, hb⟩, hrest⟩
    exact ⟨hd, hc, hb, ha, hrest⟩

/-- Up to the nodes of release and loop, the gated layout is the course of the envelope. -/
theorem layout_agrees_iff {e f : Envelope} :
    AgreeExcept [2, 3] e.layout f.layout ↔ e.SameCourse f := by
  rw [layout, layout, agreeExcept_append_iff (by simp) (by simp), gatedSegments_eq_iff,
    agreeExcept_four_iff, sameCourse_iff]
  constructor
  · rintro ⟨⟨hinitial, -⟩, hsegments⟩
    exact ⟨hinitial (by decide), hsegments⟩
  · rintro ⟨hinitial, hsegments⟩
    exact ⟨⟨fun _ => hinitial, fun _ => by rw [hsegments.length_eq], by simp, by simp⟩, hsegments⟩

/-- Up to the offset, the indexed layout is the course of the envelope. -/
theorem indexedLayout_agrees_iff {e f : Envelope} :
    AgreeExcept [0] e.indexedLayout f.indexedLayout ↔ e.SameCourse f := by
  rw [indexedLayout, indexedLayout, agreeExcept_append_iff (by simp) (by simp),
    indexedSegments_eq_iff, agreeExcept_four_iff]
  constructor
  · rintro ⟨⟨-, hinitial, -⟩, hsegments⟩
    exact sameCourse_iff.2 ⟨hinitial (by decide), hsegments⟩
  · intro h
    obtain ⟨hinitial, hsegments⟩ := sameCourse_iff.1 h
    have hduration : e.duration = f.duration := congrArg Single.sum h.durations
    exact ⟨⟨by simp, fun _ => hinitial, fun _ => by rw [hsegments.length_eq], fun _ => hduration⟩,
      hsegments⟩

/-! ## Standard envelopes -/

section
variable {targets durations : List Single} (hlen : durations.length = targets.length)
include hlen

theorem map_amplitude_segmentsOf (curve : Nat → Curve) :
    (segmentsOf targets durations curve).map (·.amplitude) = targets := by
  rw [segmentsOf, List.map_map]
  calc (targets.zip durations).zipIdx.map (·.1.1)
      = ((targets.zip durations).zipIdx.map (·.1)).map (·.1) := by rw [List.map_map]; rfl
    _ = targets := by rw [List.zipIdx_map_fst, List.map_fst_zip (by omega)]

theorem map_duration_segmentsOf (curve : Nat → Curve) :
    (segmentsOf targets durations curve).map (·.duration) = durations := by
  rw [segmentsOf, List.map_map]
  calc (targets.zip durations).zipIdx.map (·.1.2)
      = ((targets.zip durations).zipIdx.map (·.1)).map (·.2) := by rw [List.map_map]; rfl
    _ = durations := by rw [List.zipIdx_map_fst, List.map_snd_zip (by omega)]

theorem amplitudes_standard (initial : Single) (curves : List Curve) :
    (standard initial targets durations curves).amplitudes = initial :: targets := by
  rw [amplitudes, standard, map_amplitude_segmentsOf hlen]

theorem durations_standard (initial : Single) (curves : List Curve) :
    (standard initial targets durations curves).durations = durations := by
  rw [Envelope.durations, standard, map_duration_segmentsOf hlen]

end

/-- Both ways to take curves in turn are the same, for any number of curves. -/
theorem getD_eq_curveAt (curves : List Curve) (i : Nat) :
    curves.getD (i % max curves.length 1) (.shape .linear) = curveAt curves i := by
  unfold curveAt
  split
  · next h => rw [h, List.getD_nil]
  · next h =>
    have hpos : 0 < curves.length := List.length_pos_iff.2 h
    rw [Nat.max_eq_left hpos, List.getD_eq_getElem?_getD,
      List.getElem?_eq_getElem (Nat.mod_lt _ hpos), Option.getD_some, List.get_eq_getElem]

/-- Levels that fit their durations make a standard envelope. -/
theorem ofLevels_eq_standard {initial : Single} {targets durations : List Single}
    (htargets : targets ≠ []) (hlen : durations.length = targets.length) (curves : List Curve) :
    ofLevels (initial :: targets) durations curves =
      .ok (standard initial targets durations curves) := by
  obtain ⟨target, targets, rfl⟩ := List.exists_cons_of_ne_nil htargets
  rw [ofLevels, if_pos (by simpa using hlen), standard]
  simp only [getD_eq_curveAt]

/-- The standard envelopes, each with its arguments. -/
inductive Standard where
  | adsr (attack decay sustain release peak curve bias : Single)
  | asr (attack sustain release curve : Single)
  | percussive (attack release amplitude curve : Single)
  | linen (attack sustain release level : Single) (curve : Curve)
  | triangle (duration amplitude : Single)
  | unit

namespace Standard

def envelope : Standard → Envelope
  | adsr attack decay sustain release peak curve bias =>
    .adsr attack decay sustain release peak curve bias
  | asr attack sustain release curve => .asr attack sustain release curve
  | percussive attack release amplitude curve => .percussive attack release amplitude curve
  | linen attack sustain release level curve => .linen attack sustain release level curve
  | triangle duration amplitude => .triangle duration amplitude
  | unit => .unit

/-- The levels it is made from, the starting one first. -/
def levels : Standard → List Single
  | adsr _ _ sustain _ peak _ bias => [0 + bias, peak + bias, peak * sustain + bias, 0 + bias]
  | asr _ sustain _ _ => [0, sustain, 0]
  | percussive _ _ amplitude _ => [0, amplitude, 0]
  | linen _ _ _ level _ => [0, level, level, 0]
  | triangle _ amplitude => [0, amplitude, 0]
  | unit => [0, 1, 0]

/-- The times between them. -/
def times : Standard → List Single
  | adsr attack decay _ release _ _ _ => [attack, decay, release]
  | asr attack _ release _ => [attack, release]
  | percussive attack release _ _ => [attack, release]
  | linen attack sustain release _ _ => [attack, sustain, release]
  | triangle duration _ => [duration / 2, duration / 2]
  | unit => [1, 1]

/-- The curves its segments take in turn. -/
def curves : Standard → List Curve
  | adsr _ _ _ _ _ curve _ => [.curvature curve]
  | asr _ _ _ curve => [.curvature curve]
  | percussive _ _ _ curve => [.curvature curve]
  | linen _ _ _ _ curve => [curve]
  | triangle _ _ => []
  | unit => []

/-- The node at which it holds while its gate is open. -/
def node? : Standard → Option Nat
  | adsr .. => some 2
  | asr .. => some 1
  | _ => none

/-- The envelope, holding at the node of the standard one. -/
def hold (s : Standard) (e : Envelope) : Envelope :=
  match s.node? with
  | some node => e.holdingAt node
  | none => e

theorem amplitudes_hold (s : Standard) (e : Envelope) : (s.hold e).amplitudes = e.amplitudes := by
  rw [hold]
  split <;> rfl

theorem durations_hold (s : Standard) (e : Envelope) : (s.hold e).durations = e.durations := by
  rw [hold]
  split <;> rfl

end Standard

theorem hold_ofLevels (s : Standard) {initial : Single} {targets : List Single}
    (hlevels : s.levels = initial :: targets) (htargets : targets ≠ [])
    (hlen : s.times.length = targets.length)
    (henvelope : s.envelope = s.hold (standard initial targets s.times s.curves)) :
    s.envelope.amplitudes = s.levels ∧ s.envelope.durations = s.times ∧
      (ofLevels s.levels s.times s.curves).map s.hold = .ok s.envelope := by
  rw [henvelope, s.amplitudes_hold, s.durations_hold, amplitudes_standard hlen,
    durations_standard hlen, hlevels, ofLevels_eq_standard htargets hlen]
  exact ⟨rfl, rfl, rfl⟩

/-- A standard envelope is made from its levels, times and curves, and then told where to hold. -/
theorem standard_ofLevels (s : Standard) :
    s.envelope.amplitudes = s.levels ∧ s.envelope.durations = s.times ∧
      (ofLevels s.levels s.times s.curves).map s.hold = .ok s.envelope := by
  cases s <;> exact hold_ofLevels _ rfl (List.cons_ne_nil _ _) rfl rfl

/-- Both layouts write the same course: what one of them tells of the segments, the other one tells
too. Levels that fit their durations give the same envelope whether or not this is checked, for any
number of segments and of curves, and every standard envelope is made from its own levels, times and
curves. -/
theorem layouts_same_course (e f : Envelope) :
    (e.layout = f.layout → e.SameCourse f ∧ AgreeExcept [0] e.indexedLayout f.indexedLayout) ∧
    (e.indexedLayout = f.indexedLayout → AgreeExcept [2, 3] e.layout f.layout) ∧
    (∀ initial targets durations curves, targets ≠ [] → durations.length = targets.length →
      ofLevels (initial :: targets) durations curves =
        .ok (standard initial targets durations curves)) ∧
    ∀ s : Standard, s.envelope.amplitudes = s.levels ∧ s.envelope.durations = s.times ∧
      (ofLevels s.levels s.times s.curves).map s.hold = .ok s.envelope := by
  refine ⟨fun h => ?_, fun h => ?_, fun initial targets durations curves htargets hlen => ?_,
    standard_ofLevels⟩
  · have hcourse := layout_agrees_iff.1 (.of_eq h)
    exact ⟨hcourse, indexedLayout_agrees_iff.2 hcourse⟩
  · exact layout_agrees_iff.2 (indexedLayout_agrees_iff.1 (.of_eq h))
  · exact ofLevels_eq_standard htargets hlen curves

/-- One segment to level one, whose curve is written as that of shape `custom`. -/
def ramp (curve : Curve) : Envelope := { initial := 0, segments := [⟨1, 2, curve⟩] }

/-- Envelopes that differ may have the same layout: the shape `custom` is written as curvature zero,
the offset is in one layout only, and the nodes are in the other one only. The third of three
segments takes the first of two curves again. -/
theorem ramp_same_course :
    (ramp (.shape .custom) ≠ { ramp (.curvature 0) with offset := 1 } ∧
      (ramp (.shape .custom)).SameCourse { ramp (.curvature 0) with offset := 1 } ∧
      AgreeExcept [0] (ramp (.shape .custom)).indexedLayout
        { ramp (.curvature 0) with offset := 1 }.indexedLayout) ∧
    ((ramp (.shape .custom)).layout ≠ ((ramp (.curvature 0)).holdingAt 1).layout ∧
      AgreeExcept [2, 3] (ramp (.shape .custom)).layout
        ((ramp (.curvature 0)).holdingAt 1).layout) ∧
    ofLevels [0, 1, 2, 0] [1, 1, 1] [.shape .linear, .curvature 2] =
      .ok (standard 0 [1, 2, 0] [1, 1, 1] [.shape .linear, .curvature 2]) ∧
    (standard 0 [1, 2, 0] [1, 1, 1] [.shape .linear, .curvature 2]).segments.map (·.curve) =
      [.shape .linear, .curvature 2, .shape .linear] := by
  have hoffset := layouts_same_course (ramp (.shape .custom))
    { ramp (.curvature 0) with offset := 1 }
  have hnode := layouts_same_course (ramp (.shape .custom)) ((ramp (.curvature 0)).holdingAt 1)
  exact ⟨⟨by decide +kernel, hoffset.1 (by decide +kernel)⟩, ⟨by decide +kernel, hnode.2.1 rfl⟩,
    hnode.2.2.1 0 [1, 2, 0] [1, 1, 1] _ (List.cons_ne_nil _ _) rfl, rfl⟩

end Envelope

end SynthGraph
