import Mathlib.Data.List.Perm.Subperm
import SynthGraph.Graph.Order
import SynthGraph.Proofs.Basic

/-!
# Emission by counting down

`Constraints.emit` says without counters what emission does: it emits the first free position and
puts in front of the others those that are free now. A position is free if all its antecedents have
been emitted. While positions are emitted the counter of each stands at the antecedents that have
not been, so a released position is queued exactly when it is free (`Tracks.step`), and counting
down gives the same schedule (`schedule_eq_emit`).
-/

namespace SynthGraph

theorem mem_consumers {table : List (List Nat)} {pos q : Nat} :
    q ∈ consumers table pos ↔ ∃ sources, table[q]? = some sources ∧ pos ∈ sources := by
  simp only [consumers, List.mem_map, List.mem_filter, List.contains_iff_mem]
  constructor
  · rintro ⟨⟨sources, i⟩, ⟨hmem, hpos⟩, rfl⟩
    exact ⟨sources, List.mk_mem_zipIdx_iff_getElem?.1 hmem, hpos⟩
  · rintro ⟨sources, hget, hpos⟩
    exact ⟨(sources, q), ⟨List.mk_mem_zipIdx_iff_getElem?.2 hget, hpos⟩, rfl⟩

theorem nodup_consumers (table : List (List Nat)) (pos : Nat) : (consumers table pos).Nodup := by
  have hsub : (consumers table pos).Sublist (table.zipIdx.map (·.2)) := List.filter_sublist.map _
  rw [List.zipIdx_map_snd] at hsub
  exact hsub.nodup List.nodup_range'

/-- Once all positions below `n` are done, there is none left to do. -/
theorem eq_nil_of_full {n : Nat} {rest done : List Nat} (hnodup : (rest ++ done).Nodup)
    (hbound : ∀ p ∈ rest ++ done, p < n) (hfull : n ≤ done.length) : rest = [] := by
  have hsub : rest ++ done ⊆ List.range n := fun p hp => List.mem_range.2 (hbound p hp)
  have hle := (hnodup.subperm hsub).length_le
  rw [List.length_append, List.length_range] at hle
  exact List.eq_nil_of_length_eq_zero (by omega)

/-- The next position moves from what is to do to what is done. -/
theorem perm_of_next (pos : Nat) (rest done : List Nat) :
    (pos :: rest ++ done).Perm (rest ++ (done ++ [pos])) := by
  rw [List.cons_append, ← List.append_assoc]
  exact (List.perm_append_singleton _ _).symm

/-- `s'` is `s` after an antecedent of each of `positions` has been emitted. -/
structure Backlog.Released (s : Backlog) (positions : List Nat) (s' : Backlog) : Prop where
  size : s'.queued.size = s.queued.size
  pending : ∀ p, s'.pending.getD p 0 = s.pending.getD p 0 - if p ∈ positions then 1 else 0
  available : s'.available = (positions.filter fun p =>
    s.pending.getD p 0 - 1 = 0 && !s.queued.getD p false) ++ s.available
  queued : ∀ p, s'.queued.getD p false = true ↔ s.queued.getD p false = true ∨
    p ∈ positions ∧ s.pending.getD p 0 - 1 = 0

theorem Backlog.released_foldr (s : Backlog) {positions : List Nat} (hn : positions.Nodup)
    (hlt : ∀ p ∈ positions, p < s.queued.size) :
    s.Released positions (positions.foldr (fun next s => s.release next) s) := by
  induction positions with
  | nil => exact ⟨rfl, by simp, by simp, by simp⟩
  | cons pos positions ih =>
    rw [List.nodup_cons] at hn
    have h := ih hn.2 fun p hp => hlt p (List.mem_cons_of_mem _ hp)
    rw [List.foldr_cons]
    generalize positions.foldr (fun next s => s.release next) s = s' at h
    -- `pos` comes once, so nothing has touched it yet
    have hpending : s'.pending.getD pos 0 = s.pending.getD pos 0 := by simp [h.pending, hn.1]
    have hqueued : s'.queued.getD pos false = s.queued.getD pos false := by
      rw [Bool.eq_iff_iff, h.queued]
      simp [hn.1]
    have hsize : pos < s'.queued.size := h.size ▸ hlt pos List.mem_cons_self
    simp only [release, getD_modify_pred, if_pos, hpending, hqueued]
    split
    · next hfree =>
      refine ⟨by simp [enqueue, h.size], fun p => ?_, ?_, fun p => ?_⟩
      · simp only [enqueue, getD_modify_pred, h.pending]
        grind
      · rw [List.filter_cons, if_pos hfree, enqueue, h.available, List.cons_append]
      · simp only [enqueue, getD_set_true hsize, h.queued]
        grind
    · next hfree =>
      refine ⟨h.size, fun p => ?_, ?_, fun p => ?_⟩
      · simp only [getD_modify_pred, h.pending]
        grind
      · rw [List.filter_cons, if_neg hfree, h.available]
      · simp only [h.queued]
        grind

/-- Those of `positions` that wait for nothing become available. -/
theorem Backlog.enqueue_foldr (s : Backlog) (positions : List Nat)
    (hlt : ∀ p ∈ positions, p < s.queued.size) :
    let s' := positions.foldr
      (fun pos s => if s.pending.getD pos 0 = 0 then s.enqueue pos else s) s
    s'.pending = s.pending ∧ s'.queued.size = s.queued.size ∧
      s'.available = positions.filter (s.pending.getD · 0 = 0) ++ s.available ∧
      ∀ p, s'.queued.getD p false = true ↔ s.queued.getD p false = true ∨
        p ∈ positions ∧ s.pending.getD p 0 = 0 := by
  induction positions with
  | nil => simp
  | cons pos positions ih =>
    obtain ⟨hpending, hsize, havailable, hqueued⟩ :=
      ih fun p hp => hlt p (List.mem_cons_of_mem _ hp)
    rw [List.foldr_cons]
    generalize positions.foldr
      (fun pos s => if s.pending.getD pos 0 = 0 then s.enqueue pos else s) s = s' at *
    have hpos : pos < s'.queued.size := hsize ▸ hlt pos List.mem_cons_self
    dsimp only
    split
    · next hfree =>
      refine ⟨hpending, by simp [enqueue, hsize], ?_, fun p => ?_⟩
      · rw [List.filter_cons_of_pos (by simpa [← hpending] using hfree), enqueue, havailable,
          List.cons_append]
      · rw [enqueue, getD_set_true hpos, hqueued]
        grind
    · next hfree =>
      refine ⟨hpending, hsize, ?_, fun p => ?_⟩
      · rw [List.filter_cons_of_neg (by simpa [← hpending] using hfree), havailable]
      · rw [hqueued]
        grind

namespace Constraints

variable {c : Constraints}

theorem mem_descendants {pos q : Nat} :
    q ∈ c.descendants pos ↔ q < c.size ∧ pos ∈ c.antecedentsOf q := by
  rw [descendants, mem_consumers, antecedentsOf, size]
  constructor
  · rintro ⟨sources, hget, hpos⟩
    exact ⟨(List.getElem?_eq_some_iff.1 hget).1, by simpa [List.getD, hget] using hpos⟩
  · rintro ⟨hlt, hpos⟩
    exact ⟨c.antecedents[q], List.getElem?_eq_getElem hlt, by simpa [List.getD, hlt] using hpos⟩

theorem nodup_antecedentsOf (c : Constraints) (pos : Nat) : (c.antecedentsOf pos).Nodup := by
  rw [antecedentsOf, List.getD_eq_getElem?_getD]
  cases h : c.antecedents[pos]? with
  | none => exact List.nodup_nil
  | some before => exact c.nodup before (List.mem_of_getElem? h)

/-- All antecedents of `pos` have been emitted. -/
def isFree (c : Constraints) (emitted : List Nat) (pos : Nat) : Bool :=
  (c.antecedentsOf pos).all emitted.contains

theorem isFree_iff {emitted : List Nat} {pos : Nat} :
    c.isFree emitted pos ↔ ∀ a ∈ c.antecedentsOf pos, a ∈ emitted := by
  simp [isFree]

/-- Emit the first free position and put those that it frees in front of the others. -/
def emit (c : Constraints) : Nat → List Nat → List Nat → List Nat
  | 0, _, emitted => emitted
  | _, [], emitted => emitted
  | fuel + 1, pos :: free, emitted =>
    let emitted := emitted ++ [pos]
    let freed := (c.descendants pos).filter (c.isFree emitted)
    c.emit fuel (freed ++ free) emitted

/-- What holds while positions are emitted. -/
structure Emitting (c : Constraints) (free emitted : List Nat) : Prop where
  nodup : (free ++ emitted).Nodup
  bound : ∀ p ∈ free ++ emitted, p < c.size
  ready : ∀ p ∈ free ++ emitted, c.isFree emitted p

theorem Emitting.not_mem {pos : Nat} {free emitted : List Nat}
    (h : c.Emitting (pos :: free) emitted) : pos ∉ emitted := fun hmem =>
  (List.nodup_append.1 h.nodup).2.2 pos List.mem_cons_self pos hmem rfl

/-- What waits for the next position is neither emitted nor free. -/
theorem Emitting.waits {pos p : Nat} {free emitted : List Nat}
    (h : c.Emitting (pos :: free) emitted) (hp : p ∈ c.descendants pos) :
    p ∉ pos :: free ++ emitted := fun hmem =>
  h.not_mem (isFree_iff.1 (h.ready p hmem) pos (mem_descendants.1 hp).2)

theorem Emitting.step {pos : Nat} {free emitted : List Nat} (h : c.Emitting (pos :: free) emitted) :
    c.Emitting ((c.descendants pos).filter (c.isFree (emitted ++ [pos])) ++ free)
      (emitted ++ [pos]) := by
  have hperm := perm_of_next pos free emitted
  constructor
  · rw [List.append_assoc, List.nodup_append]
    exact ⟨(nodup_consumers _ _).filter _, hperm.nodup_iff.1 h.nodup,
      fun a ha b hb hab => h.waits (List.mem_filter.1 ha).1 (hperm.mem_iff.2 (hab ▸ hb))⟩
  · intro p hp
    rw [List.append_assoc, List.mem_append] at hp
    rcases hp with hp | hp
    · exact (mem_descendants.1 (List.mem_filter.1 hp).1).1
    · exact h.bound p (hperm.mem_iff.2 hp)
  · intro p hp
    rw [List.append_assoc, List.mem_append] at hp
    rcases hp with hp | hp
    · exact (List.mem_filter.1 hp).2
    · have hready := isFree_iff.1 (h.ready p (hperm.mem_iff.2 hp))
      exact isFree_iff.2 fun a ha => List.mem_append_left _ (hready a ha)

theorem emitting_start (c : Constraints) :
    c.Emitting ((List.range c.size).filter (c.isFree [])) [] where
  nodup := by simpa using List.nodup_range.filter _
  bound := by simp +contextual
  ready := by simp +contextual

/-! ## Counters -/

/-- The antecedents of `pos` that have not been emitted. -/
def waiting (c : Constraints) (emitted : List Nat) (pos : Nat) : Nat :=
  (c.antecedentsOf pos).countP (· ∉ emitted)

theorem waiting_eq_zero {emitted : List Nat} {pos : Nat} :
    c.waiting emitted pos = 0 ↔ c.isFree emitted pos := by
  simp [waiting, isFree_iff, List.countP_eq_zero]

theorem waiting_snoc {emitted : List Nat} {pos p : Nat} (hpos : pos ∉ emitted) :
    c.waiting (emitted ++ [pos]) p =
      c.waiting emitted p - if pos ∈ c.antecedentsOf p then 1 else 0 :=
  countP_not_mem_snoc (c.nodup_antecedentsOf p) hpos

/-- The backlog is the one after `emitted`. -/
structure Tracks (c : Constraints) (s : Backlog) (emitted : List Nat) : Prop where
  emitting : c.Emitting s.available emitted
  size : s.queued.size = c.size
  pending : ∀ p < c.size, s.pending.getD p 0 = c.waiting emitted p
  queued : ∀ p, s.queued.getD p false = true ↔ p ∈ s.available ++ emitted

theorem Tracks.step {s : Backlog} {emitted available : List Nat} {pos : Nat}
    (h : c.Tracks s emitted) (havailable : s.available = pos :: available) :
    let s' := (c.descendants pos).foldr (fun next s => s.release next) { s with available }
    c.Tracks s' (emitted ++ [pos]) ∧
      s'.available = (c.descendants pos).filter (c.isFree (emitted ++ [pos])) ++ available := by
  have hemitting : c.Emitting (pos :: available) emitted := havailable ▸ h.emitting
  have hlt : ∀ p ∈ c.descendants pos, p < c.size := fun p hp => (mem_descendants.1 hp).1
  have hpos : ∀ p ∈ c.descendants pos, pos ∈ c.antecedentsOf p :=
    fun p hp => (mem_descendants.1 hp).2
  have hreleased := Backlog.released_foldr { s with available }
    (show (c.descendants pos).Nodup from nodup_consumers _ pos) (by simpa [h.size] using hlt)
  intro s'
  -- a released position is queued if its last antecedent has just been emitted
  have hcount : ∀ p ∈ c.descendants pos,
      s.pending.getD p 0 - 1 = 0 ↔ c.isFree (emitted ++ [pos]) p := by
    intro p hp
    rw [← waiting_eq_zero, waiting_snoc hemitting.not_mem, if_pos (hpos p hp),
      h.pending p (hlt p hp)]
  have hqueued : ∀ p ∈ c.descendants pos, s.queued.getD p false = false := by
    intro p hp
    rw [Bool.eq_false_iff]
    exact fun hmem => hemitting.waits hp (havailable ▸ (h.queued p).1 hmem)
  have hfreed : s'.available =
      (c.descendants pos).filter (c.isFree (emitted ++ [pos])) ++ available := by
    rw [hreleased.available]
    congr 1
    refine List.filter_congr fun p hp => ?_
    rw [hqueued p hp, Bool.eq_iff_iff, ← hcount p hp]
    simp
  refine ⟨⟨?_, ?_, fun p hp => ?_, fun p => ?_⟩, hfreed⟩
  · rw [hfreed]
    exact hemitting.step
  · rw [hreleased.size]
    exact h.size
  · rw [hreleased.pending, waiting_snoc hemitting.not_mem, h.pending p hp]
    simp only [mem_descendants, hp, true_and]
  · rw [hreleased.queued, hfreed, h.queued, havailable]
    grind

theorem Tracks.countdown {fuel : Nat} {s : Backlog} {emitted : List Nat} (h : c.Tracks s emitted) :
    (c.countdown fuel s emitted).1 = c.emit fuel s.available emitted ∧
      c.Tracks (c.countdown fuel s emitted).2 (c.countdown fuel s emitted).1 := by
  induction fuel generalizing s emitted with
  | zero => exact ⟨rfl, h⟩
  | succ fuel ih =>
    cases havailable : s.available with
    | nil => simpa [Constraints.countdown, emit, havailable] using h
    | cons pos available =>
      obtain ⟨hstep, hfreed⟩ := h.step havailable
      have hrest := ih hstep
      simp only [Constraints.countdown, havailable, emit]
      exact ⟨hfreed ▸ hrest.1, hrest.2⟩

/-- Nothing is available when emission ends. -/
theorem Tracks.available_countdown {fuel : Nat} {s : Backlog} {emitted : List Nat}
    (h : c.Tracks s emitted) (hfuel : c.size ≤ fuel + emitted.length) :
    (c.countdown fuel s emitted).2.available = [] := by
  induction fuel generalizing s emitted with
  | zero => exact eq_nil_of_full h.emitting.nodup h.emitting.bound (by omega)
  | succ fuel ih =>
    cases havailable : s.available with
    | nil => simp [Constraints.countdown, havailable]
    | cons pos available =>
      simp only [Constraints.countdown, havailable]
      exact ih (h.step havailable).1 (by rw [List.length_append, List.length_singleton]; omega)

theorem tracks_backlog (c : Constraints) :
    c.Tracks c.backlog [] ∧ c.backlog.available = (List.range c.size).filter (c.isFree []) := by
  obtain ⟨hpending, hsize, havailable, hqueued⟩ := Backlog.enqueue_foldr
    ⟨(c.antecedents.map List.length).toArray, Array.replicate c.size false, []⟩
    (List.range c.size) (by simp)
  have hcount : ∀ p, (c.antecedents.map List.length).toArray.getD p 0 = c.waiting [] p := by
    intro p
    simp only [waiting, antecedentsOf, List.getD_eq_getElem?_getD]
    cases h : c.antecedents[p]? <;> simp [h]
  have hfree : c.backlog.available = (List.range c.size).filter (c.isFree []) := by
    rw [backlog, havailable, List.append_nil]
    refine List.filter_congr fun p _ => ?_
    rw [hcount, Bool.eq_iff_iff, decide_eq_true_iff, waiting_eq_zero]
  refine ⟨⟨?_, ?_, fun p _ => ?_, fun p => ?_⟩, hfree⟩
  · rw [hfree]
    exact c.emitting_start
  · rw [backlog, hsize]
    simp
  · rw [backlog, hpending, hcount]
  · rw [hfree, backlog, hqueued, getD_replicate_false, hcount, waiting_eq_zero]
    simp

/-- Counting down emits what is free. -/
theorem schedule_eq_emit (c : Constraints) :
    c.schedule = c.emit c.size ((List.range c.size).filter (c.isFree [])) [] := by
  obtain ⟨h, havailable⟩ := c.tracks_backlog
  rw [← havailable]
  exact h.countdown.1

theorem queued_outcome (c : Constraints) (p : Nat) :
    c.outcome.2.queued.getD p false = c.schedule.contains p := by
  have hnil : c.outcome.2.available = [] := c.tracks_backlog.1.available_countdown (by simp)
  have h : c.Tracks c.outcome.2 c.schedule := c.tracks_backlog.1.countdown.2
  rw [Bool.eq_iff_iff, h.queued, hnil, List.nil_append, List.contains_iff_mem]

end Constraints

end SynthGraph
