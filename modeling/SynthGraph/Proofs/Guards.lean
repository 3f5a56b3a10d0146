import Mathlib.Data.List.Induction
import SynthGraph.Proofs.Studios

/-!
# Guards and the stack of active builders

A guard that comes back takes the innermost builder off the stack, whichever builder it was handed
out for. So the stack is as deep as there are guards held, and at every depth it holds the builder
that was entered last at this depth. `Nesting` says this of a run of commands, and when the stack
lists the builders of the guards that are held: as long as each guard comes back while the guards
handed out after it and still held are for its own builder.
-/

namespace SynthGraph

namespace Studio

/-! ## Runs of commands -/

/-- The studio after the commands. -/
def play (commands : List Command) : Studio := commands.foldl (fun s c => c.after s) {}

theorem play_snoc (commands : List Command) (c : Command) :
    play (commands ++ [c]) = c.after (play commands) := by
  rw [play, List.foldl_append]
  rfl

/-- Guard `g` is held. -/
def Holds (s : Studio) (g : Nat) : Prop := s.guards[g]? = some true

instance (s : Studio) (g : Nat) : Decidable (s.Holds g) := inferInstanceAs (Decidable (_ = _))

/-- The number of guards that are held. -/
def held (s : Studio) : Nat := s.guards.toList.count true

/-- The builder that a command enters. -/
def Command.entered? : Command → Option Nat
  | enter b => some b
  | _ => none

/-- The builders of all guards in the order in which they were handed out. -/
def entered (commands : List Command) : List Nat := commands.filterMap Command.entered?

/-- Every guard as its builder, with whether it is held. -/
def ledger (commands : List Command) : List (Nat × Bool) :=
  (entered commands).zip (play commands).guards.toList

/-- The builders of the guards that are held, in the order in which they were entered. -/
def heldBuilders (commands : List Command) : List Nat :=
  ((ledger commands).filter (·.2)).map (·.1)

/-- The builders entered while `depth` guards were held. -/
def entriesAt (depth : Nat) (s : Studio) : List Command → List Nat
  | [] => []
  | c :: rest =>
    (if s.held = depth then c.entered?.toList else []) ++ entriesAt depth (c.after s) rest

/-- The guards handed out after `g` and still held are for the same builder as `g`. -/
def Unwinds (commands : List Command) (g : Nat) : Prop :=
  ∀ later, g < later → (play commands).Holds later →
    (entered commands)[later]? = (entered commands)[g]?

/-- The stack of active builders lists the builders of the guards that are held. -/
def Matches (commands : List Command) : Prop :=
  (play commands).active.reverse = heldBuilders commands

instance (commands : List Command) : Decidable (Matches commands) :=
  inferInstanceAs (Decidable (_ = _))

/-- How the active builders follow from the guards, after any run of commands. -/
structure Nesting (commands : List Command) : Prop where
  /-- The stack is as deep as there are guards held. -/
  depth : (play commands).active.length = (play commands).held
  /-- At each depth stands the builder entered last at this depth. -/
  entry : ∀ depth < (play commands).held,
    (play commands).active.reverse[depth]? = (entriesAt depth {} commands).getLast?
  /-- No builder is active exactly if no guard is held. -/
  idle : (play commands).current = .error .noActiveBuilder ↔ ∀ g, ¬(play commands).Holds g
  /-- The innermost builder was entered last while one guard less was held. -/
  innermost : ∀ b, (play commands).current = .ok b ↔ 0 < (play commands).held ∧
    (entriesAt ((play commands).held - 1) {} commands).getLast? = some b
  /-- A stack that lists the builders of the held guards still does so after entering any one. -/
  enters : Matches commands → ∀ b, Matches (commands ++ [.enter b])
  /-- It still does so after a guard comes back exactly if that guard unwinds. -/
  leaves : Matches commands → ∀ g, (play commands).Holds g →
    (Matches (commands ++ [.leave g]) ↔ Unwinds commands g)
  /-- So it does if all guards unwound, and the innermost builder is that of the last one held. -/
  unwound : (∀ before g rest, commands = before ++ .leave g :: rest → (play before).Holds g →
      Unwinds before g) →
    Matches commands ∧
      ∀ b, (play commands).current = .ok b ↔ (heldBuilders commands).getLast? = some b

/-! ## One command -/

/-- What a command does to the active builders and to the guards. -/
inductive GuardStep (s s' : Studio) : Command → Prop
  | entered (b : Nat) (active : s'.active = b :: s.active)
      (guards : s'.guards = s.guards.push true) : GuardStep s s' (.enter b)
  | left (g : Nat) (hg : s.Holds g) (active : s'.active = s.active.tail)
      (guards : s'.guards = s.guards.set! g false) : GuardStep s s' (.leave g)
  | kept {c : Command} (hc : c.entered? = none) (active : s'.active = s.active)
      (guards : s'.guards = s.guards) : GuardStep s s' c

theorem after_leave {s : Studio} {g : Nat} (hg : s.Holds g) : (Command.leave g).after s =
    { s with active := s.active.tail, guards := s.guards.set! g false } := by
  unfold Holds at hg
  simp only [Command.after, Command.perform, leave?, if_pos hg, Option.getD_some]

theorem guardStep (c : Command) (s : Studio) : GuardStep s (c.after s) c := by
  cases c with
  | addBuilder => exact .kept rfl rfl rfl
  | enter b => exact .entered b rfl rfl
  | leave g =>
    by_cases hg : s.guards[g]? = some true
    · exact .left g hg (by rw [after_leave hg]) (by rw [after_leave hg])
    · have hafter : (Command.leave g).after s = s := by
        simp only [Command.after, Command.perform, leave?, if_neg hg, Option.getD_none]
      exact .kept rfl (by rw [hafter]) (by rw [hafter])
  | run b op => exact .kept rfl rfl rfl
  | runActive op =>
    have hafter : ((Command.runActive op).after s).active = s.active ∧
        ((Command.runActive op).after s).guards = s.guards := by
      simp only [Command.after, Command.perform, Studio.runActive]
      split <;> exact ⟨rfl, rfl⟩
    exact .kept rfl hafter.1 hafter.2

section
variable {s s' : Studio} {g : Nat}

theorem held_eq_zero_iff : s.held = 0 ↔ ∀ g, ¬s.Holds g := by
  rw [held, List.count_eq_zero, Array.mem_toList_iff, Array.mem_iff_getElem?]
  exact not_exists

theorem held_push (h : s'.guards = s.guards.push true) : s'.held = s.held + 1 := by
  rw [held, h, Array.toList_push, List.count_append]
  rfl

theorem held_set (hg : s.Holds g) (h : s'.guards = s.guards.set! g false) :
    s'.held = s.held - 1 := by
  obtain ⟨hlt, hget⟩ := Array.getElem?_eq_some_iff.1 hg
  rw [held, h, Array.set!_eq_setIfInBounds, Array.toList_setIfInBounds,
    List.count_set (by simpa using hlt)]
  simp [hget, held]

theorem current_eq_error_iff : s.current = .error .noActiveBuilder ↔ s.active.length = 0 := by
  unfold current
  split <;> simp_all

theorem current_eq_ok_iff {b : Nat} : s.current = .ok b ↔ s.active.reverse.getLast? = some b := by
  unfold current
  split <;> simp_all

end

/-! ## The depth of the stack -/

theorem entriesAt_snoc (depth : Nat) (s : Studio) (commands : List Command) (c : Command) :
    entriesAt depth s (commands ++ [c]) = entriesAt depth s commands ++
      if (commands.foldl (fun s c => c.after s) s).held = depth then c.entered?.toList else [] := by
  induction commands generalizing s with
  | nil => rw [List.nil_append, entriesAt, entriesAt, entriesAt, List.append_nil]; rfl
  | cons first rest ih =>
    rw [List.cons_append, entriesAt, entriesAt, ih, List.append_assoc]
    rfl

theorem length_active (commands : List Command) :
    (play commands).active.length = (play commands).held := by
  induction commands using List.reverseRecOn with
  | nil => rfl
  | append_singleton commands c ih =>
    rw [play_snoc]
    cases guardStep c (play commands) with
    | entered b active guards => rw [active, held_push guards, List.length_cons, ih]
    | left g hg active guards => rw [active, held_set hg guards, List.length_tail, ih]
    | kept _ active guards => rw [active, held, guards, ih, held]

/-- At each depth stands the builder that was entered last at this depth. -/
theorem getElem?_active (commands : List Command) {depth : Nat}
    (hdepth : depth < (play commands).held) :
    (play commands).active.reverse[depth]? = (entriesAt depth {} commands).getLast? := by
  induction commands using List.reverseRecOn with
  | nil => cases hdepth
  | append_singleton commands c ih =>
    have hlen : (play commands).active.reverse.length = (play commands).held := by
      rw [List.length_reverse, length_active]
    rw [play_snoc] at hdepth ⊢
    rw [entriesAt_snoc, ← play]
    cases guardStep c (play commands) with
    | entered b active guards =>
      rw [held_push guards] at hdepth
      rw [active, List.reverse_cons]
      by_cases hd : (play commands).held = depth
      · rw [if_pos hd, List.getElem?_append_right (by omega), hlen, hd, Nat.sub_self]
        simp [Command.entered?]
      · rw [if_neg hd, List.append_nil, List.getElem?_append_left (by omega), ih (by omega)]
    | left g hg active guards =>
      rw [held_set hg guards] at hdepth
      rw [active, ← List.dropLast_reverse, List.getElem?_dropLast, if_pos (by omega),
        ih (by omega)]
      simp [Command.entered?]
    | kept hc active guards =>
      rw [held, guards] at hdepth
      rw [active, ih hdepth, hc]
      simp

/-! ## The builders of the guards -/

theorem entered_snoc (commands : List Command) (c : Command) :
    entered (commands ++ [c]) = entered commands ++ c.entered?.toList := by
  rw [entered, List.filterMap_append, entered]
  cases h : c.entered? <;> simp [h]

theorem length_entered (commands : List Command) :
    (entered commands).length = (play commands).guards.size := by
  induction commands using List.reverseRecOn with
  | nil => rfl
  | append_singleton commands c ih =>
    rw [play_snoc, entered_snoc, List.length_append, ih]
    cases guardStep c (play commands) with
    | entered b _ guards => rw [guards, Array.size_push]; rfl
    | left g _ _ guards => rw [guards, Array.set!_eq_setIfInBounds, Array.size_setIfInBounds]; rfl
    | kept hc _ guards => rw [guards, hc]; rfl

theorem getElem?_ledger {commands : List Command} {g b : Nat} {flag : Bool} :
    (ledger commands)[g]? = some (b, flag) ↔
      (entered commands)[g]? = some b ∧ (play commands).guards[g]? = some flag := by
  rw [ledger, List.getElem?_zip_eq_some, ← Array.getElem?_toList]

theorem heldBuilders_enter (commands : List Command) (b : Nat) :
    heldBuilders (commands ++ [.enter b]) = heldBuilders commands ++ [b] := by
  have hledger : ledger (commands ++ [.enter b]) = ledger commands ++ [(b, true)] := by
    have hguards : (play (commands ++ [.enter b])).guards.toList =
        (play commands).guards.toList ++ [true] := by
      rw [play_snoc]
      exact Array.toList_push
    rw [ledger, entered_snoc, hguards, List.zip_append (by simpa using length_entered commands)]
    rfl
  simp [heldBuilders, hledger]

/-- A guard that comes back splits the ledger into what was handed out before and after it. -/
theorem ledger_leave {commands : List Command} {g : Nat} (hg : (play commands).Holds g) :
    ∃ b before after, before.length = g ∧ ledger commands = before ++ (b, true) :: after ∧
      ledger (commands ++ [.leave g]) = before ++ (b, false) :: after := by
  obtain ⟨hlt, -⟩ := Array.getElem?_eq_some_iff.1 hg
  obtain ⟨b, hb⟩ : ∃ b, (entered commands)[g]? = some b :=
    ⟨_, List.getElem?_eq_getElem (length_entered commands ▸ hlt)⟩
  have hentry : (ledger commands)[g]? = some (b, true) := getElem?_ledger.2 ⟨hb, hg⟩
  have hset : ledger (commands ++ [.leave g]) = (ledger commands).set g (b, false) := by
    have hguards : (play (commands ++ [.leave g])).guards.toList =
        (play commands).guards.toList.set g false := by
      rw [play_snoc, after_leave hg, Array.set!_eq_setIfInBounds, Array.toList_setIfInBounds]
    rw [ledger, hguards, entered_snoc, show Command.entered? (.leave g) = none from rfl,
      Option.toList_none, List.append_nil]
    refine List.ext_getElem (by simp [ledger]) fun i _ _ => ?_
    rw [List.getElem_zip, List.getElem_set, List.getElem_set]
    by_cases hi : g = i
    · subst hi
      simp [(List.getElem?_eq_some_iff.1 hb).2]
    · simp [hi, ledger]
  obtain ⟨hlt', hget⟩ := List.getElem?_eq_some_iff.1 hentry
  refine ⟨b, (ledger commands).take g, (ledger commands).drop (g + 1), ?_, ?_, ?_⟩
  · rw [List.length_take, Nat.min_eq_left (by omega)]
  · rw [← hget, ← List.drop_eq_getElem_cons hlt', List.take_append_drop]
  · rw [hset, List.set_eq_take_append_cons_drop, if_pos hlt']

/-- A guard unwinds if the entries behind its own that are still held name its builder. -/
theorem unwinds_iff {commands : List Command} {b : Nat} {before after : List (Nat × Bool)}
    (h : ledger commands = before ++ (b, true) :: after) :
    Unwinds commands before.length ↔ ∀ x, (x, true) ∈ after → x = b := by
  have hentry : ∀ i, (ledger commands)[before.length + 1 + i]? = after[i]? := by
    intro i
    rw [h, List.getElem?_append_right (by omega),
      show before.length + 1 + i - before.length = i + 1 by omega, List.getElem?_cons_succ]
  have hself : (entered commands)[before.length]? = some b := by
    refine (getElem?_ledger.1 (?_ : _ = some (b, true))).1
    rw [h, List.getElem?_append_right (Nat.le_refl _), Nat.sub_self, List.getElem?_cons_zero]
  rw [Unwinds, hself]
  constructor
  · intro hunwinds x hx
    obtain ⟨i, hi⟩ := List.getElem?_of_mem hx
    obtain ⟨hbuilder, hholds⟩ := getElem?_ledger.1 ((hentry i).trans hi)
    exact Option.some.inj (hbuilder.symm.trans (hunwinds _ (by omega) hholds))
  · intro hafter later hlater hholds
    obtain ⟨hlt, -⟩ := Array.getElem?_eq_some_iff.1 hholds
    have hbuilder := List.getElem?_eq_getElem (length_entered commands ▸ hlt)
    have hi := hentry (later - (before.length + 1))
    rw [Nat.add_sub_of_le hlater, getElem?_ledger.2 ⟨hbuilder, hholds⟩] at hi
    rw [hbuilder, hafter _ (List.mem_of_getElem? hi.symm)]

/-- Dropping the last element is dropping the first one exactly if all elements are equal. -/
theorem eq_dropLast_cons_iff {b : Nat} {rest : List Nat} :
    (b :: rest).dropLast = rest ↔ ∀ x ∈ rest, x = b := by
  induction rest generalizing b with
  | nil => simp
  | cons c rest ih =>
    rw [List.dropLast_cons_cons, List.cons.injEq, ih, List.forall_mem_cons]
    constructor
    · rintro ⟨rfl, h⟩
      exact ⟨rfl, h⟩
    · rintro ⟨rfl, h⟩
      exact ⟨rfl, h⟩

theorem matches_enter {commands : List Command} (h : Matches commands) (b : Nat) :
    Matches (commands ++ [.enter b]) := by
  unfold Matches at h ⊢
  rw [heldBuilders_enter, ← h, play_snoc]
  exact List.reverse_cons

theorem matches_leave_iff {commands : List Command} (h : Matches commands) {g : Nat}
    (hg : (play commands).Holds g) : Matches (commands ++ [.leave g]) ↔ Unwinds commands g := by
  obtain ⟨b, before, after, rfl, hledger, hledger'⟩ := ledger_leave hg
  -- the stack loses its innermost builder, the list of held builders loses `b`
  have hactive : (play (commands ++ [.leave before.length])).active.reverse =
      (heldBuilders commands).dropLast := by
    rw [play_snoc, after_leave hg, ← h, List.dropLast_reverse]
  rw [Matches, hactive, unwinds_iff hledger]
  simp only [heldBuilders, hledger, hledger', List.filter_append, List.map_append]
  simp only [List.filter_cons_of_pos, List.map_cons, List.filter_cons_of_neg,
    Bool.false_eq_true, not_false_iff]
  rw [List.dropLast_append_of_ne_nil (by simp), List.append_cancel_left_eq, eq_dropLast_cons_iff]
  simp

theorem matches_kept {commands : List Command} {c : Command} (h : Matches commands)
    (hc : c.entered? = none) (active : (c.after (play commands)).active = (play commands).active)
    (guards : (c.after (play commands)).guards = (play commands).guards) :
    Matches (commands ++ [c]) := by
  unfold Matches heldBuilders ledger at h ⊢
  rw [play_snoc, entered_snoc, hc, active, guards, h]
  simp

/-- The stack lists the builders of the held guards if all guards unwound. -/
theorem matches_of_unwound {commands : List Command}
    (h : ∀ before g rest, commands = before ++ .leave g :: rest → (play before).Holds g →
      Unwinds before g) : Matches commands := by
  induction commands using List.reverseRecOn with
  | nil => rfl
  | append_singleton commands c ih =>
    have hmatches : Matches commands := ih fun before g rest heq =>
      h before g (rest ++ [c]) (by rw [heq, List.append_assoc, List.cons_append])
    cases guardStep c (play commands) with
    | entered b => exact matches_enter hmatches b
    | left g hg => exact (matches_leave_iff hmatches hg).2 (h commands g [] rfl hg)
    | kept hc active guards => exact matches_kept hmatches hc active guards

/-- After any run of commands the stack of active builders is as deep as there are guards held, and
holds at each depth the builder that was entered last at this depth. -/
theorem play_nests (commands : List Command) : Nesting commands where
  depth := length_active commands
  entry depth hdepth := getElem?_active commands hdepth
  idle := by rw [current_eq_error_iff, length_active, held_eq_zero_iff]
  innermost b := by
    rw [current_eq_ok_iff, List.getLast?_eq_getElem?, List.length_reverse, length_active]
    by_cases hheld : 0 < (play commands).held
    · rw [getElem?_active commands (by omega), and_iff_right hheld]
    · have hnil : (play commands).active = [] :=
        List.eq_nil_of_length_eq_zero (by rw [length_active]; omega)
      simp [hnil, hheld]
  enters h b := matches_enter h b
  leaves h g hg := matches_leave_iff h hg
  unwound h := by
    have hmatches := matches_of_unwound h
    exact ⟨hmatches, fun b => by rw [current_eq_ok_iff, hmatches]⟩

/-- The first builder is entered once, the second one twice. -/
def nestedCommands : List Command := [.addBuilder, .addBuilder, .enter 0, .enter 1, .enter 1]

/-- The guards of the second builder may come back in any order, that of the first one may not come
back before them. -/
theorem nestedCommands_nest : Matches nestedCommands ∧
    (∀ g < 3, (play nestedCommands).Holds g) ∧
    Matches (nestedCommands ++ [.leave 1]) ∧ ¬Matches (nestedCommands ++ [.leave 0]) := by
  have hmatches : Matches nestedCommands := by decide +kernel
  have hholds : ∀ g < 3, (play nestedCommands).Holds g := by decide +kernel
  refine ⟨hmatches, hholds, ?_, ?_⟩
  · rw [(play_nests nestedCommands).leaves hmatches 1 (hholds 1 (by omega))]
    intro later hlater hlive
    obtain ⟨hlt, -⟩ := Array.getElem?_eq_some_iff.1 hlive
    have hsize : (play nestedCommands).guards.size = 3 := by decide +kernel
    obtain rfl : later = 2 := by omega
    rfl
  · rw [(play_nests nestedCommands).leaves hmatches 0 (hholds 0 (by omega))]
    exact fun h => absurd (h 1 (by omega) (hholds 1 (by omega))) (by decide +kernel)

/-- The first builder is entered, then the second one, and the guard of the first one comes back. -/
def crossedCommands : List Command :=
  [.addBuilder, .addBuilder, .enter 0, .enter 1, .leave 0]

/-- Only the guard of the second builder is held, but the first builder is active. -/
theorem crossedCommands_mismatch :
    (∃ known, Session crossedCommands (play crossedCommands) known) ∧
    heldBuilders crossedCommands = [1] ∧ (play crossedCommands).active = [0] ∧
    ¬Matches crossedCommands ∧ (play crossedCommands).current = .ok 0 := by
  have hsession := Session.step (.leave 0) (.step (.enter 1) (.step (.enter 0)
    (.step .addBuilder (.step .addBuilder .start (by decide)) (by decide)) (by decide +kernel))
    (by decide +kernel)) (by decide +kernel)
  exact ⟨⟨_, hsession⟩, by decide +kernel, by decide +kernel, by decide +kernel, rfl⟩

end Studio

end SynthGraph
