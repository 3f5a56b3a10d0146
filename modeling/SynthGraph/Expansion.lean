import SynthGraph.Fault
import SynthGraph.Signal

/-!
# Multichannel expansion

A call with vectors among its arguments becomes several parallel calls. There are as many as the
longest vector has elements, shorter ones are taken cyclically, and the step repeats until no
argument is spread any more. A variadic argument takes a flat list as it is and spreads only if the
list holds vectors itself.
-/

namespace SynthGraph

/-- An argument of a call that may expand. -/
structure Argument where
  name : String
  value : Signal
  variadic : Bool := false
  deriving Repr

namespace Argument

/-- The elements the argument spreads over parallel calls, if it spreads. -/
def spread (a : Argument) : Option (List Signal) :=
  match a.value with
  | .vector items => if a.variadic && !items.any Signal.isVector then none else some items
  | _ => none

/-- How many calls the argument asks for. -/
def width (a : Argument) : Nat := (a.spread.map List.length).getD 0

/-- The argument of the `i`-th parallel call. -/
def pick (a : Argument) (i : Nat) : Argument :=
  match a.spread with
  | some items => { a with value := items.getD (i % items.length) a.value }
  | none => a

theorem spread_eq_some {a : Argument} {items : List Signal} (h : a.spread = some items) :
    a.value = .vector items := by
  unfold spread at h
  split at h
  · split at h <;> simp_all
  · simp at h

theorem sizeOf_pick_le (a : Argument) (i : Nat) : sizeOf (a.pick i).value ≤ sizeOf a.value := by
  unfold pick
  split
  · rename_i items h
    have hv := spread_eq_some h
    simp only [List.getD_eq_getElem?_getD]
    cases hi : items[i % items.length]? with
    | none => simp
    | some s =>
      have := List.sizeOf_lt_of_mem (List.mem_of_getElem? hi)
      rw [hv]
      simp only [Option.getD_some, Signal.vector.sizeOf_spec]
      omega
  · exact Nat.le_refl _

theorem sizeOf_pick_lt {a : Argument} (h : 0 < a.width) (i : Nat) :
    sizeOf (a.pick i).value < sizeOf a.value := by
  unfold width at h
  unfold pick
  split
  · rename_i items hs
    have hv := spread_eq_some hs
    have hlen : 0 < items.length := by simpa [hs] using h
    have hi : i % items.length < items.length := Nat.mod_lt _ hlen
    have := List.sizeOf_lt_of_mem (List.getElem_mem hi)
    rw [hv]
    simp only [List.getD_eq_getElem?_getD, List.getElem?_eq_getElem hi, Option.getD_some,
      Signal.vector.sizeOf_spec]
    omega
  · rename_i hs
    simp [hs] at h

end Argument

namespace Expansion

/-- The number of parallel calls, zero if nothing spreads. -/
def width (args : List Argument) : Nat := (args.map Argument.width).foldr max 0

/-- The arguments of the `i`-th parallel call. -/
def column (args : List Argument) (i : Nat) : List Argument := args.map (·.pick i)

theorem sizeOf_column_le (args : List Argument) (i : Nat) :
    sizeOf ((column args i).map (·.value)) ≤ sizeOf (args.map (·.value)) := by
  induction args with
  | nil => simp [column]
  | cons a rest ih =>
    have := a.sizeOf_pick_le i
    simp only [column, List.map_cons, List.cons.sizeOf_spec] at ih ⊢
    omega

theorem sizeOf_column_lt {args : List Argument} (h : width args ≠ 0) (i : Nat) :
    sizeOf ((column args i).map (·.value)) < sizeOf (args.map (·.value)) := by
  induction args with
  | nil => simp [width] at h
  | cons a rest ih =>
    have ha := a.sizeOf_pick_le i
    have hr := sizeOf_column_le rest i
    simp only [column, List.map_cons, List.cons.sizeOf_spec] at hr ih ⊢
    by_cases hw : 0 < a.width
    · have := Argument.sizeOf_pick_lt hw i
      omega
    · have := ih (by simp only [width, List.map_cons, List.foldr_cons] at h ⊢; omega)
      omega

/-- The parallel calls a call of `ugen` expands to; an empty vector anywhere is a fault. -/
def expand (ugen : String) (args : List Argument) : Except Fault (List (List Signal)) :=
  match args.find? (·.value.isEmptyVector) with
  | some a => .error (.emptyInput ugen a.name)
  | none =>
    if _h : width args = 0 then .ok [args.map (·.value)]
    else do
      let calls ← (List.range (width args)).mapM fun i => expand ugen (column args i)
      return calls.flatten
termination_by sizeOf (args.map (·.value))
decreasing_by exact sizeOf_column_lt _h i

end Expansion

end SynthGraph
