import SynthGraph.Arithmetic
import SynthGraph.Proofs.Basic

/-!
# The outlets in a signal

`Signal.outlets` lists the generator outputs that a signal is made of. Taking a channel or a leaf
never brings in another outlet, so an operation can only read outlets that it was given.
-/

namespace SynthGraph

namespace Signal

/-- The outlets among the leaves. -/
def outlets (s : Signal) : List Outlet := s.leaves.filterMap asOutlet

@[simp] theorem outlets_constant (value : Single) : (constant value).outlets = [] := rfl

@[simp] theorem outlets_outlet (p : Outlet) : (outlet p).outlets = [p] := rfl

theorem allLeaves_eq (items : List Signal) : allLeaves items = items.flatMap leaves := by
  induction items with
  | nil => rfl
  | cons s rest ih => rw [allLeaves, List.flatMap_cons, ih]

@[simp] theorem outlets_vector (items : List Signal) :
    (vector items).outlets = items.flatMap outlets := by
  rw [outlets, leaves, allLeaves_eq, List.filterMap_flatMap]
  rfl

theorem outlets_subset_vector {s : Signal} {items : List Signal} (h : s ∈ items) :
    s.outlets ⊆ (vector items).outlets := by
  rw [outlets_vector]
  exact fun p hp => List.mem_flatMap.2 ⟨s, h, hp⟩

@[simp] theorem outlets_collapse (items : List Signal) :
    (collapse items).outlets = items.flatMap outlets := by
  unfold collapse
  split
  · simp
  · simp

mutual

theorem leaves_of_mem_leaves (s : Signal) {leaf : Signal} (h : leaf ∈ s.leaves) :
    leaf.leaves = [leaf] := by
  cases s with
  | constant value =>
    obtain rfl : leaf = _ := by simpa [leaves] using h
    rfl
  | outlet p =>
    obtain rfl : leaf = _ := by simpa [leaves] using h
    rfl
  | vector items => exact leaves_of_mem_allLeaves items (by simpa [leaves] using h)

theorem leaves_of_mem_allLeaves (items : List Signal) {leaf : Signal}
    (h : leaf ∈ allLeaves items) : leaf.leaves = [leaf] := by
  cases items with
  | nil => simp [allLeaves] at h
  | cons s rest =>
    rw [allLeaves] at h
    rcases List.mem_append.1 h with h | h
    · exact leaves_of_mem_leaves s h
    · exact leaves_of_mem_allLeaves rest h

end

theorem outlets_leaf_subset {s leaf : Signal} (h : leaf ∈ s.leaves) :
    leaf.outlets ⊆ s.outlets := by
  intro p hp
  rw [outlets, leaves_of_mem_leaves s h, List.mem_filterMap] at hp
  obtain ⟨t, ht, hp⟩ := hp
  obtain rfl := List.mem_singleton.1 ht
  exact List.mem_filterMap.2 ⟨t, h, hp⟩

theorem outlets_channel_subset (s : Signal) (i : Nat) : (s.channel i).outlets ⊆ s.outlets := by
  unfold channel
  split
  · next items =>
    rw [List.getD_eq_getElem?_getD]
    cases hi : items[i % items.length]? with
    | none => exact List.Subset.refl _
    | some t => exact outlets_subset_vector (List.mem_of_getElem? hi)
  · exact List.Subset.refl _

end Signal

end SynthGraph
