import Mathlib.Data.List.Flatten
import SynthGraph.Proofs.Outlets

/-!
# Parallel calls

A call with vectors among its arguments expands to several calls, and no channel gets lost or comes
from elsewhere. A call is given leaves of the arguments, the leaves of an argument come up in their
order, and only an empty vector stands in the way. Which calls there are can be said outright if
all vectors are flat or if only one argument is a vector.
-/

namespace SynthGraph

/-! ## Signals -/

/-- No vector in the signal is empty. -/
inductive Signal.Filled : Signal → Prop
  | constant (value : Single) : Filled (.constant value)
  | outlet (p : Outlet) : Filled (.outlet p)
  | vector {items : List Signal} (hne : items ≠ []) (h : ∀ s ∈ items, Filled s) :
      Filled (.vector items)

namespace Signal

variable {s : Signal} {items : List Signal}

theorem Filled.of_scalar (h : s.isVector = false) : s.Filled := by
  cases s with
  | constant value => exact .constant value
  | outlet p => exact .outlet p
  | vector items => cases h

theorem Filled.flat (hne : items ≠ []) (h : ∀ s ∈ items, s.isVector = false) :
    (Signal.vector items).Filled :=
  .vector hne fun s hs => .of_scalar (h s hs)

theorem Filled.not_isEmptyVector (h : s.Filled) : s.isEmptyVector = false := by
  cases h with
  | constant => rfl
  | outlet => rfl
  | @vector items hne =>
    cases items with
    | nil => exact absurd rfl hne
    | cons => rfl

theorem Filled.isVector_of_width (h : s.Filled) (hwidth : s.width = 0) : s.isVector = false := by
  cases h with
  | constant => rfl
  | outlet => rfl
  | vector hne => exact absurd (List.eq_nil_of_length_eq_zero hwidth) hne

/-- Items are taken round and round. -/
theorem Filled.getD (h : (Signal.vector items).Filled) (i : Nat) (default : Signal) :
    (items.getD (i % items.length) default).Filled := by
  cases h with
  | vector hne h =>
    have hlt : i % items.length < items.length := Nat.mod_lt _ (List.length_pos_iff.2 hne)
    rw [List.getD_eq_getElem?_getD, List.getElem?_eq_getElem hlt, Option.getD_some]
    exact h _ (List.getElem_mem hlt)

theorem Filled.channel (h : s.Filled) (i : Nat) : (s.channel i).Filled := by
  cases s with
  | constant value => exact .constant value
  | outlet p => exact .outlet p
  | vector items => exact h.getD i _

theorem Filled.leaves_ne_nil (h : s.Filled) : s.leaves ≠ [] := by
  induction h with
  | constant => simp [leaves]
  | outlet => simp [leaves]
  | @vector items hne _ ih =>
    obtain ⟨s, rest, rfl⟩ := List.exists_cons_of_ne_nil hne
    simp [leaves, allLeaves, ih s List.mem_cons_self]

theorem leaves_vector (items : List Signal) : (vector items).leaves = items.flatMap leaves := by
  rw [leaves, allLeaves_eq]

theorem leaves_scalar (h : s.isVector = false) : s.leaves = [s] := by
  cases s with
  | constant value => rfl
  | outlet p => rfl
  | vector items => cases h

/-- The signal is a scalar or a vector of scalars. -/
def IsFlat : Signal → Prop
  | vector items => ∀ s ∈ items, s.isVector = false
  | _ => True

theorem IsFlat.leaves (h : (vector items).IsFlat) : (vector items).leaves = items := by
  have hleaves : ∀ s ∈ items, s.leaves = [s] := fun s hs => leaves_scalar (h s hs)
  rw [leaves_vector, List.flatMap_congr hleaves, List.flatMap_singleton']

theorem not_isVector_of_mem_leaves (s : Signal) {leaf : Signal} (h : leaf ∈ s.leaves) :
    leaf.isVector = false := by
  match s with
  | .constant value =>
    obtain rfl : leaf = _ := by simpa [leaves] using h
    rfl
  | .outlet p =>
    obtain rfl : leaf = _ := by simpa [leaves] using h
    rfl
  | .vector items =>
    rw [leaves_vector] at h
    obtain ⟨t, ht, h⟩ := List.mem_flatMap.1 h
    exact not_isVector_of_mem_leaves t h
termination_by sizeOf s
decreasing_by
  have := List.sizeOf_lt_of_mem ht
  simp only [vector.sizeOf_spec]
  omega

theorem mem_outlets_iff {p : Outlet} : p ∈ s.outlets ↔ .outlet p ∈ s.leaves := by
  rw [outlets, List.mem_filterMap]
  constructor
  · rintro ⟨leaf, hmem, hleaf⟩
    cases leaf with
    | outlet q =>
      cases hleaf
      exact hmem
    | constant value => cases hleaf
    | vector items => cases hleaf
  · exact fun hmem => ⟨_, hmem, rfl⟩

end Signal

/-! ## Arguments -/

namespace Argument

variable {a : Argument} {items : List Signal} {i n : Nat}

/-- What a call may be given for the argument: one of its leaves, or several that stand together if
the argument is variadic. -/
def Takes (a : Argument) (v : Signal) : Prop :=
  v ∈ a.value.leaves ∨
    a.variadic = true ∧ ∃ items, v = .vector items ∧ items ≠ [] ∧ items <:+: a.value.leaves

@[simp] theorem name_pick (a : Argument) (i : Nat) : (a.pick i).name = a.name := by
  unfold pick
  split <;> rfl

@[simp] theorem variadic_pick (a : Argument) (i : Nat) : (a.pick i).variadic = a.variadic := by
  unfold pick
  split <;> rfl

theorem pick_of_spread_none (h : a.spread = none) (i : Nat) : a.pick i = a := by
  unfold pick
  rw [h]

theorem value_pick (h : a.spread = some items) (hi : i < items.length) :
    (a.pick i).value = items[i] := by
  simp [pick, h, Nat.mod_eq_of_lt hi, hi]

theorem width_of_spread (h : a.spread = some items) : a.width = items.length := by
  simp [width, h]

theorem width_of_spread_none (h : a.spread = none) : a.width = 0 := by
  simp [width, h]

theorem spread_scalar (h : a.value.isVector = false) : a.spread = none := by
  unfold spread
  split
  · next items hv =>
    rw [hv] at h
    cases h
  · rfl

theorem spread_ordinary (h : a.variadic = false) (hv : a.value = .vector items) :
    a.spread = some items := by
  simp [spread, hv, h]

/-- An ordinary argument spreads like an operand. -/
theorem width_ordinary (h : a.variadic = false) : a.width = a.value.width := by
  cases hv : a.value with
  | vector items => exact width_of_spread (spread_ordinary h hv)
  | constant value | outlet p => exact width_of_spread_none (spread_scalar (by rw [hv]; rfl))

theorem value_pick_ordinary (h : a.variadic = false) (i : Nat) :
    (a.pick i).value = a.value.channel i := by
  cases hv : a.value with
  | vector items => rw [pick, spread_ordinary h hv, Signal.channel, hv]
  | constant value | outlet p =>
    rw [pick_of_spread_none (spread_scalar (by rw [hv]; rfl)), hv]
    rfl

theorem spread_flat (h : a.variadic = true) (hflat : a.value.IsFlat) : a.spread = none := by
  unfold spread
  split
  · next items hv =>
    rw [hv] at hflat
    have hany : items.any Signal.isVector = false :=
      List.any_eq_false.2 fun s hs => by simp [hflat s hs]
    simp [h, hany]
  · rfl

/-- What is spread no further is a scalar, or a list of scalars that a variadic argument takes. -/
theorem cases_of_spread_none (h : a.spread = none) :
    a.value.isVector = false ∨ a.variadic = true ∧ ∃ items, a.value = .vector items ∧
      ∀ s ∈ items, s.isVector = false := by
  cases hv : a.value with
  | constant value => exact .inl rfl
  | outlet p => exact .inl rfl
  | vector items =>
    have hflat : (a.variadic && !items.any Signal.isVector) = true := by
      by_contra hspreads
      simp [spread, hv, hspreads] at h
    rw [Bool.and_eq_true, Bool.not_eq_true'] at hflat
    refine .inr ⟨hflat.1, items, rfl, fun s hs => ?_⟩
    simpa using List.any_eq_false.1 hflat.2 s hs

/-- Nothing spreads over no calls but an empty vector. -/
theorem spread_of_width (h : a.value.isEmptyVector = false) (hwidth : a.width = 0) :
    a.spread = none := by
  cases hs : a.spread with
  | none => rfl
  | some items =>
    rw [width_of_spread hs] at hwidth
    rw [spread_eq_some hs, List.eq_nil_of_length_eq_zero hwidth] at h
    cases h

theorem filled_pick (h : a.value.Filled) (i : Nat) : (a.pick i).value.Filled := by
  unfold pick
  split
  · next items hs =>
    rw [spread_eq_some hs] at h
    exact h.getD i _
  · exact h

/-- If all calls get something without empty vectors, there were none. -/
theorem filled_of_pick (hne : a.value.isEmptyVector = false) (hn : n ≠ 0) (hwidth : a.width ≤ n)
    (h : ∀ i < n, (a.pick i).value.Filled) : a.value.Filled := by
  cases hs : a.spread with
  | none => simpa [pick_of_spread_none hs] using h 0 (by omega)
  | some items =>
    rw [width_of_spread hs] at hwidth
    rw [spread_eq_some hs] at hne ⊢
    refine .vector (fun hnil => by simp [hnil, Signal.isEmptyVector] at hne) fun s hs' => ?_
    obtain ⟨i, hi, rfl⟩ := List.getElem_of_mem hs'
    rw [← value_pick hs hi]
    exact h i (by omega)

theorem filled_of_spread_none (hne : a.value.isEmptyVector = false) (h : a.spread = none) :
    a.value.Filled := by
  rcases cases_of_spread_none h with hscalar | ⟨-, items, hv, hflat⟩
  · exact .of_scalar hscalar
  · rw [hv] at hne ⊢
    exact .flat (fun hnil => by simp [hnil, Signal.isEmptyVector] at hne) hflat

theorem takes_value (hne : a.value.isEmptyVector = false) (h : a.spread = none) :
    a.Takes a.value := by
  rcases cases_of_spread_none h with hscalar | ⟨hvariadic, items, hv, hflat⟩
  · exact .inl (by simp [Signal.leaves_scalar hscalar])
  · have hleaves : a.value.leaves = items := hv ▸ Signal.IsFlat.leaves hflat
    refine .inr ⟨hvariadic, items, hv, fun hnil => ?_, hleaves ▸ List.infix_rfl⟩
    simp [hv, hnil, Signal.isEmptyVector] at hne

theorem leaves_pick (a : Argument) (i : Nat) : (a.pick i).value.leaves <:+: a.value.leaves := by
  unfold pick
  split
  · next items hs =>
    simp only [List.getD_eq_getElem?_getD]
    cases hi : items[i % items.length]? with
    | none => exact List.infix_rfl
    | some s =>
      rw [spread_eq_some hs, Signal.leaves_vector]
      exact List.infix_flatMap_of_mem (List.mem_of_getElem? hi) Signal.leaves
  · exact List.infix_rfl

theorem Takes.of_pick {v : Signal} (h : (a.pick i).Takes v) : a.Takes v := by
  have hleaves := a.leaves_pick i
  rcases h with hmem | ⟨hvariadic, items, rfl, hne, hitems⟩
  · exact .inl (hleaves.subset hmem)
  · exact .inr ⟨by simpa using hvariadic, items, rfl, hne, hitems.trans hleaves⟩

theorem Takes.leaves_subset {v : Signal} (h : a.Takes v) : v.leaves ⊆ a.value.leaves := by
  rcases h with hmem | ⟨-, items, rfl, -, hitems⟩
  · rw [Signal.leaves_of_mem_leaves _ hmem]
    simpa using hmem
  · have hflat : (Signal.vector items).IsFlat :=
      fun s hs => a.value.not_isVector_of_mem_leaves (hitems.subset hs)
    rw [hflat.leaves]
    exact hitems.subset

theorem Takes.outlets_subset {v : Signal} (h : a.Takes v) : v.outlets ⊆ a.value.outlets := by
  intro p hp
  rw [Signal.mem_outlets_iff] at hp ⊢
  exact h.leaves_subset hp

theorem Takes.not_isVector {v : Signal} (h : a.Takes v) (hordinary : a.variadic = false) :
    v.isVector = false := by
  rcases h with hmem | ⟨hvariadic, -⟩
  · exact a.value.not_isVector_of_mem_leaves hmem
  · rw [hordinary] at hvariadic
    cases hvariadic

theorem value_pick_flat (hflat : a.value.IsFlat) (i : Nat) :
    (a.pick i).value = if a.variadic then a.value else a.value.channel i := by
  split
  · next hvariadic => rw [pick_of_spread_none (spread_flat hvariadic hflat)]
  · next hordinary => exact value_pick_ordinary (by simpa using hordinary) i

theorem spread_pick_flat (hfilled : a.value.Filled) (hflat : a.value.IsFlat) (i : Nat) :
    (a.pick i).spread = none := by
  cases hs : a.spread with
  | none => rw [pick_of_spread_none hs, hs]
  | some items =>
    rw [spread_eq_some hs] at hfilled hflat
    refine spread_scalar ?_
    cases hfilled with
    | vector hne =>
      have hlt : i % items.length < items.length := Nat.mod_lt _ (List.length_pos_iff.2 hne)
      simp [pick, hs, hlt, hflat _ (List.getElem_mem hlt)]

/-- The calls of a vector take its elements one by one. -/
theorem flatMap_leaves_pick (h : a.spread = some items) :
    (List.range items.length).flatMap (fun i => (a.pick i).value.leaves) = a.value.leaves := by
  have hpick : (List.range items.length).map (fun i => (a.pick i).value) = items := by
    refine List.ext_getElem (by simp) fun i hi _ => ?_
    rw [List.getElem_map, List.getElem_range]
    exact value_pick h (by simpa using hi)
  rw [spread_eq_some h, Signal.leaves_vector]
  conv_rhs => rw [← hpick, List.flatMap_map]

/-- The leaves come up in order, whether or not the elements are taken again after that. -/
theorem sublist_leaves_pick (hn : n ≠ 0) (hwidth : a.width ≤ n) :
    a.value.leaves.Sublist ((List.range n).flatMap fun i => (a.pick i).value.leaves) := by
  cases hs : a.spread with
  | none =>
    have hzero : [0].Sublist (List.range n) :=
      List.singleton_sublist.2 (List.mem_range.2 (by omega))
    simpa [pick_of_spread_none hs] using hzero.flatMap fun i => (a.pick i).value.leaves
  | some items =>
    rw [width_of_spread hs] at hwidth
    rw [← flatMap_leaves_pick hs]
    exact (List.range_sublist.2 hwidth).flatMap _

end Argument

/-! ## Calls -/

theorem le_foldr_max {α : Type} {f : α → Nat} {as : List α} {a : α} (ha : a ∈ as) :
    f a ≤ (as.map f).foldr max 0 := by
  induction as with
  | nil => cases ha
  | cons b as ih =>
    rw [List.map_cons, List.foldr_cons]
    rcases List.mem_cons.1 ha with rfl | ha
    · exact Nat.le_max_left _ _
    · exact Nat.le_trans (ih ha) (Nat.le_max_right _ _)

theorem exists_foldr_max {α : Type} {f : α → Nat} {as : List α}
    (h : (as.map f).foldr max 0 ≠ 0) : ∃ a ∈ as, f a = (as.map f).foldr max 0 := by
  induction as with
  | nil => exact absurd rfl h
  | cons b as ih =>
    rw [List.map_cons, List.foldr_cons] at h ⊢
    rcases Nat.le_total ((as.map f).foldr max 0) (f b) with hle | hle
    · exact ⟨b, List.mem_cons_self, (Nat.max_eq_left hle).symm⟩
    · rw [Nat.max_eq_right hle] at h ⊢
      obtain ⟨a, ha, heq⟩ := ih h
      exact ⟨a, List.mem_cons_of_mem _ ha, heq⟩

theorem foldr_max_eq_zero {α : Type} {f : α → Nat} {as : List α} (h : ∀ a ∈ as, f a = 0) :
    (as.map f).foldr max 0 = 0 := by
  by_contra hne
  obtain ⟨a, ha, heq⟩ := exists_foldr_max hne
  exact hne (heq ▸ h a ha)

theorem sublist_flatMap {α β γ : Type} {f : α → List γ} {g : β → List γ} {as : List α}
    {bs : List β} (h : List.Forall₂ (fun a b => (f a).Sublist (g b)) as bs) :
    (as.flatMap f).Sublist (bs.flatMap g) := by
  induction h with
  | nil => exact .slnil
  | cons hhead _ ih =>
    rw [List.flatMap_cons, List.flatMap_cons]
    exact hhead.append ih

namespace Expansion

variable {ugen : String} {args : List Argument} {calls : List (List Signal)} {k : Nat}
  {a : Argument}

theorem width_le (ha : a ∈ args) : a.width ≤ width args :=
  le_foldr_max ha

/-- Nothing spreads any more. -/
theorem spread_of_width (hfind : args.find? (·.value.isEmptyVector) = none)
    (hwidth : width args = 0) (ha : a ∈ args) :
    a.value.isEmptyVector = false ∧ a.spread = none := by
  have hne : a.value.isEmptyVector = false := by simpa using List.find?_eq_none.1 hfind a ha
  have hle := width_le ha
  exact ⟨hne, Argument.spread_of_width hne (by omega)⟩

/-- The calls are those of the columns, one column after the other. -/
theorem forall₂_groups {groups : List (List (List Signal))}
    (h : (List.range (width args)).mapM (fun i => expand ugen (column args i)) = .ok groups) :
    List.Forall₂ (fun i calls => i < width args ∧ expand ugen (column args i) = .ok calls)
      (List.range (width args)) groups :=
  (forall₂_of_mapM h).imp fun _ _ hi => ⟨List.mem_range.1 hi.1, hi.2⟩

theorem exists_expand (ugen : String) (h : ∀ a ∈ args, a.value.Filled) :
    ∃ calls, expand ugen args = .ok calls := by
  fun_induction expand ugen args with
  | case1 args a hfind =>
    have hempty := (h a (List.mem_of_find?_eq_some hfind)).not_isEmptyVector
    rw [List.find?_some hfind] at hempty
    cases hempty
  | case2 args => exact ⟨_, rfl⟩
  | case3 args _ _ ih =>
    have hcolumn : ∀ i, ∃ calls, expand ugen (column args i) = .ok calls := by
      refine fun i => ih i fun a ha => ?_
      obtain ⟨a', ha', rfl⟩ := List.mem_map.1 ha
      exact Argument.filled_pick (h a' ha') i
    obtain ⟨groups, hgroups⟩ := exists_mapM_iff.2
      fun i (_ : i ∈ List.range (width args)) => hcolumn i
    exact ⟨groups.flatten, except_bind_eq_ok.2 ⟨groups, hgroups, rfl⟩⟩

theorem filled_of_expand (h : expand ugen args = .ok calls) : ∀ a ∈ args, a.value.Filled := by
  fun_induction expand ugen args generalizing calls with
  | case1 => cases h
  | case2 args hfind hwidth =>
    intro a ha
    obtain ⟨hne, hspread⟩ := spread_of_width hfind hwidth ha
    exact Argument.filled_of_spread_none hne hspread
  | case3 args hfind hwidth ih =>
    obtain ⟨groups, hgroups, -⟩ := except_bind_eq_ok.1 h
    intro a ha
    have hne : a.value.isEmptyVector = false := by simpa using List.find?_eq_none.1 hfind a ha
    refine Argument.filled_of_pick hne hwidth (width_le ha) fun i hi => ?_
    obtain ⟨group, -, hgroup⟩ := exists_mem_of_mapM hgroups (List.mem_range.2 hi)
    exact ih i hgroup _ (List.mem_map_of_mem ha)

/-- The fault names an argument with an empty vector. -/
theorem fault_of_expand {fault : Fault} (h : expand ugen args = .error fault) :
    ∃ a ∈ args, ¬a.value.Filled ∧ fault = .emptyInput ugen a.name := by
  fun_induction expand ugen args with
  | case1 args a hfind =>
    cases h
    refine ⟨a, List.mem_of_find?_eq_some hfind, fun hfilled => ?_, rfl⟩
    have hempty := hfilled.not_isEmptyVector
    rw [List.find?_some hfind] at hempty
    cases hempty
  | case2 => cases h
  | case3 args _ _ ih =>
    rcases except_bind_eq_error.1 h with hgroups | ⟨groups, -, h⟩
    · obtain ⟨i, -, hfault⟩ := exists_error_of_mapM hgroups
      obtain ⟨a, ha, hempty, rfl⟩ := ih i hfault
      obtain ⟨a', ha', rfl⟩ := List.mem_map.1 ha
      exact ⟨a', ha', fun hfilled => hempty (Argument.filled_pick hfilled i), by simp⟩
    · cases h

/-- A call is given leaves of the arguments, in their order. -/
theorem takes_of_expand (h : expand ugen args = .ok calls) :
    ∀ call ∈ calls, List.Forall₂ Argument.Takes args call := by
  fun_induction expand ugen args generalizing calls with
  | case1 => cases h
  | case2 args hfind hwidth =>
    cases h
    intro call hcall
    obtain rfl := List.mem_singleton.1 hcall
    rw [List.forall₂_map_right_iff, List.forall₂_same]
    intro a ha
    obtain ⟨hne, hspread⟩ := spread_of_width hfind hwidth ha
    exact Argument.takes_value hne hspread
  | case3 args _ _ ih =>
    obtain ⟨groups, hgroups, h⟩ := except_bind_eq_ok.1 h
    cases h
    intro call hcall
    obtain ⟨group, hgroup, hcall⟩ := List.mem_flatten.1 hcall
    obtain ⟨i, -, hi⟩ := exists_of_mem_mapM hgroups hgroup
    have htakes := ih i hi call hcall
    rw [column, List.forall₂_map_left_iff] at htakes
    exact htakes.imp fun a v hv => hv.of_pick

/-- Every call has a value for each argument. -/
theorem length_of_mem_expand (h : expand ugen args = .ok calls) :
    ∀ call ∈ calls, call.length = args.length :=
  fun call hcall => (takes_of_expand h call hcall).length_eq.symm

theorem outlets_expand {known : List Outlet} (hargs : ∀ a ∈ args, a.value.outlets ⊆ known)
    (h : expand ugen args = .ok calls) : ∀ call ∈ calls, ∀ s ∈ call, s.outlets ⊆ known := by
  intro call hcall s hs
  have htakes := takes_of_expand h call hcall
  obtain ⟨k, hk, rfl⟩ := List.getElem_of_mem hs
  have hk' : k < args.length := htakes.length_eq ▸ hk
  exact List.Subset.trans (htakes.get hk' hk).outlets_subset (hargs _ (List.getElem_mem hk'))

/-- What the calls are given for the argument at position `k`. -/
def taken (k : Nat) (calls : List (List Signal)) : List Signal := calls.filterMap (·[k]?)

theorem taken_flatten (k : Nat) (groups : List (List (List Signal))) :
    taken k groups.flatten = groups.flatMap (taken k) := by
  unfold taken
  rw [List.filterMap_flatten]
  rfl

theorem getElem?_column (ha : args[k]? = some a) (i : Nat) :
    (column args i)[k]? = some (a.pick i) := by
  rw [column, List.getElem?_map, ha, Option.map_some]

/-- All leaves of an argument are taken, in their order. -/
theorem sublist_taken (h : expand ugen args = .ok calls) (ha : args[k]? = some a) :
    a.value.leaves.Sublist ((taken k calls).flatMap Signal.leaves) := by
  fun_induction expand ugen args generalizing calls a with
  | case1 => cases h
  | case2 args =>
    cases h
    simp [taken, ha]
  | case3 args _ hwidth ih =>
    obtain ⟨groups, hgroups, h⟩ := except_bind_eq_ok.1 h
    cases h
    have hcolumns : List.Forall₂ (fun i group => (a.pick i).value.leaves.Sublist
        ((taken k group).flatMap Signal.leaves)) (List.range (width args)) groups :=
      (forall₂_groups hgroups).imp fun i group hi => ih i hi.2 (getElem?_column ha i)
    rw [taken_flatten, List.flatMap_assoc]
    exact (Argument.sublist_leaves_pick hwidth (width_le (List.mem_of_getElem? ha))).trans
      (sublist_flatMap hcolumns)

theorem exists_taken (h : expand ugen args = .ok calls) (ha : args[k]? = some a) {leaf : Signal}
    (hleaf : leaf ∈ a.value.leaves) :
    ∃ call ∈ calls, ∃ v, call[k]? = some v ∧ leaf ∈ v.leaves := by
  obtain ⟨v, hv, hleaf⟩ := List.mem_flatMap.1 ((sublist_taken h ha).subset hleaf)
  obtain ⟨call, hcall, hv⟩ := List.mem_filterMap.1 hv
  exact ⟨call, hcall, v, hv, hleaf⟩

/-- A vector among scalars is taken leaf by leaf. -/
theorem taken_of_scalars (h : expand ugen args = .ok calls) (ha : args[k]? = some a)
    (hordinary : a.variadic = false)
    (hscalar : ∀ j a', args[j]? = some a' → j ≠ k → a'.value.isVector = false) :
    taken k calls = a.value.leaves := by
  fun_induction expand ugen args generalizing calls a with
  | case1 => cases h
  | case2 args hfind hwidth =>
    cases h
    obtain ⟨-, hspread⟩ := spread_of_width hfind hwidth (List.mem_of_getElem? ha)
    have hvalue : a.value.isVector = false := by
      rcases Argument.cases_of_spread_none hspread with hvalue | ⟨hvariadic, -⟩
      · exact hvalue
      · rw [hordinary] at hvariadic
        cases hvariadic
    simp [taken, ha, Signal.leaves_scalar hvalue]
  | case3 args hfind hwidth ih =>
    obtain ⟨groups, hgroups, h⟩ := except_bind_eq_ok.1 h
    cases h
    have hothers : ∀ j a', args[j]? = some a' → j ≠ k → a'.spread = none :=
      fun j a' hj hne => Argument.spread_scalar (hscalar j a' hj hne)
    have hcolumn : ∀ i group, expand ugen (column args i) = .ok group →
        taken k group = (a.pick i).value.leaves := by
      intro i group hi
      refine ih i hi (getElem?_column ha i) (by simpa using hordinary) fun j a' hj hne => ?_
      rw [column, List.getElem?_map] at hj
      obtain ⟨other, hother, rfl⟩ := Option.map_eq_some_iff.1 hj
      rw [Argument.pick_of_spread_none (hothers j other hother hne)]
      exact hscalar j other hother hne
    -- only this argument asks for calls
    obtain ⟨widest, hmem, hwidest⟩ := exists_foldr_max hwidth
    obtain ⟨j, hj⟩ := List.getElem?_of_mem hmem
    obtain rfl : j = k := by
      by_contra hne
      rw [Argument.width_of_spread_none (hothers j widest hj hne)] at hwidest
      exact hwidth hwidest.symm
    obtain rfl : a = widest := Option.some.inj (ha.symm.trans hj)
    cases hspread : a.spread with
    | none =>
      rw [Argument.width_of_spread_none hspread] at hwidest
      exact absurd hwidest.symm hwidth
    | some items =>
      have hcount : width args = items.length :=
        hwidest.symm.trans (Argument.width_of_spread hspread)
      have hgroup := map_of_mapM (fun i _ => hcolumn i) hgroups
      rw [taken_flatten, List.flatMap_def, hgroup, ← List.flatMap_def, hcount]
      exact Argument.flatMap_leaves_pick hspread

/-! ## Flat vectors -/

/-- The lengths of the vectors that expand. -/
def lengths (args : List Argument) : List Nat :=
  (args.filter fun a => !a.variadic && a.value.isVector).map (·.value.channelCount)

/-- The values of the `i`-th call if all vectors are flat. -/
def row (args : List Argument) (i : Nat) : List Signal :=
  args.map fun a => if a.variadic then a.value else a.value.channel i

theorem expand_of_spread_none (ugen : String) (hne : ∀ a ∈ args, a.value.isEmptyVector = false)
    (h : ∀ a ∈ args, a.spread = none) : expand ugen args = .ok [args.map (·.value)] := by
  have hfind : args.find? (·.value.isEmptyVector) = none :=
    List.find?_eq_none.2 fun a ha => by simp [hne a ha]
  have hwidth : width args = 0 :=
    foldr_max_eq_zero fun a ha => Argument.width_of_spread_none (h a ha)
  rw [expand, hfind]
  simp [hwidth]

/-- After one round nothing is left to spread. -/
theorem expand_column (ugen : String) (hfilled : ∀ a ∈ args, a.value.Filled)
    (hflat : ∀ a ∈ args, a.value.IsFlat) (i : Nat) :
    expand ugen (column args i) = .ok [row args i] := by
  have hvalues : (column args i).map (·.value) = row args i := by
    rw [column, List.map_map]
    exact List.map_congr_left fun a ha => Argument.value_pick_flat (hflat a ha) i
  rw [← hvalues]
  refine expand_of_spread_none ugen (fun a ha => ?_) fun a ha => ?_
  · obtain ⟨a', ha', rfl⟩ := List.mem_map.1 ha
    exact (Argument.filled_pick (hfilled a' ha') i).not_isEmptyVector
  · obtain ⟨a', ha', rfl⟩ := List.mem_map.1 ha
    exact Argument.spread_pick_flat (hfilled a' ha') (hflat a' ha') i

theorem lengths_of_width (hfind : args.find? (·.value.isEmptyVector) = none)
    (hwidth : width args = 0) : lengths args = [] := by
  refine List.map_eq_nil_iff.2 (List.filter_eq_nil_iff.2 fun a ha hexpands => ?_)
  obtain ⟨-, hspread⟩ := spread_of_width hfind hwidth ha
  rw [Bool.and_eq_true, Bool.not_eq_true'] at hexpands
  rcases Argument.cases_of_spread_none hspread with hscalar | ⟨hvariadic, -⟩
  · rw [hscalar] at hexpands
    cases hexpands.2
  · rw [hvariadic] at hexpands
    cases hexpands.1

theorem max?_lengths (hflat : ∀ a ∈ args, a.value.IsFlat) (hwidth : width args ≠ 0) :
    (lengths args).max? = some (width args) := by
  refine List.max?_eq_some_iff.2 ⟨?_, fun count hcount => ?_⟩
  · obtain ⟨a, ha, heq⟩ := exists_foldr_max hwidth
    cases hspread : a.spread with
    | none =>
      rw [Argument.width_of_spread_none hspread] at heq
      exact absurd heq.symm hwidth
    | some items =>
      have hordinary : a.variadic = false := by
        by_contra hvariadic
        rw [Argument.spread_flat (by simpa using hvariadic) (hflat a ha)] at hspread
        cases hspread
      have hvalue := Argument.spread_eq_some hspread
      refine List.mem_map.2 ⟨a, List.mem_filter.2 ⟨ha, ?_⟩, ?_⟩
      · simp [hordinary, hvalue, Signal.isVector]
      · rw [hvalue, Signal.channelCount, ← Argument.width_of_spread hspread]
        exact heq
  · obtain ⟨a, ha, rfl⟩ := List.mem_map.1 hcount
    obtain ⟨ha, hexpands⟩ := List.mem_filter.1 ha
    rw [Bool.and_eq_true, Bool.not_eq_true'] at hexpands
    cases hvalue : a.value with
    | constant value => simp [hvalue, Signal.isVector] at hexpands
    | outlet p => simp [hvalue, Signal.isVector] at hexpands
    | vector items =>
      have hle := width_le ha
      rwa [Argument.width_of_spread (Argument.spread_ordinary hexpands.1 hvalue)] at hle

/-- With flat vectors there is a call for each element of the longest, and the others are taken
round and round. -/
theorem expand_flat (h : expand ugen args = .ok calls) (hflat : ∀ a ∈ args, a.value.IsFlat) :
    calls = (List.range ((lengths args).max?.getD 1)).map (row args) := by
  have hfilled := filled_of_expand h
  rw [expand] at h
  cases hfind : args.find? (·.value.isEmptyVector) with
  | some a =>
    rw [hfind] at h
    cases h
  | none =>
    rw [hfind] at h
    by_cases hwidth : width args = 0
    · have hrow : args.map (·.value) = row args 0 := by
        refine List.map_congr_left fun a ha => ?_
        obtain ⟨-, hspread⟩ := spread_of_width hfind hwidth ha
        rw [← Argument.value_pick_flat (hflat a ha), Argument.pick_of_spread_none hspread]
      simp only [hwidth, dite_true] at h
      cases h
      rw [lengths_of_width hfind hwidth, hrow]
      rfl
    · simp only [hwidth, dite_false] at h
      obtain ⟨groups, hgroups, h⟩ := except_bind_eq_ok.1 h
      cases h
      have hgroup := map_of_mapM (g := id) (h := fun i => [row args i])
        (fun i _ group hi => Except.ok.inj (hi.symm.trans (expand_column ugen hfilled hflat i)))
        hgroups
      rw [List.map_id] at hgroup
      rw [max?_lengths hflat hwidth, Option.getD_some, hgroup, ← List.flatMap_def,
        List.map_eq_flatMap]

/-! ## All together -/

/-- An expansion fails if and only if there is an empty vector in an argument, and names such an
argument. Otherwise every call takes leaves of the arguments, one for each that expands and one or
more that stand together for a variadic one, and all leaves of an argument are taken in their order.
If all vectors are flat, there is a call for each element of the longest one that expands, and the
others are taken round and round. One that expands among scalars is taken leaf by leaf. -/
theorem expand_keeps_channels (ugen : String) (args : List Argument) :
    ((∃ fault, expand ugen args = .error fault) ↔ ∃ a ∈ args, ¬a.value.Filled) ∧
    (∀ fault, expand ugen args = .error fault →
      ∃ a ∈ args, ¬a.value.Filled ∧ fault = .emptyInput ugen a.name) ∧
    ∀ calls, expand ugen args = .ok calls →
      (∀ call ∈ calls, List.Forall₂ Argument.Takes args call) ∧
      (∀ (k : Nat) (a : Argument), args[k]? = some a →
        a.value.leaves.Sublist ((taken k calls).flatMap Signal.leaves)) ∧
      ((∀ a ∈ args, a.value.IsFlat) →
        calls = (List.range ((lengths args).max?.getD 1)).map (row args)) ∧
      ∀ (k : Nat) (a : Argument), args[k]? = some a → a.variadic = false →
        (∀ (j : Nat) (a' : Argument), args[j]? = some a' → j ≠ k → a'.value.isVector = false) →
        taken k calls = a.value.leaves := by
  refine ⟨⟨?_, ?_⟩, fun fault => fault_of_expand, fun calls h => ⟨takes_of_expand h, ?_, ?_, ?_⟩⟩
  · rintro ⟨fault, h⟩
    obtain ⟨a, ha, hempty, -⟩ := fault_of_expand h
    exact ⟨a, ha, hempty⟩
  · rintro ⟨a, ha, hempty⟩
    cases h : expand ugen args with
    | error fault => exact ⟨fault, rfl⟩
    | ok calls => exact absurd (filled_of_expand h a ha) hempty
  · exact fun k a ha => sublist_taken h ha
  · exact fun hflat => expand_flat h hflat
  · exact fun k a ha hordinary hscalar => taken_of_scalars h ha hordinary hscalar

end Expansion

/-- A chord of two notes and one, with a phase. -/
def chordArguments : List Argument :=
  [⟨"frequency", .vector [.vector [.constant 1, .constant 2], .constant 3], false⟩,
    ⟨"phase", .constant 0, false⟩]

/-- A chord with a rest in it. -/
def restArguments : List Argument :=
  [⟨"frequency", .vector [.vector [.constant 1, .vector []], .constant 3], false⟩]

/-- The chord is played note by note, and the rest is a fault. -/
theorem chordArguments_keep_channels :
    (∃ calls, Expansion.expand "SinOsc" chordArguments = .ok calls ∧
      Expansion.taken 0 calls = [.constant 1, .constant 2, .constant 3]) ∧
    Expansion.expand "SinOsc" restArguments = .error (.emptyInput "SinOsc" "frequency") := by
  constructor
  · obtain ⟨hfails, -, hcalls⟩ := Expansion.expand_keeps_channels "SinOsc" chordArguments
    cases h : Expansion.expand "SinOsc" chordArguments with
    | error fault =>
      have hfilled : ∀ a ∈ chordArguments, a.value.Filled := by
        have hpair : (Signal.vector [.constant 1, .constant 2]).Filled :=
          .flat (by simp) (by simp [Signal.isVector])
        simp only [chordArguments, List.forall_mem_cons]
        refine ⟨.vector (by simp) ?_, .constant 0, by simp⟩
        simpa [hpair] using Signal.Filled.constant 3
      obtain ⟨a, ha, hempty⟩ := hfails.1 ⟨fault, h⟩
      exact absurd (hfilled a ha) hempty
    | ok calls =>
      obtain ⟨-, -, -, hsingle⟩ := hcalls calls h
      refine ⟨calls, rfl, (hsingle 0 _ rfl rfl fun j a hj hne => ?_).trans (by rfl)⟩
      rcases j with _ | _ | j
      · exact absurd rfl hne
      · cases hj
        rfl
      · cases hj
  · obtain ⟨hfails, hfault, -⟩ := Expansion.expand_keeps_channels "SinOsc" restArguments
    have hempty : ¬(restArguments.head (by simp [restArguments])).value.Filled := by
      rintro (_ | _ | ⟨-, hitems⟩)
      have hpair := hitems _ List.mem_cons_self
      cases hpair with
      | vector _ hpair =>
        have hrest := (hpair (.vector []) (by simp)).not_isEmptyVector
        cases hrest
    obtain ⟨fault, h⟩ := hfails.2 ⟨_, List.head_mem _, hempty⟩
    obtain ⟨a, ha, -, rfl⟩ := hfault fault h
    obtain rfl := List.mem_singleton.1 ha
    exact h

end SynthGraph
