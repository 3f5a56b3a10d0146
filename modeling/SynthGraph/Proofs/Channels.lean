import SynthGraph.Proofs.Evaluation

/-!
# Operators channel by channel

Calls and operators treat vectors in two ways. A call is cut into a list of calls before its first
node is made (`Expansion.expand`). An operator makes nodes while it goes through the channels, and
its result is nested like the operands (`Build.perChannel`). Both come by the same scalars in the
same order, so an operator on vectors does what it does on the tuples of the expansion, one after
the other.
-/

namespace SynthGraph

namespace Build

variable {α β : Type} {b b' : Builder}

/-! ## Sequences of operations -/

theorem exec_mapM_cons {f : α → Build β} {a : α} {as : List α} {rs : List β} :
    ((a :: as).mapM f).exec b = (.ok rs, b') ↔ ∃ r rest c, (f a).exec b = (.ok r, c) ∧
      (as.mapM f).exec c = (.ok rest, b') ∧ r :: rest = rs := by
  simp only [List.mapM_cons, exec_bind_eq_ok, exec_pure_eq_ok]
  constructor
  · rintro ⟨r, c, hr, rest, d, hrest, hrs, rfl⟩
    exact ⟨r, rest, c, hr, hrest, hrs⟩
  · rintro ⟨r, rest, c, hr, hrest, hrs⟩
    exact ⟨r, c, hr, rest, b', hrest, hrs, rfl⟩

theorem exec_mapM_append {f : α → Build β} {as as' : List α} {rs : List β} :
    ((as ++ as').mapM f).exec b = (.ok rs, b') ↔ ∃ rs₁ rs₂ c, (as.mapM f).exec b = (.ok rs₁, c) ∧
      (as'.mapM f).exec c = (.ok rs₂, b') ∧ rs₁ ++ rs₂ = rs := by
  simp only [List.mapM_append, exec_bind_eq_ok, exec_pure_eq_ok]
  constructor
  · rintro ⟨rs₁, c, h₁, rs₂, d, h₂, hrs, rfl⟩
    exact ⟨rs₁, rs₂, c, h₁, h₂, hrs⟩
  · rintro ⟨rs₁, rs₂, c, h₁, h₂, hrs⟩
    exact ⟨rs₁, c, h₁, rs₂, b', h₂, hrs, rfl⟩

theorem mapM_congr {f g : α → Build β} {as : List α} (h : ∀ a ∈ as, f a = g a) :
    as.mapM f = as.mapM g := by
  induction as with
  | nil => rfl
  | cons a as ih =>
    rw [List.mapM_cons, List.mapM_cons, h a List.mem_cons_self,
      ih fun a' ha' => h a' (List.mem_cons_of_mem _ ha')]

theorem appends_mapM {f : α → Build β} {as : List α}
    (h : ∀ a ∈ as, ∀ b r b', (f a).exec b = (.ok r, b') → b.Appends b') {rs : List β}
    (hexec : (as.mapM f).exec b = (.ok rs, b')) : b.Appends b' := by
  induction as generalizing b rs with
  | nil =>
    cases hexec
    exact .refl _
  | cons a as ih =>
    obtain ⟨r, rest, c, hr, hrest, -⟩ := exec_mapM_cons.1 hexec
    refine (h a List.mem_cons_self b r c hr).trans (ih (fun a' ha' => ?_) hrest)
    exact h a' (List.mem_cons_of_mem _ ha')

/-! ## Visiting the tuples of an expansion -/

/-- The operation succeeds exactly if there are tuples and `scalar` succeeds on one after the other.
It leaves the same builder, and the results for the tuples are the leaves of its own. -/
def Traverses (scalar : List Signal → Build Signal) (tuples : Except Fault (List (List Signal)))
    (x : Build Signal) : Prop :=
  ∀ b results b', (∃ s, x.exec b = (.ok s, b') ∧ s.leaves = results) ↔
    ∃ calls, tuples = .ok calls ∧ (calls.mapM scalar).exec b = (.ok results, b')

namespace Traverses

variable {scalar : List Signal → Build Signal}

theorem congr {scalar' : List Signal → Build Signal} {x : Build Signal}
    {tuples : Except Fault (List (List Signal))} (h : Traverses scalar tuples x)
    (hscalar : ∀ calls, tuples = .ok calls → ∀ values ∈ calls, scalar' values = scalar values) :
    Traverses scalar' tuples x := by
  intro b results b'
  rw [h b results b']
  refine exists_congr fun calls => and_congr_right fun hcalls => ?_
  rw [mapM_congr (hscalar calls hcalls)]

theorem throw (fault fault' : Fault) :
    Traverses scalar (.error fault) (throw fault' : Build Signal) := by
  intro b results b'
  refine iff_of_false ?_ ?_
  · rintro ⟨s, h, -⟩
    cases h
  · rintro ⟨calls, h, -⟩
    cases h

theorem single {values : List Signal}
    (h : ∀ b s b', (scalar values).exec b = (.ok s, b') → s.isVector = false) :
    Traverses scalar (.ok [values]) (scalar values) := by
  intro b results b'
  constructor
  · rintro ⟨s, hs, rfl⟩
    refine ⟨_, rfl, exec_mapM_cons.2 ⟨s, [], b', hs, rfl, ?_⟩⟩
    rw [Signal.leaves_scalar (h b s b' hs)]
  · rintro ⟨calls, hcalls, hexec⟩
    cases hcalls
    obtain ⟨s, rest, c, hs, hrest, rfl⟩ := exec_mapM_cons.1 hexec
    cases hrest
    exact ⟨s, hs, Signal.leaves_scalar (h b s b' hs)⟩

/-- The tuples of all channels in one list are visited like those of one channel after the other. -/
theorem groups {f : Nat → Build Signal} {g : Nat → Except Fault (List (List Signal))}
    {is : List Nat} (h : ∀ i ∈ is, Traverses scalar (g i) (f i)) (b : Builder)
    (results : List Signal) (b' : Builder) :
    (∃ rs, (is.mapM f).exec b = (.ok rs, b') ∧ rs.flatMap Signal.leaves = results) ↔
      ∃ groups, is.mapM g = .ok groups ∧
        (groups.flatten.mapM scalar).exec b = (.ok results, b') := by
  induction is generalizing b results with
  | nil =>
    constructor
    · rintro ⟨rs, hrs, rfl⟩
      cases hrs
      exact ⟨[], rfl, rfl⟩
    · rintro ⟨groups, hgroups, hexec⟩
      cases hgroups
      cases hexec
      exact ⟨[], rfl, rfl⟩
  | cons i is ih =>
    have hfirst := h i List.mem_cons_self
    have hrest := ih fun j hj => h j (List.mem_cons_of_mem _ hj)
    constructor
    · rintro ⟨rs, hrs, rfl⟩
      obtain ⟨s, rest, c, hs, hrest', rfl⟩ := exec_mapM_cons.1 hrs
      obtain ⟨calls, hcalls, hexec⟩ := (hfirst b s.leaves c).1 ⟨s, hs, rfl⟩
      obtain ⟨groups, hgroups, hexec'⟩ := (hrest c _).1 ⟨rest, hrest', rfl⟩
      refine ⟨calls :: groups, ?_, exec_mapM_append.2 ⟨_, _, c, hexec, hexec', rfl⟩⟩
      rw [List.mapM_cons, hcalls, hgroups]
      rfl
    · rintro ⟨_, hmap, hexec⟩
      rw [List.mapM_cons] at hmap
      obtain ⟨calls, hcalls, hmap⟩ := except_bind_eq_ok.1 hmap
      obtain ⟨groups, hgroups, hmap⟩ := except_bind_eq_ok.1 hmap
      cases hmap
      obtain ⟨rs₁, rs₂, c, hexec₁, hexec₂, rfl⟩ := exec_mapM_append.1 hexec
      obtain ⟨s, hs, rfl⟩ := (hfirst b rs₁ c).2 ⟨calls, hcalls, hexec₁⟩
      obtain ⟨rest, hrest', rfl⟩ := (hrest c rs₂).2 ⟨groups, hgroups, hexec₂⟩
      exact ⟨s :: rest, exec_mapM_cons.2 ⟨s, rest, c, hs, hrest', rfl⟩, rfl⟩

/-- One channel after the other. -/
theorem channels {f : Nat → Build Signal} {g : Nat → Except Fault (List (List Signal))}
    {is : List Nat} (h : ∀ i ∈ is, Traverses scalar (g i) (f i)) :
    Traverses scalar (is.mapM g >>= fun groups => pure groups.flatten)
      (is.mapM f >>= fun rs => pure (.vector rs)) := by
  intro b results b'
  have hleaves : (∃ s : Signal, (is.mapM f >>= fun rs => pure (Signal.vector rs)).exec b =
      (.ok s, b') ∧ s.leaves = results) ↔
      ∃ rs, (is.mapM f).exec b = (.ok rs, b') ∧ rs.flatMap Signal.leaves = results := by
    simp only [exec_bind_eq_ok, exec_pure_eq_ok]
    constructor
    · rintro ⟨s, ⟨rs, c, hrs, rfl, rfl⟩, hs⟩
      exact ⟨rs, hrs, Signal.leaves_vector rs ▸ hs⟩
    · rintro ⟨rs, hrs, hs⟩
      exact ⟨_, ⟨rs, b', hrs, rfl, rfl⟩, (Signal.leaves_vector rs).trans hs⟩
  rw [hleaves, groups h b results b']
  simp only [except_bind_eq_ok]
  constructor
  · rintro ⟨groups, hgroups, hexec⟩
    exact ⟨_, ⟨groups, hgroups, rfl⟩, hexec⟩
  · rintro ⟨_, ⟨groups, hgroups, hflat⟩, hexec⟩
    cases hflat
    exact ⟨groups, hgroups, hexec⟩

end Traverses

end Build

/-! ## Ordinary arguments -/

namespace Expansion

variable {args : List Argument}

theorem width_ordinary (h : ∀ a ∈ args, a.variadic = false) :
    width args = Operands.width (args.map (·.value)) := by
  rw [width, Operands.width, List.map_map]
  exact congrArg _ (List.map_congr_left fun a ha => Argument.width_ordinary (h a ha))

theorem column_ordinary (h : ∀ a ∈ args, a.variadic = false) (i : Nat) :
    (column args i).map (·.value) = Operands.channel (args.map (·.value)) i := by
  rw [column, Operands.channel, List.map_map, List.map_map]
  exact List.map_congr_left fun a ha => Argument.value_pick_ordinary (h a ha) i

end Expansion

/-- The channels of the operands hold the tuples that ordinary arguments expand to. The names are
for faults only and may differ. -/
theorem Build.perChannel_traverses (ugen ugen' : String) {scalar : List Signal → Build Signal}
    {args : List Argument} (hordinary : ∀ a ∈ args, a.variadic = false)
    (hscalar : ∀ values, values.length = args.length → (∀ v ∈ values, v.isVector = false) →
      ∀ b s b', (scalar values).exec b = (.ok s, b') → s.isVector = false) :
    Traverses scalar (Expansion.expand ugen args)
      (perChannel ugen' scalar (args.map (·.value))) := by
  fun_induction Expansion.expand ugen args with
  | case1 args a hfind =>
    have hany : (args.map (·.value)).any Signal.isEmptyVector := by
      rw [List.any_map]
      exact List.any_eq_true.2 ⟨a, List.mem_of_find?_eq_some hfind, List.find?_some hfind⟩
    rw [perChannel, if_pos hany]
    exact .throw _ _
  | case2 args hfind hwidth =>
    have hvalues : ∀ v ∈ args.map (·.value), v.isVector = false := by
      refine List.forall_mem_map.2 fun a ha => ?_
      obtain ⟨-, hspread⟩ := Expansion.spread_of_width hfind hwidth ha
      rcases Argument.cases_of_spread_none hspread with h | ⟨hvariadic, -⟩
      · exact h
      · cases hvariadic.symm.trans (hordinary a ha)
    rw [perChannel_scalars _ _ hvalues]
    exact .single (hscalar _ (List.length_map _) hvalues)
  | case3 args hfind hwidth ih =>
    have hany : ¬(args.map (·.value)).any Signal.isEmptyVector := by
      rw [List.any_map, List.any_eq_true]
      rintro ⟨a, ha, hempty⟩
      exact List.find?_eq_none.1 hfind a ha hempty
    -- there are as many columns as channels, and a column holds the operands of a channel
    have hwidth' := Expansion.width_ordinary hordinary
    rw [perChannel, if_neg hany, dif_neg (hwidth' ▸ hwidth), ← hwidth']
    refine .channels fun i _ => ?_
    rw [← Expansion.column_ordinary hordinary]
    refine ih i (List.forall_mem_map.2 fun a ha => ?_) fun values hlength => ?_
    · rw [Argument.variadic_pick]
      exact hordinary a ha
    · exact hscalar values (hlength.trans (List.length_map _))

/-! ## Operators -/

namespace Request

variable {r : Request} {b b' : Builder} {values : List Signal}

/-- The operands as ordinary arguments. -/
def arguments (r : Request) : List Argument :=
  r.operands.map fun s => { name := "operand", value := s }

/-- The same operator on other operands. -/
def withOperands : Request → List Signal → Request
  | unary op _, [x] => unary op x
  | binary op _ _, [x, y] => binary op x y
  | mulAdd .., [x, y, z] => mulAdd x y z
  | sum3 .., [x, y, z] => sum3 x y z
  | sum4 .., [x, y, z, w] => sum4 x y z w
  | r, _ => r

/-- The same operation on the operands of one channel. -/
def onTuple (r : Request) (values : List Signal) : Build Signal :=
  (r.withOperands values).operation.action

theorem operands_withOperands (h : values.length = r.operands.length) :
    (r.withOperands values).operands = values := by
  cases r with
  | unary op x =>
    obtain ⟨x, rfl⟩ := List.length_eq_one_iff.1 h
    rfl
  | binary op x y =>
    obtain ⟨x, y, rfl⟩ := List.length_eq_two.1 h
    rfl
  | mulAdd x y z | sum3 x y z =>
    obtain ⟨x, y, z, rfl⟩ := List.length_eq_three.1 h
    rfl
  | sum4 x y z w =>
    obtain ⟨x, rest, rfl⟩ := List.exists_cons_of_length_eq_add_one h
    obtain ⟨y, z, w, rfl⟩ := List.length_eq_three.1 (Nat.succ.inj h)
    rfl

/-- An operation takes its operator to every channel. -/
theorem operation_eq (r : Request) : ∃ scalar,
    r.operation.action = Build.perChannel r.call.descriptor.name scalar r.operands ∧
    ∀ values, values.length = r.operands.length →
      scalar values = (r.withOperands values).action := by
  cases r with
  | unary op x =>
    refine ⟨_, rfl, fun values h => ?_⟩
    obtain ⟨x, rfl⟩ := List.length_eq_one_iff.1 h
    rfl
  | binary op x y =>
    refine ⟨_, rfl, fun values h => ?_⟩
    obtain ⟨x, y, rfl⟩ := List.length_eq_two.1 h
    rfl
  | mulAdd x y z | sum3 x y z =>
    refine ⟨_, rfl, fun values h => ?_⟩
    obtain ⟨x, y, z, rfl⟩ := List.length_eq_three.1 h
    rfl
  | sum4 x y z w =>
    refine ⟨_, rfl, fun values h => ?_⟩
    obtain ⟨x, rest, rfl⟩ := List.exists_cons_of_length_eq_add_one h
    obtain ⟨y, z, w, rfl⟩ := List.length_eq_three.1 (Nat.succ.inj h)
    rfl

theorem scalars_of_expand {ugen : String} {calls : List (List Signal)}
    (h : Expansion.expand ugen r.arguments = .ok calls) (hvalues : values ∈ calls) :
    (r.withOperands values).operands = values ∧ ∀ v ∈ values, v.isVector = false := by
  have htakes := Expansion.takes_of_expand h values hvalues
  refine ⟨operands_withOperands (htakes.length_eq.symm.trans (List.length_map _)), fun v hv => ?_⟩
  obtain ⟨k, hk, rfl⟩ := List.getElem_of_mem hv
  have hk' : k < r.arguments.length := htakes.length_eq ▸ hk
  refine (htakes.get hk' hk).not_isVector ?_
  simp [arguments]

theorem operation_traverses (r : Request) (ugen : String) :
    Build.Traverses r.onTuple (Expansion.expand ugen r.arguments) r.operation.action := by
  obtain ⟨scalar, hoperation, hscalar⟩ := r.operation_eq
  have hoperands : r.arguments.map (·.value) = r.operands := by simp [arguments, Function.comp_def]
  have hlength : r.arguments.length = r.operands.length := List.length_map _
  have hordinary : ∀ a ∈ r.arguments, a.variadic = false := by simp [arguments]
  have hscalars : ∀ values, values.length = r.arguments.length →
      (∀ v ∈ values, v.isVector = false) →
      ∀ b s b', (scalar values).exec b = (.ok s, b') → s.isVector = false := by
    intro values hvalues hscalars b s b' hs
    rw [hscalar values (hvalues.trans hlength)] at hs
    rw [← operands_withOperands (hvalues.trans hlength)] at hscalars
    exact (runs_of_exec hscalars hs).1
  -- on a tuple of another length `scalar` is something else, but there is none
  have htraverses :=
    Build.perChannel_traverses ugen r.call.descriptor.name hordinary hscalars
  rw [hoperands, ← hoperation] at htraverses
  refine htraverses.congr fun calls hcalls values hvalues => ?_
  obtain ⟨hoperands, hscalars⟩ := scalars_of_expand hcalls hvalues
  rw [onTuple, action_operation (by rwa [hoperands]), hscalar values]
  exact (Expansion.length_of_mem_expand hcalls values hvalues).trans hlength

/-- An operator on vectors succeeds exactly if it does on the tuples that they expand to as
arguments, one after the other in the same builder. The nodes are then the same, and the leaves of
the result are the results for the tuples. -/
theorem operation_expands (r : Request) (ugen : String) (b : Builder) :
    (∀ s b', r.operation.action.exec b = (.ok s, b') →
      (∃ nodes, b' = b.append nodes) ∧
      ∃ calls, Expansion.expand ugen r.arguments = .ok calls ∧
        (calls.mapM r.onTuple).exec b = (.ok s.leaves, b')) ∧
    ∀ calls, Expansion.expand ugen r.arguments = .ok calls →
      (∀ values ∈ calls, (r.withOperands values).operands = values ∧
        ∀ v ∈ values, v.isVector = false) ∧
      ∀ results b', (calls.mapM r.onTuple).exec b = (.ok results, b') →
        ∃ s, r.operation.action.exec b = (.ok s, b') ∧ s.leaves = results := by
  refine ⟨fun s b' hs => ?_, fun calls hcalls => ⟨fun values => scalars_of_expand hcalls, ?_⟩⟩
  · obtain ⟨calls, hcalls, hexec⟩ := (r.operation_traverses ugen b s.leaves b').1 ⟨s, hs, rfl⟩
    refine ⟨(Build.appends_mapM (fun values hvalues b s b' hs => ?_) hexec).nodes,
      calls, hcalls, hexec⟩
    obtain ⟨hoperands, hscalars⟩ := scalars_of_expand hcalls hvalues
    rw [← hoperands] at hscalars
    rw [onTuple, action_operation hscalars] at hs
    obtain ⟨-, folds, hruns⟩ := runs_of_exec hscalars hs
    exact hruns.appends
  · exact fun results b' hexec =>
      (r.operation_traverses ugen b results b').2 ⟨calls, hcalls, hexec⟩

end Request

end SynthGraph
