import Mathlib.Data.List.Forall2
import Mathlib.Data.List.Nodup

/-!
# Partial functions and positions in lists

What the tables of a file and the emission order of a graph both rest on.
-/

namespace SynthGraph

variable {α β ε : Type}

/-! ## Partial functions -/

theorem except_bind_eq_ok {x : Except ε α} {k : α → Except ε β} {b : β} :
    x >>= k = .ok b ↔ ∃ a, x = .ok a ∧ k a = .ok b := by
  cases x with
  | error e => simp [bind, Except.bind]
  | ok a => simp [bind, Except.bind]

theorem except_bind_eq_error {x : Except ε α} {k : α → Except ε β} {e : ε} :
    x >>= k = .error e ↔ x = .error e ∨ ∃ a, x = .ok a ∧ k a = .error e := by
  cases x with
  | error e => simp [bind, Except.bind]
  | ok a => simp [bind, Except.bind]

theorem mapError_eq_ok {δ : Type} {x : Except ε α} {f : ε → δ} {a : α} :
    x.mapError f = .ok a ↔ x = .ok a := by
  cases x <;> simp [Except.mapError]

theorem exists_eq_ok_of_map_toOption {x : Except ε α} {f : α → β} {b : β}
    (h : x.toOption.map f = some b) : ∃ a, x = .ok a ∧ f a = b := by
  cases x with
  | error e => cases h
  | ok a => exact ⟨a, rfl, Option.some.inj h⟩

/-- Mapping a partial function that is a total one where `P` holds. -/
theorem mapM_eq_ok_iff {f : α → Except ε β} {P : α → Prop} {g : α → β} {as : List α} {bs : List β}
    (h : ∀ a ∈ as, ∀ b, f a = .ok b ↔ P a ∧ b = g a) :
    as.mapM f = .ok bs ↔ (∀ a ∈ as, P a) ∧ bs = as.map g := by
  induction as generalizing bs with
  | nil => simp [pure, Except.pure, eq_comm]
  | cons a as ih =>
    have ih : ∀ bs, as.mapM f = .ok bs ↔ (∀ a ∈ as, P a) ∧ bs = as.map g :=
      fun _ => ih fun a ha => h a (List.mem_cons_of_mem _ ha)
    simp only [List.mapM_cons, except_bind_eq_ok, h a List.mem_cons_self, ih,
      List.forall_mem_cons, List.map_cons]
    constructor
    · rintro ⟨_, ⟨ha, rfl⟩, _, ⟨has, rfl⟩, hb⟩
      cases hb
      exact ⟨⟨ha, has⟩, rfl⟩
    · rintro ⟨⟨ha, has⟩, rfl⟩
      exact ⟨_, ⟨ha, rfl⟩, _, ⟨has, rfl⟩, rfl⟩

/-- If going through a list fails, then at one of its elements. -/
theorem mapM_ok_or_error (f : α → Except ε β) (as : List α) : (∃ bs, as.mapM f = .ok bs) ∨
    ∃ a ∈ as, ∃ fault, f a = .error fault ∧ as.mapM f = .error fault := by
  induction as with
  | nil => exact .inl ⟨[], rfl⟩
  | cons a as ih =>
    rw [List.mapM_cons]
    cases ha : f a with
    | error fault => exact .inr ⟨a, List.mem_cons_self, fault, ha, rfl⟩
    | ok b =>
      rcases ih with ⟨bs, hbs⟩ | ⟨a', ha', fault, hfault, hmap⟩
      · exact .inl ⟨b :: bs, by rw [hbs]; rfl⟩
      · exact .inr ⟨a', List.mem_cons_of_mem _ ha', fault, hfault, by rw [hmap]; rfl⟩

theorem exists_error_of_mapM {f : α → Except ε β} {as : List α} {fault : ε}
    (h : as.mapM f = .error fault) : ∃ a ∈ as, f a = .error fault := by
  rcases mapM_ok_or_error f as with ⟨bs, hbs⟩ | ⟨a, ha, fault', hfault, hmap⟩
  · cases hbs.symm.trans h
  · cases hmap.symm.trans h
    exact ⟨a, ha, hfault⟩

theorem forall₂_of_mapM {f : α → Except ε β} {as : List α} {bs : List β}
    (h : as.mapM f = .ok bs) : List.Forall₂ (fun a b => a ∈ as ∧ f a = .ok b) as bs := by
  induction as generalizing bs with
  | nil =>
    cases h
    exact .nil
  | cons a as ih =>
    rw [List.mapM_cons] at h
    obtain ⟨b, hb, h⟩ := except_bind_eq_ok.1 h
    obtain ⟨rest, hrest, h⟩ := except_bind_eq_ok.1 h
    cases h
    refine .cons ⟨List.mem_cons_self, hb⟩ ((ih hrest).imp fun a' b' hab => ?_)
    exact ⟨List.mem_cons_of_mem _ hab.1, hab.2⟩

theorem length_of_mapM {f : α → Except ε β} {as : List α} {bs : List β}
    (h : as.mapM f = .ok bs) : bs.length = as.length :=
  (forall₂_of_mapM h).length_eq.symm

theorem exists_of_mem_mapM {f : α → Except ε β} {as : List α} {bs : List β}
    (h : as.mapM f = .ok bs) {b : β} (hb : b ∈ bs) : ∃ a ∈ as, f a = .ok b := by
  obtain ⟨i, hi, rfl⟩ := List.getElem_of_mem hb
  exact ⟨_, (forall₂_of_mapM h).get (length_of_mapM h ▸ hi) hi⟩

theorem exists_mem_of_mapM {f : α → Except ε β} {as : List α} {bs : List β}
    (h : as.mapM f = .ok bs) {a : α} (ha : a ∈ as) : ∃ b ∈ bs, f a = .ok b := by
  obtain ⟨i, hi, rfl⟩ := List.getElem_of_mem ha
  have hlt : i < bs.length := length_of_mapM h ▸ hi
  exact ⟨bs[i], List.getElem_mem hlt, ((forall₂_of_mapM h).get hi hlt).2⟩

theorem exists_mapM_iff {f : α → Except ε β} {as : List α} :
    (∃ bs, as.mapM f = .ok bs) ↔ ∀ a ∈ as, ∃ b, f a = .ok b := by
  constructor
  · rintro ⟨bs, hbs⟩ a ha
    obtain ⟨b, -, hb⟩ := exists_mem_of_mapM hbs ha
    exact ⟨b, hb⟩
  · intro h
    rcases mapM_ok_or_error f as with hbs | ⟨a, ha, fault, hfault, -⟩
    · exact hbs
    · obtain ⟨b, hb⟩ := h a ha
      cases hb.symm.trans hfault

/-- What is known of each result is known of all. -/
theorem map_of_mapM {γ : Type} {f : α → Except ε β} {g : β → γ} {h : α → γ} {as : List α}
    {bs : List β} (hf : ∀ a ∈ as, ∀ b, f a = .ok b → g b = h a) (hm : as.mapM f = .ok bs) :
    bs.map g = as.map h := by
  symm
  rw [← List.forall₂_eq_eq_eq, List.forall₂_map_left_iff, List.forall₂_map_right_iff]
  exact (forall₂_of_mapM hm).imp fun a b hab => (hf a hab.1 b hab.2).symm

/-! ## Positions -/

theorem findIdx?_of_pairwise {R : α → α → Prop} {l : List α} {q : α → Bool} {i : Nat}
    {a : α} (hl : l.Pairwise R) (hi : l[i]? = some a) (ha : q a) (hR : ∀ b, R b a → ¬q b) :
    l.findIdx? q = some i := by
  obtain ⟨hlt, rfl⟩ := List.getElem?_eq_some_iff.1 hi
  refine List.findIdx?_eq_some_iff_getElem.2 ⟨hlt, ha, fun j hj => hR _ ?_⟩
  exact List.pairwise_iff_getElem.1 hl j i _ hlt hj

theorem filterMap_getElem?_range (l : List α) : (List.range l.length).filterMap (l[·]?) = l := by
  induction l with
  | nil => rfl
  | cons a l ih =>
    rw [List.length_cons, List.range_succ_eq_map, List.filterMap_cons_some List.getElem?_cons_zero,
      List.filterMap_map]
    exact congrArg (a :: ·) ih

/-- Listing the elements by a permutation of the positions permutes them. -/
theorem perm_filterMap_getElem? {l : List α} {positions : List Nat}
    (h : positions.Perm (List.range l.length)) : (positions.filterMap (l[·]?)).Perm l :=
  calc (positions.filterMap (l[·]?)).Perm ((List.range l.length).filterMap (l[·]?)) :=
        h.filterMap _
    _ = l := filterMap_getElem?_range l

theorem getElem?_of_idxOf? [BEq α] [LawfulBEq α] {l : List α} {a : α} {i : Nat}
    (h : l.idxOf? a = some i) : l[i]? = some a := by
  obtain ⟨hlt, heq, -⟩ := List.idxOf?_eq_some_iff.1 h
  rw [List.getElem?_eq_getElem hlt, heq]

theorem map_idxOf_self [BEq α] [LawfulBEq α] {l : List α} (h : l.Nodup) :
    l.map l.idxOf = List.range l.length := by
  refine List.ext_getElem (by simp) fun i hi _ => ?_
  rw [List.length_map] at hi
  rw [List.getElem_map, List.getElem_range, h.idxOf_getElem i hi]

theorem filter_lt_range {k n : Nat} (h : k ≤ n) :
    (List.range n).filter (· < k) = List.range k := by
  obtain ⟨m, rfl⟩ := Nat.exists_eq_add_of_le h
  have hlow : (List.range k).filter (· < k) = List.range k :=
    List.filter_eq_self.2 fun a ha => by simpa using ha
  have hhigh : ((List.range m).map (k + ·)).filter (· < k) = [] :=
    List.filter_eq_nil_iff.2 fun a ha => by
      obtain ⟨i, -, rfl⟩ := List.mem_map.1 ha
      simp
  rw [List.range_add, List.filter_append, hlow, hhigh, List.append_nil]

/-- In a list without repetition, the elements of a front are those at its positions. -/
theorem mem_front_iff {front l : List α} (hl : l.Nodup) (h : front <+: l) {i : Nat} {a : α}
    (hi : l[i]? = some a) : a ∈ front ↔ i < front.length := by
  obtain ⟨rest, rfl⟩ := h
  obtain ⟨-, -, hdisjoint⟩ := List.nodup_append.1 hl
  by_cases hlt : i < front.length
  · rw [List.getElem?_append_left hlt] at hi
    simp [hlt, List.mem_of_getElem? hi]
  · rw [List.getElem?_append_right (Nat.le_of_not_lt hlt)] at hi
    simp only [hlt, iff_false]
    exact fun ha => hdisjoint a ha a (List.mem_of_getElem? hi) rfl

theorem eq_of_getElem?_of_nodup {l : List α} {i j : Nat} {a : α} (hn : l.Nodup)
    (hi : l[i]? = some a) (hj : l[j]? = some a) : i = j :=
  (List.getElem?_inj (List.getElem?_eq_some_iff.1 hi).1 hn).1 (hi.trans hj.symm)

/-- In a list where nothing stands behind what has to follow it, what has to follow stands
behind. -/
theorem lt_of_pairwise_not {R : α → α → Prop} {l : List α}
    (hl : l.Pairwise fun x y => ¬R y x) (hR : ∀ a, ¬R a a) {i j : Nat} {a b : α}
    (hi : l[i]? = some a) (hj : l[j]? = some b) (hab : R a b) : i < j := by
  obtain ⟨hi', rfl⟩ := List.getElem?_eq_some_iff.1 hi
  obtain ⟨hj', rfl⟩ := List.getElem?_eq_some_iff.1 hj
  rcases Nat.lt_trichotomy i j with hlt | heq | hgt
  · exact hlt
  · subst heq
    exact absurd hab (hR _)
  · exact absurd hab (List.pairwise_iff_getElem.1 hl j i hj' hi' hgt)

theorem eq_or_rel_of_pairwise {R : α → α → Prop} {l : List α} (hl : l.Pairwise R) {a b : α}
    (ha : a ∈ l) (hb : b ∈ l) : a = b ∨ R a b ∨ R b a := by
  induction hl with
  | nil => cases ha
  | @cons x xs hx _ ih =>
    rcases List.mem_cons.1 ha with hax | hax
    · rcases List.mem_cons.1 hb with hbx | hbx
      · exact .inl (hax.trans hbx.symm)
      · exact .inr (.inl (hax ▸ hx b hbx))
    · rcases List.mem_cons.1 hb with hbx | hbx
      · exact .inr (.inr (hbx ▸ hx a hax))
      · exact ih hax hbx

/-! ## Groups -/

/-- If groups are told apart by a key, the elements with the key of a group are that group. -/
theorem filter_flatMap_key {ι : Type} [DecidableEq β] (key : α → β) (name : ι → β)
    {groups : ι → List α} {xs : List ι} (hn : (xs.map name).Nodup)
    (hkey : ∀ x ∈ xs, ∀ a ∈ groups x, key a = name x) {x : ι} (hx : x ∈ xs) :
    (xs.flatMap groups).filter (fun a => key a = name x) = groups x := by
  induction xs with
  | nil => cases hx
  | cons y ys ih =>
    obtain ⟨hy, hn⟩ := List.nodup_cons.1 hn
    have hhead : ∀ a ∈ groups y, key a = name y := hkey y List.mem_cons_self
    have htail : ∀ z ∈ ys, ∀ a ∈ groups z, key a = name z :=
      fun z hz => hkey z (List.mem_cons_of_mem _ hz)
    rw [List.flatMap_cons, List.filter_append]
    rcases List.mem_cons.1 hx with rfl | hx
    · rw [List.filter_eq_self.2 fun a ha => by simp [hhead a ha], List.filter_eq_nil_iff.2,
        List.append_nil]
      intro a ha
      obtain ⟨z, hz, ha⟩ := List.mem_flatMap.1 ha
      simp only [htail z hz a ha, decide_eq_true_eq]
      exact fun heq => hy (heq ▸ List.mem_map_of_mem hz)
    · rw [List.filter_eq_nil_iff.2, List.nil_append, ih hn htail hx]
      intro a ha
      simp only [hhead a ha, decide_eq_true_eq]
      exact fun heq => hy (heq ▸ List.mem_map_of_mem hx)

/-- Grouping by a key only permutes. -/
theorem flatMap_filter_perm [DecidableEq β] (key : α → β) {keys : List β} (hn : keys.Nodup)
    {l : List α} (h : ∀ a ∈ l, key a ∈ keys) :
    (keys.flatMap fun k => l.filter (fun a => key a = k)).Perm l := by
  induction keys generalizing l with
  | nil =>
    cases l with
    | nil => exact .nil
    | cons a l => exact absurd (h a List.mem_cons_self) List.not_mem_nil
  | cons k keys ih =>
    obtain ⟨hk, hn⟩ := List.nodup_cons.1 hn
    let rest := l.filter fun a => !decide (key a = k)
    have hrest : ∀ a ∈ rest, key a ∈ keys := by
      intro a ha
      obtain ⟨ha, hne⟩ := List.mem_filter.1 ha
      exact (List.mem_cons.1 (h a ha)).resolve_left (by simpa using hne)
    have hsame : (keys.flatMap fun k' => l.filter (fun a => key a = k')) =
        keys.flatMap fun k' => rest.filter (fun a => key a = k') := by
      refine List.flatMap_congr fun k' hk' => ?_
      rw [List.filter_filter]
      refine List.filter_congr fun a _ => ?_
      by_cases ha : key a = k'
      · have hne : k' ≠ k := fun heq => hk (heq ▸ hk')
        simp [ha, hne]
      · simp [ha]
    rw [List.flatMap_cons, hsame]
    exact ((ih hn hrest).append_left _).trans (List.filter_append_perm _ l)

/-! ## Counters and marks -/

theorem getD_modify_pred (a : Array Nat) (i j : Nat) :
    (a.modify i (· - 1)).getD j 0 = a.getD j 0 - if i = j then 1 else 0 := by
  simp only [Array.getD_eq_getD_getElem?, Array.getElem?_modify]
  by_cases h : i = j
  · subst h
    cases a[i]? <;> simp
  · simp [h]

theorem getD_set_true {a : Array Bool} {i : Nat} (hi : i < a.size) (j : Nat) :
    (a.setIfInBounds i true).getD j false = true ↔ a.getD j false = true ∨ j = i := by
  simp only [Array.getD_eq_getD_getElem?, Array.getElem?_setIfInBounds]
  by_cases h : i = j
  · subst h
    simp [hi]
  · simp [h, Ne.symm h]

theorem getD_replicate_false (n i : Nat) : (Array.replicate n false).getD i false = false := by
  rw [Array.getD_eq_getD_getElem?, Array.getElem?_replicate]
  split <;> rfl

/-- One more is done, so one less is to be done where it is waited for. -/
theorem countP_not_mem_snoc [DecidableEq α] {l done : List α} {a : α} (hl : l.Nodup)
    (ha : a ∉ done) : l.countP (· ∉ done ++ [a]) =
      l.countP (· ∉ done) - if a ∈ l then 1 else 0 := by
  induction l with
  | nil => simp
  | cons x l ih =>
    rw [List.nodup_cons] at hl
    rw [List.countP_cons, List.countP_cons, ih hl.2]
    by_cases hx : x = a
    · subst hx
      simp [hl.1, ha]
    · have hpos : a ∈ l → 0 < l.countP (· ∉ done) := fun h =>
        List.countP_pos_iff.2 ⟨a, h, by simpa using ha⟩
      simp only [List.mem_append, List.mem_cons, List.not_mem_nil, hx, Ne.symm hx, or_false,
        false_or]
      split
      · have := hpos (by assumption)
        omega
      · omega

/-! ## Collecting without repetition -/

/-- Going through `xs`, what has not been seen is added at the end. -/
theorem foldl_collect [DecidableEq β] (f : α → β) (xs : List α) (seen : List β) (h : seen.Nodup) :
    (xs.foldl (fun seen x => if f x ∈ seen then seen else seen ++ [f x]) seen).Nodup ∧
      ∀ b, b ∈ xs.foldl (fun seen x => if f x ∈ seen then seen else seen ++ [f x]) seen ↔
        b ∈ seen ∨ ∃ x ∈ xs, f x = b := by
  induction xs generalizing seen with
  | nil => simpa using h
  | cons x xs ih =>
    simp only [List.foldl_cons]
    split
    · next hx =>
      refine ⟨(ih seen h).1, fun b => ?_⟩
      rw [(ih seen h).2]
      constructor
      · rintro (hb | ⟨y, hy, rfl⟩)
        · exact .inl hb
        · exact .inr ⟨y, List.mem_cons_of_mem _ hy, rfl⟩
      · rintro (hb | ⟨y, hy, rfl⟩)
        · exact .inl hb
        · rcases List.mem_cons.1 hy with rfl | hy
          · exact .inl hx
          · exact .inr ⟨y, hy, rfl⟩
    · next hx =>
      have hnew : (seen ++ [f x]).Nodup :=
        List.nodup_append.2 ⟨h, by simp, fun a ha b hb hab => hx (by simp_all)⟩
      refine ⟨(ih _ hnew).1, fun b => ?_⟩
      rw [(ih _ hnew).2]
      simp [or_assoc, eq_comm]

/-- In a list in strict order, all elements but the last have one that comes after them. -/
theorem mem_dropLast_iff {R : α → α → Prop} (hR : ∀ a b, R a b → ¬R b a) {l : List α}
    (hl : l.Pairwise R) {a : α} : a ∈ l.dropLast ↔ a ∈ l ∧ ∃ b ∈ l, R a b := by
  rcases List.eq_nil_or_concat l with rfl | ⟨init, last, rfl⟩
  · simp
  · rw [List.concat_eq_append] at hl ⊢
    rw [List.dropLast_concat]
    obtain ⟨-, -, hlast⟩ := List.pairwise_append.1 hl
    have hlast : ∀ b ∈ init, R b last := fun b hb => hlast b hb last (by simp)
    constructor
    · exact fun ha => ⟨by simp [ha], last, by simp, hlast a ha⟩
    · rintro ⟨ha, b, hb, hab⟩
      rcases List.mem_append.1 ha with ha | ha
      · exact ha
      · obtain rfl : a = last := by simpa using ha
        rcases List.mem_append.1 hb with hb | hb
        · exact absurd hab (hR _ _ (hlast b hb))
        · obtain rfl : b = a := by simpa using hb
          exact absurd hab (hR _ _ hab)

end SynthGraph
