import SynthGraph.Proofs.Channels
import SynthGraph.Proofs.Mixing

/-!
# Mixing frames

The leaves are cut into frames of `n`, and the frames are mixed channel by channel. The columns of
the frames are the leaves at `k`, `k + n`, `k + 2 * n` and so on (`columns_chunks`), but only as
many of them as the shortest frame has (`frameWidth`). A last frame that is not full therefore cuts
off the channels behind it: no leaf is lost exactly if there is one frame or every frame is full
(`perm_everyNth_iff`). What there is of channels is mixed one after the other, and each one gathers
its own column (`exists_mixes`).
-/

namespace SynthGraph

/-- The elements at `k`, `k + n`, `k + 2 * n` and so on. -/
def everyNth {α : Type} (n k : Nat) (list : List α) : List α :=
  (List.range list.length).filterMap fun row => list[row * n + k]?

/-- The number of channels in the shortest of the frames of `n` that a list of this length has. -/
def frameWidth (length n : Nat) : Nat :=
  if length ≤ n ∨ n ∣ length then min n length else length % n

/-! ## Columns of frames -/

section Columns

variable {α : Type} {n k width : Nat} {list : List α}

@[simp] theorem chunks_nil : chunks n ([] : List α) = [] := by
  simp [chunks]

theorem everyNth_eq_nil_iff : everyNth n k list = [] ↔ list.length ≤ k := by
  constructor
  · intro h
    by_contra hlt
    have hfirst := List.filterMap_eq_nil_iff.1 h 0 (List.mem_range.2 (by omega))
    rw [List.getElem?_eq_none_iff] at hfirst
    omega
  · intro hle
    refine List.filterMap_eq_nil_iff.2 fun row _ => List.getElem?_eq_none ?_
    omega

theorem mem_of_mem_everyNth {a : α} (h : a ∈ everyNth n k list) : a ∈ list := by
  obtain ⟨row, -, hrow⟩ := List.mem_filterMap.1 h
  exact List.mem_of_getElem? hrow

/-- A column of the frames, said by the places of its elements. More rows than there are add
nothing. -/
theorem filterMap_chunks (hk : k < n) {rows : Nat} (hrows : list.length ≤ rows) :
    (chunks n list).filterMap (·[k]?) =
      (List.range rows).filterMap fun row => list[row * n + k]? := by
  fun_induction chunks n list generalizing rows with
  | case1 list h =>
    obtain rfl : list = [] := h.resolve_left (by omega)
    simp
  | case2 list h ih =>
    have hpos : 0 < list.length := List.length_pos_iff.2 fun hnil => h (.inr hnil)
    obtain ⟨rows, rfl⟩ := Nat.exists_eq_add_one.2 (hpos.trans_le hrows)
    have hrest := @ih rows (by rw [List.length_drop]; omega)
    have hshift : ∀ row, (list.drop n)[row * n + k]? = list[(row + 1) * n + k]? := fun row => by
      rw [List.getElem?_drop, Nat.succ_mul]
      congr 1
      omega
    rw [List.range_succ_eq_map, List.filterMap_cons, List.filterMap_cons, List.filterMap_map,
      hrest, List.getElem?_take_of_lt hk, Nat.zero_mul, Nat.zero_add]
    simp only [hshift, Function.comp_def, Nat.succ_eq_add_one]

theorem frameWidth_le (hn : 0 < n) (length : Nat) : frameWidth length n ≤ n := by
  unfold frameWidth
  split
  · exact Nat.min_le_left ..
  · exact (Nat.mod_lt _ hn).le

theorem frameWidth_le_length (length n : Nat) : frameWidth length n ≤ length := by
  unfold frameWidth
  split
  · exact Nat.min_le_right ..
  · exact Nat.mod_le ..

/-- A full frame in front does not make the shortest one shorter. -/
theorem frameWidth_add {length : Nat} (hpos : 0 < length) :
    frameWidth (n + length) n = frameWidth length n := by
  have hdvd : n ∣ n + length ↔ n ∣ length := Nat.dvd_add_right (dvd_refl n)
  simp only [frameWidth, hdvd, Nat.add_mod_left]
  by_cases hlength : n ∣ length
  · have hle := Nat.le_of_dvd hpos hlength
    simp only [hlength, or_true, if_true]
    omega
  · rw [if_neg (by simp only [hlength, or_false]; omega)]
    by_cases hle : length ≤ n
    · have hlt : length < n := lt_of_le_of_ne hle fun h => hlength (h ▸ dvd_refl _)
      rw [if_pos (.inl hle), Nat.mod_eq_of_lt hlt, Nat.min_eq_right hle]
    · rw [if_neg (by simp [hle, hlength])]

theorem min_length_chunks (hn : 0 < n) (hne : list ≠ []) :
    ((chunks n list).map List.length).min? = some (frameWidth list.length n) := by
  fun_induction chunks n list with
  | case1 list h => exact absurd h (by simp [hn.ne', hne])
  | case2 list h ih =>
    rw [List.map_cons, List.min?_cons, List.length_take]
    by_cases hlast : list.length ≤ n
    · rw [List.drop_eq_nil_of_le hlast]
      simp [frameWidth, hlast]
    · have hlength : list.length = n + (list.drop n).length := by rw [List.length_drop]; omega
      have hpos : 0 < (list.drop n).length := by rw [List.length_drop]; omega
      rw [ih (List.length_pos_iff.1 hpos), hlength, frameWidth_add hpos]
      have hle := frameWidth_le hn (list.drop n).length
      simp only [Option.elim_some]
      congr 1
      omega

/-- The columns of the frames are the first classes of places, as many as the shortest frame has. -/
theorem columns_chunks (hn : 0 < n) (hne : list ≠ []) :
    Build.columns (chunks n list) =
      (List.range (frameWidth list.length n)).map (everyNth n · list) := by
  unfold Build.columns
  rw [min_length_chunks hn hne, Option.getD_some]
  refine List.map_congr_left fun k hk => ?_
  have hlt := (List.mem_range.1 hk).trans_le (frameWidth_le hn _)
  exact filterMap_chunks hlt le_rfl

/-! ## What the columns keep -/

theorem flatMap_range_getElem? (h : list.length ≤ n) :
    ((List.range n).flatMap fun k => list[k]?.toList) = list := by
  induction list generalizing n with
  | nil => simp
  | cons a list ih =>
    obtain ⟨n, rfl⟩ := Nat.exists_eq_add_one.2 ((Nat.succ_pos _).trans_le h)
    have hrest := ih (Nat.le_of_succ_le_succ h)
    simpa [List.range_succ_eq_map, List.flatMap_map] using hrest

theorem flatMap_chunks_perm (hn : 0 < n) :
    ((List.range n).flatMap fun k => (chunks n list).filterMap fun frame => frame[k]?).Perm
      list := by
  fun_induction chunks n list with
  | case1 list h =>
    obtain rfl : list = [] := h.resolve_left hn.ne'
    simp
  | case2 list h ih =>
    -- a column is its element in the first frame and its elements in the others
    have hcons (k : Nat) : ((list.take n :: chunks n (list.drop n)).filterMap fun frame =>
        frame[k]?) = (list.take n)[k]?.toList ++
          (chunks n (list.drop n)).filterMap fun frame => frame[k]? := by
      rw [List.filterMap_cons]
      cases (list.take n)[k]? <;> rfl
    simp only [hcons]
    refine (List.flatMap_append_perm ..).symm.trans ?_
    rw [flatMap_range_getElem? (List.length_take_le ..)]
    have hboth := ih.append_left (list.take n)
    rwa [List.take_append_drop] at hboth

theorem flatMap_everyNth_perm (hn : 0 < n) (list : List α) :
    ((List.range n).flatMap (everyNth n · list)).Perm list := by
  have hcolumns : (List.range n).flatMap (everyNth n · list) =
      (List.range n).flatMap fun k => (chunks n list).filterMap fun frame => frame[k]? :=
    List.flatMap_congr fun k hk => (filterMap_chunks (List.mem_range.1 hk) le_rfl).symm
  rw [hcolumns]
  exact flatMap_chunks_perm hn

theorem perm_everyNth_iff (hn : 0 < n) (hwidth : width ≤ n) :
    ((List.range width).flatMap (everyNth n · list)).Perm list ↔ min n list.length ≤ width := by
  have hall := flatMap_everyNth_perm hn list
  obtain ⟨more, rfl⟩ := Nat.exists_eq_add_of_le hwidth
  rw [List.range_add, List.flatMap_append] at hall
  have hbehind : ((List.range more).map (width + ·)).flatMap (everyNth (width + more) · list) = [] ↔
      min (width + more) list.length ≤ width := by
    simp only [List.flatMap_eq_nil_iff, List.forall_mem_map, List.mem_range, everyNth_eq_nil_iff]
    constructor
    · intro h
      by_contra hlt
      have hfirst := h 0 (by omega)
      omega
    · intro h k hk
      omega
  rw [← hbehind]
  constructor
  · intro hperm
    have hlength := (hperm.trans hall.symm).length_eq
    rw [List.length_append] at hlength
    exact List.eq_nil_of_length_eq_zero (by omega)
  · intro hnil
    rwa [hnil, List.append_nil] at hall

theorem min_le_frameWidth_iff (hn : 0 < n) {length : Nat} :
    min n length ≤ frameWidth length n ↔ length ≤ n ∨ n ∣ length := by
  unfold frameWidth
  split
  · next h => simp [h]
  · next h =>
    have hlt := Nat.mod_lt length hn
    simp only [h, iff_false]
    omega

end Columns

/-! ## Mixes of columns -/

namespace Builder

variable {b b' c c' : Builder} {signals sums : List Signal} {s : Signal}

/-- What stands for signals of `b` is reached in every later builder as they are, and every node
that was appended for them is passed once. -/
theorem Gathers.unfolds_iff (h : c.Gathers signals c' sums) (hbefore : b.Appends c)
    (hafter : c'.Appends b') (hwires : ∀ s ∈ signals, b.Wires s) {refs : Multiset NodeRef}
    {passed : Multiset Nat} :
    b'.Unfolds b.nodes.size (sums.map Signal.input) refs passed ↔
      refs = ↑((signals.filterMap Signal.asOutlet).map Outlet.ref) ∧
        passed = Multiset.Ico c.nodes.size c'.nodes.size := by
  have hunfolds := h.unfolds hbefore.size_le ((unfolds_wired hwires).mono hbefore)
  rw [zero_add] at hunfolds
  constructor
  · exact (hunfolds.mono hafter).unique
  · rintro ⟨rfl, rfl⟩
    exact hunfolds.mono hafter

/-- On the way from `b` to `b'` the signal was made as the mix of the others: down from it, through
the sums made for it, nothing but their outlets is reached. -/
def Mixes (b : Builder) (signals : List Signal) (s : Signal) (b' : Builder) : Prop :=
  ∃ c c', b.Appends c ∧ (Build.mix (.vector signals)).exec c = (.ok s, c') ∧ c'.Appends b' ∧
    ∀ refs passed, b'.Unfolds b.nodes.size [s.input] refs passed ↔
      refs = ↑((signals.filterMap Signal.asOutlet).map Outlet.ref) ∧
        passed = Multiset.Ico c.nodes.size c'.nodes.size

end Builder

namespace Build

variable {b : Builder} {signals : List Signal} {columns : List (List Signal)} {sources : Signal}
  {n : Nat}

theorem leaves_vector_of_wires (h : ∀ s ∈ signals, b.Wires s) :
    (Signal.vector signals).leaves = signals := by
  rw [Signal.leaves_vector]
  calc
    signals.flatMap Signal.leaves = signals.flatMap fun s => [s] :=
      List.flatMap_congr fun s hs => Signal.leaves_scalar (h s hs).isVector
    _ = signals := List.flatMap_singleton' signals

theorem exists_mix (hwires : ∀ s ∈ signals, b.Wires s) (hne : signals ≠ []) :
    ∃ s b', (mix (.vector signals)).exec b = (.ok s, b') ∧ b.Gathers signals b' [s] := by
  have hmix : mix (.vector signals) = mixRounds signals.length signals := by
    simp [mix, leaves_vector_of_wires hwires, hne]
  rw [hmix]
  rcases (attempts_mixRounds hwires _).error_or_ok with ⟨_, _, -, hfault⟩ | ⟨⟨s, b', hexec⟩, -⟩
  · cases hfault
  · exact ⟨s, b', hexec, gathers_mixRounds hwires hne le_rfl hexec⟩

/-- The mixes of the columns are made one after the other. All together stand for all columns. -/
theorem exists_mixes {c : Builder} (hbefore : b.Appends c)
    (hcolumns : ∀ column ∈ columns, column ≠ [] ∧ ∀ s ∈ column, b.Wires s) :
    ∃ mixes b', (columns.mapM fun column => mix (.vector column)).exec c = (.ok mixes, b') ∧
      c.Gathers columns.flatten b' mixes ∧
      List.Forall₂ (fun column s => b.Mixes column s b') columns mixes := by
  induction columns generalizing c with
  | nil => exact ⟨[], c, rfl, .refl (by simp), .nil⟩
  | cons column columns ih =>
    obtain ⟨⟨hne, hwires⟩, hcolumns⟩ := List.forall_mem_cons.1 hcolumns
    obtain ⟨s, d, hexec, hgathers⟩ :=
      exists_mix (fun s hs => (hwires s hs).mono hbefore.extended) hne
    obtain ⟨mixes, b', hmixes, hrest, hmixed⟩ := ih (hbefore.trans hgathers.appends) hcolumns
    have hmix : b.Mixes column s b' :=
      ⟨c, d, hbefore, hexec, hrest.appends, fun _ _ =>
        hgathers.unfolds_iff hbefore hrest.appends hwires⟩
    exact ⟨s :: mixes, b', exec_mapM_cons.2 ⟨s, mixes, d, hexec, hmixes, rfl⟩,
      hgathers.append hrest, .cons hmix hmixed⟩

theorem wires_of_mem_leaves (howns : b.Owns sources) {s : Signal} (hs : s ∈ sources.leaves) :
    b.Wires s :=
  (howns.of_subset (Signal.outlets_leaf_subset hs)).wires (sources.not_isVector_of_mem_leaves hs)

/-- The channels that the shortest frame has are mixed, from the first to the last. -/
theorem exists_mixChannels (howns : b.Owns sources) (hne : sources.leaves ≠ []) (hn : 0 < n) :
    ∃ mixes b', (mixChannels sources n).exec b = (.ok (.vector mixes), b') ∧
      b.Gathers ((List.range (frameWidth sources.leaves.length n)).flatMap
        (everyNth n · sources.leaves)) b' mixes ∧
      List.Forall₂ (fun k s => b.Mixes (everyNth n k sources.leaves) s b')
        (List.range (frameWidth sources.leaves.length n)) mixes := by
  have hcolumns : ∀ column ∈ (List.range (frameWidth sources.leaves.length n)).map
      (everyNth n · sources.leaves), column ≠ [] ∧ ∀ s ∈ column, b.Wires s := by
    refine List.forall_mem_map.2 fun k hk => ⟨?_, fun s hs => ?_⟩
    · have hlt := (List.mem_range.1 hk).trans_le (frameWidth_le_length ..)
      rw [ne_eq, everyNth_eq_nil_iff]
      omega
    · exact wires_of_mem_leaves howns (mem_of_mem_everyNth hs)
  obtain ⟨mixes, b', hexec, hgathers, hmixes⟩ := exists_mixes (.refl b) hcolumns
  refine ⟨mixes, b', ?_, List.flatMap_def .. ▸ hgathers, List.forall₂_map_left_iff.1 hmixes⟩
  rw [← columns_chunks hn hne] at hexec
  have hsome : (sources.leaves.isEmpty || n == 0) = false := by simp [hne, hn.ne']
  simp only [mixChannels, hsome, Bool.false_eq_true, if_false]
  exact exec_bind_eq_ok.2 ⟨mixes, b', hexec, rfl⟩

/-- Mixing to channels fails exactly if there is nothing to mix or no channel to mix to. Otherwise
channel `k` is the mix of the leaves at `k`, `k + n`, `k + 2 * n` and so on, but there are only as
many channels as the shortest frame has. All leaves are mixed exactly if they are one frame or all
frames are full. -/
theorem mixChannels_mixes_everyNth (howns : b.Owns sources) (n : Nat) :
    ((sources.leaves = [] ∨ n = 0) ∧
      (mixChannels sources n).exec b = (.error (.emptyInput "Mix" "sources"), b)) ∨
    (sources.leaves ≠ [] ∧ n ≠ 0) ∧ ∃ mixes b',
      (mixChannels sources n).exec b = (.ok (.vector mixes), b') ∧
      List.Forall₂ (fun k s => b.Mixes (everyNth n k sources.leaves) s b')
        (List.range (frameWidth sources.leaves.length n)) mixes ∧
      (∀ refs passed, b'.Unfolds b.nodes.size (mixes.map Signal.input) refs passed ↔
        refs = ↑((((List.range mixes.length).flatMap (everyNth n · sources.leaves)).filterMap
          Signal.asOutlet).map Outlet.ref) ∧
        passed = Multiset.Ico b.nodes.size b'.nodes.size) ∧
      (((List.range mixes.length).flatMap (everyNth n · sources.leaves)).Perm sources.leaves ↔
        sources.leaves.length ≤ n ∨ n ∣ sources.leaves.length) := by
  by_cases hempty : sources.leaves = [] ∨ n = 0
  · refine .inl ⟨hempty, ?_⟩
    have hnone : (sources.leaves.isEmpty || n == 0) = true := by simpa using hempty
    simp only [mixChannels, hnone, if_true]
    rfl
  · obtain ⟨hne, hzero⟩ := not_or.1 hempty
    have hn := Nat.pos_of_ne_zero hzero
    obtain ⟨mixes, b', hexec, hgathers, hmixes⟩ := exists_mixChannels howns hne hn
    have hlength : mixes.length = frameWidth sources.leaves.length n := by
      rw [← hmixes.length_eq, List.length_range]
    rw [← hlength] at hgathers
    refine .inr ⟨⟨hne, hzero⟩, mixes, b', hexec, hmixes, fun refs passed => ?_, ?_⟩
    · refine hgathers.unfolds_iff (.refl b) (.refl b') fun s hs => ?_
      obtain ⟨k, -, hk⟩ := List.mem_flatMap.1 hs
      exact wires_of_mem_leaves howns (mem_of_mem_everyNth hk)
    · rw [hlength, perm_everyNth_iff hn (frameWidth_le hn _), min_le_frameWidth_iff hn]

end Build

theorem blendBuilder_owns {s : Signal} (h : ∀ p ∈ s.outlets, p.scope = 0 ∧ p.ugen < 2) :
    blendBuilder.Owns s := by
  have hsize : blendBuilder.scope = 0 ∧ blendBuilder.nodes.size = 2 := by decide +kernel
  rwa [Builder.Owns, hsize.1, hsize.2]

/-- Of the seven sources in frames of four, the fourth one is in no channel. -/
theorem blendSources_mixed : blendBuilder.Owns blendSources ∧
    ∃ x y z b',
      (Build.mixChannels blendSources 4).exec blendBuilder = (.ok (.vector [x, y, z]), b') ∧
      blendBuilder.Mixes [.outlet ⟨0, 0, 0, .control⟩, .outlet ⟨0, 1, 0, .audio⟩] x b' ∧
      blendBuilder.Mixes [.outlet ⟨0, 1, 0, .audio⟩, .constant 1] y b' ∧
      blendBuilder.Mixes [.constant 0, .outlet ⟨0, 0, 0, .control⟩] z b' := by
  have howns : blendBuilder.Owns blendSources := blendBuilder_owns (by decide)
  refine ⟨howns, ?_⟩
  rcases Build.mixChannels_mixes_everyNth howns 4 with ⟨hnone, -⟩ | ⟨-, mixes, b', hexec, hmixes, -⟩
  · simp [blendSources, Signal.leaves, Signal.allLeaves] at hnone
  · cases hmixes with
    | cons hx hmixes =>
      cases hmixes with
      | cons hy hmixes =>
        cases hmixes with
        | cons hz hmixes =>
          cases hmixes
          exact ⟨_, _, _, b', hexec, hx, hy, hz⟩

/-- The first noise, the second one and the first one again. -/
def blendFrames : Signal :=
  .vector [.outlet ⟨0, 0, 0, .control⟩, .outlet ⟨0, 1, 0, .audio⟩, .outlet ⟨0, 0, 0, .control⟩]

/-- In frames of two they are one channel, not two, and the second noise is lost. -/
theorem blendFrames_lost : blendBuilder.Owns blendFrames ∧
    ∃ s b', (Build.mixChannels blendFrames 2).exec blendBuilder = (.ok (.vector [s]), b') ∧
      blendBuilder.Mixes [.outlet ⟨0, 0, 0, .control⟩, .outlet ⟨0, 0, 0, .control⟩] s b' := by
  have howns : blendBuilder.Owns blendFrames := blendBuilder_owns (by decide)
  refine ⟨howns, ?_⟩
  obtain ⟨mixes, b', hexec, -, hmixes⟩ :=
    Build.exists_mixChannels howns (n := 2) (by simp [blendFrames, Signal.leaves, Signal.allLeaves])
      (by decide)
  cases hmixes with
  | cons hs hmixes =>
    cases hmixes
    exact ⟨_, b', hexec, hs⟩

end SynthGraph
