import SynthGraph.Scgf.Decode

/-!
# What a reader accepts

`Exact r lay` says all there is to know about a reader `r`: it takes off the data exactly the items
that `lay` lays out, returns what they stand for, and refuses everything else with a fault that lies
within the data. Readers are put together by `bind`, so their layouts are put together by
concatenation; the early checks of counts (`Exact.counted`, `Exact.roomy`) change nothing, because
the items that follow are at least as long as the check demands.
-/

namespace SynthGraph

/-- The fault is a defect of the data at an offset of at most `n`. -/
def Fault.Within (f : Fault) (n : Nat) : Prop :=
  ∃ offset defect, f = .malformed offset defect ∧ offset ≤ n

namespace Scgf

variable {α β ρ : Type}

/-! ## Numbers -/

theorem number_word8 {n : Nat} (h : n < 256) : number (word8 n) = n := by
  simp [number, word8]; omega

theorem number_word16 {n : Nat} (h : n < 65536) : number (word16 n) = n := by
  simp [number, word16]; omega

theorem number_word32 {n : Nat} (h : n < 4294967296) : number (word32 n) = n := by
  simp [number, word32]; omega

theorem word8_number {bs : Bytes} (h : bs.length = 1) :
    number bs < 256 ∧ word8 (number bs) = bs := by
  obtain ⟨a, rfl⟩ := List.length_eq_one_iff.1 h
  exact ⟨by simpa [number] using a.toNat_lt, by simp [number, word8]⟩

theorem word16_number {bs : Bytes} (h : bs.length = 2) :
    number bs < 65536 ∧ word16 (number bs) = bs := by
  match bs, h with
  | [a, b], _ =>
    have ha := a.toNat_lt
    have hb := b.toNat_lt
    simp only [number, word16, List.foldl_cons, List.foldl_nil, List.cons.injEq, and_true]
    refine ⟨by omega, ?_, ?_⟩
    all_goals
      apply UInt8.toNat_inj.1
      simp <;> omega

theorem word32_number {bs : Bytes} (h : bs.length = 4) :
    number bs < 4294967296 ∧ word32 (number bs) = bs := by
  match bs, h with
  | [a, b, c, d], _ =>
    have ha := a.toNat_lt
    have hb := b.toNat_lt
    have hc := c.toNat_lt
    have hd := d.toNat_lt
    simp only [number, word32, List.foldl_cons, List.foldl_nil, List.cons.injEq, and_true]
    refine ⟨by omega, ?_, ?_, ?_, ?_⟩
    all_goals
      apply UInt8.toNat_inj.1
      simp <;> omega

@[simp] theorem length_word8 (n : Nat) : (word8 n).length = 1 := rfl

@[simp] theorem length_word16 (n : Nat) : (word16 n).length = 2 := rfl

@[simp] theorem length_word32 (n : Nat) : (word32 n).length = 4 := rfl

/-! ## Texts -/

theorem toList_loop (b : ByteArray) (i : Nat) (r : List UInt8) :
    ByteArray.toList.loop b i r = r.reverse ++ b.data.toList.drop i := by
  fun_induction ByteArray.toList.loop b i r with
  | case1 i r h ih =>
    have hi : i < b.data.toList.length := h
    rw [ih, List.drop_eq_getElem_cons hi]
    simp [ByteArray.get!, h]
  | case2 i r h =>
    have hi : b.data.toList.length ≤ i := Nat.le_of_not_lt h
    simp [List.drop_eq_nil_of_le hi]

theorem toByteArray_toList (b : ByteArray) : b.toList.toByteArray = b := by
  apply ByteArray.ext
  simp [ByteArray.toList, toList_loop]

theorem toList_toByteArray (bs : Bytes) : bs.toByteArray.toList = bs := by
  simp [ByteArray.toList, toList_loop]

/-- A text is read from exactly the bytes of its UTF-8 form. -/
theorem fromUTF8_eq_some {bs : Bytes} {s : String} :
    String.fromUTF8? bs.toByteArray = some s ↔ bs = s.toUTF8.toList := by
  unfold String.fromUTF8?
  constructor
  · intro h
    split at h
    · cases h
      exact (toList_toByteArray bs).symm
    · cases h
  · rintro rfl
    simp [toByteArray_toList, String.fromUTF8, s.isValidUTF8]

theorem length_toUTF8 (s : String) : s.toUTF8.toList.length = s.utf8ByteSize := by
  rw [← List.size_toByteArray, toByteArray_toList]
  rfl

/-! ## Running readers -/

theorem run_bind (r : Read α) (k : α → Read β) (c : Cursor) :
    (r >>= k) c = match r c with
      | .ok (a, c') => k a c'
      | .error f => .error f := by
  show Except.bind (r c) (fun p => k p.1 p.2) = _
  cases r c <;> rfl

theorem run_get (c : Cursor) : (get : Read Cursor) c = .ok (c, c) := rfl

theorem bind_eq_ok {r : Read α} {k : α → Read β} {c c' : Cursor} {b : β} :
    (r >>= k) c = .ok (b, c') ↔ ∃ a d, r c = .ok (a, d) ∧ k a d = .ok (b, c') := by
  rw [run_bind]
  cases r c with
  | ok p =>
    obtain ⟨a, d⟩ := p
    constructor
    · exact fun h => ⟨a, d, rfl, h⟩
    · rintro ⟨a, d, h, hk⟩
      cases h
      exact hk
  | error f => simp

theorem bind_eq_error {r : Read α} {k : α → Read β} {c : Cursor} {f : Fault} :
    (r >>= k) c = .error f ↔
      r c = .error f ∨ ∃ a d, r c = .ok (a, d) ∧ k a d = .error f := by
  rw [run_bind]
  cases r c with
  | ok p =>
    obtain ⟨a, d⟩ := p
    constructor
    · exact fun h => .inr ⟨a, d, rfl, h⟩
    · rintro (h | ⟨a, d, h, hk⟩)
      · cases h
      · cases h
        exact hk
  | error f => simp

theorem holds_iff {bs : Bytes} {n : Nat} : holds bs n = true ↔ n ≤ bs.length := by
  rw [holds, beq_iff_eq, List.length_take]
  omega

/-! ## Exact readers -/

/-- `r` reads the items that `lay` lays out, and nothing else. -/
structure Exact (r : Read α) (lay : α → Bytes → Prop) : Prop where
  accept : ∀ {a bs}, lay a bs → ∀ offset rest,
    r ⟨offset, bs ++ rest⟩ = .ok (a, ⟨offset + bs.length, rest⟩)
  invert : ∀ {c a c'}, r c = .ok (a, c') →
    ∃ bs, lay a bs ∧ c.rest = bs ++ c'.rest ∧ c'.offset = c.offset + bs.length
  fault : ∀ {c f}, r c = .error f → f.Within (c.offset + c.rest.length)

namespace Exact

theorem congr {r : Read α} {lay lay' : α → Bytes → Prop} (h : Exact r lay)
    (he : ∀ a bs, lay a bs ↔ lay' a bs) : Exact r lay' where
  accept hl := h.accept ((he _ _).2 hl)
  invert hr := by
    obtain ⟨bs, hl, hb⟩ := h.invert hr
    exact ⟨bs, (he _ _).1 hl, hb⟩
  fault := h.fault

protected theorem pure (a : α) : Exact (pure a : Read α) fun b bs => b = a ∧ bs = [] where
  accept := by
    rintro b bs ⟨rfl, rfl⟩ offset rest
    rfl
  invert := by
    rintro c b c' h
    cases h
    exact ⟨[], ⟨rfl, rfl⟩, rfl, rfl⟩
  fault h := by cases h

/-- A defect that is found at the current position accepts nothing. -/
protected theorem fail (defect : Defect) : Exact (fail defect : Read α) fun _ _ => False where
  accept h := h.elim
  invert h := by cases h
  fault := by
    intro c f h
    cases h
    exact ⟨c.offset, defect, rfl, Nat.le_add_right _ _⟩

theorem bind {r : Read α} {k : α → Read β} {lay : α → Bytes → Prop}
    {lay' : α → β → Bytes → Prop} (hr : Exact r lay)
    (hk : ∀ a bs, lay a bs → Exact (k a) (lay' a)) :
    Exact (r >>= k) fun b bs => ∃ a bs₁ bs₂, lay a bs₁ ∧ lay' a b bs₂ ∧ bs = bs₁ ++ bs₂ where
  accept := by
    rintro b bs ⟨a, bs₁, bs₂, h₁, h₂, rfl⟩ offset rest
    rw [run_bind, List.append_assoc, hr.accept h₁]
    simp only
    rw [(hk a bs₁ h₁).accept h₂, List.length_append, Nat.add_assoc]
  invert := by
    intro c b c' h
    obtain ⟨a, d, h₁, h₂⟩ := bind_eq_ok.1 h
    obtain ⟨bs₁, hl₁, hc, hd⟩ := hr.invert h₁
    obtain ⟨bs₂, hl₂, hc', hd'⟩ := (hk a bs₁ hl₁).invert h₂
    refine ⟨bs₁ ++ bs₂, ⟨a, bs₁, bs₂, hl₁, hl₂, rfl⟩, ?_, ?_⟩
    · rw [hc, hc', List.append_assoc]
    · rw [hd', hd, List.length_append, Nat.add_assoc]
  fault := by
    intro c f h
    rcases bind_eq_error.1 h with h₁ | ⟨a, d, h₁, h₂⟩
    · exact hr.fault h₁
    · obtain ⟨bs₁, hl₁, hc, hd⟩ := hr.invert h₁
      obtain ⟨o, e, rfl, ho⟩ := (hk a bs₁ hl₁).fault h₂
      refine ⟨o, e, rfl, ?_⟩
      rw [hc, List.length_append]
      omega

theorem ite {p : Prop} [Decidable p] {r s : Read α} {lay lay' : α → Bytes → Prop}
    (hr : p → Exact r lay) (hs : ¬p → Exact s lay') :
    Exact (if p then r else s) fun a bs => if p then lay a bs else lay' a bs := by
  by_cases hp : p
  · simpa only [if_pos hp] using hr hp
  · simpa only [if_neg hp] using hs hp

/-- What follows a failure is never reached. -/
theorem fail_bind (defect : Defect) (k : β → Read α) :
    Exact (fail defect >>= k) fun _ _ => False :=
  ((Exact.fail defect).bind fun b _ h => (h.elim : Exact (k b) fun _ _ => False)).congr
    fun a bs => by simp

/-- An early check that there is room for what is read next anyway. -/
theorem roomy {n : Nat} {r : Read α} {lay : α → Bytes → Prop} {defect : Defect}
    {k : β → Read α} (hr : Exact r lay) (hlen : ∀ a bs, lay a bs → n ≤ bs.length) :
    Exact (get >>= fun c : Cursor => if holds c.rest n = true then r else fail defect >>= k)
      lay where
  accept := by
    intro a bs hl offset rest
    have hroom : holds (bs ++ rest) n = true :=
      holds_iff.2 (by have := hlen a bs hl; rw [List.length_append]; omega)
    show (if holds (bs ++ rest) n = true then r else fail defect >>= k) ⟨offset, bs ++ rest⟩ = _
    rw [if_pos hroom]
    exact hr.accept hl offset rest
  invert := by
    intro c a c' h
    change (if holds c.rest n = true then r else fail defect >>= k) c = _ at h
    split at h
    · exact hr.invert h
    · cases h
  fault := by
    intro c f h
    change (if holds c.rest n = true then r else fail defect >>= k) c = _ at h
    split at h
    · exact hr.fault h
    · cases h
      exact ⟨c.offset, defect, rfl, Nat.le_add_right _ _⟩

end Exact

/-! ## The readers of numbers and bytes -/

theorem take_exact (n : Nat) (what : String) :
    Exact (take n what) fun a bs => a.length = n ∧ bs = a where
  accept := by
    rintro a bs ⟨rfl, rfl⟩ offset rest
    have hroom : holds (bs ++ rest) bs.length = true := holds_iff.2 (by simp)
    simp [take, hroom]
  invert := by
    intro c a c' h
    unfold take at h
    split at h
    · next hroom =>
      cases h
      refine ⟨c.rest.take n, ⟨?_, rfl⟩, (List.take_append_drop n c.rest).symm, ?_⟩
      · exact List.length_take_of_le (holds_iff.1 hroom)
      · simpa using (Nat.min_eq_left (holds_iff.1 hroom)).symm
    · cases h
  fault := by
    intro c f h
    unfold take at h
    split at h
    · cases h
    · cases h
      exact ⟨_, _, rfl, Nat.le_refl _⟩

theorem readWord_exact (size : Nat) (what : String) :
    Exact (readWord size what) fun n bs => bs.length = size ∧ n = number bs := by
  refine ((take_exact size what).bind fun a _ _ => Exact.pure (number a)).congr fun n bs => ?_
  constructor
  · rintro ⟨a, _, _, ⟨ha, rfl⟩, ⟨rfl, rfl⟩, rfl⟩
    simpa using ha
  · rintro ⟨hl, rfl⟩
    exact ⟨bs, bs, [], ⟨hl, rfl⟩, ⟨rfl, rfl⟩, by simp⟩

theorem readWord8_exact (what : String) :
    Exact (readWord 1 what) fun n bs => n < 256 ∧ bs = word8 n := by
  refine (readWord_exact 1 what).congr fun n bs => ⟨?_, ?_⟩
  · rintro ⟨hl, rfl⟩
    exact ⟨(word8_number hl).1, (word8_number hl).2.symm⟩
  · rintro ⟨hn, rfl⟩
    exact ⟨rfl, (number_word8 hn).symm⟩

theorem readWord16_exact (what : String) :
    Exact (readWord 2 what) fun n bs => n < 65536 ∧ bs = word16 n := by
  refine (readWord_exact 2 what).congr fun n bs => ⟨?_, ?_⟩
  · rintro ⟨hl, rfl⟩
    exact ⟨(word16_number hl).1, (word16_number hl).2.symm⟩
  · rintro ⟨hn, rfl⟩
    exact ⟨rfl, (number_word16 hn).symm⟩

theorem readWord32_exact (what : String) :
    Exact (readWord 4 what) fun n bs => n < 4294967296 ∧ bs = word32 n := by
  refine (readWord_exact 4 what).congr fun n bs => ⟨?_, ?_⟩
  · rintro ⟨hl, rfl⟩
    exact ⟨(word32_number hl).1, (word32_number hl).2.symm⟩
  · rintro ⟨hn, rfl⟩
    exact ⟨rfl, (number_word32 hn).symm⟩

/-- A count comes before what it counts, which is at least `unit` bytes for each item. -/
theorem Exact.counted {what : String} {unit : Nat} {k : Nat → Read α}
    {lay : Nat → α → Bytes → Prop} (hk : ∀ n, n < 4294967296 → Exact (k n) (lay n))
    (hlen : ∀ n a bs, lay n a bs → n * unit ≤ bs.length) :
    Exact (readCount what unit >>= k) fun a bs =>
      ∃ n rest, n < 4294967296 ∧ lay n a rest ∧ bs = word32 n ++ rest := by
  have hshape : readCount what unit >>= k = readWord 4 what >>= fun n => get >>= fun c : Cursor =>
      if holds c.rest (n * unit) = true then k n
      else fail (.countTooLarge what n) >>= fun n : Nat => k n := by
    simp only [readCount, bind_assoc]
    refine bind_congr fun n => bind_congr fun c => ?_
    split <;> simp
  rw [hshape]
  refine ((readWord32_exact what).bind fun n bs hn =>
    (hk n hn.1).roomy (hlen n)).congr fun a bs => ?_
  constructor
  · rintro ⟨n, _, rest, ⟨hn, rfl⟩, hl, rfl⟩
    exact ⟨n, rest, hn, hl, rfl⟩
  · rintro ⟨n, rest, hn, hl, rfl⟩
    exact ⟨n, _, rest, ⟨hn, rfl⟩, hl, rfl⟩

/-! ## Items that stand for values

Most layouts are functions: a record `x` that is valid is written as `g x` and read as `f x`. -/

/-- `a` and `bs` are what a valid record stands for and how it is written. -/
def Written (valid : ρ → Prop) (f : ρ → α) (g : ρ → Bytes) (a : α) (bs : Bytes) : Prop :=
  ∃ x, valid x ∧ a = f x ∧ bs = g x

theorem readMany_zero (item : Read α) : readMany 0 item = pure [] := rfl

theorem readMany_succ (n : Nat) (item : Read α) :
    readMany (n + 1) item = item >>= fun a => readMany n item >>= fun as => pure (a :: as) := by
  simp [readMany, List.replicate_succ]

theorem Exact.many {item : Read α} {valid : ρ → Prop} {f : ρ → α} {g : ρ → Bytes}
    (h : Exact item (Written valid f g)) (n : Nat) :
    Exact (readMany n item)
      (Written (fun xs : List ρ => xs.length = n ∧ ∀ x ∈ xs, valid x) (List.map f)
        (List.flatMap g)) := by
  induction n with
  | zero =>
    rw [readMany_zero]
    refine (Exact.pure []).congr fun as bs => ⟨?_, ?_⟩
    · rintro ⟨rfl, rfl⟩
      exact ⟨[], by simp⟩
    · rintro ⟨xs, ⟨hl, _⟩, rfl, rfl⟩
      obtain rfl := List.length_eq_zero_iff.1 hl
      exact ⟨rfl, rfl⟩
  | succ n ih =>
    rw [readMany_succ]
    refine (h.bind fun a _ _ => ih.bind fun as _ _ => Exact.pure (a :: as)).congr
      fun as bs => ⟨?_, ?_⟩
    · rintro ⟨_, _, _, ⟨x, hx, rfl, rfl⟩,
        ⟨_, _, _, ⟨xs, ⟨hl, hxs⟩, rfl, rfl⟩, ⟨rfl, rfl⟩, rfl⟩, rfl⟩
      exact ⟨x :: xs, ⟨by simp [hl], by simpa using ⟨hx, hxs⟩⟩, rfl, by simp⟩
    · rintro ⟨xs, ⟨hl, hxs⟩, rfl, rfl⟩
      match xs, hl with
      | x :: xs, hl =>
        have hx := hxs x List.mem_cons_self
        have hxs' : ∀ y ∈ xs, valid y := fun y hy => hxs y (List.mem_cons_of_mem _ hy)
        exact ⟨f x, g x, xs.flatMap g, ⟨x, hx, rfl, rfl⟩,
          ⟨xs.map f, xs.flatMap g, [], ⟨xs, ⟨by simpa using hl, hxs'⟩, rfl, rfl⟩, ⟨rfl, rfl⟩,
            by simp⟩, rfl⟩

/-- A list is at least as long as its items demand. -/
theorem length_flatMap_ge {β : Type} {g : ρ → List β} {unit : Nat} {xs : List ρ}
    (h : ∀ x ∈ xs, unit ≤ (g x).length) : xs.length * unit ≤ (xs.flatMap g).length := by
  induction xs with
  | nil => simp
  | cons x xs ih =>
    have hx := h x List.mem_cons_self
    have hxs := ih fun y hy => h y (List.mem_cons_of_mem _ hy)
    rw [List.length_cons, List.flatMap_cons, List.length_append, Nat.add_mul]
    omega

theorem readList_exact {what : String} {unit : Nat} {item : Nat → Read α} {valid : Nat → ρ → Prop}
    {f : ρ → α} {g : ρ → Bytes} (h : ∀ n, n < 4294967296 → Exact (item n) (Written (valid n) f g))
    (hunit : ∀ n x, valid n x → unit ≤ (g x).length) :
    Exact (readList what unit item)
      (Written (fun xs : List ρ => xs.length < 4294967296 ∧ ∀ x ∈ xs, valid xs.length x)
        (List.map f) fun xs => word32 xs.length ++ xs.flatMap g) := by
  refine (Exact.counted (fun n hn => (h n hn).many n) ?_).congr fun as bs => ⟨?_, ?_⟩
  · rintro n _ _ ⟨xs, ⟨rfl, hxs⟩, rfl, rfl⟩
    exact length_flatMap_ge fun x hx => hunit _ x (hxs x hx)
  · rintro ⟨_, _, hn, ⟨xs, ⟨rfl, hxs⟩, rfl, rfl⟩, rfl⟩
    exact ⟨xs, ⟨hn, hxs⟩, rfl, rfl⟩
  · rintro ⟨xs, ⟨hn, hxs⟩, rfl, rfl⟩
    exact ⟨_, _, hn, ⟨xs, ⟨rfl, hxs⟩, rfl, rfl⟩, rfl⟩

/-- Two readings of data that start alike are the same. -/
theorem Exact.unique {r : Read α} {lay : α → Bytes → Prop} (h : Exact r lay) {a b : α}
    {bs cs xs ys : Bytes} (ha : lay a bs) (hb : lay b cs) (he : bs ++ xs = cs ++ ys) :
    a = b ∧ bs.length = cs.length ∧ xs = ys := by
  have h₁ := h.accept ha 0 xs
  rw [he, h.accept hb 0 ys] at h₁
  simp only [Except.ok.injEq, Prod.mk.injEq, Cursor.mk.injEq] at h₁
  exact ⟨h₁.1.symm, by omega, h₁.2.2.symm⟩

end Scgf

end SynthGraph
