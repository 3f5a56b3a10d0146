import SynthGraph.Proofs.Layout

/-!
# What is accepted as a file

Reading a file succeeds on the files of `IsFile` and on nothing else, and what it returns is what
their records stand for. A file tells where it ends, so cutting one short or adding to it never
gives another file.
-/

namespace SynthGraph.Scgf

theorem decode_eq [Digest] (bytes : Bytes) (catalog : Catalog) :
    decode bytes catalog =
      match take 4 "file header" ⟨0, bytes⟩ with
      | .error f => .error f
      | .ok (found, c) =>
        if found ≠ magic then .error (.malformed 0 .missingHeader)
        else
          match readWord 4 "version" c with
          | .error f => .error f
          | .ok (number, c) =>
            if number ≠ version then .error (.malformed 4 (.version number))
            else
              match readCounted catalog c with
              | .error f => .error f
              | .ok (ds, c) =>
                if c.rest.length ≠ 0 then .error (.malformed c.offset (.trailing c.rest.length))
                else .ok ds := by
  have hrun : ∀ {α : Type} (r : Read α) (c : Cursor),
      r.run' c = match r c with
        | .ok p => .ok p.1
        | .error f => .error f := by
    intro α r c
    show Except.map _ (r c) = _
    cases r c <;> rfl
  unfold decode readDefinitions
  rw [hrun, run_bind]
  cases take 4 "file header" ⟨0, bytes⟩ with
  | error f => rfl
  | ok p =>
    obtain ⟨found, c⟩ := p
    simp only
    by_cases hm : found ≠ magic
    · simp only [if_pos hm]
      rfl
    · simp only [if_neg hm]
      rw [run_bind]
      cases readWord 4 "version" c with
      | error f => rfl
      | ok p =>
        obtain ⟨number, c⟩ := p
        simp only
        by_cases hv : number ≠ version
        · simp only [if_pos hv]
          rfl
        · simp only [if_neg hv]
          rw [run_bind]
          cases readCounted catalog c with
          | error f => rfl
          | ok p =>
            obtain ⟨ds, c⟩ := p
            simp only [run_bind, run_get]
            by_cases hl : c.rest.length ≠ 0
            · simp only [if_pos hl]
              rfl
            · simp only [if_neg hl]
              rfl

/-- Bytes that are read are a file of valid records, and other bytes are refused at an offset that
they have. -/
theorem decode_sound [Digest] (bytes : Bytes) (catalog : Catalog) :
    (∃ records : List Record, (records.length < 65536 ∧ ∀ r ∈ records, r.Valid) ∧
      bytes = fileLayout records ∧
      decode bytes catalog = .ok (records.map (·.definition catalog))) ∨
    ∃ f, f.Within bytes.length ∧ decode bytes catalog = .error f := by
  rw [decode_eq]
  cases htake : take 4 "file header" ⟨0, bytes⟩ with
  | error f => exact .inr ⟨f, by simpa using (take_exact _ _).fault htake, rfl⟩
  | ok p =>
  obtain ⟨_, c₁⟩ := p
  obtain ⟨found, ⟨hfound, rfl⟩, h₁, ho₁⟩ := (take_exact _ _).invert htake
  simp only [hfound] at h₁ ho₁ ⊢
  by_cases hmagic : found ≠ magic
  · exact .inr ⟨_, ⟨0, _, rfl, Nat.zero_le _⟩, if_pos hmagic⟩
  rw [if_neg hmagic]
  have hlen₁ : bytes.length = 4 + c₁.rest.length := by rw [h₁, List.length_append, hfound]
  cases hword : readWord 4 "version" c₁ with
  | error f =>
    obtain ⟨o, e, rfl, ho⟩ := (readWord32_exact _).fault hword
    exact .inr ⟨_, ⟨o, e, rfl, by omega⟩, rfl⟩
  | ok p =>
  obtain ⟨number, c₂⟩ := p
  obtain ⟨_, ⟨-, rfl⟩, h₂, ho₂⟩ := (readWord32_exact _).invert hword
  simp only [length_word32] at ho₂ ⊢
  have hlen₂ : c₁.rest.length = 4 + c₂.rest.length := by
    rw [h₂, List.length_append, length_word32]
  by_cases hversion : number ≠ version
  · exact .inr ⟨_, ⟨4, _, rfl, by omega⟩, if_pos hversion⟩
  rw [if_neg hversion]
  cases hcounted : readCounted catalog c₂ with
  | error f =>
    obtain ⟨o, e, rfl, ho⟩ := (readCounted_exact catalog).fault hcounted
    exact .inr ⟨_, ⟨o, e, rfl, by omega⟩, rfl⟩
  | ok p =>
  obtain ⟨ds, c₃⟩ := p
  obtain ⟨_, ⟨records, hr, rfl, rfl⟩, h₃, ho₃⟩ := (readCounted_exact catalog).invert hcounted
  have hlen₃ := congrArg List.length h₃
  rw [List.length_append] at hlen₃
  simp only
  by_cases hleft : c₃.rest.length ≠ 0
  · exact .inr ⟨_, ⟨c₃.offset, _, rfl, by omega⟩, if_pos hleft⟩
  have hnil : c₃.rest = [] := by simpa using hleft
  refine .inl ⟨records, hr, ?_, if_neg hleft⟩
  rw [h₁, h₂, h₃, hnil, Decidable.not_not.1 hmagic, Decidable.not_not.1 hversion]
  simp [fileLayout]

theorem decode_fileLayout [Digest] {records : List Record} (hn : records.length < 65536)
    (hr : ∀ r ∈ records, r.Valid) (catalog : Catalog) :
    decode (fileLayout records) catalog = .ok (records.map (·.definition catalog)) := by
  have hfile : fileLayout records = magic ++ (word32 version ++
      ((word16 records.length ++ records.flatMap Record.layout) ++ [])) := by
    simp [fileLayout]
  rw [decode_eq, hfile, (take_exact 4 "file header").accept ⟨rfl, rfl⟩]
  simp only [ne_eq, not_true_eq_false, ↓reduceIte]
  rw [(readWord32_exact "version").accept ⟨by decide, rfl⟩]
  simp only [not_true_eq_false, ↓reduceIte]
  rw [(readCounted_exact catalog).accept ⟨records, ⟨hn, hr⟩, rfl, rfl⟩]
  simp

/-- Reading succeeds on files of valid records, and returns what the records stand for. -/
theorem decode_eq_ok_iff [Digest] {bytes : Bytes} {catalog : Catalog} {ds : List Definition} :
    decode bytes catalog = .ok ds ↔
      ∃ records : List Record, (records.length < 65536 ∧ ∀ r ∈ records, r.Valid) ∧
        bytes = fileLayout records ∧ ds = records.map (·.definition catalog) := by
  constructor
  · intro h
    rcases decode_sound bytes catalog with ⟨records, hr, hb, hd⟩ | ⟨f, -, hd⟩
    · exact ⟨records, hr, hb, Except.ok.inj (h.symm.trans hd)⟩
    · cases h.symm.trans hd
  · rintro ⟨records, ⟨hn, hr⟩, rfl, rfl⟩
    exact decode_fileLayout hn hr catalog

theorem exists_decode_iff [Digest] {bytes : Bytes} {catalog : Catalog} :
    (∃ ds, decode bytes catalog = .ok ds) ↔ IsFile bytes := by
  constructor
  · rintro ⟨ds, h⟩
    obtain ⟨records, hr, hb, -⟩ := decode_eq_ok_iff.1 h
    exact ⟨records, hr.1, hr.2, hb⟩
  · rintro ⟨records, hn, hr, hb⟩
    exact ⟨_, decode_eq_ok_iff.2 ⟨records, ⟨hn, hr⟩, hb, rfl⟩⟩

/-- No file continues another one. -/
theorem IsFile.prefix_free {bytes other : Bytes} (hb : IsFile bytes) (ho : IsFile other)
    (h : bytes <+: other) : bytes = other := by
  -- the layout is told from a reader, for which any digest does
  let _ : Digest := ⟨fun _ => .replicate 32 0, fun _ => List.length_replicate⟩
  obtain ⟨rs, hn, hv, rfl⟩ := hb
  obtain ⟨rs', hn', hv', rfl⟩ := ho
  obtain ⟨rest, he⟩ := h
  simp only [fileLayout, List.append_assoc, List.append_cancel_left_eq] at he
  have hcounted : (word16 rs.length ++ rs.flatMap Record.layout) ++ rest =
      (word16 rs'.length ++ rs'.flatMap Record.layout) ++ [] := by
    simpa using he
  obtain ⟨-, -, rfl⟩ := (readCounted_exact []).unique ⟨rs, ⟨hn, hv⟩, rfl, rfl⟩
    ⟨rs', ⟨hn', hv'⟩, rfl, rfl⟩ hcounted
  rw [List.append_nil] at he
  simp only [fileLayout, List.append_assoc, he]

/-- **Files are accepted, and nothing else is.** Bytes are read if and only if they are a file of
valid records; all others are refused with an offset within the data. So neither a proper part at
the front of a file nor a file with something added is accepted. -/
theorem decode_accepts_exactly_files [Digest] (bytes : Bytes) (catalog : Catalog) :
    ((∃ ds, decode bytes catalog = .ok ds) ↔ IsFile bytes) ∧
      (¬IsFile bytes → ∃ offset defect,
        decode bytes catalog = .error (.malformed offset defect) ∧ offset ≤ bytes.length) ∧
      (IsFile bytes → ∀ other, other ≠ bytes → (other <+: bytes ∨ bytes <+: other) →
        ¬∃ ds, decode other catalog = .ok ds) := by
  refine ⟨exists_decode_iff, fun hb => ?_, fun hb other hne hprefix => ?_⟩
  · rcases decode_sound bytes catalog with ⟨records, hr, heq, -⟩ | ⟨f, hf, hd⟩
    · exact absurd ⟨records, hr.1, hr.2, heq⟩ hb
    · obtain ⟨offset, defect, rfl, ho⟩ := hf
      exact ⟨offset, defect, hd, ho⟩
  · rw [exists_decode_iff]
    intro ho
    rcases hprefix with h | h
    · exact hne (ho.prefix_free hb h)
    · exact hne (hb.prefix_free ho h).symm

end SynthGraph.Scgf
