import SynthGraph.Proofs.RoundTrip

/-!
# The parameter tables of a file

A definition has one parameter per entry of the name table that it was read from. Two things of the
tables have no place in it: the values below the first named slot, and a second name of a slot. A
file that has neither keeps its tables, whatever the order of its entries. Writing never fails
after reading, but a file that lost values may name a slot that is no longer there, and then the
file that is written is refused.
-/

namespace SynthGraph.Scgf

/-! ## Telling records apart -/

/-- Counted lists of items that are read exactly can be told apart by their layouts. -/
theorem Exact.list_unique {α ρ : Type} {item : Nat → Read α} {valid : Nat → ρ → Prop} {f : ρ → α}
    {g : ρ → Bytes} (h : ∀ n, Exact (item n) (Written (valid n) f g)) {xs ys : List ρ}
    (hxs : xs.length < 4294967296 ∧ ∀ x ∈ xs, valid xs.length x)
    (hys : ys.length < 4294967296 ∧ ∀ y ∈ ys, valid ys.length y) {as bs : Bytes}
    (he : (word32 xs.length ++ xs.flatMap g) ++ as = (word32 ys.length ++ ys.flatMap g) ++ bs) :
    xs.map f = ys.map f ∧ as = bs := by
  rw [List.append_assoc, List.append_assoc] at he
  obtain ⟨hlen, -, he⟩ := (readWord32_exact "").unique ⟨hxs.1, rfl⟩ ⟨hys.1, rfl⟩ he
  obtain ⟨hmap, -, hrest⟩ := ((h xs.length).many xs.length).unique ⟨xs, ⟨rfl, hxs.2⟩, rfl, rfl⟩
    ⟨ys, ⟨hlen.symm, hlen ▸ hys.2⟩, rfl, rfl⟩ he
  exact ⟨hmap, hrest⟩

namespace Record

/-- The record is valid, except that its name table may name slots that have no value. -/
structure Loose (r : Record) : Prop where
  name : IsShort r.name
  constantCount : r.constants.length < 4294967296
  valueCount : r.values.length < 4294967296
  nameCount : r.names.length < 4294967296
  ugenCount : r.ugens.length < 4294967296
  names : ∀ entry ∈ r.names, IsShort entry.1 ∧ entry.2 < 4294967296
  ugens : ∀ u ∈ r.ugens, u.Valid r.constants.length r.outputCounts

theorem Valid.loose {r : Record} (hr : r.Valid) : r.Loose := by
  refine { hr with names := fun e he => ⟨(hr.names e he).1, ?_⟩ }
  exact Nat.lt_trans (hr.names e he).2 hr.valueCount

theorem Loose.valid {r : Record} (hr : r.Loose) (hslots : ∀ e ∈ r.names, e.2 < r.values.length) :
    r.Valid :=
  { hr with names := fun e he => ⟨(hr.names e he).1, hslots e he⟩ }

/-- The layout of a record shows its tables, and where it ends. -/
theorem Loose.unique {r r' : Record} (hr : r.Loose) (hr' : r'.Loose) {as bs : Bytes}
    (he : r.layout ++ as = r'.layout ++ bs) :
    r.values = r'.values ∧ r.names = r'.names ∧ as = bs := by
  have hlayout : ∀ (r : Record) (as : Bytes), r.layout ++ as = textLayout r.name ++
      ((word32 r.constants.length ++ r.constants.flatMap single) ++
      ((word32 r.values.length ++ r.values.flatMap single) ++
      ((word32 r.names.length ++ r.names.flatMap nameLayout) ++
      ((word32 r.ugens.length ++ r.ugens.flatMap UGenRecord.layout) ++ (word16 0 ++ as))))) := by
    intro r as
    simp [layout, body]
  have hugens : ∀ {r : Record}, r.Loose →
      ∀ u ∈ r.ugens, u.Readable r.constants.length r.ugens.length := fun hr =>
    ((valid_ugens_iff [] hr.constantCount hr.ugenCount).1 hr.ugens).1
  rw [hlayout, hlayout] at he
  obtain ⟨-, -, he⟩ := (readText_exact "").unique ⟨_, hr.name, rfl, rfl⟩ ⟨_, hr'.name, rfl, rfl⟩ he
  obtain ⟨hconstants, he⟩ := Exact.list_unique (fun _ => readSingle_exact "")
    ⟨hr.constantCount, fun _ _ => trivial⟩ ⟨hr'.constantCount, fun _ _ => trivial⟩ he
  obtain ⟨hvalues, he⟩ := Exact.list_unique (fun _ => readSingle_exact "")
    ⟨hr.valueCount, fun _ _ => trivial⟩ ⟨hr'.valueCount, fun _ _ => trivial⟩ he
  have hnames : ∀ {r : Record}, r.Loose → ∀ e ∈ r.names,
      IsShort e.1 ∧ e.2 < 4294967296 ∧ e.2 < 4294967296 := fun hr e he =>
    ⟨(hr.names e he).1, (hr.names e he).2, (hr.names e he).2⟩
  obtain ⟨hentries, he⟩ := Exact.list_unique (fun _ => readName_exact 4294967296)
    ⟨hr.nameCount, hnames hr⟩ ⟨hr'.nameCount, hnames hr'⟩ he
  rw [List.map_id, List.map_id] at hconstants hvalues hentries
  have hugens' := hugens hr'
  rw [← hconstants] at hugens'
  obtain ⟨-, he⟩ := Exact.list_unique (readUGen_exact [] r.constants)
    ⟨hr.ugenCount, hugens hr⟩ ⟨hr'.ugenCount, hugens'⟩ he
  exact ⟨hvalues, hentries, List.append_cancel_left he⟩

end Record

/-- Records that are laid out alike have the same tables. -/
theorem tables_unique {rs rs' : List Record} (hr : ∀ r ∈ rs, r.Loose) (hr' : ∀ r ∈ rs', r.Loose)
    (hlen : rs.length = rs'.length) (he : rs.flatMap Record.layout = rs'.flatMap Record.layout) :
    rs.map (fun r => (r.values, r.names)) = rs'.map fun r => (r.values, r.names) := by
  induction rs generalizing rs' with
  | nil =>
    rw [List.length_eq_zero_iff.1 hlen.symm]
  | cons r rs ih =>
    obtain ⟨r', rs', rfl⟩ := List.exists_cons_of_length_eq_add_one hlen.symm
    rw [List.flatMap_cons, List.flatMap_cons] at he
    obtain ⟨hvalues, hnames, he⟩ := (hr r (by simp)).unique (hr' r' (by simp)) he
    have hrest := ih (fun r h => hr r (by simp [h])) (fun r h => hr' r (by simp [h]))
      (by simpa using hlen) he
    rw [List.map_cons, List.map_cons, hvalues, hnames, hrest]

/-- Loose records make a file if every slot that is named has a value. -/
theorem isFile_fileLayout_iff {rs : List Record} (hn : rs.length < 65536)
    (hr : ∀ r ∈ rs, r.Loose) :
    IsFile (fileLayout rs) ↔ ∀ r ∈ rs, ∀ e ∈ r.names, e.2 < r.values.length := by
  constructor
  · rintro ⟨rs', hn', hr', he⟩ r hmem
    simp only [fileLayout, List.append_assoc, List.append_cancel_left_eq] at he
    obtain ⟨hlen, -, he⟩ := (readWord16_exact "").unique ⟨hn, rfl⟩ ⟨hn', rfl⟩ he
    have htables := tables_unique hr (fun r h => (hr' r h).loose) hlen he
    have hmem := List.mem_map_of_mem (f := fun r : Record => (r.values, r.names)) hmem
    rw [htables] at hmem
    obtain ⟨r', hmem', heq⟩ := List.mem_map.1 hmem
    obtain ⟨hvalues, hnames⟩ := Prod.mk.inj heq
    rw [← hvalues, ← hnames]
    exact fun e he => ((hr' r' hmem').names e he).2
  · intro h
    exact ⟨rs, hn, fun r hmem => (hr r hmem).valid (h r hmem), rfl⟩

/-! ## Writing what was read -/

namespace Record

variable {r : Record}

theorem ugens_definition [Digest] (r : Record) (catalog : Catalog) : (r.definition catalog).ugens =
    r.ugens.map fun u => attach (r.parameters catalog) (u.node catalog r.constants) := by
  rw [definition_eq]
  exact List.map_map

/-- What a generator that is read refers to has been read too. -/
theorem exists_source (hv : r.Valid) {catalog : Catalog} {u : Node}
    (hu : u ∈ (r.tables catalog).ugens) {ref : NodeRef} (href : ref ∈ u.refs) :
    ∃ v, (r.tables catalog).ugens[ref.ugen]? = some v ∧ ref.output < v.outputs := by
  obtain ⟨w, hw, rfl⟩ := List.mem_map.1 hu
  obtain ⟨hmark, hinput⟩ := mem_refs_node.1 href
  have hexists := (hv.ugens w hw).inputs _ hinput
  rw [InputExists, if_neg hmark] at hexists
  obtain ⟨count, hcount, hlt⟩ := hexists
  rw [outputCounts, List.getElem?_map, Option.map_eq_some_iff] at hcount
  obtain ⟨source, hsource, rfl⟩ := hcount
  refine ⟨source.node catalog r.constants, ?_, hlt⟩
  rw [tables, List.getElem?_map, hsource, Option.map_some]

theorem connected_definition [Digest] (hv : r.Valid) (catalog : Catalog) :
    (r.definition catalog).Connected := by
  rw [definition_eq]
  intro u hu ref href
  obtain ⟨w, hw, rfl⟩ := List.mem_map.1 hu
  rw [refs_attach] at href
  obtain ⟨v, hv, hlt⟩ := exists_source hv hw href
  refine ⟨attach (r.parameters catalog) v, ?_, (attach_outputs _ v).symm ▸ hlt⟩
  exact (List.getElem?_map ..).trans (by rw [hv, Option.map_some])

theorem slotCount_definition [Digest] (hv : r.Valid) (catalog : Catalog) :
    (r.definition catalog).slotCount = r.keptValues.length := by
  rw [Definition.slotCount, definition_eq]
  exact congrArg List.length (flatMap_parameters hv catalog)

theorem length_keptValues_le (r : Record) : r.keptValues.length ≤ r.values.length := by
  rw [keptValues, List.length_drop]
  omega

theorem fits_definition [Digest] (hv : r.Valid) (catalog : Catalog) :
    (r.definition catalog).Fits := by
  constructor
  case slots =>
    rw [slotCount_definition hv]
    exact Nat.lt_of_le_of_lt r.length_keptValues_le hv.valueCount
  case ugens =>
    rw [ugens_definition, List.length_map]
    exact hv.ugenCount
  case inputs =>
    intro u hu
    rw [ugens_definition] at hu
    obtain ⟨w, hw, rfl⟩ := List.mem_map.1 hu
    rw [attach_inputs]
    simpa [UGenRecord.node] using (hv.ugens w hw).inputCount
  case outputs =>
    intro u hu
    rw [ugens_definition] at hu
    obtain ⟨w, hw, rfl⟩ := List.mem_map.1 hu
    rw [attach_outputs]
    exact (hv.ugens w hw).outputCount

theorem writable_definition [Digest] (hv : r.Valid) (catalog : Catalog) :
    (r.definition catalog).Writable := by
  rw [definition_eq]
  exact ⟨(writable_content hv catalog).names, (writable_content hv catalog).ugens⟩

theorem values_definition [Digest] (hv : r.Valid) (catalog : Catalog) :
    (r.definition catalog).parameters.flatMap (·.1.values) = r.keptValues := by
  rw [definition_eq]
  exact flatMap_parameters hv catalog

theorem names_definition [Digest] (r : Record) (catalog : Catalog) :
    (r.definition catalog).indexedParameters.map (fun p => (p.1.name, p.2)) = r.keptNames := by
  rw [definition_eq]
  exact r.map_indexedParameters catalog

theorem isShort_fileRecord [Digest] (hv : r.Valid) (catalog : Catalog) (anonymous : Bool) :
    IsShort ((r.definition catalog).fileRecord anonymous).name := by
  rw [definition_eq]
  simp only [Definition.fileRecord, Definition.record, Definition.writtenName]
  split
  · exact Definition.isShort_digestName _
  · split
    · exact Definition.isShort_digestName _
    · exact hv.name

theorem length_definition [Digest] (r : Record) (catalog : Catalog) :
    (r.definition catalog).indexedParameters.length = (r.definition catalog).parameters.length := by
  rw [definition_eq]
  exact r.length_indexedParameters catalog

/-- What is read is written as a record that is valid but for the slots it names. -/
theorem loose_fileRecord [Digest] (hv : r.Valid) (catalog : Catalog) (anonymous : Bool) :
    ((r.definition catalog).fileRecord anonymous).Loose := by
  have hconstants : (r.definition catalog).constants = r.constants := by rw [definition_eq]; rfl
  have hnames : ((r.definition catalog).fileRecord anonymous).names = r.keptNames :=
    r.names_definition catalog
  constructor
  case name => exact isShort_fileRecord hv catalog anonymous
  case constantCount =>
    rw [Definition.fileRecord, Definition.record, hconstants]
    exact hv.constantCount
  case valueCount => exact (fits_definition hv catalog).slots
  case nameCount =>
    rw [hnames, keptNames, List.length_map]
    exact hv.nameCount
  case ugenCount =>
    rw [Definition.fileRecord, Definition.record, List.length_map]
    exact (fits_definition hv catalog).ugens
  case names =>
    intro e he
    rw [hnames] at he
    exact hv.loose.names e (mem_names_of_mem_keptNames he)
  case ugens =>
    exact (connected_definition hv catalog).valid_ugens (fits_definition hv catalog)
      (writable_definition hv catalog) _

end Record

/-- Definitions that were read are written, as the records that are left of theirs. -/
theorem encode_decoded [Digest] {records : List Record} (hn : records.length < 65536)
    (hr : ∀ r ∈ records, r.Valid) (catalog : Catalog) (anonymous : Bool) :
    encode (records.map (·.definition catalog)) anonymous =
      .ok (fileLayout (records.map fun r => (r.definition catalog).fileRecord anonymous)) := by
  refine (encode_eq_ok_iff ?_).2 ⟨by simpa using hn, ?_, by rw [List.map_map]; rfl⟩
  · exact List.forall_mem_map.2 fun r _ => r.length_definition catalog
  · exact List.forall_mem_map.2 fun r h =>
      ⟨Record.writable_definition (hr r h) catalog, Record.isShort_fileRecord (hr r h) catalog _⟩

/-- What is written after reading is read again if every slot that is named still has a value. -/
theorem isFile_decoded_iff [Digest] {records : List Record} (hn : records.length < 65536)
    (hr : ∀ r ∈ records, r.Valid) (catalog : Catalog) (anonymous : Bool) :
    IsFile (fileLayout (records.map fun r => (r.definition catalog).fileRecord anonymous)) ↔
      ∀ r ∈ records, ∀ e ∈ r.names, e.2 < r.keptValues.length := by
  rw [isFile_fileLayout_iff (by simpa using hn)
    (List.forall_mem_map.2 fun r h => Record.loose_fileRecord (hr r h) catalog anonymous),
    List.forall_mem_map]
  refine forall₂_congr fun r h => ?_
  have hvalues : ((r.definition catalog).fileRecord anonymous).values = r.keptValues :=
    Record.values_definition (hr r h) catalog
  have hnames : ((r.definition catalog).fileRecord anonymous).names = r.keptNames :=
    r.names_definition catalog
  have hslots : (∀ slot ∈ r.keptNames.map (·.2), slot < r.keptValues.length) ↔
      ∀ slot ∈ r.names.map (·.2), slot < r.keptValues.length := by
    rw [r.map_slot_keptNames]
  rw [List.forall_mem_map, List.forall_mem_map] at hslots
  rwa [hvalues, hnames]

/-! ## What is left of the tables -/

/-- The parameters of the definition are those of the tables: the values from the first named slot
on, and the names with the first one of each slot. Both tables are kept if each slot has one name
and the first slot has a name. -/
structure Record.Tabulates (r : Record) (d : Definition) : Prop where
  names : d.indexedParameters.map (fun p => (p.1.name, p.2)) = r.keptNames
  values : d.parameters.flatMap (·.1.values) = r.keptValues
  allNames : r.keptNames = r.names ↔ ∀ e ∈ r.names, ∀ f ∈ r.names, e.2 = f.2 → e.1 = f.1
  allValues : r.keptValues = r.values ↔ r.values = [] ∨ 0 ∈ r.names.map (·.2)

theorem Record.tabulates_definition [Digest] {r : Record} (hv : r.Valid) (catalog : Catalog) :
    r.Tabulates (r.definition catalog) :=
  ⟨r.names_definition catalog, values_definition hv catalog, keptNames_eq_iff, keptValues_eq_iff⟩

/-- **What becomes of the parameter tables of a file.** Each definition has the parameters of its
tables, in the order of the file. Writing the definitions always succeeds and gives these tables
again, and the result is accepted if and only if each named slot still has a value. -/
theorem decode_keeps_tables [Digest] {bytes : Bytes} {catalog : Catalog} {ds : List Definition}
    (h : decode bytes catalog = .ok ds) :
    ∃ records : List Record, (∀ r ∈ records, r.Valid) ∧ bytes = fileLayout records ∧
      ds = records.map (·.definition catalog) ∧
      (∀ r ∈ records, r.Tabulates (r.definition catalog)) ∧
      ∀ anonymous, ∃ written : List Record, encode ds anonymous = .ok (fileLayout written) ∧
        written.map (fun r => (r.values, r.names)) =
          records.map (fun r => (r.keptValues, r.keptNames)) ∧
        ∀ catalog', (∃ ds', decode (fileLayout written) catalog' = .ok ds') ↔
          ∀ r ∈ records, ∀ e ∈ r.names, e.2 < r.keptValues.length := by
  obtain ⟨records, ⟨hn, hr⟩, rfl, rfl⟩ := decode_eq_ok_iff.1 h
  refine ⟨records, hr, rfl, rfl, fun r hmem => Record.tabulates_definition (hr r hmem) catalog,
    fun anonymous => ⟨_, encode_decoded hn hr catalog anonymous, ?_, fun catalog' => ?_⟩⟩
  · rw [List.map_map]
    refine List.map_congr_left fun r hmem => ?_
    exact Prod.ext (Record.values_definition (hr r hmem) catalog) (r.names_definition catalog)
  · rw [exists_decode_iff]
    exact isFile_decoded_iff hn hr catalog anonymous

/-- The first of two slots has no name. -/
def lateRecord : Record where
  name := "late"
  constants := []
  values := [1, 2]
  names := [("level", 1)]
  ugens := []

/-- One slot has two names. -/
def sharedRecord : Record where
  name := "shared"
  constants := []
  values := [1]
  names := [("level", 0), ("amount", 0)]
  ugens := []

theorem valid_lateRecord : ∀ r ∈ [lateRecord], r.Valid := by decide +kernel

theorem valid_sharedRecord : ∀ r ∈ [sharedRecord], r.Valid := by decide +kernel

theorem decode_tables_lateRecord : ∃ ds,
    decode (fileLayout [lateRecord, sharedRecord]) [] = .ok ds ∧
    (∃ records : List Record, (∀ r ∈ records, r.Valid) ∧
      fileLayout [lateRecord, sharedRecord] = fileLayout records ∧
      ds = records.map (·.definition []) ∧ (∀ r ∈ records, r.Tabulates (r.definition [])) ∧
      ∀ anonymous, ∃ written : List Record, encode ds anonymous = .ok (fileLayout written) ∧
        written.map (fun r => (r.values, r.names)) =
          records.map (fun r => (r.keptValues, r.keptNames)) ∧
        ∀ catalog', (∃ ds', decode (fileLayout written) catalog' = .ok ds') ↔
          ∀ r ∈ records, ∀ e ∈ r.names, e.2 < r.keptValues.length) ∧
    lateRecord.keptValues = [2] ∧ sharedRecord.keptNames = [("level", 0), ("level", 0)] := by
  have hread : decode (fileLayout [lateRecord, sharedRecord]) [] =
      .ok ([lateRecord, sharedRecord].map (·.definition [])) :=
    decode_fileLayout (by decide) (by decide +kernel) []
  exact ⟨_, hread, decode_keeps_tables hread, by decide +kernel, by decide +kernel⟩

/-- A file may come back with another name for a parameter; and one may come back without its first
value, and then what is written is refused. -/
theorem exists_decode_tables_lost :
    (∃ d, decode (fileLayout [sharedRecord]) [] = .ok [d] ∧
      d.indexedParameters.map (fun p => (p.1.name, p.2)) ≠ sharedRecord.names) ∧
    ∃ d file, decode (fileLayout [lateRecord]) [] = .ok [d] ∧
      d.parameters.flatMap (·.1.values) ≠ lateRecord.values ∧ d.encode false = .ok file ∧
      ¬∃ ds, decode file [] = .ok ds := by
  constructor
  · refine ⟨sharedRecord.definition [], decode_fileLayout (by decide) valid_sharedRecord [], ?_⟩
    rw [Record.names_definition]
    decide +kernel
  · refine ⟨lateRecord.definition [], _, decode_fileLayout (by decide) valid_lateRecord [], ?_,
      encode_decoded (by decide) valid_lateRecord [] false, ?_⟩
    · rw [Record.values_definition (valid_lateRecord _ (by simp))]
      decide +kernel
    · rw [exists_decode_iff, isFile_decoded_iff (by decide) valid_lateRecord]
      decide +kernel

end SynthGraph.Scgf
