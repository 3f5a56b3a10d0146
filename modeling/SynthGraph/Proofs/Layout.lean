import SynthGraph.Proofs.Reading

/-!
# The layout of definition files

`Record` holds a definition the way a file does: numbers where a definition has references, and a
rate byte per output. `Record.layout` writes it down field by field, and `Record.Valid` says which
records make sense. `IsFile` puts records together to a file. The readers are exact for these
layouts, so a file is read if and only if it is laid out this way.
-/

namespace SynthGraph.Scgf

/-! ## Records -/

/-- A generator as a file holds it. -/
structure UGenRecord where
  className : String
  rate : Rate
  special : UInt16
  /-- A generator and one of its outputs, or `constantMark` and a position in the constants. -/
  inputs : List (Nat × Nat)
  /-- One byte per output, of any value. -/
  outputRates : List UInt8
  deriving DecidableEq, Repr

/-- A definition as a file holds it. -/
structure Record where
  name : String
  constants : List Single
  values : List Single
  /-- The name table: a parameter and its first slot. -/
  names : List (String × Nat)
  ugens : List UGenRecord
  deriving DecidableEq, Repr

/-- A text: its size in one byte, and its UTF-8 form. -/
def textLayout (s : String) : Bytes := word8 s.utf8ByteSize ++ s.toUTF8.toList

def inputLayout (input : Nat × Nat) : Bytes := word32 input.1 ++ word32 input.2

def nameLayout (entry : String × Nat) : Bytes := textLayout entry.1 ++ word32 entry.2

def UGenRecord.layout (u : UGenRecord) : Bytes :=
  textLayout u.className ++ word8 u.rate.index ++ word32 u.inputs.length ++
    word32 u.outputRates.length ++ word16 u.special.toNat ++ u.inputs.flatMap inputLayout ++
    u.outputRates

namespace Record

/-- Everything after the name; the last number counts variants. -/
def body (r : Record) : Bytes :=
  word32 r.constants.length ++ r.constants.flatMap single ++
    word32 r.values.length ++ r.values.flatMap single ++
    word32 r.names.length ++ r.names.flatMap nameLayout ++
    word32 r.ugens.length ++ r.ugens.flatMap UGenRecord.layout ++ word16 0

def layout (r : Record) : Bytes := textLayout r.name ++ r.body

/-- The number of outputs of each generator. -/
def outputCounts (r : Record) : List Nat := r.ugens.map (·.outputRates.length)

end Record

/-- The text fits the byte that holds its size. -/
def IsShort (s : String) : Prop := s.utf8ByteSize < 256

/-- The input names a constant that exists, or an output that exists. -/
def InputExists (constants : Nat) (outputs : List Nat) (input : Nat × Nat) : Prop :=
  if input.1 = constantMark then input.2 < constants
  else ∃ count, outputs[input.1]? = some count ∧ input.2 < count

structure UGenRecord.Valid (u : UGenRecord) (constants : Nat) (outputs : List Nat) : Prop where
  className : IsShort u.className
  inputCount : u.inputs.length < 4294967296
  outputCount : u.outputRates.length < 4294967296
  inputs : ∀ input ∈ u.inputs, InputExists constants outputs input

structure Record.Valid (r : Record) : Prop where
  name : IsShort r.name
  constantCount : r.constants.length < 4294967296
  valueCount : r.values.length < 4294967296
  nameCount : r.names.length < 4294967296
  ugenCount : r.ugens.length < 4294967296
  names : ∀ entry ∈ r.names, IsShort entry.1 ∧ entry.2 < r.values.length
  ugens : ∀ u ∈ r.ugens, u.Valid r.constants.length r.outputCounts

theorem Record.Valid.rename {r : Record} (hr : r.Valid) {name : String} (hn : IsShort name) :
    ({ r with name } : Record).Valid :=
  { hr with name := hn }

instance (s : String) : Decidable (IsShort s) := inferInstanceAs (Decidable (_ < _))

instance (constants : Nat) (outputs : List Nat) (input : Nat × Nat) :
    Decidable (InputExists constants outputs input) :=
  decidable_of_iff (if input.1 = constantMark then input.2 < constants
      else input.2 < outputs.getD input.1 0) <| by
    unfold InputExists
    split
    · rfl
    · cases h : outputs[input.1]? <;> simp [List.getD, h]

instance (u : UGenRecord) (constants : Nat) (outputs : List Nat) :
    Decidable (u.Valid constants outputs) :=
  decidable_of_iff (IsShort u.className ∧ u.inputs.length < 4294967296 ∧
      u.outputRates.length < 4294967296 ∧ ∀ input ∈ u.inputs, InputExists constants outputs input)
    ⟨fun ⟨hc, hi, ho, h⟩ => ⟨hc, hi, ho, h⟩, fun ⟨hc, hi, ho, h⟩ => ⟨hc, hi, ho, h⟩⟩

instance (r : Record) : Decidable r.Valid :=
  decidable_of_iff (IsShort r.name ∧ r.constants.length < 4294967296 ∧
      r.values.length < 4294967296 ∧ r.names.length < 4294967296 ∧ r.ugens.length < 4294967296 ∧
      (∀ entry ∈ r.names, IsShort entry.1 ∧ entry.2 < r.values.length) ∧
      ∀ u ∈ r.ugens, u.Valid r.constants.length r.outputCounts)
    ⟨fun ⟨h, hc, hv, hn, hu, hns, hus⟩ => ⟨h, hc, hv, hn, hu, hns, hus⟩,
      fun ⟨h, hc, hv, hn, hu, hns, hus⟩ => ⟨h, hc, hv, hn, hu, hns, hus⟩⟩

/-- The header, the version, a count, and that many records. -/
def fileLayout (records : List Record) : Bytes :=
  magic ++ word32 version ++ word16 records.length ++ records.flatMap Record.layout

/-- The bytes are a file of valid records. -/
def IsFile (bytes : Bytes) : Prop :=
  ∃ records : List Record, records.length < 65536 ∧ (∀ r ∈ records, r.Valid) ∧
    bytes = fileLayout records

/-! ## What records stand for -/

/-- The input that a pair of numbers stands for. -/
def inputOf (constants : List Single) (input : Nat × Nat) : Input :=
  if input.1 = constantMark then .constant (constants.getD input.2 default)
  else .node ⟨input.1, input.2⟩

def UGenRecord.node (u : UGenRecord) (catalog : Catalog) (constants : List Single) : Node :=
  let descriptor? := catalog.lookup? u.className <|> Catalog.synthesized.lookup? u.className
  { className := u.className
    rate := u.rate
    special := u.special
    inputs := u.inputs.map (inputOf constants)
    keys := inputKeys descriptor? u.inputs.length
    outputs := u.outputRates.length
    flags := (descriptor?.map (·.flags)).getD {} }

namespace Record

def tables (r : Record) (catalog : Catalog) : Tables where
  name := r.name
  constants := r.constants
  values := r.values
  names := r.names
  ugens := r.ugens.map (·.node catalog r.constants)

/-- The definition that is read from a record. -/
def definition [Digest] (r : Record) (catalog : Catalog) : Definition :=
  (r.tables catalog).definition

end Record

/-! ## The readers are exact -/

theorem length_textLayout (s : String) : (textLayout s).length = 1 + s.utf8ByteSize := by
  rw [textLayout, List.length_append, length_word8, length_toUTF8]

theorem readText_exact (what : String) :
    Exact (readText what) (Written IsShort id textLayout) := by
  refine ((readWord8_exact what).bind fun size _ _ =>
    (take_exact size what).bind fun bytes _ _ =>
      (?text : Exact _ fun (s : String) bs => bytes = s.toUTF8.toList ∧ bs = [])).congr
    fun s bs => ⟨?_, ?_⟩
  case text =>
    split
    · next t ht =>
      refine (Exact.pure t).congr fun s bs => and_congr_left fun _ => ?_
      rw [← fromUTF8_eq_some, ht, Option.some.injEq, eq_comm]
    · next ht =>
      refine (Exact.fail _).congr fun s bs => ⟨False.elim, fun h => ?_⟩
      rw [fromUTF8_eq_some.2 h.1] at ht
      cases ht
  · rintro ⟨size, _, _, ⟨hs, rfl⟩, ⟨bytes, _, _, ⟨hb, rfl⟩, ⟨rfl, rfl⟩, rfl⟩, rfl⟩
    rw [length_toUTF8] at hb
    exact ⟨s, by rwa [IsShort, hb], rfl, by simp [textLayout, hb]⟩
  · rintro ⟨s, hs, rfl, rfl⟩
    exact ⟨s.utf8ByteSize, _, _, ⟨hs, rfl⟩,
      ⟨_, _, [], ⟨length_toUTF8 s, rfl⟩, ⟨rfl, rfl⟩, rfl⟩, by simp [textLayout]⟩

theorem readSingle_exact (what : String) :
    Exact (readSingle what) (Written (fun _ => True) id single) := by
  refine ((readWord32_exact what).bind fun n _ _ => Exact.pure (⟨n.toUInt32⟩ : Single)).congr
    fun s bs => ⟨?_, ?_⟩
  · rintro ⟨n, _, _, ⟨hn, rfl⟩, ⟨rfl, rfl⟩, rfl⟩
    refine ⟨_, trivial, rfl, ?_⟩
    rw [List.append_nil, single, Nat.toUInt32, UInt32.toNat_ofNat_of_lt' hn]
  · rintro ⟨s, -, rfl, rfl⟩
    exact ⟨s.bits.toNat, _, [], ⟨s.bits.toNat_lt, rfl⟩, ⟨by simp, rfl⟩, by simp [single]⟩

theorem readName_exact (count : Nat) :
    Exact (readName count)
      (Written (fun e : String × Nat => IsShort e.1 ∧ e.2 < 4294967296 ∧ e.2 < count) id
        nameLayout) := by
  have hcheck : ∀ (name : String) (slot : Nat), Exact
      (if slot < count then pure (name, slot) else fail (.slotOutOfRange name slot count) :
        Read (String × Nat))
      fun e bs => slot < count ∧ e = (name, slot) ∧ bs = [] := by
    intro name slot
    refine (Exact.ite (fun _ => Exact.pure (name, slot)) fun _ => Exact.fail _).congr
      fun e bs => ?_
    split <;> simp [*]
  refine ((readText_exact _).bind fun name _ _ =>
    (readWord32_exact _).bind fun slot _ _ => hcheck name slot).congr fun e bs => ⟨?_, ?_⟩
  · rintro ⟨_, _, _, ⟨name, hs, rfl, rfl⟩, ⟨slot, _, _, ⟨hn, rfl⟩, ⟨hslot, rfl, rfl⟩, rfl⟩, rfl⟩
    exact ⟨(_, slot), ⟨hs, hn, hslot⟩, rfl, by simp [nameLayout]⟩
  · rintro ⟨⟨name, slot⟩, ⟨hs, hn, hslot⟩, rfl, rfl⟩
    exact ⟨name, _, _, ⟨name, hs, rfl, rfl⟩, ⟨slot, _, [], ⟨hn, rfl⟩, ⟨hslot, rfl, rfl⟩, rfl⟩,
      by simp [nameLayout]⟩

/-- What reading an input checks of it: the output it names is looked at later. -/
def InputReadable (constants ugens : Nat) (input : Nat × Nat) : Prop :=
  input.1 < 4294967296 ∧ input.2 < 4294967296 ∧
    if input.1 = constantMark then input.2 < constants else input.1 < ugens

theorem readInput_exact (className : String) (constants : List Single) (ugens : Nat) :
    Exact (readInput className constants.toArray ugens)
      (Written (InputReadable constants.length ugens) (inputOf constants) inputLayout) := by
  refine ((readWord32_exact _).bind fun source _ _ => (readWord32_exact _).bind fun index _ _ =>
    (?checked : Exact _ fun input bs =>
      (if source = constantMark then index < constants.length else source < ugens) ∧
        input = inputOf constants (source, index) ∧ bs = [])).congr fun input bs => ⟨?_, ?_⟩
  case checked =>
    by_cases hs : source = constantMark
    · simp only [if_pos hs, inputOf, List.getElem?_toArray]
      by_cases hi : index < constants.length
      · rw [List.getElem?_eq_getElem hi]
        refine (Exact.pure _).congr fun input bs => ?_
        simp [hi]
      · rw [List.getElem?_eq_none (Nat.le_of_not_lt hi)]
        exact (Exact.fail _).congr fun input bs => by simp [hi]
    · simp only [if_neg hs, inputOf]
      refine (Exact.ite (fun _ => Exact.pure _) fun _ => Exact.fail _).congr fun input bs => ?_
      split <;> simp [*]
  · rintro ⟨source, _, _, ⟨hs, rfl⟩, ⟨index, _, _, ⟨hi, rfl⟩, ⟨hc, rfl, rfl⟩, rfl⟩, rfl⟩
    exact ⟨(source, index), ⟨hs, hi, hc⟩, rfl, by simp [inputLayout]⟩
  · rintro ⟨⟨source, index⟩, ⟨hs, hi, hc⟩, rfl, rfl⟩
    exact ⟨source, _, _, ⟨hs, rfl⟩, ⟨index, _, [], ⟨hi, rfl⟩, ⟨hc, rfl, rfl⟩, rfl⟩,
      by simp [inputLayout]⟩

/-- What reading a generator checks of it. -/
structure UGenRecord.Readable (u : UGenRecord) (constants ugens : Nat) : Prop where
  className : IsShort u.className
  inputCount : u.inputs.length < 4294967296
  outputCount : u.outputRates.length < 4294967296
  inputs : ∀ input ∈ u.inputs, InputReadable constants ugens input

theorem length_inputLayout (input : Nat × Nat) : (inputLayout input).length = 8 := rfl

theorem ofIndex?_eq_some {n : Nat} {rate : Rate} :
    Rate.ofIndex? n = some rate ↔ n = rate.index := by
  match n with
  | 0 | 1 | 2 | 3 => cases rate <;> simp [Rate.ofIndex?, Rate.all, Rate.index]
  | n + 4 => cases rate <;> simp [Rate.ofIndex?, Rate.all, Rate.index]

/-- The layout of a generator after the number of its inputs. -/
def UGenRecord.wiring (u : UGenRecord) : Bytes :=
  word32 u.outputRates.length ++ word16 u.special.toNat ++ u.inputs.flatMap inputLayout ++
    u.outputRates

theorem readWiring_exact (catalog : Catalog) (constants : List Single) (ugens : Nat)
    (className : String) (rate : Rate) (inputCount : Nat) :
    Exact (readWiring catalog constants.toArray ugens className rate inputCount)
      (Written (fun u : UGenRecord => (u.className = className ∧ u.rate = rate ∧
          u.inputs.length = inputCount) ∧ u.outputRates.length < 4294967296 ∧
          ∀ input ∈ u.inputs, InputReadable constants.length ugens input)
        (·.node catalog constants) UGenRecord.wiring) := by
  refine ((readWord32_exact "output count").bind fun outputs _ _ =>
    (readWord16_exact "special index").bind fun special _ _ =>
    ((readInput_exact className constants ugens).many inputCount).bind fun inputs _ _ =>
    ((take_exact outputs "output rate").bind fun _ _ _ => Exact.pure _).roomy
      fun node bs => ?_).congr fun node bs => ⟨?_, ?_⟩
  · rintro ⟨rates, _, _, ⟨rfl, rfl⟩, ⟨rfl, rfl⟩, rfl⟩
    simp
  · rintro ⟨outputs, _, _, ⟨ho, rfl⟩, ⟨special, _, _, ⟨hs, rfl⟩, ⟨_, _, _,
      ⟨inputs, ⟨hl, hi⟩, rfl, rfl⟩, ⟨_, rates, _, ⟨rfl, rfl⟩, ⟨rfl, rfl⟩, rfl⟩, rfl⟩, rfl⟩, rfl⟩
    refine ⟨⟨className, rate, special.toUInt16, inputs, rates⟩, ⟨⟨rfl, rfl, hl⟩, ho, hi⟩, ?_, ?_⟩
    · simp [UGenRecord.node, hl]
    · rw [UGenRecord.wiring, Nat.toUInt16, UInt16.toNat_ofNat_of_lt' hs]
      simp
  · rintro ⟨u, ⟨⟨rfl, rfl, rfl⟩, ho, hi⟩, rfl, rfl⟩
    refine ⟨u.outputRates.length, _, _, ⟨ho, rfl⟩, ⟨u.special.toNat, _, _,
      ⟨u.special.toNat_lt, rfl⟩, ⟨_, _, _, ⟨u.inputs, ⟨rfl, hi⟩, rfl, rfl⟩,
      ⟨u.outputRates, _, _, ⟨rfl, rfl⟩, ⟨?_, rfl⟩, rfl⟩, rfl⟩, rfl⟩, ?_⟩
    · simp [UGenRecord.node]
    · simp [UGenRecord.wiring]

theorem readUGen_exact (catalog : Catalog) (constants : List Single) (ugens : Nat) :
    Exact (readUGen catalog constants.toArray ugens)
      (Written (fun u : UGenRecord => u.Readable constants.length ugens)
        (·.node catalog constants) UGenRecord.layout) := by
  refine ((readText_exact "ugen class").bind fun className _ _ =>
    (readWord8_exact "ugen rate").bind fun index _ _ =>
    (?rated : Exact _ (Written (fun u : UGenRecord =>
        (u.className = className ∧ u.rate.index = index) ∧
          u.inputs.length < 4294967296 ∧ u.outputRates.length < 4294967296 ∧
          ∀ input ∈ u.inputs, InputReadable constants.length ugens input)
      (·.node catalog constants) fun u => word32 u.inputs.length ++ u.wiring))).congr
      fun node bs => ⟨?_, ?_⟩
  case rated =>
    split
    · next rate hr =>
      obtain rfl := ofIndex?_eq_some.1 hr
      refine (Exact.counted (fun n _ => readWiring_exact catalog constants ugens className rate n)
        ?_).congr fun node bs => ⟨?_, ?_⟩
      · rintro n _ _ ⟨u, ⟨⟨-, -, rfl⟩, -⟩, rfl, rfl⟩
        have : u.inputs.length * 8 ≤ (u.inputs.flatMap inputLayout).length :=
          length_flatMap_ge fun i _ => Nat.le_of_eq (length_inputLayout i).symm
        simp only [UGenRecord.wiring, List.length_append]
        omega
      · rintro ⟨_, _, hn, ⟨u, ⟨⟨hc, rfl, rfl⟩, ho, hi⟩, rfl, rfl⟩, rfl⟩
        exact ⟨u, ⟨⟨hc, rfl⟩, hn, ho, hi⟩, rfl, rfl⟩
      · rintro ⟨u, ⟨⟨hc, hr⟩, hn, ho, hi⟩, rfl, rfl⟩
        have hu : u.rate = rate := by
          have hu : Rate.ofIndex? u.rate.index = some u.rate := ofIndex?_eq_some.2 rfl
          rw [hr, ofIndex?_eq_some.2 rfl] at hu
          exact (Option.some.inj hu).symm
        exact ⟨_, _, hn, ⟨u, ⟨⟨hc, hu, rfl⟩, ho, hi⟩, rfl, rfl⟩, rfl⟩
    · next hr =>
      refine (Exact.fail _).congr fun node bs => ⟨False.elim, ?_⟩
      rintro ⟨u, ⟨⟨-, rfl⟩, -⟩, -⟩
      rw [ofIndex?_eq_some.2 rfl] at hr
      cases hr
  · rintro ⟨_, _, _, ⟨_, hs, rfl, rfl⟩, ⟨_, _, _, ⟨_, rfl⟩,
      ⟨u, ⟨⟨rfl, rfl⟩, hi, ho, hu⟩, rfl, rfl⟩, rfl⟩, rfl⟩
    exact ⟨u, ⟨hs, hi, ho, hu⟩, rfl, by simp [UGenRecord.layout, UGenRecord.wiring]⟩
  · rintro ⟨u, hu, rfl, rfl⟩
    have hr : u.rate.index < 256 := by cases u.rate <;> decide
    exact ⟨_, _, _, ⟨u.className, hu.className, rfl, rfl⟩, ⟨_, _, _, ⟨hr, rfl⟩,
      ⟨u, ⟨⟨rfl, rfl⟩, hu.inputCount, hu.outputCount, hu.inputs⟩, rfl, rfl⟩, rfl⟩,
      by simp [UGenRecord.layout, UGenRecord.wiring]⟩

/-! ## References are looked at last -/

theorem danglingInput?_eq_none {ugens : List Node} :
    danglingInput? ugens = none ↔
      ∀ ugen ∈ ugens, ∀ ref ∈ ugen.refs, ref.output < (ugens.map (·.outputs)).getD ref.ugen 0 := by
  have hget : ∀ n, (ugens.map (·.outputs)).toArray.getD n 0 = (ugens.map (·.outputs)).getD n 0 := by
    simp
  simp only [danglingInput?, List.findSome?_eq_none_iff, hget, ite_eq_left_iff, reduceCtorEq,
    imp_false, Decidable.not_not]
  constructor
  · intro h ugen hu ref hr
    obtain ⟨i, hi, rfl⟩ := List.getElem_of_mem hu
    exact h (ugens[i], i) (List.mk_mem_zipIdx_iff_getElem?.2 (by simp [hi])) ref hr
  · rintro h ⟨ugen, i⟩ hu ref hr
    exact h ugen (List.mem_of_getElem? (List.mk_mem_zipIdx_iff_getElem?.1 hu)) ref hr

theorem mem_refs_node {u : UGenRecord} {catalog : Catalog} {constants : List Single}
    {ref : NodeRef} :
    ref ∈ (u.node catalog constants).refs ↔
      ref.ugen ≠ constantMark ∧ (ref.ugen, ref.output) ∈ u.inputs := by
  simp only [Node.refs, UGenRecord.node, List.mem_filterMap, List.mem_map]
  constructor
  · rintro ⟨_, ⟨i, hi, rfl⟩, h⟩
    by_cases hm : i.1 = constantMark
    · simp [inputOf, hm, Input.node?] at h
    · simp only [inputOf, if_neg hm, Input.node?, Option.some.injEq] at h
      subst h
      exact ⟨hm, hi⟩
  · rintro ⟨hm, hi⟩
    exact ⟨_, ⟨_, hi, rfl⟩, by simp [inputOf, hm, Input.node?]⟩

/-- With counts in range, checking inputs when they are read and outputs at the end is checking
that all inputs exist. -/
theorem valid_ugens_iff {r : Record} (catalog : Catalog) (hc : r.constants.length < 4294967296)
    (hn : r.ugens.length < 4294967296) :
    (∀ u ∈ r.ugens, u.Valid r.constants.length r.outputCounts) ↔
      (∀ u ∈ r.ugens, u.Readable r.constants.length r.ugens.length) ∧
        danglingInput? (r.tables catalog).ugens = none := by
  have houtputs : ((r.tables catalog).ugens.map (·.outputs)) = r.outputCounts := by
    simp [Record.tables, Record.outputCounts, UGenRecord.node]
  rw [danglingInput?_eq_none, houtputs]
  constructor
  · intro h
    refine ⟨fun u hu => ⟨(h u hu).className, (h u hu).inputCount, (h u hu).outputCount, ?_⟩, ?_⟩
    · intro i hi
      have hex := (h u hu).inputs i hi
      unfold InputExists at hex
      unfold InputReadable
      split at hex
      · next hm =>
        rw [if_pos hm, hm]
        exact ⟨by decide, by omega, hex⟩
      · next hm =>
        obtain ⟨count, hcount, hlt⟩ := hex
        have hlen : i.1 < r.ugens.length := by
          have := (List.getElem?_eq_some_iff.1 hcount).1
          simpa [Record.outputCounts] using this
        obtain ⟨v, hv, rfl⟩ := List.mem_map.1 (List.mem_of_getElem? hcount)
        have := (h v hv).outputCount
        rw [if_neg hm]
        exact ⟨by omega, by omega, hlen⟩
    · intro ugen hugen ref hr
      obtain ⟨u, hu, rfl⟩ := List.mem_map.1 hugen
      obtain ⟨hm, hi⟩ := mem_refs_node.1 hr
      have hex := (h u hu).inputs _ hi
      rw [InputExists, if_neg hm] at hex
      obtain ⟨count, hcount, hlt⟩ := hex
      simpa [List.getD, hcount] using hlt
  · rintro ⟨h, hd⟩ u hu
    refine ⟨(h u hu).className, (h u hu).inputCount, (h u hu).outputCount, ?_⟩
    intro i hi
    obtain ⟨-, -, hread⟩ := (h u hu).inputs i hi
    unfold InputExists
    split
    · next hm => rwa [if_pos hm] at hread
    · next hm =>
      rw [if_neg hm] at hread
      have hlt := hd _ (List.mem_map.2 ⟨u, hu, rfl⟩) ⟨i.1, i.2⟩ (mem_refs_node.2 ⟨hm, hi⟩)
      have hlen : i.1 < r.outputCounts.length := by simpa [Record.outputCounts] using hread
      refine ⟨r.outputCounts[i.1], List.getElem?_eq_getElem hlen, ?_⟩
      simpa [List.getD, List.getElem?_eq_getElem hlen] using hlt

/-! ## Definitions -/

theorem length_single (s : Single) : (single s).length = 4 := rfl

theorem length_nameLayout_ge (entry : String × Nat) : 5 ≤ (nameLayout entry).length := by
  rw [nameLayout, List.length_append, length_textLayout, length_word32]
  omega

theorem length_layout_ge (u : UGenRecord) : 12 ≤ u.layout.length := by
  simp only [UGenRecord.layout, List.length_append, length_textLayout, length_word8,
    length_word16, length_word32]
  omega

theorem readTables_exact (catalog : Catalog) :
    Exact (readTables catalog) (Written Record.Valid (·.tables catalog) Record.layout) := by
  refine ((readText_exact "synthdef name").bind fun name _ _ =>
    (readList_exact (fun _ _ => readSingle_exact "constant")
      fun _ s _ => Nat.le_of_eq (length_single s).symm).bind fun constants _ _ =>
    (readList_exact (fun _ _ => readSingle_exact "parameter value")
      fun _ s _ => Nat.le_of_eq (length_single s).symm).bind fun values _ _ =>
    (readList_exact (fun _ _ => readName_exact values.length)
      fun _ e _ => length_nameLayout_ge e).bind fun names _ _ =>
    (readList_exact (fun n _ => readUGen_exact catalog constants n)
      fun _ u _ => length_layout_ge u).bind fun ugens _ _ =>
    (readWord16_exact "variant count").bind fun variants _ _ =>
    (?checked : Exact _ fun (t : Tables) bs => variants = 0 ∧ danglingInput? ugens = none ∧
      t = ⟨name, constants, values, names, ugens⟩ ∧ bs = [])).congr fun t bs => ⟨?_, ?_⟩
  case checked =>
    by_cases hv : variants = 0
    · rw [if_neg (fun h => h hv)]
      split
      · next defect hd => exact (Exact.fail _).congr fun t bs => by simp [hd]
      · next hd => exact (Exact.pure _).congr fun t bs => by simp [hv, hd]
    · rw [if_pos hv]
      exact (Exact.fail_bind _ _).congr fun t bs => by simp [hv]
  · rintro ⟨_, _, _, ⟨name, hname, rfl, rfl⟩, ⟨_, _, _, ⟨constants, ⟨hc, -⟩, rfl, rfl⟩,
      ⟨_, _, _, ⟨values, ⟨hv, -⟩, rfl, rfl⟩, ⟨_, _, _, ⟨names, ⟨hn, hnames⟩, rfl, rfl⟩,
      ⟨_, _, _, ⟨ugens, ⟨hu, hugens⟩, rfl, rfl⟩, ⟨_, _, _, ⟨-, rfl⟩, ⟨rfl, hd, rfl, rfl⟩, rfl⟩,
      rfl⟩, rfl⟩, rfl⟩, rfl⟩, rfl⟩
    simp only [List.map_id] at hugens hd hnames ⊢
    refine ⟨⟨_, constants, values, names, ugens⟩, ?_, rfl, ?_⟩
    · exact ⟨hname, hc, hv, hn, hu, fun e he => ⟨(hnames e he).1, (hnames e he).2.2⟩,
        (valid_ugens_iff catalog hc hu).2 ⟨hugens, hd⟩⟩
    · simp [Record.layout, Record.body]
  · rintro ⟨r, hr, rfl, rfl⟩
    obtain ⟨hread, hd⟩ := (valid_ugens_iff catalog hr.constantCount hr.ugenCount).1 hr.ugens
    have hnames : ∀ e ∈ r.names, IsShort e.1 ∧ e.2 < 4294967296 ∧ e.2 < r.values.length := by
      intro e he
      have := hr.names e he
      have := hr.valueCount
      exact ⟨(hr.names e he).1, by omega, (hr.names e he).2⟩
    refine ⟨_, _, _, ⟨r.name, hr.name, rfl, rfl⟩,
      ⟨_, _, _, ⟨r.constants, ⟨hr.constantCount, fun _ _ => trivial⟩, rfl, rfl⟩,
      ⟨_, _, _, ⟨r.values, ⟨hr.valueCount, fun _ _ => trivial⟩, rfl, rfl⟩,
      ⟨_, _, _, ⟨r.names, ⟨hr.nameCount, ?_⟩, rfl, rfl⟩,
      ⟨_, _, _, ⟨r.ugens, ⟨hr.ugenCount, ?_⟩, rfl, rfl⟩,
      ⟨0, _, [], ⟨by decide, rfl⟩, ⟨rfl, ?_, ?_, rfl⟩, rfl⟩, rfl⟩, rfl⟩, rfl⟩, rfl⟩, ?_⟩
    · simpa using hnames
    · simpa using hread
    · simpa [Record.tables] using hd
    · simp [Record.tables]
    · simp [Record.layout, Record.body]

/-! ## Files -/

theorem readDefinition_exact [Digest] (catalog : Catalog) :
    Exact (Tables.definition <$> readTables catalog)
      (Written Record.Valid (·.definition catalog) Record.layout) := by
  rw [map_eq_pure_bind]
  refine ((readTables_exact catalog).bind fun t _ _ => Exact.pure t.definition).congr
    fun d bs => ⟨?_, ?_⟩
  · rintro ⟨_, _, _, ⟨r, hr, rfl, rfl⟩, ⟨rfl, rfl⟩, rfl⟩
    exact ⟨r, hr, rfl, by simp⟩
  · rintro ⟨r, hr, rfl, rfl⟩
    exact ⟨_, _, _, ⟨r, hr, rfl, rfl⟩, ⟨rfl, rfl⟩, by simp⟩

theorem readCounted_exact [Digest] (catalog : Catalog) :
    Exact (readCounted catalog)
      (Written (fun rs : List Record => rs.length < 65536 ∧ ∀ r ∈ rs, r.Valid)
        (List.map (·.definition catalog))
        fun rs => word16 rs.length ++ rs.flatMap Record.layout) := by
  refine ((readWord16_exact "synthdef count").bind fun count _ _ =>
    (readDefinition_exact catalog).many count).congr fun ds bs => ⟨?_, ?_⟩
  · rintro ⟨_, _, _, ⟨hn, rfl⟩, ⟨rs, ⟨rfl, hrs⟩, rfl, rfl⟩, rfl⟩
    exact ⟨rs, ⟨hn, hrs⟩, rfl, rfl⟩
  · rintro ⟨rs, ⟨hn, hrs⟩, rfl, rfl⟩
    exact ⟨_, _, _, ⟨hn, rfl⟩, ⟨rs, ⟨rfl, hrs⟩, rfl, rfl⟩, rfl⟩

end SynthGraph.Scgf
