import SynthGraph.Proofs.Basic
import SynthGraph.Proofs.Layout

/-!
# What is written

Writing a definition succeeds if its names are short and its constants are in its table, and then
gives the layout of its record: `Definition.record` puts the position of a constant in place of the
constant and repeats the rate of a generator for each of its outputs.
-/

namespace SynthGraph

open Scgf

namespace Scgf

theorem text_eq_ok {s : String} {b : Bytes} : text s = .ok b ↔ IsShort s ∧ b = textLayout s := by
  simp only [text, IsShort, textLayout, length_toUTF8]
  split
  · next h => simp [h, eq_comm]
  · next h => simp [h]

end Scgf

namespace Definition

/-- The two numbers that stand for an input in a file. -/
def inputPair (d : Definition) : Input → Nat × Nat
  | .constant value => (constantMark, (d.constantIndex? value).getD 0)
  | .node ref => (ref.ugen, ref.output)

def ugenRecord (d : Definition) (u : Node) : UGenRecord where
  className := u.className
  rate := u.rate
  special := u.special
  inputs := u.inputs.map d.inputPair
  outputRates := List.replicate u.outputs u.rate.index.toUInt8

/-- The definition as a file holds it, under the given name. -/
def record (d : Definition) (name : String) : Record where
  name := name
  constants := d.constants
  values := d.parameters.flatMap (·.1.values)
  names := d.indexedParameters.map fun (p, slot) => (p.name, slot)
  ugens := d.ugens.map d.ugenRecord

/-- The input is a reference, or a constant of the table. -/
def Lists (d : Definition) : Input → Prop
  | .constant value => (d.constantIndex? value).isSome
  | .node _ => True

instance (d : Definition) : DecidablePred d.Lists
  | .constant value => inferInstanceAs (Decidable (d.constantIndex? value).isSome)
  | .node _ => inferInstanceAs (Decidable True)

/-- All names are short, and all constants are in the table. -/
structure Writable (d : Definition) : Prop where
  names : ∀ p ∈ d.indexedParameters, IsShort p.1.name
  ugens : ∀ u ∈ d.ugens, IsShort u.className ∧ ∀ input ∈ u.inputs, d.Lists input

theorem inputBytes_eq_ok {d : Definition} {className : String} {input : Input} {b : Bytes} :
    d.inputBytes className input = .ok b ↔
      d.Lists input ∧ b = inputLayout (d.inputPair input) := by
  cases input with
  | node ref => simp [inputBytes, Lists, inputPair, inputLayout, eq_comm]
  | constant value =>
    simp only [inputBytes, Lists, inputPair, inputLayout]
    cases d.constantIndex? value with
    | none => simp
    | some index =>
      simp only [Except.ok.injEq, Option.isSome_some, true_and, Option.getD_some]
      exact eq_comm

theorem ugenBytes_eq_ok {d : Definition} {u : Node} {b : Bytes} :
    d.ugenBytes u = .ok b ↔
      (IsShort u.className ∧ ∀ input ∈ u.inputs, d.Lists input) ∧
        b = (d.ugenRecord u).layout := by
  have hlayout : (u.inputs.map fun i => inputLayout (d.inputPair i)).flatten =
      (u.inputs.map d.inputPair).flatMap inputLayout := by
    rw [List.flatMap_map, List.flatMap_def]
  simp only [ugenBytes, except_bind_eq_ok, text_eq_ok, mapM_eq_ok_iff fun _ _ _ => inputBytes_eq_ok]
  constructor
  · rintro ⟨_, ⟨hs, rfl⟩, _, ⟨hi, rfl⟩, hb⟩
    cases hb
    refine ⟨⟨hs, hi⟩, ?_⟩
    simp only [ugenRecord, UGenRecord.layout, List.length_map, List.length_replicate, hlayout]
  · rintro ⟨⟨hs, hi⟩, rfl⟩
    refine ⟨_, ⟨hs, rfl⟩, _, ⟨hi, rfl⟩, ?_⟩
    simp only [ugenRecord, UGenRecord.layout, List.length_map, List.length_replicate, hlayout]
    rfl

theorem nameBytes_eq_ok {entry : Parameter × Nat} {b : Bytes} :
    nameBytes entry = .ok b ↔
      IsShort entry.1.name ∧ b = nameLayout (entry.1.name, entry.2) := by
  simp only [nameBytes, except_bind_eq_ok, text_eq_ok]
  constructor
  · rintro ⟨_, ⟨hs, rfl⟩, hb⟩
    cases hb
    exact ⟨hs, rfl⟩
  · rintro ⟨hs, rfl⟩
    exact ⟨_, ⟨hs, rfl⟩, rfl⟩

/-- A definition whose name table names every parameter is written as its record. -/
theorem body_eq_ok {d : Definition} (hlen : d.indexedParameters.length = d.parameters.length)
    (name : String) {b : Bytes} :
    d.body = .ok b ↔ d.Writable ∧ b = (d.record name).body := by
  have hbody : word32 d.constants.length ++ d.constants.flatMap single ++
      word32 d.slotCount ++ d.parameters.flatMap (fun (p, _) => p.values.flatMap single) ++
      word32 d.parameters.length ++
      (d.indexedParameters.map fun p => nameLayout (p.1.name, p.2)).flatten ++
      word32 d.ugens.length ++ (d.ugens.map fun u => (d.ugenRecord u).layout).flatten ++
      word16 0 = (d.record name).body := by
    simp [record, Record.body, slotCount, hlen, List.flatMap_map, List.flatMap_assoc,
      ← List.flatMap_def]
  simp only [body, except_bind_eq_ok, mapM_eq_ok_iff fun _ _ _ => nameBytes_eq_ok,
    mapM_eq_ok_iff fun _ _ _ => ugenBytes_eq_ok]
  constructor
  · rintro ⟨_, ⟨hn, rfl⟩, _, ⟨hu, rfl⟩, hb⟩
    cases hb
    exact ⟨⟨hn, hu⟩, hbody⟩
  · rintro ⟨⟨hn, hu⟩, rfl⟩
    exact ⟨_, ⟨hn, rfl⟩, _, ⟨hu, rfl⟩, congrArg Except.ok hbody⟩

/-! ## Names by content -/

theorem utf8ByteSize_ofList {cs : List Char} (h : ∀ c ∈ cs, c.utf8Size = 1) :
    (String.ofList cs).utf8ByteSize = cs.length := by
  induction cs with
  | nil => rfl
  | cons c cs ih =>
    obtain ⟨hc, hcs⟩ := List.forall_mem_cons.1 h
    have hfirst : (String.ofList [c]).utf8ByteSize = 1 := by
      rw [← String.singleton_eq_ofList, String.utf8ByteSize_singleton, hc]
    rw [show c :: cs = [c] ++ cs from rfl, String.ofList_append, String.utf8ByteSize_append, hfirst,
      ih hcs, List.length_append, List.length_singleton]

theorem length_flatMap_hexByte (bytes : Bytes) :
    (bytes.flatMap hexByte).length = 2 * bytes.length := by
  induction bytes with
  | nil => rfl
  | cons byte bytes ih =>
    rw [List.flatMap_cons, List.length_append, ih, List.length_cons, hexByte, List.length_cons,
      List.length_singleton]
    omega

theorem isShort_digestName [Digest] (body : Bytes) : IsShort (digestName body) := by
  have hdigit : ∀ n < 16, (Nat.digitChar n).utf8Size = 1 := by decide
  have hsize : ∀ c ∈ ((Digest.digest body).take 16).flatMap hexByte, c.utf8Size = 1 := by
    intro c hc
    obtain ⟨byte, -, hc⟩ := List.mem_flatMap.1 hc
    have := byte.toNat_lt
    simp only [hexByte, List.mem_cons, List.not_mem_nil, or_false] at hc
    rcases hc with rfl | rfl
    · exact hdigit _ (by omega)
    · exact hdigit _ (by omega)
  rw [IsShort, digestName, utf8ByteSize_ofList hsize, length_flatMap_hexByte, List.length_take]
  omega

/-- The name a definition with body `body` is written under. -/
def writtenName [Digest] (d : Definition) (anonymous : Bool) (body : Bytes) : String :=
  if anonymous then digestName body else d.name.getD (digestName body)

theorem bytes_eq_ok [Digest] {d : Definition} {anonymous : Bool} {b : Bytes} :
    d.bytes anonymous = .ok b ↔ ∃ body, d.body = .ok body ∧
      IsShort (d.writtenName anonymous body) ∧
      b = textLayout (d.writtenName anonymous body) ++ body := by
  simp only [bytes, except_bind_eq_ok, text_eq_ok]
  constructor
  · rintro ⟨body, hbody, _, ⟨hs, rfl⟩, hb⟩
    cases hb
    exact ⟨body, hbody, hs, rfl⟩
  · rintro ⟨body, hbody, hs, rfl⟩
    exact ⟨body, hbody, _, ⟨hs, rfl⟩, rfl⟩

/-- The definition as a file of the given kind holds it. -/
def fileRecord [Digest] (d : Definition) (anonymous : Bool) : Record :=
  d.record (d.writtenName anonymous (d.record "").body)

end Definition

namespace Scgf

theorem encode_eq_ok [Digest] {ds : List Definition} {anonymous : Bool} {b : Bytes} :
    encode ds anonymous = .ok b ↔ ds.length < 65536 ∧
      ∃ parts, ds.mapM (·.bytes anonymous) = .ok parts ∧
        b = magic ++ word32 version ++ word16 ds.length ++ parts.flatten := by
  unfold encode
  by_cases hlen : ds.length > 65535
  · have hlen' : ¬ds.length < 65536 := by omega
    simp only [if_pos hlen, hlen', false_and, iff_false]
    rintro ⟨⟩
  · have hlen' : ds.length < 65536 := by omega
    simp only [if_neg hlen, except_bind_eq_ok, hlen', true_and]
    refine exists_congr fun parts => and_congr_right fun _ => ?_
    exact ⟨fun h => by cases h; rfl, fun h => by rw [h]; rfl⟩

/-- Definitions with complete name tables are written as a file of their records. -/
theorem encode_eq_ok_iff [Digest] {ds : List Definition} {anonymous : Bool} {b : Bytes}
    (hlen : ∀ d ∈ ds, d.indexedParameters.length = d.parameters.length) :
    encode ds anonymous = .ok b ↔ ds.length < 65536 ∧
      (∀ d ∈ ds, d.Writable ∧ IsShort (d.fileRecord anonymous).name) ∧
        b = fileLayout (ds.map (·.fileRecord anonymous)) := by
  have hbytes : ∀ d ∈ ds, ∀ b, d.bytes anonymous = .ok b ↔
      (d.Writable ∧ IsShort (d.fileRecord anonymous).name) ∧
        b = (d.fileRecord anonymous).layout := by
    intro d hd b
    rw [Definition.bytes_eq_ok]
    constructor
    · rintro ⟨body, hbody, hs, rfl⟩
      obtain ⟨hw, rfl⟩ := (Definition.body_eq_ok (hlen d hd) "").1 hbody
      exact ⟨⟨hw, hs⟩, rfl⟩
    · rintro ⟨⟨hw, hs⟩, rfl⟩
      exact ⟨_, (Definition.body_eq_ok (hlen d hd) "").2 ⟨hw, rfl⟩, hs, rfl⟩
  rw [encode_eq_ok]
  refine and_congr_right fun _ => ?_
  simp only [mapM_eq_ok_iff hbytes, and_assoc, exists_and_left, exists_eq_left]
  rw [fileLayout, List.length_map, List.flatMap_map, List.flatMap_def]

end Scgf

end SynthGraph
