import SynthGraph.Definition.Dot
import SynthGraph.Proofs.Tables

/-!
# Accesses in range

The functions of this library are total: a slice that starts after its end is empty, a difference
below zero is zero, and what is looked up past the end of a list has a default. Each function that
reads, prints or draws a definition gets a checked form here that has no result if an access is out
of range (`slice?`, `minus?`, `plus32?`, `[·]?`). For a definition that was read from a file all
checked forms have a result, which is that of the total ones.
-/

namespace SynthGraph

/-! ## Checked accesses -/

/-- The difference, if it is not below zero. -/
def minus? (a b : Nat) : Option Nat := if b ≤ a then some (a - b) else none

/-- The sum, if it is a number of 32 bits. -/
def plus32? (a b : Nat) : Option Nat := if a + b < 4294967296 then some (a + b) else none

/-- The elements from `start` to `stop`, if these are positions of the list in this order. -/
def slice? {α : Type} (xs : List α) (start stop : Nat) : Option (List α) :=
  if start ≤ stop ∧ stop ≤ xs.length then some ((xs.drop start).take (stop - start)) else none

section Lists

variable {α β : Type}

theorem mapM_eq_some_filterMap {f : α → Option β} {xs : List α} (h : ∀ x ∈ xs, (f x).isSome) :
    xs.mapM f = some (xs.filterMap f) := by
  induction xs with
  | nil => rfl
  | cons x xs ih =>
    obtain ⟨hx, hxs⟩ := List.forall_mem_cons.1 h
    obtain ⟨y, hy⟩ := Option.isSome_iff_exists.1 hx
    rw [List.mapM_cons, ih hxs, hy, List.filterMap_cons_some hy]
    rfl

theorem mapM_eq_some_map {f : α → Option β} {g : α → β} {xs : List α}
    (h : ∀ x ∈ xs, f x = some (g x)) : xs.mapM f = some (xs.map g) := by
  rw [mapM_eq_some_filterMap fun x hx => by rw [h x hx]; rfl, ← List.filterMap_eq_map]
  exact congrArg some (List.filterMap_congr h)

theorem findM?_eq_some {p : α → Option Bool} {q : α → Bool} {xs : List α}
    (h : ∀ x ∈ xs, p x = some (q x)) : xs.findM? p = some (xs.find? q) := by
  induction xs with
  | nil => rfl
  | cons x xs ih =>
    obtain ⟨hx, hxs⟩ := List.forall_mem_cons.1 h
    rw [List.findM?, hx, List.find?_cons]
    cases q x with
    | true => rfl
    | false => exact ih hxs

theorem findSomeM?_eq_some {f : α → Option (Option β)} {g : α → Option β} {xs : List α}
    (h : ∀ x ∈ xs, f x = some (g x)) : xs.findSomeM? f = some (xs.findSome? g) := by
  induction xs with
  | nil => rfl
  | cons x xs ih =>
    obtain ⟨hx, hxs⟩ := List.forall_mem_cons.1 h
    rw [List.findSomeM?_cons, hx, List.findSome?_cons]
    cases g x with
    | some y => rfl
    | none => exact ih hxs

theorem filterM_eq_some {p : α → Option Bool} {q : α → Bool} {xs : List α}
    (h : ∀ x ∈ xs, p x = some (q x)) : xs.filterM p = some (xs.filter q) := by
  have haux : ∀ kept, xs.filterAuxM p kept = some ((xs.filter q).reverse ++ kept) := by
    induction xs with
    | nil => exact fun kept => rfl
    | cons x xs ih =>
      intro kept
      obtain ⟨hx, hxs⟩ := List.forall_mem_cons.1 h
      rw [List.filterAuxM, hx, List.filter_cons]
      cases hq : q x with
      | true => simpa using ih hxs (x :: kept)
      | false => simpa using ih hxs kept
  rw [List.filterM, haux]
  simp

end Lists

/-! ## Reading -/

namespace Scgf

/-- `danglingInput?` with every source looked up. -/
def danglingInputs? (ugens : List Node) : Option (Option Defect) :=
  ugens.zipIdx.findSomeM? fun (ugen, ordinal) =>
    ugen.refs.findSomeM? fun ref => do
      let source ← ugens[ref.ugen]?
      return if ref.output < source.outputs then none
        else some (.outputIndex ordinal ref.output ref.ugen source.outputs)

/-- `covers`, where the end of the control is a number of 32 bits. -/
def covers? (control : Node) (slot : Nat) : Option Bool :=
  if control.special.toNat ≤ slot then
    (plus32? control.special.toNat control.outputs).map fun stop => decide (slot < stop)
  else some false

def controlLag? (control : Node) (slot : Nat) : Option (Option Single) :=
  if control.className = Catalog.lagControl.name then do
    let position ← minus? slot control.special.toNat
    match control.inputs[position]?.bind Input.constant? with
    | some lag => return if lag.numEq 0 then none else some lag
    | none => return none
  else some none

def driven? (ugens : List Node) (name : String) (slot : Nat) (values : List Single) :
    Option Parameter := do
  let found ← ugens.findM? fun ugen => if ugen.flags.control then covers? ugen slot else some false
  match found with
  | some control =>
    let lag ← controlLag? control slot
    return { name, values, rate := controlRate control, lag }
  | none => return { name, values }

def parametersFrom? (ugens : List Node) (values : List Single) :
    List (String × Nat) → Option (List (Parameter × Nat))
  | [] => some []
  | (name, slot) :: rest => do
    let stop := (rest.head?.map (·.2)).getD values.length
    let own ← slice? values slot (max stop slot)
    let parameter ← driven? ugens name slot own
    return (parameter, slot) :: (← parametersFrom? ugens values rest)

def attach? (parameters : List (Parameter × Nat)) (ugen : Node) : Option Node :=
  if ugen.flags.control then do
    let covered ← parameters.filterM fun (_, slot) => covers? ugen slot
    return { ugen with role := .control (covered.map (·.1)) }
  else some ugen

end Scgf

namespace Definition

def indexedParameters? (d : Definition) : Option (List (Parameter × Nat)) :=
  d.nameOrder.mapM (d.parameters[·]?)

/-- The name by content lists the parameters in the order of the name table. -/
def anonymousName? [Digest] (d : Definition) : Option String :=
  d.indexedParameters?.map fun _ => d.anonymousName

end Definition

namespace Scgf

def Tables.definition? [Digest] (t : Tables) : Option Definition := do
  let parameters ← parametersFrom? t.ugens t.values (t.names.mergeSort fun a b => a.2 ≤ b.2)
  let ugens ← t.ugens.mapM (attach? parameters)
  let d : Definition := {
    name := some t.name
    ugens
    constants := t.constants
    parameters
    nameOrder := t.names.filterMap fun (_, slot) => parameters.findIdx? (·.2 = slot) }
  let anonymous ← d.anonymousName?
  return if t.name = anonymous then { d with name := none } else d

/-- No generator has so many outputs that a control could end past 32 bits. -/
def Narrow (ugens : List Node) : Prop := ∀ ugen ∈ ugens, ugen.outputs < 4294901760

variable {ugens : List Node}

theorem covers?_eq {control : Node} (h : control.outputs < 4294901760) (slot : Nat) :
    covers? control slot = some (covers control slot) := by
  have hspecial : control.special.toNat < 65536 := control.special.toNat_lt
  unfold covers? covers plus32?
  by_cases hle : control.special.toNat ≤ slot
  · rw [if_pos hle, if_pos (by omega)]
    simp [hle]
  · rw [if_neg hle]
    simp [hle]

theorem controlLag?_eq {control : Node} {slot : Nat} (h : covers control slot) :
    controlLag? control slot = some (controlLag control slot) := by
  have hle : control.special.toNat ≤ slot := by
    rw [covers, Bool.and_eq_true, decide_eq_true_eq] at h
    exact h.1
  unfold controlLag? controlLag minus?
  split
  · simp only [Option.bind_eq_bind, Option.bind_some]
    cases control.inputs[slot - control.special.toNat]?.bind Input.constant? <;> rfl
  · rfl

theorem driven?_eq (hu : Narrow ugens) (name : String) (slot : Nat) (values : List Single) :
    driven? ugens name slot values = some (driven ugens name slot values) := by
  have hfind : (ugens.findM? fun ugen =>
      if ugen.flags.control then covers? ugen slot else some false) =
        some (ugens.find? fun ugen => ugen.flags.control && covers ugen slot) := by
    refine findM?_eq_some fun ugen hugen => ?_
    rw [covers?_eq (hu ugen hugen)]
    cases ugen.flags.control <;> rfl
  unfold driven? driven
  rw [hfind]
  simp only [Option.bind_eq_bind, Option.bind_some]
  cases hfound : ugens.find? fun ugen => ugen.flags.control && covers ugen slot with
  | none => rfl
  | some control =>
    have hcovers := List.find?_some hfound
    rw [Bool.and_eq_true] at hcovers
    simp only [controlLag?_eq hcovers.2]
    rfl

/-- Cutting parameters out of the values is in range if the entries are sorted and their slots have
values. -/
theorem parametersFrom?_eq (hu : Narrow ugens) {values : List Single}
    {names : List (String × Nat)} (hs : names.Pairwise (·.2 ≤ ·.2))
    (hb : ∀ e ∈ names, e.2 < values.length) :
    parametersFrom? ugens values names = some (parametersFrom ugens values names) := by
  induction names with
  | nil => rfl
  | cons e rest ih =>
    obtain ⟨name, slot⟩ := e
    obtain ⟨hle, hs⟩ := List.pairwise_cons.1 hs
    obtain ⟨hslot, hb⟩ := List.forall_mem_cons.1 hb
    have hstop : (rest.head?.map (·.2)).getD values.length ≤ values.length := by
      cases rest with
      | nil => exact Nat.le_refl _
      | cons next rest => exact Nat.le_of_lt (hb next (by simp))
    have hslice : slice? values slot (max ((rest.head?.map (·.2)).getD values.length) slot) =
        some ((values.drop slot).take ((rest.head?.map (·.2)).getD values.length - slot)) := by
      generalize (rest.head?.map (·.2)).getD values.length = stop at hstop
      rw [slice?, if_pos ⟨by omega, by simp only at hslot; omega⟩]
      congr 2
      omega
    simp only [parametersFrom?, parametersFrom, hslice, driven?_eq hu, ih hs hb,
      Option.bind_eq_bind, Option.bind_some]
    rfl

theorem attach?_eq {ugen : Node} (h : ugen.outputs < 4294901760)
    (parameters : List (Parameter × Nat)) :
    attach? parameters ugen = some (attach parameters ugen) := by
  have hfilter : (parameters.filterM fun (_, slot) => covers? ugen slot) =
      some (parameters.filter fun (_, slot) => covers ugen slot) :=
    filterM_eq_some fun p _ => covers?_eq h p.2
  unfold attach? attach
  split
  · rw [hfilter]
    rfl
  · rfl

namespace Record

variable {r : Record} {catalog : Catalog}

theorem danglingInputs?_tables (hv : r.Valid) (catalog : Catalog) :
    danglingInputs? (r.tables catalog).ugens = some none := by
  have hrefs : ∀ entry ∈ (r.tables catalog).ugens.zipIdx,
      (entry.1.refs.findSomeM? fun ref => do
        let source ← (r.tables catalog).ugens[ref.ugen]?
        return if ref.output < source.outputs then none
          else some (.outputIndex entry.2 ref.output ref.ugen source.outputs)) =
      some (none : Option Defect) := by
    rintro ⟨u, ordinal⟩ hentry
    have hu := List.mem_of_getElem? (List.mk_mem_zipIdx_iff_getElem?.1 hentry)
    refine (findSomeM?_eq_some fun ref href => ?_).trans
      (congrArg some (List.findSome?_eq_none_iff.2 fun _ _ => rfl))
    obtain ⟨v, hv, hlt⟩ := exists_source hv hu href
    simp [hv, hlt]
  exact (findSomeM?_eq_some hrefs).trans
    (congrArg some (List.findSome?_eq_none_iff.2 fun _ _ => rfl))

theorem indexedParameters?_content (r : Record) (catalog : Catalog) :
    (r.content catalog).indexedParameters? = some (r.content catalog).indexedParameters := by
  refine mapM_eq_some_filterMap fun i hi => ?_
  obtain ⟨e, he, hfind⟩ := List.mem_filterMap.1 hi
  obtain ⟨j, p, hj, hp, -⟩ := r.exists_parameter catalog he
  obtain rfl : j = i := Option.some.inj (hj.symm.trans hfind)
  simp only [content, hp, Option.isSome_some]

theorem definition?_tables [Digest] (hv : r.Valid) (hu : Narrow (r.tables catalog).ugens) :
    (r.tables catalog).definition? = some (r.definition catalog) := by
  have hparameters : parametersFrom? (r.tables catalog).ugens (r.tables catalog).values
      ((r.tables catalog).names.mergeSort fun a b => a.2 ≤ b.2) = some (r.parameters catalog) :=
    parametersFrom?_eq hu r.sorted_sortedNames fun e he => (hv.names e (mem_sortedNames.1 he)).2
  have hugens : (r.tables catalog).ugens.mapM (attach? (r.parameters catalog)) =
      some ((r.tables catalog).ugens.map (attach (r.parameters catalog))) :=
    mapM_eq_some_map fun ugen hugen => attach?_eq (hu ugen hugen) _
  have hname : (r.content catalog).anonymousName? = some (r.content catalog).anonymousName := by
    rw [Definition.anonymousName?, indexedParameters?_content]
    rfl
  rw [Tables.definition?, hparameters]
  simp only [Option.bind_eq_bind, Option.bind_some, hugens]
  change ((r.content catalog).anonymousName?.bind fun anonymous =>
    some (if r.name = anonymous then { r.content catalog with name := none }
      else r.content catalog)) = _
  rw [hname]
  rfl

end Record

end Scgf

/-! ## Printing and drawing -/

namespace Definition

def effectiveName? [Digest] (d : Definition) : Option String :=
  match d.name with
  | some name => some name
  | none => d.anonymousName?

def ugenName? (d : Definition) (ugen : Node) (ordinal : Nat) : Option String :=
  if d.ugens.countP ugen.sameKind > 1 then
    (slice? d.ugens 0 ordinal).map fun earlier =>
      s!"{ugen.kindName}/{earlier.countP ugen.sameKind}"
  else some ugen.kindName

def ugenNames? (d : Definition) : Option (List String) :=
  d.ugens.zipIdx.mapM fun (ugen, ordinal) => d.ugenName? ugen ordinal

def ownerText? (producer : Node) (output : Nat) : Option String :=
  if producer.flags.control then
    match outputOwner output 0 producer.parameters with
    | some (p, start) =>
      if p.size > 1 then (minus? output start).map fun i => s!":{p.name}[{i}]"
      else some (":" ++ p.name)
    | none => some ""
  else some ""

def referenceText? (d : Definition) (names : Array String) (ref : NodeRef) : Option String := do
  let name ← names[ref.ugen]?
  let producer ← d.ugens[ref.ugen]?
  let owner ← ownerText? producer ref.output
  return s!"{name}[{ref.output}{owner}]"

def inputText? (d : Definition) (names : Array String) : Input → Option String
  | .constant value => some value.text
  | .node ref => d.referenceText? names ref

def ugenEntries? (d : Definition) (names : Array String) (ugen : Node) :
    Option (List (String × String)) := do
  let defaults := if ugen.flags.control then ugen.parameters.flatMap parameterEntries else []
  let inputs ← (ugen.keys.zip ugen.inputs).mapM fun (key, input) =>
    (d.inputText? names input).map fun text => (key.text, text)
  return (defaults ++ inputs).foldl insertEntry []

def ugenText? (d : Definition) (names : Array String) (ugen : Node) (name : String) :
    Option String := do
  match ← d.ugenEntries? names ugen with
  | [] => return s!"\n    -   {name}: null"
  | entries =>
    return entries.foldl (fun text (key, value) => text ++ "\n            " ++ key ++ ": " ++ value)
      s!"\n    -   {name}:"

/-- The generators, each with its name looked up by its position. -/
def named? (d : Definition) (names : Array String) : Option (List (Node × String)) :=
  d.ugens.zipIdx.mapM fun (ugen, ordinal) => names[ordinal]?.map fun name => (ugen, name)

def dump? [Digest] (d : Definition) : Option String := do
  let names := (← d.ugenNames?).toArray
  let name ← d.effectiveName?
  let head := "synthdef:\n    name: " ++ name ++ "\n    ugens:"
  let texts ← (← d.named? names).mapM fun (ugen, name) => d.ugenText? names ugen name
  return texts.foldl (· ++ ·) head

def dot? [Digest] (d : Definition) : Option String := do
  let names := (← d.ugenNames?).toArray
  let name ← d.effectiveName?
  let head := "digraph synthdef \x7b\n    label=\"" ++ name ++
    "\";\n    rankdir=LR;\n    node [shape=record];\n"
  let nodes := (← d.named? names).zipIdx.map fun ((ugen, name), ordinal) =>
    dotNode ordinal ugen name
  let edges := d.ugens.zipIdx.flatMap fun (ugen, ordinal) => dotEdges ordinal ugen
  return head ++ String.join nodes ++ String.join edges ++ "\x7d"

/-- The checked form of everything that can be asked of a definition has a result, and the
definition can be written under either name. -/
structure InRange [Digest] (d : Definition) : Prop where
  indexedParameters : d.indexedParameters? = some d.indexedParameters
  dump : d.dump? = some d.dump
  dot : d.dot? = some d.dot
  encode : ∀ anonymous, ∃ file, d.encode anonymous = .ok file

variable {d : Definition}

theorem effectiveName?_eq [Digest] (hn : d.indexedParameters? = some d.indexedParameters) :
    d.effectiveName? = some d.effectiveName := by
  unfold effectiveName? effectiveName
  cases d.name with
  | some name => rfl
  | none =>
    simp only [anonymousName?, hn]
    rfl

theorem ugenNames?_eq (d : Definition) : d.ugenNames? = some d.ugenNames := by
  refine mapM_eq_some_map fun entry hentry => ?_
  obtain ⟨ugen, ordinal⟩ := entry
  have hlt := (List.getElem?_eq_some_iff.1 (List.mk_mem_zipIdx_iff_getElem?.1 hentry)).1
  show d.ugenName? ugen ordinal = some (d.ugenName ugen ordinal)
  unfold ugenName? ugenName
  split
  · rw [slice?, if_pos ⟨Nat.zero_le _, Nat.le_of_lt hlt⟩]
    rfl
  · rfl

/-- A parameter starts at or before the outputs that are taken for its own. -/
theorem outputOwner_le {output start first : Nat} {ps : List Parameter} {p : Parameter}
    (hs : start ≤ output) (h : outputOwner output start ps = some (p, first)) :
    first ≤ output := by
  induction ps generalizing start with
  | nil => cases h
  | cons q rest ih =>
    rw [outputOwner] at h
    split at h
    · cases h
      exact hs
    · next hq =>
      split at h
      · cases h
        omega
      · exact ih (by omega) h

theorem ownerText?_eq (producer : Node) (output : Nat) :
    ownerText? producer output = some (ownerText producer output) := by
  unfold ownerText? ownerText
  split
  · cases howner : outputOwner output 0 producer.parameters with
    | none => rfl
    | some owner =>
      obtain ⟨p, start⟩ := owner
      simp only [minus?, if_pos (outputOwner_le (Nat.zero_le _) howner), Option.map_some]
      split <;> rfl
  · rfl

theorem length_ugenNames (d : Definition) : d.ugenNames.length = d.ugens.length := by
  rw [ugenNames, List.length_map, List.length_zipIdx]

theorem referenceText?_eq {ref : NodeRef} (h : ref.ugen < d.ugens.length) :
    d.referenceText? d.ugenNames.toArray ref = some (d.referenceText d.ugenNames.toArray ref) := by
  have hname : d.ugenNames.toArray[ref.ugen]? =
      some (d.ugenNames.toArray.getD ref.ugen "") := by
    simp [length_ugenNames, h]
  have hproducer : d.ugens[ref.ugen]? = some (d.ugens.getD ref.ugen default) := by
    simp [h]
  unfold referenceText? referenceText
  rw [hname, hproducer]
  simp only [Option.bind_eq_bind, Option.bind_some, ownerText?_eq]
  rfl

theorem ugenText?_eq (hd : d.Connected) {ugen : Node} (hu : ugen ∈ d.ugens) (name : String) :
    d.ugenText? d.ugenNames.toArray ugen name =
      some (d.ugenText d.ugenNames.toArray ugen name) := by
  have hentries : d.ugenEntries? d.ugenNames.toArray ugen =
      some (d.ugenEntries d.ugenNames.toArray ugen) := by
    have hinputs : ((ugen.keys.zip ugen.inputs).mapM fun (key, input) =>
        (d.inputText? d.ugenNames.toArray input).map fun text => (key.text, text)) =
          some ((ugen.keys.zip ugen.inputs).map fun (key, input) =>
            (key.text, d.inputText d.ugenNames.toArray input)) := by
      refine mapM_eq_some_map fun entry hentry => ?_
      obtain ⟨key, input⟩ := entry
      cases input with
      | constant value => rfl
      | node ref =>
        have href : ref ∈ ugen.refs :=
          List.mem_filterMap.2 ⟨_, (List.of_mem_zip hentry).2, rfl⟩
        obtain ⟨v, hv, -⟩ := hd ugen hu ref href
        have hlt := (List.getElem?_eq_some_iff.1 hv).1
        simp only [inputText?, inputText, referenceText?_eq hlt, Option.map_some]
    unfold ugenEntries? ugenEntries
    rw [hinputs]
    rfl
  unfold ugenText? ugenText
  rw [hentries]
  simp only [Option.bind_eq_bind, Option.bind_some]
  cases d.ugenEntries d.ugenNames.toArray ugen <;> rfl

theorem named?_eq (d : Definition) :
    d.named? d.ugenNames.toArray = some (d.ugens.zip d.ugenNames) := by
  have hzip : d.ugens.zip d.ugenNames =
      d.ugens.zipIdx.map fun (ugen, ordinal) => (ugen, d.ugenNames.getD ordinal "") := by
    refine List.ext_getElem (by simp [length_ugenNames]) fun i hi _ => ?_
    have hlt : i < d.ugens.length := by
      rw [List.length_zip] at hi
      omega
    simp [length_ugenNames, hlt]
  rw [hzip]
  refine mapM_eq_some_map fun entry hentry => ?_
  obtain ⟨ugen, ordinal⟩ := entry
  have hlt := (List.getElem?_eq_some_iff.1 (List.mk_mem_zipIdx_iff_getElem?.1 hentry)).1
  simp [length_ugenNames, hlt]

theorem dump?_eq [Digest] (hd : d.Connected)
    (hn : d.indexedParameters? = some d.indexedParameters) : d.dump? = some d.dump := by
  have htexts : ((d.ugens.zip d.ugenNames).mapM fun (ugen, name) =>
      d.ugenText? d.ugenNames.toArray ugen name) =
        some ((d.ugens.zip d.ugenNames).map fun (ugen, name) =>
          d.ugenText d.ugenNames.toArray ugen name) :=
    mapM_eq_some_map fun entry hentry => ugenText?_eq hd (List.of_mem_zip hentry).1 _
  unfold dump? dump
  simp only [ugenNames?_eq, effectiveName?_eq hn, named?_eq, htexts, Option.bind_eq_bind,
    Option.bind_some, List.foldl_map]
  rfl

theorem dot?_eq [Digest] (hn : d.indexedParameters? = some d.indexedParameters) :
    d.dot? = some d.dot := by
  unfold dot? dot
  simp only [ugenNames?_eq, effectiveName?_eq hn, named?_eq, Option.bind_eq_bind,
    Option.bind_some]
  rfl

end Definition

/-! ## What was read -/

namespace Scgf

theorem Record.inRange_definition [Digest] {r : Record} (hv : r.Valid) (catalog : Catalog) :
    (r.definition catalog).InRange := by
  have hnames : (r.definition catalog).indexedParameters? =
      some (r.definition catalog).indexedParameters := by
    rw [definition_eq]
    exact r.indexedParameters?_content catalog
  constructor
  case indexedParameters => exact hnames
  case dump => exact Definition.dump?_eq (connected_definition hv catalog) hnames
  case dot => exact Definition.dot?_eq hnames
  case encode =>
    intro anonymous
    have hone : ∀ r' ∈ [r], r'.Valid := List.forall_mem_singleton.2 hv
    exact ⟨_, encode_decoded (by simp) hone catalog anonymous⟩

theorem length_le_flatMap {α β : Type} {g : α → List β} {x : α} {xs : List α} (h : x ∈ xs) :
    (g x).length ≤ (xs.flatMap g).length := by
  rw [List.flatMap_def]
  exact (List.sublist_flatten_of_mem (List.mem_map_of_mem h)).length_le

/-- A generator has no more outputs than its file has bytes. -/
theorem outputs_le_length {records : List Record} {r : Record} (hr : r ∈ records) {u : UGenRecord}
    (hu : u ∈ r.ugens) : u.outputRates.length ≤ (fileLayout records).length := by
  have hlayout : u.outputRates.length ≤ u.layout.length := by
    rw [UGenRecord.layout, List.length_append]
    omega
  have hugens : u.layout.length ≤ (r.ugens.flatMap UGenRecord.layout).length :=
    length_le_flatMap hu
  have hbody : (r.ugens.flatMap UGenRecord.layout).length ≤ r.layout.length := by
    simp only [Record.layout, Record.body, List.length_append]
    omega
  have hrecord : r.layout.length ≤ (records.flatMap Record.layout).length := length_le_flatMap hr
  rw [fileLayout, List.length_append]
  omega

theorem narrow_tables {records : List Record} (hlen : (fileLayout records).length < 4294901760)
    {r : Record} (hr : r ∈ records) (catalog : Catalog) : Narrow (r.tables catalog).ugens := by
  intro ugen hugen
  obtain ⟨u, hu, rfl⟩ := List.mem_map.1 hugen
  exact Nat.lt_of_le_of_lt (outputs_le_length hr hu) hlen

/-- **Every definition that is read is safe to use.** Whatever the catalog says, for a file that is
shorter than 2³² - 2¹⁶ bytes every access is in range: while the definitions are put together from
their tables, and when they are listed, printed, drawn or written afterwards. -/
theorem decode_in_range [Digest] {bytes : Bytes} {catalog : Catalog} {ds : List Definition}
    (hlen : bytes.length < 4294901760) (h : decode bytes catalog = .ok ds) :
    ∃ records : List Record, (∀ r ∈ records, r.Valid) ∧ bytes = fileLayout records ∧
      (∀ r ∈ records, danglingInputs? (r.tables catalog).ugens = some none) ∧
      records.mapM (fun r => (r.tables catalog).definition?) = some ds ∧
      ∀ d ∈ ds, d.InRange := by
  obtain ⟨records, ⟨hn, hr⟩, rfl, rfl⟩ := decode_eq_ok_iff.1 h
  refine ⟨records, hr, rfl, fun r hmem => Record.danglingInputs?_tables (hr r hmem) catalog, ?_, ?_⟩
  · exact mapM_eq_some_map fun r hmem =>
      Record.definition?_tables (hr r hmem) (narrow_tables hlen hmem catalog)
  · exact List.forall_mem_map.2 fun r hmem => Record.inRange_definition (hr r hmem) catalog

/-- A catalog in which a class of its own is a control. -/
def knobCatalog : Catalog :=
  [{ name := "Knob", description := "A control", category := .control, inputs := []
     rates := [.control], flags := { control := true } }]

/-- Slots that are not sorted and one with two names; controls that overlap, one of which covers
more than there is and reads the other, which comes later. -/
def tangledRecord : Record where
  name := "tangled"
  constants := [1]
  values := [1, 2, 3]
  names := [("cutoff", 2), ("level", 1), ("amount", 1)]
  ugens := [
    { className := "Knob", rate := .control, special := 0, inputs := [(1, 4)]
      outputRates := [1, 1, 1, 1, 1, 1] },
    { className := "LagControl", rate := .control, special := 1, inputs := [(constantMark, 0)]
      outputRates := [1, 1, 1, 1, 1] },
    { className := "SinOsc", rate := .audio, special := 0, inputs := [(0, 5), (1, 4)]
      outputRates := [2] }]

theorem decode_tangledRecord_in_range : ∃ ds,
    (fileLayout [tangledRecord]).length < 4294901760 ∧
    decode (fileLayout [tangledRecord]) knobCatalog = .ok ds ∧
    ∃ records : List Record, (∀ r ∈ records, r.Valid) ∧
      fileLayout [tangledRecord] = fileLayout records ∧
      (∀ r ∈ records, danglingInputs? (r.tables knobCatalog).ugens = some none) ∧
      records.mapM (fun r => (r.tables knobCatalog).definition?) = some ds ∧
      ∀ d ∈ ds, d.InRange := by
  have hread : decode (fileLayout [tangledRecord]) knobCatalog =
      .ok ([tangledRecord].map (·.definition knobCatalog)) :=
    decode_fileLayout (by decide) (by decide +kernel) _
  have hlen : (fileLayout [tangledRecord]).length < 4294901760 := by
    decide +kernel
  exact ⟨_, hlen, hread, decode_in_range hlen hread⟩

end Scgf

end SynthGraph
