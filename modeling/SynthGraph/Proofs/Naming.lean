import SynthGraph.Proofs.Recovery

/-!
# Names by content

A definition without a name goes by the digest of its body, so it has to have a body. Names of
parameters are checked when they are added and every constant is in its table, but nobody checks
the names of the classes that a caller describes. So a definition that was built has a body if and
only if no class name is too long, and those that have none all go by the empty name.
-/

namespace SynthGraph

open Scgf

/-! ## Digests -/

/-- Thirty-two hexadecimal digits. -/
def IsHexName (name : String) : Prop :=
  name.toList.length = 32 ∧ ∀ c ∈ name.toList, c ∈ "0123456789abcdef".toList

namespace Definition

theorem isHexName_digestName [Digest] (body : Bytes) : IsHexName (digestName body) := by
  have hdigit : ∀ n < 16, Nat.digitChar n ∈ "0123456789abcdef".toList := by decide
  rw [IsHexName, digestName, String.toList_ofList]
  constructor
  · rw [length_flatMap_hexByte, List.length_take, Digest.length_digest]
    rfl
  · intro c hc
    obtain ⟨byte, -, hc⟩ := List.mem_flatMap.1 hc
    have := byte.toNat_lt
    simp only [hexByte, List.mem_cons, List.not_mem_nil, or_false] at hc
    rcases hc with rfl | rfl
    · exact hdigit _ (by omega)
    · exact hdigit _ (by omega)

theorem hexByte_inj {a b : UInt8} (h : hexByte a = hexByte b) : a = b := by
  have hdigit : ∀ m < 16, ∀ n < 16, Nat.digitChar m = Nat.digitChar n → m = n := by decide
  have ha := a.toNat_lt
  have hb := b.toNat_lt
  simp only [hexByte, List.cons.injEq, and_true] at h
  have hhigh := hdigit _ (by omega) _ (by omega) h.1
  have hlow := hdigit _ (by omega) _ (by omega) h.2
  apply UInt8.toNat_inj.1
  omega

theorem flatMap_hexByte_inj {as bs : Bytes} (h : as.flatMap hexByte = bs.flatMap hexByte) :
    as = bs := by
  induction as generalizing bs with
  | nil =>
    cases bs with
    | nil => rfl
    | cons b bs => cases h
  | cons a as ih =>
    cases bs with
    | nil => cases h
    | cons b bs =>
      rw [List.flatMap_cons, List.flatMap_cons] at h
      obtain ⟨hhead, htail⟩ := List.append_inj h rfl
      rw [hexByte_inj hhead, ih htail]

/-- Bodies that go by one name have the same half digest. -/
theorem digestName_inj [Digest] {body body' : Bytes} (h : digestName body = digestName body') :
    (Digest.digest body).take 16 = (Digest.digest body').take 16 :=
  flatMap_hexByte_inj (String.ofList_injective h)

/-- The definition has the body, goes by its digest and can be written under this name. What goes by
the same name has a body with the same half digest. -/
structure Named [Digest] (d : Definition) (body : Bytes) : Prop where
  written : d.body = .ok body
  name : d.anonymousName = digestName body
  hex : IsHexName d.anonymousName
  file : ∃ file, d.encode true = .ok file
  shared : ∀ d' : Definition, d'.anonymousName = d.anonymousName → ∃ body', d'.body = .ok body' ∧
    (Digest.digest body').take 16 = (Digest.digest body).take 16

/-- The definition has no body because of the name of a class, so it goes by no name. -/
structure Unnamed [Digest] (d : Definition) (className : String) : Prop where
  long : ¬IsShort className
  body : d.body = .error (.nameTooLong className)
  file : d.encode true = .error (.nameTooLong className)
  name : d.anonymousName = ""

variable {d : Definition}

theorem named_of_body [Digest] {body : Bytes} (h : d.body = .ok body) : d.Named body := by
  have hname : d.anonymousName = digestName body := by rw [anonymousName, h]
  constructor
  case written => exact h
  case name => exact hname
  case hex => exact hname ▸ isHexName_digestName body
  case file =>
    have hbytes : d.bytes true = .ok (textLayout (digestName body) ++ body) :=
      bytes_eq_ok.2 ⟨body, h, isShort_digestName body, rfl⟩
    refine ⟨_, encode_eq_ok.2 ⟨by simp, [textLayout (digestName body) ++ body], ?_, rfl⟩⟩
    rw [List.mapM_cons, hbytes]
    rfl
  case shared =>
    intro d' hshared
    cases hbody' : d'.body with
    | ok body' =>
      refine ⟨body', rfl, digestName_inj ?_⟩
      rw [← hname, ← hshared, anonymousName, hbody']
    | error fault =>
      -- the empty name has no digits
      have hempty : d'.anonymousName = "" := by rw [anonymousName, hbody']
      have hhex := isHexName_digestName body
      rw [← hname, ← hshared, hempty] at hhex
      exact absurd hhex.1 (by decide)

theorem unnamed_of_body [Digest] {className : String} (hlong : ¬IsShort className)
    (h : d.body = .error (.nameTooLong className)) : d.Unnamed className := by
  have hbytes : d.bytes true = .error (.nameTooLong className) := by
    rw [bytes, h]
    rfl
  refine ⟨hlong, h, ?_, by rw [anonymousName, h]⟩
  unfold Definition.encode Scgf.encode
  rw [if_neg (by simp), List.mapM_cons, hbytes]
  rfl

theorem ugenBytes_of_long {u : Node} (h : ¬IsShort u.className) :
    d.ugenBytes u = .error (.nameTooLong u.className) := by
  have htext : text u.className = .error (.nameTooLong u.className) := by
    rw [text, length_toUTF8]
    exact if_neg h
  rw [ugenBytes, htext]
  rfl

/-- If all else is in order, a definition has a body unless a class name is too long. -/
theorem body_cases (hlen : d.indexedParameters.length = d.parameters.length)
    (hnames : ∀ p ∈ d.indexedParameters, IsShort p.1.name)
    (hlists : ∀ u ∈ d.ugens, ∀ input ∈ u.inputs, d.Lists input) :
    ((∀ u ∈ d.ugens, IsShort u.className) ∧ ∃ body, d.body = .ok body) ∨
      ∃ u ∈ d.ugens, ¬IsShort u.className ∧ d.body = .error (.nameTooLong u.className) := by
  by_cases hshort : ∀ u ∈ d.ugens, IsShort u.className
  · have hwritable : d.Writable := ⟨hnames, fun u hu => ⟨hshort u hu, hlists u hu⟩⟩
    exact .inl ⟨hshort, _, (body_eq_ok hlen "").2 ⟨hwritable, rfl⟩⟩
  · right
    have hentries : ∃ entries, d.indexedParameters.mapM nameBytes = .ok entries :=
      ⟨_, (mapM_eq_ok_iff fun _ _ _ => nameBytes_eq_ok).2 ⟨hnames, rfl⟩⟩
    obtain ⟨entries, hentries⟩ := hentries
    rcases mapM_ok_or_error d.ugenBytes d.ugens with ⟨parts, hparts⟩ | ⟨u, hu, fault, hfault, hmap⟩
    · have := ((mapM_eq_ok_iff fun _ _ _ => ugenBytes_eq_ok).1 hparts).1
      exact absurd (fun u hu => (this u hu).1) hshort
    · have hlong : ¬IsShort u.className := by
        intro h
        rw [ugenBytes_eq_ok.2 ⟨⟨h, hlists u hu⟩, rfl⟩] at hfault
        cases hfault
      rw [ugenBytes_of_long hlong] at hfault
      cases hfault
      refine ⟨u, hu, hlong, ?_⟩
      rw [body, hentries]
      change (d.ugens.mapM d.ugenBytes >>= _) = _
      rw [hmap]
      rfl

end Definition

/-! ## Definitions that were built -/

namespace Graph

variable {source g : Graph} {options : Options}

/-- Every constant has a place in the table. -/
theorem any_constantTable {ugens : List Node} {u : Node} (hu : u ∈ ugens) {value : Single}
    (hvalue : .constant value ∈ u.inputs) :
    (constantTable ugens).any (·.sameConstant value) := by
  have hmem : value ∈ ugens.flatMap fun node => node.inputs.filterMap Input.constant? :=
    List.mem_flatMap.2 ⟨u, hu, List.mem_filterMap.2 ⟨_, hvalue, rfl⟩⟩
  unfold constantTable
  generalize ugens.flatMap (fun node => node.inputs.filterMap Input.constant?) = values at hmem
  -- a value that has a place keeps it, and one that is still to come will get one
  suffices h : ∀ table : List Single, table.any (·.sameConstant value) ∨ value ∈ values →
      (values.foldl (fun table value =>
        if table.any (·.sameConstant value) then table else table ++ [value]) table).any
          (·.sameConstant value) from h [] (.inr hmem)
  clear hmem
  induction values with
  | nil => exact fun table h => h.resolve_right List.not_mem_nil
  | cons first values ih =>
    intro table h
    rw [List.foldl_cons]
    apply ih
    rcases h with hold | hnew
    · left
      split
      · exact hold
      · rw [List.any_append, hold, Bool.true_or]
    · rcases List.mem_cons.1 hnew with rfl | hlater
      · left
        split
        · next hfound => exact hfound
        · simp [Single.sameConstant_refl]
      · exact .inr hlater

theorem lists_finish (g : Graph) (name : Option String) {u : Node} (hu : u ∈ (g.finish name).ugens)
    {input : Input} (hi : input ∈ u.inputs) : (g.finish name).Lists input := by
  cases input with
  | constant value => exact List.findIdx?_isSome.trans (any_constantTable hu hi)
  | node ref => trivial

/-- The classes that compilation itself uses have short names. -/
theorem Sourced.className_compiled (hs : source.Sourced) (h : source.compiled options = .ok g)
    {id : Nat} (hid : id ∈ g.order) : IsShort (g.node id).className ∨
      ∃ old ∈ source.order, (source.node old).className = (g.node id).className := by
  have hdescends := hs.descends_compiled h
  have hshort : ∀ d ∈ insertedClasses ++ ControlGroup.classes, IsShort d.name := by decide +kernel
  by_cases hlt : id < source.nodes.size
  · have hgenerator := (mem_generators.1 (hdescends.generator id hid hlt)).1
    exact .inr ⟨id, hgenerator, (hdescends.alike id hid hlt).className.symm⟩
  · left
    rcases hdescends.inserted id hid (by omega) with hcontrol | ⟨d, hd, hname, -⟩
    · obtain ⟨group, -, hnode⟩ := (hs.resolved_compiled h).2.1.exists_group hcontrol
      rw [hnode]
      exact hshort _ (List.mem_append_right _ group.descriptor_mem_classes)
    · rw [hname]
      exact hshort d (List.mem_append_left _ hd)

end Graph

theorem Builder.className_of_node {b : Builder} {call : Call} {values : List Signal} {n : Node}
    (h : b.node call values = .ok n) : n.className = call.descriptor.name := by
  obtain ⟨slots, -, h⟩ := except_bind_eq_ok.1 h
  cases h
  rfl

/-- A class name that is too long is one that the caller gave to a class. -/
theorem History.className {ops : List Operation} {b : Builder} {known : List Outlet}
    (h : History ops b known) : ∀ n ∈ b.nodes, IsShort n.className ∨
      ∃ call, Operation.register call ∈ ops ∧ call.descriptor.name = n.className := by
  have hcatalog : ∀ d ∈ Catalog.full, IsShort d.name := by decide +kernel
  have hcalls : ∀ op ∈ ops, op.Registers fun d =>
      ∃ call, Operation.register call ∈ ops ∧ call.descriptor = d := by
    rintro op hop call rfl
    exact .inr ⟨call, hop, rfl⟩
  refine h.invariant hcalls (P := fun b => ∀ n ∈ b.nodes, IsShort n.className ∨
    ∃ call, Operation.register call ∈ ops ∧ call.descriptor.name = n.className)
    (fun _ n hn => by simp at hn) fun b b' hstep ih => hstep.forall_mem ih ?_ ?_ ?_
  · intro call values n hcall _ hnode
    rw [Builder.className_of_node hnode]
    rcases hcall with hmem | ⟨call', hcall', hsame⟩
    · exact .inl (hcatalog _ hmem)
    · exact .inr ⟨call', hcall', congrArg Descriptor.name hsame⟩
  · exact fun p => .inl (by decide +kernel : IsShort "Parameter")
  · exact fun n inputs _ hn => hn

namespace Builder

variable {b : Builder} {options : Options} {d : Definition}

/-- Names of parameters are checked when the parameters are added. -/
theorem isShort_parameters (hb : b.Reachable) (hd : b.build options = .ok d) :
    ∀ p ∈ d.parameters, IsShort p.1.name := by
  obtain ⟨-, g, hg, rfl⟩ := build_eq_ok.1 hd
  obtain ⟨-, hl, hfits⟩ := hb.wellFormed.sourced.resolved_compiled hg
  intro p hp
  change p ∈ Graph.parameterTable g.numbered at hp
  rw [Graph.parameterTable_numbered hl hfits] at hp
  obtain ⟨group, hgroup, hp⟩ := List.mem_flatMap.1 hp
  obtain ⟨⟨m, hm, hsame⟩, -⟩ := Graph.member_of_mem_slotsFrom hgroup hp
  have hsize := hb.size_names_le p.1 (hsame ▸ mem_parameters_of_member hgroup hm)
  rw [IsShort]
  simp only [maxNameSize] at hsize
  omega

theorem body_build (hb : b.Reachable) (hd : b.build options = .ok d) :
    ((∀ u ∈ d.ugens, IsShort u.className) ∧ ∃ body, d.body = .ok body) ∨
      ∃ u ∈ d.ugens, ¬IsShort u.className ∧ d.body = .error (.nameTooLong u.className) := by
  have hshort := isShort_parameters hb hd
  obtain ⟨-, g, hg, rfl⟩ := build_eq_ok.1 hd
  have hperm : (g.finish options.effectiveName).indexedParameters.Perm
      (g.finish options.effectiveName).parameters :=
    perm_filterMap_getElem? (Graph.alphabetical_perm _)
  exact Definition.body_cases hperm.length_eq (fun p hp => hshort p (hperm.mem_iff.1 hp))
    fun u hu input hi => g.lists_finish _ hu hi

theorem named_of_short [Digest] (hb : b.Reachable) (hd : b.build options = .ok d)
    (hshort : ∀ u ∈ d.ugens, IsShort u.className) : ∃ body, d.Named body := by
  rcases body_build hb hd with ⟨-, body, hbody⟩ | ⟨u, hu, hlong, -⟩
  · exact ⟨body, Definition.named_of_body hbody⟩
  · exact absurd (hshort u hu) hlong

theorem unnamed_of_long [Digest] (hb : b.Reachable) (hd : b.build options = .ok d)
    (hlong : ¬∀ u ∈ d.ugens, IsShort u.className) : ∃ u ∈ d.ugens, d.Unnamed u.className := by
  rcases body_build hb hd with ⟨hshort, -⟩ | ⟨u, hu, hlong, hbody⟩
  · exact absurd hshort hlong
  · exact ⟨u, hu, Definition.unnamed_of_body hlong hbody⟩

end Builder

/-- **When a definition that was built has a name by content.** It has one, the half digest of its
body in thirty-two digits, if and only if the names of its classes are short; otherwise it cannot be
written and goes by the empty name. Names that are too long are those the caller gave to classes. -/
theorem build_named [Digest] {ops : List Operation} {b : Builder} {known : List Outlet}
    (h : History ops b known) {options : Options} {d : Definition}
    (hd : b.build options = .ok d) :
    ((∀ u ∈ d.ugens, IsShort u.className) → ∃ body, d.Named body) ∧
      ((¬∀ u ∈ d.ugens, IsShort u.className) → ∃ u ∈ d.ugens, d.Unnamed u.className) ∧
      ∀ u ∈ d.ugens, IsShort u.className ∨
        ∃ call, Operation.register call ∈ ops ∧ call.descriptor.name = u.className := by
  have hb : b.Reachable := ⟨ops, known, h⟩
  refine ⟨Builder.named_of_short hb hd, Builder.unnamed_of_long hb hd, fun u hu => ?_⟩
  obtain ⟨-, g, hg, rfl⟩ := Builder.build_eq_ok.1 hd
  obtain ⟨id, hid, rfl⟩ := Graph.mem_numbered.1 hu
  rcases hb.wellFormed.sourced.className_compiled hg hid with hshort | ⟨old, hold, hname⟩
  · exact .inl hshort
  · have horigin := h.className _ (Array.mem_of_getElem? (Graph.getElem?_of_mem_ofNodes hold))
    rwa [hname] at horigin

/-- A class of the caller, with a name of `size` letters. -/
def letterClass (size : Nat) : Descriptor where
  name := String.ofList (List.replicate size 'x')
  description := "A class of the caller"
  category := .oscillator
  inputs := [{ name := "level", default? := some 1 }]
  rates := [.audio]

/-- As many generators of the class as asked for. -/
def letterOperations (size count : Nat) : List Operation :=
  List.replicate count (.register { descriptor := letterClass size, rate := .audio })

def letterBuilder (size count : Nat) : Builder :=
  (letterOperations size count).foldl (fun b op => op.after b) { scope := 0 }

/-- The longest name that fits. -/
theorem letterBuilder_named : ∃ ops known d, History ops (letterBuilder 255 2) known ∧
    (letterBuilder 255 2).build {} = .ok d ∧ (∀ u ∈ d.ugens, IsShort u.className) ∧
    d.ugens.length = 2 ∧ (∃ body, d.Named body) ∧
    ∀ u ∈ d.ugens, IsShort u.className ∨
      ∃ call, Operation.register call ∈ ops ∧ call.descriptor.name = u.className := by
  obtain ⟨ops, known, hhistory⟩ : (letterBuilder 255 2).Reachable :=
    reachable_of_admitted (by decide +kernel)
  have hbuild : ((letterBuilder 255 2).build {}).toOption.map (fun d =>
      decide ((∀ u ∈ d.ugens, IsShort u.className) ∧ d.ugens.length = 2)) = some true := by
    decide +kernel
  obtain ⟨d, hd, hfacts⟩ := exists_eq_ok_of_map_toOption hbuild
  obtain ⟨hshort, hlength⟩ := of_decide_eq_true hfacts
  obtain ⟨hnamed, -, horigin⟩ := build_named hhistory hd
  exact ⟨ops, known, d, hhistory, hd, hshort, hlength, hnamed hshort, horigin⟩

/-- With one more letter nothing can be written, and different definitions share the empty name. -/
theorem exists_build_unnamed : ∃ (b b' : Builder) (d d' : Definition), b.Reachable ∧ b'.Reachable ∧
    b.build {} = .ok d ∧ b'.build {} = .ok d' ∧ d.ugens ≠ d'.ugens ∧
    d.anonymousName = d'.anonymousName ∧ d.anonymousName = "" ∧
    (¬∃ file, d.encode true = .ok file) ∧ ¬∃ file, d'.encode true = .ok file := by
  have hreachable : (letterBuilder 256 1).Reachable ∧ (letterBuilder 256 2).Reachable :=
    ⟨reachable_of_admitted (by decide +kernel), reachable_of_admitted (by decide +kernel)⟩
  have hbuild : ∀ count ∈ [1, 2], ((letterBuilder 256 count).build {}).toOption.map (fun d =>
      decide ((¬∀ u ∈ d.ugens, IsShort u.className) ∧ d.ugens.length = count)) = some true := by
    decide +kernel
  obtain ⟨d, hd, hfacts⟩ := exists_eq_ok_of_map_toOption (hbuild 1 (by simp))
  obtain ⟨d', hd', hfacts'⟩ := exists_eq_ok_of_map_toOption (hbuild 2 (by simp))
  obtain ⟨hlong, hlength⟩ := of_decide_eq_true hfacts
  obtain ⟨hlong', hlength'⟩ := of_decide_eq_true hfacts'
  obtain ⟨_, -, hd₁⟩ := Builder.unnamed_of_long hreachable.1 hd hlong
  obtain ⟨_, -, hd₂⟩ := Builder.unnamed_of_long hreachable.2 hd' hlong'
  refine ⟨_, _, d, d', hreachable.1, hreachable.2, hd, hd', ?_, hd₁.name.trans hd₂.name.symm,
    hd₁.name, ?_, ?_⟩
  · intro hsame
    rw [hsame, hlength'] at hlength
    cases hlength
  · rw [hd₁.file]
    rintro ⟨_, hfile⟩
    cases hfile
  · rw [hd₂.file]
    rintro ⟨_, hfile⟩
    cases hfile

end SynthGraph
