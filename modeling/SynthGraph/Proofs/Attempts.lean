import SynthGraph.Proofs.Requests

/-!
# When an operation fails

`Build.Attempts` says of an operation for which faults it fails, and that it succeeds if there are
none. Operations are put together from others, and the faults of a registration are those of the
slots it fills (`Builder.failsFor_plan`).
-/

namespace SynthGraph

/-! ## Operands -/

namespace Builder

variable {b b' : Builder} {s t : Signal}

/-- All outlets in the signal are of this builder. -/
def Owns (b : Builder) (s : Signal) : Prop :=
  ∀ p ∈ s.outlets, p.scope = b.scope ∧ p.ugen < b.nodes.size

theorem Owns.wires (h : b.Owns s) (hs : s.isVector = false) : b.Wires s := by
  cases s with
  | constant value => trivial
  | outlet p => exact h p (by simp)
  | vector items => cases hs

theorem Owns.of_subset (h : b.Owns s) (hsub : t.outlets ⊆ s.outlets) : b.Owns t :=
  fun p hp => h p (hsub hp)

theorem Owns.mono (h : b.Owns s) (hext : b.Extends b') : b'.Owns s := by
  intro p hp
  obtain ⟨hscope, hlt⟩ := h p hp
  exact ⟨hscope.trans hext.scope.symm, Nat.lt_of_lt_of_le hlt hext.size_le⟩

end Builder

/-! ## Attempts -/

namespace Build

variable {α β : Type} {b : Builder}

/-- The operation fails for one of the faults if there is one. Otherwise it succeeds, with `Q` of
the result and the builder after it. -/
def Attempts (P : Fault → Prop) (Q : α → Builder → Prop) (x : Build α) (b : Builder) : Prop :=
  match x.exec b with
  | (.error fault, _) => P fault
  | (.ok a, b') => (∀ fault, ¬P fault) ∧ b.Extends b' ∧ Q a b'

namespace Attempts

variable {P P' : Fault → Prop} {Q : α → Builder → Prop} {Q' : β → Builder → Prop}

theorem of_ok {x : Build α} {a : α} {b' : Builder} (hexec : x.exec b = (.ok a, b'))
    (hnone : ∀ fault, ¬P fault) (hext : b.Extends b') (hq : Q a b') : Attempts P Q x b := by
  unfold Attempts
  rw [hexec]
  exact ⟨hnone, hext, hq⟩

theorem of_error {x : Build α} {fault : Fault} {b' : Builder}
    (hexec : x.exec b = (.error fault, b')) (hfault : P fault) : Attempts P Q x b := by
  unfold Attempts
  rw [hexec]
  exact hfault

theorem error_or_ok {x : Build α} (h : Attempts P Q x b) :
    (∃ fault b', x.exec b = (.error fault, b') ∧ P fault) ∨
      (∃ a b', x.exec b = (.ok a, b')) ∧ ∀ fault, ¬P fault := by
  unfold Attempts at h
  rcases hexec : x.exec b with ⟨fault | a, b'⟩
  · rw [hexec] at h
    exact .inl ⟨fault, b', rfl, h⟩
  · rw [hexec] at h
    exact .inr ⟨⟨a, b', rfl⟩, h.1⟩

theorem pure {a : α} (hnone : ∀ fault, ¬P fault) (hq : Q a b) :
    Attempts P Q (Pure.pure a) b :=
  of_ok rfl hnone (.refl b) hq

theorem congr {x : Build α} (h : Attempts P Q x b) (hP : ∀ fault, P fault ↔ P' fault) :
    Attempts P' Q x b := by
  obtain rfl : P = P' := funext fun fault => propext (hP fault)
  exact h

/-- What follows fails for faults of its own. -/
theorem bind {x : Build α} {f : α → Build β} (hx : Attempts P Q x b)
    (hf : ∀ a b', b.Extends b' → Q a b' → Attempts P' Q' (f a) b') :
    Attempts (fun fault => P fault ∨ P' fault) Q' (x >>= f) b := by
  unfold Attempts at hx ⊢
  rw [exec_bind]
  rcases hexec : x.exec b with ⟨fault | a, b'⟩
  · rw [hexec] at hx
    exact .inl hx
  · rw [hexec] at hx
    obtain ⟨hnone, hext, hq⟩ := hx
    have hnext := hf a b' hext hq
    unfold Attempts at hnext
    show match (f a).exec b' with
      | (.error fault, _) => P fault ∨ P' fault
      | (.ok c, b'') => (∀ fault, ¬(P fault ∨ P' fault)) ∧ b.Extends b'' ∧ Q' c b''
    rcases hexec' : (f a).exec b' with ⟨fault | c, b''⟩
    · rw [hexec'] at hnext
      exact .inr hnext
    · rw [hexec'] at hnext
      obtain ⟨hnone', hext', hq'⟩ := hnext
      exact ⟨fun fault => not_or.2 ⟨hnone fault, hnone' fault⟩, hext.trans hext', hq'⟩

theorem seq {x : Build α} {f : α → Build β} (hx : Attempts (fun _ => False) Q x b)
    (hf : ∀ a b', b.Extends b' → Q a b' → Attempts (fun _ => False) Q' (f a) b') :
    Attempts (fun _ => False) Q' (x >>= f) b :=
  (hx.bind hf).congr (by simp)

theorem map {x : Build α} (hx : Attempts P Q x b) {f : α → β}
    (hf : ∀ a b', Q a b' → Q' (f a) b') :
    Attempts P Q' (x >>= fun a => Pure.pure (f a)) b := by
  refine (hx.bind fun a b' _ hq => pure (P := fun _ => False) (by simp) (hf a b' hq)).congr ?_
  simp

theorem weaken {x : Build α} (h : Attempts P Q x b) : Attempts P (fun _ _ => True) x b := by
  unfold Attempts at h ⊢
  rcases hexec : x.exec b with ⟨fault | a, b'⟩
  · rw [hexec] at h
    exact h
  · rw [hexec] at h
    exact ⟨h.1, h.2.1, trivial⟩

theorem mapM {P : α → Fault → Prop} {f : α → Build β} {as : List α}
    (h : ∀ a ∈ as, ∀ b', b.Extends b' → Attempts (P a) (fun _ _ => True) (f a) b') :
    Attempts (fun fault => ∃ a ∈ as, P a fault) (fun _ _ => True) (as.mapM f) b := by
  induction as generalizing b with
  | nil => exact pure (by simp) trivial
  | cons a as ih =>
    rw [List.mapM_cons]
    refine congr (P := fun fault => P a fault ∨ ∃ a' ∈ as, P a' fault) ?_ (by simp)
    refine (h a List.mem_cons_self b (.refl b)).bind fun c b' hext _ => ?_
    refine (ih fun a' ha' b'' hext' => ?_).map fun _ _ _ => trivial
    exact h a' (List.mem_cons_of_mem _ ha') b'' (hext.trans hext')

end Attempts

end Build

/-! ## Registering -/

/-- The computation fails for one of the faults if there is one, and succeeds otherwise. -/
def FailsFor {α : Type} (P : Fault → Prop) : Except Fault α → Prop
  | .error fault => P fault
  | .ok _ => ∀ fault, ¬P fault

theorem FailsFor.mapM {α β : Type} {P : α → Fault → Prop} {f : α → Except Fault β} {as : List α}
    (h : ∀ a ∈ as, FailsFor (P a) (f a)) :
    FailsFor (fun fault => ∃ a ∈ as, P a fault) (as.mapM f) := by
  rcases mapM_ok_or_error f as with ⟨bs, hbs⟩ | ⟨a, ha, fault, hfault, hmap⟩
  · rw [hbs]
    rintro fault ⟨a, ha, hfault⟩
    obtain ⟨b, -, hb⟩ := exists_mem_of_mapM hbs ha
    have hnone := h a ha
    rw [hb] at hnone
    exact hnone fault hfault
  · rw [hmap]
    have hreason := h a ha
    rw [hfault] at hreason
    exact ⟨a, ha, hreason⟩

theorem FailsFor.map {α β : Type} {P : Fault → Prop} {x : Except Fault α} (h : FailsFor P x)
    (f : α → β) : FailsFor P (x >>= fun a => Pure.pure (f a)) := by
  cases x with
  | error fault => exact h
  | ok a => exact h

theorem InputDecl.map_snd_elements (decl : InputDecl) (value : Signal) :
    (decl.elements value).map (·.2) = if decl.variadic then value.leaves else [value] := by
  unfold elements
  split
  · rw [List.map_map]
    exact List.zipIdx_map_fst 0 value.leaves
  · rfl

namespace Builder

variable {b : Builder} {call : Call}

/-- The fault of a source at a rate that the input does not take. -/
def SlotClash (call : Call) (decl : InputDecl) (s : Signal) (fault : Fault) : Prop :=
  ∃ p, s = .outlet p ∧ decl.check.allows call.rate p.rate = false ∧
    fault = .rateMismatch call.descriptor.name (.input decl.name p.rate call.rate)

theorem failsFor_checkRate (decl : InputDecl) (s : Signal) :
    FailsFor (SlotClash call decl s) (checkRate call decl s) := by
  cases s with
  | constant value =>
    rintro fault ⟨p, heq, -⟩
    cases heq
  | vector items =>
    rintro fault ⟨p, heq, -⟩
    cases heq
  | outlet p =>
    by_cases hallows : decl.check.allows call.rate p.rate
    · have hok : checkRate call decl (.outlet p) = .ok () := if_pos hallows
      rw [hok]
      rintro fault ⟨q, heq, hclash, -⟩
      cases heq
      rw [hallows] at hclash
      cases hclash
    · have herror : checkRate call decl (.outlet p) = .error (.rateMismatch call.descriptor.name
          (.input decl.name p.rate call.rate)) := if_neg hallows
      rw [herror]
      exact ⟨p, rfl, by simpa using hallows, rfl⟩

theorem failsFor_slot {decl : InputDecl} {e : InputKey × Signal} (h : b.Wires e.2) :
    FailsFor (SlotClash call decl e.2) (b.slot call decl e) := by
  unfold slot
  rw [wire_eq_ok_iff.2 ⟨h, rfl⟩]
  exact (failsFor_checkRate decl e.2).map fun _ => (e.1, e.2.input)

/-- The faults of the slots that the values fill. -/
def ValuesClash (call : Call) (values : List Signal) (fault : Fault) : Prop :=
  ∃ dv ∈ call.descriptor.inputs.zip values, ∃ e ∈ dv.1.elements dv.2,
    SlotClash call dv.1 e.2 fault

theorem failsFor_node {values : List Signal}
    (h : ∀ dv ∈ call.descriptor.inputs.zip values, ∀ e ∈ dv.1.elements dv.2, b.Wires e.2) :
    FailsFor (ValuesClash call values) (b.node call values) := by
  unfold node
  refine FailsFor.map (.mapM fun dv hdv => ?_) _
  exact .mapM fun e he => failsFor_slot (h dv hdv e he)

theorem failsFor_plan {calls : List (List Signal)} {args : List Argument}
    (hargs : call.arguments = .ok args)
    (hcalls : Expansion.expand call.descriptor.name args = .ok calls)
    (h : ∀ values ∈ calls, ∀ dv ∈ call.descriptor.inputs.zip values,
      ∀ e ∈ dv.1.elements dv.2, b.Wires e.2) :
    FailsFor (fun fault => ∃ values ∈ calls, ValuesClash call values fault) (b.plan call) := by
  unfold plan
  rw [hargs]
  show FailsFor _ (Expansion.expand call.descriptor.name args >>= fun calls => calls.mapM _)
  rw [hcalls]
  exact .mapM fun values hvalues => failsFor_node (h values hvalues)

end Builder

theorem Build.attempts_register {b : Builder} {P : Fault → Prop} {call : Call}
    (h : FailsFor P (b.plan call)) :
    Attempts P (fun _ _ => True) (register call) b := by
  cases hplan : b.plan call with
  | error fault =>
    rw [hplan] at h
    exact .of_error (by rw [exec_register, hplan]) h
  | ok nodes =>
    rw [hplan] at h
    exact .of_ok (by rw [exec_register, hplan]) h (b.extends_append nodes) trivial

end SynthGraph
