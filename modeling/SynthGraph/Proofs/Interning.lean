import Mathlib.Data.List.Induction
import SynthGraph.Proofs.Built

/-!
# The constant table

`sameConstant` is an equivalence, as it compares keys (`Single.key_eq_iff`). The table of a
definition is filled by a fold over the constants in the order of their use; an entry stays out of
it if an entry before it is the same. Because of transitivity it makes no difference whether it is
compared with the table or with all the constants before it, so the table is `Single.firstUses`.
-/

namespace SynthGraph

namespace Single

theorem sameConstant_symm {a b : Single} (h : a.sameConstant b) : b.sameConstant a :=
  key_eq_iff.1 (key_eq_iff.2 h).symm

theorem sameConstant_trans {a b c : Single} (hab : a.sameConstant b) (hbc : b.sameConstant c) :
    a.sameConstant c :=
  key_eq_iff.1 ((key_eq_iff.2 hab).trans (key_eq_iff.2 hbc))

/-- The values that are not the same constant as an earlier one. -/
def firstUses (values : List Single) : List Single :=
  (values.zipIdx.filter fun use => (values.take use.2).all (!·.sameConstant use.1)).map (·.1)

theorem firstUses_snoc (values : List Single) (value : Single) :
    firstUses (values ++ [value]) =
      if values.any (·.sameConstant value) then firstUses values
      else firstUses values ++ [value] := by
  -- a value in front is compared with what is in front of it, whatever follows
  have hfront : values.zipIdx.filter (fun use =>
        ((values ++ [value]).take use.2).all (!·.sameConstant use.1)) =
      values.zipIdx.filter fun use => (values.take use.2).all (!·.sameConstant use.1) := by
    refine List.filter_congr fun use huse => ?_
    have hlt : use.2 < values.length := by simpa using List.snd_lt_of_mem_zipIdx huse
    rw [List.take_append_of_le_length (Nat.le_of_lt hlt)]
  unfold firstUses
  rw [List.zipIdx_append, List.filter_append, List.map_append, hfront]
  by_cases hsame : values.any (·.sameConstant value)
  · have hnot : values.all (!·.sameConstant value) = false := by
      rw [← List.not_any_eq_all_not, hsame, Bool.not_true]
    simp [hsame, hnot]
  · have hnew : values.all (!·.sameConstant value) = true := by
      rw [← List.not_any_eq_all_not]
      simpa using hsame
    simp [hsame, hnew]

/-- What is used is in the table. -/
theorem any_firstUses (values : List Single) (value : Single) :
    (firstUses values).any (·.sameConstant value) = values.any (·.sameConstant value) := by
  induction values using List.reverseRecOn with
  | nil => rfl
  | append_singleton values last ih =>
    rw [firstUses_snoc, List.any_append, List.any_cons, List.any_nil, Bool.or_false]
    split
    · next hlast =>
      -- the one that `last` is the same as is the same as `value` if `last` is
      rw [ih, eq_comm, Bool.or_eq_left_iff_imp]
      intro hvalue
      obtain ⟨first, hmem, hfirst⟩ := List.any_eq_true.1 hlast
      exact List.any_eq_true.2 ⟨first, hmem, sameConstant_trans hfirst hvalue⟩
    · rw [List.any_append, List.any_cons, List.any_nil, Bool.or_false, ih]

end Single

/-! ## The table of a definition -/

namespace Definition

/-- The constants that the generators read, in the order of the generators and of their inputs. -/
def uses (d : Definition) : List Single :=
  d.ugens.flatMap fun u => u.inputs.filterMap Input.constant?

theorem mem_uses {d : Definition} {value : Single} :
    value ∈ d.uses ↔ ∃ u ∈ d.ugens, .constant value ∈ u.inputs := by
  simp only [uses, List.mem_flatMap, List.mem_filterMap]
  refine exists_congr fun u => and_congr_right fun _ => ?_
  constructor
  · rintro ⟨input, hinput, hvalue⟩
    cases input with
    | constant a => exact Option.some.inj hvalue ▸ hinput
    | node ref => cases hvalue
  · exact fun h => ⟨_, h, rfl⟩

/-- The constant table has every constant that is read, each once, where it is read first. -/
structure Interned (d : Definition) : Prop where
  distinct : Single.Distinct d.constants
  /-- The entries are first uses, bit for bit. -/
  firstUses : d.constants = Single.firstUses d.uses
  /-- The index of a constant is that of the only entry that is the same constant. The entry has
  the same bits, unless both are zeros. -/
  index : ∀ u ∈ d.ugens, ∀ value, .constant value ∈ u.inputs →
    ∃ i entry, d.constantIndex? value = some i ∧ d.constants[i]? = some entry ∧
      (entry = value ∨ entry.isZero ∧ value.isZero) ∧
      ∀ j other, d.constants[j]? = some other → (other.sameConstant value ↔ j = i)

theorem any_constants {d : Definition} (h : d.constants = Single.firstUses d.uses) {u : Node}
    (hu : u ∈ d.ugens) {value : Single} (hvalue : .constant value ∈ u.inputs) :
    d.constants.any (·.sameConstant value) := by
  rw [h, Single.any_firstUses]
  exact List.any_eq_true.2 ⟨value, mem_uses.2 ⟨u, hu, hvalue⟩, Single.sameConstant_refl value⟩

/-- In a table without doubles a constant that has an entry has one index. -/
theorem exists_constantIndex {d : Definition} (h : Single.Distinct d.constants) {value : Single}
    (hvalue : d.constants.any (·.sameConstant value)) :
    ∃ i entry, d.constantIndex? value = some i ∧ d.constants[i]? = some entry ∧
      (entry = value ∨ entry.isZero ∧ value.isZero) ∧
      ∀ j other, d.constants[j]? = some other → (other.sameConstant value ↔ j = i) := by
  obtain ⟨first, hfirst, hsame⟩ := List.any_eq_true.1 hvalue
  obtain ⟨i, hi⟩ := List.mem_iff_getElem?.1 hfirst
  have hunique {j : Nat} {entry : Single} (hj : d.constants[j]? = some entry)
      (hentry : entry.sameConstant value) : d.constantIndex? value = some j :=
    findIdx?_of_pairwise h hj hentry fun other hne hother =>
      hne (Single.sameConstant_trans hother (Single.sameConstant_symm hentry))
  have hindex := hunique hi hsame
  refine ⟨i, first, hindex, hi, Single.sameConstant_iff.1 hsame, fun j other hj => ⟨?_, ?_⟩⟩
  · exact fun hother => Option.some.inj ((hunique hj hother).symm.trans hindex)
  · rintro rfl
    exact Option.some.inj (hi.symm.trans hj) ▸ hsame

end Definition

theorem Graph.constantTable_eq_firstUses (ugens : List Node) :
    constantTable ugens =
      Single.firstUses (ugens.flatMap fun u => u.inputs.filterMap Input.constant?) := by
  unfold constantTable
  generalize (ugens.flatMap fun u => u.inputs.filterMap Input.constant?) = values
  induction values using List.reverseRecOn with
  | nil => rfl
  | append_singleton values value ih =>
    rw [List.foldl_append, ih, List.foldl_cons, List.foldl_nil, Single.any_firstUses,
      Single.firstUses_snoc]

/-- However a definition is built, its table has the constants that are read, each once and in the
order of their first use, and every constant has one index in it. -/
theorem build_interns_constants {b : Builder} {options : Options} {d : Definition}
    (h : b.build options = .ok d) : d.Interned := by
  obtain ⟨-, g, -, rfl⟩ := Builder.build_eq_ok.1 h
  have hdistinct := Graph.distinct_constantTable g.numbered
  have hfirstUses := Graph.constantTable_eq_firstUses g.numbered
  refine ⟨hdistinct, hfirstUses, fun u hu value hvalue => ?_⟩
  exact Definition.exists_constantIndex hdistinct (Definition.any_constants hfirstUses hu hvalue)

/-- Two oscillators with different not-a-numbers and different zeros, and one with both again. -/
def nanOperations : List Operation :=
  let tone (frequency phase : Single) : Operation := .register {
    descriptor := Catalog.sinOsc, rate := .audio,
    args := [("frequency", .constant frequency), ("phase", .constant phase)] }
  [tone ⟨0x7FC00001⟩ ⟨0x80000000⟩, tone ⟨0xFF800002⟩ ⟨0⟩, tone ⟨0x7FC00001⟩ ⟨0xFF800002⟩]

def nanBuilder : Builder := nanOperations.foldl (fun b op => op.after b) { scope := 0 }

/-- A not-a-number is told from another by its bits, and the zeros share the place of the first. -/
theorem nanBuilder_interns : ∃ d, nanBuilder.build { optimize := false } = .ok d ∧ d.Interned ∧
    d.uses = [⟨0x7FC00001⟩, ⟨0x80000000⟩, ⟨0xFF800002⟩, ⟨0⟩, ⟨0x7FC00001⟩, ⟨0xFF800002⟩] ∧
    d.constants = [⟨0x7FC00001⟩, ⟨0x80000000⟩, ⟨0xFF800002⟩] ∧ d.constantIndex? ⟨0⟩ = some 1 := by
  have hbuild : (nanBuilder.build { optimize := false }).toOption.map
      (fun d => (d.uses, d.constants, d.constantIndex? ⟨0⟩)) =
        some ([⟨0x7FC00001⟩, ⟨0x80000000⟩, ⟨0xFF800002⟩, ⟨0⟩, ⟨0x7FC00001⟩, ⟨0xFF800002⟩],
          [⟨0x7FC00001⟩, ⟨0x80000000⟩, ⟨0xFF800002⟩], some 1) := by
    decide +kernel
  obtain ⟨d, hd, hparts⟩ := exists_eq_ok_of_map_toOption hbuild
  simp only [Prod.mk.injEq] at hparts
  exact ⟨d, hd, build_interns_constants hd, hparts⟩

end SynthGraph
