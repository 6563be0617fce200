import Mathlib.Data.Fintype.EquivFin
import Mathlib.Data.List.GetD
import Mathlib.Data.Set.Finite.Lattice
import Tyr.Lib.DisjointSet
import Tyr.Lib.Fold
import Tyr.Lib.Odometer

/-!
Equality constraints of invariant synthesis.

A constraint system asks for values of variables and invariant parameters. A choice of
one conjunction for each equality DNF is tested on representatives of the classes of
equal terms, where an object represents its class.

* `EqualityConjunction.compute`, `ConstraintSystem.isSolvable`.
* `representativeOf_congr`, `value_representativeOf` — the representatives are the most
  general solution of the equalities.
* `accepts_iff` — the tests on representatives are exact for one choice.
* `ConstraintSystem.isSolvable_iff` — the solver is exact over every infinite domain.
-/

namespace Tyr.Formalism.Planning.Constraints

open Tyr.Lib

inductive ConstraintTerm where
  | invariantParameter (index : Nat)
  | variableTerm (index : Nat)
  | objectTerm (index : Nat)
deriving DecidableEq

def isObjectTerm : ConstraintTerm → Bool
  | .objectTerm _ => true
  | _ => false

structure InequalityDisjunction where
  parts : List (ConstraintTerm × ConstraintTerm)

structure EqualityConjunction where
  equalities : List (ConstraintTerm × ConstraintTerm)

/-! ### Representatives -/

/-- The id of a term is its position. -/
def getId (terms : List ConstraintTerm) (term : ConstraintTerm) : List ConstraintTerm :=
  if term ∈ terms then terms else terms ++ [term]

namespace EqualityConjunction

variable (conjunction : EqualityConjunction)

def terms : List ConstraintTerm :=
  conjunction.equalities.foldl (fun terms equality => getId (getId terms equality.1) equality.2) []

/-- The classes after all equalities were united. -/
def sets : DisjointSet :=
  DisjointSet.discrete.uniteAll (conjunction.equalities.map fun equality =>
    (conjunction.terms.idxOf equality.1, conjunction.terms.idxOf equality.2))

def find (term : ConstraintTerm) : Nat :=
  (conjunction.sets.find (conjunction.terms.idxOf term)).2

/-- One class for each root. The order of the classes has no effect. -/
def classes : List (List ConstraintTerm) :=
  (conjunction.terms.map conjunction.find).dedup.map fun root =>
    conjunction.terms.filter fun term => conjunction.find term == root

end EqualityConjunction

/-- An object, if the class has one. -/
def classRepresentative (eqClass : List ConstraintTerm) : Option ConstraintTerm :=
  let objectRep := eqClass.find? isObjectTerm
  let fallbackRep := eqClass.find? (! isObjectTerm ·)
  objectRep.or fallbackRep

namespace EqualityConjunction

variable (conjunction : EqualityConjunction)

/-- The representatives, unless a class has two objects. -/
def compute : Option (List (ConstraintTerm × ConstraintTerm)) :=
  if conjunction.classes.any fun eqClass => 2 ≤ eqClass.countP isObjectTerm then none
  else some (conjunction.classes.flatMap fun eqClass =>
    (classRepresentative eqClass).toList.flatMap fun representative =>
      eqClass.map fun term => (term, representative))

def isConsistent : Bool := conjunction.compute.isSome

def getRepresentative : List (ConstraintTerm × ConstraintTerm) := conjunction.compute.getD []

end EqualityConjunction

/-! ### Solvability -/

/-- The alternatives of a disjunction, at least one. -/
structure EqualityDNF where
  conjunctions : List EqualityConjunction
  nonempty : 0 < conjunctions.length

structure ConstraintSystem where
  equalityDNFs : List EqualityDNF
  inequalityDisjunctions : List InequalityDisjunction
  notConstant : List ConstraintTerm

def combineEqualityConjunctions (conjunctions : List EqualityConjunction) : EqualityConjunction :=
  ⟨conjunctions.flatMap EqualityConjunction.equalities⟩

/-- A term without an entry represents itself. -/
def representativeOf (representative : List (ConstraintTerm × ConstraintTerm))
    (term : ConstraintTerm) : ConstraintTerm :=
  (representative.lookup term).getD term

def inequalityDisjunctionOk (disjunction : InequalityDisjunction)
    (representative : List (ConstraintTerm × ConstraintTerm)) : Bool :=
  disjunction.parts.any fun part =>
    representativeOf representative part.1 != representativeOf representative part.2

/-- The conjunctions at the indices, which are in range. -/
def choose (dnfs : List EqualityDNF) (indices : List Nat) : List EqualityConjunction :=
  List.zipWith (fun dnf index => dnf.conjunctions.getD index ⟨[]⟩) dnfs indices

def sizes (dnfs : List EqualityDNF) : List Nat := dnfs.map (·.conjunctions.length)

theorem sizes_pos {dnfs : List EqualityDNF} : ∀ size ∈ sizes dnfs, 0 < size := by
  intro size mem
  obtain ⟨dnf, _, rfl⟩ := List.mem_map.mp mem
  exact dnf.nonempty

namespace ConstraintSystem

variable (system : ConstraintSystem)

/-- The tests of the constants and of the inequalities on representatives. -/
def accepts (representative : List (ConstraintTerm × ConstraintTerm)) : Bool :=
  (system.notConstant.all fun term => ! isObjectTerm (representativeOf representative term)) &&
    system.inequalityDisjunctions.all (inequalityDisjunctionOk · representative)

def testChoice (indices : List Nat) : Bool :=
  let combined := combineEqualityConjunctions (choose system.equalityDNFs indices)
  combined.isConsistent && system.accepts combined.getRepresentative

def isSolvable : Bool :=
  if system.equalityDNFs.isEmpty then
    system.accepts (EqualityConjunction.mk []).getRepresentative
  else Odometer.search system.testChoice (Odometer.Indices.first (@sizes_pos system.equalityDNFs))

end ConstraintSystem

/-! ### The classes -/

theorem mem_getId {terms : List ConstraintTerm} {term t : ConstraintTerm} :
    t ∈ getId terms term ↔ t ∈ terms ∨ t = term := by
  unfold getId
  by_cases known : term ∈ terms
  · rw [if_pos known]
    constructor
    · exact Or.inl
    · rintro (mem | rfl)
      · exact mem
      · exact known
  · rw [if_neg known, List.mem_append, List.mem_singleton]

theorem nodup_getId {terms : List ConstraintTerm} {term : ConstraintTerm} (nodup : terms.Nodup) :
    (getId terms term).Nodup := by
  unfold getId
  by_cases known : term ∈ terms
  · rw [if_pos known]
    exact nodup
  · rw [if_neg known, ← List.concat_eq_append]
    exact nodup.concat known

namespace EqualityConjunction

variable {conjunction : EqualityConjunction} {t u : ConstraintTerm}

theorem mem_terms : t ∈ conjunction.terms ↔
    ∃ equality ∈ conjunction.equalities, t = equality.1 ∨ t = equality.2 := by
  have step (terms : List ConstraintTerm) (equality : ConstraintTerm × ConstraintTerm) :
      t ∈ getId (getId terms equality.1) equality.2 ↔
        t ∈ terms ∨ (t = equality.1 ∨ t = equality.2) := by
    rw [mem_getId, mem_getId, or_assoc]
  have law : t ∈ conjunction.terms ↔ t ∈ ([] : List ConstraintTerm) ∨
      ∃ equality ∈ conjunction.equalities, t = equality.1 ∨ t = equality.2 :=
    Lib.foldl_iff_of_law conjunction.equalities step []
  rw [law, or_iff_right List.not_mem_nil]

theorem nodup_terms : conjunction.terms.Nodup := by
  exact Lib.foldl_invariant (P := List.Nodup)
    (fun terms nodup equality _ => nodup_getId (nodup_getId nodup)) List.nodup_nil

/-- All equalities hold. -/
def Holds {D : Type*} (value : ConstraintTerm → D) (conjunction : EqualityConjunction) : Prop :=
  ∀ equality ∈ conjunction.equalities, value equality.1 = value equality.2

theorem find_eq_iff : conjunction.find t = conjunction.find u ↔
    Relation.EqvGen (fun i j => ∃ equality ∈ conjunction.equalities,
      conjunction.terms.idxOf equality.1 = i ∧ conjunction.terms.idxOf equality.2 = j)
      (conjunction.terms.idxOf t) (conjunction.terms.idxOf u) := by
  rw [find, find, DisjointSet.find_snd, DisjointSet.find_snd, sets,
    DisjointSet.root_uniteAll_discrete_iff]
  simp only [List.mem_map, Prod.mk.injEq]

/-- Equal terms are in one class. -/
theorem find_eq_of_mem {equality : ConstraintTerm × ConstraintTerm}
    (mem : equality ∈ conjunction.equalities) :
    conjunction.find equality.1 = conjunction.find equality.2 :=
  find_eq_iff.mpr (.rel _ _ ⟨equality, mem, rfl, rfl⟩)

/-- The terms of a class have one value wherever the equalities hold. -/
theorem value_eq_of_find_eq {D : Type*} {value : ConstraintTerm → D}
    (holds : conjunction.Holds value) (memT : t ∈ conjunction.terms) (memU : u ∈ conjunction.terms)
    (same : conjunction.find t = conjunction.find u) : value t = value u := by
  have valueAt {s : ConstraintTerm} (mem : s ∈ conjunction.terms) :
      conjunction.terms[conjunction.terms.idxOf s]?.map value = some (value s) := by
    have lt := List.idxOf_lt_length_iff.mpr mem
    rw [List.getElem?_eq_getElem lt, List.getElem_idxOf lt]
    rfl
  have generated := find_eq_iff.mp same
  have equal : Equivalence fun i j : Nat =>
      conjunction.terms[i]?.map value = conjunction.terms[j]?.map value :=
    InvImage.equivalence Eq _ eq_equivalence
  have agree := equal.eqvGen_iff.mp (generated.mono ?_)
  · rw [valueAt memT, valueAt memU] at agree
    exact Option.some.inj agree
  · rintro i j ⟨equality, mem, rfl, rfl⟩
    rw [valueAt (mem_terms.mpr ⟨equality, mem, Or.inl rfl⟩),
      valueAt (mem_terms.mpr ⟨equality, mem, Or.inr rfl⟩), holds equality mem]

variable (conjunction) in
def classOf (term : ConstraintTerm) : List ConstraintTerm :=
  conjunction.terms.filter fun t => conjunction.find t == conjunction.find term

theorem mem_classOf : u ∈ conjunction.classOf t ↔
    u ∈ conjunction.terms ∧ conjunction.find u = conjunction.find t := by
  rw [classOf, List.mem_filter, beq_iff_eq]

theorem mem_classes {eqClass : List ConstraintTerm} :
    eqClass ∈ conjunction.classes ↔ ∃ t ∈ conjunction.terms, conjunction.classOf t = eqClass := by
  simp only [classes, List.mem_map, List.mem_dedup, exists_exists_and_eq_and, classOf]

/-! ### Representatives -/

theorem classRepresentative_mem {eqClass : List ConstraintTerm}
    (chosen : classRepresentative eqClass = some u) : u ∈ eqClass := by
  obtain object | ⟨_, fallback⟩ := Option.or_eq_some_iff.mp chosen
  · exact List.mem_of_find?_eq_some object
  · exact List.mem_of_find?_eq_some fallback

theorem classRepresentative_isSome {eqClass : List ConstraintTerm} (mem : t ∈ eqClass) :
    ∃ u, classRepresentative eqClass = some u := by
  apply Option.isSome_iff_exists.mp
  unfold classRepresentative
  dsimp only
  rw [Option.isSome_or, Bool.or_eq_true, List.find?_isSome, List.find?_isSome]
  by_cases object : isObjectTerm t = true
  · exact Or.inl ⟨t, mem, object⟩
  · exact Or.inr ⟨t, mem, by simpa using object⟩

/-- The only object of a class represents it. -/
theorem classRepresentative_of_object {eqClass : List ConstraintTerm} {object : Nat}
    (few : eqClass.countP isObjectTerm ≤ 1) (mem : .objectTerm object ∈ eqClass) :
    classRepresentative eqClass = some (.objectTerm object) := by
  have memObjects : ConstraintTerm.objectTerm object ∈ eqClass.filter isObjectTerm :=
    List.mem_filter.mpr ⟨mem, rfl⟩
  rw [List.countP_eq_length_filter] at few
  have only : eqClass.filter isObjectTerm = [.objectTerm object] := by
    cases objects : eqClass.filter isObjectTerm with
    | nil => simp [objects] at memObjects
    | cons first rest =>
        rw [objects] at few memObjects
        have empty : rest = [] := List.length_eq_zero_iff.mp (by simpa using few)
        subst empty
        rw [List.mem_singleton.mp memObjects]
  have first : eqClass.find? isObjectTerm = some (.objectTerm object) := by
    rw [← List.head?_filter, only]
    rfl
  rw [classRepresentative, first]
  rfl

theorem mem_representative {representative : List (ConstraintTerm × ConstraintTerm)}
    (computed : conjunction.compute = some representative) :
    (t, u) ∈ representative ↔ t ∈ conjunction.terms ∧
      classRepresentative (conjunction.classOf t) = some u := by
  unfold compute at computed
  split at computed
  · cases computed
  · cases computed
    simp only [List.mem_flatMap, mem_classes, List.mem_map, Option.mem_toList, Prod.mk.injEq]
    constructor
    · rintro ⟨_, ⟨s, memS, rfl⟩, r, chosen, t', memT, rfl, rfl⟩
      obtain ⟨known, same⟩ := mem_classOf.mp memT
      have sameClass : conjunction.classOf t' = conjunction.classOf s := by
        rw [classOf, classOf, same]
      exact ⟨known, sameClass ▸ chosen⟩
    · rintro ⟨known, chosen⟩
      exact ⟨_, ⟨t, known, rfl⟩, u, chosen, t, mem_classOf.mpr ⟨known, rfl⟩, rfl, rfl⟩

/-- A term of an equality has the representative of its class, another term has itself. -/
theorem representativeOf_eq {representative : List (ConstraintTerm × ConstraintTerm)}
    (computed : conjunction.compute = some representative) :
    (t ∈ conjunction.terms ∧
      classRepresentative (conjunction.classOf t) = some (representativeOf representative t)) ∨
    (t ∉ conjunction.terms ∧ representativeOf representative t = t) := by
  unfold representativeOf
  cases found : representative.lookup t with
  | some u =>
      obtain ⟨front, back, split, _⟩ := List.lookup_eq_some_iff.mp found
      have mem : (t, u) ∈ representative := by simp [split]
      exact Or.inl ((mem_representative computed).mp mem)
  | none =>
      refine Or.inr ⟨fun known => ?_, rfl⟩
      obtain ⟨u, chosen⟩ := classRepresentative_isSome
        (mem_classOf.mpr ⟨known, rfl⟩ : t ∈ conjunction.classOf t)
      have absent := List.lookup_eq_none_iff.mp found _
        ((mem_representative computed).mpr ⟨known, chosen⟩)
      simp at absent

theorem countP_le_one {representative : List (ConstraintTerm × ConstraintTerm)}
    (computed : conjunction.compute = some representative) (known : t ∈ conjunction.terms) :
    (conjunction.classOf t).countP isObjectTerm ≤ 1 := by
  unfold compute at computed
  split at computed
  · cases computed
  · rename_i consistent
    by_contra many
    apply consistent
    rw [List.any_eq_true]
    exact ⟨_, mem_classes.mpr ⟨t, known, rfl⟩, decide_eq_true (Nat.lt_of_not_le many)⟩

section

variable {representative : List (ConstraintTerm × ConstraintTerm)} {D : Type*}
  {value : ConstraintTerm → D}

theorem representativeOf_congr (computed : conjunction.compute = some representative)
    {equality : ConstraintTerm × ConstraintTerm} (mem : equality ∈ conjunction.equalities) :
    representativeOf representative equality.1 = representativeOf representative equality.2 := by
  have sameClass : conjunction.classOf equality.1 = conjunction.classOf equality.2 := by
    rw [classOf, classOf, find_eq_of_mem mem]
  obtain ⟨_, chosen⟩ | ⟨unknown, _⟩ := representativeOf_eq (t := equality.1) computed
  · obtain ⟨_, chosen'⟩ | ⟨unknown, _⟩ := representativeOf_eq (t := equality.2) computed
    · rw [sameClass] at chosen
      exact Option.some.inj (chosen.symm.trans chosen')
    · exact absurd (mem_terms.mpr ⟨equality, mem, Or.inr rfl⟩) unknown
  · exact absurd (mem_terms.mpr ⟨equality, mem, Or.inl rfl⟩) unknown

theorem representativeOf_object (computed : conjunction.compute = some representative)
    (object : Nat) : representativeOf representative (.objectTerm object) = .objectTerm object := by
  obtain ⟨known, chosen⟩ | ⟨_, own⟩ := representativeOf_eq (t := .objectTerm object) computed
  · have itself := classRepresentative_of_object (countP_le_one computed known)
      (mem_classOf.mpr ⟨known, rfl⟩)
    exact Option.some.inj (chosen.symm.trans itself)
  · exact own

/-- Where the equalities hold a term has the value of its representative. -/
theorem value_representativeOf (computed : conjunction.compute = some representative)
    (holds : conjunction.Holds value) : value (representativeOf representative t) = value t := by
  obtain ⟨known, chosen⟩ | ⟨_, own⟩ := representativeOf_eq (t := t) computed
  · obtain ⟨knownRep, same⟩ := mem_classOf.mp (classRepresentative_mem chosen)
    exact value_eq_of_find_eq holds knownRep known same
  · rw [own]

theorem mem_of_representativeOf (computed : conjunction.compute = some representative)
    (represents : representativeOf representative t = u) : u = t ∨ u ∈ conjunction.terms := by
  obtain ⟨_, chosen⟩ | ⟨_, own⟩ := representativeOf_eq (t := t) computed
  · rw [represents] at chosen
    exact Or.inr (mem_classOf.mp (classRepresentative_mem chosen)).1
  · exact Or.inl (represents.symm.trans own)

/-- Equalities that hold do not force two objects together. -/
theorem compute_isSome (holds : conjunction.Holds value)
    (distinct : Function.Injective fun object => value (.objectTerm object)) :
    ∃ representative, conjunction.compute = some representative := by
  unfold compute
  split
  · rename_i inconsistent
    obtain ⟨eqClass, mem, many⟩ := List.any_eq_true.mp inconsistent
    obtain ⟨t, known, rfl⟩ := mem_classes.mp mem
    have nodup : ((conjunction.classOf t).filter isObjectTerm).Nodup :=
      (nodup_terms.filter _).filter _
    have two := of_decide_eq_true many
    rw [List.countP_eq_length_filter] at two
    obtain ⟨first, second, rest, objects⟩ : ∃ first second rest,
        (conjunction.classOf t).filter isObjectTerm = first :: second :: rest := by
      match (conjunction.classOf t).filter isObjectTerm, two with
      | first :: second :: rest, _ => exact ⟨first, second, rest, rfl⟩
    have memFirst : first ∈ (conjunction.classOf t).filter isObjectTerm := by simp [objects]
    have memSecond : second ∈ (conjunction.classOf t).filter isObjectTerm := by simp [objects]
    obtain ⟨inFirst, objectFirst⟩ := List.mem_filter.mp memFirst
    obtain ⟨inSecond, objectSecond⟩ := List.mem_filter.mp memSecond
    obtain ⟨knownFirst, rootFirst⟩ := mem_classOf.mp inFirst
    obtain ⟨knownSecond, rootSecond⟩ := mem_classOf.mp inSecond
    have same := value_eq_of_find_eq holds knownFirst knownSecond (rootFirst.trans rootSecond.symm)
    rw [objects, List.nodup_cons] at nodup
    cases first with
    | objectTerm a =>
        cases second with
        | objectTerm b =>
            have eq := distinct same
            subst eq
            exact absurd List.mem_cons_self nodup.1
        | invariantParameter index => cases objectSecond
        | variableTerm index => cases objectSecond
    | invariantParameter index => cases objectFirst
    | variableTerm index => cases objectFirst
  · exact ⟨_, rfl⟩

end

end EqualityConjunction

/-! ### Solutions -/

/-- The values of the invariant parameters and of the variables. -/
structure Assignment (D : Type*) where
  ofParameter : Nat → D
  ofVariable : Nat → D

/-- An object denotes itself. -/
def Assignment.value {D : Type*} (denote : Nat → D) (assignment : Assignment D) :
    ConstraintTerm → D
  | .invariantParameter index => assignment.ofParameter index
  | .variableTerm index => assignment.ofVariable index
  | .objectTerm index => denote index

/-- Some pair has different values. -/
def InequalityDisjunction.Holds {D : Type*} (value : ConstraintTerm → D)
    (disjunction : InequalityDisjunction) : Prop :=
  ∃ part ∈ disjunction.parts, value part.1 ≠ value part.2

namespace ConstraintSystem

variable (system : ConstraintSystem)

/-- The terms that occur in the system. -/
def terms : List ConstraintTerm :=
  (system.equalityDNFs.flatMap fun dnf => dnf.conjunctions.flatMap fun conjunction =>
    conjunction.equalities.flatMap fun equality => [equality.1, equality.2]) ++
  (system.inequalityDisjunctions.flatMap fun disjunction =>
    disjunction.parts.flatMap fun part => [part.1, part.2]) ++
  system.notConstant

/-- The tests other than the equalities hold of an assignment. -/
structure Admits {D : Type*} (denote : Nat → D) (assignment : Assignment D) : Prop where
  inequalities : ∀ disjunction ∈ system.inequalityDisjunctions,
    disjunction.Holds (assignment.value denote)
  notConstant : ∀ term ∈ system.notConstant, ∀ object, .objectTerm object ∈ system.terms →
    assignment.value denote term ≠ denote object

/-- The assignment solves the system. -/
structure SolvedBy {D : Type*} (denote : Nat → D) (assignment : Assignment D) : Prop
    extends system.Admits denote assignment where
  equalities : ∀ dnf ∈ system.equalityDNFs, ∃ conjunction ∈ dnf.conjunctions,
    conjunction.Holds (assignment.value denote)

end ConstraintSystem

/-! ### The most general assignment -/

section

variable {D : Type*} {denote : Nat → D}

/-- An infinite domain has values outside any list. -/
theorem exists_fresh [Infinite D] (used : List D) :
    ∃ fresh : Nat → D, Function.Injective fresh ∧ ∀ n, fresh n ∉ used := by
  have unused : Set.Infinite (Set.compl {d | d ∈ used}) := used.finite_toSet.infinite_compl
  let embedding := Set.Infinite.natEmbedding _ unused
  exact ⟨fun n => embedding n, Subtype.val_injective.comp embedding.injective,
    fun n => (embedding n).property⟩

/-- Parameters and variables have values of their own. -/
def generalValue (denote fresh : Nat → D) : ConstraintTerm → D
  | .invariantParameter index => fresh (2 * index)
  | .variableTerm index => fresh (2 * index + 1)
  | .objectTerm index => denote index

def generalAssignment (denote fresh : Nat → D)
    (representative : List (ConstraintTerm × ConstraintTerm)) : Assignment D where
  ofParameter index :=
    generalValue denote fresh (representativeOf representative (.invariantParameter index))
  ofVariable index :=
    generalValue denote fresh (representativeOf representative (.variableTerm index))

variable {fresh : Nat → D} {terms : List ConstraintTerm} {t u : ConstraintTerm}

theorem generalValue_injective (injective : Function.Injective denote)
    (freshInjective : Function.Injective fresh)
    (apart : ∀ n object, .objectTerm object ∈ terms → fresh n ≠ denote object)
    (memT : isObjectTerm t = true → t ∈ terms) (memU : isObjectTerm u = true → u ∈ terms)
    (same : generalValue denote fresh t = generalValue denote fresh u) : t = u := by
  cases t with
  | invariantParameter i =>
      cases u with
      | invariantParameter j =>
          have eq := freshInjective same
          rw [Nat.eq_of_mul_eq_mul_left (by decide) eq]
      | variableTerm j =>
          have eq := freshInjective same
          omega
      | objectTerm j => exact absurd same (apart _ _ (memU rfl))
  | variableTerm i =>
      cases u with
      | invariantParameter j =>
          have eq := freshInjective same
          omega
      | variableTerm j =>
          have eq := freshInjective same
          rw [Nat.eq_of_mul_eq_mul_left (by decide) (Nat.add_right_cancel eq)]
      | objectTerm j => exact absurd same (apart _ _ (memU rfl))
  | objectTerm i =>
      cases u with
      | invariantParameter j => exact absurd same.symm (apart _ _ (memT rfl))
      | variableTerm j => exact absurd same.symm (apart _ _ (memT rfl))
      | objectTerm j => rw [injective same]

theorem generalAssignment_value {conjunction : EqualityConjunction}
    {representative : List (ConstraintTerm × ConstraintTerm)}
    (computed : conjunction.compute = some representative) (t : ConstraintTerm) :
    (generalAssignment denote fresh representative).value denote t =
      generalValue denote fresh (representativeOf representative t) := by
  cases t with
  | invariantParameter i => rfl
  | variableTerm i => rfl
  | objectTerm i =>
      rw [EqualityConjunction.representativeOf_object computed]
      rfl

end

namespace ConstraintSystem

variable {system : ConstraintSystem} {conjunction : EqualityConjunction} {D : Type*}
  {denote : Nat → D} {term : ConstraintTerm}

theorem mem_terms_of_inequality {disjunction : InequalityDisjunction}
    (memDisjunction : disjunction ∈ system.inequalityDisjunctions)
    {part : ConstraintTerm × ConstraintTerm} (mem : part ∈ disjunction.parts) :
    part.1 ∈ system.terms ∧ part.2 ∈ system.terms := by
  have both : ∀ t ∈ [part.1, part.2], t ∈ system.terms := by
    intro t memPair
    apply List.mem_append_left
    apply List.mem_append_right
    exact List.mem_flatMap.mpr ⟨_, memDisjunction, List.mem_flatMap.mpr ⟨_, mem, memPair⟩⟩
  exact ⟨both _ (by simp), both _ (by simp)⟩

theorem mem_terms_of_notConstant (mem : term ∈ system.notConstant) : term ∈ system.terms :=
  List.mem_append_right _ mem

theorem accepts_eq_true {representative : List (ConstraintTerm × ConstraintTerm)} :
    system.accepts representative = true ↔
      (∀ t ∈ system.notConstant, isObjectTerm (representativeOf representative t) = false) ∧
      ∀ disjunction ∈ system.inequalityDisjunctions, ∃ part ∈ disjunction.parts,
        representativeOf representative part.1 ≠ representativeOf representative part.2 := by
  simp only [accepts, inequalityDisjunctionOk, Bool.and_eq_true, List.all_eq_true,
    Bool.not_eq_true', List.any_eq_true, bne_iff_ne]

section

variable {representative : List (ConstraintTerm × ConstraintTerm)}
  (computed : conjunction.compute = some representative)
include computed

/-- The most general assignment passes where the representatives do. -/
theorem admits_generalAssignment (injective : Function.Injective denote) {fresh : Nat → D}
    (freshInjective : Function.Injective fresh)
    (apart : ∀ n object, .objectTerm object ∈ system.terms → fresh n ≠ denote object)
    (occurs : ∀ t ∈ conjunction.terms, t ∈ system.terms)
    (accepted : system.accepts representative = true) :
    system.Admits denote (generalAssignment denote fresh representative) := by
  obtain ⟨notConstant, inequalities⟩ := accepts_eq_true.mp accepted
  have memRepresentative {t : ConstraintTerm} (mem : t ∈ system.terms) :
      representativeOf representative t ∈ system.terms := by
    obtain own | known := EqualityConjunction.mem_of_representativeOf computed rfl
    · rw [own]
      exact mem
    · exact occurs _ known
  refine ⟨fun disjunction memDisjunction => ?_, fun t mem object memObject same => ?_⟩
  · obtain ⟨part, mem, ne⟩ := inequalities disjunction memDisjunction
    refine ⟨part, mem, fun same => ne ?_⟩
    rw [generalAssignment_value computed, generalAssignment_value computed] at same
    obtain ⟨memFirst, memSecond⟩ := mem_terms_of_inequality memDisjunction mem
    exact generalValue_injective injective freshInjective apart
      (fun _ => memRepresentative memFirst) (fun _ => memRepresentative memSecond) same
  · have notObject := notConstant t mem
    rw [generalAssignment_value computed] at same
    have eq := generalValue_injective (u := .objectTerm object) injective freshInjective apart
      (fun _ => memRepresentative (mem_terms_of_notConstant mem)) (fun _ => memObject) same
    rw [eq] at notObject
    cases notObject

/-- The representatives pass where some assignment does. -/
theorem accepts_of_admits {assignment : Assignment D}
    (occurs : ∀ t ∈ conjunction.terms, t ∈ system.terms)
    (holds : conjunction.Holds (assignment.value denote))
    (admits : system.Admits denote assignment) : system.accepts representative = true := by
  have valueOf (t : ConstraintTerm) : assignment.value denote (representativeOf representative t) =
      assignment.value denote t := EqualityConjunction.value_representativeOf computed holds
  refine accepts_eq_true.mpr ⟨fun t mem => ?_, fun disjunction memDisjunction => ?_⟩
  · cases represents : representativeOf representative t with
    | invariantParameter index => rfl
    | variableTerm index => rfl
    | objectTerm object =>
        have memObject : .objectTerm object ∈ system.terms := by
          obtain own | known := EqualityConjunction.mem_of_representativeOf computed represents
          · rw [own]
            exact mem_terms_of_notConstant mem
          · exact occurs _ known
        have same := valueOf t
        rw [represents] at same
        exact absurd same.symm (admits.notConstant t mem object memObject)
  · obtain ⟨part, mem, ne⟩ := admits.inequalities disjunction memDisjunction
    refine ⟨part, mem, fun same => ne ?_⟩
    rw [← valueOf, same, valueOf]

end

/-- The tests on representatives are exact for a choice of conjunctions. -/
theorem accepts_iff [Infinite D] (injective : Function.Injective denote)
    (occurs : ∀ t ∈ conjunction.terms, t ∈ system.terms) :
    (conjunction.isConsistent && system.accepts conjunction.getRepresentative) = true ↔
      ∃ assignment : Assignment D, conjunction.Holds (assignment.value denote) ∧
        system.Admits denote assignment := by
  rw [EqualityConjunction.isConsistent, EqualityConjunction.getRepresentative, Bool.and_eq_true]
  constructor
  · rintro ⟨consistent, accepted⟩
    obtain ⟨representative, computed⟩ := Option.isSome_iff_exists.mp consistent
    rw [computed] at accepted
    obtain ⟨fresh, freshInjective, unused⟩ := exists_fresh
      (system.terms.map (generalValue denote fun _ => denote 0))
    have apart (n object : Nat) (mem : .objectTerm object ∈ system.terms) :
        fresh n ≠ denote object := by
      intro same
      exact unused n (List.mem_map.mpr ⟨_, mem, same.symm⟩)
    refine ⟨generalAssignment denote fresh representative, fun equality mem => ?_,
      admits_generalAssignment computed injective freshInjective apart occurs accepted⟩
    rw [generalAssignment_value computed, generalAssignment_value computed,
      EqualityConjunction.representativeOf_congr computed mem]
  · rintro ⟨assignment, holds, admits⟩
    obtain ⟨representative, computed⟩ := EqualityConjunction.compute_isSome holds injective
    rw [computed]
    exact ⟨rfl, accepts_of_admits computed occurs holds admits⟩

end ConstraintSystem

/-! ### Choosing conjunctions -/

/-- The conjunctions at indices are the choices of one conjunction for each DNF. -/
theorem exists_choose_iff {dnfs : List EqualityDNF} {P : List EqualityConjunction → Prop} :
    (∃ indices, Odometer.InRange (sizes dnfs) indices ∧ P (choose dnfs indices)) ↔
      ∃ chosen, List.Forall₂ (fun conjunction dnf => conjunction ∈ EqualityDNF.conjunctions dnf)
        chosen dnfs ∧ P chosen := by
  induction dnfs generalizing P with
  | nil =>
      constructor
      · rintro ⟨indices, _, holds⟩
        exact ⟨[], .nil, by simpa [choose] using holds⟩
      · rintro ⟨chosen, inDnfs, holds⟩
        cases inDnfs
        exact ⟨[], .nil, holds⟩
  | cons dnf dnfs ih =>
      constructor
      · rintro ⟨indices, inRange, holds⟩
        obtain _ | @⟨index, _, indices, _, lt, inRange⟩ := inRange
        have mem : dnf.conjunctions.getD index ⟨[]⟩ ∈ dnf.conjunctions := by
          rw [List.getD_eq_getElem _ _ lt]
          exact List.getElem_mem lt
        obtain ⟨chosen, inDnfs, holdsRest⟩ := (ih (P := fun chosen =>
          P (dnf.conjunctions.getD index ⟨[]⟩ :: chosen))).mp ⟨indices, inRange, holds⟩
        exact ⟨_, .cons mem inDnfs, holdsRest⟩
      · rintro ⟨_, inDnfs, holds⟩
        obtain _ | @⟨conjunction, _, chosen, _, mem, inDnfs⟩ := inDnfs
        obtain ⟨index, lt, rfl⟩ := List.getElem_of_mem mem
        obtain ⟨indices, inRange, holdsRest⟩ := (ih (P := fun chosen =>
          P (dnf.conjunctions[index] :: chosen))).mpr ⟨chosen, inDnfs, holds⟩
        refine ⟨index :: indices, .cons lt inRange, ?_⟩
        rw [← List.getD_eq_getElem dnf.conjunctions ⟨[]⟩ lt] at holdsRest
        exact holdsRest

theorem exists_chosen_iff {dnfs : List EqualityDNF} {P : EqualityConjunction → Prop} :
    (∃ chosen, List.Forall₂ (fun conjunction dnf => conjunction ∈ EqualityDNF.conjunctions dnf)
      chosen dnfs ∧ ∀ conjunction ∈ chosen, P conjunction) ↔
      ∀ dnf ∈ dnfs, ∃ conjunction ∈ dnf.conjunctions, P conjunction := by
  induction dnfs with
  | nil => simp
  | cons dnf dnfs ih =>
      rw [List.forall_mem_cons, ← ih]
      constructor
      · rintro ⟨_, inDnfs, holds⟩
        obtain _ | @⟨conjunction, _, chosen, _, mem, inDnfs⟩ := inDnfs
        obtain ⟨holdsFirst, holdsRest⟩ := List.forall_mem_cons.mp holds
        exact ⟨⟨conjunction, mem, holdsFirst⟩, chosen, inDnfs, holdsRest⟩
      · rintro ⟨⟨conjunction, mem, holdsFirst⟩, chosen, inDnfs, holdsRest⟩
        exact ⟨conjunction :: chosen, .cons mem inDnfs,
          List.forall_mem_cons.mpr ⟨holdsFirst, holdsRest⟩⟩

theorem exists_dnf_of_mem {dnfs : List EqualityDNF} {chosen : List EqualityConjunction}
    (inDnfs : List.Forall₂ (fun conjunction dnf => conjunction ∈ EqualityDNF.conjunctions dnf)
      chosen dnfs) {conjunction : EqualityConjunction} (mem : conjunction ∈ chosen) :
    ∃ dnf ∈ dnfs, conjunction ∈ dnf.conjunctions := by
  induction inDnfs with
  | nil => cases mem
  | cons memDnf _ ih =>
      obtain rfl | mem := List.mem_cons.mp mem
      · exact ⟨_, List.mem_cons_self, memDnf⟩
      · obtain ⟨dnf, memDnfs, memDnf⟩ := ih mem
        exact ⟨dnf, List.mem_cons_of_mem _ memDnfs, memDnf⟩

theorem holds_combine_iff {D : Type*} {value : ConstraintTerm → D}
    {chosen : List EqualityConjunction} :
    (combineEqualityConjunctions chosen).Holds value ↔
      ∀ conjunction ∈ chosen, conjunction.Holds value := by
  simp only [EqualityConjunction.Holds, combineEqualityConjunctions, List.mem_flatMap]
  constructor
  · intro holds conjunction memConjunction equality mem
    exact holds equality ⟨conjunction, memConjunction, mem⟩
  · rintro holds equality ⟨conjunction, memConjunction, mem⟩
    exact holds conjunction memConjunction equality mem

namespace ConstraintSystem

variable {system : ConstraintSystem}

/-- The terms of a combination occur in the system. -/
theorem mem_terms_of_combined {chosen : List EqualityConjunction}
    (inDnfs : List.Forall₂ (fun conjunction dnf => conjunction ∈ EqualityDNF.conjunctions dnf)
      chosen system.equalityDNFs) :
    ∀ t ∈ (combineEqualityConjunctions chosen).terms, t ∈ system.terms := by
  intro t mem
  obtain ⟨equality, memEquality, occurs⟩ := EqualityConjunction.mem_terms.mp mem
  obtain ⟨conjunction, memChosen, memEquality⟩ := List.mem_flatMap.mp memEquality
  obtain ⟨dnf, memDnf, memConjunction⟩ := exists_dnf_of_mem inDnfs memChosen
  apply List.mem_append_left
  apply List.mem_append_left
  refine List.mem_flatMap.mpr ⟨dnf, memDnf, List.mem_flatMap.mpr ⟨conjunction, memConjunction,
    List.mem_flatMap.mpr ⟨equality, memEquality, ?_⟩⟩⟩
  simpa using occurs

/-- The search finds a choice of conjunctions that hold together, if there is one. -/
theorem search_iff {D : Type*} [Infinite D] {denote : Nat → D}
    (injective : Function.Injective denote) :
    Odometer.search system.testChoice (Odometer.Indices.first (@sizes_pos system.equalityDNFs)) = true ↔
      ∃ assignment : Assignment D, system.SolvedBy denote assignment := by
  rw [Odometer.search_first_iff]
  unfold testChoice
  rw [exists_choose_iff (P := fun chosen => ((combineEqualityConjunctions chosen).isConsistent &&
    system.accepts (combineEqualityConjunctions chosen).getRepresentative) = true)]
  constructor
  · rintro ⟨chosen, inDnfs, passes⟩
    obtain ⟨assignment, holds, admits⟩ :=
      (accepts_iff injective (mem_terms_of_combined inDnfs)).mp passes
    refine ⟨assignment, admits, ?_⟩
    exact exists_chosen_iff.mp ⟨chosen, inDnfs, holds_combine_iff.mp holds⟩
  · rintro ⟨assignment, solves⟩
    obtain ⟨chosen, inDnfs, holds⟩ := exists_chosen_iff.mpr solves.equalities
    refine ⟨chosen, inDnfs, ?_⟩
    exact (accepts_iff injective (mem_terms_of_combined inDnfs)).mpr
      ⟨assignment, holds_combine_iff.mpr holds, solves.toAdmits⟩

theorem isConsistent_nil : (EqualityConjunction.mk []).isConsistent = true := by
  have holds : (EqualityConjunction.mk []).Holds id := fun equality mem => absurd mem List.not_mem_nil
  obtain ⟨representative, computed⟩ := EqualityConjunction.compute_isSome holds
    fun a b same => ConstraintTerm.objectTerm.inj same
  rw [EqualityConjunction.isConsistent, computed]
  rfl

/-- The solver accepts a system exactly when it has a solution. -/
theorem isSolvable_iff {D : Type*} [Infinite D] {denote : Nat → D}
    (injective : Function.Injective denote) (system : ConstraintSystem) :
    system.isSolvable = true ↔ ∃ assignment : Assignment D, system.SolvedBy denote assignment := by
  unfold isSolvable
  split
  · rename_i empty
    have noDnfs := List.isEmpty_iff.mp empty
    have noTerms : ∀ t ∈ (EqualityConjunction.mk []).terms, t ∈ system.terms :=
      fun t mem => absurd mem List.not_mem_nil
    have tested := accepts_iff injective noTerms
    rw [isConsistent_nil, Bool.true_and] at tested
    rw [tested]
    constructor
    · rintro ⟨assignment, _, admits⟩
      exact ⟨assignment, admits, by simp [noDnfs]⟩
    · rintro ⟨assignment, solves⟩
      exact ⟨assignment, fun equality mem => absurd mem List.not_mem_nil, solves.toAdmits⟩
  · exact search_iff injective

/-- A variable is equal to a parameter or to an object and different from the object. -/
def twoAlternatives : ConstraintSystem where
  equalityDNFs := [⟨[⟨[(.variableTerm 0, .objectTerm 0)]⟩,
    ⟨[(.variableTerm 0, .invariantParameter 0)]⟩], by decide⟩]
  inequalityDisjunctions := [⟨[(.variableTerm 0, .objectTerm 0)]⟩]
  notConstant := [.invariantParameter 0]

theorem isSolvable_iff_twoAlternatives : twoAlternatives.isSolvable = true ↔
    ∃ assignment : Assignment Nat, twoAlternatives.SolvedBy id assignment :=
  isSolvable_iff Function.injective_id twoAlternatives

end ConstraintSystem

end Tyr.Formalism.Planning.Constraints
