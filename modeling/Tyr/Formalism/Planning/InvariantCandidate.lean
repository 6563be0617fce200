import Mathlib.Data.List.Count
import Mathlib.Data.List.Destutter
import Mathlib.Data.List.GetD
import Mathlib.Data.List.Perm.Subperm
import Tyr.Formalism.Unification.GroundMatch

/-!
Candidates of invariants.

A candidate has rigid and counted variables, numbered one after another, and atoms over
them. The synthesis keeps a shape that its parts rely on: one atom for each predicate,
which has every rigid variable once and the counted one at most once.

* `wellShaped_iff_perm` — the terms are the variables, in some order.
* `WellFormed.normalizeInvariant` — normalizing a candidate keeps its shape and its atoms.
* `wellFormed_makeInitialAtom` — the initial candidates have the shape.
-/

namespace Tyr.Formalism.Planning

open Tyr.Formalism.Unification StructureTraits

/-- `Invariant` of the source, of whose atoms nothing is known. -/
structure InvariantCandidate where
  numRigidVariables : Nat
  numCountedVariables : Nat
  atoms : List Atom
deriving DecidableEq

/-- The variant compares the alternatives first, objects before parameters. -/
def termKey : Term → List Nat
  | .object object => [0, object]
  | .parameter p => [1, p]

def lessEqTerm (x y : Term) : Bool := compareOn termKey x y != .gt

def lessEqAtom (x y : Atom) : Bool :=
  compareLex (compareOn Atom.predicate) (compareOn fun atom => atom.terms.flatMap termKey) x y != .gt

/-- Sort, and erase what is equal to its predecessor. -/
def sortUnique (atoms : List Atom) : List Atom := (atoms.mergeSort lessEqAtom).destutter (· ≠ ·)

namespace InvariantCandidate

/-- `predicates`, which `canonicalize` takes from the atoms. -/
def predicates (inv : InvariantCandidate) : List Nat := inv.atoms.map Atom.predicate

def canonicalize (inv : InvariantCandidate) : InvariantCandidate :=
  { inv with atoms := sortUnique inv.atoms }

/-- The constructor. -/
def create (numRigid numCounted : Nat) (atoms : List Atom) : InvariantCandidate :=
  canonicalize ⟨numRigid, numCounted, atoms⟩

def findPart (inv : InvariantCandidate) (predicate : Nat) : Option Atom :=
  inv.atoms.find? fun atom => atom.predicate == predicate

/-- `covers`: some atom matches, with the counted variables bound. -/
def covers (inv : InvariantCandidate) (element : Atom) : Bool :=
  inv.atoms.any fun atom =>
    (matchStructure atom element (.fromRange inv.numRigidVariables inv.numCountedVariables)).isSome

end InvariantCandidate

/-- The term is the counted variable. -/
def isCounted (numRigid : Nat) : Term → Bool
  | .parameter p => numRigid ≤ p
  | .object _ => false

def partArity (part : Atom) (numRigid : Nat) : Nat :=
  if part.terms.any (isCounted numRigid) then part.terms.length - 1 else part.terms.length

def atomUsesCounted (atom : Atom) (numRigid : Nat) : Bool := atom.terms.any (isCounted numRigid)

def makeInitialAtom (predicate arity countedPosition : Nat) : Atom :=
  if countedPosition = arity then ⟨predicate, (List.range arity).map Term.parameter⟩
  else
    ⟨predicate, (List.range arity).map fun i =>
      if i = countedPosition then .parameter (arity - 1)
      else if i < countedPosition then .parameter i
      else .parameter (i - 1)⟩

/-! ### Normalization -/

/-- Keep the atoms that no other one covers. -/
def removeCoveredAtoms (inv : InvariantCandidate) : InvariantCandidate :=
  { inv with
    atoms := (inv.atoms.zipIdx.filter fun atom =>
      !(inv.atoms.zipIdx.any fun other => decide (atom.2 ≠ other.2) &&
        (InvariantCandidate.create inv.numRigidVariables inv.numCountedVariables [other.1]).covers
          atom.1)).map Prod.fst }

def usesParameter (inv : InvariantCandidate) (p : Nat) : Bool :=
  inv.atoms.any fun atom => atom.terms.any (· == .parameter p)

/-- The new indices so far, the next one, and the number of rigid ones among them. -/
structure Remap where
  remap : List (Option Nat)
  next : Nat
  newNumRigid : Nat

def remapStep (inv : InvariantCandidate) (state : Remap) (p : Nat) : Remap :=
  if usesParameter inv p then
    { remap := state.remap ++ [some state.next]
      next := state.next + 1
      newNumRigid :=
        if p < inv.numRigidVariables then state.newNumRigid + 1 else state.newNumRigid }
  else { state with remap := state.remap ++ [none] }

/-- A parameter that occurs has a new index. -/
def remapTerm (remap : List (Option Nat)) : Term → Term
  | .parameter p => .parameter ((remap.getD p none).getD 0)
  | .object object => .object object

def removeUnusedParameters (inv : InvariantCandidate) : InvariantCandidate :=
  let total := inv.numRigidVariables + inv.numCountedVariables
  let state := (List.range total).foldl (remapStep inv) ⟨[], 0, 0⟩
  { numRigidVariables := state.newNumRigid
    numCountedVariables := state.next - state.newNumRigid
    atoms := inv.atoms.map fun atom => ⟨atom.predicate, atom.terms.map (remapTerm state.remap)⟩ }

def normalizeInvariant (inv : InvariantCandidate) : InvariantCandidate :=
  (removeUnusedParameters (removeCoveredAtoms inv)).canonicalize

/-! ### The shape of a candidate -/

/-- No constants, every rigid variable once, every other one at most once. -/
structure WellShaped (numRigid numCounted : Nat) (terms : List Term) : Prop where
  closed : ∀ term ∈ terms, ∃ p < numRigid + numCounted, term = .parameter p
  rigid_once : ∀ p < numRigid, terms.count (.parameter p) = 1
  counted_le_once : ∀ p, numRigid ≤ p → terms.count (.parameter p) ≤ 1

/-- The atoms have the arities of their predicates. -/
structure InvariantCandidate.WellFormed (arity : Nat → Nat) (inv : InvariantCandidate) : Prop where
  nonempty : inv.atoms ≠ []
  onePerPredicate : inv.predicates.Nodup
  counted_le_one : inv.numCountedVariables ≤ 1
  shaped : ∀ atom ∈ inv.atoms, WellShaped inv.numRigidVariables inv.numCountedVariables atom.terms
  sized : ∀ atom ∈ inv.atoms, atom.terms.length = arity atom.predicate

section

variable {numRigid numCounted : Nat} {terms : List Term}

theorem parameter_injective : Function.Injective Term.parameter := fun _ _ => Term.parameter.inj

/-- The terms are the rigid variables, and perhaps the counted one, in some order. -/
theorem wellShaped_iff_perm (counted_le_one : numCounted ≤ 1) :
    WellShaped numRigid numCounted terms ↔
      ∃ m ≤ numCounted, terms.Perm ((List.range (numRigid + m)).map Term.parameter) := by
  constructor
  · intro shaped
    have nodup : terms.Nodup := by
      rw [List.nodup_iff_count_le_one]
      intro term
      by_cases mem : term ∈ terms
      · obtain ⟨p, _, rfl⟩ := shaped.closed term mem
        rcases Nat.lt_or_ge p numRigid with rigid | counted
        · exact (shaped.rigid_once p rigid).le
        · exact shaped.counted_le_once p counted
      · rw [List.count_eq_zero_of_not_mem mem]
        exact Nat.zero_le 1
    have rigid : ∀ p < numRigid, Term.parameter p ∈ terms := fun p less =>
      List.count_pos_iff.mp (by rw [shaped.rigid_once p less]; exact Nat.one_pos)
    have bounded : ∀ p, Term.parameter p ∈ terms → p < numRigid + numCounted := by
      intro p mem
      obtain ⟨q, less, same⟩ := shaped.closed _ mem
      exact parameter_injective same ▸ less
    have perm : ∀ m, (∀ p, Term.parameter p ∈ terms ↔ p < numRigid + m) →
        terms.Perm ((List.range (numRigid + m)).map Term.parameter) := by
      intro m members
      rw [List.perm_ext_iff_of_nodup nodup (List.nodup_range.map parameter_injective)]
      intro term
      rw [List.mem_map]
      constructor
      · intro mem
        obtain ⟨p, _, rfl⟩ := shaped.closed term mem
        exact ⟨p, List.mem_range.mpr ((members p).mp mem), rfl⟩
      · rintro ⟨p, mem, rfl⟩
        exact (members p).mpr (List.mem_range.mp mem)
    by_cases uses : numCounted = 1 ∧ Term.parameter numRigid ∈ terms
    · refine ⟨1, uses.1.ge, perm 1 fun p => ⟨fun mem => uses.1 ▸ bounded p mem, fun less => ?_⟩⟩
      rcases Nat.lt_succ_iff_lt_or_eq.mp less with before | rfl
      · exact rigid p before
      · exact uses.2
    · refine ⟨0, Nat.zero_le _, perm 0 fun p => ⟨fun mem => ?_, rigid p⟩⟩
      have less := bounded p mem
      by_contra outside
      have one : numCounted = 1 := by omega
      have last : p = numRigid := by omega
      exact uses ⟨one, last ▸ mem⟩
  · rintro ⟨m, m_le, perm⟩
    have count : ∀ p, terms.count (.parameter p) = if p < numRigid + m then 1 else 0 := by
      intro p
      rw [perm.count_eq, List.count_map_of_injective _ _ parameter_injective]
      by_cases less : p < numRigid + m
      · rw [if_pos less]
        exact List.count_eq_one_of_mem List.nodup_range (List.mem_range.mpr less)
      · rw [if_neg less]
        exact List.count_eq_zero_of_not_mem (by simpa using less)
    refine ⟨?_, ?_, ?_⟩
    · intro term mem
      obtain ⟨p, inside, rfl⟩ := List.mem_map.mp (perm.mem_iff.mp mem)
      exact ⟨p, (List.mem_range.mp inside).trans_le (Nat.add_le_add_left m_le _), rfl⟩
    · intro p less
      rw [count, if_pos (by omega)]
    · intro p _
      rw [count]
      split <;> omega

theorem WellShaped.mono {numCounted' : Nat} (shaped : WellShaped numRigid numCounted terms)
    (le : numCounted ≤ numCounted') : WellShaped numRigid numCounted' terms where
  closed term mem := by
    obtain ⟨p, inside, same⟩ := shaped.closed term mem
    exact ⟨p, inside.trans_le (Nat.add_le_add_left le _), same⟩
  rigid_once := shaped.rigid_once
  counted_le_once := shaped.counted_le_once

theorem any_isCounted {m : Nat} (m_le : m ≤ 1)
    (perm : terms.Perm ((List.range (numRigid + m)).map Term.parameter)) :
    terms.any (isCounted numRigid) = decide (m = 1) := by
  rw [Bool.eq_iff_iff, List.any_eq_true, decide_eq_true_iff]
  constructor
  · rintro ⟨term, mem, counted⟩
    obtain ⟨p, inside, rfl⟩ := List.mem_map.mp (perm.mem_iff.mp mem)
    have less := List.mem_range.mp inside
    have beyond : numRigid ≤ p := by simpa [isCounted] using counted
    omega
  · rintro rfl
    refine ⟨.parameter numRigid, perm.mem_iff.mpr ?_, by simp [isCounted]⟩
    exact List.mem_map_of_mem (List.mem_range.mpr numRigid.lt_succ_self)

/-- `part_arity` is the number of the rigid variables. -/
theorem partArity_eq {part : Atom} (counted_le_one : numCounted ≤ 1)
    (shaped : WellShaped numRigid numCounted part.terms) : partArity part numRigid = numRigid := by
  obtain ⟨m, m_le, perm⟩ := (wellShaped_iff_perm counted_le_one).mp shaped
  have length : part.terms.length = numRigid + m := by simpa using perm.length_eq
  rw [partArity, any_isCounted (m_le.trans counted_le_one) perm, length]
  by_cases one : m = 1
  · simp [one]
  · simp [one]
    omega

end

/-! ### Normalizing well-formed candidates -/

/-- Sorting keeps atoms that differ. -/
theorem sortUnique_perm {atoms : List Atom} (nodup : atoms.Nodup) : (sortUnique atoms).Perm atoms := by
  have perm := List.mergeSort_perm atoms lessEqAtom
  have chain : (atoms.mergeSort lessEqAtom).IsChain (· ≠ ·) :=
    (perm.nodup_iff.mpr nodup).isChain
  rw [sortUnique, List.destutter_of_isChain _ _ chain]
  exact perm

namespace InvariantCandidate

variable {arity : Nat → Nat} {inv : InvariantCandidate}

theorem nodup_atoms (onePerPredicate : inv.predicates.Nodup) : inv.atoms.Nodup :=
  onePerPredicate.of_map _

theorem create_singleton (numRigid numCounted : Nat) (atom : Atom) :
    (create numRigid numCounted [atom]).atoms = [atom] := by
  simp [create, canonicalize, sortUnique]

/-- An atom is covered only by atoms of its predicate. -/
theorem predicate_mem_of_covers {element : Atom} (covers : inv.covers element = true) :
    element.predicate ∈ inv.predicates := by
  obtain ⟨atom, mem, isMatch⟩ := List.any_eq_true.mp covers
  obtain ⟨sigma, found⟩ := Option.isSome_iff_exists.mp isMatch
  have shape := matchStructure_eq_some found
  exact List.mem_map.mpr ⟨atom, mem, shape.1⟩

/-- No atom covers another one. -/
theorem removeCoveredAtoms_eq (onePerPredicate : inv.predicates.Nodup) :
    removeCoveredAtoms inv = inv := by
  have keep : inv.atoms.zipIdx.filter (fun atom =>
      !(inv.atoms.zipIdx.any fun other => decide (atom.2 ≠ other.2) &&
        (create inv.numRigidVariables inv.numCountedVariables [other.1]).covers atom.1)) =
      inv.atoms.zipIdx := by
    rw [List.filter_eq_self]
    rintro ⟨atom, i⟩ mem
    rw [Bool.not_eq_true', ← Bool.not_eq_true, List.any_eq_true]
    rintro ⟨⟨other, j⟩, memOther, covered⟩
    obtain ⟨apart, covers⟩ := Bool.and_eq_true_iff.mp covered
    have same := predicate_mem_of_covers covers
    rw [predicates, create_singleton, List.map_singleton, List.mem_singleton] at same
    have position : inv.predicates[i]? = some atom.predicate := by
      rw [predicates, List.getElem?_map, List.mem_zipIdx_iff_getElem?.mp mem]
      rfl
    have positionOther : inv.predicates[j]? = some other.predicate := by
      rw [predicates, List.getElem?_map, List.mem_zipIdx_iff_getElem?.mp memOther]
      rfl
    have equal : inv.predicates[i]? = inv.predicates[j]? := by
      rw [position, positionOther]
      exact congrArg some same
    exact of_decide_eq_true apart ((List.getElem?_inj (List.getElem?_eq_some_iff.mp position).1
      onePerPredicate).mp equal)
  rw [removeCoveredAtoms, keep, List.zipIdx_map_fst]

/-- The rigid variables keep their indices. -/
theorem remap_rigid {n : Nat} (used : ∀ p < n, usesParameter inv p = true)
    (le : n ≤ inv.numRigidVariables) :
    (List.range n).foldl (remapStep inv) ⟨[], 0, 0⟩ = ⟨(List.range n).map some, n, n⟩ := by
  induction n with
  | zero => rfl
  | succ n ih =>
      have less : n < inv.numRigidVariables := le
      rw [List.range_succ, List.foldl_append, ih (fun p before => used p (before.trans n.lt_succ_self)) less.le,
        List.foldl_cons, List.foldl_nil, remapStep, if_pos (used n n.lt_succ_self), List.map_append]
      simp [less]

theorem usesParameter_iff {p : Nat} :
    usesParameter inv p = true ↔ ∃ atom ∈ inv.atoms, Term.parameter p ∈ atom.terms := by
  simp [usesParameter]

/-- Only the counted variable can go: it goes when no atom has it. -/
theorem WellFormed.removeUnusedParameters_eq (wf : inv.WellFormed arity) :
    removeUnusedParameters inv =
      { inv with
        numCountedVariables :=
          if inv.numCountedVariables = 1 ∧ usesParameter inv inv.numRigidVariables then 1 else 0 } := by
  obtain ⟨first, memFirst⟩ := List.exists_mem_of_ne_nil _ wf.nonempty
  have used : ∀ p < inv.numRigidVariables, usesParameter inv p = true := by
    intro p less
    refine usesParameter_iff.mpr ⟨first, memFirst, List.count_pos_iff.mp ?_⟩
    rw [(wf.shaped first memFirst).rigid_once p less]
    exact Nat.one_pos
  have rigid := remap_rigid used (Nat.le_refl _)
  have same : ∀ remap : List (Option Nat),
      (∀ p, usesParameter inv p = true → p < inv.numRigidVariables + inv.numCountedVariables →
        remap.getD p none = some p) →
      (inv.atoms.map fun atom => (⟨atom.predicate, atom.terms.map (remapTerm remap)⟩ : Atom)) =
        inv.atoms := by
    intro remap keeps
    refine (List.map_congr_left fun atom mem => ?_).trans (List.map_id _)
    have terms : atom.terms.map (remapTerm remap) = atom.terms := by
      refine (List.map_congr_left fun term occurs => ?_).trans (List.map_id _)
      obtain ⟨p, inside, rfl⟩ := (wf.shaped atom mem).closed term occurs
      rw [remapTerm, keeps p (usesParameter_iff.mpr ⟨atom, mem, occurs⟩) inside]
      rfl
    rw [terms]
    rfl
  have before : ∀ (tail : List (Option Nat)) (p : Nat), p < inv.numRigidVariables →
      ((List.range inv.numRigidVariables).map some ++ tail).getD p none = some p := by
    intro tail p less
    rw [List.getD_append _ _ _ _ (by simpa using less), List.getD_eq_getElem _ _ (by simpa using less)]
    simp
  have one := wf.counted_le_one
  unfold removeUnusedParameters
  rcases Nat.lt_or_ge inv.numCountedVariables 1 with zero | counted
  · have zero : inv.numCountedVariables = 0 := by omega
    simp only [zero, Nat.add_zero, rigid]
    rw [same]
    · simp
    · intro p _ inside
      rw [zero] at inside
      simpa using before [] p inside
  · have counted : inv.numCountedVariables = 1 := by omega
    simp only [counted]
    rw [List.range_succ, List.foldl_append, rigid, List.foldl_cons, List.foldl_nil, remapStep]
    cases uses : usesParameter inv inv.numRigidVariables with
    | true =>
        simp only [if_true, Nat.lt_irrefl, if_false]
        rw [same]
        · simp
        · intro p _ inside
          rcases Nat.lt_or_ge p inv.numRigidVariables with less | beyond
          · exact before _ p less
          · have last : p = inv.numRigidVariables := by omega
            rw [last, List.getD_append_right _ _ _ _ (by simp)]
            simp
    | false =>
        simp only [Bool.false_eq_true, if_false]
        rw [same]
        · simp
        · intro p occurs inside
          rcases Nat.lt_or_ge p inv.numRigidVariables with less | beyond
          · exact before _ p less
          · have last : p = inv.numRigidVariables := by omega
            rw [last, uses] at occurs
            cases occurs

/-- Sorting the atoms. -/
theorem WellFormed.canonicalize (wf : inv.WellFormed arity) :
    inv.canonicalize.WellFormed arity ∧ inv.canonicalize.atoms.Perm inv.atoms := by
  have perm : inv.canonicalize.atoms.Perm inv.atoms := sortUnique_perm (nodup_atoms wf.onePerPredicate)
  have predicates : inv.canonicalize.predicates.Perm inv.predicates := perm.map _
  refine ⟨⟨?_, predicates.nodup_iff.mpr wf.onePerPredicate, wf.counted_le_one, ?_, ?_⟩, perm⟩
  · intro empty
    rw [empty] at perm
    exact wf.nonempty perm.nil_eq.symm
  · exact fun atom mem => wf.shaped atom (perm.mem_iff.mp mem)
  · exact fun atom mem => wf.sized atom (perm.mem_iff.mp mem)

theorem WellFormed.removeUnusedParameters (wf : inv.WellFormed arity) :
    (removeUnusedParameters inv).WellFormed arity := by
  rw [wf.removeUnusedParameters_eq]
  refine ⟨wf.nonempty, wf.onePerPredicate, ?_, fun atom mem => ?_, wf.sized⟩
  · dsimp only
    split
    · exact Nat.le_refl 1
    · exact Nat.zero_le 1
  · have shaped := wf.shaped atom mem
    refine ⟨fun term occurs => ?_, shaped.rigid_once, shaped.counted_le_once⟩
    obtain ⟨p, inside, rfl⟩ := shaped.closed term occurs
    refine ⟨p, ?_, rfl⟩
    dsimp only
    by_cases rigid : p < inv.numRigidVariables
    · exact Nat.lt_add_right _ rigid
    · have one := wf.counted_le_one
      have last : p = inv.numRigidVariables := by omega
      rw [if_pos ⟨by omega, last ▸ usesParameter_iff.mpr ⟨atom, mem, occurs⟩⟩, last]
      exact Nat.lt_succ_self _

/-- A normalized candidate has the same atoms and the same shape. -/
theorem WellFormed.normalizeInvariant (wf : inv.WellFormed arity) :
    (normalizeInvariant inv).WellFormed arity ∧ (normalizeInvariant inv).atoms.Perm inv.atoms := by
  have same : (Planning.removeUnusedParameters inv).atoms = inv.atoms := by
    rw [wf.removeUnusedParameters_eq]
  obtain ⟨normal, perm⟩ := wf.removeUnusedParameters.canonicalize
  rw [Planning.normalizeInvariant, removeCoveredAtoms_eq wf.onePerPredicate]
  exact ⟨normal, same ▸ perm⟩

end InvariantCandidate

/-! ### Initial candidates -/

/-- The terms of an initial atom are the parameters below the arity, each once. -/
theorem makeInitialAtom_perm (predicate arity countedPosition : Nat) :
    (makeInitialAtom predicate arity countedPosition).terms.Perm
      ((List.range arity).map Term.parameter) := by
  unfold makeInitialAtom
  by_cases last : countedPosition = arity
  · rw [if_pos last]
  · rw [if_neg last]
    let index : Nat → Nat := fun i =>
      if i = countedPosition then arity - 1 else if i < countedPosition then i else i - 1
    have perm : ((List.range arity).map index).Perm (List.range arity) := by
      have nodup : ((List.range arity).map index).Nodup := by
        refine List.Nodup.map_on ?_ List.nodup_range
        intro i memI j memJ same
        have lessI := List.mem_range.mp memI
        have lessJ := List.mem_range.mp memJ
        grind
      refine (List.subperm_of_subset nodup ?_).perm_of_length_le (by simp)
      intro p mem
      obtain ⟨i, memI, rfl⟩ := List.mem_map.mp mem
      have lessI := List.mem_range.mp memI
      refine List.mem_range.mpr ?_
      simp only [index]
      split
      · omega
      · split <;> omega
    have same : (List.range arity).map (fun i =>
        if i = countedPosition then Term.parameter (arity - 1)
        else if i < countedPosition then .parameter i else .parameter (i - 1)) =
          ((List.range arity).map index).map Term.parameter := by
      rw [List.map_map]
      refine List.map_congr_left fun i _ => ?_
      simp only [index, Function.comp_apply]
      split
      · rfl
      · split <;> rfl
    rw [same]
    exact perm.map _

theorem predicate_makeInitialAtom (predicate arity countedPosition : Nat) :
    (makeInitialAtom predicate arity countedPosition).predicate = predicate := by
  unfold makeInitialAtom
  split <;> rfl

/-- A candidate of one initial atom, with or without a counted position. -/
theorem wellFormed_makeInitialAtom {arity : Nat → Nat} {predicate countedPosition numRigid numCounted : Nat}
    (counted_le_one : numCounted ≤ 1)
    (total_eq : numRigid + numCounted = arity predicate) :
    (InvariantCandidate.create numRigid numCounted
      [makeInitialAtom predicate (arity predicate) countedPosition]).WellFormed arity := by
  have perm := makeInitialAtom_perm predicate (arity predicate) countedPosition
  have own : (makeInitialAtom predicate (arity predicate) countedPosition).terms.Perm
      ((List.range (numRigid + numCounted)).map Term.parameter) := by
    rw [total_eq]
    exact perm
  have atoms := InvariantCandidate.create_singleton numRigid numCounted
    (makeInitialAtom predicate (arity predicate) countedPosition)
  refine ⟨by simp [atoms], by simp [InvariantCandidate.predicates, atoms], counted_le_one, ?_, ?_⟩
  · intro atom mem
    rw [atoms, List.mem_singleton] at mem
    rw [mem]
    exact (wellShaped_iff_perm counted_le_one).mpr ⟨numCounted, Nat.le_refl _, own⟩
  · intro atom mem
    rw [atoms, List.mem_singleton] at mem
    rw [mem, predicate_makeInitialAtom]
    simpa using perm.length_eq

end Tyr.Formalism.Planning
