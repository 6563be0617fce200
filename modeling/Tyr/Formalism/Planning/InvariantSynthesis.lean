import Mathlib.Data.Finset.Dedup
import Mathlib.Data.Finset.SDiff
import Tyr.Formalism.Planning.InvariantRefinement
import Tyr.Lib.Worklist

/-!
The synthesis of invariants.

The loop takes the last candidate of its queue, normalizes it, and tries to prove it unless
it has seen it. A candidate that is not balanced is refined, and its refinements are put on
the queue. Whether an operator is too heavy and whether an add effect is unbalanced is
decided elsewhere; nothing here depends on how.

* `synthesizeInvariants_keeps_shape` — the candidates of every run have the shape of
  `WellFormed`, a refinement has one more atom, and the loop ends.
-/

namespace Tyr.Formalism.Planning

open Tyr.Lib

/-- Each predicate alone, and with each of its positions counted. -/
def makeInitialCandidates (domain : Domain) : List InvariantCandidate :=
  domain.predicates.flatMap fun predicate =>
    .create (domain.arity predicate) 0
        [makeInitialAtom predicate (domain.arity predicate) (domain.arity predicate)] ::
      (List.range (domain.arity predicate)).map fun countedPosition =>
        .create (domain.arity predicate - 1) 1
          [makeInitialAtom predicate (domain.arity predicate) countedPosition]

inductive ProofResult where
  | proven
  | tooHeavy
  | unbalancedAddEffect (threat : Threat)

structure SynthesisState where
  accepted : List InvariantCandidate := []
  seen : List InvariantCandidate := []

section

variable (isOperatorTooHeavy : Action → InvariantCandidate → Bool)
  (isAddEffectUnbalanced : Action → ConditionalEffect → Atom → InvariantCandidate → Bool)

/-- The first unbalanced add effect of an action. -/
def findThreat (inv : InvariantCandidate) (op : Action) (opIndex : Nat) : Option Threat :=
  op.effects.zipIdx.findSome? fun effect =>
    effect.1.effect.literals.zipIdx.findSome? fun literal =>
      if !literal.1.polarity then none
      else if literal.1.atom.predicate ∉ inv.predicates then none
      else if isAddEffectUnbalanced op effect.1 literal.1.atom inv then
        some ⟨opIndex, effect.2, literal.2⟩
      else none

/-- One action of the loop, and its result if it is the last one. -/
def proveOperator (inv : InvariantCandidate) (op : Action × Nat) : Option ProofResult :=
  if isOperatorTooHeavy op.1 inv then some .tooHeavy
  else (findThreat isAddEffectUnbalanced inv op.1 op.2).map .unbalancedAddEffect

def proveInvariant (inv : InvariantCandidate) (ops : List Action) : ProofResult :=
  (ops.zipIdx.findSome? (proveOperator isOperatorTooHeavy isAddEffectUnbalanced inv)).getD .proven

/-- The candidate that an item of the queue becomes. -/
def takeCandidate (last : InvariantCandidate) : InvariantCandidate :=
  normalizeInvariant (.create last.numRigidVariables last.numCountedVariables last.atoms)

/-- The body of the loop; the second component goes to the end of the queue. -/
def synthesisStep (domain : Domain) (state : SynthesisState) (last : InvariantCandidate) :
    SynthesisState × List InvariantCandidate :=
  let candidate := takeCandidate last
  if candidate ∈ state.seen then (state, [])
  else
    let seen := candidate :: state.seen
    match proveInvariant isOperatorTooHeavy isAddEffectUnbalanced candidate domain.actions with
    | .proven => ({ accepted := state.accepted ++ [candidate], seen }, [])
    | .unbalancedAddEffect threat =>
        ({ state with seen }, refineCandidate isAddEffectUnbalanced candidate threat domain.actions)
    | .tooHeavy => ({ state with seen }, [])

/-- The state and the queue before the loop. -/
def synthesisStart (domain : Domain) : SynthesisState × List InvariantCandidate :=
  ({}, makeInitialCandidates domain)

/-- `synthesize_invariants`, for a number of iterations. -/
def synthesizeInvariants (domain : Domain) (fuel : Nat) : Option (List InvariantCandidate) :=
  (Worklist.drain (synthesisStep isOperatorTooHeavy isAddEffectUnbalanced domain) fuel
    (synthesisStart domain)).map SynthesisState.accepted

end

section

variable {isOperatorTooHeavy : Action → InvariantCandidate → Bool}
  {isAddEffectUnbalanced : Action → ConditionalEffect → Atom → InvariantCandidate → Bool}
  {domain : Domain} {inv : InvariantCandidate}

/-! ### The shape of the candidates -/

theorem wellFormed_makeInitialCandidates (mem : inv ∈ makeInitialCandidates domain) :
    inv.WellFormed domain.arity := by
  obtain ⟨predicate, _, mem⟩ := List.mem_flatMap.mp mem
  rcases List.mem_cons.mp mem with rfl | mem
  · exact wellFormed_makeInitialAtom (Nat.zero_le 1) rfl
  · obtain ⟨countedPosition, inRange, rfl⟩ := List.mem_map.mp mem
    have less := List.mem_range.mp inRange
    exact wellFormed_makeInitialAtom (Nat.le_refl 1) (by omega)

/-- The candidate of an item has its atoms. -/
theorem wellFormed_takeCandidate (wf : inv.WellFormed domain.arity) :
    (takeCandidate inv).WellFormed domain.arity ∧ (takeCandidate inv).atoms.Perm inv.atoms := by
  obtain ⟨sorted, sortedAtoms⟩ := wf.canonicalize
  obtain ⟨normal, normalAtoms⟩ := sorted.normalizeInvariant
  exact ⟨normal, normalAtoms.trans sortedAtoms⟩

/-- What an iteration puts on the queue. -/
theorem synthesisStep_spec (wf : inv.WellFormed domain.arity) (state : SynthesisState)
    {refined : InvariantCandidate}
    (mem : refined ∈
      (synthesisStep isOperatorTooHeavy isAddEffectUnbalanced domain state inv).2) :
    refined.WellFormed domain.arity ∧ ∃ atom : Atom,
      atom.predicate ∈ deletedPredicates domain.actions ∧
        atom.predicate ∉ (takeCandidate inv).predicates ∧
          refined.atoms.Perm (atom :: (takeCandidate inv).atoms) := by
  unfold synthesisStep at mem
  dsimp only at mem
  split at mem
  · cases mem
  · split at mem
    · cases mem
    · exact wellFormed_refineCandidate (wellFormed_takeCandidate wf).1 mem
    · cases mem

/-! ### Termination -/

/-- The number of deleted predicates that a candidate has no atom for. -/
def openPredicates (ops : List Action) (inv : InvariantCandidate) : Nat :=
  ((deletedPredicates ops).toFinset \ inv.predicates.toFinset).card

theorem openPredicates_perm {ops : List Action} {other : InvariantCandidate}
    (perm : inv.atoms.Perm other.atoms) : openPredicates ops inv = openPredicates ops other := by
  have predicates : inv.predicates.Perm other.predicates := perm.map _
  rw [openPredicates, openPredicates, List.toFinset_eq_of_perm _ _ predicates]

/-- One more atom for a deleted predicate leaves fewer of them. -/
theorem openPredicates_lt {ops : List Action} {refined : InvariantCandidate} {atom : Atom}
    (deleted : atom.predicate ∈ deletedPredicates ops) (new : atom.predicate ∉ inv.predicates)
    (atoms : refined.atoms.Perm (atom :: inv.atoms)) :
    openPredicates ops refined < openPredicates ops inv := by
  have predicates : refined.predicates.Perm (atom.predicate :: inv.predicates) := atoms.map _
  rw [openPredicates, List.toFinset_eq_of_perm _ _ predicates, List.toFinset_cons,
    Finset.sdiff_insert]
  apply Finset.card_erase_lt_of_mem
  rw [Finset.mem_sdiff, List.mem_toFinset, List.mem_toFinset]
  exact ⟨deleted, new⟩

/-- What an iteration puts on the queue has fewer open predicates than what it took. -/
theorem openPredicates_synthesisStep (wf : inv.WellFormed domain.arity) (state : SynthesisState)
    {refined : InvariantCandidate}
    (mem : refined ∈
      (synthesisStep isOperatorTooHeavy isAddEffectUnbalanced domain state inv).2) :
    openPredicates domain.actions refined < openPredicates domain.actions inv := by
  obtain ⟨_, atom, deleted, new, atoms⟩ := synthesisStep_spec wf state mem
  rw [← openPredicates_perm (wellFormed_takeCandidate wf).2]
  exact openPredicates_lt deleted new atoms

/-- The items of the queue, in every run. -/
theorem wellFormed_of_reaches {state : SynthesisState × List InvariantCandidate}
    (reaches : Worklist.Reaches (synthesisStep isOperatorTooHeavy isAddEffectUnbalanced domain)
      (synthesisStart domain) state) :
    ∀ last ∈ state.2, last.WellFormed domain.arity :=
  reaches.all (fun s _ wf _ mem => (synthesisStep_spec wf s mem).1)
    fun _ mem => wellFormed_makeInitialCandidates mem

/-- Every candidate has the shape, every refinement has an atom for one more predicate, and
the loop ends. -/
theorem synthesizeInvariants_keeps_shape (domain : Domain)
    (isOperatorTooHeavy : Action → InvariantCandidate → Bool)
    (isAddEffectUnbalanced : Action → ConditionalEffect → Atom → InvariantCandidate → Bool) :
    (∀ state, Worklist.Reaches (synthesisStep isOperatorTooHeavy isAddEffectUnbalanced domain)
        (synthesisStart domain) state →
      ∀ last ∈ state.2,
        last.WellFormed domain.arity ∧ (takeCandidate last).WellFormed domain.arity ∧
          ∀ refined ∈
              (synthesisStep isOperatorTooHeavy isAddEffectUnbalanced domain state.1 last).2,
            ∃ atom : Atom, atom.predicate ∉ (takeCandidate last).predicates ∧
              refined.atoms.Perm (atom :: (takeCandidate last).atoms)) ∧
      ∃ iterations accepted, ∀ fuel, iterations ≤ fuel →
        synthesizeInvariants isOperatorTooHeavy isAddEffectUnbalanced domain fuel =
          some accepted := by
  constructor
  · intro state reaches last mem
    have wf := wellFormed_of_reaches reaches last mem
    refine ⟨wf, (wellFormed_takeCandidate wf).1, fun refined pushed => ?_⟩
    obtain ⟨_, atom, _, new, atoms⟩ := synthesisStep_spec wf state.1 pushed
    exact ⟨atom, new, atoms⟩
  · have lower : ∀ (s : SynthesisState) (inv : InvariantCandidate), inv.WellFormed domain.arity →
        ∀ refined ∈ (synthesisStep isOperatorTooHeavy isAddEffectUnbalanced domain s inv).2,
          refined.WellFormed domain.arity ∧
            openPredicates domain.actions refined < openPredicates domain.actions inv :=
      fun s _ wf _ pushed =>
        ⟨(synthesisStep_spec wf s pushed).1, openPredicates_synthesisStep wf s pushed⟩
    obtain ⟨iterations, last, ends⟩ := Worklist.drain_terminates lower
      (fun _ mem => wellFormed_makeInitialCandidates mem) {}
    refine ⟨iterations, last.accepted, fun fuel enough => ?_⟩
    rw [synthesizeInvariants, synthesisStart, ends fuel enough]
    rfl

end

/-! An action that moves an object from the one predicate to the other. -/

def loadAction : Action where
  arity := 1
  condition := { fluentLiterals := [⟨⟨0, [.parameter 0]⟩, true⟩] }
  effects := [{ effect := { literals := [⟨⟨0, [.parameter 0]⟩, false⟩, ⟨⟨1, [.parameter 0]⟩, true⟩] } }]
  closed := by
    intro index occurs
    cases List.mem_singleton.mp occurs
    exact Nat.zero_lt_one

theorem loadAction_sized : ∀ op ∈ [loadAction], ∀ effect ∈ op.effects,
    ∀ literal ∈ effect.effect.literals, literal.atom.terms.length = 1 := by
  intro op mem effect memEffect literal memLiteral
  obtain rfl := List.mem_singleton.mp mem
  obtain rfl := List.mem_singleton.mp memEffect
  rcases List.mem_pair.mp memLiteral with rfl | rfl <;> rfl

theorem loadDomain_arity_lt (_ : Nat) : 1 < 2 ^ 32 := by decide

def loadDomain : Domain where
  predicates := [0, 1]
  arity := fun _ => 1
  actions := [loadAction]
  arity_lt := loadDomain_arity_lt
  sized := loadAction_sized

/-- An add effect is balanced once the candidate has two atoms. -/
def loadUnbalanced (_ : Action) (_ : ConditionalEffect) (_ : Atom) (inv : InvariantCandidate) : Bool :=
  inv.atoms.length == 1

theorem synthesizeInvariants_keeps_shape_load :
    (∀ last ∈ (synthesisStart loadDomain).2, last.WellFormed loadDomain.arity) ∧
      ∃ iterations accepted, ∀ fuel, iterations ≤ fuel →
        synthesizeInvariants (fun _ _ => false) loadUnbalanced loadDomain fuel = some accepted := by
  obtain ⟨shape, ends⟩ := synthesizeInvariants_keeps_shape loadDomain (fun _ _ => false) loadUnbalanced
  exact ⟨fun last mem => (shape _ .refl last mem).1, ends⟩

end Tyr.Formalism.Planning
