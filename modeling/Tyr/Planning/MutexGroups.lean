import Tyr.Formalism.Planning.Mutexes
import Tyr.Planning.ApplyAction

/-!
Mutex groups of a task.

A node is reachable if a sequence of ground actions of the task, each applicable
where it is applied, leads to it from the initial node.

* `AtMostOne.reachable` — an instance that covers at most one initial atom covers at
  most one atom of every reachable state.
* `computeMutexGroups_partition` — the mutex groups are a partition of the atoms, and
  in every reachable state at most one atom of each group holds.
-/

namespace Tyr.Planning

open Tyr.Formalism Tyr.Formalism.Planning

/-- Reachable from the initial node by applicable actions. -/
inductive Reachable (task : Task) (actions : Set GroundAction) : UnpackedNode → Prop where
  | initial : Reachable task actions (getInitialNode task)
  | successor {node : UnpackedNode} {action : GroundAction} :
      Reachable task actions node → action ∈ actions →
        isApplicable (nodeContext task node) action = true →
          Reachable task actions (getSuccessorNode task node action)

/-- The fluent atom holds in the state. -/
def AtomHolds (fluentFact : Tuple → FDRFact) (state : UnpackedState) (atom : Tuple) : Prop :=
  state.fluentFacts (fluentFact atom).var = (fluentFact atom).value

/-- At most one of the atoms holds in the state. -/
def AtMostOne (fluentFact : Tuple → FDRFact) (atoms : Tuple → Prop) (state : UnpackedState) : Prop :=
  ∀ atom other, atoms atom → atoms other → AtomHolds fluentFact state atom →
    AtomHolds fluentFact state other → atom = other

/-- No applicable action leads from a reachable state in which an instance covers at
most one atom to a state in which it covers several. -/
def PreservedBy (task : Task) (actions : Set GroundAction) (fluentFact : Tuple → FDRFact)
    (inv : Invariant) : Prop :=
  ∀ rigidValues : List Nat, rigidValues.length = inv.numRigidVariables →
    ∀ node action, Reachable task actions node → action ∈ actions →
      isApplicable (nodeContext task node) action = true →
        AtMostOne fluentFact (inv.Covers rigidValues) node.state →
          AtMostOne fluentFact (inv.Covers rigidValues) (getSuccessorNode task node action).state

variable {task : Task} {actions : Set GroundAction} {fluentFact : Tuple → FDRFact}

/-- A preserved instance that covers at most one initial atom covers at most one atom
of every reachable state. -/
theorem AtMostOne.reachable {inv : Invariant} {rigidValues : List Nat}
    (sized : rigidValues.length = inv.numRigidVariables)
    (preserved : PreservedBy task actions fluentFact inv)
    (initial : AtMostOne fluentFact (inv.Covers rigidValues) (getInitialNode task).state)
    {node : UnpackedNode} (reachable : Reachable task actions node) :
    AtMostOne fluentFact (inv.Covers rigidValues) node.state := by
  induction reachable with
  | initial => exact initial
  | @successor node action reachable known applicable ih =>
      exact preserved rigidValues sized node action reachable known applicable ih

/-- A group with at most one initial atom. -/
theorem atMostOne_initial {initialAtoms allAtoms : List Tuple} {inv : Invariant}
    {group : PrecomputedGroup} (isGroup : IsInstanceGroup initialAtoms allAtoms inv group)
    (initial : ∀ atom, AtomHolds fluentFact (getInitialNode task).state atom → atom ∈ initialAtoms)
    (all : ∀ atom, AtomHolds fluentFact (getInitialNode task).state atom → atom ∈ allAtoms) :
    AtMostOne fluentFact (inv.Covers group.rigidValues) (getInitialNode task).state := by
  intro atom other covers coversOther holds holdsOther
  by_contra different
  have mem := (isGroup.covers atom).mpr ⟨all atom holds, covers⟩
  have memOther := (isGroup.covers other).mpr ⟨all other holdsOther, coversOther⟩
  have pair : [atom, other].Subperm (group.atoms.filter (· ∈ initialAtoms)) := by
    refine List.subperm_of_subset (by simpa using different) ?_
    intro x inPair
    rcases List.mem_pair.mp inPair with rfl | rfl
    · exact List.mem_filter.mpr ⟨mem, by simpa using initial _ holds⟩
    · exact List.mem_filter.mpr ⟨memOther, by simpa using initial _ holdsOther⟩
  have two := pair.length_le
  rw [← List.countP_eq_length_filter] at two
  have one := isGroup.initial_le_one
  simp only [List.length_cons, List.length_nil] at two
  omega

/-- The mutex groups are a partition of the reachable atoms, and in every reachable
state at most one atom of each group holds. -/
theorem computeMutexGroups_partition (task : Task) (actions : Set GroundAction)
    (fluentFact : Tuple → FDRFact) {index : Tuple → Nat} {initialAtoms allAtoms : List Tuple}
    {invariants : List Invariant} (indexed : Indexed index allAtoms)
    (initial : ∀ atom, AtomHolds fluentFact (getInitialNode task).state atom → atom ∈ initialAtoms)
    (all : ∀ node, Reachable task actions node →
      ∀ atom, AtomHolds fluentFact node.state atom → atom ∈ allAtoms)
    (preserved : ∀ inv ∈ invariants, PreservedBy task actions fluentFact inv) :
    (computeMutexGroups index initialAtoms allAtoms invariants).flatten.Perm allAtoms ∧
      ∀ node, Reachable task actions node →
        ∀ group ∈ computeMutexGroups index initialAtoms allAtoms invariants,
          AtMostOne fluentFact (· ∈ group) node.state := by
  obtain ⟨partition, parts⟩ := computeMutexGroups_spec indexed initialAtoms invariants
  refine ⟨partition, ?_⟩
  intro node reachable group mem atom other inGroup inGroupOther holds holdsOther
  rcases parts group mem with ⟨inv, known, whole, isInstance, subset⟩ | ⟨single, rfl⟩
  · have one := AtMostOne.reachable isInstance.sized (preserved inv known)
      (atMostOne_initial isInstance initial (all _ .initial)) reachable
    exact one atom other ((isInstance.covers atom).mp (subset inGroup)).2
      ((isInstance.covers other).mp (subset inGroupOther)).2 holds holdsOther
  · rw [List.mem_singleton.mp inGroup, List.mem_singleton.mp inGroupOther]

/-! A token is moved from one place to another. -/

def tokenFact (atom : Tuple) : FDRFact :=
  if atom.relation = 0 ∧ atom.objects.length = 1 then ⟨atom.objects.headD 0, 1⟩ else ⟨0, 2⟩

def tokenTask : Task where
  staticAtoms := fun _ => false
  staticValues := fun _ => .nan
  fluentFacts := [⟨0, 1⟩]
  fluentFtermValues := []
  auxiliaryFtermValue := none
  metric := none
  axiomEvaluator := fun _ _ => false

def moveToken : GroundAction where
  condition := { positiveFacts := [⟨0, 1⟩] }
  effects := [{ effect := { negativeFacts := [⟨0, 1⟩], positiveFacts := [⟨1, 1⟩] } }]

def tokenInvariant : Invariant where
  numRigidVariables := 0
  numCountedVariables := 1
  atoms := [⟨0, [.parameter 0]⟩]
  counted_le_one := le_rfl
  closed := by simp

/-- The token is in one of the two places. -/
theorem token_facts {node : UnpackedNode} (reachable : Reachable tokenTask {moveToken} node) :
    ∃ place < 2, ∀ var, node.state.fluentFacts var = if var = place then 1 else 0 := by
  induction reachable with
  | initial =>
      refine ⟨0, by decide, fun var => ?_⟩
      exact Function.update_apply (fun _ => FDRValue.none) 0 1 var
  | @successor node action _ known applicable ih =>
      obtain ⟨place, _, facts⟩ := ih
      rw [Set.mem_singleton_iff] at known
      subst known
      have here : place = 0 := by
        have holds : isApplicableCondition (nodeContext tokenTask node) moveToken.condition = true :=
          (Bool.and_eq_true_iff.mp applicable).1
        by_contra away
        simp [isApplicableCondition, moveToken, nodeContext, facts, Ne.symm away] at holds
      subst here
      refine ⟨1, by decide, fun var => ?_⟩
      have moved : (getSuccessorNode tokenTask node moveToken).state.fluentFacts var =
          factAfter node.state.fluentFacts [⟨0, 1⟩] [⟨1, 1⟩] var := by
        rw [getSuccessorNode, applyAction_eq]
        rfl
      rw [moved, factAfter]
      by_cases there : var = 1
      · simp [there]
      · by_cases left : var = 0 <;> simp [there, left, Ne.symm there, facts, FDRValue.none]

theorem tokenGroups_partition :
    (computeMutexGroups (fun atom => atom.objects.headD 0) [⟨0, [0]⟩] [⟨0, [0]⟩, ⟨0, [1]⟩]
        [tokenInvariant]).flatten.Perm [⟨0, [0]⟩, ⟨0, [1]⟩] ∧
      ∀ node, Reachable tokenTask {moveToken} node →
        ∀ group ∈ computeMutexGroups (fun atom => atom.objects.headD 0) [⟨0, [0]⟩]
          [⟨0, [0]⟩, ⟨0, [1]⟩] [tokenInvariant], AtMostOne tokenFact (· ∈ group) node.state := by
  have place_of_holds : ∀ {node : UnpackedNode} {place : Nat}, (∀ var, node.state.fluentFacts var =
      if var = place then 1 else 0) → ∀ atom, AtomHolds tokenFact node.state atom →
        atom = ⟨0, [place]⟩ := by
    intro node place facts atom holds
    rw [AtomHolds, facts, tokenFact] at holds
    obtain ⟨relation, objects⟩ := atom
    split at holds
    · next isPlace =>
        obtain ⟨rfl, single⟩ := isPlace
        obtain ⟨object, rfl⟩ := List.length_eq_one_iff.mp single
        by_cases same : object = place
        · rw [same]
        · simp [same] at holds
    · split at holds <;> cases holds
  refine computeMutexGroups_partition tokenTask {moveToken} tokenFact ?_ ?_ ?_ ?_
  · intro i atom position
    match i with
    | 0 => cases position; rfl
    | 1 => cases position; rfl
    | i + 2 => cases position
  · intro atom holds
    have start : ∀ var, (getInitialNode tokenTask).state.fluentFacts var = if var = 0 then 1 else 0 :=
      Function.update_apply (fun _ => FDRValue.none) 0 1
    simp [place_of_holds start atom holds]
  · intro node reachable atom holds
    obtain ⟨place, less, facts⟩ := token_facts reachable
    rw [place_of_holds facts atom holds]
    rcases Nat.le_one_iff_eq_zero_or_eq_one.mp (Nat.le_of_lt_succ less) with rfl | rfl <;> simp
  · intro inv known rigidValues sized node action reachable memAction applicable _ atom other _ _
      holds holdsOther
    obtain ⟨place, _, facts⟩ := token_facts (reachable.successor memAction applicable)
    rw [place_of_holds facts atom holds, place_of_holds facts other holdsOther]

end Tyr.Planning
