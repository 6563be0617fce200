import Tyr.Lib.Interning
import Tyr.Common.Number

/-!
The state repository.

A state is extended by the axioms, packed by the storage backends, and the packed
state is looked up in a table, whose index becomes the index of the state. The
repository is generic in the storage: what it relies on is `StateStorage.Lawful`.

* `StateRepository.registerState`, `getRegisteredState` — the repository.
* `StateStorage.Lawful` — the packing loses nothing, and agrees on equal states.
* `registerAll_spec` — what a run preserves.
* `canonical_iff` — when the indices of all registered states are canonical.
-/

namespace Tyr.Planning

open Tyr.Lib

/-- The backends of a task, and how their unpacked states are read. -/
structure StateStorage where
  Unpacked : Type
  Context : Type
  Packed : Type
  [decEq : DecidableEq Packed]
  initial : Context
  insert : Context → Unpacked → Option (Context × Packed)
  unpack : Context → Packed → Unpacked
  fluentValue : Unpacked → Nat → Nat
  derivedAtom : Unpacked → Nat → Bool
  functionValue : Unpacked → Nat → Number

attribute [instance] StateStorage.decEq

namespace StateStorage

variable (storage : StateStorage)

/-- The same fluent facts, derived atoms and values, after rounding. -/
structure SameState (lhs rhs : storage.Unpacked) : Prop where
  fluent : ∀ var, storage.fluentValue lhs var = storage.fluentValue rhs var
  derived : ∀ atom, storage.derivedAtom lhs atom = storage.derivedAtom rhs atom
  function : ∀ fterm, (storage.functionValue lhs fterm).canonicalize =
    (storage.functionValue rhs fterm).canonicalize

/-- The facts, atoms and rounded values of a state. -/
structure Restores (restored state : storage.Unpacked) : Prop where
  fluent : ∀ var, storage.fluentValue restored var = storage.fluentValue state var
  derived : ∀ atom, storage.derivedAtom restored atom = storage.derivedAtom state atom
  function : ∀ fterm, storage.functionValue restored fterm =
    (storage.functionValue state fterm).canonicalize

/-- `Holds context packed state`: the context has packed the state. Two packed
states are equal iff they are the same state and its values are recognised. -/
structure Lawful (Recognised : storage.Unpacked → Prop) where
  Inv : storage.Context → Prop
  Holds : storage.Context → storage.Packed → storage.Unpacked → Prop
  inv_initial : Inv storage.initial
  inv_insert : ∀ {context context' state packed}, Inv context →
    storage.insert context state = some (context', packed) → Inv context'
  holds_insert : ∀ {context context' state packed}, Inv context →
    storage.insert context state = some (context', packed) → Holds context' packed state
  holds_mono : ∀ {context context' state packed packed' state'}, Inv context →
    storage.insert context state = some (context', packed) →
    Holds context packed' state' → Holds context' packed' state'
  eq_iff : ∀ {context context' state packed packed' state'}, Inv context →
    storage.insert context state = some (context', packed) → Holds context packed' state' →
    (packed' = packed ↔ storage.SameState state' state ∧ Recognised state' ∧ Recognised state)
  restores : ∀ {context packed state}, Inv context → Holds context packed state →
    storage.Restores (storage.unpack context packed) state

end StateStorage

structure StateRepository (storage : StateStorage) where
  context : storage.Context
  packedStates : List storage.Packed

namespace StateRepository

variable {storage : StateStorage}

def create (storage : StateStorage) : StateRepository storage := ⟨storage.initial, []⟩

/-- The derived atoms, if the task has axioms. -/
def extend (axiomEvaluator : Option (storage.Unpacked → storage.Unpacked))
    (state : storage.Unpacked) : storage.Unpacked :=
  match axiomEvaluator with
  | some computeExtendedState => computeExtendedState state
  | none => state

/-- Pack an extended state. Without an index the packing has thrown, and the
repository is left as it was. -/
def registerExtended (repository : StateRepository storage) (state : storage.Unpacked) :
    StateRepository storage × Option Nat :=
  match storage.insert repository.context state with
  | none => (repository, none)
  | some (context, packed) =>
      let inserted := Interning.insert (· == ·) repository.packedStates packed
      (⟨context, inserted.1⟩, some inserted.2)

/-- `register_state`. -/
def registerState (axiomEvaluator : Option (storage.Unpacked → storage.Unpacked))
    (repository : StateRepository storage) (state : storage.Unpacked) :
    StateRepository storage × Option Nat :=
  repository.registerExtended (extend axiomEvaluator state)

/-- `get_registered_state`; none if the index was never handed out. -/
def getRegisteredState (repository : StateRepository storage) (index : Nat) :
    Option storage.Unpacked :=
  (repository.packedStates[index]?).map (storage.unpack repository.context)

/-- A registered state and its index. -/
structure Registered (storage : StateStorage) where
  state : storage.Unpacked
  index : Nat

/-- Register the states one after the other. The result lists the extended states
with the indices that were handed out. -/
def registerAll (axiomEvaluator : Option (storage.Unpacked → storage.Unpacked)) :
    StateRepository storage → List storage.Unpacked →
      StateRepository storage × List (Registered storage)
  | repository, [] => (repository, [])
  | repository, state :: rest =>
      let (next, index) := registerState axiomEvaluator repository state
      let (last, registered) := registerAll axiomEvaluator next rest
      (last, match index with
        | some index => ⟨extend axiomEvaluator state, index⟩ :: registered
        | none => registered)

/-- Registered states have the same index iff they are the same state, and an
index restores the states that it was handed out for. -/
structure Canonical (repository : StateRepository storage)
    (registered : List (Registered storage)) : Prop where
  index : registered.Pairwise fun first second =>
    first.index = second.index ↔ storage.SameState first.state second.state
  restored : ∀ entry ∈ registered, ∃ restored,
    repository.getRegisteredState entry.index = some restored ∧
      storage.Restores restored entry.state

/-! ### One step -/

variable {Recognised : storage.Unpacked → Prop} (lawful : storage.Lawful Recognised)

/-- The table holds no packed state twice. -/
structure Inv (repository : StateRepository storage) : Prop where
  context : lawful.Inv repository.context
  distinct : Interning.Distinct (fun _ => True) repository.packedStates

/-- The index was handed out for the state. -/
def HasIndex (repository : StateRepository storage) (entry : Registered storage) : Prop :=
  ∃ packed, repository.packedStates[entry.index]? = some packed ∧
    lawful.Holds repository.context packed entry.state

variable {lawful} {repository next : StateRepository storage} {state : storage.Unpacked}
  {index : Nat} {entry : Registered storage}

theorem inv_create : Inv lawful (create storage) := ⟨lawful.inv_initial, Interning.distinct_nil⟩

theorem registerExtended_eq_some
    (registers : repository.registerExtended state = (next, some index)) :
    ∃ packed, storage.insert repository.context state = some (next.context, packed) ∧
      Interning.insert (· == ·) repository.packedStates packed = (next.packedStates, index) := by
  unfold registerExtended at registers
  cases inserted : storage.insert repository.context state with
  | none =>
      rw [inserted] at registers
      cases registers
  | some result =>
      rw [inserted] at registers
      cases registers
      exact ⟨_, rfl, rfl⟩

theorem registerExtended_eq_none (registers : repository.registerExtended state = (next, none)) :
    next = repository := by
  unfold registerExtended at registers
  cases inserted : storage.insert repository.context state with
  | none =>
      rw [inserted] at registers
      cases registers
      rfl
  | some result =>
      rw [inserted] at registers
      cases registers

/-- What a step preserves, and what it does for the registered state. -/
structure Step (lawful : storage.Lawful Recognised) (repository next : StateRepository storage)
    (state : storage.Unpacked) (index : Nat) : Prop where
  inv : Inv lawful next
  hasIndex : HasIndex lawful next ⟨state, index⟩
  keeps : ∀ {entry}, HasIndex lawful repository entry → HasIndex lawful next entry
  index_iff : ∀ {entry}, HasIndex lawful repository entry →
    (entry.index = index ↔
      storage.SameState entry.state state ∧ Recognised entry.state ∧ Recognised state)

theorem Inv.step (inv : Inv lawful repository)
    (registers : repository.registerExtended state = (next, some index)) :
    Step lawful repository next state index := by
  obtain ⟨packed, inserted, interned⟩ := registerExtended_eq_some registers
  have table : next.packedStates = (Interning.insert (· == ·) repository.packedStates packed).1 :=
    congrArg Prod.fst interned.symm
  have position : index = (Interning.insert (· == ·) repository.packedStates packed).2 :=
    congrArg Prod.snd interned.symm
  refine ⟨⟨lawful.inv_insert inv.context inserted, ?_⟩, ⟨packed, ?_, ?_⟩, ?_, ?_⟩
  · rw [table]
    exact inv.distinct.insert .beq
  · rw [table, position]
    exact Interning.getElem?_insert .beq
  · exact lawful.holds_insert inv.context inserted
  · rintro entry ⟨packed', atIndex, holds⟩
    refine ⟨packed', ?_, lawful.holds_mono inv.context inserted holds⟩
    rw [table]
    exact Interning.getElem?_insert_of_some atIndex
  · rintro entry ⟨packed', atIndex, holds⟩
    rw [eq_comm, position, Interning.insert_eq_iff .beq inv.distinct atIndex, and_true]
    exact lawful.eq_iff inv.context inserted holds

theorem HasIndex.restores (inv : Inv lawful repository) (hasIndex : HasIndex lawful repository entry) :
    ∃ restored, repository.getRegisteredState entry.index = some restored ∧
      storage.Restores restored entry.state := by
  obtain ⟨packed, atIndex, holds⟩ := hasIndex
  refine ⟨storage.unpack repository.context packed, ?_, lawful.restores inv.context holds⟩
  rw [getRegisteredState, atIndex]
  rfl

/-! ### Runs -/

/-- What a run preserves: earlier indices stay, and are handed out again exactly
for the same states with recognised values. -/
theorem registerAll_spec (axiomEvaluator : Option (storage.Unpacked → storage.Unpacked))
    (states : List storage.Unpacked) (inv : Inv lawful repository) :
    let (last, registered) := registerAll axiomEvaluator repository states
    Inv lawful last ∧
      (∀ entry, HasIndex lawful repository entry → HasIndex lawful last entry) ∧
      (∀ entry ∈ registered, HasIndex lawful last entry) ∧
      (∀ entry, HasIndex lawful repository entry → ∀ later ∈ registered,
        (entry.index = later.index ↔ storage.SameState entry.state later.state ∧
          Recognised entry.state ∧ Recognised later.state)) ∧
      registered.Pairwise fun first second =>
        (first.index = second.index ↔ storage.SameState first.state second.state ∧
          Recognised first.state ∧ Recognised second.state) := by
  induction states generalizing repository with
  | nil =>
      refine ⟨inv, fun _ has => has, ?_, ?_, .nil⟩
      · intro entry mem
        cases mem
      · intro entry _ later mem
        cases mem
  | cons state rest ih =>
      rw [registerAll]
      cases registers : registerState axiomEvaluator repository state with
      | mk next result =>
          cases result with
          | none =>
              obtain rfl := registerExtended_eq_none registers
              exact ih inv
          | some index =>
              have step := inv.step registers
              obtain ⟨invLast, kept, has, earlier, pairwise⟩ := ih step.inv
              have headIndex := kept _ step.hasIndex
              refine ⟨invLast, fun entry old => kept _ (step.keeps old), ?_, ?_, ?_⟩
              · intro entry mem
                rcases List.mem_cons.mp mem with rfl | inRest
                · exact headIndex
                · exact has entry inRest
              · intro entry old later mem
                rcases List.mem_cons.mp mem with rfl | inRest
                · exact step.index_iff old
                · exact earlier entry (step.keeps old) later inRest
              · exact .cons (earlier _ step.hasIndex) pairwise

/-- The indices are canonical iff the same states are registered with recognised
values only. -/
theorem canonical_iff (lawful : storage.Lawful Recognised)
    (axiomEvaluator : Option (storage.Unpacked → storage.Unpacked))
    (states : List storage.Unpacked) :
    Canonical (registerAll axiomEvaluator (create storage) states).1
        (registerAll axiomEvaluator (create storage) states).2 ↔
      (registerAll axiomEvaluator (create storage) states).2.Pairwise fun first second =>
        storage.SameState first.state second.state →
          Recognised first.state ∧ Recognised second.state := by
  have created : Inv lawful (create storage) := inv_create
  obtain ⟨inv, _, has, _, pairwise⟩ := registerAll_spec axiomEvaluator states created
  constructor
  · intro canonical
    refine (canonical.index.and pairwise).imp ?_
    rintro first second ⟨exactly, index⟩ same
    exact (index.mp (exactly.mpr same)).2
  · intro recognised
    refine ⟨(recognised.and pairwise).imp ?_, fun entry mem => (has entry mem).restores inv⟩
    rintro first second ⟨onlyRecognised, index⟩
    rw [index]
    constructor
    · exact fun both => both.1
    · exact fun same => ⟨same, onlyRecognised same⟩

end StateRepository

end Tyr.Planning
