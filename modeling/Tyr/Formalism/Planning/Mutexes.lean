import Mathlib.Data.List.GetD
import Tyr.Formalism.Unification.Matching
import Tyr.Lib.Fold

/-!
Mutex groups.

An instance of an invariant is given by the objects of its rigid variables, and
covers the atoms that its patterns stand for when the counted variable stands for
any object. The instances are collected from the initial atoms; an instance that
covers at most one of them gives a group. The groups are then chosen greedily, each
without the atoms of the groups before it.

* `instantiateGroup_spec` — a group has the atoms that its instance covers.
* `precomputeGroups_spec` — the groups that are collected.
* `chooseGroupsGreedily_spec` — the chosen groups are a partition, and each one is
  part of a collected group or a single atom.
-/

namespace Tyr.Formalism.Planning

open Tyr.Formalism.Unification

/-! ### Invariants -/

/-- The parameters are the rigid variables and, after them, the counted one. -/
structure Invariant where
  numRigidVariables : Nat
  numCountedVariables : Nat
  atoms : List Atom
  counted_le_one : numCountedVariables ≤ 1
  closed : ∀ pattern ∈ atoms, ∀ p, Term.parameter p ∈ pattern.terms →
    p < numRigidVariables + numCountedVariables

namespace Invariant

variable (inv : Invariant)

def predicates : List Nat := inv.atoms.map Atom.predicate

/-- Some pattern stands for the atom, under the objects of the rigid variables and
any object of the counted one. -/
def Covers (rigidValues : List Nat) (atom : Tuple) : Prop :=
  ∃ pattern ∈ inv.atoms, ∃ counted : List Nat, counted.length = inv.numCountedVariables ∧
    pattern.ground (rigidValues ++ counted) = atom

/-- The ground atom as an atom without parameters. -/
def groundAtom (atom : Tuple) : Atom := ⟨atom.relation, atom.objects.map Term.object⟩

def matchInvariantAgainstGroundAtom (pattern : Atom) (atom : Tuple) :
    Option (SubstitutionFunction Term) :=
  (matchAtom pattern (groundAtom atom)
    ⟨.fromRange 0 (inv.numRigidVariables + inv.numCountedVariables), .fromRange 0 0⟩).map
      MatchState.sigma

def extractRigidValues (pattern : Atom) (atom : Tuple) : Option (List Nat) :=
  (inv.matchInvariantAgainstGroundAtom pattern atom).bind fun sigma =>
    (List.range inv.numRigidVariables).mapM fun i =>
      match sigma.get i with
      | some (.object object) => some object
      | _ => none

def initialAtomMatchesPart (part : Atom) (atom : Tuple) : Bool :=
  (inv.matchInvariantAgainstGroundAtom part atom).isSome

end Invariant

/-! ### Instances -/

/-- A term of a pattern at the position of an object. -/
def instantiateMatchesTerm (rigidValues : List Nat) (countedValue : Option Nat) (object : Nat) :
    Term → Bool
  | .parameter idx =>
      if idx < rigidValues.length then rigidValues.getD idx 0 == object
      else countedValue == some object
  | .object arg => arg == object

def instantiateMatchesGroundAtom (pattern : Atom) (rigidValues : List Nat)
    (countedValue : Option Nat) (atom : Tuple) : Bool :=
  pattern.predicate == atom.relation && pattern.terms.length == atom.objects.length &&
    (pattern.terms.zip atom.objects).all fun (term, object) =>
      instantiateMatchesTerm rigidValues countedValue object term

/-- The first position of the counted variable. -/
def countedPosition (inv : Invariant) (pattern : Atom) : Option Nat :=
  pattern.terms.findIdx? fun
    | .parameter arg => inv.numRigidVariables ≤ arg
    | .object _ => false

/-- The test of one atom for one pattern. -/
def inInstance (inv : Invariant) (rigidValues : List Nat) (pattern : Atom) (atom : Tuple) : Bool :=
  pattern.predicate == atom.relation && pattern.terms.length == atom.objects.length &&
    instantiateMatchesGroundAtom pattern rigidValues
      ((countedPosition inv pattern).bind fun pos => atom.objects[pos]?) atom

section

variable (index : Tuple → Nat)

/-- Add an atom that was not seen. -/
def pushUnseen (state : List Bool × List Tuple) (atom : Tuple) : List Bool × List Tuple :=
  if state.1.getD (index atom) false then state
  else (state.1.set (index atom) true, state.2 ++ [atom])

def instantiateGroup (inv : Invariant) (rigidValues : List Nat) (allAtoms : List Tuple) :
    List Tuple :=
  (inv.atoms.foldl (fun state pattern =>
    allAtoms.foldl (fun state atom =>
      if inInstance inv rigidValues pattern atom then pushUnseen index state atom else state) state)
    (List.replicate allAtoms.length false, [])).2

structure PrecomputedGroup where
  invIndex : Nat
  rigidValues : List Nat
  atoms : List Tuple

structure GroupKey where
  invariantIndex : Nat
  rigidValues : List Nat
deriving DecidableEq

/-- What `precompute_groups` has collected so far. -/
structure GroupCollection where
  groups : List PrecomputedGroup
  seenKeys : List GroupKey

/-- The group of an instance, if it covers at most one initial atom. -/
def instanceGroup (initialAtoms allAtoms : List Tuple) (invIndex : Nat) (inv : Invariant)
    (rigidValues : List Nat) : Option PrecomputedGroup :=
  let instantiatedGroup := instantiateGroup index inv rigidValues allAtoms
  if instantiatedGroup.isEmpty then none
  else if 1 < instantiatedGroup.countP (· ∈ initialAtoms) then none
  else some ⟨invIndex, rigidValues, instantiatedGroup.mergeSort fun x y => index x ≤ index y⟩

/-- One pattern and one initial atom. -/
def precomputePart (initialAtoms allAtoms : List Tuple) (invIndex : Nat) (inv : Invariant)
    (atom : Tuple) (state : GroupCollection) (part : Atom) : GroupCollection :=
  if part.predicate ≠ atom.relation then state
  else if !inv.initialAtomMatchesPart part atom then state
  else
    match inv.extractRigidValues part atom with
    | none => state
    | some rigidValues =>
        let key : GroupKey := ⟨invIndex, rigidValues⟩
        if key ∈ state.seenKeys then state
        else
          ⟨state.groups ++ (instanceGroup index initialAtoms allAtoms invIndex inv rigidValues).toList,
            key :: state.seenKeys⟩

def precomputeGroups (initialAtoms allAtoms : List Tuple) (invariants : List Invariant) :
    List PrecomputedGroup :=
  (invariants.zipIdx.foldl (fun state inv =>
    initialAtoms.foldl (fun state atom =>
      if atom.relation ∉ inv.1.predicates then state
      else inv.1.atoms.foldl (precomputePart index initialAtoms allAtoms inv.2 inv.1 atom) state)
      state) (⟨[], []⟩ : GroupCollection)).groups

/-! ### Choosing groups -/

def computeUncoveredCoverage (group : PrecomputedGroup) (uncovered : List Bool) : Nat :=
  group.atoms.countP fun atom => uncovered.getD (index atom) false

/-- The best group so far, with its coverage. -/
def selectBetter (uncovered : List Bool) (best : Option PrecomputedGroup × Nat)
    (group : PrecomputedGroup) : Option PrecomputedGroup × Nat :=
  let coverage := computeUncoveredCoverage index group uncovered
  if best.2 < coverage then (some group, coverage) else best

/-- The first group of the largest coverage, if there is one that covers something. -/
def selectBestGroup (groups : List PrecomputedGroup) (uncovered : List Bool) :
    Option PrecomputedGroup :=
  (groups.foldl (selectBetter index uncovered) (none, 0)).1

def buildUncoveredSubgroup (group : PrecomputedGroup) (uncovered : List Bool) : List Tuple :=
  group.atoms.filter fun atom => uncovered.getD (index atom) false

/-- Mark an atom as covered; the number of uncovered atoms is kept with the marks. -/
def markCovered (marks : List Bool × Nat) (atom : Tuple) : List Bool × Nat :=
  if marks.1.getD (index atom) false then (marks.1.set (index atom) false, marks.2 - 1) else marks

def markGroupCovered (group : List Tuple) (marks : List Bool × Nat) : List Bool × Nat :=
  group.foldl (markCovered index) marks

theorem markGroupCovered_le (group : List Tuple) (marks : List Bool × Nat) :
    (markGroupCovered index group marks).2 ≤ marks.2 := by
  induction group generalizing marks with
  | nil => exact le_rfl
  | cons atom rest ih =>
      refine (ih (markCovered index marks atom)).trans ?_
      unfold markCovered
      split
      · exact Nat.sub_le _ _
      · exact le_rfl

/-- Covering a group that is not covered makes progress. -/
theorem markGroupCovered_lt {group : PrecomputedGroup} {marks : List Bool × Nat}
    (positive : 0 < marks.2) (nonempty : buildUncoveredSubgroup index group marks.1 ≠ []) :
    (markGroupCovered index (buildUncoveredSubgroup index group marks.1) marks).2 < marks.2 := by
  obtain ⟨atom, rest, cons⟩ := List.exists_cons_of_ne_nil nonempty
  have unmarked : marks.1.getD (index atom) false = true := by
    have mem : atom ∈ buildUncoveredSubgroup index group marks.1 := cons ▸ List.mem_cons_self
    exact (List.mem_filter.mp mem).2
  rw [cons, markGroupCovered, List.foldl_cons, ← markGroupCovered]
  refine (markGroupCovered_le index rest _).trans_lt ?_
  rw [markCovered, if_pos unmarked]
  exact Nat.sub_lt positive Nat.one_pos

/-- The loop of `choose_groups_greedily`: choose groups until none covers more atoms. -/
def chooseLoop (groups : List PrecomputedGroup) (marks : List Bool × Nat) (result : List (List Tuple)) :
    List (List Tuple) × List Bool :=
  if positive : 0 < marks.2 then
    match selectBestGroup index groups marks.1 with
    | none => (result, marks.1)
    | some best =>
        if empty : buildUncoveredSubgroup index best marks.1 = [] then (result, marks.1)
        else
          have := markGroupCovered_lt index positive empty
          chooseLoop groups
            (markGroupCovered index (buildUncoveredSubgroup index best marks.1) marks)
            (result ++ [buildUncoveredSubgroup index best marks.1])
  else (result, marks.1)
termination_by marks.2

def chooseGroupsGreedily (groups : List PrecomputedGroup) (allAtoms : List Tuple) :
    List (List Tuple) :=
  let (result, uncovered) :=
    chooseLoop index groups (List.replicate allAtoms.length true, allAtoms.length) []
  result ++ (allAtoms.zipIdx.filter fun atom => uncovered.getD atom.2 false).map fun atom => [atom.1]

/-- `Less` of groups: by invariant, rigid values and atoms, in lexicographic order. -/
def lessGroup (x y : PrecomputedGroup) : Bool :=
  compareLex (compareOn PrecomputedGroup.invIndex)
    (compareLex (compareOn PrecomputedGroup.rigidValues)
      (compareOn fun group => group.atoms.map index)) x y != .gt

def computeMutexGroups (initialAtoms allAtoms : List Tuple) (invariants : List Invariant) :
    List (List Tuple) :=
  chooseGroupsGreedily index
    ((precomputeGroups index initialAtoms allAtoms invariants).mergeSort (lessGroup index)) allAtoms

/-! ### The atoms of a group -/

variable {index}

/-- The atoms are numbered by their positions. -/
def Indexed (index : Tuple → Nat) (allAtoms : List Tuple) : Prop :=
  ∀ i atom, allAtoms[i]? = some atom → index atom = i

section

variable {allAtoms : List Tuple} (indexed : Indexed index allAtoms)

include indexed

theorem getElem?_index {atom : Tuple} (mem : atom ∈ allAtoms) : allAtoms[index atom]? = some atom := by
  obtain ⟨i, position⟩ := List.mem_iff_getElem?.mp mem
  rw [indexed i atom position, position]

theorem index_lt {atom : Tuple} (mem : atom ∈ allAtoms) : index atom < allAtoms.length := by
  by_contra outside
  have none := List.getElem?_eq_none (Nat.le_of_not_lt outside)
  rw [getElem?_index indexed mem] at none
  cases none

theorem index_inj {atom other : Tuple} (mem : atom ∈ allAtoms) (memOther : other ∈ allAtoms)
    (same : index atom = index other) : atom = other := by
  have position := getElem?_index indexed mem
  rw [same, getElem?_index indexed memOther] at position
  exact (Option.some.inj position).symm

theorem nodup_of_indexed : allAtoms.Nodup := by
  rw [List.nodup_iff_getElem?_ne_getElem?]
  intro i j less inside same
  have position := List.getElem?_eq_getElem inside
  have first := indexed j _ position
  rw [← same] at position
  exact less.ne ((indexed i _ position).symm.trans first)

end

/-- A term of a pattern matches an object iff it stands for it. -/
theorem instantiateMatchesTerm_of_ground {inv : Invariant} {pattern : Atom}
    (mem : pattern ∈ inv.atoms) {rigidValues : List Nat}
    (sized : rigidValues.length = inv.numRigidVariables) {term : Term} (occurs : term ∈ pattern.terms)
    {countedValue : Option Nat} {object : Nat}
    (isMatch : instantiateMatchesTerm rigidValues countedValue object term = true) :
    term.ground (rigidValues ++ List.replicate inv.numCountedVariables (countedValue.getD 0)) = object := by
  cases term with
  | object arg => exact eq_of_beq isMatch
  | parameter p =>
      rw [instantiateMatchesTerm] at isMatch
      rw [Term.ground]
      split at isMatch
      · next rigid => rw [List.getD_append _ _ _ _ rigid, eq_of_beq isMatch]
      · next counted =>
          have inside := inv.closed pattern mem p occurs
          have one := inv.counted_le_one
          have only : inv.numCountedVariables = 1 := by omega
          have position : p = rigidValues.length := by omega
          rw [eq_of_beq isMatch, only, position, List.getD_append_right _ _ _ _ le_rfl, Nat.sub_self]
          rfl

theorem countedPosition_eq_some {inv : Invariant} {pattern : Atom} {p : Nat}
    (occurs : Term.parameter p ∈ pattern.terms) (counted : inv.numRigidVariables ≤ p) :
    ∃ pos q, countedPosition inv pattern = some pos ∧ pattern.terms[pos]? = some (.parameter q) ∧
      inv.numRigidVariables ≤ q := by
  unfold countedPosition
  cases found : pattern.terms.findIdx? _ with
  | none =>
      have absent := List.findIdx?_eq_none_iff.mp found _ occurs
      simp [counted] at absent
  | some pos =>
      obtain ⟨inside, holds, _⟩ := List.findIdx?_eq_some_iff_getElem.mp found
      cases term : pattern.terms[pos] with
      | object arg => simp [term] at holds
      | parameter q =>
          refine ⟨pos, q, rfl, ?_, ?_⟩
          · rw [List.getElem?_eq_getElem inside, term]
          · simpa [term] using holds

theorem map_eq_of_zip {α β : Type*} {f : α → β} : ∀ {list : List α} {list' : List β},
    list.length = list'.length → (∀ pair ∈ list.zip list', f pair.1 = pair.2) → list.map f = list'
  | [], [], _, _ => rfl
  | x :: list, y :: list', sized, agree => by
      have head := agree (x, y) List.mem_cons_self
      rw [List.map_cons, map_eq_of_zip (by simpa using sized)
        fun pair mem => agree pair (List.mem_cons_of_mem _ mem)]
      rw [head]

theorem eq_of_mem_zip_map {α β : Type*} {f : α → β} : ∀ {list : List α} {pair : α × β},
    pair ∈ list.zip (list.map f) → pair.2 = f pair.1
  | x :: list, pair, mem => by
      rcases List.mem_cons.mp mem with rfl | later
      · rfl
      · exact eq_of_mem_zip_map later

theorem inInstance_iff {inv : Invariant} {pattern : Atom} (mem : pattern ∈ inv.atoms)
    {rigidValues : List Nat} (sized : rigidValues.length = inv.numRigidVariables) (atom : Tuple) :
    inInstance inv rigidValues pattern atom = true ↔
      ∃ counted : List Nat, counted.length = inv.numCountedVariables ∧
        pattern.ground (rigidValues ++ counted) = atom := by
  simp only [inInstance, instantiateMatchesGroundAtom, Bool.and_eq_true, beq_iff_eq, List.all_eq_true]
  constructor
  · rintro ⟨⟨samePredicate, sameLength⟩, _, agree⟩
    refine ⟨List.replicate inv.numCountedVariables
      (((countedPosition inv pattern).bind fun pos => atom.objects[pos]?).getD 0),
      List.length_replicate, ?_⟩
    obtain ⟨relation, objects⟩ := atom
    rw [Atom.ground, samePredicate]
    congr 1
    apply map_eq_of_zip sameLength
    rintro ⟨term, object⟩ inZip
    exact instantiateMatchesTerm_of_ground mem sized (List.of_mem_zip inZip).1 (agree _ inZip)
  · rintro ⟨counted, countedSized, rfl⟩
    have sameLength : pattern.terms.length = (pattern.ground (rigidValues ++ counted)).objects.length := by
      rw [Atom.ground, List.length_map]
    refine ⟨⟨rfl, sameLength⟩, ⟨rfl, sameLength⟩, ?_⟩
    rintro ⟨term, object⟩ inZip
    have occurs := (List.of_mem_zip inZip).1
    have stands : object = term.ground (rigidValues ++ counted) := eq_of_mem_zip_map inZip
    subst stands
    cases term with
    | object arg => exact beq_self_eq_true arg
    | parameter p =>
        rw [instantiateMatchesTerm, Term.ground]
        split
        · next rigid => simp [List.getElem?_append_left rigid]
        · next isCounted =>
            obtain ⟨pos, q, position, atPos, qCounted⟩ :=
              countedPosition_eq_some occurs (sized ▸ Nat.le_of_not_lt isCounted)
            have inside := inv.closed pattern mem p occurs
            have insideQ := inv.closed pattern mem q (List.mem_of_getElem? atPos)
            have one := inv.counted_le_one
            have same : q = p := by omega
            rw [position, Option.bind_some, Atom.ground, List.getElem?_map, atPos, same]
            exact beq_self_eq_true _

/-! ### Instantiating groups -/

/-- The marks of the atoms seen so far. -/
structure Seen (index : Tuple → Nat) (allAtoms : List Tuple) (state : List Bool × List Tuple) : Prop where
  sized : state.1.length = allAtoms.length
  subset : ∀ atom ∈ state.2, atom ∈ allAtoms
  nodup : state.2.Nodup
  marked : ∀ atom ∈ allAtoms, (state.1.getD (index atom) false = true ↔ atom ∈ state.2)

section

variable {allAtoms : List Tuple} (indexed : Indexed index allAtoms)

include indexed

omit indexed in
theorem Seen.mem_pushUnseen {state : List Bool × List Tuple} (seen : Seen index allAtoms state)
    {atom : Tuple} (mem : atom ∈ allAtoms) (other : Tuple) :
    other ∈ (pushUnseen index state atom).2 ↔ other ∈ state.2 ∨ other = atom := by
  unfold pushUnseen
  split
  · next marked =>
      have present := (seen.marked atom mem).mp marked
      constructor
      · exact Or.inl
      · rintro (before | rfl)
        · exact before
        · exact present
  · simp

theorem Seen.pushUnseen {state : List Bool × List Tuple} (seen : Seen index allAtoms state)
    {atom : Tuple} (mem : atom ∈ allAtoms) :
    Seen index allAtoms (pushUnseen index state atom) := by
  unfold Planning.pushUnseen
  split
  · exact seen
  · next unmarked =>
      have absent : atom ∉ state.2 := fun present => unmarked ((seen.marked atom mem).mpr present)
      refine ⟨?_, ?_, ?_, ?_⟩
      · rw [List.length_set, seen.sized]
      · intro other present
        rcases List.mem_append.mp present with before | here
        · exact seen.subset other before
        · rw [List.mem_singleton.mp here]
          exact mem
      · exact seen.nodup.append (List.nodup_singleton atom) (by simpa using absent)
      · intro other memOther
        by_cases same : other = atom
        · subst same
          have inside : index other < state.1.length := by
            rw [seen.sized]
            exact index_lt indexed mem
          simp [List.getD_eq_getElem?_getD, List.getElem?_set_self inside]
        · have apart : index atom ≠ index other := fun sameIndex =>
            same (index_inj indexed mem memOther sameIndex).symm
          rw [List.getD_eq_getElem?_getD, List.getElem?_set_ne apart, ← List.getD_eq_getElem?_getD,
            seen.marked other memOther]
          simp [same]

/-- The loop over the atoms, for one pattern. -/
theorem Seen.foldl {P : Tuple → Bool} (atoms : List Tuple) (subset : ∀ atom ∈ atoms, atom ∈ allAtoms)
    {state : List Bool × List Tuple} (seen : Seen index allAtoms state) :
    Seen index allAtoms
        (atoms.foldl (fun state atom => if P atom then Planning.pushUnseen index state atom else state)
          state) ∧
      ∀ other, other ∈ (atoms.foldl (fun state atom =>
          if P atom then Planning.pushUnseen index state atom else state) state).2 ↔
        other ∈ state.2 ∨ (other ∈ atoms ∧ P other = true) := by
  induction atoms generalizing state with
  | nil => exact ⟨seen, by simp⟩
  | cons atom rest ih =>
      have mem := subset atom List.mem_cons_self
      rw [List.foldl_cons]
      by_cases holds : P atom = true
      · rw [if_pos holds]
        obtain ⟨seenRest, members⟩ := ih (fun other later => subset other (List.mem_cons_of_mem _ later))
          (seen.pushUnseen indexed mem)
        refine ⟨seenRest, fun other => ?_⟩
        rw [members, seen.mem_pushUnseen mem, List.mem_cons, or_assoc]
        constructor
        · rintro (before | rfl | ⟨later, holdsOther⟩)
          · exact .inl before
          · exact .inr ⟨.inl rfl, holds⟩
          · exact .inr ⟨.inr later, holdsOther⟩
        · rintro (before | ⟨rfl | later, holdsOther⟩)
          · exact .inl before
          · exact .inr (.inl rfl)
          · exact .inr (.inr ⟨later, holdsOther⟩)
      · rw [if_neg holds]
        obtain ⟨seenRest, members⟩ := ih (fun other later => subset other (List.mem_cons_of_mem _ later))
          seen
        refine ⟨seenRest, fun other => ?_⟩
        rw [members, List.mem_cons]
        constructor
        · rintro (before | ⟨later, holdsOther⟩)
          · exact .inl before
          · exact .inr ⟨.inr later, holdsOther⟩
        · rintro (before | ⟨rfl | later, holdsOther⟩)
          · exact .inl before
          · exact absurd holdsOther holds
          · exact .inr ⟨later, holdsOther⟩

/-- A group has the atoms that its instance covers, each once. -/
theorem instantiateGroup_spec {inv : Invariant} {rigidValues : List Nat}
    (sized : rigidValues.length = inv.numRigidVariables) :
    (instantiateGroup index inv rigidValues allAtoms).Nodup ∧
      ∀ atom, atom ∈ instantiateGroup index inv rigidValues allAtoms ↔
        atom ∈ allAtoms ∧ inv.Covers rigidValues atom := by
  have loop : ∀ (patterns : List Atom) (state : List Bool × List Tuple),
      Seen index allAtoms state →
      Seen index allAtoms (patterns.foldl (fun state pattern =>
          allAtoms.foldl (fun state atom => if inInstance inv rigidValues pattern atom then
            pushUnseen index state atom else state) state) state) ∧
        ∀ other, other ∈ (patterns.foldl (fun state pattern =>
            allAtoms.foldl (fun state atom => if inInstance inv rigidValues pattern atom then
              pushUnseen index state atom else state) state) state).2 ↔
          other ∈ state.2 ∨
            ∃ pattern ∈ patterns, other ∈ allAtoms ∧ inInstance inv rigidValues pattern other = true := by
    intro patterns
    induction patterns with
    | nil => exact fun state seen => ⟨seen, by simp⟩
    | cons pattern rest ih =>
        intro state seen
        obtain ⟨seenOne, one⟩ := seen.foldl indexed allAtoms fun _ mem => mem
        obtain ⟨seenRest, members⟩ := ih _ seenOne
        refine ⟨seenRest, fun other => ?_⟩
        rw [List.foldl_cons, members, one, or_assoc]
        simp only [List.mem_cons, exists_eq_or_imp]
  have start : Seen index allAtoms (List.replicate allAtoms.length false, []) := by
    refine ⟨List.length_replicate, by simp, List.nodup_nil, fun atom mem => ?_⟩
    simp [List.getD_eq_getElem?_getD, index_lt indexed mem]
  obtain ⟨seen, members⟩ := loop inv.atoms _ start
  refine ⟨seen.nodup, fun atom => ?_⟩
  rw [instantiateGroup, members]
  constructor
  · rintro (before | ⟨pattern, mem, memAll, isMatch⟩)
    · cases before
    · exact ⟨memAll, pattern, mem, (inInstance_iff mem sized atom).mp isMatch⟩
  · rintro ⟨memAll, pattern, mem, covers⟩
    exact .inr ⟨pattern, mem, memAll, (inInstance_iff mem sized atom).mpr covers⟩

end

/-! ### Collecting groups -/

/-- A group of an instance that covers at most one initial atom. -/
structure IsInstanceGroup (initialAtoms allAtoms : List Tuple) (inv : Invariant)
    (group : PrecomputedGroup) : Prop where
  sized : group.rigidValues.length = inv.numRigidVariables
  nodup : group.atoms.Nodup
  covers : ∀ atom, atom ∈ group.atoms ↔ atom ∈ allAtoms ∧ inv.Covers group.rigidValues atom
  initial_le_one : group.atoms.countP (· ∈ initialAtoms) ≤ 1

theorem length_of_mapM_eq_some {α β : Type*} {f : α → Option β} {list : List α} {values : List β}
    (defined : list.mapM f = some values) : list.length = values.length := by
  induction list generalizing values with
  | nil =>
      cases defined
      rfl
  | cons x rest ih =>
      rw [List.mapM_cons] at defined
      obtain ⟨value, _, others⟩ := Option.bind_eq_some_iff.mp defined
      obtain ⟨later, ofRest, same⟩ := Option.bind_eq_some_iff.mp others
      cases same
      rw [List.length_cons, List.length_cons, ih ofRest]

theorem length_extractRigidValues {inv : Invariant} {pattern : Atom} {atom : Tuple}
    {rigidValues : List Nat} (extracted : inv.extractRigidValues pattern atom = some rigidValues) :
    rigidValues.length = inv.numRigidVariables := by
  obtain ⟨sigma, _, values⟩ := Option.bind_eq_some_iff.mp extracted
  rw [← length_of_mapM_eq_some values, List.length_range]

section

variable {initialAtoms allAtoms : List Tuple} (indexed : Indexed index allAtoms)

include indexed

theorem instanceGroup_spec {inv : Invariant} {invIndex : Nat} {rigidValues : List Nat}
    (sized : rigidValues.length = inv.numRigidVariables) {group : PrecomputedGroup}
    (isGroup : instanceGroup index initialAtoms allAtoms invIndex inv rigidValues = some group) :
    IsInstanceGroup initialAtoms allAtoms inv group := by
  obtain ⟨nodup, covers⟩ := instantiateGroup_spec indexed sized
  simp only [instanceGroup] at isGroup
  split at isGroup
  · cases isGroup
  · split at isGroup
    · cases isGroup
    · next few =>
        cases isGroup
        have perm := List.mergeSort_perm (instantiateGroup index inv rigidValues allAtoms)
          fun x y => decide (index x ≤ index y)
        refine ⟨sized, perm.nodup_iff.mpr nodup, fun atom => perm.mem_iff.trans (covers atom), ?_⟩
        rw [perm.countP_eq]
        exact Nat.le_of_not_lt few

theorem precomputePart_spec {inv : Invariant} {invIndex : Nat} {atom : Tuple} {part : Atom}
    {state : GroupCollection} {group : PrecomputedGroup}
    (collected : group ∈ (precomputePart index initialAtoms allAtoms invIndex inv atom state part).groups) :
    group ∈ state.groups ∨ IsInstanceGroup initialAtoms allAtoms inv group := by
  unfold precomputePart at collected
  split at collected
  · exact .inl collected
  · split at collected
    · exact .inl collected
    · split at collected
      · exact .inl collected
      · next rigidValues extracted =>
          dsimp only at collected
          split at collected
          · exact .inl collected
          · rcases List.mem_append.mp collected with before | new
            · exact .inl before
            · rw [Option.mem_toList] at new
              exact .inr (instanceGroup_spec indexed (length_extractRigidValues extracted) new)

/-- Every group is one of an instance of an invariant. -/
def FromInvariants (initialAtoms allAtoms : List Tuple) (invariants : List Invariant)
    (state : GroupCollection) : Prop :=
  ∀ group ∈ state.groups, ∃ inv ∈ invariants, IsInstanceGroup initialAtoms allAtoms inv group

/-- Every group that is collected is one of an instance of an invariant. -/
theorem precomputeGroups_spec {invariants : List Invariant} {group : PrecomputedGroup}
    (collected : group ∈ precomputeGroups index initialAtoms allAtoms invariants) :
    ∃ inv ∈ invariants, IsInstanceGroup initialAtoms allAtoms inv group := by
  have start : FromInvariants initialAtoms allAtoms invariants ⟨[], []⟩ := by simp [FromInvariants]
  refine Lib.foldl_invariant (P := FromInvariants initialAtoms allAtoms invariants) ?_ start
    group collected
  rintro state holds ⟨inv, invIndex⟩ memInv
  have isInvariant : inv ∈ invariants := List.fst_mem_of_mem_zipIdx memInv
  refine Lib.foldl_invariant (P := FromInvariants initialAtoms allAtoms invariants) ?_ holds
  intro state holds atom _
  dsimp only
  split
  · exact holds
  · refine Lib.foldl_invariant (P := FromInvariants initialAtoms allAtoms invariants) ?_ holds
    intro state holds part _ group collected
    rcases precomputePart_spec indexed collected with before | new
    · exact holds group before
    · exact ⟨inv, isInvariant, new⟩

end

/-! ### The chosen groups -/

/-- What the loop has chosen so far: the groups are disjoint, and exactly their
atoms are covered. -/
structure Chosen (index : Tuple → Nat) (groups : List PrecomputedGroup) (allAtoms : List Tuple)
    (uncovered : List Bool) (result : List (List Tuple)) : Prop where
  sized : uncovered.length = allAtoms.length
  subset : ∀ group ∈ result, ∃ whole ∈ groups, group ⊆ whole.atoms
  nodup : result.flatten.Nodup
  inside : ∀ atom ∈ result.flatten, atom ∈ allAtoms
  covered : ∀ atom ∈ allAtoms, (uncovered.getD (index atom) false = true ↔ atom ∉ result.flatten)

theorem length_markGroupCovered (group : List Tuple) (marks : List Bool × Nat) :
    (markGroupCovered index group marks).1.length = marks.1.length := by
  induction group generalizing marks with
  | nil => rfl
  | cons atom rest ih =>
      rw [markGroupCovered, List.foldl_cons, ← markGroupCovered, ih]
      unfold markCovered
      split
      · exact List.length_set
      · rfl

theorem selectBestGroup_mem {groups : List PrecomputedGroup} {uncovered : List Bool}
    {best : PrecomputedGroup} (selected : selectBestGroup index groups uncovered = some best) :
    best ∈ groups := by
  refine Lib.foldl_invariant (P := fun state : Option PrecomputedGroup × Nat =>
    ∀ group, state.1 = some group → group ∈ groups) ?_ (by simp) best selected
  intro state start group mem other
  simp only [selectBetter]
  split
  · intro same
    cases same
    exact mem
  · exact start other

section

variable {groups : List PrecomputedGroup} {allAtoms : List Tuple} (indexed : Indexed index allAtoms)

include indexed

/-- Marking covers the atoms of the group and no others. -/
theorem markGroupCovered_getD {group : List Tuple} (within : ∀ atom ∈ group, atom ∈ allAtoms)
    {marks : List Bool × Nat} (sized : marks.1.length = allAtoms.length) {atom : Tuple}
    (mem : atom ∈ allAtoms) :
    (markGroupCovered index group marks).1.getD (index atom) false = true ↔
      marks.1.getD (index atom) false = true ∧ atom ∉ group := by
  induction group generalizing marks with
  | nil => simp [markGroupCovered]
  | cons first rest ih =>
      have memFirst := within first List.mem_cons_self
      have sizedNext : (markCovered index marks first).1.length = allAtoms.length := by
        rw [← sized]
        exact length_markGroupCovered [first] marks
      rw [markGroupCovered, List.foldl_cons, ← markGroupCovered,
        ih (fun other later => within other (List.mem_cons_of_mem _ later)) sizedNext]
      have one : (markCovered index marks first).1.getD (index atom) false = true ↔
          marks.1.getD (index atom) false = true ∧ atom ≠ first := by
        unfold markCovered
        by_cases same : atom = first
        · subst same
          have bound : index atom < marks.1.length := sized ▸ index_lt indexed mem
          split
          · simp [List.getD_eq_getElem?_getD, List.getElem?_set_self bound]
          · next unmarked => exact iff_of_false unmarked fun both => both.2 rfl
        · have apart : index first ≠ index atom := fun sameIndex =>
            same (index_inj indexed mem memFirst sameIndex.symm)
          split
          · rw [List.getD_eq_getElem?_getD, List.getElem?_set_ne apart, ← List.getD_eq_getElem?_getD]
            simp [same]
          · simp [same]
      rw [one, List.mem_cons, not_or, and_assoc]

theorem chosen_step {uncovered : List Bool} {num : Nat} {result : List (List Tuple)}
    (chosen : Chosen index groups allAtoms uncovered result) {best : PrecomputedGroup}
    (mem : best ∈ groups) (nodup : best.atoms.Nodup) (within : ∀ atom ∈ best.atoms, atom ∈ allAtoms) :
    Chosen index groups allAtoms
      (markGroupCovered index (buildUncoveredSubgroup index best uncovered) (uncovered, num)).1
      (result ++ [buildUncoveredSubgroup index best uncovered]) := by
  have sub : ∀ atom ∈ buildUncoveredSubgroup index best uncovered, atom ∈ allAtoms :=
    fun atom inGroup => within atom (List.mem_filter.mp inGroup).1
  have fresh : ∀ atom ∈ buildUncoveredSubgroup index best uncovered, atom ∉ result.flatten := by
    intro atom inGroup
    exact (chosen.covered atom (sub atom inGroup)).mp (List.mem_filter.mp inGroup).2
  have flat : (result ++ [buildUncoveredSubgroup index best uncovered]).flatten =
      result.flatten ++ buildUncoveredSubgroup index best uncovered := by simp
  refine ⟨?_, ?_, ?_, ?_, ?_⟩
  · rw [length_markGroupCovered, chosen.sized]
  · intro group inResult
    rcases List.mem_append.mp inResult with before | new
    · exact chosen.subset group before
    · rw [List.mem_singleton.mp new]
      exact ⟨best, mem, List.filter_subset_self _⟩
  · rw [flat]
    refine chosen.nodup.append (nodup.filter _) ?_
    intro atom before inGroup
    exact fresh atom inGroup before
  · intro atom inFlat
    rw [flat] at inFlat
    rcases List.mem_append.mp inFlat with before | inGroup
    · exact chosen.inside atom before
    · exact sub atom inGroup
  · intro atom memAll
    rw [markGroupCovered_getD indexed sub chosen.sized memAll, chosen.covered atom memAll, flat,
      List.mem_append, not_or]

theorem chooseLoop_spec (nodup : ∀ group ∈ groups, group.atoms.Nodup)
    (within : ∀ group ∈ groups, ∀ atom ∈ group.atoms, atom ∈ allAtoms) {marks : List Bool × Nat}
    {result : List (List Tuple)} (chosen : Chosen index groups allAtoms marks.1 result) :
    Chosen index groups allAtoms (chooseLoop index groups marks result).2
      (chooseLoop index groups marks result).1 := by
  fun_induction chooseLoop index groups marks result with
  | case1 => exact chosen
  | case2 => exact chosen
  | case3 marks result _ best selected _ _ ih =>
      have mem := selectBestGroup_mem selected
      exact ih (chosen_step indexed chosen mem (nodup best mem) (within best mem))
  | case4 => exact chosen

/-- The chosen groups are a partition of the atoms; each one is part of one of the
given groups, or has only one atom. -/
theorem chooseGroupsGreedily_spec (nodup : ∀ group ∈ groups, group.atoms.Nodup)
    (within : ∀ group ∈ groups, ∀ atom ∈ group.atoms, atom ∈ allAtoms) :
    (chooseGroupsGreedily index groups allAtoms).flatten.Perm allAtoms ∧
      ∀ group ∈ chooseGroupsGreedily index groups allAtoms,
        (∃ whole ∈ groups, group ⊆ whole.atoms) ∨ ∃ atom, group = [atom] := by
  have start : Chosen index groups allAtoms (List.replicate allAtoms.length true) [] := by
    refine ⟨List.length_replicate, by simp, List.nodup_nil, by simp, fun atom mem => ?_⟩
    simp [List.getD_eq_getElem?_getD, index_lt indexed mem]
  have chosen := @chooseLoop_spec index groups allAtoms indexed nodup within
    (List.replicate allAtoms.length true, allAtoms.length) [] start
  unfold chooseGroupsGreedily
  generalize chooseLoop index groups (List.replicate allAtoms.length true, allAtoms.length) [] = loop
    at chosen
  obtain ⟨result, uncovered⟩ := loop
  dsimp only at chosen ⊢
  set rest := allAtoms.zipIdx.filter fun atom => uncovered.getD atom.2 false with restEq
  have flat : (result ++ rest.map fun atom => [atom.1]).flatten =
      result.flatten ++ rest.map Prod.fst := by
    rw [List.flatten_append, ← List.flatMap_def, List.map_eq_flatMap]
  have memRest : ∀ atom, atom ∈ rest.map Prod.fst ↔ atom ∈ allAtoms ∧ atom ∉ result.flatten := by
    intro atom
    simp only [restEq, List.mem_map, List.mem_filter, Prod.exists, exists_and_right, exists_eq_right]
    constructor
    · rintro ⟨i, inZip, isUncovered⟩
      have position := List.mem_zipIdx_iff_getElem?.mp inZip
      have mem := List.mem_of_getElem? position
      rw [← indexed i atom position] at isUncovered
      exact ⟨mem, (chosen.covered atom mem).mp isUncovered⟩
    · rintro ⟨mem, absent⟩
      exact ⟨index atom, List.mem_zipIdx_iff_getElem?.mpr (getElem?_index indexed mem),
        (chosen.covered atom mem).mpr absent⟩
  have nodupRest : (rest.map Prod.fst).Nodup := by
    have sublist : rest.Sublist allAtoms.zipIdx := List.filter_sublist
    have sublist := sublist.map Prod.fst
    rw [List.zipIdx_map_fst] at sublist
    exact (nodup_of_indexed indexed).sublist sublist
  constructor
  · rw [flat, List.perm_ext_iff_of_nodup _ (nodup_of_indexed indexed)]
    · intro atom
      rw [List.mem_append, memRest]
      constructor
      · rintro (before | ⟨mem, _⟩)
        · exact chosen.inside atom before
        · exact mem
      · intro mem
        by_cases before : atom ∈ result.flatten
        · exact .inl before
        · exact .inr ⟨mem, before⟩
    · refine chosen.nodup.append nodupRest ?_
      intro atom before after
      exact ((memRest atom).mp after).2 before
  · intro group mem
    rcases List.mem_append.mp mem with before | single
    · exact .inl (chosen.subset group before)
    · obtain ⟨atom, _, rfl⟩ := List.mem_map.mp single
      exact .inr ⟨atom.1, rfl⟩

/-- The mutex groups are a partition of the atoms into parts of groups of invariants and
single atoms. -/
theorem computeMutexGroups_spec (initialAtoms : List Tuple) (invariants : List Invariant) :
    (computeMutexGroups index initialAtoms allAtoms invariants).flatten.Perm allAtoms ∧
      ∀ group ∈ computeMutexGroups index initialAtoms allAtoms invariants,
        (∃ inv ∈ invariants, ∃ whole : PrecomputedGroup,
          IsInstanceGroup initialAtoms allAtoms inv whole ∧ group ⊆ whole.atoms) ∨
          ∃ atom, group = [atom] := by
  have isGroup : ∀ group ∈ (precomputeGroups index initialAtoms allAtoms invariants).mergeSort
      (lessGroup index), ∃ inv ∈ invariants, IsInstanceGroup initialAtoms allAtoms inv group :=
    fun group mem => precomputeGroups_spec indexed (List.mem_mergeSort.mp mem)
  obtain ⟨partition, parts⟩ := chooseGroupsGreedily_spec indexed
    (fun group mem => (isGroup group mem).choose_spec.2.nodup)
    (fun group mem atom inGroup => (((isGroup group mem).choose_spec.2.covers atom).mp inGroup).1)
  refine ⟨partition, fun group mem => ?_⟩
  rcases parts group mem with ⟨whole, collected, subset⟩ | single
  · obtain ⟨inv, known, isInstance⟩ := isGroup whole collected
    exact .inl ⟨inv, known, whole, isInstance, subset⟩
  · exact .inr single

end

end

end Tyr.Formalism.Planning
