import Tyr.Datalog.BottomUpEnds
import Tyr.Formalism.Definedness
import Tyr.Formalism.Evaluation
import Tyr.Formalism.Planning.CanonicalGrounding
import Tyr.Planning.Evaluation
import Tyr.Planning.Programs.Ground
import Tyr.Planning.Programs.Workspace

/-!
The translation of conditions into programs that are evaluated in a state.

A condition becomes the body of a rule with all its literals and constraints. The fluent
and the derived predicates become fluent predicates of the program, and predicates of one
name and one arity are one. The facts of a run are the atoms of the state.

* `StateProgram.createBody` — the body of a rule.
* `StateProgram.insertUnextendedState` — the facts of a run.
* `StateProgram.Declared.admits_iff` — when a body holds apart from its fluent and derived literals.
-/

namespace Tyr.Planning

open Tyr.Lib Tyr.Formalism Tyr.Formalism.Planning Tyr.Formalism.FunctionExpression Tyr.Analysis

open GroundTaskProgram (mergeLiteral mergeAtom)

namespace StateProgram

/-! ### Predicates -/

section

variable (task : NamedTask) (further : List PredicateData)

/-- The fluent predicates of the program: those of the task and further ones. -/
def fluentPredicates : List PredicateData :=
  (task.fluentPredicates.map task.fluentData ++ task.derivedPredicates.map task.derivedData ++
    further).eraseDups

/-- The index of a predicate. -/
def predicateIndex (predicate : PredicateData) : Nat := (fluentPredicates task further).idxOf predicate

def fluentToFluentPredicate (predicate : Nat) : Nat :=
  predicateIndex task further (task.fluentData predicate)

def derivedToFluentPredicate (predicate : Nat) : Nat :=
  predicateIndex task further (task.derivedData predicate)

/-- The fluent predicates have the arities that they were created with. -/
def arity : Symbol → Nat
  | .fluentPredicate index => ((fluentPredicates task further)[index]?.map PredicateData.arity).getD 0
  | other => task.arity other

end

section

variable {task : NamedTask} {further : List PredicateData} {predicate other : PredicateData}

theorem mem_fluentPredicates : predicate ∈ fluentPredicates task further ↔
    (∃ p ∈ task.fluentPredicates, task.fluentData p = predicate) ∨
      (∃ p ∈ task.derivedPredicates, task.derivedData p = predicate) ∨ predicate ∈ further := by
  simp [fluentPredicates]

theorem fluentData_mem {p : Nat} (mem : p ∈ task.fluentPredicates) :
    task.fluentData p ∈ fluentPredicates task further :=
  mem_fluentPredicates.mpr (.inl ⟨p, mem, rfl⟩)

theorem derivedData_mem {p : Nat} (mem : p ∈ task.derivedPredicates) :
    task.derivedData p ∈ fluentPredicates task further :=
  mem_fluentPredicates.mpr (.inr (.inl ⟨p, mem, rfl⟩))

theorem further_mem (mem : predicate ∈ further) : predicate ∈ fluentPredicates task further :=
  mem_fluentPredicates.mpr (.inr (.inr mem))

/-- Predicates of different data have different indices. -/
theorem predicateIndex_inj (mem : predicate ∈ fluentPredicates task further) :
    predicateIndex task further predicate = predicateIndex task further other ↔ predicate = other :=
  List.idxOf_inj mem

theorem predicateIndex_lt (mem : predicate ∈ fluentPredicates task further) :
    predicateIndex task further predicate < (fluentPredicates task further).length :=
  List.idxOf_lt_length_iff.mpr mem

theorem arity_predicateIndex (mem : predicate ∈ fluentPredicates task further) :
    arity task further (.fluentPredicate (predicateIndex task further predicate)) = predicate.arity := by
  have lt := predicateIndex_lt mem
  have found : (fluentPredicates task further)[predicateIndex task further predicate]? =
      some predicate := by
    rw [List.getElem?_eq_getElem lt]
    exact congrArg some (List.getElem_idxOf lt)
  rw [arity, found, Option.map_some, Option.getD_some]

end

/-! ### Bodies -/

/-- `merge_p2d` of a function term. -/
def mergeFterm : FunctionTerm → Datalog.FunctionTerm
  | .static function terms => ⟨.static, function, terms⟩
  | .fluent function terms => ⟨.fluent, function, terms⟩

theorem mergeFterm_injective : Function.Injective mergeFterm := by
  rintro (⟨function, terms⟩ | ⟨function, terms⟩) (⟨function', terms'⟩ | ⟨function', terms'⟩) same <;>
    simp_all [mergeFterm]

section

variable [LinearOrder (FunctionExpression Datalog.FunctionTerm)]

/-- `merge_p2d` of a numeric constraint. -/
def mergeConstraint (constraint : BooleanOperator FunctionTerm) : BooleanOperator Datalog.FunctionTerm where
  op := constraint.op
  lhs := rebuild mergeFterm constraint.lhs
  rhs := rebuild mergeFterm constraint.rhs

variable (task : NamedTask) (further : List PredicateData) (literals : Canonicalization Literal)
  (constraints : Canonicalization (BooleanOperator Datalog.FunctionTerm))

/-- `process_axiom_body`, and the same loops over the condition of an action. -/
def processBody (condition : ConjunctiveCondition) : Datalog.ConjunctiveCondition where
  staticLiterals := condition.staticLiterals
  fluentLiterals :=
    condition.fluentLiterals.map (mergeLiteral (fluentToFluentPredicate task further)) ++
      condition.derivedLiterals.map (mergeLiteral (derivedToFluentPredicate task further))
  numericConstraints := condition.numericConstraints.map mergeConstraint

/-- The canonical body of a condition. -/
def createBody (condition : ConjunctiveCondition) : Datalog.ConjunctiveCondition where
  staticLiterals := literals.canonicalize (processBody task further condition).staticLiterals
  fluentLiterals := literals.canonicalize (processBody task further condition).fluentLiterals
  numericConstraints := constraints.canonicalize (processBody task further condition).numericConstraints

end

section

variable [LinearOrder (FunctionExpression Datalog.FunctionTerm)] {task : NamedTask}
  {further : List PredicateData} {literals : Canonicalization Literal}
  {constraints : Canonicalization (BooleanOperator Datalog.FunctionTerm)}
  {condition : ConjunctiveCondition} {literal : Literal}

theorem mem_static : literal ∈ (createBody task further literals constraints condition).staticLiterals ↔
    literal ∈ condition.staticLiterals := literals.mem_canonicalize _ _

theorem mem_fluent : literal ∈ (createBody task further literals constraints condition).fluentLiterals ↔
    (∃ origin ∈ condition.fluentLiterals,
      mergeLiteral (fluentToFluentPredicate task further) origin = literal) ∨
    ∃ origin ∈ condition.derivedLiterals,
      mergeLiteral (derivedToFluentPredicate task further) origin = literal := by
  rw [createBody, literals.mem_canonicalize, processBody, List.mem_append, List.mem_map, List.mem_map]

theorem mem_numeric {constraint : BooleanOperator Datalog.FunctionTerm} :
    constraint ∈ (createBody task further literals constraints condition).numericConstraints ↔
      ∃ origin ∈ condition.numericConstraints, mergeConstraint origin = constraint := by
  rw [createBody, constraints.mem_canonicalize, processBody, List.mem_map]

end

/-! ### Conditions of a task -/

/-- What a condition of a task is known to be: its predicates are declared and have one
term for each position, its expressions are canonical, and a comparison by `!=` has no
static function term. -/
structure Declared [LinearOrder (FunctionExpression FunctionTerm)] (task : NamedTask)
    (parameters : Nat) (condition : ConjunctiveCondition) : Prop where
  typed : condition.Typed task.arity parameters
  fluent : ∀ literal ∈ condition.fluentLiterals, literal.atom.predicate ∈ task.fluentPredicates
  derived : ∀ literal ∈ condition.derivedLiterals,
    literal.atom.predicate ∈ task.derivedPredicates ∧
      literal.atom.terms.length = task.arity (.derivedPredicate literal.atom.predicate) ∧
        ∀ index, .parameter index ∈ literal.atom.terms → index < parameters
  canonical : ∀ constraint ∈ condition.numericConstraints,
    Canonical constraint.lhs ∧ Canonical constraint.rhs
  strict : ∀ constraint ∈ condition.numericConstraints, constraint.op = .ne →
    ∀ function terms, .static function terms ∉ constraint.lhs.fterms ++ constraint.rhs.fterms

/-- The predicates of the task have different data, also from the further ones. -/
def Distinct (task : NamedTask) (further : List PredicateData) : Prop :=
  (task.fluentPredicates.map task.fluentData ++ task.derivedPredicates.map task.derivedData ++
    further).Nodup

section

variable {task : NamedTask} {further : List PredicateData}

theorem Distinct.fluent_ne_derived (distinct : Distinct task further) {p q : Nat}
    (isFluent : p ∈ task.fluentPredicates) (isDerived : q ∈ task.derivedPredicates) :
    fluentToFluentPredicate task further p ≠ derivedToFluentPredicate task further q := by
  intro same
  have sameData := (predicateIndex_inj (fluentData_mem isFluent)).mp same
  have disjoint := (List.nodup_append.mp (List.nodup_append.mp distinct).1).2.2
  exact disjoint _ (List.mem_map_of_mem isFluent) _ (List.mem_map_of_mem isDerived) sameData

theorem Distinct.fluent_inj (distinct : Distinct task further) {p q : Nat}
    (isFluent : p ∈ task.fluentPredicates) (isFluent' : q ∈ task.fluentPredicates)
    (same : fluentToFluentPredicate task further p = fluentToFluentPredicate task further q) : p = q :=
  List.inj_on_of_nodup_map (List.nodup_append.mp (List.nodup_append.mp distinct).1).1 isFluent isFluent'
    ((predicateIndex_inj (fluentData_mem isFluent)).mp same)

theorem Distinct.derived_inj (distinct : Distinct task further) {p q : Nat}
    (isDerived : p ∈ task.derivedPredicates) (isDerived' : q ∈ task.derivedPredicates)
    (same : derivedToFluentPredicate task further p = derivedToFluentPredicate task further q) :
    p = q :=
  List.inj_on_of_nodup_map (List.nodup_append.mp (List.nodup_append.mp distinct).1).2.1 isDerived
    isDerived' ((predicateIndex_inj (derivedData_mem isDerived)).mp same)

theorem Distinct.ne_further (distinct : Distinct task further) {predicate other : PredicateData}
    (mem : predicate ∈ task.fluentPredicates.map task.fluentData ++
      task.derivedPredicates.map task.derivedData) (memOther : other ∈ further) :
    predicateIndex task further predicate ≠ predicateIndex task further other := by
  intro same
  have inPredicates : predicate ∈ fluentPredicates task further := by
    rw [fluentPredicates, List.mem_eraseDups]
    exact List.mem_append_left _ mem
  exact (List.nodup_append.mp distinct).2.2 predicate mem other memOther
    ((predicateIndex_inj inPredicates).mp same)

end

section

variable [LinearOrder (FunctionExpression FunctionTerm)]
  [LinearOrder (FunctionExpression Datalog.FunctionTerm)] {task : NamedTask}
  {further : List PredicateData} {literals : Canonicalization Literal}
  {constraints : Canonicalization (BooleanOperator Datalog.FunctionTerm)}
  {condition : ConjunctiveCondition} {parameters : Nat}

/-- The literals of a body are typed. -/
theorem Declared.literal_typed (declared : Declared task parameters condition)
    (kind : Datalog.FactKind) {literal : Literal}
    (mem : literal ∈ (createBody task further literals constraints condition).literals kind) :
    literal.atom.terms.length = arity task further (predicateSymbol kind literal.atom.predicate) ∧
      ∀ index, .parameter index ∈ literal.atom.terms → index < parameters := by
  cases kind with
  | static => exact declared.typed.static literal (mem_static.mp mem)
  | fluent =>
      rcases mem_fluent.mp mem with ⟨origin, memOrigin, rfl⟩ | ⟨origin, memOrigin, rfl⟩
      · obtain ⟨length, closed⟩ := declared.typed.fluent origin memOrigin
        have isDeclared := declared.fluent origin memOrigin
        exact ⟨length.trans (arity_predicateIndex (fluentData_mem isDeclared)).symm, closed⟩
      · obtain ⟨isDeclared, length, closed⟩ := declared.derived origin memOrigin
        exact ⟨length.trans (arity_predicateIndex (derivedData_mem isDeclared)).symm, closed⟩

theorem Declared.predicate_lt (declared : Declared task parameters condition) {literal : Literal}
    (mem : literal ∈ (createBody task further literals constraints condition).fluentLiterals) :
    literal.atom.predicate < (fluentPredicates task further).length := by
  rcases mem_fluent.mp mem with ⟨origin, memOrigin, rfl⟩ | ⟨origin, memOrigin, rfl⟩
  · exact predicateIndex_lt (fluentData_mem (declared.fluent origin memOrigin))
  · exact predicateIndex_lt (derivedData_mem (declared.derived origin memOrigin).1)

end

/-! ### Facts and values of a state -/

/-- The atoms and the values that an unpacked state lists. -/
structure StateView where
  fluentAtoms : List Tuple
  derivedAtoms : List Tuple
  fluentValues : Tuple → Number

/-- The state without its derived atoms. -/
def StateView.unextended (view : StateView) : LiftedState where
  fluentAtoms := {atom | atom ∈ view.fluentAtoms}
  fluentValues := view.fluentValues

section

variable (task : NamedTask) (further : List PredicateData) (view : StateView)

/-- `insert_fluent_atoms_to_fact_set` and `insert_derived_atoms_to_fact_set`. -/
def insertAtoms (predicate : Nat → Nat) (atoms facts : List Tuple) : List Tuple :=
  Datalog.StratumState.insertHeads facts (atoms.map (mergeAtom predicate))

def insertUnextendedState : List Tuple :=
  insertAtoms (fluentToFluentPredicate task further) view.fluentAtoms []

def insertExtendedState : List Tuple :=
  insertAtoms (derivedToFluentPredicate task further) view.derivedAtoms
    (insertUnextendedState task further view)

/-- The static facts, and the values that `insert_numeric_variables_to_fact_set` inserts. -/
def data : Datalog.ProgramData where
  staticFacts := task.staticAtoms
  function
    | .static => task.staticValue
    | .fluent => view.fluentValues

end

section

variable {task : NamedTask} {further : List PredicateData} {view : StateView} {fact : Tuple}

theorem mem_insertAtoms {predicate : Nat → Nat} {atoms facts : List Tuple} :
    fact ∈ insertAtoms predicate atoms facts ↔ fact ∈ facts ∨
      ∃ atom ∈ atoms, mergeAtom predicate atom = fact := by
  rw [insertAtoms, Datalog.StratumState.mem_insertHeads, List.mem_map]

theorem mem_insertUnextendedState : fact ∈ insertUnextendedState task further view ↔
    ∃ atom ∈ view.fluentAtoms, mergeAtom (fluentToFluentPredicate task further) atom = fact := by
  rw [insertUnextendedState, mem_insertAtoms]
  simp

theorem nodup_insertExtendedState : (insertExtendedState task further view).Nodup :=
  Datalog.StratumState.nodup_insertHeads (Datalog.StratumState.nodup_insertHeads List.nodup_nil)

theorem mem_insertExtendedState : fact ∈ insertExtendedState task further view ↔
    (∃ atom ∈ view.fluentAtoms, mergeAtom (fluentToFluentPredicate task further) atom = fact) ∨
      ∃ atom ∈ view.derivedAtoms, mergeAtom (derivedToFluentPredicate task further) atom = fact := by
  rw [insertExtendedState, mem_insertAtoms, mem_insertUnextendedState]

end

section

variable {task : NamedTask} {further : List PredicateData} {view : StateView} {atom other : Tuple}

theorem Distinct.mergeAtom_fluent_inj (distinct : Distinct task further)
    (isFluent : atom.relation ∈ task.fluentPredicates) (isFluent' : other.relation ∈ task.fluentPredicates)
    (same : mergeAtom (fluentToFluentPredicate task further) atom =
      mergeAtom (fluentToFluentPredicate task further) other) : atom = other := by
  obtain ⟨relation, objects⟩ := atom
  obtain ⟨relation', objects'⟩ := other
  obtain ⟨sameRelation, rfl⟩ := Tuple.mk.inj same
  obtain rfl := distinct.fluent_inj isFluent isFluent' sameRelation
  rfl

theorem Distinct.mergeAtom_derived_inj (distinct : Distinct task further)
    (isDerived : atom.relation ∈ task.derivedPredicates)
    (isDerived' : other.relation ∈ task.derivedPredicates)
    (same : mergeAtom (derivedToFluentPredicate task further) atom =
      mergeAtom (derivedToFluentPredicate task further) other) : atom = other := by
  obtain ⟨relation, objects⟩ := atom
  obtain ⟨relation', objects'⟩ := other
  obtain ⟨sameRelation, rfl⟩ := Tuple.mk.inj same
  obtain rfl := distinct.derived_inj isDerived isDerived' sameRelation
  rfl

/-- The atoms of a state are of declared predicates. -/
structure StateView.DeclaredIn (view : StateView) (task : NamedTask) : Prop where
  fluent : ∀ atom ∈ view.fluentAtoms, atom.relation ∈ task.fluentPredicates
  derived : ∀ atom ∈ view.derivedAtoms, atom.relation ∈ task.derivedPredicates

/-- A fluent literal is about the facts of the run as it is about the state. -/
theorem mem_unextended_iff (distinct : Distinct task further)
    (declared : ∀ atom ∈ view.fluentAtoms, atom.relation ∈ task.fluentPredicates) {literal : Literal}
    (isFluent : literal.atom.predicate ∈ task.fluentPredicates) (binding : List Nat) :
    mergeAtom (fluentToFluentPredicate task further) (literal.atom.ground binding) ∈
      insertUnextendedState task further view ↔ literal.atom.ground binding ∈ view.fluentAtoms := by
  rw [mem_insertUnextendedState]
  constructor
  · rintro ⟨atom, mem, same⟩
    rwa [← distinct.mergeAtom_fluent_inj (declared atom mem) isFluent same]
  · exact fun mem => ⟨_, mem, rfl⟩

theorem mem_extended_fluent_iff (distinct : Distinct task further) (declared : view.DeclaredIn task)
    {literal : Literal} (isFluent : literal.atom.predicate ∈ task.fluentPredicates)
    (binding : List Nat) :
    mergeAtom (fluentToFluentPredicate task further) (literal.atom.ground binding) ∈
      insertExtendedState task further view ↔ literal.atom.ground binding ∈ view.fluentAtoms := by
  rw [insertExtendedState, mem_insertAtoms, mem_unextended_iff distinct declared.fluent isFluent]
  refine or_iff_left ?_
  rintro ⟨atom, mem, same⟩
  exact distinct.fluent_ne_derived isFluent (declared.derived atom mem)
    (congrArg Tuple.relation same).symm

theorem mem_extended_derived_iff (distinct : Distinct task further) (declared : view.DeclaredIn task)
    {literal : Literal} (isDerived : literal.atom.predicate ∈ task.derivedPredicates)
    (binding : List Nat) :
    mergeAtom (derivedToFluentPredicate task further) (literal.atom.ground binding) ∈
      insertExtendedState task further view ↔ literal.atom.ground binding ∈ view.derivedAtoms := by
  rw [mem_insertExtendedState]
  constructor
  · rintro (⟨atom, mem, same⟩ | ⟨atom, mem, same⟩)
    · exact absurd (congrArg Tuple.relation same)
        (distinct.fluent_ne_derived (declared.fluent atom mem) isDerived)
    · rwa [← distinct.mergeAtom_derived_inj (declared.derived atom mem) isDerived same]
  · exact fun mem => .inr ⟨_, mem, rfl⟩

end

section

variable [LinearOrder (FunctionExpression FunctionTerm)]
  [LinearOrder (FunctionExpression Datalog.FunctionTerm)] {task : NamedTask}
  {further : List PredicateData} {literals : Canonicalization Literal}
  {constraints : Canonicalization (BooleanOperator Datalog.FunctionTerm)}
  {condition : ConjunctiveCondition} {parameters : Nat} {view : StateView} {binding : List Nat}

/-- A constraint and its translation have the same truth. -/
theorem isValidConstraint_mergeConstraint {constraint : BooleanOperator FunctionTerm}
    (canonical : Canonical constraint.lhs ∧ Canonical constraint.rhs) (facts : List Tuple) :
    ((data task view).factSets facts).isValidConstraint binding (mergeConstraint constraint) =
      constraint.holds (TaskSemantics.value task.toLiftedTask view.unextended binding) := by
  let valuation (fterm : Datalog.FunctionTerm) : Number :=
    (data task view).function fterm.kind ⟨fterm.function, fterm.terms.map (Term.ground binding)⟩
  have sameValues : valuation ∘ mergeFterm =
      TaskSemantics.value task.toLiftedTask view.unextended binding := by
    funext fterm
    cases fterm <;> rfl
  have preserved := fun {fexpr : FunctionExpression FunctionTerm} (isCanonical : Canonical fexpr) =>
    (value_rebuild_of_canonical mergeFterm_injective valuation isCanonical).here
  have left := preserved canonical.1
  have right := preserved canonical.2
  rw [ValuePreserved, sameValues] at left right
  rw [BooleanOperator.holds, ← left, ← right]
  rfl

/-- A body that holds has no undefined static function term. -/
theorem Declared.strictOnStatic (declared : Declared task parameters condition)
    {rule : Datalog.Rule} (isBody : rule.body = createBody task further literals constraints condition) :
    TypedProgram.StrictOnStatic (data task view) rule := by
  intro binding constraint mem valid fterm memFterm isStatic
  rw [isBody] at mem
  obtain ⟨origin, memOrigin, rfl⟩ := mem_numeric.mp mem
  by_cases strict : origin.op = .ne
  · have fromOrigin : ∃ source ∈ origin.lhs.fterms ++ origin.rhs.fterms, mergeFterm source = fterm := by
      rcases List.mem_append.mp memFterm with left | right
      · obtain ⟨source, inSource, same⟩ := mem_fterms_rebuild left
        exact ⟨source, List.mem_append_left _ inSource, same⟩
      · obtain ⟨source, inSource, same⟩ := mem_fterms_rebuild right
        exact ⟨source, List.mem_append_right _ inSource, same⟩
    obtain ⟨source, inSource, rfl⟩ := fromOrigin
    cases source with
    | static function terms =>
        exact absurd inSource (declared.strict origin memOrigin strict function terms)
    | fluent => cases isStatic
  · have strictMerged : (mergeConstraint origin).op ≠ .ne := strict
    have isDefined := BooleanOperator.defined_of_holds strictMerged valid fterm memFterm
    rwa [isStatic] at isDefined

/-- The program has the objects and the static part of the task. -/
structure HasStaticPart (task : NamedTask) (program : Datalog.Program) : Prop where
  objects : program.objects = task.objects
  staticAtoms : program.staticAtoms = task.staticAtoms
  staticFtermValues : program.staticFtermValues = task.staticFtermValues

/-- The bindings of a rule whose body holds apart from the fluent and derived literals. -/
theorem Declared.admits_iff (declared : Declared task parameters condition) {typed : TypedProgram}
    (static : HasStaticPart task typed.program) {rule : typed.ProgramRule}
    (isBody : rule.1.body = createBody task further literals constraints condition) :
    Datalog.AdmitsStatically (data task view) (typed.ruleWorkspace rule) binding ↔
      task.IsBinding rule.1.arity binding ∧
      (∀ literal ∈ condition.staticLiterals, literal.HoldsIn {atom | atom ∈ task.staticAtoms} binding) ∧
      ∀ constraint ∈ condition.numericConstraints,
        constraint.holds (TaskSemantics.value task.toLiftedTask view.unextended binding) = true := by
  have sameValues : (data task view).function .static = typed.program.value .static := by
    funext fterm
    change task.staticValue fterm = (typed.program.staticFtermValues.lookup fterm).getD .nan
    rw [static.staticFtermValues]
    rfl
  rw [TypedProgram.admitsStatically_iff static.staticAtoms.symm sameValues
    (declared.strictOnStatic isBody), isBody, static.objects, static.staticAtoms]
  refine and_congr ⟨fun both => ⟨both.1, both.2⟩, fun both => ⟨both.length, both.objects⟩⟩
    (and_congr ?_ ?_)
  · exact forall_congr' fun literal => imp_congr_left mem_static
  · constructor
    · intro valid constraint mem
      rw [← isValidConstraint_mergeConstraint (declared.canonical constraint mem) []]
      exact valid _ (mem_numeric.mpr ⟨constraint, mem, rfl⟩)
    · intro holds constraint mem
      obtain ⟨origin, memOrigin, rfl⟩ := mem_numeric.mp mem
      rw [isValidConstraint_mergeConstraint (declared.canonical origin memOrigin) []]
      exact holds origin memOrigin

omit [LinearOrder (FunctionExpression FunctionTerm)] in
/-- The facts of the literals of one polarity of a body. -/
theorem mem_groundBody {polarity : Bool} {fact : Tuple} :
    (∃ literal ∈ (createBody task further literals constraints condition).fluentLiterals,
      literal.polarity = polarity ∧ literal.atom.ground binding = fact) ↔
    (∃ literal ∈ condition.fluentLiterals, literal.polarity = polarity ∧
      mergeAtom (fluentToFluentPredicate task further) (literal.atom.ground binding) = fact) ∨
    ∃ literal ∈ condition.derivedLiterals, literal.polarity = polarity ∧
      mergeAtom (derivedToFluentPredicate task further) (literal.atom.ground binding) = fact := by
  constructor
  · rintro ⟨literal, mem, isPolarity, rfl⟩
    rcases mem_fluent.mp mem with ⟨origin, memOrigin, rfl⟩ | ⟨origin, memOrigin, rfl⟩
    · exact .inl ⟨origin, memOrigin, isPolarity, rfl⟩
    · exact .inr ⟨origin, memOrigin, isPolarity, rfl⟩
  · rintro (⟨origin, memOrigin, isPolarity, rfl⟩ | ⟨origin, memOrigin, isPolarity, rfl⟩)
    · exact ⟨_, mem_fluent.mpr (.inl ⟨origin, memOrigin, rfl⟩), isPolarity, rfl⟩
    · exact ⟨_, mem_fluent.mpr (.inr ⟨origin, memOrigin, rfl⟩), isPolarity, rfl⟩

end

end StateProgram

end Tyr.Planning
