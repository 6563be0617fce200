import Tyr.Planning.Programs.Translation

/-!
The program of the axioms, and the evaluation of a state.

Each axiom is a rule whose head is the fluent predicate of its derived predicate. The
program is evaluated on the fluent atoms and the values of a state, and the facts of
derived predicates are the derived atoms of the state.

* `AxiomEvaluatorProgram.createProgram` — the program.
* `AxiomEvaluatorProgram.ExtendsTo` — the evaluation of a state.
* `AxiomEvaluatorProgram.extendedState_stable` — the derived atoms are the only stable
  model of the axioms.
-/

namespace Tyr.Planning

open Tyr.Lib Tyr.Formalism Tyr.Formalism.Planning Tyr.Formalism.FunctionExpression
open Tyr.Analysis.Stratification

open GroundTaskProgram (mergeLiteral mergeAtom)
open StateProgram

/-- A task whose predicates are distinct and whose axioms are declared. -/
structure AxiomTask [LinearOrder (FunctionExpression FunctionTerm)] extends NamedTask where
  distinct : Distinct toNamedTask []
  bodies_declared : ∀ ax ∈ axioms, Declared toNamedTask ax.arity ax.body
  heads_declared : ∀ ax ∈ axioms, ax.head.predicate ∈ derivedPredicates

namespace AxiomEvaluatorProgram

/-! ### The program -/

section

variable [LinearOrder (FunctionExpression Datalog.FunctionTerm)] (task : NamedTask)
  (literals : Canonicalization Literal)
  (constraints : Canonicalization (BooleanOperator Datalog.FunctionTerm))

def createAxiomRule (ax : Axiom) : Datalog.Rule where
  arity := ax.arity
  body := createBody task [] literals constraints ax.body
  head := ⟨derivedToFluentPredicate task [] ax.head.predicate, ax.head.terms⟩

def rules : List Datalog.Rule := task.axioms.map (createAxiomRule task literals constraints)

theorem heads_closed : ∀ rule ∈ rules task literals constraints, ∀ index,
    .parameter index ∈ rule.head.terms → index < rule.arity := by
  intro rule mem index occurs
  obtain ⟨ax, memAxiom, rfl⟩ := List.mem_map.mp mem
  exact task.heads_closed ax memAxiom index occurs

/-- `create_program`. -/
def createProgram : Datalog.Program where
  objects := task.objects
  arity := arity task []
  staticAtoms := task.staticAtoms
  fluentAtoms := task.fluentAtoms.map (mergeAtom (fluentToFluentPredicate task []))
  staticFtermValues := task.staticFtermValues
  fluentFtermValues := task.fluentFtermValues
  rules := rules task literals constraints
  heads_closed := heads_closed task literals constraints

theorem hasStaticPart : HasStaticPart task (createProgram task literals constraints) := ⟨rfl, rfl, rfl⟩

end

section

variable [LinearOrder (FunctionExpression FunctionTerm)]
  [LinearOrder (FunctionExpression Datalog.FunctionTerm)] (task : AxiomTask)
  (literals : Canonicalization Literal)
  (constraints : Canonicalization (BooleanOperator Datalog.FunctionTerm))

theorem literals_typed : ∀ rule ∈ rules task.toNamedTask literals constraints, ∀ kind,
    ∀ literal ∈ rule.body.literals kind,
      literal.atom.terms.length =
        arity task.toNamedTask [] (predicateSymbol kind literal.atom.predicate) ∧
      ∀ index, .parameter index ∈ literal.atom.terms → index < rule.arity := by
  intro rule mem kind literal memLiteral
  obtain ⟨ax, memAxiom, rfl⟩ := List.mem_map.mp mem
  exact (task.bodies_declared ax memAxiom).literal_typed kind memLiteral

theorem head_lt : ∀ rule ∈ rules task.toNamedTask literals constraints,
    rule.head.predicate < (fluentPredicates task.toNamedTask []).length := by
  intro rule mem
  obtain ⟨ax, memAxiom, rfl⟩ := List.mem_map.mp mem
  exact predicateIndex_lt (derivedData_mem (task.heads_declared ax memAxiom))

theorem body_lt : ∀ rule ∈ rules task.toNamedTask literals constraints,
    ∀ literal ∈ rule.body.fluentLiterals,
      literal.atom.predicate < (fluentPredicates task.toNamedTask []).length := by
  intro rule mem literal memLiteral
  obtain ⟨ax, memAxiom, rfl⟩ := List.mem_map.mp mem
  exact (task.bodies_declared ax memAxiom).predicate_lt memLiteral

/-- The program with what the task guarantees of it. -/
def typedProgram : TypedProgram where
  program := createProgram task.toNamedTask literals constraints
  numFluentPredicates := (fluentPredicates task.toNamedTask []).length
  head_lt := head_lt task literals constraints
  body_lt := body_lt task literals constraints
  literals_typed := literals_typed task literals constraints

end

/-! ### Reading the derived atoms -/

section

variable (task : NamedTask)

/-- The derived predicate of a fluent predicate of the program. -/
def fluentToDerivedPredicate (predicate : Nat) : Option Nat :=
  task.derivedPredicates.find? fun derived => derivedToFluentPredicate task [] derived == predicate

/-- `merge_atom_d2p` of a fact, if its predicate is that of a derived predicate. -/
def readDerivedAtom (fact : Tuple) : Option Tuple :=
  (fluentToDerivedPredicate task fact.relation).map fun predicate => ⟨predicate, fact.objects⟩

/-- `read_derived_atoms_from_program_context`. -/
def readDerivedAtoms (facts : List Tuple) : List Tuple := facts.filterMap (readDerivedAtom task)

end

section

variable {task : NamedTask} {fact atom : Tuple}

theorem readDerivedAtom_eq_some (isRead : readDerivedAtom task fact = some atom) :
    atom.relation ∈ task.derivedPredicates ∧
      fact = mergeAtom (derivedToFluentPredicate task []) atom := by
  obtain ⟨predicate, found, rfl⟩ := Option.map_eq_some_iff.mp isRead
  refine ⟨List.mem_of_find?_eq_some found, ?_⟩
  have same := List.find?_some found
  rw [mergeAtom, beq_iff_eq.mp same]

theorem fluentToDerivedPredicate_eq (distinct : Distinct task []) {predicate : Nat}
    (declared : predicate ∈ task.derivedPredicates) :
    fluentToDerivedPredicate task (derivedToFluentPredicate task [] predicate) = some predicate := by
  cases search : fluentToDerivedPredicate task (derivedToFluentPredicate task [] predicate) with
  | none =>
      have absent := List.find?_eq_none.mp search predicate declared
      exact absurd (beq_self_eq_true _) absent
  | some other =>
      unfold fluentToDerivedPredicate at search
      have same := List.find?_some search
      rw [distinct.derived_inj (List.mem_of_find?_eq_some search) declared (beq_iff_eq.mp same)]

theorem readDerivedAtom_mergeAtom (distinct : Distinct task [])
    (declared : atom.relation ∈ task.derivedPredicates) :
    readDerivedAtom task (mergeAtom (derivedToFluentPredicate task []) atom) = some atom := by
  rw [readDerivedAtom, mergeAtom, fluentToDerivedPredicate_eq distinct declared]
  rfl

theorem readDerivedAtom_fluent (distinct : Distinct task [])
    (declared : atom.relation ∈ task.fluentPredicates) :
    readDerivedAtom task (mergeAtom (fluentToFluentPredicate task []) atom) = none := by
  cases isRead : readDerivedAtom task (mergeAtom (fluentToFluentPredicate task []) atom) with
  | none => rfl
  | some derived =>
      obtain ⟨isDerived, same⟩ := readDerivedAtom_eq_some isRead
      exact absurd (congrArg Tuple.relation same) (distinct.fluent_ne_derived declared isDerived)

theorem readDerivedAtom_ground (distinct : Distinct task []) {literal : Literal}
    (isDerived : literal.atom.predicate ∈ task.derivedPredicates) (binding : List Nat) :
    readDerivedAtom task (mergeAtom (derivedToFluentPredicate task []) (literal.atom.ground binding)) =
      some (literal.atom.ground binding) :=
  readDerivedAtom_mergeAtom distinct isDerived

end

/-! ### The evaluation of a state -/

section

variable [LinearOrder (FunctionExpression FunctionTerm)]
  [LinearOrder (FunctionExpression Datalog.FunctionTerm)] (task : AxiomTask)
  (literals : Canonicalization Literal)
  (constraints : Canonicalization (BooleanOperator Datalog.FunctionTerm))
  (numeric : Datalog.NumericOverapproximation)

/-- `compute_extended_state`: the state gets the derived atoms that some evaluation of the
program on its atoms and values returns. -/
def ExtendsTo (strata : List (List (typedProgram task literals constraints).ProgramRule))
    (view extended : StateView) : Prop :=
  ∃ final, Datalog.KpkcSolves (data task.toNamedTask view) numeric .none
      ((typedProgram task literals constraints).workspaces strata)
      (insertUnextendedState task.toNamedTask [] view) final ∧
    extended = { view with
      derivedAtoms := view.derivedAtoms ++ readDerivedAtoms task.toNamedTask final.facts }

/-- What the evaluation of a state relies on. -/
abbrev MatchedIn (view : StateView) : Prop :=
  (typedProgram task literals constraints).Matched numeric (data task.toNamedTask view)
    (insertUnextendedState task.toNamedTask [] view)

variable {task literals constraints numeric} {view : StateView}

omit [LinearOrder (FunctionExpression FunctionTerm)] in
/-- What can be read of the literals of a body are its derived literals. -/
theorem read_groundBody {task : NamedTask} (distinct : Distinct task [])
    {condition : ConjunctiveCondition}
    (isFluent : ∀ literal ∈ condition.fluentLiterals, literal.atom.predicate ∈ task.fluentPredicates)
    (isDerived : ∀ literal ∈ condition.derivedLiterals,
      literal.atom.predicate ∈ task.derivedPredicates)
    (polarity : Bool) (binding : List Nat) (atom : Tuple) :
    (∃ source, (∃ literal ∈ (createBody task [] literals constraints condition).fluentLiterals,
      literal.polarity = polarity ∧ literal.atom.ground binding = source) ∧
        readDerivedAtom task source = some atom) ↔
      ∃ literal ∈ condition.derivedLiterals, literal.polarity = polarity ∧
        literal.atom.ground binding = atom := by
  constructor
  · rintro ⟨source, inBody, isRead⟩
    rcases mem_groundBody.mp inBody with ⟨literal, mem, _, rfl⟩ | ⟨literal, mem, isPolarity, rfl⟩
    · rw [readDerivedAtom_fluent distinct (isFluent literal mem)] at isRead
      cases isRead
    · rw [readDerivedAtom_ground distinct (isDerived literal mem) binding] at isRead
      exact ⟨literal, mem, isPolarity, Option.some.inj isRead⟩
  · rintro ⟨literal, mem, isPolarity, rfl⟩
    exact ⟨_, mem_groundBody.mpr (.inr ⟨literal, mem, isPolarity, rfl⟩),
      readDerivedAtom_ground distinct (isDerived literal mem) binding⟩

/-- The clause of an axiom with its derived literals only. -/
def axiomClause (ax : Axiom) (binding : List Nat) : Clause Tuple where
  head := ax.head.ground binding
  positive := (ax.body.derivedLiterals.filter Literal.polarity).map (·.atom.ground binding)
  negative := (ax.body.derivedLiterals.filter (!·.polarity)).map (·.atom.ground binding)

theorem readsAs_axiomClause {ax : Axiom} (mem : ax ∈ task.axioms) (binding : List Nat) :
    ReadsAs (readDerivedAtom task.toNamedTask)
      (Datalog.groundClause (createAxiomRule task.toNamedTask literals constraints ax) binding)
      (axiomClause ax binding) := by
  have declared := task.bodies_declared ax mem
  have read := @read_groundBody _ literals constraints task.toNamedTask task.distinct ax.body
    declared.fluent (fun literal memLiteral => (declared.derived literal memLiteral).1)
  have headDeclared : (ax.head.ground binding).relation ∈ task.derivedPredicates :=
    task.heads_declared ax mem
  refine ⟨readDerivedAtom_mergeAtom task.distinct headDeclared, fun atom => ?_, fun atom => ?_⟩
  · rw [axiomClause, List.mem_map]
    simp only [List.mem_filter, and_assoc]
    rw [← read true binding atom]
    simp only [Datalog.groundClause, Datalog.mem_witnessFacts]
    rfl
  · rw [axiomClause, List.mem_map]
    simp only [List.mem_filter, and_assoc, Bool.not_eq_true']
    rw [← read false binding atom]
    simp only [Datalog.groundClause, Datalog.mem_negativeFacts]
    rfl

/-- The clauses of the program are those of the axioms with the fluent literals to be
evaluated. -/
theorem isResidual (semantics : TaskSemantics task.toLiftedTask)
    (valued : ∀ valuation constraint, semantics.constraintHolds valuation constraint ↔
      constraint.holds valuation = true)
    (declared : ∀ atom ∈ view.fluentAtoms, atom.relation ∈ task.fluentPredicates)
    {strata : List (List (typedProgram task literals constraints).ProgramRule)} {stratum : Nat → Nat}
    (stratified : IsStratification (typedProgram task literals constraints).ruleDependencies
      (typedProgram task literals constraints).program.rules.attach strata stratum) :
    IsResidual
      (Datalog.programClauses (data task.toNamedTask view)
        ((typedProgram task literals constraints).workspaces strata)
        (insertUnextendedState task.toNamedTask [] view))
      {fact | fact ∈ insertUnextendedState task.toNamedTask [] view}
      (readDerivedAtom task.toNamedTask) (semantics.axiomClauses view.unextended task.axioms) where
  read_injective isRead isRead' :=
    (readDerivedAtom_eq_some isRead).2.trans (readDerivedAtom_eq_some isRead').2.symm
  given_unread := by
    intro fact mem
    obtain ⟨atom, memAtom, rfl⟩ := mem_insertUnextendedState.mp mem
    exact readDerivedAtom_fluent task.distinct (declared atom memAtom)
  given_clause fact mem := .inl ⟨fact, mem, rfl⟩
  of_clause := by
    intro clause mem
    rcases (TypedProgram.mem_programClauses stratified).mp mem with
      ⟨fact, isGiven, rfl⟩ | ⟨⟨rule, isRule⟩, binding, admits, rfl⟩
    · exact .inl isGiven
    · refine .inr fun positive negative => ?_
      obtain ⟨ax, memAxiom, rfl⟩ := List.mem_map.mp isRule
      have isDeclared := task.bodies_declared ax memAxiom
      obtain ⟨isBinding, static, numeric⟩ :=
        (isDeclared.admits_iff (hasStaticPart task.toNamedTask literals constraints) rfl).mp admits
      have fluent : ∀ literal ∈ ax.body.fluentLiterals,
          literal.HoldsIn {atom | atom ∈ view.fluentAtoms} binding := by
        intro literal memLiteral
        have isFluent := isDeclared.fluent literal memLiteral
        have given := mem_unextended_iff task.distinct declared isFluent binding
        cases isPolarity : literal.polarity with
        | true =>
            have isPositive : mergeAtom (fluentToFluentPredicate task.toNamedTask [])
                (literal.atom.ground binding) ∈ (Datalog.groundClause
                  (createAxiomRule task.toNamedTask literals constraints ax) binding).positive :=
              Datalog.mem_witnessFacts.mpr
                (mem_groundBody.mpr (.inl ⟨literal, memLiteral, isPolarity, rfl⟩))
            have isGiven := positive _ isPositive (readDerivedAtom_fluent task.distinct isFluent)
            exact iff_of_true (given.mp isGiven) isPolarity
        | false =>
            have isNegative : mergeAtom (fluentToFluentPredicate task.toNamedTask [])
                (literal.atom.ground binding) ∈ (Datalog.groundClause
                  (createAxiomRule task.toNamedTask literals constraints ax) binding).negative :=
              Datalog.mem_negativeFacts.mpr
                (mem_groundBody.mpr (.inl ⟨literal, memLiteral, isPolarity, rfl⟩))
            exact iff_of_false (fun holds => negative _ isNegative (given.mpr holds)) (by simp [isPolarity])
      exact ⟨axiomClause ax binding,
        ⟨ax, memAxiom, binding, isBinding,
          ⟨static, fluent, fun constraint memConstraint =>
            (valued _ _).mpr (numeric constraint memConstraint)⟩, rfl⟩,
        readsAs_axiomClause memAxiom binding⟩
  to_clause := by
    rintro _ ⟨ax, memAxiom, binding, isBinding, holds, rfl⟩
    have isDeclared := task.bodies_declared ax memAxiom
    have isRule : createAxiomRule task.toNamedTask literals constraints ax ∈
        (typedProgram task literals constraints).program.rules := List.mem_map_of_mem memAxiom
    have given := fun (literal : Literal) (memLiteral : literal ∈ ax.body.fluentLiterals) =>
      mem_unextended_iff task.distinct declared (isDeclared.fluent literal memLiteral) binding
    refine ⟨Datalog.groundClause (createAxiomRule task.toNamedTask literals constraints ax) binding,
      (TypedProgram.mem_programClauses stratified).mpr (.inr ⟨⟨_, isRule⟩, binding, ?_, rfl⟩),
      readsAs_axiomClause memAxiom binding, fun source isPositive unread => ?_,
      fun source isNegative isGiven => ?_⟩
    · refine (isDeclared.admits_iff (hasStaticPart task.toNamedTask literals constraints) rfl).mpr
        ⟨isBinding, holds.static, fun constraint memConstraint => ?_⟩
      exact (valued _ _).mp (holds.numeric constraint memConstraint)
    · rcases mem_groundBody.mp (Datalog.mem_witnessFacts.mp isPositive) with
        ⟨literal, memLiteral, isPolarity, rfl⟩ | ⟨literal, memLiteral, _, rfl⟩
      · exact (given literal memLiteral).mpr ((holds.fluent literal memLiteral).mpr isPolarity)
      · rw [readDerivedAtom_ground task.distinct (isDeclared.derived literal memLiteral).1 binding]
          at unread
        cases unread
    · rcases mem_groundBody.mp (Datalog.mem_negativeFacts.mp isNegative) with
        ⟨literal, memLiteral, isPolarity, rfl⟩ | ⟨literal, memLiteral, _, rfl⟩
      · have positive := (holds.fluent literal memLiteral).mp ((given literal memLiteral).mp isGiven)
        rw [isPolarity] at positive
        cases positive
      · obtain ⟨atom, memAtom, same⟩ := mem_insertUnextendedState.mp isGiven
        have unread := readDerivedAtom_fluent task.distinct (declared atom memAtom)
        rw [same, readDerivedAtom_ground task.distinct (isDeclared.derived literal memLiteral).1 binding]
          at unread
        cases unread

/-- No axiom derives a fluent atom. -/
theorem extensional (declared : ∀ atom ∈ view.fluentAtoms, atom.relation ∈ task.fluentPredicates) :
    ∀ fact ∈ insertUnextendedState task.toNamedTask [] view,
      ∀ rule ∈ (typedProgram task literals constraints).program.rules,
        rule.head.predicate ≠ fact.relation := by
  intro fact mem rule isRule same
  obtain ⟨atom, memAtom, rfl⟩ := mem_insertUnextendedState.mp mem
  obtain ⟨ax, memAxiom, rfl⟩ := List.mem_map.mp isRule
  exact task.distinct.fluent_ne_derived (declared atom memAtom) (task.heads_declared ax memAxiom) same.symm

/-- The facts that are read after an evaluation are the only stable model of the axioms. -/
theorem stable_readDerivedAtoms {library : GraphLibrary}
    (correct : library.CorrectOn ((typedProgram task literals constraints).ruleDependencies.graph
      (typedProgram task literals constraints).program.rules.attach))
    {strata : List (List (typedProgram task literals constraints).ProgramRule)}
    (computed : (typedProgram task literals constraints).computeStrata library = .ok strata)
    (semantics : TaskSemantics task.toLiftedTask)
    (valued : ∀ valuation constraint, semantics.constraintHolds valuation constraint ↔
      constraint.holds valuation = true)
    (declared : ∀ atom ∈ view.fluentAtoms, atom.relation ∈ task.fluentPredicates)
    (matched : MatchedIn task literals constraints numeric view) {final : Datalog.SolveState}
    (solves : Datalog.KpkcSolves (data task.toNamedTask view) numeric .none
      ((typedProgram task literals constraints).workspaces strata)
      (insertUnextendedState task.toNamedTask [] view) final) (model : Set Tuple) :
    IsStable (semantics.axiomClauses view.unextended task.axioms) model ↔
      model = {atom | atom ∈ readDerivedAtoms task.toNamedTask final.facts} := by
  obtain ⟨stratum, stratified⟩ := TypedProgram.isStratification_of_ok correct computed
  have residual := isResidual semantics valued declared stratified
  have loop := solves.solvesStrata (TypedProgram.stratified_workspaces stratified) matched.matchedStrata
  rw [TypedProgram.stable_of_residual correct computed loop (extensional declared) residual model]
  have same : {atom | ∃ fact ∈ final.facts, readDerivedAtom task.toNamedTask fact = some atom} =
      {atom | atom ∈ readDerivedAtoms task.toNamedTask final.facts} := by
    ext atom
    exact List.mem_filterMap.symm
  rw [same]

/-- The derived atoms that an evaluation adds are of declared predicates. -/
theorem ExtendsTo.declaredIn (declared : ∀ atom ∈ view.fluentAtoms, atom.relation ∈ task.fluentPredicates)
    (unextended : view.derivedAtoms = [])
    {strata : List (List (typedProgram task literals constraints).ProgramRule)} {extended : StateView}
    (isExtended : ExtendsTo task literals constraints numeric strata view extended) :
    extended.DeclaredIn task.toNamedTask := by
  obtain ⟨final, _, rfl⟩ := isExtended
  refine ⟨declared, fun atom mem => ?_⟩
  have isRead : atom ∈ readDerivedAtoms task.toNamedTask final.facts := by
    rwa [unextended, List.nil_append] at mem
  obtain ⟨fact, _, read⟩ := List.mem_filterMap.mp isRead
  exact (readDerivedAtom_eq_some read).1

end

def shutAxiom : Axiom where
  arity := 1
  head := ⟨0, [.parameter 0]⟩
  body := { fluentLiterals := [⟨⟨0, [.parameter 0]⟩, false⟩] }

theorem shutAxiom_declared [LinearOrder (FunctionExpression FunctionTerm)] {task : NamedTask}
    (unary : task.arity (.fluentPredicate 0) = 1) (isFluent : 0 ∈ task.fluentPredicates) :
    Declared task shutAxiom.arity shutAxiom.body where
  typed := by
    constructor
    · nofun
    · intro literal mem
      cases List.mem_singleton.mp mem
      refine ⟨unary.symm, fun index occurs => ?_⟩
      cases List.mem_singleton.mp occurs
      exact Nat.zero_lt_one
  fluent := by
    intro literal mem
    cases List.mem_singleton.mp mem
    exact isFluent
  derived := nofun
  canonical := nofun
  strict := nofun

/-- The only edge leads from the fluent predicate to the derived one. -/
theorem shutAxiom_ascends [LinearOrder (FunctionExpression FunctionTerm)]
    [LinearOrder (FunctionExpression Datalog.FunctionTerm)] {task : AxiomTask}
    (only : task.axioms = [shutAxiom])
    (before : fluentToFluentPredicate task.toNamedTask [] 0 < derivedToFluentPredicate task.toNamedTask [] 0)
    (literals : Canonicalization Literal)
    (constraints : Canonicalization (BooleanOperator Datalog.FunctionTerm)) :
    ∀ edge ∈ ((typedProgram task literals constraints).ruleDependencies.graph
      (typedProgram task literals constraints).program.rules.attach).edges,
      edge.source < edge.target := by
  intro edge mem
  obtain ⟨⟨rule, isRule⟩, _, literal, memLiteral, rfl⟩ := mem_graph_edges.mp mem
  obtain ⟨ax, memAxiom, rfl⟩ := List.mem_map.mp isRule
  rw [only] at memAxiom
  obtain rfl := List.mem_singleton.mp memAxiom
  obtain ⟨other, memOther, rfl⟩ := List.mem_map.mp memLiteral
  rcases mem_fluent.mp memOther with ⟨origin, memOrigin, rfl⟩ | ⟨origin, memOrigin, _⟩
  · obtain rfl := List.mem_singleton.mp memOrigin
    exact before
  · cases memOrigin

theorem shut_effects_closed : ∀ action ∈ ([] : List Action), ∀ effect ∈ action.effects,
    ∀ literal ∈ effect.effect.literals, ∀ index, .parameter index ∈ literal.atom.terms →
      index < action.arity + effect.arity := nofun

theorem shut_heads_closed : ∀ ax ∈ [shutAxiom], ∀ index, .parameter index ∈ ax.head.terms →
    index < ax.arity := by
  intro ax mem index occurs
  obtain rfl := List.mem_singleton.mp mem
  cases List.mem_singleton.mp occurs
  exact Nat.zero_lt_one

/-- Two doors. -/
def shutDoors : NamedTask where
  objects := [0, 1]
  arity _ := 1
  staticAtoms := []
  fluentAtoms := [⟨0, [0]⟩]
  staticFtermValues := []
  fluentFtermValues := []
  actions := []
  axioms := [shutAxiom]
  goal := {}
  effects_closed := shut_effects_closed
  heads_closed := shut_heads_closed
  fluentPredicates := [0]
  derivedPredicates := [0]
  predicateName
    | .fluentPredicate _ => "open"
    | _ => "shut"
  actionName := nofun
  actionIndex := nofun
  axiomIndex := Fin.val

theorem shutDoors_distinct : Distinct shutDoors [] := by
  unfold Distinct
  decide

/-- The first door is open. -/
def firstOpen : StateView where
  fluentAtoms := [⟨0, [0]⟩]
  derivedAtoms := []
  fluentValues := fun _ => .nan

theorem firstOpen_declared : ∀ atom ∈ firstOpen.fluentAtoms,
    atom.relation ∈ shutDoors.fluentPredicates := by decide

theorem single_layer (task : LiftedTask) : ∀ layer ∈ [task.axioms], ∀ ax ∈ layer, ax ∈ task.axioms := by
  intro layer mem ax memAxiom
  rwa [List.mem_singleton.mp mem] at memAxiom

/-- All axioms are in one layer, and constraints have the values of their expressions. -/
def plainSemantics (task : LiftedTask) : TaskSemantics task where
  axiomLayers := [task.axioms]
  mem_axioms := single_layer task
  constraintHolds := fun valuation constraint => constraint.holds valuation = true
  effectsAccepted := fun _ _ _ => True
  successorValues := fun _ _ _ _ => .nan

section

noncomputable local instance : LinearOrder (FunctionExpression FunctionTerm) := arbitraryOrder _

noncomputable local instance : LinearOrder (FunctionExpression Datalog.FunctionTerm) :=
  arbitraryOrder _

theorem shut_bodies_declared : ∀ ax ∈ shutDoors.axioms, Declared shutDoors ax.arity ax.body := by
  intro ax mem
  obtain rfl := List.mem_singleton.mp mem
  exact shutAxiom_declared rfl (List.mem_singleton_self 0)

theorem shut_heads_declared : ∀ ax ∈ shutDoors.axioms,
    ax.head.predicate ∈ shutDoors.derivedPredicates := by decide

noncomputable def shutTask : AxiomTask where
  toNamedTask := shutDoors
  distinct := shutDoors_distinct
  bodies_declared := shut_bodies_declared
  heads_declared := shut_heads_declared

theorem shut_exact {task : AxiomTask} {literals : Canonicalization Literal}
    {constraints : Canonicalization (BooleanOperator Datalog.FunctionTerm)}
    (only : task.axioms = [shutAxiom]) (numeric : Datalog.NumericOverapproximation)
    (data : Datalog.ProgramData) (rule : (typedProgram task literals constraints).ProgramRule) :
    ((typedProgram task literals constraints).ruleWorkspace rule).ExactTests numeric data := by
  obtain ⟨rule, isRule⟩ := rule
  obtain ⟨ax, memAxiom, rfl⟩ := List.mem_map.mp isRule
  rw [only] at memAxiom
  obtain rfl := List.mem_singleton.mp memAxiom
  refine TypedProgram.exactTests_of_arity_le_one le_rfl ?_
  apply List.eq_nil_iff_forall_not_mem.mpr
  intro constraint mem
  obtain ⟨_, inBody, _⟩ := mem_numeric.mp mem
  cases inBody

theorem shut_matched : MatchedIn shutTask (.classical _) (.classical _) Datalog.noNumeric firstOpen where
  exact := shut_exact rfl _ _
  heads := by
    intro rule isRule
    obtain ⟨ax, memAxiom, rfl⟩ := List.mem_map.mp isRule
    obtain rfl := List.mem_singleton.mp memAxiom
    rfl
  static := fun fact mem => nomatch mem
  fluent := by
    intro fact mem
    obtain ⟨atom, memAtom, rfl⟩ := mem_insertUnextendedState.mp mem
    obtain rfl := List.mem_singleton.mp memAtom
    rfl

end

end AxiomEvaluatorProgram

end Tyr.Planning
