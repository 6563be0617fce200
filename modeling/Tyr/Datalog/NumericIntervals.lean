import Tyr.Datalog.RuleMatching

/-!
Numeric constraints in the matching of a rule.

The function assignment sets store, for each assignment of at most two positions,
the hull of the values of all bindings that agree with it. A vertex or an edge
estimates a function term by the intersection of such hulls, and a constraint by
interval arithmetic. A constraint is evaluated exactly only if it has no
parameters or more of them than the graph looks at.

* `FunctionAssignmentSet` — the hulls.
* `IntervalLibrary.overapproximation` — the tests of vertices and edges.
* `numericAccepted_iff` — which constraints are evaluated and which are estimated.
-/

namespace Tyr.Datalog

open Tyr.Lib Tyr.Formalism Tyr.Formalism.Datalog

/-- The operations on closed intervals, from a library. -/
structure IntervalLibrary where
  Interval : Type
  empty : Interval
  closed : Number → Number → Interval
  isEmpty : Interval → Bool
  lower : Interval → Number
  upper : Interval → Number
  hull : Interval → Interval → Interval
  intersect : Interval → Interval → Interval
  neg : Interval → Interval
  add : Interval → Interval → Interval
  sub : Interval → Interval → Interval
  mul : Interval → Interval → Interval
  div : Interval → Interval → Interval

/-- The values of the function terms of each kind, each listed once. -/
structure FunctionValues where
  entries : FactKind → List (Tuple × Number)
  nodup : ∀ kind, ((entries kind).map Prod.fst).Nodup

/-- The value of a term, not a number if it is not listed. -/
def FunctionValues.value (values : FunctionValues) (kind : FactKind) (fterm : Tuple) : Number :=
  ((values.entries kind).lookup fterm).getD .nan

namespace IntervalLibrary

variable (library : IntervalLibrary)

/-! ### Assignment sets -/

/-- An interval for the number of each assignment; zero is the empty assignment. -/
structure FunctionAssignmentSet where
  hash : PerfectAssignmentHash
  set : Nat → library.Interval

namespace FunctionAssignmentSet

variable {library}

def create (parameterDomains : List (List Nat)) : library.FunctionAssignmentSet :=
  ⟨⟨parameterDomains⟩, fun _ => library.empty⟩

/-- Extend the interval of an assignment by a value. -/
def extend (value : Number) (sets : library.FunctionAssignmentSet) (rank : Nat) :
    library.FunctionAssignmentSet :=
  ⟨sets.hash, Function.update sets.set rank
    (library.hull (sets.set rank) (library.closed value value))⟩

/-- The vertex assignment of `first` and its edge assignments with the later positions. -/
def insertPosition (objects : List Nat) (value : Number) (sets : library.FunctionAssignmentSet)
    (first : Nat) : library.FunctionAssignmentSet :=
  (List.range' (first + 1) (objects.length - (first + 1))).foldl
    (fun sets second => sets.extend value (sets.hash.edgeRank (edgeAssignment objects first second)))
    (sets.extend value (sets.hash.vertexRank ⟨first, objects.getD first 0⟩))

def insert (sets : library.FunctionAssignmentSet) (objects : List Nat) (value : Number) :
    library.FunctionAssignmentSet :=
  (List.range objects.length).foldl (insertPosition objects value) (sets.extend value 0)

def atEmpty (sets : library.FunctionAssignmentSet) : library.Interval := sets.set 0

def atVertex (sets : library.FunctionAssignmentSet) (assignment : VertexAssignment) :
    library.Interval :=
  sets.set (sets.hash.vertexRank assignment)

def atEdge (sets : library.FunctionAssignmentSet) (assignment : EdgeAssignment) : library.Interval :=
  sets.set (sets.hash.edgeRank assignment)

end FunctionAssignmentSet

/-- One assignment set for each function of each kind. -/
abbrev FunctionAssignmentSets := FactKind → Nat → library.FunctionAssignmentSet

/-- The sets after a reset and the insertion of all values. -/
def functionAssignmentSets (domains : FactKind → Nat → List (List Nat)) (values : FunctionValues) :
    library.FunctionAssignmentSets := fun kind =>
  (values.entries kind).foldl (fun sets entry => Function.update sets entry.1.relation
    ((sets entry.1.relation).insert entry.1.objects entry.2))
    fun function => FunctionAssignmentSet.create (domains kind function)

/-! ### Estimates -/

/-- The function term as a literal: its positions are computed alike. -/
def positions (fterm : FunctionTerm) : Literal := ⟨⟨fterm.function, fterm.terms⟩, true⟩

/-- Intersect the bounds with the intervals until they are empty. -/
def intersectAll : library.Interval → List library.Interval → library.Interval
  | bounds, [] => bounds
  | bounds, next :: rest =>
      if library.isEmpty bounds then bounds else intersectAll (library.intersect bounds next) rest

section

variable {library} (sets : library.FunctionAssignmentSet) (fterm : FunctionTerm)

/-- The positions of a vertex's parameter against the positions of the constants. -/
def constantBounds (vertex : RuleVertex) : List library.Interval :=
  (positionsOf (positions fterm) vertex.parameter).flatMap fun position =>
    (constantPositions (positions fterm)).map fun constant =>
      sets.atEdge (.ordered ⟨position, vertex.object⟩ constant)

/-- `consistent_interval` of a function term for a vertex. -/
def vertexInterval (vertex : RuleVertex) : library.Interval :=
  library.intersectAll sets.atEmpty
    (((positionsOf (positions fterm) vertex.parameter).flatMap fun position =>
      sets.atVertex ⟨position, vertex.object⟩ ::
        (constantPositions (positions fterm)).map fun constant =>
          sets.atEdge (.ordered ⟨position, vertex.object⟩ constant)) ++
    (constantPositions (positions fterm)).map sets.atVertex)

/-- The positions of the parameters of both ends of an edge. -/
def pairBounds (first second : RuleVertex) : List library.Interval :=
  (positionsOf (positions fterm) first.parameter).flatMap fun position =>
    (positionsOf (positions fterm) second.parameter).map fun other =>
      sets.atEdge (.ordered ⟨position, first.object⟩ ⟨other, second.object⟩)

/-- The pairs of constants. -/
def constantPairBounds : List library.Interval :=
  (constantPositions (positions fterm)).tails.flatMap fun
    | [] => []
    | first :: rest => rest.map fun second => sets.atEdge ⟨first, second⟩

/-- `consistent_interval` of a function term for an edge, the vertex of the smaller
parameter first. -/
def edgeInterval (first second : RuleVertex) : library.Interval :=
  library.intersectAll sets.atEmpty
    ([vertexInterval sets fterm first, vertexInterval sets fterm second] ++
      pairBounds sets fterm first second ++ constantBounds sets fterm first ++
      constantBounds sets fterm second ++ constantPairBounds sets fterm)

end

/-- `apply` on intervals. -/
def apply : ArithmeticOp → library.Interval → library.Interval → library.Interval
  | .add => library.add
  | .sub => library.sub
  | .mul => library.mul
  | .div => library.div

def applyMulti : MultiOp → library.Interval → library.Interval → library.Interval
  | .add => library.add
  | .mul => library.mul

section

variable (estimate : FunctionTerm → library.Interval)

mutual

/-- `consistent_interval` of an expression, for the estimates of its function terms. -/
def consistentInterval : FunctionExpression FunctionTerm → library.Interval
  | .number value => library.closed value value
  | .neg arg => library.neg (consistentInterval arg)
  | .binary op lhs rhs => library.apply op (consistentInterval lhs) (consistentInterval rhs)
  | .multi op front rest => accumulate op (consistentInterval front) rest
  | .fterm fterm => estimate fterm

def accumulate (op : MultiOp) (bounds : library.Interval) :
    List (FunctionExpression FunctionTerm) → library.Interval
  | [] => bounds
  | arg :: rest => accumulate op (library.applyMulti op bounds (consistentInterval arg)) rest

end

end

/-- `apply_existential`: can the comparison hold for some elements? -/
def applyExistential (op : BooleanOp) (lhs rhs : library.Interval) : Bool :=
  if library.isEmpty lhs || library.isEmpty rhs then false
  else
    match op with
    | .eq => BooleanOp.le.apply (library.lower lhs) (library.upper rhs) &&
        BooleanOp.ge.apply (library.upper lhs) (library.lower rhs)
    | .ne =>
        if BooleanOp.eq.apply (library.lower lhs) (library.upper lhs) &&
            BooleanOp.eq.apply (library.lower rhs) (library.upper rhs) then
          BooleanOp.ne.apply (library.lower lhs) (library.lower rhs)
        else true
    | .ge => BooleanOp.ge.apply (library.upper lhs) (library.lower rhs)
    | .gt => BooleanOp.gt.apply (library.upper lhs) (library.lower rhs)
    | .le => BooleanOp.le.apply (library.lower lhs) (library.upper rhs)
    | .lt => BooleanOp.lt.apply (library.lower lhs) (library.upper rhs)

/-- `consistent_numeric_constraint`. -/
def consistentConstraint (estimate : FunctionTerm → library.Interval)
    (constraint : BooleanOperator FunctionTerm) : Bool :=
  library.applyExistential constraint.op (library.consistentInterval estimate constraint.lhs)
    (library.consistentInterval estimate constraint.rhs)

/-- The tests of vertices and edges against the values. -/
def overapproximation (domains : FactKind → Nat → List (List Nat)) (values : FunctionValues) :
    NumericOverapproximation where
  consistentVertex _ constraint vertex :=
    library.consistentConstraint (fun fterm => vertexInterval
      (library.functionAssignmentSets domains values fterm.kind fterm.function) fterm vertex) constraint
  consistentEdge _ constraint first second :=
    library.consistentConstraint (fun fterm => edgeInterval
      (library.functionAssignmentSets domains values fterm.kind fterm.function) fterm first second)
      constraint

end IntervalLibrary

/-! ### Which constraints are evaluated -/

namespace ConstRuleWorkspace

variable {cws : ConstRuleWorkspace} {numeric : NumericOverapproximation} {facts : FactSets}
  {binding : List Nat} {constraint : BooleanOperator FunctionTerm}

/-- The constraint has parameters, and not more of them than the graph looks at:
its estimates are all that is tested. -/
def Estimated (cws : ConstRuleWorkspace) (constraint : BooleanOperator FunctionTerm) : Prop :=
  cws.rule.arity ≠ 0 ∧ 1 ≤ Constraint.parameterArity constraint ∧
    Constraint.parameterArity constraint ≤ if cws.rule.arity = 1 then 1 else 2

/-- The estimates by the vertices and the edges of the binding. -/
structure EstimatesPass (cws : ConstRuleWorkspace) (numeric : NumericOverapproximation)
    (facts : FactSets) (binding : List Nat) : Prop where
  vertex : ∀ p < cws.rule.arity, cws.unaryRuntime p = true →
    ∀ constraint ∈ cws.unaryOverapproximation.numericConstraints,
      numeric.consistentVertex facts.function constraint (vertexOf binding p) = true
  edge : ∀ p q, p < q → q < cws.rule.arity → cws.hasDependency p q = true →
    cws.binaryRuntime p q = true → ∀ constraint ∈ cws.binaryOverapproximation.numericConstraints,
      numeric.consistentEdge facts.function constraint (vertexOf binding p) (vertexOf binding q) = true

theorem mem_nullary_numericConstraints :
    constraint ∈ cws.rule.body.nullary.numericConstraints ↔
      constraint ∈ cws.rule.body.numericConstraints ∧ Constraint.parameterArity constraint = 0 := by
  rw [ConjunctiveCondition.nullary, ConjunctiveCondition.filter, List.mem_filter, beq_iff_eq]

theorem mem_conflicting_numericConstraints :
    constraint ∈ cws.conflictingOverapproximation.numericConstraints ↔
      constraint ∈ cws.rule.body.numericConstraints ∧
        (if cws.rule.arity = 1 then 1 else 2) < Constraint.parameterArity constraint := by
  rw [conflictingOverapproximation, ConjunctiveCondition.conflictingOverapproximation,
    ConjunctiveCondition.filter, List.mem_filter, decide_eq_true_iff,
    Constraint.kpkcArity_eq_parameterArity]

/-- The constraints that are not estimated are evaluated. -/
theorem numericAccepted_iff :
    cws.NumericAccepted numeric facts binding ↔ cws.EstimatesPass numeric facts binding ∧
      ∀ constraint ∈ cws.rule.body.numericConstraints, ¬ cws.Estimated constraint →
        facts.isValidConstraint binding constraint = true := by
  by_cases parameters : cws.rule.arity = 0
  · rw [NumericAccepted, if_pos parameters]
    constructor
    · intro valid
      refine ⟨⟨fun p inRange => ?_, fun p q before inRange => ?_⟩, fun constraint mem _ => valid constraint mem⟩
      · omega
      · omega
    · rintro ⟨_, valid⟩ constraint mem
      exact valid constraint mem fun estimated => estimated.1 parameters
  · rw [NumericAccepted, if_neg parameters]
    constructor
    · rintro ⟨vertex, edge, nullary, conflicting⟩
      refine ⟨⟨vertex, edge⟩, fun constraint mem exactly => ?_⟩
      rcases Nat.eq_zero_or_pos (Constraint.parameterArity constraint) with none | some
      · rw [FactSets.isValidConstraint_of_parameterArity_eq_zero none facts binding []]
        exact nullary constraint (mem_nullary_numericConstraints.mpr ⟨mem, none⟩)
      · refine conflicting constraint (mem_conflicting_numericConstraints.mpr ⟨mem, ?_⟩)
        by_contra few
        exact exactly ⟨parameters, some, Nat.le_of_not_lt few⟩
    · rintro ⟨estimates, valid⟩
      refine ⟨estimates.vertex, estimates.edge, fun constraint mem => ?_, fun constraint mem => ?_⟩
      · obtain ⟨inBody, none⟩ := mem_nullary_numericConstraints.mp mem
        rw [FactSets.isValidConstraint_of_parameterArity_eq_zero none facts [] binding]
        refine valid constraint inBody fun estimated => ?_
        have some := estimated.2.1
        omega
      · obtain ⟨inBody, many⟩ := mem_conflicting_numericConstraints.mp mem
        exact valid constraint inBody fun estimated => absurd estimated.2.2 (Nat.not_le_of_lt many)

/-- The facts with the listed values. -/
def withValues {predicateDomains : FactKind → Nat → List (List Nat)}
    (facts : TypedFactSets predicateDomains) (values : FunctionValues) :
    TypedFactSets predicateDomains where
  predicate := facts.predicate
  function := values.value
  full := facts.full

/-- A binding that satisfies the literals is matched iff its constraints are accepted. -/
theorem matches_iff_numericAccepted {facts : TypedFactSets cws.predicateDomains}
    {st : Kpkc.DeltaKPKC} {ws : Kpkc.Workspace}
    (reachable : Kpkc.Reachable (cws.staticConsistencyGraph numeric facts.toFactSets) st)
    (inDomains : cws.InDomains binding) (holds : cws.LiteralsHold facts.toFactSets binding) :
    cws.Matches numeric facts.toFactSets st ws binding ↔
      cws.NumericAccepted numeric facts.toFactSets binding := by
  by_cases parameters : cws.rule.arity = 0
  · rw [matches_of_no_parameters parameters]
    exact and_iff_right ⟨inDomains, holds⟩
  · rw [matches_iff parameters reachable]
    constructor
    · rintro ⟨_, _, accepted⟩
      exact accepted
    · intro accepted
      refine ⟨inDomains, fun kind literal mem => ?_, accepted⟩
      exact literalTested_of_holds inDomains mem (holds kind literal mem)

end ConstRuleWorkspace

/-- Intervals as pairs of bounds, without rounding. -/
def boundedIntervals : IntervalLibrary where
  Interval := Option (Number × Number)
  empty := none
  closed lower upper := some (lower, upper)
  isEmpty bounds := bounds.isNone
  lower bounds := (bounds.map Prod.fst).getD .nan
  upper bounds := (bounds.map Prod.snd).getD .nan
  hull
    | none, rhs => rhs
    | lhs, none => lhs
    | some (lower, upper), some (lower', upper') =>
        some (if lower.lt lower' then lower else lower', if upper.lt upper' then upper' else upper)
  intersect
    | some (lower, upper), some (lower', upper') =>
        let lower := if lower.lt lower' then lower' else lower
        let upper := if upper.lt upper' then upper else upper'
        if upper.lt lower then none else some (lower, upper)
    | _, _ => none
  neg bounds := bounds.map fun (lower, upper) => (-upper, -lower)
  add
    | some (lower, upper), some (lower', upper') => some (lower + lower', upper + upper')
    | _, _ => none
  sub
    | some (lower, upper), some (lower', upper') => some (lower - upper', upper - lower')
    | _, _ => none
  mul _ _ := some (.negInf, .posInf)
  div _ _ := some (.negInf, .posInf)

end Tyr.Datalog
