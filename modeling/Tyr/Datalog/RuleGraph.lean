import Tyr.Datalog.AssignmentSets
import Tyr.Datalog.ApplicabilityCheck
import Tyr.Datalog.StaticConsistencyGraph

/-!
The consistency graph of a rule.

The vertices of partition `p` are the objects of the domain of parameter `p`
that pass the static literals of the unary condition. A vertex or an edge is
tested against the assignment sets literal by literal: `consistentLiteral` and
`consistentParameterPair` look at the positions of one or two parameters,
`consistentWithConstants` at the positions of a parameter and of the constants.

Each test is described by the projections of the facts to the positions it looks
at (`ProjectsTo`), and the projection to all positions is the ground literal
(`projectsTo_all`).
-/

namespace Tyr.Datalog

open Tyr.Lib Tyr.Formalism Tyr.Formalism.Datalog

/-- `details::Vertex`: an object for a parameter. -/
structure RuleVertex where
  parameter : Nat
  object : Nat
deriving DecidableEq, Repr

/-! ### Positions -/

/-- `parameter_to_positions` of a literal. -/
def positionsOf (literal : Literal) (parameter : Nat) : List Nat :=
  (List.range literal.atom.terms.length).filter fun position =>
    literal.atom.terms[position]? == some (.parameter parameter)

/-- The assignment of a position whose term is a constant. -/
def constantAt (literal : Literal) (position : Nat) : Option VertexAssignment :=
  match literal.atom.terms[position]? with
  | some (.object object) => some ⟨position, object⟩
  | _ => none

/-- `constant_positions` of a literal. -/
def constantPositions (literal : Literal) : List VertexAssignment :=
  (List.range literal.atom.terms.length).filterMap (constantAt literal)

theorem mem_positionsOf {literal : Literal} {parameter position : Nat} :
    position ∈ positionsOf literal parameter ↔
      literal.atom.terms[position]? = some (.parameter parameter) := by
  rw [positionsOf, List.mem_filter, List.mem_range, beq_iff_eq]
  exact and_iff_right_of_imp fun found => (List.getElem?_eq_some_iff.mp found).1

theorem constantAt_eq_some {literal : Literal} {position : Nat} {constant : VertexAssignment} :
    constantAt literal position = some constant ↔
      position = constant.index ∧
        literal.atom.terms[constant.index]? = some (.object constant.object) := by
  unfold constantAt
  split
  · next object found =>
      rw [Option.some.injEq]
      constructor
      · rintro rfl
        exact ⟨rfl, found⟩
      · rintro ⟨rfl, same⟩
        rw [found] at same
        cases same
        rfl
  · next noObject =>
      apply iff_of_false (Option.some_ne_none _).symm
      rintro ⟨rfl, found⟩
      exact noObject _ found

theorem mem_constantPositions {literal : Literal} {constant : VertexAssignment} :
    constant ∈ constantPositions literal ↔
      literal.atom.terms[constant.index]? = some (.object constant.object) := by
  rw [constantPositions, List.mem_filterMap]
  constructor
  · rintro ⟨position, _, found⟩
    exact (constantAt_eq_some.mp found).2
  · intro found
    exact ⟨constant.index, List.mem_range.mpr (List.getElem?_eq_some_iff.mp found).1,
      constantAt_eq_some.mpr ⟨rfl, found⟩⟩

/-! ### Tests of one literal -/

section

variable (set : PredicateAssignmentSet) (literal : Literal)

/-- The positions of a vertex's parameter against the positions of the constants. -/
def consistentWithConstants (vertex : RuleVertex) : Bool :=
  (positionsOf literal vertex.parameter).all fun position =>
    (constantPositions literal).all fun constant =>
      literal.polarity == set.testEdge (.ordered ⟨position, vertex.object⟩ constant)

/-- The body of the loop of `consistent_literals` for a vertex. -/
def consistentLiteral (vertex : RuleVertex) : Bool :=
  ((positionsOf literal vertex.parameter).all fun position =>
    (literal.polarity == set.testVertex ⟨position, vertex.object⟩) &&
      (constantPositions literal).all fun constant =>
        literal.polarity == set.testEdge (.ordered ⟨position, vertex.object⟩ constant)) &&
  (constantPositions literal).all fun constant => literal.polarity == set.testVertex constant

/-- The positions of the parameters of both ends of an edge. -/
def consistentParameterPair (first second : RuleVertex) : Bool :=
  (positionsOf literal first.parameter).all fun position =>
    (positionsOf literal second.parameter).all fun other =>
      literal.polarity ==
        set.testEdge (.ordered ⟨position, first.object⟩ ⟨other, second.object⟩)

end

/-- The literal mentions the parameter. -/
def mentions (literal : Literal) (parameter : Nat) : Bool :=
  (collectParameters literal).contains parameter

theorem mentions_iff {literal : Literal} {parameter : Nat} :
    mentions literal parameter = true ↔ .parameter parameter ∈ literal.atom.terms := by
  rw [mentions, List.contains_iff_mem, collectParameters, mem_parametersOfTerms]

/-- `consistent_literals` for a vertex. -/
def consistentLiterals (sets : PredicateAssignmentSets) (literals : List Literal)
    (vertex : RuleVertex) : Bool :=
  literals.all fun literal => !mentions literal vertex.parameter ||
    consistentLiteral (sets literal.atom.predicate) literal vertex

/-- The literals with constants that mention the parameter of a vertex. -/
def consistentConstantLiterals (sets : PredicateAssignmentSets) (literals : List Literal)
    (vertex : RuleVertex) : Bool :=
  literals.all fun literal => !mentions literal vertex.parameter ||
    consistentWithConstants (sets literal.atom.predicate) literal vertex

/-- `consistent_literals` for an edge, the vertex of the smaller parameter first. -/
def consistentEdgeLiterals (sets : PredicateAssignmentSets) (literals : List Literal)
    (first second : RuleVertex) : Bool :=
  (literals.all fun literal =>
    !(mentions literal first.parameter && mentions literal second.parameter) ||
      consistentParameterPair (sets literal.atom.predicate) literal first second) &&
  consistentConstantLiterals sets literals first && consistentConstantLiterals sets literals second

/-! ### Tests and projections -/

/-- Some fact has the objects of the ground literal at the given positions. -/
def ProjectsTo (facts : List Tuple) (binding : List Nat) (literal : Literal) (positions : List Nat) :
    Prop :=
  ∃ fact ∈ facts, fact.relation = literal.atom.predicate ∧
    ∀ position ∈ positions,
      fact.objects[position]? = (literal.atom.ground binding).objects[position]?

theorem ProjectsTo.mono {facts : List Tuple} {binding : List Nat} {literal : Literal}
    {positions fewer : List Nat} (sub : fewer ⊆ positions)
    (projects : ProjectsTo facts binding literal positions) :
    ProjectsTo facts binding literal fewer := by
  obtain ⟨fact, mem, relation, agree⟩ := projects
  exact ⟨fact, mem, relation, fun position inFewer => agree position (sub inFewer)⟩

theorem ground_getElem? {binding : List Nat} {literal : Literal} {position : Nat} {term : Term}
    (found : literal.atom.terms[position]? = some term) :
    (literal.atom.ground binding).objects[position]? = some (term.ground binding) := by
  rw [Atom.ground, List.getElem?_map, found, Option.map_some]

/-- Objects of the ground literal lie in the domains of their positions. -/
def Covered (domains : Nat → List (List Nat)) (binding : List Nat) (literal : Literal) : Prop :=
  ∀ position term, literal.atom.terms[position]? = some term →
    (PerfectAssignmentHash.mk (domains literal.atom.predicate)).Contains
      ⟨position, term.ground binding⟩

theorem ne_of_terms {literal : Literal} {position other parameter object : Nat}
    (found : literal.atom.terms[position]? = some (.parameter parameter))
    (found' : literal.atom.terms[other]? = some (.object object)) : position ≠ other := by
  rintro rfl
  rw [found] at found'
  cases found'

/-- The vertex of a parameter under a binding. -/
def vertexOf (binding : List Nat) (parameter : Nat) : RuleVertex :=
  ⟨parameter, binding.getD parameter 0⟩

section

variable {domains : Nat → List (List Nat)} {facts : List Tuple} {binding : List Nat}
  {literal : Literal}
  (full : ∀ fact ∈ facts, fact.objects.length = (domains fact.relation).length)
  (covered : Covered domains binding literal)

include full

/-- The projection to all positions is the ground literal. -/
theorem projectsTo_all
    (arity : literal.atom.terms.length = (domains literal.atom.predicate).length) :
    ProjectsTo facts binding literal (List.range literal.atom.terms.length) ↔
      literal.atom.ground binding ∈ facts := by
  constructor
  · rintro ⟨fact, mem, relation, agree⟩
    have objects : fact.objects = (literal.atom.ground binding).objects := by
      have length : fact.objects.length = (literal.atom.ground binding).objects.length := by
        rw [full fact mem, relation, ← arity, Atom.ground, List.length_map]
      refine List.ext_getElem? fun position => ?_
      by_cases inRange : position < literal.atom.terms.length
      · exact agree position (List.mem_range.mpr inRange)
      · have beyond : literal.atom.terms.length ≤ position := Nat.le_of_not_lt inRange
        rw [List.getElem?_eq_none, List.getElem?_eq_none]
        · rwa [Atom.ground, List.length_map]
        · rwa [length, Atom.ground, List.length_map]
    obtain ⟨name, tuple⟩ := fact
    obtain rfl : name = literal.atom.predicate := relation
    obtain rfl : tuple = (literal.atom.ground binding).objects := objects
    exact mem
  · intro mem
    exact ⟨_, mem, rfl, fun _ _ => rfl⟩

include covered

/-- The polarity agrees with the test of a position. -/
theorem agreesVertex_iff {position : Nat} {term : Term} {object : Nat}
    (found : literal.atom.terms[position]? = some term) (value : term.ground binding = object) :
    literal.polarity = (PredicateAssignmentSets.ofFacts domains facts
        literal.atom.predicate).testVertex ⟨position, object⟩ ↔
      (literal.polarity = true ↔ ProjectsTo facts binding literal [position]) := by
  subst value
  rw [Bool.eq_iff_iff, PredicateAssignmentSets.test_vertex_iff full (covered position term found)]
  simp only [ProjectsTo, List.mem_singleton, forall_eq, ground_getElem? found]

/-- The polarity agrees with the test of two positions. -/
theorem agreesOrdered_iff {position other : Nat} {term term' : Term} {object object' : Nat}
    (different : position ≠ other)
    (found : literal.atom.terms[position]? = some term) (value : term.ground binding = object)
    (found' : literal.atom.terms[other]? = some term') (value' : term'.ground binding = object') :
    literal.polarity = (PredicateAssignmentSets.ofFacts domains facts
        literal.atom.predicate).testEdge (.ordered ⟨position, object⟩ ⟨other, object'⟩) ↔
      (literal.polarity = true ↔ ProjectsTo facts binding literal [position, other]) := by
  subst value value'
  rw [Bool.eq_iff_iff, PredicateAssignmentSets.test_ordered_iff full different
    (covered position term found) (covered other term' found')]
  simp only [ProjectsTo, List.mem_cons, List.not_mem_nil, or_false, forall_eq_or_imp, forall_eq,
    ground_getElem? found, ground_getElem? found']

theorem consistentWithConstants_iff {parameter : Nat} :
    consistentWithConstants (PredicateAssignmentSets.ofFacts domains facts literal.atom.predicate)
        literal (vertexOf binding parameter) = true ↔
      ∀ position other object, literal.atom.terms[position]? = some (.parameter parameter) →
        literal.atom.terms[other]? = some (.object object) →
        (literal.polarity = true ↔ ProjectsTo facts binding literal [position, other]) := by
  simp only [consistentWithConstants, List.all_eq_true, mem_positionsOf, mem_constantPositions,
    beq_iff_eq]
  constructor
  · intro tests position other object found found'
    have test := tests position found ⟨other, object⟩ found'
    exact (agreesOrdered_iff full covered (ne_of_terms found found') found rfl found' rfl).mp test
  · rintro tests position found ⟨other, object⟩ found'
    have agrees := tests position other object found found'
    exact (agreesOrdered_iff full covered (ne_of_terms found found') found rfl found' rfl).mpr agrees

theorem consistentLiteral_iff {parameter : Nat} :
    consistentLiteral (PredicateAssignmentSets.ofFacts domains facts literal.atom.predicate)
        literal (vertexOf binding parameter) = true ↔
      (∀ position, literal.atom.terms[position]? = some (.parameter parameter) →
        (literal.polarity = true ↔ ProjectsTo facts binding literal [position])) ∧
      (∀ position other object, literal.atom.terms[position]? = some (.parameter parameter) →
        literal.atom.terms[other]? = some (.object object) →
        (literal.polarity = true ↔ ProjectsTo facts binding literal [position, other])) ∧
      ∀ position object, literal.atom.terms[position]? = some (.object object) →
        (literal.polarity = true ↔ ProjectsTo facts binding literal [position]) := by
  rw [← consistentWithConstants_iff full covered]
  simp only [consistentLiteral, consistentWithConstants, Bool.and_eq_true, List.all_eq_true,
    mem_positionsOf, mem_constantPositions, beq_iff_eq, forall_and, and_assoc]
  apply and_congr
  · exact forall₂_congr fun position found => agreesVertex_iff full covered found rfl
  · apply and_congr_right
    intro _
    constructor
    · intro tests position object found
      exact (agreesVertex_iff full covered found rfl).mp (tests ⟨position, object⟩ found)
    · rintro tests ⟨position, object⟩ found
      exact (agreesVertex_iff full covered found rfl).mpr (tests position object found)

theorem consistentParameterPair_iff {parameter parameter' : Nat} (different : parameter ≠ parameter') :
    consistentParameterPair (PredicateAssignmentSets.ofFacts domains facts literal.atom.predicate)
        literal (vertexOf binding parameter) (vertexOf binding parameter') = true ↔
      ∀ position other, literal.atom.terms[position]? = some (.parameter parameter) →
        literal.atom.terms[other]? = some (.parameter parameter') →
        (literal.polarity = true ↔ ProjectsTo facts binding literal [position, other]) := by
  have separate : ∀ {position other : Nat}, literal.atom.terms[position]? = some (.parameter parameter) →
      literal.atom.terms[other]? = some (.parameter parameter') → position ≠ other := by
    rintro position other found found' rfl
    rw [found] at found'
    cases found'
    exact different rfl
  simp only [consistentParameterPair, List.all_eq_true, mem_positionsOf, beq_iff_eq]
  constructor
  · intro tests position other found found'
    have test := tests position found other found'
    exact (agreesOrdered_iff full covered (separate found found') found rfl found' rfl).mp test
  · intro tests position found other found'
    have agrees := tests position other found found'
    exact (agreesOrdered_iff full covered (separate found found') found rfl found' rfl).mpr agrees

/-! ### Exact tests -/

omit full covered in
/-- A fact has all projections. -/
theorem projectsTo_of_mem (mem : literal.atom.ground binding ∈ facts) (positions : List Nat) :
    ProjectsTo facts binding literal positions :=
  ⟨_, mem, rfl, fun _ _ => rfl⟩

omit covered in
/-- The projection to both positions of a binary literal is the ground literal. -/
theorem projectsTo_pair
    (arity : literal.atom.terms.length = (domains literal.atom.predicate).length)
    (binary : literal.atom.terms.length = 2) {position other : Nat} (different : position ≠ other)
    (inRange : position < 2) (inRange' : other < 2) :
    ProjectsTo facts binding literal [position, other] ↔ literal.atom.ground binding ∈ facts := by
  rw [← projectsTo_all full arity, binary]
  constructor
  · apply ProjectsTo.mono
    intro i mem
    have := List.mem_range.mp mem
    simp only [List.mem_cons, List.not_mem_nil, or_false]
    omega
  · apply ProjectsTo.mono
    intro i mem
    simp only [List.mem_cons, List.not_mem_nil, or_false] at mem
    exact List.mem_range.mpr (by omega)

/-- A true positive literal passes every test of its vertices. -/
theorem consistentLiteral_of_mem {parameter : Nat} (positive : literal.polarity = true)
    (mem : literal.atom.ground binding ∈ facts) :
    consistentLiteral (PredicateAssignmentSets.ofFacts domains facts literal.atom.predicate)
      literal (vertexOf binding parameter) = true := by
  rw [consistentLiteral_iff full covered]
  exact ⟨fun _ _ => iff_of_true positive (projectsTo_of_mem mem _),
    fun _ _ _ _ _ => iff_of_true positive (projectsTo_of_mem mem _),
    fun _ _ _ => iff_of_true positive (projectsTo_of_mem mem _)⟩

/-- The test of the vertex of a unary literal is exact. -/
theorem consistentLiteral_unary
    (arity : literal.atom.terms.length = (domains literal.atom.predicate).length)
    {parameter : Nat} (unary : literal.atom.terms = [.parameter parameter]) :
    consistentLiteral (PredicateAssignmentSets.ofFacts domains facts literal.atom.predicate)
        literal (vertexOf binding parameter) = true ↔
      (literal.atom.ground binding ∈ facts ↔ literal.polarity = true) := by
  have whole : ProjectsTo facts binding literal [0] ↔ literal.atom.ground binding ∈ facts := by
    rw [← projectsTo_all full arity, unary]
    rfl
  have noConstant : ∀ {position object : Nat},
      literal.atom.terms[position]? ≠ some (.object object) := by
    intro position object found
    rw [unary] at found
    cases position with
    | zero => cases found
    | succ => cases found
  rw [consistentLiteral_iff full covered, ← whole, iff_comm (b := literal.polarity = true)]
  constructor
  · rintro ⟨positions, _, _⟩
    exact positions 0 (by rw [unary]; rfl)
  · intro agrees
    refine ⟨fun position found => ?_, fun _ _ _ _ found => absurd found noConstant,
      fun _ _ found => absurd found noConstant⟩
    cases position with
    | zero => exact agrees
    | succ =>
        rw [unary] at found
        cases found

/-- The test of the vertex of a positive binary literal with a constant is exact. -/
theorem consistentLiteral_constant
    (arity : literal.atom.terms.length = (domains literal.atom.predicate).length)
    (binary : literal.atom.terms.length = 2) (positive : literal.polarity = true)
    {parameter object position other : Nat}
    (found : literal.atom.terms[position]? = some (.parameter parameter))
    (found' : literal.atom.terms[other]? = some (.object object)) :
    consistentLiteral (PredicateAssignmentSets.ofFacts domains facts literal.atom.predicate)
        literal (vertexOf binding parameter) = true ↔ literal.atom.ground binding ∈ facts := by
  constructor
  · intro test
    obtain ⟨_, pairs, _⟩ := (consistentLiteral_iff full covered).mp test
    have inRange := (List.getElem?_eq_some_iff.mp found).1
    have inRange' := (List.getElem?_eq_some_iff.mp found').1
    rw [← projectsTo_pair full arity binary (ne_of_terms found found') (by omega) (by omega)]
    exact (pairs position other object found found').mp positive
  · exact consistentLiteral_of_mem full covered positive

/-- The test of the vertex of a positive literal `P(x, x)` looks at the two
positions one by one. -/
theorem consistentLiteral_repeated {parameter : Nat} (positive : literal.polarity = true)
    (repeated : literal.atom.terms = [.parameter parameter, .parameter parameter]) :
    consistentLiteral (PredicateAssignmentSets.ofFacts domains facts literal.atom.predicate)
        literal (vertexOf binding parameter) = true ↔
      ProjectsTo facts binding literal [0] ∧ ProjectsTo facts binding literal [1] := by
  have isPosition : ∀ {position : Nat} {term : Term},
      literal.atom.terms[position]? = some term → (position = 0 ∨ position = 1) ∧
        term = .parameter parameter := by
    intro position term found
    rw [repeated] at found
    match position with
    | 0 => exact ⟨.inl rfl, (Option.some.inj found).symm⟩
    | 1 => exact ⟨.inr rfl, (Option.some.inj found).symm⟩
    | _ + 2 => cases found
  rw [consistentLiteral_iff full covered]
  constructor
  · rintro ⟨positions, _, _⟩
    exact ⟨(positions 0 (by rw [repeated]; rfl)).mp positive,
      (positions 1 (by rw [repeated]; rfl)).mp positive⟩
  · rintro ⟨first, second⟩
    refine ⟨fun position found => ?_, fun _ _ _ _ found => ?_, fun _ _ found => ?_⟩
    · obtain ⟨rfl | rfl, _⟩ := isPosition found
      · exact iff_of_true positive first
      · exact iff_of_true positive second
    · cases (isPosition found).2
    · cases (isPosition found).2

/-- The test of the edge of a binary literal with two parameters is exact. -/
theorem consistentParameterPair_binary
    (arity : literal.atom.terms.length = (domains literal.atom.predicate).length)
    (binary : literal.atom.terms.length = 2) {parameter parameter' position other : Nat}
    (different : parameter ≠ parameter')
    (found : literal.atom.terms[position]? = some (.parameter parameter))
    (found' : literal.atom.terms[other]? = some (.parameter parameter')) :
    consistentParameterPair (PredicateAssignmentSets.ofFacts domains facts literal.atom.predicate)
        literal (vertexOf binding parameter) (vertexOf binding parameter') = true ↔
      (literal.atom.ground binding ∈ facts ↔ literal.polarity = true) := by
  have whole : ∀ {i j : Nat}, literal.atom.terms[i]? = some (.parameter parameter) →
      literal.atom.terms[j]? = some (.parameter parameter') →
      (ProjectsTo facts binding literal [i, j] ↔ literal.atom.ground binding ∈ facts) := by
    intro i j atI atJ
    have inRange := (List.getElem?_eq_some_iff.mp atI).1
    have inRange' := (List.getElem?_eq_some_iff.mp atJ).1
    apply projectsTo_pair full arity binary _ (by omega) (by omega)
    rintro rfl
    rw [atI] at atJ
    cases atJ
    exact different rfl
  rw [consistentParameterPair_iff full covered different, iff_comm (b := literal.polarity = true)]
  constructor
  · intro tests
    rw [← whole found found']
    exact tests position other found found'
  · intro agrees i j atI atJ
    rw [whole atI atJ]
    exact agrees

/-- The test of a parameter against the constants of a binary literal is exact. -/
theorem consistentWithConstants_binary
    (arity : literal.atom.terms.length = (domains literal.atom.predicate).length)
    (binary : literal.atom.terms.length = 2) {parameter object position other : Nat}
    (found : literal.atom.terms[position]? = some (.parameter parameter))
    (found' : literal.atom.terms[other]? = some (.object object)) :
    consistentWithConstants (PredicateAssignmentSets.ofFacts domains facts literal.atom.predicate)
        literal (vertexOf binding parameter) = true ↔
      (literal.atom.ground binding ∈ facts ↔ literal.polarity = true) := by
  have whole : ∀ {i j c : Nat}, literal.atom.terms[i]? = some (.parameter parameter) →
      literal.atom.terms[j]? = some (.object c) →
      (ProjectsTo facts binding literal [i, j] ↔ literal.atom.ground binding ∈ facts) := by
    intro i j c atI atJ
    have inRange := (List.getElem?_eq_some_iff.mp atI).1
    have inRange' := (List.getElem?_eq_some_iff.mp atJ).1
    exact projectsTo_pair full arity binary (ne_of_terms atI atJ) (by omega) (by omega)
  rw [consistentWithConstants_iff full covered, iff_comm (b := literal.polarity = true)]
  constructor
  · intro tests
    rw [← whole found found']
    exact tests position other object found found'
  · intro agrees i j c atI atJ
    rw [whole atI atJ]
    exact agrees

end

end Tyr.Datalog
