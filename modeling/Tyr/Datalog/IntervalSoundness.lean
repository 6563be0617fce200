import Tyr.Datalog.NumericIntervals
import Tyr.Formalism.ExactEvaluation

/-!
Soundness of the interval estimates of numeric constraints.

Numbers are rational or undefined, and comparisons are exact. The interval library
encloses the results of its operations. Then the estimate of a vertex or an edge
encloses every defined value of a constraint under the bindings that extend it, so
a constraint that holds for defined values passes. An inequality also holds of an
undefined value, which no interval contains.

* `Enclosure`, `PropagatesEmpty` — what is assumed of the library.
* `FunctionAssignmentSet.Covers` — an inserted value is in the hulls of its projections.
* `encloses_consistentInterval` — estimates enclose values.
* `overapproximation_sound_iff` — which constraints are estimated soundly.
-/

namespace Tyr.Datalog

open Tyr.Lib Tyr.Formalism Tyr.Formalism.Datalog Number

/-- The listed values are rational or undefined. -/
def FunctionValues.IsRational (values : FunctionValues) : Prop :=
  ∀ kind, ∀ entry ∈ values.entries kind, entry.2.IsRational

/-- The values of the function terms under a binding. -/
def FunctionValues.valuation (values : FunctionValues) (binding : List Nat) (fterm : FunctionTerm) :
    Number :=
  values.value fterm.kind ⟨fterm.function, fterm.terms.map (Term.ground binding)⟩

namespace IntervalLibrary

variable (library : IntervalLibrary)

/-! ### The interval library -/

/-- The rationals in an interval. The operations enclose their results. -/
structure Enclosure where
  Contains : library.Interval → ℚ → Prop
  closed : ∀ v, Contains (library.closed (finite v) (finite v)) v
  hull_left : ∀ {a b v}, Contains a v → Contains (library.hull a b) v
  hull_right : ∀ {a b v}, Contains b v → Contains (library.hull a b) v
  intersect : ∀ {a b v}, Contains a v → Contains b v → Contains (library.intersect a b) v
  neg : ∀ {a x}, Contains a x → Contains (library.neg a) (-x)
  add : ∀ {a b x y}, Contains a x → Contains b y → Contains (library.add a b) (x + y)
  sub : ∀ {a b x y}, Contains a x → Contains b y → Contains (library.sub a b) (x - y)
  mul : ∀ {a b x y}, Contains a x → Contains b y → Contains (library.mul a b) (x * y)
  div : ∀ {a b x y}, Contains a x → Contains b y → y ≠ 0 → Contains (library.div a b) (x / y)
  nonempty : ∀ {a v}, Contains a v → library.isEmpty a = false
  lower_le : ∀ {a v}, Contains a v → (library.lower a).le (finite v) = true
  le_upper : ∀ {a v}, Contains a v → (finite v).le (library.upper a) = true

/-- The operations propagate empty intervals. -/
structure PropagatesEmpty : Prop where
  empty : library.isEmpty library.empty = true
  neg : ∀ {a}, library.isEmpty a = true → library.isEmpty (library.neg a) = true
  apply : ∀ op {a b}, library.isEmpty a = true ∨ library.isEmpty b = true →
    library.isEmpty (library.apply op a b) = true

/-! ### Estimates with a given comparison -/

/-- `apply_existential` with a given comparison of numbers. -/
def applyExistentialWith (compare : BooleanOp → Number → Number → Bool) (op : BooleanOp)
    (lhs rhs : library.Interval) : Bool :=
  if library.isEmpty lhs || library.isEmpty rhs then false
  else
    match op with
    | .eq => compare .le (library.lower lhs) (library.upper rhs) &&
        compare .ge (library.upper lhs) (library.lower rhs)
    | .ne =>
        if compare .eq (library.lower lhs) (library.upper lhs) &&
            compare .eq (library.lower rhs) (library.upper rhs) then
          compare .ne (library.lower lhs) (library.lower rhs)
        else true
    | .ge => compare .ge (library.upper lhs) (library.lower rhs)
    | .gt => compare .gt (library.upper lhs) (library.lower rhs)
    | .le => compare .le (library.lower lhs) (library.upper rhs)
    | .lt => compare .lt (library.lower lhs) (library.upper rhs)

theorem applyExistential_eq_applyExistentialWith :
    library.applyExistential = library.applyExistentialWith BooleanOp.apply := rfl

/-- `consistent_numeric_constraint` with a given comparison. -/
def consistentConstraintWith (compare : BooleanOp → Number → Number → Bool)
    (estimate : FunctionTerm → library.Interval) (constraint : BooleanOperator FunctionTerm) : Bool :=
  library.applyExistentialWith compare constraint.op
    (library.consistentInterval estimate constraint.lhs)
    (library.consistentInterval estimate constraint.rhs)

/-- The tests of vertices and edges with a given comparison. -/
def overapproximationWith (compare : BooleanOp → Number → Number → Bool)
    (domains : FactKind → Nat → List (List Nat)) (values : FunctionValues) :
    NumericOverapproximation where
  consistentVertex _ constraint vertex :=
    library.consistentConstraintWith compare (fun fterm => vertexInterval
      (library.functionAssignmentSets domains values fterm.kind fterm.function) fterm vertex) constraint
  consistentEdge _ constraint first second :=
    library.consistentConstraintWith compare (fun fterm => edgeInterval
      (library.functionAssignmentSets domains values fterm.kind fterm.function) fterm first second)
      constraint

theorem overapproximation_eq_overapproximationWith :
    library.overapproximation = library.overapproximationWith BooleanOp.apply := rfl

/-! ### Assignment sets -/

section

variable {library} (enclosure : library.Enclosure)

namespace FunctionAssignmentSet

/-- The later set has the ranks of the earlier one and wider intervals. -/
structure Widens (before after : library.FunctionAssignmentSet) : Prop where
  hash : after.hash = before.hash
  set : ∀ {rank v}, enclosure.Contains (before.set rank) v → enclosure.Contains (after.set rank) v

/-- A value is in the intervals of all assignments of its objects. -/
structure Covers (sets : library.FunctionAssignmentSet) (objects : List Nat) (v : ℚ) : Prop where
  empty : enclosure.Contains sets.atEmpty v
  vertex : ∀ a : VertexAssignment, objects[a.index]? = some a.object →
    enclosure.Contains (sets.atVertex a) v
  edge : ∀ a b : VertexAssignment, a.index < b.index → objects[a.index]? = some a.object →
    objects[b.index]? = some b.object → enclosure.Contains (sets.atEdge ⟨a, b⟩) v

variable {enclosure} {sets before after : library.FunctionAssignmentSet} {objects : List Nat} {v : ℚ}

theorem Widens.trans {last : library.FunctionAssignmentSet} (first : Widens enclosure before after)
    (second : Widens enclosure after last) : Widens enclosure before last :=
  ⟨second.hash.trans first.hash, fun contains => second.set (first.set contains)⟩

theorem Covers.widen (covers : Covers enclosure before objects v)
    (widens : Widens enclosure before after) : Covers enclosure after objects v where
  empty := widens.set covers.empty
  vertex a found := by
    rw [atVertex, widens.hash]
    exact widens.set (covers.vertex a found)
  edge a b order foundA foundB := by
    rw [atEdge, widens.hash]
    exact widens.set (covers.edge a b order foundA foundB)

theorem extend_set (value : Number) (rank : Nat) : (sets.extend value rank).set =
    Function.update sets.set rank (library.hull (sets.set rank) (library.closed value value)) := rfl

theorem widens_extend (value : Number) (rank : Nat) :
    Widens enclosure sets (sets.extend value rank) := by
  refine ⟨rfl, ?_⟩
  intro other v contains
  rw [extend_set]
  by_cases same : other = rank
  · subst same
    rw [Function.update_self]
    exact enclosure.hull_left contains
  · rw [Function.update_of_ne same]
    exact contains

theorem extend_contains (rank : Nat) :
    enclosure.Contains ((sets.extend (finite v) rank).set rank) v := by
  rw [extend_set, Function.update_self]
  exact enclosure.hull_right (enclosure.closed v)

theorem widens_insertPosition (value : Number) (first : Nat) :
    Widens enclosure sets (insertPosition objects value sets first) := by
  unfold insertPosition
  apply foldl_invariant (P := Widens enclosure sets)
  · intro state widens second _
    exact widens.trans (widens_extend value _)
  · exact widens_extend value _

theorem widens_insert (value : Number) : Widens enclosure sets (sets.insert objects value) := by
  unfold insert
  apply foldl_invariant (P := Widens enclosure sets)
  · intro state widens first _
    exact widens.trans (widens_insertPosition value first)
  · exact widens_extend value 0

/-- A position inserts the value at its vertex assignment. -/
theorem insertPosition_vertex {first object : Nat} (found : objects[first]? = some object) :
    enclosure.Contains ((insertPosition objects (finite v) sets first).atVertex ⟨first, object⟩) v := by
  have isObject : objects.getD first 0 = object := by
    rw [List.getD_eq_getElem?_getD, found, Option.getD_some]
  have inserted : enclosure.Contains
      ((sets.extend (finite v) (sets.hash.vertexRank ⟨first, objects.getD first 0⟩)).atVertex
        ⟨first, object⟩) v := by
    rw [isObject]
    exact extend_contains _
  unfold insertPosition
  apply foldl_invariant
    (P := fun s : library.FunctionAssignmentSet => enclosure.Contains (s.atVertex ⟨first, object⟩) v)
  · intro state contains second _
    exact (widens_extend _ _).set contains
  · exact inserted

/-- A position inserts the value at its edge assignments with the later positions. -/
theorem insertPosition_edge {a b : VertexAssignment} (order : a.index < b.index)
    (foundA : objects[a.index]? = some a.object) (foundB : objects[b.index]? = some b.object) :
    enclosure.Contains ((insertPosition objects (finite v) sets a.index).atEdge ⟨a, b⟩) v := by
  have assignment : edgeAssignment objects a.index b.index = ⟨a, b⟩ := by
    rw [edgeAssignment, List.getD_eq_getElem?_getD, List.getD_eq_getElem?_getD, foundA, foundB]
    rfl
  have inRange : b.index < objects.length := (List.getElem?_eq_some_iff.mp foundB).1
  have visited : b.index ∈ List.range' (a.index + 1) (objects.length - (a.index + 1)) := by
    rw [List.mem_range'_1]
    omega
  unfold insertPosition
  refine foldl_establishes (P := fun _ => True)
    (fun s : library.FunctionAssignmentSet => enclosure.Contains (s.atEdge ⟨a, b⟩) v)
    (fun _ _ _ _ => trivial) ?_ visited ?_ trivial
  · intro state _ second _ contains
    exact (widens_extend _ _).set contains
  · intro state _
    rw [assignment]
    exact extend_contains _

/-- After its insertion a value is in the intervals of all its assignments. -/
theorem covers_insert : Covers enclosure (sets.insert objects (finite v)) objects v := by
  have visited : ∀ {index object : Nat}, objects[index]? = some object →
      index ∈ List.range objects.length := by
    intro index object found
    exact List.mem_range.mpr (List.getElem?_eq_some_iff.mp found).1
  refine ⟨?_, fun a found => ?_, fun a b order foundA foundB => ?_⟩
  · unfold insert
    apply foldl_invariant
      (P := fun s : library.FunctionAssignmentSet => enclosure.Contains s.atEmpty v)
    · intro state contains first _
      exact (widens_insertPosition _ _).set contains
    · exact extend_contains 0
  · unfold insert
    refine foldl_establishes (P := fun _ => True)
      (fun s : library.FunctionAssignmentSet => enclosure.Contains (s.atVertex a) v)
      (fun _ _ _ _ => trivial) ?_ (visited found) ?_ trivial
    · intro state _ first _ contains
      have widens : Widens enclosure state (insertPosition objects (finite v) state first) :=
        widens_insertPosition (finite v) first
      rw [atVertex, widens.hash]
      exact widens.set contains
    · intro state _
      exact insertPosition_vertex found
  · unfold insert
    refine foldl_establishes (P := fun _ => True)
      (fun s : library.FunctionAssignmentSet => enclosure.Contains (s.atEdge ⟨a, b⟩) v)
      (fun _ _ _ _ => trivial) ?_ (visited foundA) ?_ trivial
    · intro state _ first _ contains
      have widens : Widens enclosure state (insertPosition objects (finite v) state first) :=
        widens_insertPosition (finite v) first
      rw [atEdge, widens.hash]
      exact widens.set contains
    · intro state _
      exact insertPosition_edge order foundA foundB

end FunctionAssignmentSet

open FunctionAssignmentSet

variable {enclosure} {domains : FactKind → Nat → List (List Nat)} {values : FunctionValues}
  {kind : FactKind} {v : ℚ}

/-- The sets cover every listed value. -/
theorem covers_functionAssignmentSets {term : Tuple}
    (listed : (term, finite v) ∈ values.entries kind) :
    Covers enclosure (library.functionAssignmentSets domains values kind term.relation)
      term.objects v := by
  unfold functionAssignmentSets
  refine foldl_establishes (P := fun _ => True)
    (fun sets : Nat → library.FunctionAssignmentSet =>
      Covers enclosure (sets term.relation) term.objects v)
    (fun _ _ _ _ => trivial) ?_ listed ?_ trivial
  · intro sets _ entry _ covers
    by_cases same : term.relation = entry.1.relation
    · rw [← same, Function.update_self]
      exact covers.widen (widens_insert entry.2)
    · rw [Function.update_of_ne same]
      exact covers
  · intro sets _
    rw [Function.update_self]
    exact covers_insert

theorem mem_entries_of_value {term : Tuple} {x : Number} (defined : x ≠ nan)
    (found : values.value kind term = x) : (term, x) ∈ values.entries kind := by
  unfold FunctionValues.value at found
  cases lookup : (values.entries kind).lookup term with
  | none =>
      rw [lookup, Option.getD_none] at found
      exact absurd found.symm defined
  | some value =>
      rw [lookup, Option.getD_some] at found
      subst found
      obtain ⟨front, back, split, _⟩ := List.lookup_eq_some_iff.mp lookup
      rw [split]
      exact List.mem_append_right front List.mem_cons_self

/-! ### Function terms -/

theorem intersectAll_contains {bounds : library.Interval} {intervals : List library.Interval}
    (contains : enclosure.Contains bounds v) (all : ∀ next ∈ intervals, enclosure.Contains next v) :
    enclosure.Contains (library.intersectAll bounds intervals) v := by
  induction intervals generalizing bounds with
  | nil => exact contains
  | cons next rest ih =>
      rw [intersectAll]
      split
      · exact contains
      · apply ih (enclosure.intersect contains (all next List.mem_cons_self))
        intro other mem
        exact all other (List.mem_cons_of_mem next mem)

/-- The objects of a function term under a binding. -/
def groundObjects (binding : List Nat) (fterm : FunctionTerm) : List Nat :=
  fterm.terms.map (Term.ground binding)

variable {sets : library.FunctionAssignmentSet} {fterm : FunctionTerm} {binding : List Nat}
  {vertex first second : RuleVertex}

/-- The binding gives the parameter of the vertex its object. -/
def Extends (binding : List Nat) (vertex : RuleVertex) : Prop :=
  binding[vertex.parameter]? = some vertex.object

theorem getElem?_of_mem_positionsOf {position : Nat} (extending : Extends binding vertex)
    (mem : position ∈ positionsOf (positions fterm) vertex.parameter) :
    (groundObjects binding fterm)[position]? = some vertex.object := by
  have term : fterm.terms[position]? = some (.parameter vertex.parameter) := mem_positionsOf.mp mem
  rw [groundObjects, List.getElem?_map, term, Option.map_some, Term.ground,
    List.getD_eq_getElem?_getD, extending, Option.getD_some]

theorem getElem?_of_mem_constantPositions {constant : VertexAssignment}
    (mem : constant ∈ constantPositions (positions fterm)) :
    (groundObjects binding fterm)[constant.index]? = some constant.object := by
  have term : fterm.terms[constant.index]? = some (.object constant.object) :=
    mem_constantPositions.mp mem
  rw [groundObjects, List.getElem?_map, term]
  rfl

/-- Two positions with different terms are different. -/
theorem ne_of_terms_ne {position other : Nat} {term term' : Term}
    (found : fterm.terms[position]? = some term) (found' : fterm.terms[other]? = some term')
    (different : term ≠ term') : position ≠ other := by
  rintro rfl
  rw [found] at found'
  exact different (Option.some.inj found')

theorem FunctionAssignmentSet.Covers.ordered {objects : List Nat}
    (covers : Covers enclosure sets objects v) {a b : VertexAssignment} (different : a.index ≠ b.index)
    (foundA : objects[a.index]? = some a.object) (foundB : objects[b.index]? = some b.object) :
    enclosure.Contains (sets.atEdge (.ordered a b)) v := by
  unfold EdgeAssignment.ordered
  split
  · next before => exact covers.edge b a before foundB foundA
  · next notBefore =>
      exact covers.edge a b (lt_of_le_of_ne (Nat.not_lt.mp notBefore) different) foundA foundB

/-- The edges between a position of the vertex and a constant. -/
theorem constantBounds_contain (covers : Covers enclosure sets (groundObjects binding fterm) v)
    (extending : Extends binding vertex) {next : library.Interval}
    (mem : next ∈ constantBounds sets fterm vertex) : enclosure.Contains next v := by
  obtain ⟨position, memPosition, mem⟩ := List.mem_flatMap.mp mem
  obtain ⟨constant, memConstant, rfl⟩ := List.mem_map.mp mem
  apply covers.ordered
  · exact ne_of_terms_ne (mem_positionsOf.mp memPosition) (mem_constantPositions.mp memConstant)
      (by simp)
  · exact getElem?_of_mem_positionsOf extending memPosition
  · exact getElem?_of_mem_constantPositions memConstant

/-- The estimate of a function term at a vertex contains its values. -/
theorem vertexInterval_contains (covers : Covers enclosure sets (groundObjects binding fterm) v)
    (extending : Extends binding vertex) :
    enclosure.Contains (vertexInterval sets fterm vertex) v := by
  apply intersectAll_contains covers.empty
  intro next mem
  rcases List.mem_append.mp mem with atPosition | atConstant
  · obtain ⟨position, memPosition, mem⟩ := List.mem_flatMap.mp atPosition
    rcases List.mem_cons.mp mem with rfl | withConstant
    · exact covers.vertex _ (getElem?_of_mem_positionsOf extending memPosition)
    · exact constantBounds_contain covers extending
        (List.mem_flatMap.mpr ⟨position, memPosition, withConstant⟩)
  · obtain ⟨constant, memConstant, rfl⟩ := List.mem_map.mp atConstant
    exact covers.vertex _ (getElem?_of_mem_constantPositions memConstant)

theorem pairBounds_contain (covers : Covers enclosure sets (groundObjects binding fterm) v)
    (different : first.parameter ≠ second.parameter) (extendsFirst : Extends binding first)
    (extendsSecond : Extends binding second) {next : library.Interval}
    (mem : next ∈ pairBounds sets fterm first second) : enclosure.Contains next v := by
  obtain ⟨position, memPosition, mem⟩ := List.mem_flatMap.mp mem
  obtain ⟨other, memOther, rfl⟩ := List.mem_map.mp mem
  apply covers.ordered
  · exact ne_of_terms_ne (mem_positionsOf.mp memPosition) (mem_positionsOf.mp memOther)
      (by simpa using different)
  · exact getElem?_of_mem_positionsOf extendsFirst memPosition
  · exact getElem?_of_mem_positionsOf extendsSecond memOther

/-- The constants are listed in the order of their positions. -/
theorem constantPositions_pairwise (literal : Literal) :
    (constantPositions literal).Pairwise fun a b => a.index < b.index := by
  unfold constantPositions
  apply List.Pairwise.filterMap _ _ List.pairwise_lt_range
  intro i j before a foundA b foundB
  obtain ⟨rfl, _⟩ := constantAt_eq_some.mp foundA
  obtain ⟨rfl, _⟩ := constantAt_eq_some.mp foundB
  exact before

theorem constantPairBounds_contain
    (covers : Covers enclosure sets (groundObjects binding fterm) v) {next : library.Interval}
    (mem : next ∈ constantPairBounds sets fterm) : enclosure.Contains next v := by
  obtain ⟨tail, memTail, mem⟩ := List.mem_flatMap.mp mem
  have suffix : tail <:+ constantPositions (positions fterm) := (List.mem_tails _ _).mp memTail
  cases tail with
  | nil => cases mem
  | cons a rest =>
      obtain ⟨b, memB, rfl⟩ := List.mem_map.mp mem
      have sorted := (constantPositions_pairwise (positions fterm)).sublist suffix.sublist
      apply covers.edge a b (List.rel_of_pairwise_cons sorted memB)
      · exact getElem?_of_mem_constantPositions (suffix.subset List.mem_cons_self)
      · exact getElem?_of_mem_constantPositions (suffix.subset (List.mem_cons_of_mem a memB))

/-- The estimate of a function term at an edge contains its values. -/
theorem edgeInterval_contains (covers : Covers enclosure sets (groundObjects binding fterm) v)
    (different : first.parameter ≠ second.parameter) (extendsFirst : Extends binding first)
    (extendsSecond : Extends binding second) :
    enclosure.Contains (edgeInterval sets fterm first second) v := by
  apply intersectAll_contains covers.empty
  intro next mem
  simp only [List.mem_append, List.mem_cons, List.not_mem_nil, or_false] at mem
  rcases mem with ((((rfl | rfl) | pair) | withFirst) | withSecond) | constants
  · exact vertexInterval_contains covers extendsFirst
  · exact vertexInterval_contains covers extendsSecond
  · exact pairBounds_contain covers different extendsFirst extendsSecond pair
  · exact constantBounds_contain covers extendsFirst withFirst
  · exact constantBounds_contain covers extendsSecond withSecond
  · exact constantPairBounds_contain covers constants

/-! ### Expressions -/

/-- The interval contains the number, unless that is undefined. -/
def Encloses (enclosure : library.Enclosure) (interval : library.Interval) : Number → Prop
  | nan => True
  | finite v => enclosure.Contains interval v
  | _ => False

theorem Encloses.neg {a : library.Interval} {x : Number} (enclosed : Encloses enclosure a x) :
    Encloses enclosure (library.neg a) (-x) := by
  cases x with
  | nan => trivial
  | finite x => exact enclosure.neg enclosed
  | negInf => exact enclosed.elim
  | posInf => exact enclosed.elim

theorem Encloses.apply {op : ArithmeticOp} {a b : library.Interval} {x y : Number}
    (left : Encloses enclosure a x) (right : Encloses enclosure b y) :
    Encloses enclosure (library.apply op a b) (op.applyExactly x y) := by
  cases x with
  | nan =>
      rw [op.applyExactly_undefined (.inl rfl)]
      trivial
  | negInf => exact left.elim
  | posInf => exact left.elim
  | finite x =>
      cases y with
      | nan =>
          rw [op.applyExactly_undefined (.inr rfl)]
          trivial
      | negInf => exact right.elim
      | posInf => exact right.elim
      | finite y =>
          cases op with
          | add => exact enclosure.add left right
          | sub =>
              have difference : ArithmeticOp.applyExactly .sub (finite x) (finite y) = finite (x - y) :=
                finite_sub x y
              rw [difference]
              exact enclosure.sub left right
          | mul => exact enclosure.mul left right
          | div =>
              by_cases zero : y = 0
              · subst zero
                trivial
              · have quotient : ArithmeticOp.applyExactly .div (finite x) (finite y) = finite (x / y) := by
                  rw [ArithmeticOp.applyExactly_eq_apply fun _ same => zero (finite.inj same)]
                  exact if_neg zero
                rw [quotient]
                exact enclosure.div left right zero

theorem applyMulti_eq_apply (op : MultiOp) (a b : library.Interval) :
    ∃ binary : ArithmeticOp, library.applyMulti op a b = library.apply binary a b ∧
      ∀ x y, op.apply x y = binary.applyExactly x y := by
  cases op with
  | add => exact ⟨.add, rfl, fun _ _ => rfl⟩
  | mul => exact ⟨.mul, rfl, fun _ _ => rfl⟩

theorem Encloses.applyMulti {op : MultiOp} {a b : library.Interval} {x y : Number}
    (left : Encloses enclosure a x) (right : Encloses enclosure b y) :
    Encloses enclosure (library.applyMulti op a b) (op.apply x y) := by
  obtain ⟨binary, sameInterval, sameNumber⟩ := applyMulti_eq_apply op a b
  rw [sameInterval, sameNumber]
  exact left.apply right

section

variable {estimate : FunctionTerm → library.Interval} {valuation : FunctionTerm → Number}

mutual

/-- The interval of an expression encloses its exact value if the estimates of the
function terms enclose theirs. -/
theorem encloses_consistentInterval
    (terms : ∀ fterm, Encloses enclosure (estimate fterm) (valuation fterm)) :
    ∀ {fexpr : FunctionExpression FunctionTerm}, fexpr.IsRational →
      Encloses enclosure (library.consistentInterval estimate fexpr) (fexpr.exactValue valuation)
  | .number value, rational => by
      rw [FunctionExpression.IsRational] at rational
      rw [consistentInterval, FunctionExpression.exactValue]
      cases value with
      | nan => trivial
      | finite v => exact enclosure.closed v
      | negInf => exact rational
      | posInf => exact rational
  | .neg arg, rational => by
      rw [FunctionExpression.IsRational] at rational
      rw [consistentInterval, FunctionExpression.exactValue]
      exact (encloses_consistentInterval terms rational).neg
  | .binary op lhs rhs, rational => by
      rw [FunctionExpression.IsRational] at rational
      rw [consistentInterval, FunctionExpression.exactValue]
      exact (encloses_consistentInterval terms rational.1).apply
        (encloses_consistentInterval terms rational.2)
  | .multi op front rest, rational => by
      rw [FunctionExpression.IsRational] at rational
      rw [consistentInterval, FunctionExpression.exactValue]
      exact encloses_accumulate terms (encloses_consistentInterval terms rational.1) rational.2
  | .fterm fterm, _ => by
      rw [consistentInterval, FunctionExpression.exactValue]
      exact terms fterm

theorem encloses_accumulate
    (terms : ∀ fterm, Encloses enclosure (estimate fterm) (valuation fterm)) {op : MultiOp}
    {bounds : library.Interval} {value : Number} (enclosed : Encloses enclosure bounds value) :
    ∀ {rest : List (FunctionExpression FunctionTerm)}, FunctionExpression.AreRational rest →
      Encloses enclosure (library.accumulate estimate op bounds rest)
        (FunctionExpression.exactFold valuation op value rest)
  | [], _ => by
      rw [accumulate, FunctionExpression.exactFold]
      exact enclosed
  | arg :: rest, rational => by
      rw [FunctionExpression.AreRational] at rational
      rw [accumulate, FunctionExpression.exactFold]
      exact encloses_accumulate terms
        (enclosed.applyMulti (encloses_consistentInterval terms rational.1)) rational.2

end

mutual

/-- An empty estimate of a function term makes the interval of the expression empty. -/
theorem isEmpty_consistentInterval (propagates : library.PropagatesEmpty) :
    ∀ {fexpr : FunctionExpression FunctionTerm},
      (∃ fterm ∈ fexpr.fterms, library.isEmpty (estimate fterm) = true) →
      library.isEmpty (library.consistentInterval estimate fexpr) = true
  | .number _, ⟨fterm, mem, _⟩ => by
      rw [FunctionExpression.fterms] at mem
      cases mem
  | .neg arg, empty => by
      rw [FunctionExpression.fterms] at empty
      rw [consistentInterval]
      exact propagates.neg (isEmpty_consistentInterval propagates empty)
  | .binary op lhs rhs, ⟨fterm, mem, empty⟩ => by
      rw [FunctionExpression.fterms] at mem
      rw [consistentInterval]
      apply propagates.apply
      rcases List.mem_append.mp mem with left | right
      · exact .inl (isEmpty_consistentInterval propagates ⟨fterm, left, empty⟩)
      · exact .inr (isEmpty_consistentInterval propagates ⟨fterm, right, empty⟩)
  | .multi op front rest, ⟨fterm, mem, empty⟩ => by
      rw [FunctionExpression.fterms] at mem
      rw [consistentInterval]
      apply isEmpty_accumulate propagates
      rcases List.mem_append.mp mem with left | right
      · exact .inl (isEmpty_consistentInterval propagates ⟨fterm, left, empty⟩)
      · exact .inr ⟨fterm, right, empty⟩
  | .fterm fterm, ⟨other, mem, empty⟩ => by
      rw [FunctionExpression.fterms] at mem
      obtain rfl := List.mem_singleton.mp mem
      rw [consistentInterval]
      exact empty

theorem isEmpty_accumulate (propagates : library.PropagatesEmpty) {op : MultiOp}
    {bounds : library.Interval} :
    ∀ {rest : List (FunctionExpression FunctionTerm)},
      (library.isEmpty bounds = true ∨
        ∃ fterm ∈ FunctionExpression.ftermsOfList rest, library.isEmpty (estimate fterm) = true) →
      library.isEmpty (library.accumulate estimate op bounds rest) = true
  | [], empty => by
      rw [accumulate]
      rcases empty with empty | ⟨fterm, mem, _⟩
      · exact empty
      · rw [FunctionExpression.ftermsOfList] at mem
        cases mem
  | arg :: rest, empty => by
      rw [accumulate]
      obtain ⟨binary, sameInterval, _⟩ :=
        applyMulti_eq_apply op bounds (library.consistentInterval estimate arg)
      apply isEmpty_accumulate propagates
      rcases empty with empty | ⟨fterm, mem, empty⟩
      · rw [sameInterval]
        exact .inl (propagates.apply binary (.inl empty))
      · rw [FunctionExpression.ftermsOfList] at mem
        rcases List.mem_append.mp mem with left | right
        · rw [sameInterval]
          exact .inl (propagates.apply binary
            (.inr (isEmpty_consistentInterval propagates ⟨fterm, left, empty⟩)))
        · exact .inr ⟨fterm, right, empty⟩

end

end

/-! ### Comparisons -/

/-- A point interval contains its bound only. -/
theorem eq_lower_of_point {a : library.Interval} {x : ℚ} (contains : enclosure.Contains a x)
    (point : BooleanOp.exactly .eq (library.lower a) (library.upper a) = true) :
    library.lower a = finite x := by
  have lowerLe := enclosure.lower_le contains
  have leUpper := enclosure.le_upper contains
  obtain ⟨bound, isLower, isUpper⟩ := BooleanOp.exactly_eq_iff.mp point
  rw [isLower, finite_le] at lowerLe
  rw [isUpper, finite_le] at leUpper
  rw [isLower, le_antisymm lowerLe leUpper]

/-- A comparison that holds of elements is not ruled out. -/
theorem applyExistentialWith_of_contains {op : BooleanOp} {lhs rhs : library.Interval} {x y : ℚ}
    (containsX : enclosure.Contains lhs x) (containsY : enclosure.Contains rhs y)
    (holds : op.Holds x y) : library.applyExistentialWith BooleanOp.exactly op lhs rhs = true := by
  have lowerX := enclosure.lower_le containsX
  have upperX := enclosure.le_upper containsX
  have lowerY := enclosure.lower_le containsY
  have upperY := enclosure.le_upper containsY
  unfold applyExistentialWith
  rw [enclosure.nonempty containsX, enclosure.nonempty containsY, Bool.or_false,
    if_neg Bool.false_ne_true]
  cases op with
  | eq =>
      obtain rfl : x = y := holds
      simp only [BooleanOp.exactly_le, BooleanOp.exactly_ge, Bool.and_eq_true]
      exact ⟨le_trans_finite lowerX le_rfl upperY, le_trans_finite lowerY le_rfl upperX⟩
  | ne =>
      simp only
      split
      · next points =>
          obtain ⟨pointX, pointY⟩ := Bool.and_eq_true_iff.mp points
          rw [eq_lower_of_point containsX pointX, eq_lower_of_point containsY pointY]
          exact BooleanOp.exactly_finite.mpr holds
      · rfl
  | ge =>
      simp only [BooleanOp.exactly_ge]
      exact le_trans_finite lowerY holds upperX
  | gt =>
      simp only [BooleanOp.exactly_gt]
      exact lt_trans_finite lowerY holds upperX
  | le =>
      simp only [BooleanOp.exactly_le]
      exact le_trans_finite lowerX holds upperY
  | lt =>
      simp only [BooleanOp.exactly_lt]
      exact lt_trans_finite lowerX holds upperY

end

/-! ### Soundness -/

/-- Both sides of the constraint have a value under the binding. -/
def Defined (values : FunctionValues) (constraint : BooleanOperator FunctionTerm)
    (binding : List Nat) : Prop :=
  constraint.lhs.exactValue (values.valuation binding) ≠ nan ∧
    constraint.rhs.exactValue (values.valuation binding) ≠ nan

/-- A vertex or an edge passes the test of the constraint if some binding that
extends it, among those with the property, makes the constraint true. -/
structure SoundFor (domains : FactKind → Nat → List (List Nat)) (values : FunctionValues)
    (constraint : BooleanOperator FunctionTerm) (among : List Nat → Prop) : Prop where
  vertex : ∀ vertex, (∃ binding, Extends binding vertex ∧ among binding ∧
      constraint.HoldsExactly (values.valuation binding)) →
    (library.overapproximationWith BooleanOp.exactly domains values).consistentVertex values.value
      constraint vertex = true
  edge : ∀ first second, first.parameter < second.parameter →
    (∃ binding, Extends binding first ∧ Extends binding second ∧ among binding ∧
      constraint.HoldsExactly (values.valuation binding)) →
    (library.overapproximationWith BooleanOp.exactly domains values).consistentEdge values.value
      constraint first second = true

section

variable {library} {enclosure : library.Enclosure} {domains : FactKind → Nat → List (List Nat)}
  {values : FunctionValues} {constraint : BooleanOperator FunctionTerm} {binding : List Nat}

/-- A comparison other than the inequality is true of defined values only. -/
theorem defined_of_holdsExactly (comparison : constraint.op ≠ .ne)
    (holds : constraint.HoldsExactly (values.valuation binding)) :
    Defined values constraint binding := by
  constructor
  · intro undefined
    exact comparison ((BooleanOp.exactly_undefined (.inl undefined)).mp holds)
  · intro undefined
    exact comparison ((BooleanOp.exactly_undefined (.inr undefined)).mp holds)

/-- Estimates that enclose the values under a binding keep a constraint that holds. -/
theorem consistentConstraintWith_of_encloses {estimate : FunctionTerm → library.Interval}
    (terms : ∀ fterm, Encloses enclosure (estimate fterm) (values.valuation binding fterm))
    (rational : constraint.IsRational) (defined : Defined values constraint binding)
    (holds : constraint.HoldsExactly (values.valuation binding)) :
    library.consistentConstraintWith BooleanOp.exactly estimate constraint = true := by
  have left := encloses_consistentInterval terms rational.1
  have right := encloses_consistentInterval terms rational.2
  unfold BooleanOperator.HoldsExactly at holds
  obtain ⟨definedLeft, definedRight⟩ := defined
  cases lhs : constraint.lhs.exactValue (values.valuation binding) with
  | nan => exact absurd lhs definedLeft
  | negInf =>
      rw [lhs] at left
      exact left.elim
  | posInf =>
      rw [lhs] at left
      exact left.elim
  | finite x =>
      cases rhs : constraint.rhs.exactValue (values.valuation binding) with
      | nan => exact absurd rhs definedRight
      | negInf =>
          rw [rhs] at right
          exact right.elim
      | posInf =>
          rw [rhs] at right
          exact right.elim
      | finite y =>
          rw [lhs] at left
          rw [rhs] at right
          rw [lhs, rhs] at holds
          exact applyExistentialWith_of_contains left right (BooleanOp.exactly_finite.mp holds)

/-- An interval that contains the value of a function term whenever the sets cover
it encloses the value. -/
theorem encloses_valuation (rational : values.IsRational)
    {fterm : FunctionTerm} {interval : library.Interval}
    (contains : ∀ v, FunctionAssignmentSet.Covers enclosure
        (library.functionAssignmentSets domains values fterm.kind fterm.function)
        (groundObjects binding fterm) v → enclosure.Contains interval v) :
    Encloses enclosure interval (values.valuation binding fterm) := by
  have listed : ∀ {x}, x ≠ nan → values.valuation binding fterm = x →
      (⟨fterm.function, groundObjects binding fterm⟩, x) ∈ values.entries fterm.kind := by
    intro x defined isValue
    exact mem_entries_of_value defined isValue
  cases value : values.valuation binding fterm with
  | nan => trivial
  | negInf => exact (rational _ _ (listed (by simp) value)).elim
  | posInf => exact (rational _ _ (listed (by simp) value)).elim
  | finite v => exact contains v (covers_functionAssignmentSets (listed (by simp) value))

/-- Bindings that give both sides a value are estimated soundly. -/
theorem soundFor_defined (enclosure : library.Enclosure) (rational : values.IsRational)
    (finite : constraint.IsRational) :
    library.SoundFor domains values constraint (Defined values constraint) := by
  constructor
  · rintro vertex ⟨binding, extending, defined, holds⟩
    have terms : ∀ fterm : FunctionTerm, Encloses enclosure (vertexInterval
        (library.functionAssignmentSets domains values fterm.kind fterm.function) fterm vertex)
        (values.valuation binding fterm) := by
      intro fterm
      exact encloses_valuation rational fun v covers => vertexInterval_contains covers extending
    exact consistentConstraintWith_of_encloses terms finite defined holds
  · rintro first second order ⟨binding, extendsFirst, extendsSecond, defined, holds⟩
    have terms : ∀ fterm : FunctionTerm, Encloses enclosure (edgeInterval
        (library.functionAssignmentSets domains values fterm.kind fterm.function) fterm first second)
        (values.valuation binding fterm) := by
      intro fterm
      exact encloses_valuation rational fun v covers =>
        edgeInterval_contains covers order.ne extendsFirst extendsSecond
    exact consistentConstraintWith_of_encloses terms finite defined holds

/-- No values. -/
def noValues : FunctionValues := ⟨fun _ => [], fun _ => List.nodup_nil⟩

theorem isEmpty_intersectAll {bounds : library.Interval} (empty : library.isEmpty bounds = true)
    (intervals : List library.Interval) :
    library.isEmpty (library.intersectAll bounds intervals) = true := by
  cases intervals with
  | nil => exact empty
  | cons next rest =>
      rw [intersectAll, if_pos empty]
      exact empty

/-- Without values an inequality with a function term is rejected. -/
theorem consistentVertex_noValues (propagates : library.PropagatesEmpty) {fterm : FunctionTerm}
    (mem : fterm ∈ Constraint.fterms constraint) (vertex : RuleVertex) :
    (library.overapproximationWith BooleanOp.exactly domains noValues).consistentVertex
      noValues.value constraint vertex = false := by
  have empty : ∀ fterm : FunctionTerm, library.isEmpty (vertexInterval
      (library.functionAssignmentSets domains noValues fterm.kind fterm.function) fterm vertex) = true :=
    fun _ => isEmpty_intersectAll propagates.empty _
  have side : (library.isEmpty (library.consistentInterval (fun fterm => vertexInterval
        (library.functionAssignmentSets domains noValues fterm.kind fterm.function) fterm vertex)
        constraint.lhs) ||
      library.isEmpty (library.consistentInterval (fun fterm => vertexInterval
        (library.functionAssignmentSets domains noValues fterm.kind fterm.function) fterm vertex)
        constraint.rhs)) = true := by
    rw [Bool.or_eq_true]
    rcases List.mem_append.mp mem with left | right
    · exact .inl (isEmpty_consistentInterval propagates ⟨fterm, left, empty fterm⟩)
    · exact .inr (isEmpty_consistentInterval propagates ⟨fterm, right, empty fterm⟩)
  exact if_pos side

/-- Without values an inequality with a function term is true. -/
theorem holdsExactly_noValues {fterm : FunctionTerm}
    (mem : fterm ∈ Constraint.fterms constraint) (inequality : constraint.op = .ne) :
    constraint.HoldsExactly (noValues.valuation binding) := by
  apply (BooleanOp.exactly_undefined ?_).mpr inequality
  rcases List.mem_append.mp mem with left | right
  · exact .inl (FunctionExpression.exactValue_undefined ⟨fterm, left, rfl⟩)
  · exact .inr (FunctionExpression.exactValue_undefined ⟨fterm, right, rfl⟩)

end

/-- A constraint with parameters is estimated soundly for all values iff it is not an
inequality. An inequality is estimated soundly for the bindings that give both of its
sides a value. -/
theorem overapproximation_sound_iff (library : IntervalLibrary) (enclosure : library.Enclosure)
    (propagates : library.PropagatesEmpty) (domains : FactKind → Nat → List (List Nat))
    (constraint : BooleanOperator FunctionTerm) (rational : constraint.IsRational)
    (tested : 1 ≤ Constraint.parameterArity constraint) :
    ((∀ values : FunctionValues, values.IsRational →
        library.SoundFor domains values constraint fun _ => True) ↔ constraint.op ≠ .ne) ∧
      ∀ values : FunctionValues, values.IsRational →
        library.SoundFor domains values constraint fun binding =>
          constraint.op = .ne → Defined values constraint binding := by
  have sound : ∀ values : FunctionValues, values.IsRational →
      library.SoundFor domains values constraint fun binding =>
        constraint.op = .ne → Defined values constraint binding := by
    intro values valuesRational
    have forDefined : library.SoundFor domains values constraint (Defined values constraint) :=
      soundFor_defined enclosure valuesRational rational
    have defined : ∀ binding, (constraint.op = .ne → Defined values constraint binding) →
        constraint.HoldsExactly (values.valuation binding) → Defined values constraint binding := by
      intro binding inequality holds
      by_cases isNe : constraint.op = .ne
      · exact inequality isNe
      · exact defined_of_holdsExactly isNe holds
    constructor
    · rintro vertex ⟨binding, extending, inequality, holds⟩
      exact forDefined.vertex vertex ⟨binding, extending, defined binding inequality holds, holds⟩
    · rintro first second order ⟨binding, extendsFirst, extendsSecond, inequality, holds⟩
      exact forDefined.edge first second order
        ⟨binding, extendsFirst, extendsSecond, defined binding inequality holds, holds⟩
  refine ⟨⟨fun allValues inequality => ?_, fun comparison values valuesRational => ?_⟩, sound⟩
  · obtain ⟨index, mem⟩ : ∃ index, index ∈ Constraint.collectParameters constraint := by
      apply List.exists_mem_of_ne_nil
      intro none
      rw [Constraint.parameterArity, none] at tested
      cases tested
    obtain ⟨fterm, memFterm, _⟩ := List.mem_flatMap.mp mem
    have passes := (allValues noValues (fun _ _ entry => absurd entry List.not_mem_nil)).vertex
      ⟨0, 0⟩ ⟨[0], rfl, trivial, holdsExactly_noValues memFterm inequality⟩
    rw [consistentVertex_noValues propagates memFterm] at passes
    cases passes
  · have soundValues := sound values valuesRational
    constructor
    · rintro vertex ⟨binding, extending, _, holds⟩
      exact soundValues.vertex vertex
        ⟨binding, extending, fun inequality => absurd inequality comparison, holds⟩
    · rintro first second order ⟨binding, extendsFirst, extendsSecond, _, holds⟩
      exact soundValues.edge first second order
        ⟨binding, extendsFirst, extendsSecond, fun inequality => absurd inequality comparison, holds⟩

/-! ### Intervals of rationals -/

inductive CoarseInterval where
  | empty
  | bounded (lower upper : ℚ)
  | whole
deriving DecidableEq

namespace CoarseInterval

def Contains : CoarseInterval → ℚ → Prop
  | empty, _ => False
  | bounded lower upper, v => lower ≤ v ∧ v ≤ upper
  | whole, _ => True

def isEmpty : CoarseInterval → Bool
  | empty => true
  | _ => false

theorem isEmpty_iff {a : CoarseInterval} : a.isEmpty = true ↔ a = empty := by
  cases a <;> simp [isEmpty]

/-- Combine the bounds of two bounded intervals. -/
def combine (bounds : ℚ → ℚ → ℚ → ℚ → CoarseInterval) :
    CoarseInterval → CoarseInterval → CoarseInterval
  | empty, _ => empty
  | _, empty => empty
  | bounded lower upper, bounded lower' upper' => bounds lower upper lower' upper'
  | _, _ => whole

theorem combine_contains {bounds : ℚ → ℚ → ℚ → ℚ → CoarseInterval} {a b : CoarseInterval}
    {x y v : ℚ} (left : a.Contains x) (right : b.Contains y)
    (encloses : ∀ lower upper lower' upper', lower ≤ x ∧ x ≤ upper → lower' ≤ y ∧ y ≤ upper' →
      (bounds lower upper lower' upper').Contains v) :
    (combine bounds a b).Contains v := by
  cases a with
  | empty => exact left.elim
  | whole =>
      cases b with
      | empty => exact right.elim
      | _ => trivial
  | bounded lower upper =>
      cases b with
      | empty => exact right.elim
      | whole => trivial
      | bounded lower' upper' => exact encloses lower upper lower' upper' left right

theorem combine_empty (bounds : ℚ → ℚ → ℚ → ℚ → CoarseInterval) {a b : CoarseInterval}
    (isEmpty : a = empty ∨ b = empty) : combine bounds a b = empty := by
  rcases isEmpty with rfl | rfl
  · rfl
  · cases a <;> rfl

end CoarseInterval

open CoarseInterval in
/-- Intervals of rationals; products and quotients are not computed. -/
def coarseIntervals : IntervalLibrary where
  Interval := CoarseInterval
  empty := .empty
  closed
    | finite lower, finite upper => if lower ≤ upper then bounded lower upper else .empty
    | _, _ => .empty
  isEmpty := CoarseInterval.isEmpty
  lower
    | .empty => nan
    | bounded lower _ => finite lower
    | whole => negInf
  upper
    | .empty => nan
    | bounded _ upper => finite upper
    | whole => posInf
  hull
    | .empty, b => b
    | a, .empty => a
    | bounded lower upper, bounded lower' upper' => bounded (min lower lower') (Max.max upper upper')
    | _, _ => whole
  intersect
    | .empty, _ => .empty
    | _, .empty => .empty
    | whole, b => b
    | a, whole => a
    | bounded lower upper, bounded lower' upper' =>
        if Max.max lower lower' ≤ min upper upper' then
          bounded (Max.max lower lower') (min upper upper')
        else .empty
  neg
    | .empty => .empty
    | bounded lower upper => bounded (-upper) (-lower)
    | whole => whole
  add := combine fun lower upper lower' upper' => bounded (lower + lower') (upper + upper')
  sub := combine fun lower upper lower' upper' => bounded (lower - upper') (upper - lower')
  mul := combine fun _ _ _ _ => whole
  div := combine fun _ _ lower upper => if lower = 0 ∧ upper = 0 then .empty else whole

/-- Membership, and the enclosures. -/
def coarseEnclosure : coarseIntervals.Enclosure where
  Contains := CoarseInterval.Contains
  closed v := by
    have same : coarseIntervals.closed (finite v) (finite v) = .bounded v v := if_pos le_rfl
    rw [same]
    exact ⟨le_rfl, le_rfl⟩
  hull_left {a b v} contains := by
    cases a with
    | empty => exact contains.elim
    | whole => cases b <;> trivial
    | bounded lower upper =>
        cases b with
        | empty => exact contains
        | whole => trivial
        | bounded lower' upper' =>
            exact ⟨(min_le_left _ _).trans contains.1, contains.2.trans (le_max_left _ _)⟩
  hull_right {a b v} contains := by
    cases b with
    | empty => exact contains.elim
    | whole => cases a <;> trivial
    | bounded lower upper =>
        cases a with
        | empty => exact contains
        | whole => trivial
        | bounded lower' upper' =>
            exact ⟨(min_le_right _ _).trans contains.1, contains.2.trans (le_max_right _ _)⟩
  intersect {a b v} left right := by
    cases a with
    | empty => exact left.elim
    | whole =>
        cases b with
        | empty => exact right.elim
        | _ => exact right
    | bounded lower upper =>
        cases b with
        | empty => exact right.elim
        | whole => exact left
        | bounded lower' upper' =>
            have both : Max.max lower lower' ≤ v ∧ v ≤ min upper upper' :=
              ⟨max_le left.1 right.1, le_min left.2 right.2⟩
            have same : coarseIntervals.intersect (.bounded lower upper) (.bounded lower' upper') =
                .bounded (Max.max lower lower') (min upper upper') := if_pos (both.1.trans both.2)
            rw [same]
            exact both
  neg {a x} contains := by
    cases a with
    | empty => exact contains.elim
    | whole => trivial
    | bounded lower upper => exact ⟨neg_le_neg contains.2, neg_le_neg contains.1⟩
  add left right := CoarseInterval.combine_contains left right fun _ _ _ _ inLeft inRight =>
    ⟨add_le_add inLeft.1 inRight.1, add_le_add inLeft.2 inRight.2⟩
  sub left right := CoarseInterval.combine_contains left right fun _ _ _ _ inLeft inRight =>
    ⟨sub_le_sub inLeft.1 inRight.2, sub_le_sub inLeft.2 inRight.1⟩
  mul left right := CoarseInterval.combine_contains left right fun _ _ _ _ _ _ => trivial
  div {a b x y} left right nonzero := by
    refine CoarseInterval.combine_contains left right fun lower upper lower' upper' _ inRight => ?_
    have notPoint : ¬ (lower' = 0 ∧ upper' = 0) := by
      rintro ⟨rfl, rfl⟩
      exact nonzero (le_antisymm inRight.2 inRight.1)
    rw [if_neg notPoint]
    trivial
  nonempty {a v} contains := by
    cases a with
    | empty => exact contains.elim
    | _ => rfl
  lower_le {a v} contains := by
    cases a with
    | empty => exact contains.elim
    | whole => rfl
    | bounded lower upper => exact (finite_le _ _).mpr contains.1
  le_upper {a v} contains := by
    cases a with
    | empty => exact contains.elim
    | whole => rfl
    | bounded lower upper => exact (finite_le _ _).mpr contains.2

theorem coarseIntervals_propagatesEmpty : coarseIntervals.PropagatesEmpty where
  empty := rfl
  neg {a} isEmpty := by
    obtain rfl := CoarseInterval.isEmpty_iff.mp isEmpty
    rfl
  apply op a b isEmpty := by
    have isEmpty : a = CoarseInterval.empty ∨ b = CoarseInterval.empty :=
      isEmpty.imp CoarseInterval.isEmpty_iff.mp CoarseInterval.isEmpty_iff.mp
    apply CoarseInterval.isEmpty_iff.mpr
    cases op <;> exact CoarseInterval.combine_empty _ isEmpty

/-- The constraint `f(x) != 5`. -/
def notFive : BooleanOperator FunctionTerm :=
  ⟨.ne, .fterm ⟨.fluent, 0, [.parameter 0]⟩, .number (.finite 5)⟩

theorem notFive_isRational : notFive.IsRational := by
  constructor
  · rw [notFive, FunctionExpression.IsRational]
    trivial
  · rw [notFive, FunctionExpression.IsRational]
    trivial

/-- The value `f(0) = 3`. -/
def threeValues : FunctionValues where
  entries
    | .static => []
    | .fluent => [(⟨0, [0]⟩, .finite 3)]
  nodup kind := by
    cases kind <;> simp

/-- With `f(0) = 3` the vertex of `x = 0` passes. -/
theorem overapproximation_sound_iff_notFive :
    (coarseIntervals.overapproximationWith BooleanOp.exactly (fun _ _ => [[0, 1]])
      threeValues).consistentVertex threeValues.value notFive ⟨0, 0⟩ = true := by
  have rational : threeValues.IsRational := by
    intro kind entry mem
    cases kind with
    | static => cases mem
    | fluent =>
        obtain rfl := List.mem_singleton.mp mem
        trivial
  have value : threeValues.valuation [0] ⟨.fluent, 0, [.parameter 0]⟩ = .finite 3 := rfl
  have holds : notFive.HoldsExactly (threeValues.valuation [0]) := by
    rw [BooleanOperator.HoldsExactly, notFive, FunctionExpression.exactValue,
      FunctionExpression.exactValue, value, BooleanOp.exactly_finite, BooleanOp.Holds]
    norm_num
  refine ((overapproximation_sound_iff coarseIntervals coarseEnclosure
    coarseIntervals_propagatesEmpty (fun _ _ => [[0, 1]]) notFive notFive_isRational
    (by decide)).2 threeValues rational).vertex ⟨0, 0⟩ ⟨[0], rfl, fun _ => ⟨?_, ?_⟩, holds⟩
  · rw [notFive, FunctionExpression.exactValue, value]
    exact Number.noConfusion
  · rw [notFive, FunctionExpression.exactValue]
    exact Number.noConfusion

/-- `f(x) != 5` is true without a value of `f`, but the vertex of `x = 0` is rejected. -/
theorem notFive_not_sound :
    ¬ coarseIntervals.SoundFor (fun _ _ => [[0, 1]]) noValues notFive fun _ => True := by
  intro sound
  have mem : (⟨.fluent, 0, [.parameter 0]⟩ : FunctionTerm) ∈ Constraint.fterms notFive := by
    decide
  have passes := sound.vertex ⟨0, 0⟩ ⟨[0], rfl, trivial, holdsExactly_noValues mem rfl⟩
  rw [consistentVertex_noValues coarseIntervals_propagatesEmpty mem] at passes
  cases passes

end IntervalLibrary

end Tyr.Datalog
