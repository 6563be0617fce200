import Tyr.Formalism.Atom
import Tyr.Datalog.KpkcGraph
import Mathlib.Data.List.GetD
import Mathlib.Data.List.Induction
import Mathlib.Order.Lattice

/-!
Assignment sets: the projections of facts to one and to two positions.

A `PerfectAssignmentHash` numbers the assignments of a relation whose objects
lie in the domains of its positions, and a `PredicateAssignmentSet` is a bitset
over these numbers. Inserting a fact sets the bits of its vertex assignments
(position, object) and of its ordered edge assignments (two of them). Objects
outside a domain share one sentinel number of their position.

* `PerfectAssignmentHash.vertexRank_eq_iff`, `edgeRank_eq_iff`,
  `vertexRank_ne_edgeRank` — the numbers of assignments within the domains are
  their own.
* `PredicateAssignmentSets.test_vertex_iff`, `test_edge_iff` — within the
  domains the sets are the exact projections of the inserted facts.
-/

namespace Tyr.Datalog

open Tyr.Lib Tyr.Formalism

/-- An object at a position. -/
structure VertexAssignment where
  index : Nat
  object : Nat
deriving DecidableEq, Repr

/-- Two objects at two positions, the first position before the second. -/
structure EdgeAssignment where
  first : VertexAssignment
  second : VertexAssignment
deriving DecidableEq, Repr

/-- The edge assignment of two vertex assignments, whichever comes first. -/
def EdgeAssignment.ordered (a b : VertexAssignment) : EdgeAssignment :=
  if b.index < a.index then ⟨b, a⟩ else ⟨a, b⟩

/-! ### The perfect hash -/

/-- The hash of a relation with the given domain of each position. -/
structure PerfectAssignmentHash where
  parameterDomains : List (List Nat)

namespace PerfectAssignmentHash

/-- `m_remapping` of a position: the objects of the domain are numbered from
one, and zero is the sentinel of all others. -/
def remapping (domain : List Nat) : Nat → Nat :=
  (domain.zipIdx 1).foldl (fun remap entry => Function.update remap entry.1 entry.2) fun _ => 0

/-- The counter `m_num_assignments` after the given domains: a sentinel, and for
each domain a sentinel and its objects. -/
def countAssignments (domains : List (List Nat)) : Nat :=
  domains.foldl (fun count domain => count + (1 + domain.length)) 1

def numAssignments (hash : PerfectAssignmentHash) : Nat :=
  countAssignments hash.parameterDomains

/-- `m_offsets` of a position. -/
def offset (hash : PerfectAssignmentHash) (index : Nat) : Nat :=
  countAssignments (hash.parameterDomains.take index)

def vertexRank (hash : PerfectAssignmentHash) (assignment : VertexAssignment) : Nat :=
  hash.offset assignment.index +
    remapping (hash.parameterDomains.getD assignment.index []) assignment.object

def edgeRank (hash : PerfectAssignmentHash) (assignment : EdgeAssignment) : Nat :=
  hash.vertexRank assignment.first * hash.numAssignments + hash.vertexRank assignment.second

/-- `contains`: the position exists and the object is in its domain. -/
def Contains (hash : PerfectAssignmentHash) (assignment : VertexAssignment) : Prop :=
  assignment.object ∈ hash.parameterDomains.getD assignment.index []

/-! ### Ranks -/

theorem remapping_spec (domain : List Nat) (object : Nat) :
    (object ∉ domain ∧ remapping domain object = 0) ∨
      ∃ i, domain[i]? = some object ∧ remapping domain object = i + 1 := by
  induction domain using List.reverseRecOn with
  | nil => exact .inl ⟨List.not_mem_nil, rfl⟩
  | append_singleton domain last ih =>
      have step : remapping (domain ++ [last]) =
          Function.update (remapping domain) last (domain.length + 1) := by
        simp [remapping, List.zipIdx_append, Nat.add_comm]
      rw [step]
      by_cases same : object = last
      · subst same
        exact .inr ⟨domain.length, by simp⟩
      · rw [Function.update_of_ne same]
        rcases ih with ⟨notMem, zero⟩ | ⟨i, found, numbered⟩
        · exact .inl ⟨by simp [notMem, same], zero⟩
        · have inRange := (List.getElem?_eq_some_iff.mp found).1
          exact .inr ⟨i, by rw [List.getElem?_append_left inRange, found], numbered⟩

theorem remapping_le (domain : List Nat) (object : Nat) :
    remapping domain object ≤ domain.length := by
  rcases remapping_spec domain object with ⟨_, zero⟩ | ⟨i, found, numbered⟩
  · omega
  · have := (List.getElem?_eq_some_iff.mp found).1
    omega

/-- The number of an object of the domain is its own. -/
theorem remapping_eq_iff {domain : List Nat} {object : Nat} (mem : object ∈ domain) (other : Nat) :
    remapping domain object = remapping domain other ↔ object = other := by
  constructor
  · intro same
    rcases remapping_spec domain object with ⟨notMem, _⟩ | ⟨i, found, numbered⟩
    · exact absurd mem notMem
    · rcases remapping_spec domain other with ⟨_, zero⟩ | ⟨j, foundOther, numberedOther⟩
      · omega
      · obtain rfl : i = j := by omega
        rw [found] at foundOther
        exact Option.some.inj foundOther
  · rintro rfl
    rfl

theorem countAssignments_concat (domains : List (List Nat)) (domain : List Nat) :
    countAssignments (domains ++ [domain]) = countAssignments domains + (1 + domain.length) := by
  rw [countAssignments, List.foldl_append]
  rfl

theorem countAssignments_le_append (front back : List (List Nat)) :
    countAssignments front ≤ countAssignments (front ++ back) := by
  rw [countAssignments, countAssignments, List.foldl_append]
  apply foldl_invariant (P := fun count => front.foldl _ 1 ≤ count)
  · intro count le domain _
    exact Nat.le_add_right_of_le le
  · exact Nat.le_refl _

theorem countAssignments_take_le (domains : List (List Nat)) {i j : Nat} (le : i ≤ j) :
    countAssignments (domains.take i) ≤ countAssignments (domains.take j) := by
  have front : (domains.take j).take i = domains.take i := by
    rw [List.take_take, Nat.min_eq_left le]
  rw [← List.take_append_drop i (domains.take j), front]
  exact countAssignments_le_append _ _

variable {hash : PerfectAssignmentHash}

/-- The numbers of position `index` lie below the offset of the next position. -/
theorem vertexRank_lt_offset {assignment : VertexAssignment}
    (inRange : assignment.index < hash.parameterDomains.length) :
    hash.vertexRank assignment < hash.offset (assignment.index + 1) := by
  have bound := remapping_le (hash.parameterDomains.getD assignment.index []) assignment.object
  have next : hash.offset (assignment.index + 1) = hash.offset assignment.index +
      (1 + (hash.parameterDomains.getD assignment.index []).length) := by
    rw [offset, List.take_succ_eq_append_getElem inRange, countAssignments_concat, offset,
      List.getD_eq_getElem _ _ inRange]
  rw [vertexRank, next]
  omega

theorem offset_le_vertexRank (assignment : VertexAssignment) :
    hash.offset assignment.index ≤ hash.vertexRank assignment :=
  Nat.le_add_right _ _

/-- Zero is the number of the empty assignment alone. -/
theorem vertexRank_pos (assignment : VertexAssignment) : 0 < hash.vertexRank assignment := by
  have start : 1 ≤ hash.offset assignment.index := countAssignments_le_append [] _
  exact start.trans (offset_le_vertexRank assignment)

theorem vertexRank_lt {assignment : VertexAssignment}
    (inRange : assignment.index < hash.parameterDomains.length) :
    hash.vertexRank assignment < hash.numAssignments := by
  refine (vertexRank_lt_offset inRange).trans_le ?_
  have last := countAssignments_take_le hash.parameterDomains (Nat.succ_le_of_lt inRange)
  rw [List.take_length] at last
  exact last

theorem Contains.inRange {assignment : VertexAssignment} (contains : hash.Contains assignment) :
    assignment.index < hash.parameterDomains.length := by
  by_contra beyond
  unfold Contains at contains
  rw [List.getD_eq_default _ _ (by omega)] at contains
  exact List.not_mem_nil contains

theorem index_eq_of_vertexRank_eq {a b : VertexAssignment}
    (inRangeA : a.index < hash.parameterDomains.length)
    (inRangeB : b.index < hash.parameterDomains.length)
    (same : hash.vertexRank a = hash.vertexRank b) : a.index = b.index := by
  have separated : ∀ x y : VertexAssignment, x.index < hash.parameterDomains.length →
      x.index < y.index → hash.vertexRank x < hash.vertexRank y := by
    intro x y inRange less
    calc hash.vertexRank x < hash.offset (x.index + 1) := vertexRank_lt_offset inRange
      _ ≤ hash.offset y.index := countAssignments_take_le _ less
      _ ≤ hash.vertexRank y := offset_le_vertexRank y
  rcases Nat.lt_trichotomy a.index b.index with less | same | greater
  · exact absurd same (separated a b inRangeA less).ne
  · exact same
  · exact absurd same (separated b a inRangeB greater).ne'

/-- The number of a vertex assignment within the domains is its own, also among
the numbers of objects outside the domains. -/
theorem vertexRank_eq_iff {a b : VertexAssignment} (contains : hash.Contains a)
    (inRange : b.index < hash.parameterDomains.length) :
    hash.vertexRank a = hash.vertexRank b ↔ a = b := by
  obtain ⟨i, object⟩ := a
  obtain ⟨j, other⟩ := b
  constructor
  · intro same
    obtain rfl : i = j := index_eq_of_vertexRank_eq contains.inRange inRange same
    have sameNumber : remapping (hash.parameterDomains.getD i []) object =
        remapping (hash.parameterDomains.getD i []) other := Nat.add_left_cancel same
    exact congrArg _ ((remapping_eq_iff contains other).mp sameNumber)
  · rintro ⟨⟩
    rfl

/-- The number of an edge assignment within the domains is its own. -/
theorem edgeRank_eq_iff {a b : EdgeAssignment}
    (containsFirst : hash.Contains a.first) (containsSecond : hash.Contains a.second)
    (inRangeFirst : b.first.index < hash.parameterDomains.length)
    (inRangeSecond : b.second.index < hash.parameterDomains.length) :
    hash.edgeRank a = hash.edgeRank b ↔ a = b := by
  obtain ⟨a₁, a₂⟩ := a
  obtain ⟨b₁, b₂⟩ := b
  have smallA := vertexRank_lt containsSecond.inRange
  have smallB := vertexRank_lt inRangeSecond
  simp only [EdgeAssignment.mk.injEq] at *
  rw [← vertexRank_eq_iff containsFirst inRangeFirst, ← vertexRank_eq_iff containsSecond inRangeSecond]
  constructor
  · intro same
    have quotients := congrArg (· / hash.numAssignments) same
    have remainders := congrArg (· % hash.numAssignments) same
    simp only [edgeRank, Nat.mul_comm _ hash.numAssignments, Nat.mul_add_div (Nat.zero_lt_of_lt smallA),
      Nat.div_eq_of_lt smallA, Nat.div_eq_of_lt smallB, Nat.add_zero] at quotients
    simp only [edgeRank, Nat.mul_comm _ hash.numAssignments, Nat.mul_add_mod,
      Nat.mod_eq_of_lt smallA, Nat.mod_eq_of_lt smallB] at remainders
    exact ⟨quotients, remainders⟩
  · rintro ⟨sameFirst, sameSecond⟩
    simp only [edgeRank, sameFirst, sameSecond]

/-- Vertex and edge numbers differ. -/
theorem vertexRank_ne_edgeRank {a : VertexAssignment}
    (inRange : a.index < hash.parameterDomains.length) (b : EdgeAssignment) :
    hash.vertexRank a ≠ hash.edgeRank b := by
  have small := vertexRank_lt inRange
  have large : hash.numAssignments ≤ hash.vertexRank b.first * hash.numAssignments :=
    Nat.le_mul_of_pos_left _ (vertexRank_pos b.first)
  unfold edgeRank
  omega

theorem edgeRank_pos (assignment : EdgeAssignment) : 0 < hash.edgeRank assignment :=
  Nat.add_pos_right _ (vertexRank_pos assignment.second)

end PerfectAssignmentHash

/-! ### The assignment set of a predicate -/

/-- A bitset over the numbers of the assignments. -/
structure PredicateAssignmentSet where
  hash : PerfectAssignmentHash
  set : Kpkc.Bitset

/-- The objects of the two positions of a binding. -/
def edgeAssignment (objects : List Nat) (first second : Nat) : EdgeAssignment :=
  ⟨⟨first, objects.getD first 0⟩, ⟨second, objects.getD second 0⟩⟩

namespace PerfectAssignmentHash

/-- The number belongs to an assignment of the objects. -/
def Touches (hash : PerfectAssignmentHash) (objects : List Nat) (rank : Nat) : Prop :=
  ∃ first < objects.length, rank = hash.vertexRank ⟨first, objects.getD first 0⟩ ∨
    ∃ second, first < second ∧ second < objects.length ∧
      rank = hash.edgeRank (edgeAssignment objects first second)

variable {hash : PerfectAssignmentHash} {objects : List Nat}

theorem touches_vertexRank (full : objects.length = hash.parameterDomains.length)
    {assignment : VertexAssignment} (contains : hash.Contains assignment) :
    hash.Touches objects (hash.vertexRank assignment) ↔
      objects[assignment.index]? = some assignment.object := by
  constructor
  · rintro ⟨first, inRange, isVertex | ⟨second, _, _, isEdge⟩⟩
    · rw [(vertexRank_eq_iff contains (full ▸ inRange)).mp isVertex, List.getD_eq_getElem _ _ inRange]
      exact List.getElem?_eq_getElem _
    · exact absurd isEdge (vertexRank_ne_edgeRank contains.inRange _)
  · intro found
    have value : objects.getD assignment.index 0 = assignment.object := by
      rw [List.getD_eq_getElem?_getD, found, Option.getD_some]
    exact ⟨assignment.index, full ▸ contains.inRange, .inl (by rw [value])⟩

theorem touches_edgeRank (full : objects.length = hash.parameterDomains.length)
    {assignment : EdgeAssignment} (ordered : assignment.first.index < assignment.second.index)
    (containsFirst : hash.Contains assignment.first)
    (containsSecond : hash.Contains assignment.second) :
    hash.Touches objects (hash.edgeRank assignment) ↔
      objects[assignment.first.index]? = some assignment.first.object ∧
        objects[assignment.second.index]? = some assignment.second.object := by
  constructor
  · rintro ⟨first, inRange, isVertex | ⟨second, _, inRangeSecond, isEdge⟩⟩
    · exact absurd isVertex.symm (vertexRank_ne_edgeRank (a := ⟨first, _⟩) (full ▸ inRange) _)
    · rw [(edgeRank_eq_iff (b := edgeAssignment objects first second) containsFirst containsSecond
        (full ▸ inRange) (full ▸ inRangeSecond)).mp isEdge]
      simp only [edgeAssignment]
      rw [List.getD_eq_getElem _ _ inRange, List.getD_eq_getElem _ _ inRangeSecond]
      exact ⟨List.getElem?_eq_getElem _, List.getElem?_eq_getElem _⟩
  · rintro ⟨foundFirst, foundSecond⟩
    have valueFirst : objects.getD assignment.first.index 0 = assignment.first.object := by
      rw [List.getD_eq_getElem?_getD, foundFirst, Option.getD_some]
    have valueSecond : objects.getD assignment.second.index 0 = assignment.second.object := by
      rw [List.getD_eq_getElem?_getD, foundSecond, Option.getD_some]
    refine ⟨assignment.first.index, full ▸ containsFirst.inRange, .inr
      ⟨assignment.second.index, ordered, full ▸ containsSecond.inRange, ?_⟩⟩
    rw [edgeAssignment, valueFirst, valueSecond]

end PerfectAssignmentHash

namespace PredicateAssignmentSet

/-- The empty assignment set of a predicate with the given domains. -/
def create (parameterDomains : List (List Nat)) : PredicateAssignmentSet :=
  ⟨⟨parameterDomains⟩, fun _ => false⟩

def arity (sets : PredicateAssignmentSet) : Nat := sets.hash.parameterDomains.length

/-- The vertex assignment of `first` and its edge assignments with the later positions. -/
def insertPosition (objects : List Nat) (sets : PredicateAssignmentSet) (first : Nat) :
    PredicateAssignmentSet :=
  (List.range' (first + 1) (sets.arity - (first + 1))).foldl
    (fun sets second =>
      { sets with set := sets.set.set (sets.hash.edgeRank (edgeAssignment objects first second)) })
    { sets with set := sets.set.set (sets.hash.vertexRank ⟨first, objects.getD first 0⟩) }

/-- Insert the assignments of a binding of the predicate. -/
def insert (sets : PredicateAssignmentSet) (objects : List Nat) : PredicateAssignmentSet :=
  (List.range sets.arity).foldl (insertPosition objects) sets

def testVertex (sets : PredicateAssignmentSet) (assignment : VertexAssignment) : Bool :=
  sets.set (sets.hash.vertexRank assignment)

def testEdge (sets : PredicateAssignmentSet) (assignment : EdgeAssignment) : Bool :=
  sets.set (sets.hash.edgeRank assignment)

theorem insertPosition_hash (objects : List Nat) (sets : PredicateAssignmentSet) (first : Nat) :
    (insertPosition objects sets first).hash = sets.hash := by
  unfold insertPosition
  apply foldl_unchanged PredicateAssignmentSet.hash
  intro s second _
  rfl

/-- The bits that a position of a binding sets. -/
theorem insertPosition_set (objects : List Nat) (sets : PredicateAssignmentSet) (first rank : Nat) :
    (insertPosition objects sets first).set rank = true ↔ sets.set rank = true ∨
      rank = sets.hash.vertexRank ⟨first, objects.getD first 0⟩ ∨
      ∃ second, first < second ∧ second < sets.arity ∧
        rank = sets.hash.edgeRank (edgeAssignment objects first second) := by
  unfold insertPosition
  apply (foldl_iff (P := fun s : PredicateAssignmentSet => s.hash = sets.hash)
    (fun s : PredicateAssignmentSet => s.set rank = true)
    (fun second => rank = sets.hash.edgeRank (edgeAssignment objects first second))
    ?_ ?_ ?_).trans
  · simp only [Kpkc.Bitset.set_eq_true, List.mem_range'_1]
    constructor
    · rintro ((isVertex | old) | ⟨second, ⟨later, inRange⟩, isEdge⟩)
      · exact .inr (.inl isVertex)
      · exact .inl old
      · exact .inr (.inr ⟨second, by omega, by omega, isEdge⟩)
    · rintro (old | isVertex | ⟨second, later, inRange, isEdge⟩)
      · exact .inl (.inr old)
      · exact .inl (.inl isVertex)
      · exact .inr ⟨second, ⟨by omega, by omega⟩, isEdge⟩
  · intro s same second _
    exact same
  · intro s same second _
    rw [Kpkc.Bitset.set_eq_true, same, or_comm]
  · rfl

theorem insert_hash (sets : PredicateAssignmentSet) (objects : List Nat) :
    (sets.insert objects).hash = sets.hash := by
  unfold insert
  exact foldl_unchanged PredicateAssignmentSet.hash
    (fun s first _ => insertPosition_hash objects s first) sets

/-- The bits that a binding sets. -/
theorem insert_set (sets : PredicateAssignmentSet) (objects : List Nat) (rank : Nat) :
    (sets.insert objects).set rank = true ↔ sets.set rank = true ∨
      ∃ first < sets.arity, rank = sets.hash.vertexRank ⟨first, objects.getD first 0⟩ ∨
        ∃ second, first < second ∧ second < sets.arity ∧
          rank = sets.hash.edgeRank (edgeAssignment objects first second) := by
  unfold insert
  apply (foldl_iff (P := fun s : PredicateAssignmentSet => s.hash = sets.hash)
    (fun s : PredicateAssignmentSet => s.set rank = true)
    (fun first => rank = sets.hash.vertexRank ⟨first, objects.getD first 0⟩ ∨
      ∃ second, first < second ∧ second < sets.arity ∧
        rank = sets.hash.edgeRank (edgeAssignment objects first second))
    (fun s same first _ => (insertPosition_hash objects s first).trans same) ?_ rfl).trans
  · simp only [List.mem_range]
  · intro s same first _
    rw [insertPosition_set, arity, same, arity]

/-- Inserting a binding adds its own vertex assignments. -/
theorem testVertex_insert {sets : PredicateAssignmentSet} {objects : List Nat}
    (full : objects.length = sets.arity) {assignment : VertexAssignment}
    (contains : sets.hash.Contains assignment) :
    (sets.insert objects).testVertex assignment = true ↔
      sets.testVertex assignment = true ∨ objects[assignment.index]? = some assignment.object := by
  unfold testVertex
  rw [insert_set, insert_hash, ← full]
  exact or_congr_right (PerfectAssignmentHash.touches_vertexRank full contains)

/-- Inserting a binding adds its own ordered edge assignments. -/
theorem testEdge_insert {sets : PredicateAssignmentSet} {objects : List Nat}
    (full : objects.length = sets.arity) {assignment : EdgeAssignment}
    (ordered : assignment.first.index < assignment.second.index)
    (containsFirst : sets.hash.Contains assignment.first)
    (containsSecond : sets.hash.Contains assignment.second) :
    (sets.insert objects).testEdge assignment = true ↔
      sets.testEdge assignment = true ∨
        (objects[assignment.first.index]? = some assignment.first.object ∧
          objects[assignment.second.index]? = some assignment.second.object) := by
  unfold testEdge
  rw [insert_set, insert_hash, ← full]
  exact or_congr_right
    (PerfectAssignmentHash.touches_edgeRank full ordered containsFirst containsSecond)

end PredicateAssignmentSet

/-! ### The assignment sets of all predicates -/

/-- One assignment set for each predicate. -/
abbrev PredicateAssignmentSets := Nat → PredicateAssignmentSet

namespace PredicateAssignmentSets

def create (domains : Nat → List (List Nat)) : PredicateAssignmentSets :=
  fun predicate => PredicateAssignmentSet.create (domains predicate)

def insert (sets : PredicateAssignmentSets) (fact : Tuple) : PredicateAssignmentSets :=
  Function.update sets fact.relation ((sets fact.relation).insert fact.objects)

/-- The sets after a reset and the insertion of all facts. -/
def ofFacts (domains : Nat → List (List Nat)) (facts : List Tuple) : PredicateAssignmentSets :=
  facts.foldl insert (create domains)

variable {domains : Nat → List (List Nat)}

/-- The hash of each set is the one of its predicate's domains. -/
def Hashes (domains : Nat → List (List Nat)) (sets : PredicateAssignmentSets) : Prop :=
  ∀ predicate, (sets predicate).hash = ⟨domains predicate⟩

theorem Hashes.insert {sets : PredicateAssignmentSets} (hashes : Hashes domains sets) (fact : Tuple) :
    Hashes domains (sets.insert fact) := by
  intro predicate
  unfold PredicateAssignmentSets.insert
  by_cases same : predicate = fact.relation
  · subst same
    rw [Function.update_self, PredicateAssignmentSet.insert_hash, hashes]
  · rw [Function.update_of_ne same, hashes]

/-- Within the domains a vertex assignment is in the sets iff some fact has the
object at the position. -/
theorem test_vertex_iff {facts : List Tuple}
    (full : ∀ fact ∈ facts, fact.objects.length = (domains fact.relation).length) {predicate : Nat}
    {assignment : VertexAssignment}
    (contains : (PerfectAssignmentHash.mk (domains predicate)).Contains assignment) :
    (ofFacts domains facts predicate).testVertex assignment = true ↔
      ∃ fact ∈ facts, fact.relation = predicate ∧
        fact.objects[assignment.index]? = some assignment.object := by
  unfold ofFacts
  apply (foldl_iff (P := Hashes domains)
    (fun sets : PredicateAssignmentSets => (sets predicate).testVertex assignment = true)
    (fun fact => fact.relation = predicate ∧
      fact.objects[assignment.index]? = some assignment.object)
    (fun _ hashes fact _ => hashes.insert fact) ?_ (fun _ => rfl)).trans
  · exact or_iff_right Bool.false_ne_true
  · intro sets hashes fact mem
    unfold insert
    by_cases same : predicate = fact.relation
    · subst same
      have fullHere : fact.objects.length = (sets fact.relation).arity := by
        rw [full fact mem, PredicateAssignmentSet.arity, hashes]
      rw [Function.update_self, PredicateAssignmentSet.testVertex_insert fullHere (by rwa [hashes])]
      simp only [true_and]
    · rw [Function.update_of_ne same]
      exact (or_iff_left fun adds => same adds.1.symm).symm

/-- Within the domains an ordered edge assignment is in the sets iff some fact
has both objects at the two positions. -/
theorem test_edge_iff {facts : List Tuple}
    (full : ∀ fact ∈ facts, fact.objects.length = (domains fact.relation).length) {predicate : Nat}
    {assignment : EdgeAssignment} (ordered : assignment.first.index < assignment.second.index)
    (containsFirst : (PerfectAssignmentHash.mk (domains predicate)).Contains assignment.first)
    (containsSecond : (PerfectAssignmentHash.mk (domains predicate)).Contains assignment.second) :
    (ofFacts domains facts predicate).testEdge assignment = true ↔
      ∃ fact ∈ facts, fact.relation = predicate ∧
        fact.objects[assignment.first.index]? = some assignment.first.object ∧
        fact.objects[assignment.second.index]? = some assignment.second.object := by
  unfold ofFacts
  apply (foldl_iff (P := Hashes domains)
    (fun sets : PredicateAssignmentSets => (sets predicate).testEdge assignment = true)
    (fun fact => fact.relation = predicate ∧
      fact.objects[assignment.first.index]? = some assignment.first.object ∧
      fact.objects[assignment.second.index]? = some assignment.second.object)
    (fun _ hashes fact _ => hashes.insert fact) ?_ (fun _ => rfl)).trans
  · exact or_iff_right Bool.false_ne_true
  · intro sets hashes fact mem
    unfold insert
    by_cases same : predicate = fact.relation
    · subst same
      have fullHere : fact.objects.length = (sets fact.relation).arity := by
        rw [full fact mem, PredicateAssignmentSet.arity, hashes]
      rw [Function.update_self, PredicateAssignmentSet.testEdge_insert fullHere ordered
        (by rwa [hashes]) (by rwa [hashes])]
      simp only [true_and]
    · rw [Function.update_of_ne same]
      exact (or_iff_left fun adds => same adds.1.symm).symm

/-- `test_edge_iff` for two assignments in any order. -/
theorem test_ordered_iff {facts : List Tuple}
    (full : ∀ fact ∈ facts, fact.objects.length = (domains fact.relation).length) {predicate : Nat}
    {a b : VertexAssignment} (different : a.index ≠ b.index)
    (containsA : (PerfectAssignmentHash.mk (domains predicate)).Contains a)
    (containsB : (PerfectAssignmentHash.mk (domains predicate)).Contains b) :
    (ofFacts domains facts predicate).testEdge (.ordered a b) = true ↔
      ∃ fact ∈ facts, fact.relation = predicate ∧
        fact.objects[a.index]? = some a.object ∧ fact.objects[b.index]? = some b.object := by
  unfold EdgeAssignment.ordered
  split
  · next swapped =>
      rw [test_edge_iff full swapped containsB containsA]
      simp only [and_comm (a := _ = some b.object)]
  · next inOrder =>
      have ordered : a.index < b.index := by omega
      exact test_edge_iff full ordered containsA containsB

end PredicateAssignmentSets

end Tyr.Datalog
