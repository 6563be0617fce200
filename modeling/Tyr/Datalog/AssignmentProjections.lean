import Tyr.Datalog.NumericIntervals

/-!
The assignment sets are the exact projections of what was inserted since the last reset.

* `IntervalLibrary.IsHull` — the least interval around some values.
* `FunctionAssignmentSet.insert_isHull` — an insertion widens the intervals of its own
  assignments and no others.
* `assignmentSets_project` — the bits and the intervals after any calls, and the numbers
  of the assignments.
-/

namespace Tyr

/-! ### Comparison of numbers -/

namespace Number

theorem le_refl {v : Number} (isNumber : v ≠ nan) : v.le v = true := by
  cases v <;> simp_all [le, isNaN]

theorem le_of_not_lt {v w : Number} (vNumber : v ≠ nan) (wNumber : w ≠ nan)
    (notLess : w.lt v = false) : v.le w = true := by
  cases v <;> cases w <;> simp_all [le, lt, isNaN, le_iff_lt_or_eq]

theorem le_trans {u v w : Number} (first : u.le v = true) (second : v.le w = true) :
    u.le w = true := by
  cases u <;> cases v <;> cases w <;> simp_all [le, lt, isNaN, ← le_iff_lt_or_eq]
  exact first.trans second

end Number

namespace Datalog

open Tyr.Lib Tyr.Formalism Number

/-! ### Hulls -/

namespace IntervalLibrary

variable (library : IntervalLibrary)

/-- The library on singletons and hulls: an interval around something that is not a
number is empty, and a hull ignores empty intervals. -/
structure HullSpec : Prop where
  empty : library.isEmpty library.empty = true
  closed_nan : library.isEmpty (library.closed nan nan) = true
  closed : ∀ v, v ≠ nan → library.isEmpty (library.closed v v) = false ∧
    library.lower (library.closed v v) = v ∧ library.upper (library.closed v v) = v
  hull_empty : ∀ a b, library.isEmpty a = true → library.isEmpty b = true →
    library.isEmpty (library.hull a b) = true
  hull_left : ∀ a b, library.isEmpty a = false → library.isEmpty b = true → library.hull a b = a
  hull_right : ∀ a b, library.isEmpty a = true → library.isEmpty b = false → library.hull a b = b
  hull : ∀ a b, library.isEmpty a = false → library.isEmpty b = false →
    library.isEmpty (library.hull a b) = false ∧
    library.lower (library.hull a b) =
      (if (library.lower b).lt (library.lower a) then library.lower b else library.lower a) ∧
    library.upper (library.hull a b) =
      if (library.upper a).lt (library.upper b) then library.upper b else library.upper a

variable {library}

/-- The interval is the hull of the values: its bounds are the least and the greatest of
them, and it is empty if none is a number. -/
structure IsHull (interval : library.Interval) (values : Number → Prop) : Prop where
  empty_iff : library.isEmpty interval = true ↔ ∀ v, values v → v = nan
  lower : library.isEmpty interval = false → values (library.lower interval) ∧
    ∀ v, values v → v ≠ nan → (library.lower interval).le v = true
  upper : library.isEmpty interval = false → values (library.upper interval) ∧
    ∀ v, values v → v ≠ nan → v.le (library.upper interval) = true

namespace IsHull

variable {interval : library.Interval} {values : Number → Prop}

theorem congr {others : Number → Prop} (isHull : IsHull interval values)
    (same : ∀ v, values v ↔ others v) : IsHull interval others := by
  have equal : values = others := funext fun v => propext (same v)
  rwa [← equal]

theorem of_empty (spec : library.HullSpec) : IsHull library.empty fun _ => False where
  empty_iff := iff_of_true spec.empty fun _ none => none.elim
  lower nonempty := by
    rw [spec.empty] at nonempty
    cases nonempty
  upper nonempty := by
    rw [spec.empty] at nonempty
    cases nonempty

/-- Some value of a nonempty hull is a number, and so are its bounds. -/
theorem bounds_number (isHull : IsHull interval values)
    (nonempty : library.isEmpty interval = false) :
    library.lower interval ≠ nan ∧ library.upper interval ≠ nan := by
  have someNumber : ¬ ∀ v, values v → v = nan := by
    rw [← isHull.empty_iff, nonempty]
    simp
  push Not at someNumber
  obtain ⟨v, mem, isNumber⟩ := someNumber
  constructor
  · intro isNan
    have below := (isHull.lower nonempty).2 v mem isNumber
    rw [isNan] at below
    cases v <;> cases below
  · intro isNan
    have above := (isHull.upper nonempty).2 v mem isNumber
    rw [isNan] at above
    cases v with
    | nan => exact isNumber rfl
    | _ => cases above

/-- Something that is not a number does not change the interval. -/
theorem extend_nan (spec : library.HullSpec) (isHull : IsHull interval values) :
    IsHull (library.hull interval (library.closed nan nan)) fun v => values v ∨ v = nan := by
  cases emptiness : library.isEmpty interval with
  | true =>
      have empty := spec.hull_empty _ _ emptiness spec.closed_nan
      refine ⟨iff_of_true empty ?_, fun nonempty => ?_, fun nonempty => ?_⟩
      · rintro v (old | isNew)
        · exact isHull.empty_iff.mp emptiness v old
        · exact isNew
      · rw [empty] at nonempty
        cases nonempty
      · rw [empty] at nonempty
        cases nonempty
  | false =>
      rw [spec.hull_left _ _ emptiness spec.closed_nan]
      refine ⟨?_, fun nonempty => ?_, fun nonempty => ?_⟩
      · rw [isHull.empty_iff]
        refine ⟨?_, fun all v old => all v (.inl old)⟩
        rintro all v (old | isNew)
        · exact all v old
        · exact isNew
      · refine ⟨.inl (isHull.lower nonempty).1, ?_⟩
        rintro v (old | isNew) isNumber
        · exact (isHull.lower nonempty).2 v old isNumber
        · exact absurd isNew isNumber
      · refine ⟨.inl (isHull.upper nonempty).1, ?_⟩
        rintro v (old | isNew) isNumber
        · exact (isHull.upper nonempty).2 v old isNumber
        · exact absurd isNew isNumber

/-- The first number is both bounds. -/
theorem extend_first (spec : library.HullSpec) (isHull : IsHull interval values)
    (emptiness : library.isEmpty interval = true) {value : Number} (isNumber : value ≠ nan) :
    IsHull (library.hull interval (library.closed value value)) fun v => values v ∨ v = value := by
  obtain ⟨single, lower, upper⟩ := spec.closed value isNumber
  have onlyNew : ∀ v, values v ∨ v = value → v ≠ nan → v = value := by
    rintro v (old | isNew) other
    · exact absurd (isHull.empty_iff.mp emptiness v old) other
    · exact isNew
  rw [spec.hull_right _ _ emptiness single]
  refine ⟨?_, fun _ => ?_, fun _ => ?_⟩
  · rw [single]
    exact iff_of_false Bool.false_ne_true fun all => isNumber (all value (.inr rfl))
  · rw [lower]
    refine ⟨.inr rfl, fun v mem other => ?_⟩
    rw [onlyNew v mem other]
    exact le_refl isNumber
  · rw [upper]
    refine ⟨.inr rfl, fun v mem other => ?_⟩
    rw [onlyNew v mem other]
    exact le_refl isNumber

/-- A further number replaces the bounds that it lies beyond. -/
theorem extend_number (spec : library.HullSpec) (isHull : IsHull interval values)
    (emptiness : library.isEmpty interval = false) {value : Number} (isNumber : value ≠ nan) :
    IsHull (library.hull interval (library.closed value value)) fun v => values v ∨ v = value := by
  obtain ⟨single, lower, upper⟩ := spec.closed value isNumber
  obtain ⟨nonempty, lowerHull, upperHull⟩ := spec.hull _ _ emptiness single
  obtain ⟨lowerNumber, upperNumber⟩ := isHull.bounds_number emptiness
  obtain ⟨isLower, below⟩ := isHull.lower emptiness
  obtain ⟨isUpper, above⟩ := isHull.upper emptiness
  refine ⟨?_, fun _ => ?_, fun _ => ?_⟩
  · rw [nonempty]
    exact iff_of_false Bool.false_ne_true fun all => isNumber (all value (.inr rfl))
  · rw [lowerHull, lower]
    cases less : value.lt (library.lower interval) with
    | true =>
        have lowered : value.le (library.lower interval) = true := by
          rw [Number.le, less, Bool.true_or]
        refine ⟨.inr rfl, ?_⟩
        rintro v (old | rfl) other
        · exact le_trans lowered (below v old other)
        · exact le_refl isNumber
    | false =>
        refine ⟨.inl isLower, ?_⟩
        rintro v (old | rfl) other
        · exact below v old other
        · exact le_of_not_lt lowerNumber isNumber less
  · rw [upperHull, upper]
    cases less : (library.upper interval).lt value with
    | true =>
        have raised : (library.upper interval).le value = true := by
          rw [Number.le, less, Bool.true_or]
        refine ⟨.inr rfl, ?_⟩
        rintro v (old | rfl) other
        · exact le_trans (above v old other) raised
        · exact le_refl isNumber
    | false =>
        refine ⟨.inl isUpper, ?_⟩
        rintro v (old | rfl) other
        · exact above v old other
        · exact le_of_not_lt isNumber upperNumber less

/-- The hull with a further value. -/
theorem extend (spec : library.HullSpec) (isHull : IsHull interval values) (value : Number) :
    IsHull (library.hull interval (library.closed value value)) fun v => values v ∨ v = value := by
  by_cases isNan : value = nan
  · subst isNan
    exact isHull.extend_nan spec
  · cases emptiness : library.isEmpty interval with
    | true => exact isHull.extend_first spec emptiness isNan
    | false => exact isHull.extend_number spec emptiness isNan

end IsHull

namespace FunctionAssignmentSet

variable {library : IntervalLibrary} {sets : library.FunctionAssignmentSet} {rank : Nat}

/-! ### Insertions into a function's set -/

/-- The steps of a loop that add to the interval of a number add to it in turn. -/
theorem isHull_foldl {β : Type*} (step : library.FunctionAssignmentSet → β →
      library.FunctionAssignmentSet) (items : List β) (adds : β → Number → Prop)
    (keeps : ∀ state : library.FunctionAssignmentSet, state.hash = sets.hash → ∀ item ∈ items,
      (step state item).hash = sets.hash)
    (law : ∀ state : library.FunctionAssignmentSet, state.hash = sets.hash → ∀ item ∈ items,
      ∀ values, IsHull (state.set rank) values →
        IsHull ((step state item).set rank) fun v => values v ∨ adds item v)
    {values : Number → Prop} (isHull : IsHull (sets.set rank) values) :
    IsHull ((items.foldl step sets).set rank) fun v => values v ∨ ∃ item ∈ items, adds item v := by
  have general : ∀ (rest : List β) (state : library.FunctionAssignmentSet) (values : Number → Prop),
      (∀ item ∈ rest, item ∈ items) → state.hash = sets.hash → IsHull (state.set rank) values →
      IsHull ((rest.foldl step state).set rank) fun v => values v ∨ ∃ item ∈ rest, adds item v := by
    intro rest
    induction rest with
    | nil =>
        intro state values _ _ isHull
        exact isHull.congr fun v => by simp
    | cons item rest ih =>
        intro state values sub same isHull
        have mem := sub item List.mem_cons_self
        have after := ih (step state item) _ (fun other later => sub other (List.mem_cons_of_mem _ later))
          (keeps state same item mem) (law state same item mem values isHull)
        exact after.congr fun v => by simp only [List.mem_cons, exists_eq_or_imp, or_assoc]
  exact general items sets values (fun _ mem => mem) rfl isHull

theorem isHull_extend (spec : library.HullSpec) (value : Number) (target : Nat)
    {values : Number → Prop} (isHull : IsHull (sets.set rank) values) :
    IsHull ((sets.extend value target).set rank) fun v => values v ∨ (rank = target ∧ v = value) := by
  change IsHull (Function.update sets.set target _ rank) _
  by_cases same : rank = target
  · subst same
    rw [Function.update_self]
    exact (isHull.extend spec value).congr fun v => by simp
  · rw [Function.update_of_ne same]
    exact isHull.congr fun v => by simp [same]

theorem insertPosition_hash (objects : List Nat) (value : Number)
    (sets : library.FunctionAssignmentSet) (first : Nat) :
    (insertPosition objects value sets first).hash = sets.hash := by
  unfold insertPosition
  apply foldl_unchanged FunctionAssignmentSet.hash
  intro state second _
  rfl

theorem insert_hash (sets : library.FunctionAssignmentSet) (objects : List Nat) (value : Number) :
    (sets.insert objects value).hash = sets.hash := by
  unfold insert
  exact foldl_unchanged FunctionAssignmentSet.hash
    (fun state first _ => insertPosition_hash objects value state first) _

/-- The intervals that a position widens. -/
theorem insertPosition_isHull (spec : library.HullSpec) (objects : List Nat) (value : Number)
    (first : Nat) {values : Number → Prop} (isHull : IsHull (sets.set rank) values) :
    IsHull ((insertPosition objects value sets first).set rank) fun v => values v ∨
      ((rank = sets.hash.vertexRank ⟨first, objects.getD first 0⟩ ∨
        ∃ second, first < second ∧ second < objects.length ∧
          rank = sets.hash.edgeRank (edgeAssignment objects first second)) ∧ v = value) := by
  unfold insertPosition
  have vertex := isHull_extend spec value (sets.hash.vertexRank ⟨first, objects.getD first 0⟩) isHull
  have edges := isHull_foldl
    (fun s second => s.extend value (s.hash.edgeRank (edgeAssignment objects first second)))
    (List.range' (first + 1) (objects.length - (first + 1)))
    (fun second v => rank = sets.hash.edgeRank (edgeAssignment objects first second) ∧ v = value)
    (fun _ same _ _ => same) (fun state same second _ _ isHull => by
      rw [show sets.hash = state.hash from same.symm]
      exact isHull_extend spec value _ isHull) vertex
  apply edges.congr
  intro v
  simp only [List.mem_range'_1]
  constructor
  · rintro ((old | ⟨isVertex, same⟩) | ⟨second, ⟨later, inRange⟩, isEdge, same⟩)
    · exact .inl old
    · exact .inr ⟨.inl isVertex, same⟩
    · exact .inr ⟨.inr ⟨second, by omega, by omega, isEdge⟩, same⟩
  · rintro (old | ⟨isVertex | ⟨second, later, inRange, isEdge⟩, same⟩)
    · exact .inl (.inl old)
    · exact .inl (.inr ⟨isVertex, same⟩)
    · exact .inr ⟨second, ⟨by omega, by omega⟩, isEdge, same⟩

/-- An insertion widens the intervals of the empty assignment and of the assignments of
its objects. -/
theorem insert_isHull (spec : library.HullSpec) (objects : List Nat) (value : Number)
    {values : Number → Prop} (isHull : IsHull (sets.set rank) values) :
    IsHull ((sets.insert objects value).set rank) fun v => values v ∨
      ((rank = 0 ∨ sets.hash.Touches objects rank) ∧ v = value) := by
  unfold insert
  have empty := isHull_extend spec value 0 isHull
  have positions := isHull_foldl (insertPosition objects value) (List.range objects.length)
    (fun first v => (rank = sets.hash.vertexRank ⟨first, objects.getD first 0⟩ ∨
      ∃ second, first < second ∧ second < objects.length ∧
        rank = sets.hash.edgeRank (edgeAssignment objects first second)) ∧ v = value)
    (fun state same first _ => (insertPosition_hash objects value state first).trans same)
    (fun state same first _ _ isHull => by
      rw [show sets.hash = state.hash from same.symm]
      exact insertPosition_isHull spec objects value first isHull) empty
  apply positions.congr
  intro v
  simp only [List.mem_range, PerfectAssignmentHash.Touches]
  constructor
  · rintro ((old | ⟨isEmpty, same⟩) | ⟨first, inRange, touched, same⟩)
    · exact .inl old
    · exact .inr ⟨.inl isEmpty, same⟩
    · exact .inr ⟨.inr ⟨first, inRange, touched⟩, same⟩
  · rintro (old | ⟨isEmpty | ⟨first, inRange, touched⟩, same⟩)
    · exact .inl (.inl old)
    · exact .inl (.inr ⟨isEmpty, same⟩)
    · exact .inr ⟨first, inRange, touched, same⟩

end FunctionAssignmentSet

end IntervalLibrary

/-! ### Calls -/

inductive AssignmentCall (α : Type) where
  | reset
  | insert (entry : α)

namespace AssignmentCall

variable {α σ : Type}

/-- What was inserted since the last reset. -/
def inserted (calls : List (AssignmentCall α)) : List α :=
  calls.foldl (fun entries call =>
    match call with
    | reset => []
    | insert entry => entries ++ [entry]) []

/-- A relation with what was inserted that each call keeps. -/
theorem inserted_invariant {step : σ → AssignmentCall α → σ} {R : σ → List α → Prop} {start : σ}
    (init : R start []) (resets : ∀ state entries, R state entries → R (step state reset) [])
    (inserts : ∀ state entries entry, R state entries → R (step state (insert entry)) (entries ++ [entry]))
    (calls : List (AssignmentCall α)) : R (calls.foldl step start) (inserted calls) := by
  induction calls using List.reverseRecOn with
  | nil => exact init
  | append_singleton calls call ih =>
      rw [inserted, List.foldl_append, List.foldl_append]
      cases call with
      | reset => exact resets _ _ ih
      | insert entry => exact inserts _ _ entry ih

end AssignmentCall

/-- The objects of a binding, one for each domain. -/
abbrev BindingOf (domains : List (List Nat)) : Type :=
  { objects : List Nat // objects.length = domains.length }

section

variable {domains : List (List Nat)}

namespace PredicateAssignmentSet

def reset (sets : PredicateAssignmentSet) : PredicateAssignmentSet :=
  { sets with set := fun _ => false }

def call (sets : PredicateAssignmentSet) : AssignmentCall (BindingOf domains) → PredicateAssignmentSet
  | .reset => sets.reset
  | .insert objects => sets.insert objects.val

/-- Within the domains the set has the assignments of the facts. -/
structure Projects (sets : PredicateAssignmentSet) (facts : List (BindingOf domains)) : Prop where
  hash : sets.hash = ⟨domains⟩
  vertex : ∀ a : VertexAssignment, sets.hash.Contains a →
    (sets.testVertex a = true ↔ ∃ fact ∈ facts, fact.val[a.index]? = some a.object)
  edge : ∀ a : EdgeAssignment, a.first.index < a.second.index → sets.hash.Contains a.first →
    sets.hash.Contains a.second →
    (sets.testEdge a = true ↔ ∃ fact ∈ facts, fact.val[a.first.index]? = some a.first.object ∧
      fact.val[a.second.index]? = some a.second.object)

theorem projects_empty {sets : PredicateAssignmentSet} (hash : sets.hash = ⟨domains⟩) :
    sets.reset.Projects ([] : List (BindingOf domains)) where
  hash := hash
  vertex _ _ := by simp [testVertex, reset]
  edge _ _ _ _ := by simp [testEdge, reset]

theorem Projects.insert {sets : PredicateAssignmentSet} {facts : List (BindingOf domains)}
    (projects : sets.Projects facts) (fact : BindingOf domains) :
    (sets.insert fact.val).Projects (facts ++ [fact]) := by
  have full : fact.val.length = sets.arity := by
    rw [fact.property, arity, projects.hash]
  refine ⟨(insert_hash _ _).trans projects.hash, ?_, ?_⟩
  · intro a contains
    rw [insert_hash] at contains
    rw [testVertex_insert full contains, projects.vertex a contains]
    simp [or_and_right, exists_or]
  · intro a ordered containsFirst containsSecond
    rw [insert_hash] at containsFirst containsSecond
    rw [testEdge_insert full ordered containsFirst containsSecond,
      projects.edge a ordered containsFirst containsSecond]
    simp [or_and_right, exists_or]

theorem projects_calls (calls : List (AssignmentCall (BindingOf domains))) :
    (calls.foldl call (create domains)).Projects (AssignmentCall.inserted calls) := by
  apply AssignmentCall.inserted_invariant (R := Projects)
  · change (create domains).reset.Projects []
    exact projects_empty rfl
  · intro sets facts projects
    exact projects_empty projects.hash
  · intro sets facts fact projects
    exact projects.insert fact

end PredicateAssignmentSet

namespace IntervalLibrary.FunctionAssignmentSet

variable {library : IntervalLibrary}

def reset (sets : library.FunctionAssignmentSet) : library.FunctionAssignmentSet :=
  { sets with set := fun _ => library.empty }

def call (sets : library.FunctionAssignmentSet) :
    AssignmentCall (BindingOf domains × Number) → library.FunctionAssignmentSet
  | .reset => sets.reset
  | .insert (objects, value) => sets.insert objects.val value

/-- Within the domains the intervals are the hulls of the values of the matching terms. -/
structure Projects (sets : library.FunctionAssignmentSet)
    (terms : List (BindingOf domains × Number)) : Prop where
  hash : sets.hash = ⟨domains⟩
  empty : IsHull sets.atEmpty fun v => ∃ term ∈ terms, v = term.2
  vertex : ∀ a : VertexAssignment, sets.hash.Contains a →
    IsHull (sets.atVertex a) fun v =>
      ∃ term ∈ terms, term.1.val[a.index]? = some a.object ∧ v = term.2
  edge : ∀ a : EdgeAssignment, a.first.index < a.second.index → sets.hash.Contains a.first →
    sets.hash.Contains a.second →
    IsHull (sets.atEdge a) fun v =>
      ∃ term ∈ terms, (term.1.val[a.first.index]? = some a.first.object ∧
        term.1.val[a.second.index]? = some a.second.object) ∧ v = term.2

theorem projects_empty (spec : library.HullSpec) {sets : library.FunctionAssignmentSet}
    (hash : sets.hash = ⟨domains⟩) :
    sets.reset.Projects ([] : List (BindingOf domains × Number)) where
  hash := hash
  empty := (IsHull.of_empty spec).congr fun _ => by simp
  vertex _ _ := (IsHull.of_empty spec).congr fun _ => by simp
  edge _ _ _ _ := (IsHull.of_empty spec).congr fun _ => by simp

theorem Projects.insert (spec : library.HullSpec) {sets : library.FunctionAssignmentSet}
    {terms : List (BindingOf domains × Number)} (projects : sets.Projects terms)
    (objects : BindingOf domains) (value : Number) :
    (sets.insert objects.val value).Projects (terms ++ [(objects, value)]) := by
  have full : objects.val.length = sets.hash.parameterDomains.length := by
    rw [objects.property, projects.hash]
  refine ⟨(insert_hash _ _ _).trans projects.hash, ?_, ?_, ?_⟩
  · apply (insert_isHull spec objects.val value projects.empty).congr
    intro v
    simp [or_and_right, exists_or]
  · intro a contains
    rw [insert_hash] at contains
    rw [atVertex, insert_hash]
    apply (insert_isHull spec objects.val value (projects.vertex a contains)).congr
    intro v
    rw [or_iff_right (PerfectAssignmentHash.vertexRank_pos a).ne',
      PerfectAssignmentHash.touches_vertexRank full contains]
    simp [or_and_right, exists_or]
  · intro a ordered containsFirst containsSecond
    rw [insert_hash] at containsFirst containsSecond
    rw [atEdge, insert_hash]
    apply (insert_isHull spec objects.val value
      (projects.edge a ordered containsFirst containsSecond)).congr
    intro v
    rw [or_iff_right (PerfectAssignmentHash.edgeRank_pos a).ne',
      PerfectAssignmentHash.touches_edgeRank full ordered containsFirst containsSecond]
    simp [or_and_right, exists_or]

theorem projects_calls (spec : library.HullSpec)
    (calls : List (AssignmentCall (BindingOf domains × Number))) :
    (calls.foldl call (create domains : library.FunctionAssignmentSet)).Projects
      (AssignmentCall.inserted calls) := by
  apply AssignmentCall.inserted_invariant (R := Projects)
  · change (create domains : library.FunctionAssignmentSet).reset.Projects []
    exact projects_empty spec rfl
  · intro sets terms projects
    exact projects_empty spec projects.hash
  · intro sets terms term projects
    exact projects.insert spec term.1 term.2

end IntervalLibrary.FunctionAssignmentSet

end

/-! ### Numbers -/

namespace PerfectAssignmentHash

/-- `EmptyAssignment::rank`. -/
def emptyRank : Nat := 0

/-- The allocated size. -/
def size (hash : PerfectAssignmentHash) : Nat := hash.numAssignments * hash.numAssignments

/-- The numbers of the assignments within the domains are their own, also among those of
objects outside the domains, and all numbers are within the size. -/
structure RanksApart (hash : PerfectAssignmentHash) : Prop where
  vertex : ∀ a b : VertexAssignment, hash.Contains a → b.index < hash.parameterDomains.length →
    hash.vertexRank a = hash.vertexRank b → a = b
  edge : ∀ a b : EdgeAssignment, hash.Contains a.first → hash.Contains a.second →
    b.first.index < hash.parameterDomains.length → b.second.index < hash.parameterDomains.length →
    hash.edgeRank a = hash.edgeRank b → a = b
  vertex_edge : ∀ (a : VertexAssignment) (b : EdgeAssignment),
    a.index < hash.parameterDomains.length → hash.vertexRank a ≠ hash.edgeRank b
  empty_vertex : ∀ a : VertexAssignment, emptyRank ≠ hash.vertexRank a
  empty_edge : ∀ a : EdgeAssignment, emptyRank ≠ hash.edgeRank a
  empty_lt : emptyRank < hash.size
  vertex_lt : ∀ a : VertexAssignment, a.index < hash.parameterDomains.length →
    hash.vertexRank a < hash.size
  edge_lt : ∀ a : EdgeAssignment, a.first.index < hash.parameterDomains.length →
    a.second.index < hash.parameterDomains.length → hash.edgeRank a < hash.size

theorem numAssignments_pos (hash : PerfectAssignmentHash) : 0 < hash.numAssignments :=
  countAssignments_le_append [] hash.parameterDomains

theorem ranksApart (hash : PerfectAssignmentHash) : hash.RanksApart where
  vertex _ _ contains inRange := (vertexRank_eq_iff contains inRange).mp
  edge _ _ containsFirst containsSecond inRangeFirst inRangeSecond :=
    (edgeRank_eq_iff containsFirst containsSecond inRangeFirst inRangeSecond).mp
  vertex_edge _ b inRange := vertexRank_ne_edgeRank inRange b
  empty_vertex a := (vertexRank_pos a).ne
  empty_edge a := (edgeRank_pos a).ne
  empty_lt := Nat.mul_pos hash.numAssignments_pos hash.numAssignments_pos
  vertex_lt a inRange := (vertexRank_lt inRange).trans_le (Nat.le_mul_self _)
  edge_lt a inRangeFirst inRangeSecond := by
    have first := vertexRank_lt inRangeFirst
    have second := vertexRank_lt inRangeSecond
    calc hash.edgeRank a < hash.vertexRank a.first * hash.numAssignments + hash.numAssignments :=
          Nat.add_lt_add_left second _
      _ = (hash.vertexRank a.first + 1) * hash.numAssignments := (Nat.succ_mul _ _).symm
      _ ≤ hash.size := Nat.mul_le_mul_right _ first

end PerfectAssignmentHash

/-- After any calls, the bits are the projections of the facts that were inserted since
the last reset, and the intervals the hulls of the values of the matching terms. The
numbers of the assignments do not collide and are within the allocated size. -/
theorem assignmentSets_project {library : IntervalLibrary} (spec : library.HullSpec)
    (domains : List (List Nat)) (facts : List (AssignmentCall (BindingOf domains)))
    (terms : List (AssignmentCall (BindingOf domains × Number))) :
    (facts.foldl PredicateAssignmentSet.call (.create domains)).Projects
        (AssignmentCall.inserted facts) ∧
      (terms.foldl IntervalLibrary.FunctionAssignmentSet.call
        (.create domains : library.FunctionAssignmentSet)).Projects (AssignmentCall.inserted terms) ∧
      (PerfectAssignmentHash.mk domains).RanksApart :=
  ⟨PredicateAssignmentSet.projects_calls facts,
    IntervalLibrary.FunctionAssignmentSet.projects_calls spec terms,
    PerfectAssignmentHash.ranksApart _⟩

/-- Intervals as pairs of bounds that are in order. -/
def checkedIntervals : IntervalLibrary :=
  { boundedIntervals with
    Interval := Option (Number × Number)
    closed := fun lower upper => if lower.le upper then some (lower, upper) else none
    hull := fun
      | none, rhs => rhs
      | lhs, none => lhs
      | some (lower, upper), some (lower', upper') =>
          some (if lower'.lt lower then lower' else lower, if upper.lt upper' then upper' else upper) }

theorem checkedIntervals_hullSpec : checkedIntervals.HullSpec where
  empty := rfl
  closed_nan := rfl
  closed v isNumber := by
    have same : checkedIntervals.closed v v = (some (v, v) : Option (Number × Number)) :=
      if_pos (le_refl isNumber)
    rw [same]
    exact ⟨rfl, rfl, rfl⟩
  hull_empty a b left right := by
    cases a with
    | none => exact right
    | some _ => cases left
  hull_left a b left right := by
    cases b with
    | none =>
        cases a with
        | none => rfl
        | some _ => rfl
    | some _ => cases right
  hull_right a b left right := by
    cases a with
    | none => rfl
    | some _ => cases left
  hull a b left right := by
    cases a with
    | none => cases left
    | some _ =>
        cases b with
        | none => cases right
        | some _ => exact ⟨rfl, rfl, rfl⟩

/-- The bindings `(0, 1)`, within the domains, and `(1, 0)`, outside. -/
def insideBinding : BindingOf [[0, 1], [1]] := ⟨[0, 1], rfl⟩
def outsideBinding : BindingOf [[0, 1], [1]] := ⟨[1, 0], rfl⟩

/-- The first insertion is reset. -/
theorem assignmentSets_project_checked :
    (List.foldl IntervalLibrary.FunctionAssignmentSet.call
      (.create [[0, 1], [1]] : checkedIntervals.FunctionAssignmentSet)
      [.insert (insideBinding, .finite 7), .reset, .insert (insideBinding, .finite 2),
        .insert (outsideBinding, .finite 3)]).Projects
      [(insideBinding, .finite 2), (outsideBinding, .finite 3)] :=
  (assignmentSets_project checkedIntervals_hullSpec [[0, 1], [1]] []
    [.insert (insideBinding, .finite 7), .reset, .insert (insideBinding, .finite 2),
      .insert (outsideBinding, .finite 3)]).2.1

end Datalog

end Tyr
