import Mathlib.Data.List.GetD
import Tyr.Planning.MatchTree

/-!
Match trees are exact.

* `Builds` — what the construction makes of an entry, and `construct_of_builds`
  that it does.
* `collect` — the elements that a state reaches below a node, and
  `evaluateLoop_node` that the evaluation finds them.
* `tryCreateStackEntry_exact` — the node of an entry collects the elements that
  pass the remaining preconditions.
* `generate_exact` — a match tree generates the applicable elements, each once.
-/

namespace Tyr.Planning

open Tyr.Lib Tyr.Formalism Tyr.Formalism.Planning

/-! ### Consistent conditions -/

section

variable {κ β : Type} [DecidableEq κ] [DecidableEq β] {assign result : κ → Option β}
  {entries : List (κ × β)}

/-- Keys that are assigned keep their value, each entry is assigned, and nothing else is. -/
theorem assignAll_spec (assigns : assignAll assign entries = some result) :
    (∀ key value, assign key = some value → result key = some value) ∧
      (∀ entry ∈ entries, result entry.1 = some entry.2) ∧
      ∀ key value, result key = some value → assign key = some value ∨ (key, value) ∈ entries := by
  induction entries generalizing assign with
  | nil =>
      cases assigns
      exact ⟨fun _ _ known => known, fun _ mem => absurd mem List.not_mem_nil, fun _ _ => .inl⟩
  | cons entry rest ih =>
      rw [assignAll, List.foldlM_cons] at assigns
      cases known : assign entry.1 with
      | some value =>
          simp only [known] at assigns
          split at assigns
          · cases assigns
          · rename_i same
            obtain ⟨keeps, assigned, origin⟩ := ih assigns
            refine ⟨keeps, fun other mem => ?_, fun key value found =>
              (origin key value found).imp_right (List.mem_cons_of_mem _)⟩
            rcases List.mem_cons.mp mem with rfl | inRest
            · rw [keeps _ _ known, not_not.mp same]
            · exact assigned other inRest
      | none =>
          simp only [known] at assigns
          obtain ⟨keeps, assigned, origin⟩ := ih assigns
          refine ⟨fun key value known' => keeps key value ?_, fun other mem => ?_,
            fun key value found => ?_⟩
          · rw [Function.update_of_ne, known']
            rintro rfl
            rw [known] at known'
            cases known'
          · rcases List.mem_cons.mp mem with rfl | inRest
            · exact keeps _ _ (Function.update_self ..)
            · exact assigned other inRest
          · rcases origin key value found with old | inRest
            · by_cases same : key = entry.1
              · subst same
                rw [Function.update_self] at old
                obtain rfl := Option.some.inj old
                exact .inr List.mem_cons_self
              · rw [Function.update_of_ne same] at old
                exact .inl old
            · exact .inr (List.mem_cons_of_mem _ inRest)

/-- Entries that agree with each other and with what is assigned can be assigned. -/
theorem assignAll_isSome
    (agree : ∀ entry ∈ entries, ∀ value, assign entry.1 = some value → value = entry.2)
    (unique : ∀ entry ∈ entries, ∀ entry' ∈ entries, entry.1 = entry'.1 → entry.2 = entry'.2) :
    (assignAll assign entries).isSome := by
  induction entries generalizing assign with
  | nil => rfl
  | cons entry rest ih =>
      have uniqueRest := fun other mem other' mem' =>
        unique other (List.mem_cons_of_mem _ mem) other' (List.mem_cons_of_mem _ mem')
      rw [assignAll, List.foldlM_cons]
      cases known : assign entry.1 with
      | some value =>
          rw [agree entry List.mem_cons_self value known]
          simp only [ne_eq, not_true_eq_false, if_false, Option.bind_eq_bind, Option.bind_some]
          exact ih (fun other mem => agree other (List.mem_cons_of_mem _ mem)) uniqueRest
      | none =>
          simp only [Option.bind_eq_bind, Option.bind_some]
          refine ih (fun other mem value found => ?_) uniqueRest
          by_cases same : other.1 = entry.1
          · rw [same, Function.update_self] at found
            rw [← Option.some.inj found]
            exact unique entry List.mem_cons_self other (List.mem_cons_of_mem _ mem) same.symm
          · rw [Function.update_of_ne same] at found
            exact agree other (List.mem_cons_of_mem _ mem) value found

theorem assignAll_isSome_iff : (assignAll (fun _ => none) entries).isSome ↔
    ∀ entry ∈ entries, ∀ entry' ∈ entries, entry.1 = entry'.1 → entry.2 = entry'.2 := by
  constructor
  · intro isSome entry mem entry' mem' sameKey
    obtain ⟨result, assigns⟩ := Option.isSome_iff_exists.mp isSome
    have assigned := (assignAll_spec assigns).2.1
    exact Option.some.inj ((assigned entry mem).symm.trans (sameKey ▸ assigned entry' mem'))
  · exact fun unique => assignAll_isSome (fun _ _ _ found => by cases found) unique

end

/-- A consistent condition wants one value of a variable and one truth value of a derived
atom, and no fact that it forbids. -/
theorem isConsistent_iff {condition : GroundConjunctiveCondition} : isConsistent condition = true ↔
    (∀ fact ∈ condition.positiveFacts, ∀ fact' ∈ condition.positiveFacts,
      fact.var = fact'.var → fact.value = fact'.value) ∧
    (∀ fact ∈ condition.negativeFacts, fact ∉ condition.positiveFacts) ∧
    ∀ literal ∈ condition.derivedLiterals, ∀ literal' ∈ condition.derivedLiterals,
      literal.atom = literal'.atom → literal.polarity = literal'.polarity := by
  have values : (assignAll (fun _ => none) (condition.positiveFacts.map fun fact =>
      (fact.var, fact.value))).isSome ↔ ∀ fact ∈ condition.positiveFacts,
        ∀ fact' ∈ condition.positiveFacts, fact.var = fact'.var → fact.value = fact'.value := by
    simp [assignAll_isSome_iff]
  have polarities : (assignAll (fun _ => none) (condition.derivedLiterals.map fun literal =>
      (literal.atom, literal.polarity))).isSome ↔ ∀ literal ∈ condition.derivedLiterals,
        ∀ literal' ∈ condition.derivedLiterals, literal.atom = literal'.atom →
          literal.polarity = literal'.polarity := by
    simp [assignAll_isSome_iff]
  rw [← values, ← polarities, isConsistent]
  cases assigns : assignAll (fun _ => none) (condition.positiveFacts.map fun fact =>
      (fact.var, fact.value)) with
  | none => simp
  | some assigned =>
      obtain ⟨_, isAssigned, origin⟩ := assignAll_spec assigns
      have wanted : ∀ fact : FDRFact, assigned fact.var = some fact.value ↔
          fact ∈ condition.positiveFacts := by
        intro fact
        constructor
        · intro found
          rcases origin fact.var fact.value found with nothing | mem
          · cases nothing
          · obtain ⟨other, memOther, same⟩ := List.mem_map.mp mem
            cases other
            cases fact
            cases same
            exact memOther
        · intro mem
          exact isAssigned _ (List.mem_map_of_mem mem)
      simp [wanted]

namespace MatchTree

/-! ### What the elements ask -/

section

variable {condition : GroundConjunctiveCondition} {context : StateContext}

/-- The state gives the wanted answer. -/
def holds (context : StateContext) : Precondition → Detail → Bool
  | .derivedAtom atom, .polarity value => context.unpackedState.derivedAtoms atom == value
  | .fdrVariable var, .value value => context.unpackedState.fluentFacts var == value
  | .negativeFact fact, .unit => context.unpackedState.fluentFacts fact.var != fact.value
  | .constraint constraint, .unit => constraint.evaluate context.get
  | _, _ => false

theorem isDynamicallyApplicable_iff :
    isDynamicallyApplicable context condition = true ↔
      ∀ entry ∈ entries condition, holds context entry.1 entry.2 = true := by
  simp only [isDynamicallyApplicable, entries, Bool.and_eq_true, List.all_eq_true, List.mem_append,
    List.mem_map]
  constructor
  · rintro ⟨⟨⟨positive, negative⟩, derived⟩, numeric⟩ entry
    rintro (((⟨fact, mem, rfl⟩ | ⟨fact, mem, rfl⟩) | ⟨literal, mem, rfl⟩) | ⟨constraint, mem, rfl⟩)
    · exact positive fact mem
    · exact negative fact mem
    · exact derived literal mem
    · exact numeric constraint mem
  · intro all
    refine ⟨⟨⟨fun fact mem => ?_, fun fact mem => ?_⟩, fun literal mem => ?_⟩, fun constraint mem => ?_⟩
    · exact all _ (.inl (.inl (.inl ⟨fact, mem, rfl⟩)))
    · exact all _ (.inl (.inl (.inr ⟨fact, mem, rfl⟩)))
    · exact all _ (.inl (.inr ⟨literal, mem, rfl⟩))
    · exact all _ (.inr ⟨constraint, mem, rfl⟩)

/-- A consistent condition wants one answer for each precondition. -/
theorem detail_unique (consistent : isConsistent condition = true) {key : Precondition}
    {detail detail' : Detail} (mem : (key, detail) ∈ entries condition)
    (mem' : (key, detail') ∈ entries condition) : detail = detail' := by
  simp only [entries, List.mem_append, List.mem_map, Prod.mk.injEq] at mem mem'
  rcases mem with ((⟨fact, mem, rfl, rfl⟩ | ⟨fact, _, rfl, rfl⟩) | ⟨literal, mem, rfl, rfl⟩) |
    ⟨constraint, _, rfl, rfl⟩ <;>
    rcases mem' with ((⟨fact', mem', sameKey, rfl⟩ | ⟨fact', _, sameKey, rfl⟩) |
      ⟨literal', mem', sameKey, rfl⟩) | ⟨constraint', _, sameKey, rfl⟩ <;>
    first | rfl | cases sameKey | skip
  · exact congrArg Detail.value
      ((isConsistent_iff.mp consistent).1 _ mem _ mem' (Precondition.fdrVariable.inj sameKey).symm)
  · exact congrArg Detail.polarity
      ((isConsistent_iff.mp consistent).2.2 _ mem _ mem' (Precondition.derivedAtom.inj sameKey).symm)

variable (repository : Repository) (context : StateContext)

/-- What the fold that collects the details can give. -/
theorem details_fold {entries : List (Precondition × Detail)} {start : Precondition → Option Detail}
    {key : Precondition} {detail : Detail}
    (found : entries.foldl (fun (details : Precondition → Option Detail) entry =>
      Function.update details entry.1 (some entry.2)) start key = some detail) : (key, detail) ∈ entries ∨ start key = some detail := by
  induction entries generalizing start with
  | nil => exact .inr found
  | cons entry rest ih =>
      rcases ih found with inRest | updated
      · exact .inl (List.mem_cons_of_mem _ inRest)
      · dsimp only at updated
        by_cases same : key = entry.1
        · subst same
          rw [Function.update_self] at updated
          obtain rfl := Option.some.inj updated
          exact .inl List.mem_cons_self
        · rw [Function.update_of_ne same] at updated
          exact .inr updated

theorem details_fold_isSome {entries : List (Precondition × Detail)}
    {start : Precondition → Option Detail} {key : Precondition}
    (asked : (∃ detail, (key, detail) ∈ entries) ∨ (start key).isSome) :
    (entries.foldl (fun (details : Precondition → Option Detail) entry =>
      Function.update details entry.1 (some entry.2)) start key).isSome := by
  induction entries generalizing start with
  | nil =>
      rcases asked with ⟨detail, mem⟩ | known
      · cases mem
      · exact known
  | cons entry rest ih =>
      apply ih
      dsimp only
      by_cases same : key = entry.1
      · subst same
        exact .inr (by simp)
      · rw [Function.update_of_ne same]
        refine asked.imp_left fun ⟨detail, mem⟩ => ?_
        rcases List.mem_cons.mp mem with rfl | inRest
        · exact absurd rfl same
        · exact ⟨detail, inRest⟩

variable {repository}

theorem mem_entries_of_details {element : Nat} {key : Precondition} {detail : Detail}
    (found : repository.details element key = some detail) :
    (key, detail) ∈ entries (repository.condition element) := by
  rcases details_fold found with mem | start
  · exact mem
  · cases start

theorem details_eq_some_iff {element : Nat}
    (consistent : isConsistent (repository.condition element) = true) {key : Precondition}
    {detail : Detail} : repository.details element key = some detail ↔
      (key, detail) ∈ entries (repository.condition element) := by
  constructor
  · exact mem_entries_of_details
  · intro mem
    have isSome : (repository.details element key).isSome := details_fold_isSome (.inl ⟨detail, mem⟩)
    obtain ⟨detail', found⟩ := Option.isSome_iff_exists.mp isSome
    rw [detail_unique consistent mem (mem_entries_of_details found)]
    exact found

/-- A derived atom is asked for a truth value. -/
theorem details_derivedAtom {element atom : Nat} {detail : Detail}
    (found : repository.details element (.derivedAtom atom) = some detail) :
    ∃ value, detail = .polarity value := by
  have mem := mem_entries_of_details found
  simp only [entries, List.mem_append, List.mem_map, Prod.mk.injEq] at mem
  rcases mem with ((⟨_, _, differs, _⟩ | ⟨_, _, differs, _⟩) | ⟨literal, _, _, rfl⟩) | ⟨_, _, differs, _⟩
  · cases differs
  · cases differs
  · exact ⟨_, rfl⟩
  · cases differs

/-- A variable is asked for a value of its domain. -/
theorem details_fdrVariable {element var : Nat} {detail : Detail}
    (found : repository.details element (.fdrVariable var) = some detail) :
    ∃ value < repository.domainSize var, detail = .value value := by
  have mem := mem_entries_of_details found
  simp only [entries, List.mem_append, List.mem_map, Prod.mk.injEq] at mem
  rcases mem with ((⟨fact, inCondition, same, rfl⟩ | ⟨_, _, differs, _⟩) | ⟨_, _, differs, _⟩) |
    ⟨_, _, differs, _⟩
  · obtain rfl := Precondition.fdrVariable.inj same
    exact ⟨_, repository.inDomain element fact inCondition, rfl⟩
  · cases differs
  · cases differs
  · cases differs

variable (repository)

/-- The element wants the answers that the state gives to the preconditions. -/
def passes (keys : List Precondition) (element : Nat) : Bool :=
  keys.all fun key =>
    match repository.details element key with
    | none => true
    | some detail => holds context key detail

variable {repository context}

theorem passes_cons_of_none {key : Precondition} {keys : List Precondition} {element : Nat}
    (notAsked : repository.details element key = none) :
    passes repository context (key :: keys) element = passes repository context keys element := by
  rw [passes, List.all_cons, notAsked, Bool.true_and, passes]

theorem passes_cons_of_some {key : Precondition} {keys : List Precondition} {element : Nat}
    {detail : Detail} (asked : repository.details element key = some detail) :
    passes repository context (key :: keys) element =
      (holds context key detail && passes repository context keys element) := by
  rw [passes, List.all_cons, asked, passes]

/-- An element passes all preconditions that occur iff it is applicable. -/
theorem passes_iff {elements : List Nat} (preconditions : SortedPreconditions repository elements)
    {element : Nat} (mem : element ∈ elements)
    (consistent : isConsistent (repository.condition element) = true) :
    passes repository context preconditions.keys element = true ↔
      isDynamicallyApplicable context (repository.condition element) = true := by
  rw [isDynamicallyApplicable_iff, passes, List.all_eq_true]
  constructor
  · rintro all ⟨key, detail⟩ inEntries
    have occurs : key ∈ preconditions.keys := by
      rw [preconditions.mem_iff]
      apply List.ne_nil_of_mem
      rw [Repository.occurrences, List.mem_flatMap]
      exact ⟨element, mem, List.mem_map_of_mem
        (List.mem_filter.mpr ⟨inEntries, decide_eq_true rfl⟩)⟩
    have test := all key occurs
    rwa [(details_eq_some_iff consistent).mpr inEntries] at test
  · intro all key _
    cases found : repository.details element key with
    | none => rfl
    | some detail => exact all _ (mem_entries_of_details found)

end

/-! ### The construction -/

section

variable {repository : Repository}

/-- The search makes the node of the entry. -/
inductive Builds (repository : Repository) : StackEntry → Node → Prop where
  | done {entry : StackEntry} : entry.explored = true → Builds repository entry entry.getResult
  | child {entry child entry' : StackEntry} {node result : Node} : entry.explored = false →
      entry.nextEntry repository = some child → Builds repository child node →
      entry.pushResult node = some entry' → Builds repository entry' result →
      Builds repository entry result

/-- Hand a node to the rest of the stack. -/
def resume (repository : Repository) (fuel : Nat) (node : Node) : List StackEntry → Option Node
  | [] => some node
  | parent :: rest => (parent.pushResult node).bind fun parent =>
      construct repository fuel (parent :: rest)

theorem construct_cons (fuel : Nat) (frame : StackEntry) (rest : List StackEntry) :
    construct repository (fuel + 1) (frame :: rest) =
      if frame.explored then resume repository fuel frame.getResult rest
      else (frame.nextEntry repository).bind fun next =>
        construct repository fuel (next :: frame :: rest) := by
  cases rest <;> rfl

theorem construct_of_builds {entry : StackEntry} {node : Node}
    (builds : Builds repository entry node) :
    ∃ steps, ∀ fuel rest, construct repository (steps + fuel) (entry :: rest) =
      resume repository fuel node rest := by
  induction builds with
  | done explored =>
      refine ⟨1, fun fuel rest => ?_⟩
      rw [Nat.add_comm, construct_cons, if_pos explored]
  | @child entry child entry' node result unexplored next _ pushes _ ihChild ihEntry =>
      obtain ⟨stepsChild, runChild⟩ := ihChild
      obtain ⟨stepsEntry, runEntry⟩ := ihEntry
      refine ⟨stepsChild + stepsEntry + 1, fun fuel rest => ?_⟩
      have fuels : stepsChild + stepsEntry + 1 + fuel = (stepsChild + (stepsEntry + fuel)) + 1 := by
        omega
      rw [fuels, construct_cons, if_neg (by simp [unexplored]), next, Option.bind_some, runChild, resume,
        pushes, Option.bind_some, runEntry]

/-- A child that is there for the elements: none for no elements, else the node
that is built for them. -/
inductive ChildOf (repository : Repository) (next : List Precondition) :
    List Nat → Option Node → Prop where
  | none : ChildOf repository next [] none
  | some {elements : List Nat} {entry : StackEntry} {node : Node} : elements ≠ [] →
      tryCreateStackEntry repository next elements = some entry → Builds repository entry node →
      ChildOf repository next elements (some node)

theorem ChildOf.explored {next : List Precondition} {elements : List Nat} {child : Option Node}
    (childOf : ChildOf repository next elements child) : exploredChild elements child = true := by
  cases childOf with
  | none => rfl
  | some => simp [exploredChild]

theorem exploredChild_none {elements : List Nat} (nonempty : elements ≠ []) :
    exploredChild elements none = false := by
  simp [exploredChild, nonempty]

/-- The node of an entry for a derived atom. -/
theorem builds_atom {next : List Precondition} {atom : Nat}
    {trueElements falseElements dontcareElements : List Nat}
    {trueChild falseChild dontcareChild : Option Node}
    (isTrue : ChildOf repository next trueElements trueChild)
    (isFalse : ChildOf repository next falseElements falseChild)
    (isDontcare : ChildOf repository next dontcareElements dontcareChild) :
    Builds repository (.atom { next, atom, trueElements, falseElements, dontcareElements })
      (.atomSelector atom trueChild falseChild dontcareChild) := by
  have all : Builds repository (.atom ⟨next, atom, trueElements, falseElements, dontcareElements,
      trueChild, falseChild, dontcareChild⟩)
      (.atomSelector atom trueChild falseChild dontcareChild) :=
    .done (by simp [StackEntry.explored, isTrue.explored, isFalse.explored, isDontcare.explored])
  have withoutDontcare : Builds repository (.atom ⟨next, atom, trueElements, falseElements,
      dontcareElements, trueChild, falseChild, none⟩)
      (.atomSelector atom trueChild falseChild dontcareChild) := by
    cases isDontcare with
    | none => exact all
    | some nonempty creates builds =>
        have unexplored := exploredChild_none nonempty
        refine .child ?_ ?_ builds ?_ all
        · simp [StackEntry.explored, unexplored]
        · simp [StackEntry.nextEntry, isTrue.explored, isFalse.explored, unexplored, creates]
        · simp [StackEntry.pushResult, isTrue.explored, isFalse.explored, unexplored]
  have onlyTrue : Builds repository (.atom ⟨next, atom, trueElements, falseElements,
      dontcareElements, trueChild, none, none⟩)
      (.atomSelector atom trueChild falseChild dontcareChild) := by
    cases isFalse with
    | none => exact withoutDontcare
    | some nonempty creates builds =>
        have unexplored := exploredChild_none nonempty
        refine .child ?_ ?_ builds ?_ withoutDontcare
        · simp [StackEntry.explored, unexplored]
        · simp [StackEntry.nextEntry, isTrue.explored, unexplored, creates]
        · simp [StackEntry.pushResult, isTrue.explored, unexplored]
  cases isTrue with
  | none => exact onlyTrue
  | some nonempty creates builds =>
      have unexplored := exploredChild_none nonempty
      refine .child ?_ ?_ builds ?_ onlyTrue
      · simp [StackEntry.explored, unexplored]
      · simp [StackEntry.nextEntry, unexplored, creates]
      · simp [StackEntry.pushResult, unexplored]

/-- The entries that are explored like those of negative facts and constraints. -/
structure IsTest (repository : Repository) (entry : TestStackEntry → StackEntry) : Prop where
  explored : ∀ test, (entry test).explored = (exploredChild test.trueElements test.trueChild &&
    exploredChild test.dontcareElements test.dontcareChild)
  nextEntry : ∀ test, (entry test).nextEntry repository =
    if !exploredChild test.trueElements test.trueChild then
      tryCreateStackEntry repository test.next test.trueElements
    else if !exploredChild test.dontcareElements test.dontcareChild then
      tryCreateStackEntry repository test.next test.dontcareElements
    else none
  pushResult : ∀ test node, (entry test).pushResult node = (StackEntry.pushTest test node).map entry

theorem isTest_negativeFact (fact : FDRFact) : IsTest repository (.negativeFact fact) :=
  ⟨fun _ => rfl, fun _ => rfl, fun _ _ => rfl⟩

theorem isTest_constraint (constraint : BooleanOperator GroundFunctionTerm) :
    IsTest repository (.constraint constraint) :=
  ⟨fun _ => rfl, fun _ => rfl, fun _ _ => rfl⟩

/-- The node of an entry for a negative fact or a constraint. -/
theorem builds_test {entry : TestStackEntry → StackEntry} (isTest : IsTest repository entry)
    {next : List Precondition} {trueElements dontcareElements : List Nat}
    {trueChild dontcareChild : Option Node}
    (isTrue : ChildOf repository next trueElements trueChild)
    (isDontcare : ChildOf repository next dontcareElements dontcareChild) :
    Builds repository (entry { next, trueElements, dontcareElements })
      (entry ⟨next, trueElements, dontcareElements, trueChild, dontcareChild⟩).getResult := by
  have all : Builds repository
      (entry ⟨next, trueElements, dontcareElements, trueChild, dontcareChild⟩)
      (entry ⟨next, trueElements, dontcareElements, trueChild, dontcareChild⟩).getResult :=
    .done (by simp [isTest.explored, isTrue.explored, isDontcare.explored])
  have onlyTrue : Builds repository
      (entry ⟨next, trueElements, dontcareElements, trueChild, none⟩)
      (entry ⟨next, trueElements, dontcareElements, trueChild, dontcareChild⟩).getResult := by
    cases isDontcare with
    | none => exact all
    | some nonempty creates builds =>
        have unexplored := exploredChild_none nonempty
        refine .child ?_ ?_ builds ?_ all
        · simp [isTest.explored, unexplored]
        · simp [isTest.nextEntry, isTrue.explored, unexplored, creates]
        · simp [isTest.pushResult, StackEntry.pushTest, isTrue.explored, unexplored]
  cases isTrue with
  | none => exact onlyTrue
  | some nonempty creates builds =>
      have unexplored := exploredChild_none nonempty
      refine .child ?_ ?_ builds ?_ onlyTrue
      · simp [isTest.explored, unexplored]
      · simp [isTest.nextEntry, unexplored, creates]
      · simp [isTest.pushResult, StackEntry.pushTest, unexplored]

/-- The node of an entry for a variable whose first values were explored. -/
theorem builds_fdrVariable {next : List Precondition} {var : Nat} {domainElements : List (List Nat)}
    {dontcareElements : List Nat} {children : List (Option Node)} {dontcareChild : Option Node}
    (isDontcare : ChildOf repository next dontcareElements dontcareChild)
    (done todo : List Nat)
    (isChild : ∀ i ∈ todo, domainElements.getD i [] ≠ [] ∧
      ChildOf repository next (domainElements.getD i []) (children.getD i none))
    (current : List (Option Node)) (sameLength : current.length = children.length)
    (inRange : ∀ i ∈ todo, i < children.length)
    (filled : ∀ i, i ∉ todo → current[i]? = children[i]?) :
    Builds repository (.fdrVariable ⟨next, var, domainElements, done ++ todo, dontcareElements,
      done.length, current, none⟩) (.variableSelector var children dontcareChild) := by
  induction todo generalizing done current with
  | nil =>
      obtain rfl : current = children := List.ext_getElem? fun i => filled i List.not_mem_nil
      have all : Builds repository (.fdrVariable ⟨next, var, domainElements, done ++ [],
          dontcareElements, done.length, current, dontcareChild⟩)
          (.variableSelector var current dontcareChild) :=
        .done (by simp [StackEntry.explored, isDontcare.explored])
      cases isDontcare with
      | none => exact all
      | some nonempty creates builds =>
          have unexplored := exploredChild_none nonempty
          refine .child ?_ ?_ builds ?_ all
          · simp [StackEntry.explored, unexplored]
          · simp [StackEntry.nextEntry, unexplored, creates]
          · simp [StackEntry.pushResult, unexplored]
  | cons i rest ih =>
      obtain ⟨nonempty, childOf⟩ := isChild i List.mem_cons_self
      have position : done.length ≠ (done ++ i :: rest).length := by simp
      have value : (done ++ i :: rest).getD done.length 0 = i := by simp
      have iInRange := inRange i List.mem_cons_self
      generalize elementsEq : domainElements.getD i [] = elements at childOf nonempty
      generalize childEq : children.getD i none = child at childOf
      cases childOf with
      | none => exact absurd rfl nonempty
      | @some _ _ node _ creates builds =>
          have rest := ih (done ++ [i])
            (fun j mem => isChild j (List.mem_cons_of_mem _ mem)) (current.set i (some node)) (by simpa using sameLength)
            (fun j mem => inRange j (List.mem_cons_of_mem _ mem)) ?_
          · refine .child ?_ ?_ builds ?_ rest
            · simp [StackEntry.explored]
            · rw [StackEntry.nextEntry, if_pos position]
              dsimp only
              rw [value, elementsEq, creates]
            · rw [StackEntry.pushResult, if_pos position]
              dsimp only
              rw [value]
              simp
          · intro j notRest
            rw [List.getElem?_set]
            by_cases same : i = j
            · subst same
              rw [if_pos rfl, if_pos (sameLength ▸ iInRange)]
              rw [List.getD_eq_getElem _ _ iInRange] at childEq
              rw [List.getElem?_eq_getElem iInRange, childEq]
            · rw [if_neg same]
              apply filled
              intro mem
              rcases List.mem_cons.mp mem with rfl | inRest
              · exact same rfl
              · exact notRest inRest

end

/-! ### The evaluation -/

section

variable (context : StateContext)

mutual

/-- The elements below a node that the state reaches. -/
def collect : Node → List Nat
  | .atomSelector atom trueChild falseChild dontcareChild =>
      collectOption dontcareChild ++
        if context.unpackedState.derivedAtoms atom then collectOption trueChild
        else collectOption falseChild
  | .constraintSelector constraint trueChild dontcareChild =>
      collectOption dontcareChild ++
        if constraint.evaluate context.get then collectOption trueChild else []
  | .variableSelector var domainChildren dontcareChild =>
      collectOption dontcareChild ++ collectAt domainChildren (context.unpackedState.fluentFacts var)
  | .negativeFactSelector fact trueChild dontcareChild =>
      collectOption dontcareChild ++
        if context.unpackedState.fluentFacts fact.var != fact.value then collectOption trueChild
        else []
  | .elementGenerator elements => elements

def collectOption : Option Node → List Nat
  | none => []
  | some node => collect node

def collectAt : List (Option Node) → Nat → List Nat
  | [], _ => []
  | child :: _, 0 => collectOption child
  | _ :: children, i + 1 => collectAt children i

end

theorem collectAt_eq (children : List (Option Node)) (i : Nat) :
    collectAt context children i = collectOption context (children.getD i none) := by
  induction children generalizing i with
  | nil => simp [collectAt, collectOption]
  | cons child rest ih =>
      cases i with
      | zero => simp [collectAt]
      | succ i => simp [collectAt, ih]

/-- The loop handles the nodes on top of the stack. -/
def Evaluates (nodes : List Node) (found : List Nat) : Prop :=
  ∃ steps, ∀ fuel stack out, evaluateLoop context (steps + fuel) (nodes ++ stack) out =
    evaluateLoop context fuel stack (out ++ found)

variable {context}

theorem Evaluates.nil : Evaluates context [] [] :=
  ⟨0, fun fuel stack out => by simp⟩

theorem Evaluates.append {nodes nodes' : List Node} {found found' : List Nat}
    (first : Evaluates context nodes found) (second : Evaluates context nodes' found') :
    Evaluates context (nodes ++ nodes') (found ++ found') := by
  obtain ⟨steps, run⟩ := first
  obtain ⟨steps', run'⟩ := second
  refine ⟨steps + steps', fun fuel stack out => ?_⟩
  rw [Nat.add_assoc, List.append_assoc, run, run', List.append_assoc]

theorem Evaluates.selector {node : Node} {found : List Nat} (noElements : node.elements = [])
    (reached : Evaluates context (node.reached context) found) : Evaluates context [node] found := by
  obtain ⟨steps, run⟩ := reached
  refine ⟨steps + 1, fun fuel stack out => ?_⟩
  rw [Nat.add_right_comm, List.singleton_append, evaluateLoop, run, noElements, List.append_nil]

mutual

theorem evaluates_collect : ∀ node, Evaluates context [node] (collect context node)
  | .atomSelector atom trueChild falseChild dontcareChild => by
      apply Evaluates.selector rfl
      rw [Node.reached, collect]
      apply (evaluates_collectOption dontcareChild).append
      split
      · exact evaluates_collectOption trueChild
      · exact evaluates_collectOption falseChild
  | .constraintSelector constraint trueChild dontcareChild => by
      apply Evaluates.selector rfl
      rw [Node.reached, collect]
      apply (evaluates_collectOption dontcareChild).append
      split
      · exact evaluates_collectOption trueChild
      · exact .nil
  | .variableSelector var domainChildren dontcareChild => by
      apply Evaluates.selector rfl
      rw [Node.reached, collect]
      exact (evaluates_collectOption dontcareChild).append (evaluates_collectAt domainChildren _)
  | .negativeFactSelector fact trueChild dontcareChild => by
      apply Evaluates.selector rfl
      rw [Node.reached, collect]
      apply (evaluates_collectOption dontcareChild).append
      split
      · exact evaluates_collectOption trueChild
      · exact .nil
  | .elementGenerator elements => by
      exact ⟨1, fun fuel stack out => by rw [Nat.add_comm]; rfl⟩

theorem evaluates_collectOption : ∀ child : Option Node,
    Evaluates context child.toList (collectOption context child)
  | none => .nil
  | some node => evaluates_collect node

theorem evaluates_collectAt : ∀ (children : List (Option Node)) (i : Nat),
    Evaluates context (children.getD i none).toList (collectAt context children i)
  | [], _ => .nil
  | child :: _, 0 => evaluates_collectOption child
  | _ :: children, i + 1 => evaluates_collectAt children i

end

end

/-! ### Exact nodes -/

section

variable (repository : Repository)

/-- The elements that pass the preconditions, each once. -/
def Exact (context : StateContext) (keys : List Precondition) (elements found : List Nat) : Prop :=
  found.Nodup ∧ ∀ element, element ∈ found ↔
    element ∈ elements ∧ passes repository context keys element = true

variable {repository} {context : StateContext} {key : Precondition} {next : List Precondition}
  {elements : List Nat}

theorem Exact.nil : Exact repository context next [] [] :=
  ⟨List.nodup_nil, fun _ => by simp⟩

/-- A precondition that no element asks about can be skipped. -/
theorem Exact.skip {sorted found : List Nat} (exact : Exact repository context next sorted found)
    (perm : sorted.Perm elements)
    (notAsked : ∀ element ∈ elements, repository.details element key = none) :
    Exact repository context (key :: next) elements found := by
  refine ⟨exact.1, fun element => ?_⟩
  rw [exact.2, perm.mem_iff]
  refine and_congr_right fun mem => ?_
  rw [passes_cons_of_none (notAsked element mem)]

/-- The elements that do not care, and those that want what the state answers. -/
theorem Exact.select {dontcare selected foundDontcare foundSelected : List Nat}
    (exactDontcare : Exact repository context next dontcare foundDontcare)
    (exactSelected : Exact repository context next selected foundSelected)
    (isDontcare : ∀ element, element ∈ dontcare ↔
      element ∈ elements ∧ repository.details element key = none)
    (isSelected : ∀ element, element ∈ selected ↔ element ∈ elements ∧
      ∃ detail, repository.details element key = some detail ∧ holds context key detail = true) :
    Exact repository context (key :: next) elements (foundDontcare ++ foundSelected) := by
  constructor
  · apply exactDontcare.1.append exactSelected.1
    intro element mem mem'
    have notAsked := ((isDontcare element).mp ((exactDontcare.2 element).mp mem).1).2
    obtain ⟨detail, asked, _⟩ := ((isSelected element).mp ((exactSelected.2 element).mp mem').1).2
    rw [notAsked] at asked
    cases asked
  · intro element
    rw [List.mem_append, exactDontcare.2, exactSelected.2, isDontcare, isSelected]
    cases asked : repository.details element key with
    | none =>
        rw [passes_cons_of_none asked]
        simp
    | some detail =>
        rw [passes_cons_of_some asked]
        simp [and_assoc]

/-- What a selector makes of the elements: the sorted elements, if no element asks
about its precondition, or an entry whose node is exact. -/
structure SelectorExact (repository : Repository) (key : Precondition) (next : List Precondition)
    (elements : List Nat) (result : List Nat × Option StackEntry) : Prop where
  perm : result.1.Perm elements
  notAsked : result.2 = none → ∀ element ∈ elements, repository.details element key = none
  exact : ∀ entry, result.2 = some entry → ∃ node, Builds repository entry node ∧
    ∀ context, Exact repository context (key :: next) elements (collect context node)

/-- The children for the remaining preconditions are exact. -/
def ChildrenExact (repository : Repository) (next : List Precondition) : Prop :=
  ∀ elements : List Nat, elements.Nodup → ∃ child, ChildOf repository next elements child ∧
    ∀ context, Exact repository context next elements (collectOption context child)

theorem mem_sortByCategory {category : Nat → Nat} {element : Nat} :
    element ∈ sortByCategory category elements ↔ element ∈ elements :=
  (perm_sortByCategory elements).mem_iff

theorem nodup_filter_sortByCategory (nodup : elements.Nodup) (category : Nat → Nat)
    (keep : Nat → Bool) : ((sortByCategory category elements).filter keep).Nodup :=
  ((perm_sortByCategory elements).nodup_iff.mpr nodup).filter _

theorem tryCreateTest_exact {entry : TestStackEntry → StackEntry} (isTest : IsTest repository entry)
    (children : ChildrenExact repository next) (nodup : elements.Nodup)
    (collects : ∀ context test, collect context (entry test).getResult =
      collectOption context test.dontcareChild ++
        if holds context key .unit then collectOption context test.trueChild else [])
    (asksUnit : ∀ element detail, repository.details element key = some detail → detail = .unit) :
    SelectorExact repository key next elements
      (tryCreateTestStackEntry repository key entry next elements) := by
  have asked (element : Nat) : testCategory repository key element < 1 ↔
      repository.details element key = some .unit := by
    cases found : repository.details element key with
    | none => simp [testCategory, found]
    | some detail => simp [testCategory, found, asksUnit element detail found]
  have notAsked (element : Nat) : 1 ≤ testCategory repository key element ↔
      repository.details element key = none := by
    cases found : repository.details element key with
    | none => simp [testCategory, found]
    | some detail => simp [testCategory, found]
  set category := testCategory repository key with categoryEq
  have sorted : (sortByCategory category elements).Pairwise _ := sorted_sortByCategory elements
  set trueElements := (sortByCategory category elements).filter (category · < 1) with trueEq
  set dontcareElements := (sortByCategory category elements).filter (1 ≤ category ·) with dontcareEq
  have result : tryCreateTestStackEntry repository key entry next elements =
      (sortByCategory category elements, if trueElements = [] then none
        else some (entry { next, trueElements, dontcareElements })) := by
    simp only [tryCreateTestStackEntry, ← categoryEq, cutBelow_eq_filter sorted, ← trueEq,
      ← dontcareEq]
  rw [result]
  refine ⟨perm_sortByCategory elements, ?_, ?_⟩
  · intro isNone element mem
    have empty : trueElements = [] := by
      by_contra nonempty
      simp [nonempty] at isNone
    rw [← notAsked]
    by_contra below
    have inTrue : element ∈ trueElements :=
      List.mem_filter.mpr ⟨mem_sortByCategory.mpr mem, by simpa using below⟩
    rw [empty] at inTrue
    cases inTrue
  · intro stackEntry isSome
    obtain ⟨trueChild, isTrue, exactTrue⟩ :=
      children trueElements (nodup_filter_sortByCategory nodup category _)
    obtain ⟨dontcareChild, isDontcare, exactDontcare⟩ :=
      children dontcareElements (nodup_filter_sortByCategory nodup category _)
    split at isSome
    · cases isSome
    · obtain rfl := Option.some.inj isSome
      refine ⟨_, builds_test isTest isTrue isDontcare, fun context => ?_⟩
      rw [collects]
      have inDontcare (element : Nat) : element ∈ dontcareElements ↔
          element ∈ elements ∧ repository.details element key = none := by
        rw [dontcareEq, List.mem_filter, mem_sortByCategory, decide_eq_true_iff, notAsked]
      split
      · rename_i answer
        apply (exactDontcare context).select (exactTrue context) inDontcare
        intro element
        rw [trueEq, List.mem_filter, mem_sortByCategory, decide_eq_true_iff, asked]
        simp only [and_congr_right_iff]
        intro _
        constructor
        · exact fun found => ⟨.unit, found, answer⟩
        · rintro ⟨detail, found, _⟩
          rw [found, asksUnit element detail found]
      · rename_i answer
        apply (exactDontcare context).select .nil inDontcare
        intro element
        constructor
        · intro mem
          cases mem
        · rintro ⟨_, detail, found, wanted⟩
          rw [asksUnit element detail found] at wanted
          exact absurd wanted answer

theorem tryCreateAtom_exact {atom : Nat} (children : ChildrenExact repository next)
    (nodup : elements.Nodup) : SelectorExact repository (.derivedAtom atom) next elements
      (tryCreateAtomStackEntry repository atom next elements) := by
  have wantsTrue (element : Nat) : atomCategory repository atom element < 1 ↔
      repository.details element (.derivedAtom atom) = some (.polarity true) := by
    cases found : repository.details element (.derivedAtom atom) with
    | none => simp [atomCategory, found]
    | some detail =>
        obtain ⟨value, rfl⟩ := details_derivedAtom found
        cases value <;> simp [atomCategory, found]
  have wantsFalse (element : Nat) : (1 ≤ atomCategory repository atom element ∧ atomCategory repository atom element < 2) ↔
      repository.details element (.derivedAtom atom) = some (.polarity false) := by
    cases found : repository.details element (.derivedAtom atom) with
    | none => simp [atomCategory, found]
    | some detail =>
        obtain ⟨value, rfl⟩ := details_derivedAtom found
        cases value <;> simp [atomCategory, found]
  have dontCare (element : Nat) : (1 ≤ atomCategory repository atom element ∧ 2 ≤ atomCategory repository atom element) ↔
      repository.details element (.derivedAtom atom) = none := by
    cases found : repository.details element (.derivedAtom atom) with
    | none => simp [atomCategory, found]
    | some detail =>
        obtain ⟨value, rfl⟩ := details_derivedAtom found
        cases value <;> simp [atomCategory, found]
  set category := atomCategory repository atom with categoryEq
  have sorted : (sortByCategory category elements).Pairwise _ := sorted_sortByCategory elements
  set trueElements := (sortByCategory category elements).filter (category · < 1) with trueEq
  set others := (sortByCategory category elements).filter (1 ≤ category ·) with othersEq
  have sortedOthers : others.Pairwise fun x y => category x ≤ category y := sorted.filter _
  set falseElements := others.filter (category · < 2) with falseEq
  set dontcareElements := others.filter (2 ≤ category ·) with dontcareEq
  have result : tryCreateAtomStackEntry repository atom next elements =
      (sortByCategory category elements, if trueElements = [] ∧ falseElements = [] then none
        else some (.atom { next, atom, trueElements, falseElements, dontcareElements })) := by
    simp only [tryCreateAtomStackEntry, ← categoryEq, cutBelow_eq_filter sorted, ← trueEq, ← othersEq,
      cutBelow_eq_filter sortedOthers, ← falseEq, ← dontcareEq]
  have inTrue (element : Nat) : element ∈ trueElements ↔ element ∈ elements ∧
      repository.details element (.derivedAtom atom) = some (.polarity true) := by
    rw [trueEq, List.mem_filter, mem_sortByCategory, decide_eq_true_iff, wantsTrue]
  have inFalse (element : Nat) : element ∈ falseElements ↔ element ∈ elements ∧
      repository.details element (.derivedAtom atom) = some (.polarity false) := by
    rw [falseEq, List.mem_filter, othersEq, List.mem_filter, mem_sortByCategory, decide_eq_true_iff,
      decide_eq_true_iff, and_assoc, wantsFalse]
  have inDontcare (element : Nat) : element ∈ dontcareElements ↔
      element ∈ elements ∧ repository.details element (.derivedAtom atom) = none := by
    rw [dontcareEq, List.mem_filter, othersEq, List.mem_filter, mem_sortByCategory,
      decide_eq_true_iff, decide_eq_true_iff, and_assoc, dontCare]
  rw [result]
  refine ⟨perm_sortByCategory elements, ?_, ?_⟩
  · intro isNone element mem
    have empty : trueElements = [] ∧ falseElements = [] := by
      by_contra nonempty
      simp [nonempty] at isNone
    cases found : repository.details element (.derivedAtom atom) with
    | none => rfl
    | some detail =>
        obtain ⟨value, rfl⟩ := details_derivedAtom found
        cases value with
        | true => exact absurd ((inTrue element).mpr ⟨mem, found⟩) (by simp [empty.1])
        | false => exact absurd ((inFalse element).mpr ⟨mem, found⟩) (by simp [empty.2])
  · intro stackEntry isSome
    obtain ⟨trueChild, isTrue, exactTrue⟩ :=
      children trueElements (nodup_filter_sortByCategory nodup category _)
    obtain ⟨falseChild, isFalse, exactFalse⟩ :=
      children falseElements ((nodup_filter_sortByCategory nodup category _).filter _)
    obtain ⟨dontcareChild, isDontcare, exactDontcare⟩ :=
      children dontcareElements ((nodup_filter_sortByCategory nodup category _).filter _)
    split at isSome
    · cases isSome
    · obtain rfl := Option.some.inj isSome
      refine ⟨_, builds_atom isTrue isFalse isDontcare, fun context => ?_⟩
      have wanted (answer : Bool) (answers : context.unpackedState.derivedAtoms atom = answer)
          (element : Nat) : (element ∈ elements ∧ repository.details element (.derivedAtom atom) =
            some (.polarity answer)) ↔ element ∈ elements ∧ ∃ detail,
              repository.details element (.derivedAtom atom) = some detail ∧
                holds context (.derivedAtom atom) detail = true := by
        refine and_congr_right fun _ => ⟨fun found => ⟨_, found, ?_⟩, ?_⟩
        · simp [holds, answers]
        · rintro ⟨detail, found, wanted⟩
          obtain ⟨value, rfl⟩ := details_derivedAtom found
          rw [found, ← answers]
          simp only [holds, beq_iff_eq] at wanted
          rw [wanted]
      rw [collect]
      split
      · rename_i answers
        exact (exactDontcare context).select (exactTrue context) inDontcare fun element =>
          (inTrue element).trans (wanted true answers element)
      · rename_i answers
        exact (exactDontcare context).select (exactFalse context) inDontcare fun element =>
          (inFalse element).trans (wanted false (Bool.eq_false_of_not_eq_true answers) element)

theorem tryCreateVariable_exact {var : Nat} (children : ChildrenExact repository next)
    (nodup : elements.Nodup) : SelectorExact repository (.fdrVariable var) next elements
      (tryCreateVariableStackEntry repository var next elements) := by
  have wants (element : Nat) {value : Nat} (inDomain : value < repository.domainSize var) :
      variableCategory repository var element = value ↔
        repository.details element (.fdrVariable var) = some (.value value) := by
    cases found : repository.details element (.fdrVariable var) with
    | none => simp [variableCategory, found]; omega
    | some detail =>
        obtain ⟨value', _, rfl⟩ := details_fdrVariable found
        simp [variableCategory, found]
  have dontCare (element : Nat) :
      repository.domainSize var ≤ variableCategory repository var element ↔
      repository.details element (.fdrVariable var) = none := by
    cases found : repository.details element (.fdrVariable var) with
    | none => simp [variableCategory, found]
    | some detail =>
        obtain ⟨value', inDomain, rfl⟩ := details_fdrVariable found
        simpa [variableCategory, found] using inDomain
  set domainSize := repository.domainSize var with domainSizeEq
  set category := variableCategory repository var with categoryEq
  have sorted : (sortByCategory category elements).Pairwise _ := sorted_sortByCategory elements
  set parts := (List.range domainSize).map fun i =>
    (sortByCategory category elements).filter (category · = i) with partsEq
  set dontcareElements := (sortByCategory category elements).filter (domainSize ≤ category ·)
    with dontcareEq
  set forward := (List.range domainSize).filter fun i => parts.getD i [] ≠ [] with forwardEq
  have result : tryCreateVariableStackEntry repository var next elements =
      (sortByCategory category elements, if forward = [] then none
        else some (.fdrVariable { next, var, domainElements := parts, forward, dontcareElements,
                                  domainChildren := List.replicate domainSize none })) := by
    have cut := cutAll_eq_filter sorted (fun _ _ => Nat.zero_le _) domainSize
    rw [Nat.zero_add, ← List.range_eq_range'] at cut
    simp only [tryCreateVariableStackEntry, ← categoryEq, ← domainSizeEq, cut, ← partsEq, ← forwardEq,
      ← dontcareEq]
  have part {i : Nat} (inDomain : i < domainSize) :
      parts.getD i [] = (sortByCategory category elements).filter (category · = i) := by
    rw [partsEq, List.getD_eq_getElem _ _ (by simpa using inDomain), List.getElem_map,
      List.getElem_range]
  have inPart (element : Nat) {i : Nat} (inDomain : i < domainSize) : element ∈ parts.getD i [] ↔
      element ∈ elements ∧ repository.details element (.fdrVariable var) = some (.value i) := by
    rw [part inDomain, List.mem_filter, mem_sortByCategory, decide_eq_true_iff,
      wants element inDomain]
  have inDontcare (element : Nat) : element ∈ dontcareElements ↔
      element ∈ elements ∧ repository.details element (.fdrVariable var) = none := by
    rw [dontcareEq, List.mem_filter, mem_sortByCategory, decide_eq_true_iff, dontCare]
  rw [result]
  refine ⟨perm_sortByCategory elements, ?_, ?_⟩
  · intro isNone element mem
    have empty : forward = [] := by
      by_contra nonempty
      simp [nonempty] at isNone
    cases found : repository.details element (.fdrVariable var) with
    | none => rfl
    | some detail =>
        obtain ⟨value, inDomain, rfl⟩ := details_fdrVariable found
        have inForward : value ∈ forward := by
          rw [forwardEq, List.mem_filter, List.mem_range, decide_eq_true_iff]
          exact ⟨inDomain, List.ne_nil_of_mem ((inPart element inDomain).mpr ⟨mem, found⟩)⟩
        simp [empty] at inForward
  · intro stackEntry isSome
    have nodupPart (i : Nat) : (parts.getD i []).Nodup := by
      by_cases inDomain : i < domainSize
      · rw [part inDomain]
        exact nodup_filter_sortByCategory nodup category _
      · simp [partsEq, inDomain]
    choose child isChild exactChild using fun i => children (parts.getD i []) (nodupPart i)
    obtain ⟨dontcareChild, isDontcare, exactDontcare⟩ :=
      children dontcareElements (nodup_filter_sortByCategory nodup category _)
    set domainChildren := (List.range domainSize).map child with childrenEq
    have childAt {i : Nat} (inDomain : i < domainSize) : domainChildren.getD i none = child i := by
      rw [childrenEq, List.getD_eq_getElem _ _ (by simpa using inDomain), List.getElem_map,
        List.getElem_range]
    have inForward {i : Nat} : i ∈ forward ↔ i < domainSize ∧ parts.getD i [] ≠ [] := by
      rw [forwardEq, List.mem_filter, List.mem_range, decide_eq_true_iff]
    split at isSome
    · cases isSome
    · obtain rfl := Option.some.inj isSome
      refine ⟨.variableSelector var domainChildren dontcareChild, ?_, fun context => ?_⟩
      · apply builds_fdrVariable isDontcare [] forward
        · intro i mem
          obtain ⟨inDomain, nonempty⟩ := inForward.mp mem
          rw [childAt inDomain]
          exact ⟨nonempty, isChild i⟩
        · simp [childrenEq]
        · intro i mem
          simpa [childrenEq] using (inForward.mp mem).1
        · intro i notForward
          by_cases inDomain : i < domainSize
          · have empty : parts.getD i [] = [] := by
              by_contra nonempty
              exact notForward (inForward.mpr ⟨inDomain, nonempty⟩)
            have noChild : child i = none := by
              have childOf := isChild i
              rw [empty] at childOf
              generalize child i = found at childOf
              cases childOf with
              | none => rfl
              | some nonempty => exact absurd rfl nonempty
            simp [childrenEq, inDomain, noChild]
          · simp [childrenEq, inDomain]
      · rw [collect, collectAt_eq]
        by_cases inDomain : context.unpackedState.fluentFacts var < domainSize
        · rw [childAt inDomain]
          apply (exactDontcare context).select (exactChild _ context) inDontcare
          intro element
          rw [inPart element inDomain]
          refine and_congr_right fun _ => ⟨fun found => ⟨_, found, ?_⟩, ?_⟩
          · simp [holds]
          · rintro ⟨detail, found, wanted⟩
            obtain ⟨value, _, rfl⟩ := details_fdrVariable found
            simp only [holds, beq_iff_eq] at wanted
            rw [found, wanted]
        · have noChild : domainChildren.getD (context.unpackedState.fluentFacts var) none = none := by
            simp [childrenEq, Nat.le_of_not_lt inDomain]
          rw [noChild]
          apply (exactDontcare context).select .nil inDontcare
          intro element
          constructor
          · intro mem
            cases mem
          · rintro ⟨_, detail, found, wanted⟩
            obtain ⟨value, valueInDomain, rfl⟩ := details_fdrVariable found
            simp only [holds, beq_iff_eq] at wanted
            exact absurd (wanted ▸ valueInDomain) inDomain

/-- A negative fact and a constraint are asked for nothing else. -/
theorem details_unit {element : Nat} {detail : Detail}
    (isTest : (∃ fact, key = .negativeFact fact) ∨ ∃ constraint, key = .constraint constraint)
    (found : repository.details element key = some detail) : detail = .unit := by
  have mem := mem_entries_of_details found
  simp only [entries, List.mem_append, List.mem_map, Prod.mk.injEq] at mem
  rcases mem with ((⟨_, _, rfl, _⟩ | ⟨_, _, _, rfl⟩) | ⟨_, _, rfl, _⟩) | ⟨_, _, _, rfl⟩
  · rcases isTest with ⟨_, differs⟩ | ⟨_, differs⟩ <;> cases differs
  · rfl
  · rcases isTest with ⟨_, differs⟩ | ⟨_, differs⟩ <;> cases differs
  · rfl

theorem tryCreateSelector_exact (key : Precondition) (children : ChildrenExact repository next)
    (nodup : elements.Nodup) : SelectorExact repository key next elements
      (tryCreateSelectorStackEntry repository key next elements) := by
  cases key with
  | derivedAtom atom => exact tryCreateAtom_exact children nodup
  | fdrVariable var => exact tryCreateVariable_exact children nodup
  | negativeFact fact =>
      apply tryCreateTest_exact (isTest_negativeFact fact) children nodup
      · intro context test
        rfl
      · intro element detail found
        exact details_unit (.inl ⟨fact, rfl⟩) found
  | constraint constraint =>
      apply tryCreateTest_exact (isTest_constraint constraint) children nodup
      · intro context test
        rfl
      · intro element detail found
        exact details_unit (.inr ⟨constraint, rfl⟩) found

/-- The induction is on the preconditions that are left. -/
theorem tryCreateStackEntry_exact (keys : List Precondition) {elements : List Nat}
    (nonempty : elements ≠ []) (nodup : elements.Nodup) :
    ∃ entry node, tryCreateStackEntry repository keys elements = some entry ∧
      Builds repository entry node ∧
        ∀ context, Exact repository context keys elements (collect context node) := by
  induction keys generalizing elements with
  | nil =>
      refine ⟨.generator elements, .elementGenerator elements, ?_, .done rfl, fun context => ?_⟩
      · simp [tryCreateStackEntry, nonempty]
      · exact ⟨nodup, fun element => by simp [collect, passes]⟩
  | cons key next ih =>
      have children : ChildrenExact repository next := by
        intro elements nodup
        by_cases empty : elements = []
        · subst empty
          exact ⟨none, .none, fun context => .nil⟩
        · obtain ⟨entry, node, creates, builds, exact⟩ := ih empty nodup
          exact ⟨some node, .some empty creates builds, exact⟩
      have selector := tryCreateSelector_exact key children nodup
      rw [tryCreateStackEntry, if_neg nonempty]
      cases result : tryCreateSelectorStackEntry repository key next elements with
      | mk sorted created =>
          rw [result] at selector
          cases created with
          | some entry =>
              obtain ⟨node, builds, exact⟩ := selector.exact entry rfl
              exact ⟨entry, node, rfl, builds, exact⟩
          | none =>
              have nonemptySorted : sorted ≠ [] := by
                rintro rfl
                exact nonempty selector.perm.symm.eq_nil
              obtain ⟨entry, node, creates, builds, exact⟩ :=
                ih nonemptySorted (selector.perm.nodup_iff.mpr nodup)
              exact ⟨entry, node, creates, builds,
                fun context => (exact context).skip selector.perm (selector.notAsked rfl)⟩

end

/-! ### Exact trees -/

/-- The construction of the tree of consistent elements ends with a root, and the
evaluation in any state with the dynamically applicable elements, each once. -/
theorem generate_exact (repository : Repository) {elements : List Nat} (nodup : elements.Nodup)
    (consistent : ∀ element ∈ elements, isConsistent (repository.condition element) = true)
    (preconditions : SortedPreconditions repository elements) :
    ∃ root steps, (∀ fuel ≥ steps, create repository preconditions fuel = some root) ∧
      ∀ context, ∃ generated steps, (∀ fuel ≥ steps, generate context root fuel = some generated) ∧
        generated.Nodup ∧ ∀ element, element ∈ generated ↔
          element ∈ elements ∧ isDynamicallyApplicable context (repository.condition element) = true := by
  by_cases empty : elements = []
  · subst empty
    have noEntry : tryCreateStackEntry repository preconditions.keys [] = none := by
      unfold tryCreateStackEntry
      exact if_pos rfl
    refine ⟨none, 0, fun fuel _ => ?_, fun context => ⟨[], 0, fun fuel _ => ?_, List.nodup_nil, ?_⟩⟩
    · rw [create, noEntry]
    · cases fuel <;> rfl
    · simp
  · obtain ⟨entry, node, creates, builds, exact⟩ :=
      @tryCreateStackEntry_exact repository preconditions.keys _ empty nodup
    obtain ⟨steps, run⟩ := construct_of_builds builds
    refine ⟨some node, steps, fun fuel enough => ?_, fun context => ?_⟩
    · rw [create, creates]
      dsimp only
      rw [← Nat.add_sub_of_le enough, run, resume, Option.map_some]
    · obtain ⟨steps, evaluates⟩ := @evaluates_collect context node
      refine ⟨collect context node, steps, fun fuel enough => ?_, (exact context).1, ?_⟩
      · have run := evaluates (fuel - steps) [] []
        rw [Nat.add_sub_of_le enough, List.append_nil, List.nil_append] at run
        rw [generate, Option.toList_some, run]
        cases fuel - steps <;> rfl
      · intro element
        rw [(exact context).2]
        exact and_congr_right fun mem => passes_iff preconditions mem (consistent element mem)

/-! One element wants the first variable to be one, the other wants it not to be. -/

def variableRepository : Repository where
  condition element :=
    if element = 0 then { positiveFacts := [⟨0, 1⟩] } else { negativeFacts := [⟨0, 1⟩] }
  domainSize _ := 2
  inDomain := by
    intro element fact mem
    split at mem
    · obtain rfl := List.mem_singleton.mp mem
      exact Nat.one_lt_two
    · cases mem

def variablePreconditions : SortedPreconditions variableRepository [0, 1] where
  keys := [.fdrVariable 0, .negativeFact ⟨0, 1⟩]
  nodup := by decide
  mem_iff key := by
    by_cases isVariable : key = .fdrVariable 0
    · subst isVariable
      decide
    · by_cases isFact : key = .negativeFact ⟨0, 1⟩
      · subst isFact
        decide
      · have none : variableRepository.occurrences [0, 1] key = [] := by
          simp [Repository.occurrences, entries, variableRepository, Ne.symm isVariable, Ne.symm isFact]
        simp [none, isVariable, isFact]
  sorted := by decide

theorem generate_exact_variable : ∃ root steps,
    (∀ fuel ≥ steps, create variableRepository variablePreconditions fuel = some root) ∧
      ∀ context, ∃ generated steps, (∀ fuel ≥ steps, generate context root fuel = some generated) ∧
        generated.Nodup ∧ ∀ element, element ∈ generated ↔ element ∈ [0, 1] ∧
          isDynamicallyApplicable context (variableRepository.condition element) = true :=
  generate_exact variableRepository (by decide) (by decide) variablePreconditions

end MatchTree

end Tyr.Planning
