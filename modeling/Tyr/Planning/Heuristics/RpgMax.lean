import Tyr.Datalog.MirroredBuckets
import Tyr.Formalism.Planning.CanonicalGrounding
import Tyr.Planning.Programs.Rpg

/-!
The lifted h_max heuristic.

An evaluation solves the program of the relaxed planning graph on the atoms of a state
until the goals are facts, and returns the greatest of their annotations.

* `MaxRPGHeuristic.Evaluates` — `evaluate`, with any workspace.
* `evaluate_admissible` — without false positives and wrapping, the value is infinite
  only if there is no plan, at most the length of every plan, and zero if the state
  satisfies the goal.
* `crossed_not_admissible` — a false positive costs more than the greatest word.
-/

namespace Tyr.Planning

open Tyr.Lib Tyr.Formalism Tyr.Formalism.Planning

/-- The steps lead from the state to one that satisfies the goal. -/
def TaskSemantics.IsPlan {task : Formalism.Planning.LiftedTask} (semantics : TaskSemantics task)
    (state : LiftedState) (goal : ConjunctiveCondition) (steps : List (Planning.Action × List Nat)) :
    Prop :=
  ∃ last, semantics.Run state steps last ∧ semantics.Holds last [] goal

namespace MaxRPGHeuristic

/-- `set_goal`: the positive fluent atoms of the goal. -/
def goalFacts (goal : ConjunctiveCondition) : List Tuple :=
  ((goal.fluentLiterals.filter Literal.polarity).map fun literal => literal.atom.ground []).dedup

def setGoal (ws : Datalog.ProgramWorkspace) (goal : ConjunctiveCondition) : Datalog.ProgramWorkspace :=
  { ws with goalFacts := goalFacts goal }

/-- `evaluate` returns the value for the fluent atoms of a state, and the condition holds
in all states of the evaluation. -/
def Evaluates (task : TypedTask) (literals : Canonicalization Literal)
    (numeric : Datalog.NumericOverapproximation)
    (condition : Datalog.Evaluation (RpgProgram.stratum task literals) → Prop)
    (ws : Datalog.ProgramWorkspace) (goal : ConjunctiveCondition) (facts : List Tuple)
    (value : Datalog.Cost) : Prop :=
  ∃ (e : Datalog.Evaluation (RpgProgram.stratum task literals)) (annotations : Datalog.Annotations),
    Datalog.Evaluation.Reaches (RpgProgram.data task literals) numeric .max condition
      ((setGoal ws goal).start (RpgProgram.stratum task literals) facts) e ∧
    e.Stops (RpgProgram.data task literals) numeric .max annotations ∧
    value = if e.tp.check then e.tp.totalCost .max annotations.orAnnot else ⊤

/-- The value says what it should about the plans from the state. -/
structure Admissible {task : Formalism.Planning.LiftedTask} (semantics : TaskSemantics task)
    (state : LiftedState) (goal : ConjunctiveCondition) (value : Datalog.Cost) : Prop where
  safe : value = ⊤ → ∀ steps, ¬ semantics.IsPlan state goal steps
  admissible : ∀ steps, semantics.IsPlan state goal steps → value ≤ (steps.length : Datalog.Cost)
  goalAware : semantics.Holds state [] goal → value = 0

section

variable {task : TypedTask} {literals : Canonicalization Literal}
  {semantics : TaskSemantics task.toLiftedTask} {state : LiftedState} {goal : ConjunctiveCondition}
  {facts : List Tuple}

theorem mem_goalFacts {fact : Tuple} : fact ∈ goalFacts goal ↔
    ∃ literal ∈ goal.fluentLiterals, literal.polarity = true ∧ literal.atom.ground [] = fact := by
  simp [goalFacts, and_assoc]

/-- The goal atoms are atoms of a state that satisfies the goal. -/
theorem goalFacts_of_holds (holds : semantics.Holds state [] goal) :
    ∀ fact ∈ goalFacts goal, fact ∈ state.fluentAtoms := by
  intro fact mem
  obtain ⟨literal, memLiteral, positive, rfl⟩ := mem_goalFacts.mp mem
  exact (holds.fluent literal memLiteral).mpr positive

/-- The goal atoms have derivations that cost at most the length of a plan. -/
theorem goalFacts_derivable (literals : Canonicalization Literal)
    (same : ∀ atom, atom ∈ facts ↔ atom ∈ state.fluentAtoms)
    {steps : List (Planning.Action × List Nat)} (plan : semantics.IsPlan state goal steps) :
    ∀ fact ∈ goalFacts goal, RpgProgram.DerivableWithin task literals facts steps.length fact := by
  intro fact mem
  obtain ⟨last, run, holds⟩ := plan
  have start : ∀ atom ∈ state.fluentAtoms, RpgProgram.DerivableWithin task literals facts 0 atom :=
    fun atom isAtom => RpgProgram.derivableWithin_fact ((same atom).mpr isAtom)
  have reached := RpgProgram.hasCost_run run start fact (goalFacts_of_holds holds fact mem)
  rwa [Nat.zero_add] at reached

end

end MaxRPGHeuristic

open MaxRPGHeuristic in
/-- If no pass of the evaluation reports a false positive or wraps around, the value is
infinite only if there is no plan, at most the length of every plan, and zero if the
state satisfies the goal. -/
theorem evaluate_admissible (task : TypedTask) (literals : Canonicalization Literal)
    (numeric : Datalog.NumericOverapproximation) (semantics : TaskSemantics task.toLiftedTask)
    (ws : Datalog.ProgramWorkspace) (state : LiftedState) (goal : ConjunctiveCondition)
    (facts : List Tuple) (value : Datalog.Cost) (reachable : semantics.Reachable state)
    (same : ∀ atom, atom ∈ facts ↔ atom ∈ state.fluentAtoms)
    (evaluates : Evaluates task literals numeric
      (fun e => e.tp.check = false → e.Regular (RpgProgram.data task literals) numeric)
      ws goal facts value) :
    Admissible semantics state goal value := by
  obtain ⟨e, annotations, ⟨run, regular⟩, stops, rfl⟩ := evaluates
  have positive := RpgProgram.positiveStratum literals fun atom (mem : atom ∈ facts) =>
    RpgProgram.reachable_typed reachable atom ((same atom).mp mem)
  have start : Datalog.EvaluationInvariant (RpgProgram.data task literals) numeric (goalFacts goal)
      facts ((setGoal ws goal).start (RpgProgram.stratum task literals) facts) :=
    Datalog.evaluationInvariant_start (setGoal ws goal) (List.nodup_dedup _)
  have regularRun : Relation.ReflTransGen (fun e e' =>
      e.Regular (RpgProgram.data task literals) numeric ∧
        Datalog.Evaluation.Step (RpgProgram.data task literals) numeric .max e e')
      ((setGoal ws goal).start (RpgProgram.stratum task literals) facts) e :=
    Relation.ReflTransGen.mono (fun _ _ step => ⟨step.1 step.2.1, step.2⟩) _ _ run
  have inv := start.run positive regularRun
  have bound : ∀ steps, semantics.IsPlan state goal steps →
      (if e.tp.check then e.tp.totalCost .max annotations.orAnnot else ⊤) ≤
        (steps.length : Datalog.Cost) := by
    intro steps plan
    have derivable := goalFacts_derivable literals same plan
    cases stops with
    | achieved achieved =>
        rw [if_pos achieved]
        apply inv.tracks.totalCost_le
        intro fact mem
        obtain ⟨c, le, derivation⟩ := derivable fact mem
        have isFact := inv.tracks.check_iff.mp achieved fact mem
        exact (inv.orAnnot_le positive isFact derivation).trans le
    | exhausted schedule unsatisfied valid done =>
        have achieved : e.tp.check = true := by
          apply inv.tracks.check_iff.mpr
          intro fact mem
          obtain ⟨c, _, derivation⟩ := derivable fact mem
          exact inv.exhausted positive (regular unsatisfied) valid done derivation
        rw [achieved] at unsatisfied
        cases unsatisfied
  refine ⟨fun infinite steps plan => ?_, bound, fun holds => ?_⟩
  · have le := bound steps plan
    rw [infinite] at le
    exact WithTop.coe_ne_top (top_le_iff.mp le)
  · -- The empty plan leads to the goal.
    have le := bound [] ⟨state, .nil, holds⟩
    exact le_antisymm le zero_le

/-! ### A false positive -/

/-- Adds the edge back. -/
def crossBack : Planning.Action where
  arity := 0
  effects := [{ effect := { literals := [⟨⟨0, [.object 1, .object 0]⟩, true⟩] } }]
  closed := ConjunctiveCondition.closed_empty

/-- Marks the first object, if it has an edge back. -/
def markFirst : Planning.Action where
  arity := 0
  condition := { fluentLiterals := [⟨⟨0, [.object 1, .object 0]⟩, true⟩] }
  effects := [{ effect := { literals := [⟨⟨1, [.object 0]⟩, true⟩] } }]
  closed := by simp [ConjunctiveCondition.terms]

/-- Marks an object with an edge to itself. -/
def markLoop : Planning.Action where
  arity := 2
  condition := { fluentLiterals := [⟨⟨0, [.parameter 0, .parameter 0]⟩, true⟩] }
  effects := [{ effect := { literals := [⟨⟨1, [.parameter 0]⟩, true⟩] } }]
  closed := by simp [ConjunctiveCondition.terms]

theorem typed_empty (arity : Symbol → Nat) (parameters : Nat) :
    ConjunctiveCondition.Typed arity parameters {} := ⟨nofun, nofun⟩

def crossedActions : List Planning.Action := [crossBack, markFirst, markLoop]

/-- The edges have two objects, the marks have one. -/
def crossedArity (symbol : Symbol) : Nat :=
  if symbol = .fluentPredicate 0 then 2 else if symbol = .fluentPredicate 1 then 1 else 0

theorem crossed_effects_closed : ∀ action ∈ crossedActions, ∀ effect ∈ action.effects,
    ∀ literal ∈ effect.effect.literals, ∀ index, .parameter index ∈ literal.atom.terms →
      index < action.arity + effect.arity := by
  simp [crossedActions, crossBack, markFirst, markLoop]

theorem crossed_fluentAtoms_typed : ∀ atom ∈ [(⟨0, [0, 1]⟩ : Tuple)],
    atom.objects.length = crossedArity (.fluentPredicate atom.relation) := by
  simp [crossedArity]

theorem crossed_preconditions_typed : ∀ action ∈ crossedActions,
    action.condition.Typed crossedArity action.arity := by
  intro action mem
  simp only [crossedActions, List.mem_cons, List.not_mem_nil, or_false] at mem
  rcases mem with rfl | rfl | rfl
  · exact typed_empty _ _
  · constructor <;> simp [markFirst, crossedArity]
  · constructor <;> simp [markLoop, crossedArity]

theorem crossed_conditions_typed : ∀ action ∈ crossedActions, ∀ effect ∈ action.effects,
    effect.condition.Typed crossedArity (action.arity + effect.arity) := by
  intro action mem effect memEffect
  simp only [crossedActions, List.mem_cons, List.not_mem_nil, or_false] at mem
  rcases mem with rfl | rfl | rfl <;>
    obtain rfl := List.mem_singleton.mp memEffect <;> exact typed_empty _ _

theorem crossed_effects_typed : ∀ action ∈ crossedActions, ∀ effect ∈ action.effects,
    ∀ literal ∈ effect.effect.literals,
      literal.atom.terms.length = crossedArity (.fluentPredicate literal.atom.predicate) := by
  simp [crossedActions, crossBack, markFirst, markLoop, crossedArity]

theorem crossed_heads_closed : ∀ ax ∈ ([] : List Axiom), ∀ index,
    .parameter index ∈ ax.head.terms → index < ax.arity :=
  List.forall_mem_nil _

theorem crossed_staticAtoms_typed : ∀ atom ∈ ([] : List Tuple),
    atom.objects.length = crossedArity (.staticPredicate atom.relation) :=
  List.forall_mem_nil _

/-- Two objects with an edge from the first to the second. -/
def crossedTask : TypedTask where
  objects := [0, 1]
  arity := crossedArity
  staticAtoms := []
  fluentAtoms := [⟨0, [0, 1]⟩]
  staticFtermValues := []
  fluentFtermValues := []
  actions := crossedActions
  axioms := []
  goal := { fluentLiterals := [⟨⟨1, [.object 0]⟩, true⟩] }
  effects_closed := crossed_effects_closed
  heads_closed := crossed_heads_closed
  staticAtoms_typed := crossed_staticAtoms_typed
  fluentAtoms_typed := crossed_fluentAtoms_typed
  preconditions_typed := crossed_preconditions_typed
  conditions_typed := crossed_conditions_typed
  effects_typed := crossed_effects_typed

/-- Some order of the literals. -/
@[reducible] noncomputable def literalOrder : LinearOrder Literal := IsWellOrder.linearOrder WellOrderingRel

noncomputable def sortedLiterals : Canonicalization Literal :=
  @Canonicalization.sorted Literal literalOrder

noncomputable abbrev crossedStratum : Datalog.Stratum :=
  RpgProgram.stratum crossedTask sortedLiterals

noncomputable abbrev crossedData : Datalog.ProgramData := RpgProgram.data crossedTask sortedLiterals

/-- The rule of the loop. -/
noncomputable abbrev loopRule : Datalog.ConstRuleWorkspace := crossedStratum.get ⟨2, by decide⟩

theorem mem_domain_loopRule {p object : Nat} (inRange : p < 2) :
    object ∈ loopRule.parameterDomains.getD p [] ↔ object = 0 ∨ object = 1 := by
  change object ∈ (Analysis.toVariableDomainList 2 (Analysis.ProgramDomains.ruleDomains
    (RpgProgram.createProgram crossedTask sortedLiterals) loopRule.rule)).getD p [] ↔ _
  rw [Analysis.toVariableDomainList, List.getD_eq_getElem?_getD, List.getElem?_map,
    List.getElem?_range inRange, Option.map_some, Option.getD_some, Analysis.toVariableDomain,
    Finset.mem_sort]
  change object ∈ ({0, 1} : Finset Nat) ↔ _
  simp

theorem inDomains_loopRule {binding : List Nat} : loopRule.InDomains binding ↔
    ∃ x y, binding = [x, y] ∧ (x = 0 ∨ x = 1) ∧ (y = 0 ∨ y = 1) := by
  constructor
  · rintro ⟨length, inDomains⟩
    obtain ⟨x, y, rfl⟩ := List.length_eq_two.mp length
    exact ⟨x, y, rfl, (mem_domain_loopRule (by decide)).mp (inDomains 0 (by decide)),
      (mem_domain_loopRule (by decide)).mp (inDomains 1 (by decide))⟩
  · rintro ⟨x, y, rfl, first, second⟩
    refine ⟨rfl, fun p inRange => (mem_domain_loopRule inRange).mpr ?_⟩
    have cases : p = 0 ∨ p = 1 := by
      change p < 2 at inRange
      omega
    rcases cases with rfl | rfl
    · exact first
    · exact second

theorem typed_crossed (cws : Datalog.ConstRuleWorkspace) (mem : cws ∈ crossedStratum)
    (fluent : List Tuple)
    (typed : ∀ fact ∈ fluent, fact.objects.length = crossedArity (.fluentPredicate fact.relation)) :
    cws.TypedFacts (crossedData.factSets fluent) := by
  obtain ⟨rule, rfl⟩ := RpgProgram.mem_stratum mem
  intro kind fact memFact
  change _ = (RpgProgram.predicateDomains crossedTask sortedLiterals kind fact.relation).length
  rw [RpgProgram.length_predicateDomains]
  cases kind with
  | static => cases memFact
  | fluent => exact typed fact memFact

/-- The literal of the loop. -/
def loopLiteral : Literal := ⟨⟨0, [.parameter 0, .parameter 0]⟩, true⟩

theorem loopRule_body : loopRule.rule.body.staticLiterals = [] ∧
    loopRule.rule.body.fluentLiterals = [loopLiteral] := ⟨rfl, rfl⟩

theorem loopLiteral_weak : loopRule.Weak .fluent loopLiteral :=
  ⟨by decide, by decide, .inl ⟨0, rfl⟩⟩

theorem cliqueTests_loopRule {fluent : List Tuple}
    (pairs : ∀ fact ∈ fluent, fact.relation = 0 ∧ fact.objects.length = 2) {binding : List Nat} :
    loopRule.CliqueTests Datalog.noNumeric (crossedData.factSets fluent) binding ↔
      loopRule.InDomains binding ∧ (∃ fact ∈ fluent, fact.objects[0]? = some (binding.getD 0 0)) ∧
        ∃ fact ∈ fluent, fact.objects[1]? = some (binding.getD 0 0) := by
  let facts : Datalog.TypedFactSets loopRule.predicateDomains :=
    ⟨crossedData.factSets fluent, typed_crossed loopRule (List.get_mem _ _) fluent fun fact mem => by
      obtain ⟨relation, length⟩ := pairs fact mem
      rw [relation, length]
      rfl⟩
  have mem : loopLiteral ∈ loopRule.rule.body.literals .fluent := by
    change loopLiteral ∈ loopRule.rule.body.fluentLiterals
    rw [loopRule_body.2]
    exact List.mem_singleton_self _
  have projects : Datalog.ConstRuleWorkspace.WeaklyHolds facts.toFactSets binding .fluent loopLiteral ↔
      (∃ fact ∈ fluent, fact.objects[0]? = some (binding.getD 0 0)) ∧
        ∃ fact ∈ fluent, fact.objects[1]? = some (binding.getD 0 0) := by
    have relation : ∀ fact ∈ fluent, fact.relation = 0 := fun fact memFact => (pairs fact memFact).1
    simp only [Datalog.ConstRuleWorkspace.WeaklyHolds, loopLiteral, Datalog.ProjectsTo, facts,
      Datalog.ProgramData.factSets, Atom.ground, Term.ground, List.map_cons, List.map_nil,
      List.mem_singleton, forall_eq, forall_const, List.getElem?_cons_zero, List.getElem?_cons_succ]
    apply and_congr
    · exact exists_congr fun fact => and_congr_right fun memFact => and_iff_right (relation fact memFact)
    · exact exists_congr fun fact => and_congr_right fun memFact => and_iff_right (relation fact memFact)
  rw [← projects]
  constructor
  · intro tests
    have weakTest : loopRule.LiteralTested facts.toFactSets binding .fluent loopLiteral ↔
        Datalog.ConstRuleWorkspace.WeaklyHolds facts.toFactSets binding .fluent loopLiteral :=
      Datalog.ConstRuleWorkspace.literalTested_iff_of_weak tests.inDomains mem loopLiteral_weak
    refine ⟨tests.inDomains, weakTest.mp (tests.literalTested ?_ ?_)⟩
    · intro nullary
      exact absurd (Formalism.Datalog.ConjunctiveCondition.mem_nullary.mp nullary).2 (by decide)
    · intro conflicting
      exact absurd
        (Formalism.Datalog.ConjunctiveCondition.mem_conflictingOverapproximation.mp conflicting).2
        (by decide)
  · rintro ⟨inDomains, holds⟩
    refine Datalog.ConstRuleWorkspace.cliqueTests_of_literalTested inDomains ?_ ?_ ?_
    · intro kind literal memLiteral
      cases kind with
      | static =>
          change literal ∈ loopRule.rule.body.staticLiterals at memLiteral
          rw [loopRule_body.1] at memLiteral
          cases memLiteral
      | fluent =>
          change literal ∈ loopRule.rule.body.fluentLiterals at memLiteral
          rw [loopRule_body.2] at memLiteral
          obtain rfl := List.mem_singleton.mp memLiteral
          have weakTest : loopRule.LiteralTested facts.toFactSets binding .fluent loopLiteral ↔
              Datalog.ConstRuleWorkspace.WeaklyHolds facts.toFactSets binding .fluent loopLiteral :=
            Datalog.ConstRuleWorkspace.literalTested_iff_of_weak inDomains mem loopLiteral_weak
          exact weakTest.mpr holds
    · intro p _ _ constraint memConstraint
      cases List.mem_of_mem_filter memConstraint
    · intro p q _ _ _ _ constraint memConstraint
      cases List.mem_of_mem_filter memConstraint

/-- With one edge the loop is not matched. -/
theorem loopRule_untested (binding : List Nat) :
    ¬ loopRule.CliqueTests Datalog.noNumeric (crossedData.factSets [⟨0, [0, 1]⟩]) binding := by
  intro tests
  obtain ⟨_, ⟨fact, mem, first⟩, other, mem', second⟩ := (cliqueTests_loopRule (by decide)).mp tests
  obtain rfl := List.mem_singleton.mp mem
  obtain rfl := List.mem_singleton.mp mem'
  simp only [List.getElem?_cons_zero, List.getElem?_cons_succ, Option.some.injEq] at first second
  omega

/-- With both edges the loop is matched at both objects. -/
theorem loopRule_tested (binding : List Nat) :
    loopRule.CliqueTests Datalog.noNumeric (crossedData.factSets [⟨0, [0, 1]⟩, ⟨0, [1, 0]⟩]) binding ↔
      binding ∈ [[0, 0], [0, 1], [1, 0], [1, 1]] := by
  rw [cliqueTests_loopRule (by decide), inDomains_loopRule]
  constructor
  · rintro ⟨⟨x, y, rfl, rfl | rfl, rfl | rfl⟩, _⟩ <;> decide
  · intro mem
    simp only [List.mem_cons, List.not_mem_nil, or_false] at mem
    rcases mem with rfl | rfl | rfl | rfl <;> simp

/-! #### The run -/

def freshWorkspace : Datalog.ProgramWorkspace := ⟨.initial [], [], ⟨∅, 0, []⟩⟩

noncomputable def crossedState : Datalog.StratumState crossedStratum :=
  (freshWorkspace.clear crossedTask.fluentAtoms).solve.enter crossedStratum

noncomputable abbrev firstRule : Fin crossedStratum.length := ⟨0, by decide⟩
noncomputable abbrev secondRule : Fin crossedStratum.length := ⟨1, by decide⟩
noncomputable abbrev thirdRule : Fin crossedStratum.length := ⟨2, by decide⟩

theorem crossedStratum_cases (r : Fin crossedStratum.length) :
    r = firstRule ∨ r = secondRule ∨ r = thirdRule := by
  have length : crossedStratum.length = 3 := rfl
  have inRange := r.isLt
  simp only [Fin.ext_iff]
  omega

/-- The first pass adds the edge back. -/
noncomputable def crossedFirst : Datalog.Schedule crossedStratum where
  pending := fun _ => []
  reports := fun _ => []
  nullaryWorker := fun _ => 0
  merges := [(firstRule, 0, ⟨0, [1, 0]⟩)]
  inserted := [⟨0, [1, 0]⟩]

theorem crossedFirst_valid :
    Datalog.Machine.ValidSchedule crossedData Datalog.noNumeric .max crossedState crossedFirst where
  pending := fun _ _ => List.Perm.refl _
  reports_nodup := fun _ _ => List.nodup_nil
  reports := by
    intro r _ parameters binding
    rcases crossedStratum_cases r with rfl | rfl | rfl
    · exact absurd rfl parameters
    · exact absurd rfl parameters
    · exact iff_of_false List.not_mem_nil fun tested => loopRule_untested binding tested.1
  merges := by
    rintro ⟨r, worker, head⟩
    constructor
    · intro mem
      cases List.mem_singleton.mp mem
      exact ⟨Finset.mem_univ _, ⟨0, []⟩, List.mem_singleton_self _, rfl, rfl⟩
    · rintro ⟨_, a, mem, sameWorker, sameHead⟩
      rcases crossedStratum_cases r with rfl | rfl | rfl
      · obtain rfl : a = ⟨0, []⟩ := List.mem_singleton.mp mem
        obtain rfl : worker = 0 := sameWorker.symm
        obtain rfl : head = ⟨0, [1, 0]⟩ := sameHead.symm
        exact List.mem_singleton_self _
      · cases mem
      · cases mem
  inserted := by
    have waiting : (Datalog.Machine.merged crossedData .max crossedState
        crossedFirst).1.advanceToNextNonempty.2.currentBucket = {⟨0, [1, 0]⟩} := by decide
    intro head
    rw [waiting, Finset.mem_singleton]
    exact List.mem_singleton

theorem crossedFirst_advances : (Datalog.Machine.merged crossedData .max crossedState
    crossedFirst).1.advanceToNextNonempty.1 = true := by decide

noncomputable def crossedNext : Datalog.StratumState crossedStratum :=
  Datalog.Machine.next crossedData .max crossedState crossedFirst

/-- The second pass matches the loop at both objects, which have none. -/
noncomputable def crossedSecond : Datalog.Schedule crossedStratum where
  pending := fun _ => []
  reports r := if r = thirdRule then [(0, [0, 0]), (0, [0, 1]), (0, [1, 0]), (0, [1, 1])] else []
  nullaryWorker := fun _ => 0
  merges := [(secondRule, 0, ⟨1, [0]⟩), (thirdRule, 0, ⟨1, [0]⟩), (thirdRule, 0, ⟨1, [1]⟩)]
  inserted := []

theorem crossedSecond_ends : (Datalog.Machine.merged crossedData .max crossedNext
    crossedSecond).1.advanceToNextNonempty.1 = false := by decide

theorem crossedSecond_valid :
    Datalog.Machine.ValidSchedule crossedData Datalog.noNumeric .max crossedNext crossedSecond where
  pending := by
    intro r _
    rcases crossedStratum_cases r with rfl | rfl | rfl <;> exact List.Perm.refl _
  reports_nodup := by
    intro r _
    rcases crossedStratum_cases r with rfl | rfl | rfl <;> decide
  reports := by
    intro r _ parameters binding
    rcases crossedStratum_cases r with rfl | rfl | rfl
    · exact absurd rfl parameters
    · exact absurd rfl parameters
    · have seen : (crossedNext.rules thirdRule).seen = some [⟨0, [0, 1]⟩] := rfl
      have facts : crossedNext.facts = [⟨0, [0, 1]⟩, ⟨0, [1, 0]⟩] := rfl
      rw [seen, facts, loopRule_tested]
      refine (and_iff_left ?_).symm
      intro s mem
      obtain rfl := Option.mem_some.mp mem
      exact loopRule_untested binding
  merges := by
    rintro ⟨r, worker, head⟩
    constructor
    · intro mem
      simp [crossedSecond] at mem
      rcases mem with ⟨rfl, rfl, rfl⟩ | ⟨rfl, rfl, rfl⟩ | ⟨rfl, rfl, rfl⟩
      · exact ⟨by decide, ⟨0, []⟩, List.mem_singleton_self _, rfl, rfl⟩
      · exact ⟨by decide, ⟨0, [0, 0]⟩, List.mem_cons_self, rfl, rfl⟩
      · exact ⟨by decide, ⟨0, [1, 0]⟩, List.mem_cons_of_mem _ (List.mem_cons_of_mem _ List.mem_cons_self), rfl, rfl⟩
    · rintro ⟨active, a, mem, sameWorker, sameHead⟩
      rcases crossedStratum_cases r with rfl | rfl | rfl
      · have idle : firstRule ∉ crossedNext.active := by decide
        exact absurd active idle
      · obtain rfl : a = ⟨0, []⟩ := List.mem_singleton.mp mem
        obtain rfl : worker = 0 := sameWorker.symm
        obtain rfl : head = ⟨1, [0]⟩ := sameHead.symm
        exact List.mem_cons_self
      · have announced : (crossedNext.output crossedData crossedSecond thirdRule).announced =
            [⟨0, [0, 0]⟩, ⟨0, [0, 1]⟩, ⟨0, [1, 0]⟩, ⟨0, [1, 1]⟩] := rfl
        dsimp only at mem
        rw [announced] at mem
        simp only [List.mem_cons, List.not_mem_nil, or_false] at mem
        have listed : (thirdRule, worker, head) ∈ crossedSecond.merges := by
          rcases mem with rfl | rfl | rfl | rfl
          · obtain rfl : worker = 0 := sameWorker.symm
            obtain rfl : head = ⟨1, [0]⟩ := sameHead.symm
            decide
          · obtain rfl : worker = 0 := sameWorker.symm
            obtain rfl : head = ⟨1, [0]⟩ := sameHead.symm
            decide
          · obtain rfl : worker = 0 := sameWorker.symm
            obtain rfl : head = ⟨1, [1]⟩ := sameHead.symm
            decide
          · obtain rfl : worker = 0 := sameWorker.symm
            obtain rfl : head = ⟨1, [1]⟩ := sameHead.symm
            decide
        exact listed
  inserted := by
    have waiting : (Datalog.Machine.merged crossedData .max crossedNext
        crossedSecond).1.advanceToNextNonempty.2.currentBucket = ∅ := by decide
    intro head
    rw [waiting]
    exact iff_of_false List.not_mem_nil (Finset.notMem_empty head)

open MaxRPGHeuristic

/-- The evaluation of the initial state. -/
noncomputable def crossedStart : Datalog.Evaluation crossedStratum :=
  (setGoal freshWorkspace crossedTask.goal).start crossedStratum crossedTask.fluentAtoms

/-- The evaluation returns infinity. -/
theorem crossed_evaluates : Evaluates crossedTask sortedLiterals Datalog.noNumeric (fun _ => True)
    freshWorkspace crossedTask.goal crossedTask.fluentAtoms ⊤ := by
  refine ⟨⟨crossedNext, crossedStart.achieveHeads crossedFirst.inserted⟩, _, ⟨.single ⟨trivial, ?_⟩,
    trivial⟩, .exhausted crossedSecond (by decide) crossedSecond_valid crossedSecond_ends, ?_⟩
  · exact ⟨by decide, crossedFirst, crossedFirst_valid, crossedFirst_advances, rfl⟩
  · have unsatisfied : (crossedStart.achieveHeads crossedFirst.inserted).check = false := by decide
    simp [unsatisfied]

/-- The head of the second loop of the evaluation. -/
theorem crossed_atHead : Datalog.AtHead crossedData Datalog.noNumeric .max (fun _ _ => True)
    (setGoal freshWorkspace crossedTask.goal) crossedTask.fluentAtoms [] crossedStratum
    ⟨crossedNext, crossedStart.achieveHeads crossedFirst.inserted⟩ [⟨0, [1, 0]⟩] :=
  .pass (.first crossedStratum) (by decide) crossedFirst_valid trivial crossedFirst_advances

/-- The mark is annotated with cost 0 from the loop, which has no cost. -/
theorem crossed_undercuts : ¬ ∀ (data : Datalog.ProgramData)
    (numeric : Datalog.NumericOverapproximation) (aggregation : Datalog.Aggregation)
    (ws : Datalog.ProgramWorkspace) (facts : List Tuple) (earlier : List Datalog.Stratum)
    (stratum : Datalog.Stratum) (e : Datalog.Evaluation stratum) (derived : List Tuple),
    Datalog.AtHead data numeric aggregation (fun _ _ => True) ws facts earlier stratum e derived →
      e.state.annotations.CoverBodies := by
  intro claim
  have covers := claim crossedData Datalog.noNumeric .max _ _ _ crossedStratum _ _
    (.exhausted crossedStratum crossed_atHead (by decide) crossedSecond_valid trivial
      crossedSecond_ends)
  have loops := covers ⟨1, [0]⟩ ⟨loopRule.rule, [0, 0], 0⟩ rfl ⟨0, [0, 0]⟩ (by decide)
  exact absurd loops (by decide)

theorem crossedFirst_inRange :
    Datalog.Machine.InRange crossedData .max crossedState crossedFirst where
  current := by
    intro r _
    rcases crossedStratum_cases r with rfl | rfl | rfl <;> decide
  announced := by
    intro r _ a mem
    rcases crossedStratum_cases r with rfl | rfl | rfl
    · obtain rfl : a = ⟨0, []⟩ := List.mem_singleton.mp mem
      decide
    · cases mem
    · cases mem

/-- The sums of the first loop are in range. -/
theorem costs_cover_crossedNext : crossedNext.annotations.CoverBodies ∧
    (Datalog.TotalInRange .max [⟨1, [0]⟩] crossedNext.annotations.orAnnot →
      (crossedStart.achieveHeads crossedFirst.inserted).CoversGoals .max [⟨1, [0]⟩]
        crossedNext.annotations.orAnnot) := by
  have atHead : Datalog.AtHead crossedData Datalog.noNumeric .max
      (fun st schedule => Datalog.Machine.InRange crossedData .max st schedule)
      (setGoal freshWorkspace crossedTask.goal) crossedTask.fluentAtoms [] crossedStratum
      ⟨crossedNext, crossedStart.achieveHeads crossedFirst.inserted⟩ [⟨0, [1, 0]⟩] :=
    .pass (.first crossedStratum) (by decide) crossedFirst_valid crossedFirst_inRange
      crossedFirst_advances
  exact (Datalog.AtHead.costs_cover atHead (by decide)).1

theorem crossed_typedStrata : Datalog.TypedStrata crossedData [crossedStratum]
    crossedTask.fluentAtoms := by
  intro stratum mem cws memRule fluent known
  cases List.mem_singleton.mp mem
  apply typed_crossed cws memRule
  intro fact memFact
  rcases known fact memFact with initial | ⟨s, memStratum, other, memOther, binding, rfl⟩
  · exact crossed_fluentAtoms_typed fact initial
  · cases List.mem_singleton.mp memStratum
    obtain ⟨r, rfl⟩ := List.get_of_mem memOther
    rcases crossedStratum_cases r with rfl | rfl | rfl <;> rfl

/-- The mark is put into bucket 0, which the evaluation has left behind. -/
theorem crossed_unmirrored : ¬ ∀ (data : Datalog.ProgramData)
    (numeric : Datalog.NumericOverapproximation) (aggregation : Datalog.Aggregation)
    (ws : Datalog.ProgramWorkspace) (facts : List Tuple) (earlier : List Datalog.Stratum)
    (stratum : Datalog.Stratum) (e : Datalog.Evaluation stratum) (derived : List Tuple)
    (schedule : Datalog.Schedule stratum),
    Datalog.AtHead data numeric aggregation (fun _ _ => True) ws facts earlier stratum e derived →
      (earlier ++ [stratum]).Pairwise Datalog.Stratum.HeadsApart →
      Datalog.TypedStrata data (earlier ++ [stratum]) facts → e.tp.check = false →
      Datalog.Machine.ValidSchedule data numeric aggregation e.state schedule →
        Datalog.BucketsMirror data aggregation e.state schedule (derived ++ schedule.heads) := by
  intro claim
  have mirror := claim crossedData Datalog.noNumeric .max _ _ [] crossedStratum _ _ crossedSecond
    crossed_atHead (List.pairwise_singleton _ _) crossed_typedStrata (by decide) crossedSecond_valid
  obtain ⟨c, late, annotated, _⟩ := mirror.waits ⟨1, [0]⟩ (by decide) (by decide)
  have current : (Datalog.Machine.merged crossedData .max crossedNext crossedSecond).1.current = 1 := by
    decide
  have free : (Datalog.Machine.merged crossedData .max crossedNext
      crossedSecond).2.orAnnot ⟨1, [0]⟩ = (0 : Nat) := by decide
  have isZero : 0 = c := WithTop.coe_inj.mp (free.symm.trans annotated)
  have positive : 1 ≤ c := current.symm.le.trans late
  omega

/-- Before the first advance the edge back waits in bucket 1. -/
theorem bucketsMirror_crossedState : Datalog.BucketsMirror crossedData .max crossedStart.state
    crossedFirst ([] ++ crossedFirst.heads) := by
  have atHead : Datalog.AtHead crossedData Datalog.noNumeric .max
      (fun st schedule => Datalog.Machine.InRange crossedData .max st schedule)
      (setGoal freshWorkspace crossedTask.goal) crossedTask.fluentAtoms [] crossedStratum
      crossedStart [] := .first crossedStratum
  refine (Datalog.AtHead.bucketsMirror_iff atHead (List.pairwise_singleton _ _) crossed_typedStrata
    (by decide) crossedFirst_valid crossedFirst_inRange).mpr ?_
  intro all
  have isFact := all ⟨0, [1, 0]⟩ (by decide)
  exact absurd isFact (by decide)

/-- There is nothing numeric, and there are no axioms. -/
def crossedSemantics : TaskSemantics crossedTask.toLiftedTask where
  axiomLayers := []
  mem_axioms := nofun
  constraintHolds := fun _ _ => True
  effectsAccepted := fun _ _ _ => True
  successorValues := fun state _ _ => state.fluentValues

/-- Adding the edge back and marking the first object is a plan. -/
theorem crossed_plan : crossedSemantics.IsPlan (TaskSemantics.initial crossedTask.toLiftedTask)
    crossedTask.goal [(crossBack, []), (markFirst, [])] := by
  have always : ∀ state binding, crossedSemantics.Holds state binding {} :=
    fun state binding => ⟨⟨nofun, nofun, nofun⟩, nofun⟩
  have noObjects : crossedTask.IsBinding 0 [] := ⟨rfl, nofun⟩
  let middle := crossedSemantics.successor (TaskSemantics.initial crossedTask.toLiftedTask) crossBack []
  have added : (⟨0, [1, 0]⟩ : Tuple) ∈ middle.fluentAtoms :=
    .inl ⟨_, List.mem_cons_self, [], ⟨noObjects, always _ _⟩, _, List.mem_cons_self, rfl, rfl⟩
  have marked : (⟨1, [0]⟩ : Tuple) ∈ (crossedSemantics.successor middle markFirst []).fluentAtoms :=
    .inl ⟨_, List.mem_cons_self, [], ⟨noObjects, always _ _⟩, _, List.mem_cons_self, rfl, rfl⟩
  refine ⟨crossedSemantics.successor middle markFirst [], .cons ?_ (.cons ?_ .nil), ?_⟩
  · exact ⟨List.mem_cons_self, noObjects, always _ _, trivial⟩
  · refine ⟨by simp [crossedTask, crossedActions], noObjects, ⟨⟨nofun, ?_, nofun⟩, nofun⟩, trivial⟩
    intro literal mem
    obtain rfl := List.mem_singleton.mp mem
    exact iff_of_true added rfl
  · refine ⟨⟨nofun, ?_, nofun⟩, nofun⟩
    intro literal mem
    obtain rfl := List.mem_singleton.mp mem
    exact iff_of_true marked rfl

/-- The value of the initial state is infinite, although it has a plan. -/
theorem crossed_not_admissible : ¬ ∀ (task : TypedTask) (literals : Canonicalization Literal)
    (numeric : Datalog.NumericOverapproximation) (semantics : TaskSemantics task.toLiftedTask)
    (ws : Datalog.ProgramWorkspace) (state : LiftedState) (facts : List Tuple) (value : Datalog.Cost),
    semantics.Reachable state → (∀ atom, atom ∈ facts ↔ atom ∈ state.fluentAtoms) →
      Evaluates task literals numeric (fun _ => True) ws task.goal facts value →
        Admissible semantics state task.goal value := by
  intro claim
  have admissible := claim crossedTask sortedLiterals Datalog.noNumeric crossedSemantics freshWorkspace
    (TaskSemantics.initial crossedTask.toLiftedTask) crossedTask.fluentAtoms ⊤ .initial
    (fun _ => Iff.rfl) crossed_evaluates
  exact admissible.safe rfl _ crossed_plan

/-- The edge back as a goal. -/
def backGoal : ConjunctiveCondition := { fluentLiterals := [⟨⟨0, [.object 1, .object 0]⟩, true⟩] }

def oneBack : Datalog.TerminationPolicy.GoalFactSet := ⟨[⟨0, [1, 0]⟩], List.nodup_singleton _, by decide⟩

noncomputable def backStart : Datalog.Evaluation crossedStratum :=
  (setGoal freshWorkspace backGoal).start crossedStratum crossedTask.fluentAtoms

theorem backStart_regular : backStart.Regular crossedData Datalog.noNumeric where
  noFalsePositive := by
    intro r _ binding tests kind literal _ weak
    rcases crossedStratum_cases r with rfl | rfl | rfl
    · exact absurd weak.1 (by decide)
    · exact absurd weak.1 (by decide)
    · exact absurd tests (loopRule_untested binding)
  inRange := by
    intro r _
    rcases crossedStratum_cases r with rfl | rfl | rfl <;> decide

/-- One pass reaches the edge back. -/
theorem evaluate_admissible_back : Admissible crossedSemantics
    (TaskSemantics.initial crossedTask.toLiftedTask) backGoal 1 := by
  apply evaluate_admissible crossedTask sortedLiterals Datalog.noNumeric crossedSemantics freshWorkspace
    (TaskSemantics.initial crossedTask.toLiftedTask) backGoal crossedTask.fluentAtoms 1 .initial
    (fun _ => Iff.rfl)
  have achieved : (backStart.achieveHeads crossedFirst.inserted).check = true := by decide
  refine ⟨⟨crossedNext, backStart.achieveHeads crossedFirst.inserted⟩, crossedNext.annotations,
    ⟨.single ⟨fun _ => backStart_regular, ?_⟩, fun unsatisfied => ?_⟩, .achieved achieved, ?_⟩
  · exact ⟨by decide, crossedFirst, crossedFirst_valid, crossedFirst_advances, rfl⟩
  · rw [achieved] at unsatisfied
    cases unsatisfied
  · rw [if_pos achieved]
    decide

/-- After this pass the check succeeds, since the edge back is a fact. -/
theorem checksExact_iff_back : (backStart.achieveHeads crossedFirst.inserted).check = true ↔
    ∀ goal ∈ (setGoal freshWorkspace backGoal).goalFacts, goal ∈ crossedNext.facts := by
  have atHead : Datalog.AtHead crossedData Datalog.noNumeric .max (fun _ _ => True)
      (setGoal freshWorkspace backGoal) crossedTask.fluentAtoms [] crossedStratum
      ⟨crossedNext, backStart.achieveHeads crossedFirst.inserted⟩ ([] ++ crossedFirst.heads) :=
    .pass (.first crossedStratum) (by decide) crossedFirst_valid trivial crossedFirst_advances
  exact (Datalog.checksExact_iff backStart.tp oneBack [] crossedData Datalog.noNumeric .max
    (setGoal freshWorkspace backGoal) crossedTask.fluentAtoms [] crossedStratum _ _).2
    (by decide) atHead

end Tyr.Planning
