import Tyr.Analysis.VariableDomainsSound
import Tyr.Datalog.Termination
import Tyr.Planning.Programs.Workspace
import Tyr.Planning.RelaxedPlan

/-!
The program of the relaxed planning graph.

Every added literal of a conditional effect is the head of a rule of cost one over
the parameters of the action and the quantified variables of the effect. The body has
the static literals and the positive fluent literals of the precondition and of the
condition of the effect; all else is dropped.

* `RpgProgram.createProgram`, `RpgProgram.stratum` — the program and its workspace.
* `RpgProgram.hasCost_successor` — a step of the task costs at most one more.
* `RpgProgram.hasCost_run` — an atom that a run reaches has a derivation that costs at
  most the length of the run.
-/

namespace Tyr.Planning

open Tyr.Lib Tyr.Formalism Tyr.Formalism.Planning Tyr.Analysis

/-- The rule of a program. -/
def RelaxedRule.toRule (rule : RelaxedRule) : Formalism.Datalog.Rule where
  arity := rule.arity
  body := { staticLiterals := rule.staticLiterals, fluentLiterals := rule.fluentLiterals }
  head := rule.head
  cost := 1

namespace RpgProgram

section

variable (task : TypedTask) (literals : Canonicalization Literal)

/-- `translate_action_to_delete_free_rules` of an action. -/
def actionRules (action : Action) : List Formalism.Datalog.Rule :=
  action.effects.flatMap fun effect =>
    (effect.effect.literals.filter Literal.polarity).map fun literal =>
      (createCondEffectRule literals action effect literal.atom).toRule

def rules : List Formalism.Datalog.Rule := task.actions.flatMap (actionRules literals)

end

section

variable {task : TypedTask} {literals : Canonicalization Literal} {rule : Formalism.Datalog.Rule}

theorem mem_rules : rule ∈ rules task literals ↔ ∃ action ∈ task.actions,
    ∃ effect ∈ action.effects, ∃ literal ∈ effect.effect.literals, literal.polarity = true ∧
      (createCondEffectRule literals action effect literal.atom).toRule = rule := by
  simp [rules, actionRules, and_assoc]

theorem heads_closed (task : TypedTask) (literals : Canonicalization Literal) :
    ∀ rule ∈ rules task literals, ∀ index, .parameter index ∈ rule.head.terms →
      index < rule.arity := by
  intro rule mem index occurs
  obtain ⟨action, memAction, effect, memEffect, literal, memLiteral, _, rfl⟩ := mem_rules.mp mem
  exact task.effects_closed action memAction effect memEffect literal memLiteral index occurs

/-- A literal of the body of a rule is one of the precondition or of the condition of
the effect. -/
theorem mem_body {action : Action} {effect : ConditionalEffect} {head : Atom} {literal : Literal} :
    (literal ∈ (createCondEffectRule literals action effect head).toRule.body.staticLiterals ↔
      literal ∈ action.condition.staticLiterals ∨ literal ∈ effect.condition.staticLiterals) ∧
    (literal ∈ (createCondEffectRule literals action effect head).toRule.body.fluentLiterals ↔
      (literal ∈ action.condition.fluentLiterals ∨ literal ∈ effect.condition.fluentLiterals) ∧
        literal.polarity = true) := by
  simp [RelaxedRule.toRule, createCondEffectRule, literals.mem_canonicalize, or_and_right]

/-- The literals of a rule are well typed. -/
theorem literal_typed (mem : rule ∈ rules task literals) (kind : Formalism.Datalog.FactKind)
    {literal : Literal} (memLiteral : literal ∈ rule.body.literals kind) :
    literal.atom.terms.length = task.arity (predicateSymbol kind literal.atom.predicate) ∧
      ∀ index, .parameter index ∈ literal.atom.terms → index < rule.arity := by
  obtain ⟨action, memAction, effect, memEffect, added, _, _, rfl⟩ := mem_rules.mp mem
  have precondition := task.preconditions_typed action memAction
  have condition := task.conditions_typed action memAction effect memEffect
  cases kind with
  | static =>
      rcases mem_body.1.mp memLiteral with inPrecondition | inCondition
      · obtain ⟨length, closed⟩ := precondition.static literal inPrecondition
        exact ⟨length, fun index occurs => (closed index occurs).trans_le (Nat.le_add_right _ _)⟩
      · exact condition.static literal inCondition
  | fluent =>
      rcases (mem_body.2.mp memLiteral).1 with inPrecondition | inCondition
      · obtain ⟨length, closed⟩ := precondition.fluent literal inPrecondition
        exact ⟨length, fun index occurs => (closed index occurs).trans_le (Nat.le_add_right _ _)⟩
      · exact condition.fluent literal inCondition

end

section

variable (task : TypedTask) (literals : Canonicalization Literal)

/-- `create_program`. Equal rules are all kept: that the source removes the repetitions
(`canonicalize`) is left out. -/
def createProgram : Formalism.Datalog.Program where
  objects := task.objects
  arity := task.arity
  staticAtoms := task.staticAtoms
  fluentAtoms := task.fluentAtoms
  staticFtermValues := task.staticFtermValues
  fluentFtermValues := task.fluentFtermValues
  rules := rules task literals
  heads_closed := heads_closed task literals

/-- `compute_variable_domains` of the program. -/
def domains : ProgramVariableDomains := .compute (createProgram task literals)

def predicateDomains (kind : Formalism.Datalog.FactKind) (predicate : Nat) : List (List Nat) :=
  (domains task literals).symbolDomains (predicateSymbol kind predicate)

theorem length_predicateDomains (kind : Formalism.Datalog.FactKind) (predicate : Nat) :
    (predicateDomains task literals kind predicate).length =
      task.arity (predicateSymbol kind predicate) := by
  simp [predicateDomains, domains, ProgramVariableDomains.compute, toVariableDomainList,
    createProgram]

end

/-- The domains of the predicates cover the domains of the parameters. -/
theorem covered {task : TypedTask} {literals : Canonicalization Literal}
    {rule : Formalism.Datalog.Rule} (mem : rule ∈ rules task literals)
    (kind : Formalism.Datalog.FactKind) {literal : Literal}
    (memLiteral : literal ∈ rule.body.literals kind) {position : Nat} {term : Term}
    (found : literal.atom.terms[position]? = some term) {object : Nat}
    (inTerm : object ∈ Datalog.termDomain ((domains task literals).ruleDomains rule) term) :
    object ∈ (predicateDomains task literals kind literal.atom.predicate).getD position [] := by
  obtain ⟨length, closed⟩ := literal_typed mem kind memLiteral
  exact literal_covered mem kind memLiteral length closed found inTerm

section

variable (task : TypedTask) (literals : Canonicalization Literal)

/-- The workspace of a rule of the program. -/
def ruleWorkspace (rule : {rule // rule ∈ rules task literals}) : Datalog.ConstRuleWorkspace where
  rule := rule.1
  parameterDomains := (domains task literals).ruleDomains rule.1
  predicateDomains := predicateDomains task literals
  closed := fun kind _ mem => (literal_typed rule.2 kind mem).2
  full := fun kind _ mem =>
    (literal_typed rule.2 kind mem).1.trans (length_predicateDomains task literals kind _).symm
  covered := fun kind _ mem _ _ found _ inTerm => covered rule.2 kind mem found inTerm

/-- The only stratum of the program, with equal rules repeated. -/
def stratum : Datalog.Stratum := (rules task literals).attach.map (ruleWorkspace task literals)

/-- The static facts and the initial values. -/
def data : Datalog.ProgramData where
  staticFacts := task.staticAtoms
  function := (createProgram task literals).value

end

/-! ### The rules -/

section

variable {task : TypedTask} {literals : Canonicalization Literal}
  {semantics : TaskSemantics task.toLiftedTask} {state : LiftedState} {facts : List Tuple}

theorem mem_stratum {cws : Datalog.ConstRuleWorkspace} (mem : cws ∈ stratum task literals) :
    ∃ rule : {rule // rule ∈ rules task literals}, ruleWorkspace task literals rule = cws := by
  obtain ⟨rule, _, same⟩ := List.mem_map.mp mem
  exact ⟨rule, same⟩

/-- The atoms of a reachable state are well typed. -/
theorem reachable_typed (reachable : semantics.Reachable state) : ∀ atom ∈ state.fluentAtoms,
    atom.objects.length = task.arity (.fluentPredicate atom.relation) := by
  induction reachable with
  | initial => exact task.fluentAtoms_typed
  | @successor state action binding _ applicable ih =>
      intro atom mem
      rcases TaskSemantics.mem_successor mem with changes | before
      · obtain ⟨effect, memEffect, objects, _, literal, memLiteral, _, rfl⟩ := changes
        simpa [Atom.ground] using
          task.effects_typed action applicable.known effect memEffect literal memLiteral
      · exact ih atom before

/-- The stratum is positive. -/
theorem positiveStratum (literals : Canonicalization Literal) (typed : ∀ atom ∈ facts,
      atom.objects.length = task.arity (.fluentPredicate atom.relation)) :
    Datalog.PositiveStratum (data task literals) (stratum task literals) facts where
  noConstraints := by
    intro cws mem
    obtain ⟨⟨rule, isRule⟩, rfl⟩ := mem_stratum mem
    obtain ⟨_, _, _, _, _, _, _, rfl⟩ := mem_rules.mp isRule
    rfl
  positive := by
    intro cws mem literal memLiteral
    obtain ⟨⟨rule, isRule⟩, rfl⟩ := mem_stratum mem
    obtain ⟨_, _, _, _, _, _, _, rfl⟩ := mem_rules.mp isRule
    exact (mem_body.2.mp memLiteral).2
  typed := by
    intro cws mem fluent model kind fact memFact
    obtain ⟨rule, rfl⟩ := mem_stratum mem
    change _ = (predicateDomains task literals kind fact.relation).length
    rw [length_predicateDomains]
    cases kind with
    | static => exact task.staticAtoms_typed fact memFact
    | fluent =>
        cases model fact memFact with
        | base isBase => exact typed fact isBase
        | rule mem' _ _ =>
            obtain ⟨⟨rule, isRule⟩, rfl⟩ := mem_stratum mem'
            obtain ⟨action, memAction, effect, memEffect, literal, memLiteral, _, rfl⟩ :=
              mem_rules.mp isRule
            simpa [Datalog.groundHead, Atom.ground, ruleWorkspace, RelaxedRule.toRule,
              createCondEffectRule, predicateSymbol] using
              task.effects_typed action memAction effect memEffect literal memLiteral

/-! ### Steps of the task -/

/-- An effect that fires is an instance of its rule. -/
theorem admits_of_fires (literals : Canonicalization Literal) (base : Tuple → Prop) {action : Action} {binding : List Nat}
    (applicable : semantics.Applicable state action binding) {effect : ConditionalEffect}
    (memEffect : effect ∈ action.effects) {objects : List Nat}
    (fires : semantics.Fires state binding effect objects) {literal : Literal}
    (memLiteral : literal ∈ effect.effect.literals) (added : literal.polarity = true) :
    ∃ cws ∈ stratum task literals,
      cws.rule = (createCondEffectRule literals action effect literal.atom).toRule ∧
        Datalog.Admits (data task literals) cws base (binding ++ objects) ∧
        ∀ fact ∈ Datalog.witnessFacts cws.rule (binding ++ objects), fact ∈ state.fluentAtoms := by
  have isRule : (createCondEffectRule literals action effect literal.atom).toRule ∈
      rules task literals :=
    mem_rules.mpr ⟨action, applicable.known, effect, memEffect, literal, memLiteral, added, rfl⟩
  have length : (binding ++ objects).length = action.arity + effect.arity := by
    rw [List.length_append, applicable.isBinding.length, fires.isBinding.length]
  -- The precondition mentions the parameters of the action only.
  have ofAction : ∀ {condition : Literal}, (∀ index, .parameter index ∈ condition.atom.terms →
      index < action.arity) → ∀ {atoms : Set Tuple}, condition.HoldsIn atoms binding →
        condition.HoldsIn atoms (binding ++ objects) := by
    intro condition closed atoms holds
    have same : condition.atom.ground (binding ++ objects) = condition.atom.ground binding := by
      rw [Atom.ground, Atom.ground, TaskDomains.map_ground_append objects]
      intro index occurs
      rw [applicable.isBinding.length]
      exact closed index occurs
    rwa [Literal.HoldsIn, same]
  have precondition := task.preconditions_typed action applicable.known
  have static : ∀ condition ∈
      (createCondEffectRule literals action effect literal.atom).toRule.body.staticLiterals,
      condition.HoldsIn {atom | atom ∈ task.staticAtoms} (binding ++ objects) := by
    intro condition mem
    rcases mem_body.1.mp mem with inPrecondition | inCondition
    · exact ofAction (precondition.static condition inPrecondition).2
        (applicable.condition.static condition inPrecondition)
    · exact fires.condition.static condition inCondition
  refine ⟨ruleWorkspace task literals ⟨_, isRule⟩, List.mem_map_of_mem (List.mem_attach _ _), rfl,
    ⟨⟨length, fun p inRange => ?_⟩, static, fun condition mem negative => ?_,
      List.forall_mem_nil _⟩, fun fact mem => ?_⟩
  · have admitted : Admitted (createProgram task literals)
        (createCondEffectRule literals action effect literal.atom).toRule (binding ++ objects) := by
      refine ⟨length, fun object mem => ?_, static, List.forall_mem_nil _⟩
      rcases List.mem_append.mp mem with inBinding | inObjects
      · exact applicable.isBinding.objects object inBinding
      · exact fires.isBinding.objects object inObjects
    refine mem_toVariableDomainList inRange (ProgramDomains.inDomains_rule admitted p _ ?_)
    have inBinding : p < (binding ++ objects).length := by
      rw [length]
      exact inRange
    rw [List.getD_eq_getElem _ _ inBinding]
    exact List.getElem?_eq_getElem inBinding
  · rw [(mem_body.2.mp mem).2] at negative
    cases negative
  · obtain ⟨condition, memBody, positive, rfl⟩ := Datalog.mem_witnessFacts.mp mem
    rcases (mem_body.2.mp memBody).1 with inPrecondition | inCondition
    · exact (ofAction (precondition.fluent condition inPrecondition).2
        (applicable.condition.fluent condition inPrecondition)).mpr positive
    · exact (fires.condition.fluent condition inCondition).mpr positive

/-- The atom has a derivation that costs at most `n`. -/
def DerivableWithin (task : TypedTask) (literals : Canonicalization Literal) (facts : List Tuple)
    (n : Nat) (atom : Tuple) : Prop :=
  ∃ c ≤ (n : Datalog.Cost), HasCost
    (Datalog.groundClauses (data task literals) .max (stratum task literals) (· ∈ facts)) atom c

theorem DerivableWithin.mono {n m : Nat} {atom : Tuple}
    (derivable : DerivableWithin task literals facts n atom) (le : n ≤ m) :
    DerivableWithin task literals facts m atom := by
  obtain ⟨c, below, derivation⟩ := derivable
  exact ⟨c, below.trans (WithTop.coe_le_coe.mpr le), derivation⟩

theorem derivableWithin_fact {fact : Tuple} (mem : fact ∈ facts) :
    DerivableWithin task literals facts 0 fact :=
  ⟨0, le_rfl, .derive (Datalog.factClause fact) (fun _ => 0) (.inl ⟨fact, mem, rfl⟩) nofun⟩

/-- A step costs at most one more. -/
theorem hasCost_successor {n : Nat}
    (before : ∀ atom ∈ state.fluentAtoms, DerivableWithin task literals facts n atom)
    {action : Action} {binding : List Nat}
    (applicable : semantics.Applicable state action binding) :
    ∀ atom ∈ (semantics.successor state action binding).fluentAtoms,
      DerivableWithin task literals facts (n + 1) atom := by
  intro atom mem
  rcases TaskSemantics.mem_successor mem with changes | kept
  · obtain ⟨effect, memEffect, objects, fires, literal, memLiteral, added, rfl⟩ := changes
    obtain ⟨cws, memRule, sameRule, admits, body⟩ :=
      admits_of_fires literals (· ∈ facts) applicable memEffect fires memLiteral added
    have derivable := fun fact memBody => before fact (body fact memBody)
    choose! costs le derivation using derivable
    have sameHead : Datalog.groundHead cws.rule (binding ++ objects) =
        literal.atom.ground (binding ++ objects) := by
      rw [sameRule]
      rfl
    rw [← sameHead]
    refine ⟨_, ?_, .derive (Datalog.ruleClause .max cws.rule (binding ++ objects)) costs
      (.inr ⟨cws, memRule, binding ++ objects, admits, rfl⟩) derivation⟩
    have bodyCost : Datalog.Aggregation.max.applyAll
        ((Datalog.witnessFacts cws.rule (binding ++ objects)).map costs) 0 ≤ (n : Datalog.Cost) := by
      refine Datalog.Aggregation.applyAll_max_le zero_le fun cost memCost => ?_
      obtain ⟨fact, memBody, rfl⟩ := List.mem_map.mp memCost
      exact le fact memBody
    have ruleCost : cws.rule.cost = 1 := by rw [sameRule]; rfl
    change _ + (cws.rule.cost : Datalog.Cost) ≤ _
    rw [ruleCost]
    exact add_le_add_left bodyCost 1
  · exact (before atom kept).mono (Nat.le_succ n)

/-- What a run reaches has a derivation that costs at most its length. -/
theorem hasCost_run {last : LiftedState} {steps : List (Action × List Nat)}
    (run : semantics.Run state steps last) {n : Nat}
    (before : ∀ atom ∈ state.fluentAtoms, DerivableWithin task literals facts n atom) :
    ∀ atom ∈ last.fluentAtoms, DerivableWithin task literals facts (n + steps.length) atom := by
  induction run generalizing n with
  | nil => exact before
  | cons applicable _ ih =>
      intro atom mem
      have after := ih (hasCost_successor before applicable) atom mem
      rwa [List.length_cons, Nat.add_comm (List.length _), ← Nat.add_assoc]

end

end RpgProgram

end Tyr.Planning
