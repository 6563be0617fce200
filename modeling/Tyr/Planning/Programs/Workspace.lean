import Tyr.Analysis.Stratification
import Tyr.Analysis.VariableDomainsSound
import Tyr.Datalog.KpkcEvaluation
import Tyr.Datalog.StableModel

/-!
The workspace of a program.

The domains of the parameters and of the predicates are computed from the program, and
its rules are put into strata. Between runs only the facts and the values change.

* `TypedProgram.ruleWorkspace` — the workspace of a rule.
* `TypedProgram.computeStrata` — the strata.
* `TypedProgram.admitsStatically_iff` — the bindings whose static part holds.
* `TypedProgram.stable_of_residual` — what a run computes.
-/

namespace Tyr.Planning

open Tyr.Lib Tyr.Formalism Tyr.Analysis Tyr.Analysis.Stratification

/-- The symbol of a predicate of a program. -/
def predicateSymbol : Formalism.Datalog.FactKind → Nat → Symbol
  | .static => .staticPredicate
  | .fluent => .fluentPredicate

/-! ### Domains -/

section

variable {program : Formalism.Datalog.Program} {rule : Formalism.Datalog.Rule} {binding : List Nat}

/-- The domains of the predicates cover the domains of the parameters. -/
theorem literal_covered (mem : rule ∈ program.rules) (kind : Formalism.Datalog.FactKind)
    {literal : Literal} (memLiteral : literal ∈ rule.body.literals kind)
    (typed : literal.atom.terms.length = program.arity (predicateSymbol kind literal.atom.predicate))
    (closed : ∀ index, .parameter index ∈ literal.atom.terms → index < rule.arity)
    {position : Nat} {term : Term} (found : literal.atom.terms[position]? = some term) {object : Nat}
    (inTerm : object ∈
      Datalog.termDomain ((ProgramVariableDomains.compute program).ruleDomains rule) term) :
    object ∈ ((ProgramVariableDomains.compute program).symbolDomains
      (predicateSymbol kind literal.atom.predicate)).getD position [] := by
  have inRange : position < program.arity (predicateSymbol kind literal.atom.predicate) := by
    rw [← typed]
    exact (List.getElem?_eq_some_iff.mp found).1
  refine mem_toVariableDomainList inRange ?_
  have inObjects : object ∈ termObjects (ProgramDomains.ruleDomains program rule) term := by
    cases term with
    | object => exact Finset.mem_singleton.mpr (List.mem_singleton.mp inTerm)
    | parameter index =>
        have below := closed index (List.mem_of_getElem? found)
        have listed : object ∈ (toVariableDomainList rule.arity
            (ProgramDomains.ruleDomains program rule)).getD index [] := inTerm
        rw [toVariableDomainList, List.getD_eq_getElem?_getD, List.getElem?_map,
          List.getElem?_range below, Option.map_some, Option.getD_some] at listed
        exact (Finset.mem_sort _).mp listed
  have visited : literal.occurrence (predicateSymbol kind) ∈ programLiterals rule.body .static ++
      programLiterals rule.body .fluent ++ programConstraints rule.body ++
        [rule.head.occurrence .fluentPredicate] := by
    apply List.mem_append_left
    apply List.mem_append_left
    cases kind with
    | static => exact List.mem_append_left _ (List.mem_map_of_mem memLiteral)
    | fluent => exact List.mem_append_right _ (List.mem_map_of_mem memLiteral)
  have lifted : isStaticFunction (literal.occurrence (predicateSymbol kind)).symbol = false := by
    cases kind <;> rfl
  unfold ProgramDomains.liftedSets
  refine foldl_establishes (P := fun _ => True) (fun sets : DomainSets =>
      object ∈ sets (predicateSymbol kind literal.atom.predicate) position)
    (fun _ _ _ _ => trivial) ?_ mem ?_ trivial
  · intro state _ other _ before
    exact ProgramDomains.le_liftRule _ _ before
  · intro state _
    exact mem_foldl_lift visited found inObjects lifted

/-- Domains are restricted by what is static only: by the positive static literals and the
static function terms. -/
theorem inDomains_of_static (objects : ∀ object ∈ binding, object ∈ program.objects)
    (static : ∀ literal ∈ rule.body.staticLiterals,
      literal.HoldsIn {atom | atom ∈ program.staticAtoms} binding)
    (defined : ∀ constraint ∈ rule.body.numericConstraints,
      ∀ fterm ∈ constraint.lhs.fterms ++ constraint.rhs.fterms, fterm.kind = .static →
        program.value .static ⟨fterm.function, fterm.terms.map (Term.ground binding)⟩ ≠ .nan) :
    InDomains (ProgramDomains.ruleDomains program rule) binding := by
  apply inDomains_foldl_restrict
  · intro index object found
    exact List.mem_toFinset.mpr (objects object (List.mem_of_getElem? found))
  · intro occurrence mem positive restricts
    rcases List.mem_append.mp mem with isLiteral | isFterm
    · obtain ⟨literal, memLiteral, rfl⟩ := List.mem_map.mp isLiteral
      exact ProgramDomains.staticAtom_covered ((static literal memLiteral).mpr positive)
    · obtain ⟨constraint, memConstraint, isFterm⟩ := List.mem_flatMap.mp isFterm
      obtain ⟨fterm, memFterm, rfl⟩ := List.mem_map.mp isFterm
      have isDefined := defined constraint memConstraint fterm memFterm
      obtain ⟨kind, function, terms⟩ := fterm
      cases kind with
      | static => exact ProgramDomains.staticFterm_covered (isDefined rfl)
      | fluent => cases restricts

theorem restrict_subset {sets : DomainSets} {domains : ParameterDomains} {occurrence : Occurrence}
    {index : Nat} : restrict sets domains occurrence index ⊆ domains index := by
  unfold restrict
  split
  · exact Finset.Subset.refl _
  · apply foldl_invariant (P := fun after : ParameterDomains => after index ⊆ domains index)
    · rintro after subset ⟨term, position⟩ _
      cases term with
      | object => exact subset
      | parameter other =>
          by_cases same : index = other
          · subst same
            simp only [Function.update_self]
            exact Finset.inter_subset_left.trans subset
          · simp only [Function.update_of_ne same]
            exact subset
    · exact Finset.Subset.refl _

theorem ruleDomains_subset {index : Nat} :
    ProgramDomains.ruleDomains program rule index ⊆ program.objects.toFinset := by
  apply foldl_invariant (P := fun after : ParameterDomains => after index ⊆ program.objects.toFinset)
  · intro after subset occurrence _
    exact restrict_subset.trans subset
  · exact Finset.Subset.refl _

end

/-! ### Programs -/

/-- The literals of the rules have one term for each position of their predicate and
mention the parameters of their rule only. -/
structure TypedProgram extends PredicateProgram where
  literals_typed : ∀ rule ∈ program.rules, ∀ kind, ∀ literal ∈ rule.body.literals kind,
    literal.atom.terms.length = program.arity (predicateSymbol kind literal.atom.predicate) ∧
      ∀ index, .parameter index ∈ literal.atom.terms → index < rule.arity

namespace TypedProgram

section

variable (typed : TypedProgram)

/-- `compute_variable_domains` of the program. -/
def domains : ProgramVariableDomains := .compute typed.program

def predicateDomains (kind : Formalism.Datalog.FactKind) (predicate : Nat) : List (List Nat) :=
  typed.domains.symbolDomains (predicateSymbol kind predicate)

theorem length_predicateDomains (kind : Formalism.Datalog.FactKind) (predicate : Nat) :
    (typed.predicateDomains kind predicate).length =
      typed.program.arity (predicateSymbol kind predicate) := by
  simp [predicateDomains, domains, ProgramVariableDomains.compute, toVariableDomainList]

/-- A rule of the program. -/
abbrev ProgramRule := {rule // rule ∈ typed.program.rules}

/-- The workspace of a rule of the program. -/
def ruleWorkspace (rule : typed.ProgramRule) : Datalog.ConstRuleWorkspace where
  rule := rule.1
  parameterDomains := typed.domains.ruleDomains rule.1
  predicateDomains := typed.predicateDomains
  closed := fun kind literal mem => (typed.literals_typed rule.1 rule.2 kind literal mem).2
  full := fun kind literal mem => (typed.literals_typed rule.1 rule.2 kind literal mem).1.trans
    (typed.length_predicateDomains kind _).symm
  covered := fun kind literal mem _ _ found _ inTerm =>
    literal_covered rule.2 kind mem (typed.literals_typed rule.1 rule.2 kind literal mem).1
      (typed.literals_typed rule.1 rule.2 kind literal mem).2 found inTerm

def ruleDependencies : Dependencies typed.ProgramRule where
  numVertices := typed.numFluentPredicates
  head rule := rule.1.head.predicate
  body rule := rule.1.body.fluentLiterals.map fun literal => (literal.atom.predicate, literal.polarity)

theorem ruleDependencies_closed : typed.ruleDependencies.Closed typed.program.rules.attach := by
  intro rule _
  refine ⟨typed.head_lt rule.1 rule.2, fun literal memLiteral => ?_⟩
  obtain ⟨origin, memOrigin, rfl⟩ := List.mem_map.mp memLiteral
  exact typed.body_lt rule.1 rule.2 origin memOrigin

/-- `compute_rule_stratification` of the program. -/
def computeStrata (library : GraphLibrary) : Except String (List (List typed.ProgramRule)) :=
  computeStratification library typed.ruleDependencies typed.program.rules.attach

/-- The workspaces of the rules of the strata. -/
def workspaces (strata : List (List typed.ProgramRule)) : List Datalog.Stratum :=
  strata.map fun stratum => stratum.map typed.ruleWorkspace

end

/-! ### Bindings -/

section

variable {typed : TypedProgram} {rule : typed.ProgramRule} {binding : List Nat}
  {data : Datalog.ProgramData}

theorem mem_objects_of_inDomains (inDomains : (typed.ruleWorkspace rule).InDomains binding) :
    ∀ object ∈ binding, object ∈ typed.program.objects := by
  intro object mem
  obtain ⟨p, inRange, rfl⟩ := List.getElem_of_mem mem
  have length : binding.length = rule.1.arity := inDomains.1
  have below : p < rule.1.arity := length ▸ inRange
  have inDomain : binding.getD p 0 ∈ (toVariableDomainList rule.1.arity
      (ProgramDomains.ruleDomains typed.program rule.1)).getD p [] := inDomains.2 p below
  rw [List.getD_eq_getElem _ _ inRange, toVariableDomainList, List.getD_eq_getElem?_getD,
    List.getElem?_map, List.getElem?_range below, Option.map_some, Option.getD_some] at inDomain
  exact List.mem_toFinset.mp (ruleDomains_subset ((Finset.mem_sort _).mp inDomain))

/-- Constraints with undefined static function terms do not hold. -/
def StrictOnStatic (data : Datalog.ProgramData) (rule : Formalism.Datalog.Rule) : Prop :=
  ∀ binding, ∀ constraint ∈ rule.body.numericConstraints,
    (data.factSets []).isValidConstraint binding constraint = true →
      ∀ fterm ∈ constraint.lhs.fterms ++ constraint.rhs.fterms, fterm.kind = .static →
        data.function .static ⟨fterm.function, fterm.terms.map (Term.ground binding)⟩ ≠ .nan

/-- What a rule asks of a binding apart from its fluent literals. -/
theorem admitsStatically_iff (sameAtoms : data.staticFacts = typed.program.staticAtoms)
    (sameValues : data.function .static = typed.program.value .static)
    (strict : StrictOnStatic data rule.1) :
    Datalog.AdmitsStatically data (typed.ruleWorkspace rule) binding ↔
      (binding.length = rule.1.arity ∧ ∀ object ∈ binding, object ∈ typed.program.objects) ∧
      (∀ literal ∈ rule.1.body.staticLiterals,
        literal.HoldsIn {atom | atom ∈ typed.program.staticAtoms} binding) ∧
      ∀ constraint ∈ rule.1.body.numericConstraints,
        (data.factSets []).isValidConstraint binding constraint = true := by
  constructor
  · intro admits
    refine ⟨⟨admits.inDomains.1, mem_objects_of_inDomains admits.inDomains⟩, ?_, admits.constraint⟩
    intro literal mem
    rw [← sameAtoms]
    exact admits.static literal mem
  · rintro ⟨⟨length, objects⟩, static, constraint⟩
    refine ⟨⟨length, fun p inRange => ?_⟩, fun literal mem => ?_, constraint⟩
    · have inBinding : p < binding.length := length.symm ▸ inRange
      refine mem_toVariableDomainList inRange (inDomains_of_static objects static ?_ p _ ?_)
      · intro numeric memNumeric fterm memFterm isStatic
        rw [← sameValues]
        exact strict binding numeric memNumeric (constraint numeric memNumeric) fterm memFterm isStatic
      · rw [List.getD_eq_getElem _ _ inBinding]
        exact List.getElem?_eq_getElem inBinding
    · rw [sameAtoms]
      exact static literal mem

end

/-! ### Strata -/

section

variable {typed : TypedProgram} {strata : List (List typed.ProgramRule)} {stratum : Nat → Nat}

theorem mem_stratum_iff
    (stratified : IsStratification typed.ruleDependencies typed.program.rules.attach strata stratum)
    {i : Nat} {rules : List typed.ProgramRule} (isStratum : strata[i]? = some rules)
    {rule : typed.ProgramRule} : rule ∈ rules ↔ stratum rule.1.head.predicate = i := by
  obtain ⟨inRange, _⟩ := List.getElem?_eq_some_iff.mp isStratum
  obtain rfl := Option.some.inj (isStratum.symm.trans (stratified.listed i inRange))
  rw [List.mem_filter, decide_eq_true_iff]
  exact and_iff_right (List.mem_attach _ rule)

theorem mem_workspaces {cws : Datalog.ConstRuleWorkspace} {i : Nat} {workspaces : Datalog.Stratum}
    (isStratum : (typed.workspaces strata)[i]? = some workspaces) (mem : cws ∈ workspaces) :
    ∃ rules, strata[i]? = some rules ∧ ∃ rule ∈ rules, typed.ruleWorkspace rule = cws := by
  rw [TypedProgram.workspaces, List.getElem?_map] at isStratum
  obtain ⟨rules, isRules, rfl⟩ := Option.map_eq_some_iff.mp isStratum
  obtain ⟨rule, memRule, same⟩ := List.mem_map.mp mem
  exact ⟨rules, isRules, rule, memRule, same⟩

/-- The strata of the rules are strata of their workspaces. -/
theorem stratified_workspaces
    (stratified : IsStratification typed.ruleDependencies typed.program.rules.attach strata stratum) :
    Datalog.Stratified (typed.workspaces strata) where
  negationFree := by
    intro workspaces memStratum cws mem cws' mem' literal memLiteral negative same
    obtain ⟨i, isStratum⟩ := List.mem_iff_getElem?.mp memStratum
    obtain ⟨rules, isRules, rule, memRule, rfl⟩ := mem_workspaces isStratum mem
    obtain ⟨rules', isRules', rule', memRule', rfl⟩ := mem_workspaces isStratum mem'
    obtain rfl := Option.some.inj (isRules.symm.trans isRules')
    have level := (mem_stratum_iff stratified isRules).mp memRule
    have level' := (mem_stratum_iff stratified isRules).mp memRule'
    have inBody : (literal.atom.predicate, false) ∈ typed.ruleDependencies.body rule := by
      rw [← negative]
      exact List.mem_map_of_mem memLiteral
    have lower := stratified.negative rule (List.mem_attach _ _) _ inBody
    change stratum literal.atom.predicate < stratum rule.1.head.predicate at lower
    change literal.atom.predicate = rule'.1.head.predicate at same
    rw [same, level, level'] at lower
    exact lt_irrefl i lower
  ordered := by
    refine List.pairwise_iff_getElem.mpr fun i j ltI ltJ lt cws mem cws' mem' => ?_
    obtain ⟨rules, isRules, rule, memRule, rfl⟩ := mem_workspaces (List.getElem?_eq_getElem ltI) mem
    obtain ⟨rules', isRules', rule', memRule', rfl⟩ :=
      mem_workspaces (List.getElem?_eq_getElem ltJ) mem'
    have level := (mem_stratum_iff stratified isRules).mp memRule
    have level' := (mem_stratum_iff stratified isRules').mp memRule'
    constructor
    · intro literal memLiteral same
      change literal.atom.predicate = rule'.1.head.predicate at same
      have notLater : stratum literal.atom.predicate ≤ stratum rule.1.head.predicate := by
        have inBody : (literal.atom.predicate, literal.polarity) ∈ typed.ruleDependencies.body rule :=
          List.mem_map_of_mem memLiteral
        cases isPositive : literal.polarity with
        | true =>
            rw [isPositive] at inBody
            exact stratified.positive rule (List.mem_attach _ _) _ inBody
        | false =>
            rw [isPositive] at inBody
            exact (stratified.negative rule (List.mem_attach _ _) _ inBody).le
      rw [same, level, level'] at notLater
      exact absurd lt notLater.not_gt
    · intro same
      change rule.1.head.predicate = rule'.1.head.predicate at same
      rw [same, level'] at level
      exact lt.ne' level

/-- Every rule is in some stratum. -/
theorem mem_programClauses
    (stratified : IsStratification typed.ruleDependencies typed.program.rules.attach strata stratum)
    {data : Datalog.ProgramData} {facts : List Tuple} {clause : Clause Tuple} :
    clause ∈ Datalog.programClauses data (typed.workspaces strata) facts ↔
      (∃ fact ∈ facts, clause = ⟨fact, [], []⟩) ∨ ∃ (rule : typed.ProgramRule) (binding : List Nat),
        Datalog.AdmitsStatically data (typed.ruleWorkspace rule) binding ∧
          clause = Datalog.groundClause rule.1 binding := by
  apply or_congr Iff.rfl
  constructor
  · rintro ⟨workspaces, memStratum, cws, mem, binding, admits, rfl⟩
    obtain ⟨i, isStratum⟩ := List.mem_iff_getElem?.mp memStratum
    obtain ⟨_, _, rule, _, rfl⟩ := mem_workspaces isStratum mem
    exact ⟨rule, binding, admits, rfl⟩
  · rintro ⟨rule, binding, admits, rfl⟩
    obtain ⟨rules, memStratum, memRule⟩ :=
      List.mem_flatten.mp (stratified.once.mem_iff.mpr (List.mem_attach _ rule))
    exact ⟨_, List.mem_map_of_mem memStratum, _, List.mem_map_of_mem memRule, binding, admits, rfl⟩

theorem isStratification_of_ok {library : GraphLibrary}
    (correct : library.CorrectOn (typed.ruleDependencies.graph typed.program.rules.attach))
    (computed : typed.computeStrata library = .ok strata) :
    ∃ stratum, IsStratification typed.ruleDependencies typed.program.rules.attach strata stratum := by
  have isCorrect := computeStratification_correct typed.ruleDependencies_closed correct
  rw [show computeStratification library typed.ruleDependencies typed.program.rules.attach = _
    from computed] at isCorrect
  cases isCorrect with
  | ok _ _ isStratification => exact isStratification

/-- What is left of the clauses of a run when its facts are evaluated has the facts of the
run, as far as they can be read, for its only stable model. -/
theorem stable_of_residual {library : GraphLibrary}
    (correct : library.CorrectOn (typed.ruleDependencies.graph typed.program.rules.attach))
    (computed : typed.computeStrata library = .ok strata) {data : Datalog.ProgramData}
    {policy : Datalog.AnnotationPolicy} {enumeration : Datalog.CliqueEnumeration data}
    {facts : List Tuple} {final : Datalog.SolveState}
    (solves : Datalog.SolvesStrata data policy enumeration (typed.workspaces strata)
      (Datalog.SolveState.initial facts) final)
    (extensional : ∀ fact ∈ facts, ∀ rule ∈ typed.program.rules, rule.head.predicate ≠ fact.relation)
    {α : Type*} {read : Tuple → Option α} {others : Set (Clause α)}
    (residual : IsResidual (Datalog.programClauses data (typed.workspaces strata) facts)
      {fact | fact ∈ facts} read others) (model : Set α) :
    IsStable others model ↔ model = {atom | ∃ fact ∈ final.facts, read fact = some atom} := by
  obtain ⟨stratum, isStratification⟩ := isStratification_of_ok correct computed
  have stratified := stratified_workspaces isStratification
  have isExtensional : Datalog.Extensional (typed.workspaces strata) facts := by
    intro fact mem workspaces memStratum cws memRule
    obtain ⟨i, isStratum⟩ := List.mem_iff_getElem?.mp memStratum
    obtain ⟨_, _, rule, _, rfl⟩ := mem_workspaces isStratum memRule
    exact extensional fact mem rule.1 rule.2
  exact residual.isStable_iff (Datalog.leveled_programClauses stratified)
    ((solves.stable stratified isExtensional _).mpr rfl) model

/-- What an evaluation relies on: the rules are matched exactly, and the facts and the heads
have the arities of their predicates. -/
structure Matched (typed : TypedProgram) (numeric : Datalog.NumericOverapproximation)
    (data : Datalog.ProgramData) (facts : List Tuple) : Prop where
  exact : ∀ rule : typed.ProgramRule, (typed.ruleWorkspace rule).ExactTests numeric data
  heads : ∀ rule ∈ typed.program.rules,
    rule.head.terms.length = typed.program.arity (.fluentPredicate rule.head.predicate)
  static : ∀ fact ∈ data.staticFacts,
    fact.objects.length = typed.program.arity (.staticPredicate fact.relation)
  fluent : ∀ fact ∈ facts,
    fact.objects.length = typed.program.arity (.fluentPredicate fact.relation)

/-- Rules of one parameter without constraints are matched exactly. -/
theorem exactTests_of_arity_le_one {numeric : Datalog.NumericOverapproximation}
    {data : Datalog.ProgramData} {rule : typed.ProgramRule} (small : rule.1.arity ≤ 1)
    (noConstraints : rule.1.body.numericConstraints = []) :
    (typed.ruleWorkspace rule).ExactTests numeric data := by
  apply Datalog.ConstRuleWorkspace.exactTests_of_noConstraints noConstraints
  intro kind literal _ weak
  have parameters : 2 ≤ rule.1.arity := weak.1
  omega

theorem exists_rule {workspaces : Datalog.Stratum} (memStratum : workspaces ∈ typed.workspaces strata)
    {cws : Datalog.ConstRuleWorkspace} (mem : cws ∈ workspaces) :
    ∃ rule, typed.ruleWorkspace rule = cws := by
  obtain ⟨i, isStratum⟩ := List.mem_iff_getElem?.mp memStratum
  obtain ⟨_, _, rule, _, same⟩ := mem_workspaces isStratum mem
  exact ⟨rule, same⟩

/-- What the rules derive from facts of the arities of their predicates has them, too. -/
theorem typedStrata {data : Datalog.ProgramData} {facts : List Tuple}
    (heads : ∀ rule ∈ typed.program.rules,
      rule.head.terms.length = typed.program.arity (.fluentPredicate rule.head.predicate))
    (static : ∀ fact ∈ data.staticFacts,
      fact.objects.length = typed.program.arity (.staticPredicate fact.relation))
    (fluent : ∀ fact ∈ facts,
      fact.objects.length = typed.program.arity (.fluentPredicate fact.relation)) :
    Datalog.TypedStrata data (typed.workspaces strata) facts := by
  intro workspaces memStratum cws mem known isKnown kind fact memFact
  obtain ⟨rule, rfl⟩ := exists_rule memStratum mem
  rw [show (typed.ruleWorkspace rule).predicateDomains = typed.predicateDomains from rfl,
    length_predicateDomains]
  cases kind with
  | static => exact static fact memFact
  | fluent =>
      rcases isKnown fact memFact with given | ⟨other, memOther, head, memHead, binding, rfl⟩
      · exact fluent fact given
      · obtain ⟨origin, rfl⟩ := exists_rule memOther memHead
        have length : (Datalog.groundHead origin.1 binding).objects.length =
            origin.1.head.terms.length := List.length_map _
        exact length.trans (heads origin.1 origin.2)

theorem Matched.matchedStrata {numeric : Datalog.NumericOverapproximation} {data : Datalog.ProgramData}
    {facts : List Tuple} (matched : typed.Matched numeric data facts) :
    Datalog.MatchedStrata data numeric (typed.workspaces strata) facts := by
  refine ⟨?_, ?_, typedStrata matched.heads matched.static matched.fluent⟩
  · intro workspaces memStratum cws mem domain memDomain
    obtain ⟨rule, rfl⟩ := exists_rule memStratum mem
    obtain ⟨index, _, rfl⟩ := List.mem_map.mp memDomain
    exact Finset.sort_nodup _ _
  · intro workspaces memStratum cws mem
    obtain ⟨rule, rfl⟩ := exists_rule memStratum mem
    exact matched.exact rule

/-- Without a cycle through a negative literal there are strata. -/
theorem exists_strata {library : GraphLibrary}
    (correct : library.CorrectOn (typed.ruleDependencies.graph typed.program.rules.attach))
    (noCycle : ¬ (typed.ruleDependencies.graph typed.program.rules.attach).NegativeCycle) :
    ∃ strata, typed.computeStrata library = .ok strata := by
  have isCorrect := computeStratification_correct typed.ruleDependencies_closed correct
  cases computed : typed.computeStrata library with
  | ok strata => exact ⟨strata, rfl⟩
  | error message =>
      rw [show computeStratification library typed.ruleDependencies typed.program.rules.attach = _
        from computed] at isCorrect
      cases isCorrect with
      | error _ cycle => exact absurd cycle noCycle

end

end TypedProgram

/-! ### Ascending graphs -/

/-- On a graph whose edges lead to larger numbers the vertices are the components and the
numbers are in order. -/
def ascendingLibrary : GraphLibrary where
  strongComponents g := (id, g.numVertices)
  topologicalSort g := (List.range g.numVertices).reverse

section

variable {g : DepGraph}

theorem le_of_reaches (ascends : ∀ edge ∈ g.edges, edge.source < edge.target) {u v : Nat}
    (reaches : g.Reaches u v) : u ≤ v := by
  induction reaches with
  | refl => exact Nat.le_refl _
  | tail _ step ih =>
      obtain ⟨edge, mem, rfl, rfl⟩ := step
      exact Nat.le_trans ih (Nat.le_of_lt (ascends edge mem))

theorem not_negativeCycle_of_ascends (ascends : ∀ edge ∈ g.edges, edge.source < edge.target) :
    ¬ g.NegativeCycle := by
  rintro ⟨edge, mem, _, back⟩
  exact absurd (ascends edge mem) (Nat.not_lt_of_le (le_of_reaches ascends back))

theorem idxOf_reverse_range {n v : Nat} (lt : v < n) : (List.range n).reverse.idxOf v = n - 1 - v := by
  have nodup : (List.range n).reverse.Nodup := List.nodup_reverse.mpr List.nodup_range
  have inside : n - 1 - v < (List.range n).reverse.length := by
    rw [List.length_reverse, List.length_range]
    omega
  have position := nodup.idxOf_getElem (n - 1 - v) inside
  rw [List.getElem_reverse, List.getElem_range, List.length_range] at position
  rwa [show n - 1 - (n - 1 - v) = v by omega] at position

theorem ascendingLibrary_correctOn (ascends : ∀ edge ∈ g.edges, edge.source < edge.target) :
    ascendingLibrary.CorrectOn g := by
  refine ⟨⟨fun v lt => lt, fun u _ v _ => ⟨?_, ?_⟩⟩, ?_⟩
  · rintro rfl
    exact ⟨.refl, .refl⟩
  · rintro ⟨forth, back⟩
    exact Nat.le_antisymm (le_of_reaches ascends forth) (le_of_reaches ascends back)
  · rintro dag rfl inRangeDag _
    refine ⟨List.reverse_perm _, fun edge mem => ?_⟩
    obtain ⟨_, origin, memOrigin, source, target, _⟩ := edge_of_mem_bestEdges (mem_dag_edges.mp mem)
    have less : edge.source < edge.target := by
      dsimp only [ascendingLibrary, id] at source target
      rw [← target, ← source]
      exact ascends origin memOrigin
    have sourceLt : edge.source < g.numVertices := (inRangeDag edge mem).1
    have targetLt : edge.target < g.numVertices := (inRangeDag edge mem).2
    change (List.range g.numVertices).reverse.idxOf edge.target <
      (List.range g.numVertices).reverse.idxOf edge.source
    rw [idxOf_reverse_range sourceLt, idxOf_reverse_range targetLt]
    omega

end

end Tyr.Planning
