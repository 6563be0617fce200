import Mathlib.Data.List.Forall2
import Mathlib.Data.List.GetD
import Tyr.Analysis.VariableDomains
import Tyr.Common.Itertools
import Tyr.Lib.Fold
import Tyr.Planning.LiftedSemantics

/-!
Soundness of the variable domains.

A positive static literal that holds and a static function term with a value restrict
a parameter to the positions of static atoms and values, which no run changes. So one
pass over the schemas keeps every binding whose static part holds, and the domains of
the fluent and derived positions contain the objects of all atoms that effects and
axioms produce.

* `inDomains_restrictBy` — conditions that hold keep bindings in the domains.
* `TaskVariableDomains.SoundIn` — what the domains contain in a state.
* `computeVariableDomains_sound` — tasks and programs.
-/

namespace Tyr.Analysis

open Tyr.Lib Tyr.Formalism

/-- The object of each parameter is in its domain. -/
def InDomains (domains : ParameterDomains) (binding : List Nat) : Prop :=
  ∀ index object, binding[index]? = some object → object ∈ domains index

/-- The objects of the tuple are in the sets of their positions. -/
def DomainSets.Covers (sets : DomainSets) (symbol : Symbol) (objects : List Nat) : Prop :=
  ∀ pos object, objects[pos]? = some object → object ∈ sets symbol pos

namespace DomainSets

variable {sets : DomainSets} {symbol : Symbol} {pos : Nat} {objects : List Nat}

theorem Covers.mono {sets' : DomainSets} (covers : sets.Covers symbol objects) (le : sets ≤ sets') :
    sets'.Covers symbol objects :=
  fun pos object found => le symbol pos (covers pos object found)

theorem add_self (added : Finset Nat) : (sets.add symbol pos added) symbol pos = sets symbol pos ∪ added := by
  rw [add, Function.update_self, Function.update_self]

theorem le_add (added : Finset Nat) : sets ≤ sets.add symbol pos added := by
  intro other index
  unfold add
  by_cases sameSymbol : other = symbol
  · subst sameSymbol
    rw [Function.update_self]
    by_cases samePos : index = pos
    · subst samePos
      rw [Function.update_self]
      exact Finset.subset_union_left
    · rw [Function.update_of_ne samePos]
  · rw [Function.update_of_ne sameSymbol]

theorem le_insertObjects : sets ≤ sets.insertObjects symbol objects := by
  unfold insertObjects
  apply foldl_invariant (P := (sets ≤ ·))
  · intro state le entry _
    exact le.trans (le_add _)
  · exact le_rfl

theorem covers_insertObjects : (sets.insertObjects symbol objects).Covers symbol objects := by
  intro pos object found
  have visited : (object, pos) ∈ objects.zipIdx := List.mem_zipIdx_iff_getElem?.mpr found
  unfold insertObjects
  refine foldl_establishes (P := fun _ => True) (fun sets : DomainSets => object ∈ sets symbol pos)
    (fun _ _ _ _ => trivial) ?_ visited ?_ trivial
  · intro state _ entry _ mem
    exact le_add _ _ _ mem
  · intro state _
    rw [add_self]
    exact Finset.mem_union_right _ (Finset.mem_singleton_self object)

theorem le_insertAtoms {predicate : Nat → Symbol} {atoms : List Tuple} :
    sets ≤ sets.insertAtoms predicate atoms := by
  unfold insertAtoms
  apply foldl_invariant (P := (sets ≤ ·))
  · intro state le atom _
    exact le.trans le_insertObjects
  · exact le_rfl

theorem covers_insertAtoms {predicate : Nat → Symbol} {atoms : List Tuple} {atom : Tuple}
    (mem : atom ∈ atoms) :
    (sets.insertAtoms predicate atoms).Covers (predicate atom.relation) atom.objects := by
  unfold insertAtoms
  refine foldl_establishes (P := fun _ => True)
    (fun sets : DomainSets => sets.Covers (predicate atom.relation) atom.objects)
    (fun _ _ _ _ => trivial) ?_ mem ?_ trivial
  · intro state _ other _ covers
    exact covers.mono le_insertObjects
  · intro state _
    exact covers_insertObjects

theorem le_insertFtermValues {function : Nat → Symbol} {values : List (Tuple × Number)} :
    sets ≤ sets.insertFtermValues function values := by
  unfold insertFtermValues
  apply foldl_invariant (P := (sets ≤ ·))
  · intro state le entry _
    exact le.trans le_insertObjects
  · exact le_rfl

theorem covers_insertFtermValues {function : Nat → Symbol} {values : List (Tuple × Number)}
    {entry : Tuple × Number} (mem : entry ∈ values) :
    (sets.insertFtermValues function values).Covers (function entry.1.relation) entry.1.objects := by
  unfold insertFtermValues
  refine foldl_establishes (P := fun _ => True)
    (fun sets : DomainSets => sets.Covers (function entry.1.relation) entry.1.objects)
    (fun _ _ _ _ => trivial) ?_ mem ?_ trivial
  · intro state _ other _ covers
    exact covers.mono le_insertObjects
  · intro state _
    exact covers_insertObjects

/-- A listed function term with a value. -/
theorem mem_of_lookup {values : List (Tuple × Number)} {term : Tuple}
    (defined : (values.lookup term).getD .nan ≠ .nan) : ∃ value, (term, value) ∈ values := by
  cases found : values.lookup term with
  | none =>
      rw [found] at defined
      exact absurd rfl defined
  | some value =>
      obtain ⟨front, back, split, _⟩ := List.lookup_eq_some_iff.mp found
      exact ⟨value, by rw [split]; exact List.mem_append_right front List.mem_cons_self⟩

variable {staticAtoms fluentAtoms : List Tuple}
  {staticFtermValues fluentFtermValues : List (Tuple × Number)}

theorem covers_staticAtom {atom : Tuple} (mem : atom ∈ staticAtoms) :
    (ofInitial staticAtoms fluentAtoms staticFtermValues fluentFtermValues).Covers
      (.staticPredicate atom.relation) atom.objects := by
  have inserted : (empty.insertAtoms .staticPredicate staticAtoms).Covers
      (.staticPredicate atom.relation) atom.objects := covers_insertAtoms mem
  apply inserted.mono
  exact (le_insertAtoms.trans le_insertFtermValues).trans le_insertFtermValues

theorem covers_fluentAtom {atom : Tuple} (mem : atom ∈ fluentAtoms) :
    (ofInitial staticAtoms fluentAtoms staticFtermValues fluentFtermValues).Covers
      (.fluentPredicate atom.relation) atom.objects := by
  have inserted : ((empty.insertAtoms .staticPredicate staticAtoms).insertAtoms .fluentPredicate
      fluentAtoms).Covers (.fluentPredicate atom.relation) atom.objects := covers_insertAtoms mem
  exact inserted.mono (le_insertFtermValues.trans le_insertFtermValues)

theorem covers_staticFterm {term : Tuple} (defined : (staticFtermValues.lookup term).getD .nan ≠ .nan) :
    (ofInitial staticAtoms fluentAtoms staticFtermValues fluentFtermValues).Covers
      (.staticFunction term.relation) term.objects := by
  obtain ⟨value, mem⟩ := mem_of_lookup defined
  have inserted : (((empty.insertAtoms .staticPredicate staticAtoms).insertAtoms .fluentPredicate
      fluentAtoms).insertFtermValues .staticFunction staticFtermValues).Covers
        (.staticFunction term.relation) term.objects := covers_insertFtermValues mem
  exact inserted.mono le_insertFtermValues

end DomainSets

/-! ### Policies -/

section

variable {sets : DomainSets} {domains : ParameterDomains} {occurrence : Occurrence}
  {occurrences : List Occurrence}

theorem le_insertConstant : sets ≤ insertConstant sets occurrence := by
  unfold insertConstant
  split
  · exact le_rfl
  · apply foldl_invariant (P := (sets ≤ ·))
    · rintro state le ⟨term, pos⟩ _
      cases term with
      | object object => exact le.trans (DomainSets.le_add _)
      | parameter index => exact le
    · exact le_rfl

theorem le_foldl_insertConstant : sets ≤ occurrences.foldl insertConstant sets :=
  foldl_invariant (P := (sets ≤ ·)) (fun _ le _ _ => le.trans le_insertConstant) le_rfl

/-- A parameter keeps an object that occurs at all of its positions. -/
theorem mem_restrict {index object : Nat} (mem : object ∈ domains index)
    (positions : occurrence.polarity = true → isFluentFunction occurrence.symbol = false →
      ∀ pos, occurrence.terms[pos]? = some (.parameter index) → object ∈ sets occurrence.symbol pos) :
    object ∈ restrict sets domains occurrence index := by
  unfold restrict
  split
  · exact mem
  · next kept =>
      rw [Bool.or_eq_true, not_or, Bool.not_eq_true', Bool.not_eq_false, Bool.not_eq_true] at kept
      apply foldl_invariant (P := fun domains : ParameterDomains => object ∈ domains index)
      · rintro state mem ⟨term, pos⟩ atPos
        cases term with
        | object => exact mem
        | parameter other =>
            simp only
            by_cases same : index = other
            · subst same
              rw [Function.update_self]
              exact Finset.mem_inter.mpr
                ⟨mem, positions kept.1 kept.2 pos (List.mem_zipIdx_iff_getElem?.mp atPos)⟩
            · rw [Function.update_of_ne same]
              exact mem
      · exact mem

theorem le_lift : sets ≤ lift domains sets occurrence := by
  unfold lift
  split
  · exact le_rfl
  · apply foldl_invariant (P := (sets ≤ ·))
    · rintro state le ⟨term, pos⟩ _
      cases term with
      | object object => exact le.trans (DomainSets.le_add _)
      | parameter index => exact le.trans (DomainSets.le_add _)
    · exact le_rfl

theorem le_foldl_lift : sets ≤ occurrences.foldl (lift domains) sets :=
  foldl_invariant (P := (sets ≤ ·)) (fun _ le _ _ => le.trans le_lift) le_rfl

/-- The objects that a term can stand for. -/
def termObjects (domains : ParameterDomains) : Term → Finset Nat
  | .object object => {object}
  | .parameter index => domains index

/-- A position contains the objects that its term can stand for. -/
theorem mem_lift {pos object : Nat} {term : Term} (atPos : occurrence.terms[pos]? = some term)
    (mem : object ∈ termObjects domains term)
    (lifted : isStaticFunction occurrence.symbol = false) :
    object ∈ lift domains sets occurrence occurrence.symbol pos := by
  have visited : (term, pos) ∈ occurrence.terms.zipIdx := List.mem_zipIdx_iff_getElem?.mpr atPos
  unfold lift
  rw [lifted, if_neg Bool.false_ne_true]
  refine foldl_establishes (P := fun _ => True)
    (fun sets : DomainSets => object ∈ sets occurrence.symbol pos)
    (fun _ _ _ _ => trivial) ?_ visited ?_ trivial
  · rintro state _ ⟨other, pos⟩ _ mem
    cases other with
    | object => exact DomainSets.le_add _ _ _ mem
    | parameter => exact DomainSets.le_add _ _ _ mem
  · intro state _
    cases term with
    | object =>
        simp only [DomainSets.add_self]
        exact Finset.mem_union_right _ mem
    | parameter =>
        simp only [DomainSets.add_self]
        exact Finset.mem_union_right _ mem

theorem mem_foldl_lift {pos object : Nat} {term : Term} (visited : occurrence ∈ occurrences)
    (atPos : occurrence.terms[pos]? = some term) (mem : object ∈ termObjects domains term)
    (lifted : isStaticFunction occurrence.symbol = false) :
    object ∈ occurrences.foldl (lift domains) sets occurrence.symbol pos := by
  refine foldl_establishes (P := fun _ => True)
    (fun sets : DomainSets => object ∈ sets occurrence.symbol pos)
    (fun _ _ _ _ => trivial) ?_ visited ?_ trivial
  · intro state _ other _ mem
    exact le_lift _ _ mem
  · intro state _
    exact mem_lift atPos mem lifted

/-- The positions of a symbol contain the objects of its terms under a binding in
the domains. -/
theorem covers_lift {binding : List Nat} (inDomains : InDomains domains binding)
    (closed : ∀ index, .parameter index ∈ occurrence.terms → index < binding.length)
    (lifted : isStaticFunction occurrence.symbol = false) :
    (lift domains sets occurrence).Covers occurrence.symbol
      (occurrence.terms.map (Term.ground binding)) := by
  intro pos object found
  obtain ⟨term, atPos, rfl⟩ := Option.map_eq_some_iff.mp ((List.getElem?_map ..).symm.trans found)
  refine mem_lift atPos ?_ lifted
  cases term with
  | object object => exact Finset.mem_singleton_self object
  | parameter index =>
      have inRange := closed index (List.mem_of_getElem? atPos)
      apply inDomains index
      rw [Term.ground, List.getD_eq_getElem?_getD, List.getElem?_eq_getElem inRange,
        Option.getD_some]

theorem covers_foldl_lift {binding : List Nat} (inDomains : InDomains domains binding)
    (mem : occurrence ∈ occurrences)
    (closed : ∀ index, .parameter index ∈ occurrence.terms → index < binding.length)
    (lifted : isStaticFunction occurrence.symbol = false) :
    (occurrences.foldl (lift domains) sets).Covers occurrence.symbol
      (occurrence.terms.map (Term.ground binding)) := by
  refine foldl_establishes (P := fun _ => True)
    (fun sets : DomainSets => sets.Covers occurrence.symbol
      (occurrence.terms.map (Term.ground binding)))
    (fun _ _ _ _ => trivial) ?_ mem ?_ trivial
  · intro state _ other _ covers
    exact covers.mono le_lift
  · intro state _
    exact covers_lift inDomains closed lifted

/-- An occurrence that restricts is covered under the binding. -/
def Supported (sets : DomainSets) (binding : List Nat) (occurrence : Occurrence) : Prop :=
  occurrence.polarity = true → isFluentFunction occurrence.symbol = false →
    sets.Covers occurrence.symbol (occurrence.terms.map (Term.ground binding))

/-- A binding that supports all occurrences stays in the domains. -/
theorem inDomains_foldl_restrict {binding : List Nat} (inDomains : InDomains domains binding)
    (supported : ∀ occurrence ∈ occurrences, Supported sets binding occurrence) :
    InDomains (occurrences.foldl (restrict sets) domains) binding := by
  apply foldl_invariant (P := fun domains => InDomains domains binding)
  · intro state inState occurrence mem index object found
    apply mem_restrict (inState index object found)
    intro positive restricts pos atPos
    apply supported occurrence mem positive restricts pos
    rw [List.getElem?_map, atPos, Option.map_some, Term.ground, List.getD_eq_getElem?_getD, found,
      Option.getD_some]
  · exact inDomains

/-- The lists of the domains contain the objects of the binding, parameter by parameter. -/
theorem forall₂_toVariableDomainList {arity : Nat} {binding : List Nat}
    (length : binding.length = arity) (inDomains : InDomains domains binding) :
    List.Forall₂ (· ∈ ·) binding (toVariableDomainList arity domains) := by
  rw [List.forall₂_iff_get]
  refine ⟨by simp [toVariableDomainList, length], fun index inRange _ => ?_⟩
  simp only [toVariableDomainList, List.get_eq_getElem, List.getElem_map, List.getElem_range,
    toVariableDomain, Finset.mem_sort]
  exact inDomains index _ (List.getElem?_eq_getElem inRange)

theorem mem_toVariableDomainList {arity index object : Nat} (inRange : index < arity)
    (mem : object ∈ domains index) : object ∈ (toVariableDomainList arity domains).getD index [] := by
  rw [toVariableDomainList, List.getD_eq_getElem?_getD, List.getElem?_map, List.getElem?_range inRange,
    Option.map_some, Option.getD_some]
  exact (Finset.mem_sort _).mpr mem

end

/-! ### Tasks -/

section

open Planning Tyr.Planning

/-- A constraint with an undefined function term does not hold. -/
def StrictNumerics {task : LiftedTask} (semantics : TaskSemantics task) : Prop :=
  ∀ valuation constraint, semantics.constraintHolds valuation constraint →
    ∀ fterm ∈ constraint.lhs.fterms ++ constraint.rhs.fterms, valuation fterm ≠ .nan

namespace TaskDomains

variable {task : LiftedTask} {semantics : TaskSemantics task} {state : LiftedState}
  {binding : List Nat} {condition : ConjunctiveCondition} {domains : ParameterDomains}

theorem initialSets_le_staticSets : initialSets task ≤ staticSets task := le_foldl_insertConstant

theorem staticAtom_covered {atom : Tuple} (mem : atom ∈ task.staticAtoms) :
    (staticSets task).Covers (.staticPredicate atom.relation) atom.objects :=
  (DomainSets.covers_staticAtom mem).mono initialSets_le_staticSets

theorem fluentAtom_covered {atom : Tuple} (mem : atom ∈ task.fluentAtoms) :
    (staticSets task).Covers (.fluentPredicate atom.relation) atom.objects :=
  (DomainSets.covers_fluentAtom mem).mono initialSets_le_staticSets

theorem staticFterm_covered {term : Tuple} (defined : task.staticValue term ≠ .nan) :
    (staticSets task).Covers (.staticFunction term.relation) term.objects :=
  (DomainSets.covers_staticFterm defined).mono initialSets_le_staticSets

/-- The static literals and the constraints of a condition that holds are supported. -/
theorem supported_of_holds (strict : StrictNumerics semantics)
    (holds : semantics.HoldsUnderived state binding condition) :
    ∀ occurrence ∈ staticLiterals condition ++ constraints condition,
      Supported (staticSets task) binding occurrence := by
  intro occurrence mem positive restricts
  rcases List.mem_append.mp mem with isLiteral | isFterm
  · obtain ⟨literal, memLiteral, rfl⟩ := List.mem_map.mp isLiteral
    exact staticAtom_covered ((holds.static literal memLiteral).mpr positive)
  · obtain ⟨constraint, memConstraint, isFterm⟩ := List.mem_flatMap.mp isFterm
    obtain ⟨term, memTerm, rfl⟩ := List.mem_map.mp isFterm
    have defined := strict _ constraint (holds.numeric constraint memConstraint) term memTerm
    cases term with
    | static function terms => exact staticFterm_covered defined
    | fluent => cases restricts

theorem inDomains_restrictBy (strict : StrictNumerics semantics)
    (inDomains : InDomains domains binding)
    (holds : semantics.HoldsUnderived state binding condition) :
    InDomains (restrictBy task condition domains) binding :=
  inDomains_foldl_restrict inDomains (supported_of_holds strict holds)

theorem inDomains_allObjects {arity : Nat} (isBinding : task.IsBinding arity binding) :
    InDomains (allObjects task) binding := by
  intro index object found
  exact List.mem_toFinset.mpr (isBinding.objects object (List.mem_of_getElem? found))

theorem inDomains_action (strict : StrictNumerics semantics) {action : Action}
    (applicable : semantics.Applicable state action binding) :
    InDomains (actionDomains task action) binding :=
  inDomains_restrictBy strict (inDomains_allObjects applicable.isBinding)
    applicable.condition.toHoldsUnderived

/-- The terms of an occurrence of a condition are terms of the condition. -/
theorem mem_terms_of_occurrence {occurrence : Occurrence}
    (mem : occurrence ∈ staticLiterals condition ++ constraints condition) {term : Term}
    (occurs : term ∈ occurrence.terms) : term ∈ condition.terms := by
  rcases List.mem_append.mp mem with isLiteral | isFterm
  · obtain ⟨literal, memLiteral, rfl⟩ := List.mem_map.mp isLiteral
    refine List.mem_append_left _ (List.mem_flatMap.mpr ⟨literal, ?_, occurs⟩)
    exact List.mem_append_left _ (List.mem_append_left _ memLiteral)
  · obtain ⟨constraint, memConstraint, isFterm⟩ := List.mem_flatMap.mp isFterm
    obtain ⟨fterm, memFterm, rfl⟩ := List.mem_map.mp isFterm
    refine List.mem_append_right _ (List.mem_flatMap.mpr
      ⟨constraint, memConstraint, List.mem_flatMap.mpr ⟨fterm, memFterm, ?_⟩⟩)
    cases fterm <;> exact occurs

theorem map_ground_append {terms : List Term} (objects : List Nat)
    (closed : ∀ index, .parameter index ∈ terms → index < binding.length) :
    terms.map (Term.ground (binding ++ objects)) = terms.map (Term.ground binding) := by
  apply List.map_congr_left
  intro term mem
  cases term with
  | object => rfl
  | parameter index =>
      rw [Term.ground, Term.ground, List.getD_append _ _ _ _ (closed index mem)]

/-- An instance of an effect that fires is in the domains. -/
theorem inDomains_effect (strict : StrictNumerics semantics) {action : Action}
    (applicable : semantics.Applicable state action binding) {effect : ConditionalEffect}
    {objects : List Nat} (fires : semantics.Fires state binding effect objects) :
    InDomains (effectDomains task action effect) (binding ++ objects) := by
  have isBinding : task.IsBinding (action.arity + effect.arity) (binding ++ objects) := by
    refine ⟨by rw [List.length_append, applicable.isBinding.length, fires.isBinding.length], ?_⟩
    intro object mem
    rcases List.mem_append.mp mem with parameter | quantified
    · exact applicable.isBinding.objects object parameter
    · exact fires.isBinding.objects object quantified
  have inActionDomains : InDomains (actionDomains task action) (binding ++ objects) := by
    apply inDomains_foldl_restrict (inDomains_allObjects isBinding)
    intro occurrence mem positive restricts
    rw [map_ground_append objects fun index occurs => by
      rw [applicable.isBinding.length]
      exact action.closed index (mem_terms_of_occurrence mem occurs)]
    exact supported_of_holds strict applicable.condition.toHoldsUnderived occurrence mem positive
      restricts
  exact inDomains_restrictBy strict inActionDomains fires.condition.toHoldsUnderived

theorem inDomains_axiomBody (strict : StrictNumerics semantics) {ax : Axiom}
    (isBinding : task.IsBinding ax.arity binding)
    (holds : semantics.HoldsUnderived state binding ax.body) :
    InDomains (axiomDomains task ax) binding :=
  inDomains_restrictBy strict (inDomains_allObjects isBinding) holds

/-! ### Lifting -/

theorem le_liftAction {sets : DomainSets} {action : Action} : sets ≤ liftAction task sets action := by
  unfold liftAction
  apply foldl_invariant (P := (sets ≤ ·))
  · intro state le effect _
    exact le.trans le_foldl_lift
  · exact le_foldl_lift

theorem le_liftAxiom {sets : DomainSets} {ax : Axiom} : sets ≤ liftAxiom task sets ax := le_foldl_lift

theorem liftActions_le_liftedSets :
    task.actions.foldl (liftAction task) (staticSets task) ≤ liftedSets task := by
  apply foldl_invariant (P := (task.actions.foldl (liftAction task) (staticSets task) ≤ ·))
  · intro state le ax _
    exact le.trans le_liftAxiom
  · exact le_rfl

theorem staticSets_le_liftedSets : staticSets task ≤ liftedSets task := by
  refine le_trans ?_ liftActions_le_liftedSets
  apply foldl_invariant (P := (staticSets task ≤ ·))
  · intro state le action _
    exact le.trans le_liftAction
  · exact le_rfl

/-- The atoms that an instance of an effect in the domains changes are covered. -/
theorem effectAtom_covered {action : Action} (memAction : action ∈ task.actions)
    {effect : ConditionalEffect} (memEffect : effect ∈ action.effects) {literal : Literal}
    (memLiteral : literal ∈ effect.effect.literals)
    (inDomains : InDomains (effectDomains task action effect) binding)
    (length : binding.length = action.arity + effect.arity) :
    (liftedSets task).Covers (.fluentPredicate literal.atom.predicate)
      (literal.atom.terms.map (Term.ground binding)) := by
  have visited : literal.occurrence .fluentPredicate ∈ effectOccurrences effect :=
    List.mem_append_left _ (List.mem_append_right _ (List.mem_map_of_mem memLiteral))
  have lifted : ∀ sets : DomainSets, ((effectOccurrences effect).foldl
      (lift (effectDomains task action effect)) sets).Covers
        (.fluentPredicate literal.atom.predicate) (literal.atom.terms.map (Term.ground binding)) := by
    intro sets
    refine covers_foldl_lift inDomains visited (fun index occurs => ?_) rfl
    rw [length]
    exact task.effects_closed action memAction effect memEffect literal memLiteral index occurs
  have byAction : ∀ sets : DomainSets, (liftAction task sets action).Covers
      (.fluentPredicate literal.atom.predicate) (literal.atom.terms.map (Term.ground binding)) := by
    intro sets
    unfold liftAction
    refine foldl_establishes (P := fun _ => True)
      (fun sets : DomainSets => sets.Covers (.fluentPredicate literal.atom.predicate)
        (literal.atom.terms.map (Term.ground binding)))
      (fun _ _ _ _ => trivial) ?_ memEffect ?_ trivial
    · intro state _ other _ covers
      exact covers.mono le_foldl_lift
    · intro state _
      exact lifted state
  refine DomainSets.Covers.mono ?_ liftActions_le_liftedSets
  refine foldl_establishes (P := fun _ => True)
    (fun sets : DomainSets => sets.Covers (.fluentPredicate literal.atom.predicate)
      (literal.atom.terms.map (Term.ground binding)))
    (fun _ _ _ _ => trivial) ?_ memAction ?_ trivial
  · intro state _ other _ covers
    exact covers.mono le_liftAction
  · intro state _
    exact byAction state

theorem headAtom_covered {ax : Axiom} (memAxiom : ax ∈ task.axioms)
    (inDomains : InDomains (axiomDomains task ax) binding) (length : binding.length = ax.arity) :
    (liftedSets task).Covers (.derivedPredicate ax.head.predicate)
      (ax.head.terms.map (Term.ground binding)) := by
  unfold liftedSets
  refine foldl_establishes (P := fun _ => True)
    (fun sets : DomainSets => sets.Covers (.derivedPredicate ax.head.predicate)
      (ax.head.terms.map (Term.ground binding)))
    (fun _ _ _ _ => trivial) ?_ memAxiom ?_ trivial
  · intro state _ other _ covers
    exact covers.mono le_liftAxiom
  · intro state _
    have visited : ax.head.occurrence .derivedPredicate ∈ staticLiterals ax.body ++
        fluentLiterals ax.body ++ derivedLiterals ax.body ++ constraints ax.body ++
          [ax.head.occurrence .derivedPredicate] := List.mem_append_right _ List.mem_cons_self
    refine covers_foldl_lift inDomains visited (fun index occurs => ?_) rfl
    rw [length]
    exact task.heads_closed ax memAxiom index occurs

/-- The fluent atoms of a reachable state are covered. -/
theorem reachable_covered (strict : StrictNumerics semantics) (reachable : semantics.Reachable state) :
    ∀ atom ∈ state.fluentAtoms,
      (liftedSets task).Covers (.fluentPredicate atom.relation) atom.objects := by
  induction reachable with
  | initial =>
      intro atom mem
      exact (fluentAtom_covered mem).mono staticSets_le_liftedSets
  | @successor state action binding _ applicable ih =>
      intro atom mem
      rcases TaskSemantics.mem_successor mem with added | old
      · obtain ⟨effect, memEffect, objects, fires, literal, memLiteral, _, rfl⟩ := added
        refine effectAtom_covered applicable.known memEffect memLiteral
          (inDomains_effect strict applicable fires) ?_
        rw [List.length_append, applicable.isBinding.length, fires.isBinding.length]
      · exact ih atom old

theorem derived_covered (strict : StrictNumerics semantics) {atom : Tuple}
    (derived : atom ∈ semantics.derivedAtoms state) :
    (liftedSets task).Covers (.derivedPredicate atom.relation) atom.objects := by
  obtain ⟨ax, memAxiom, binding, isBinding, holds, rfl⟩ := TaskSemantics.mem_derivedAtoms derived
  exact headAtom_covered memAxiom (inDomains_axiomBody strict isBinding holds) isBinding.length

end TaskDomains

/-- What the domains contain in a state. -/
structure TaskVariableDomains.SoundIn (domains : TaskVariableDomains) {task : LiftedTask}
    (semantics : TaskSemantics task) (state : LiftedState) : Prop where
  precondition : ∀ action binding, semantics.Applicable state action binding →
    List.Forall₂ (· ∈ ·) binding (domains.preconditionDomains action)
  effect : ∀ action binding, semantics.Applicable state action binding →
    ∀ effect ∈ action.effects, ∀ objects, semantics.Fires state binding effect objects →
      List.Forall₂ (· ∈ ·) (binding ++ objects) (domains.effectDomains action effect)
  enumerated : ∀ action binding, semantics.Applicable state action binding →
    ∀ effect ∈ action.effects, ∀ objects, semantics.Fires state binding effect objects →
      objects ∈ CartesianSet.elements ((domains.effectDomains action effect).drop action.arity)
  axiomBody : ∀ ax ∈ task.axioms, ∀ binding, task.IsBinding ax.arity binding →
    semantics.Holds state binding ax.body → List.Forall₂ (· ∈ ·) binding (domains.axiomDomains ax)
  fluent : ∀ atom ∈ state.fluentAtoms, ∀ pos object, atom.objects[pos]? = some object →
    pos < task.arity (.fluentPredicate atom.relation) →
      object ∈ (domains.symbolDomains (.fluentPredicate atom.relation)).getD pos []
  derived : ∀ atom ∈ semantics.derivedAtoms state, ∀ pos object, atom.objects[pos]? = some object →
    pos < task.arity (.derivedPredicate atom.relation) →
      object ∈ (domains.symbolDomains (.derivedPredicate atom.relation)).getD pos []

open TaskDomains in
theorem TaskVariableDomains.compute_sound {task : LiftedTask} {semantics : TaskSemantics task}
    (strict : StrictNumerics semantics) {state : LiftedState}
    (reachable : semantics.Reachable state) :
    (TaskVariableDomains.compute task).SoundIn semantics state := by
  have effect : ∀ action binding, semantics.Applicable state action binding →
      ∀ effect ∈ action.effects, ∀ objects, semantics.Fires state binding effect objects →
        List.Forall₂ (· ∈ ·) (binding ++ objects)
          ((TaskVariableDomains.compute task).effectDomains action effect) := by
    intro action binding applicable effect _ objects fires
    apply forall₂_toVariableDomainList _ (inDomains_effect strict applicable fires)
    rw [List.length_append, applicable.isBinding.length, fires.isBinding.length]
  constructor
  · intro action binding applicable
    exact forall₂_toVariableDomainList applicable.isBinding.length (inDomains_action strict applicable)
  · exact effect
  · intro action binding applicable conditional mem objects fires
    rw [CartesianSet.mem_elements]
    have dropped := List.forall₂_drop action.arity
      (effect action binding applicable conditional mem objects fires)
    rw [List.drop_left' applicable.isBinding.length] at dropped
    exact dropped
  · intro ax _ binding isBinding holds
    exact forall₂_toVariableDomainList isBinding.length
      (inDomains_axiomBody strict isBinding holds.toHoldsUnderived)
  · intro atom mem pos object found inRange
    exact mem_toVariableDomainList inRange (reachable_covered strict reachable atom mem pos object found)
  · intro atom mem pos object found inRange
    exact mem_toVariableDomainList inRange (derived_covered strict mem pos object found)

end

/-! ### Programs -/

section

open Datalog

/-- The constraint is true and all its function terms have a value. -/
structure ConstraintHolds (program : Program) (binding : List Nat)
    (constraint : BooleanOperator FunctionTerm) : Prop where
  defined : ∀ fterm ∈ constraint.lhs.fterms ++ constraint.rhs.fterms,
    program.value fterm.kind ⟨fterm.function, fterm.terms.map (Term.ground binding)⟩ ≠ .nan
  holds : constraint.op.apply
    (constraint.lhs.value fun fterm =>
      program.value fterm.kind ⟨fterm.function, fterm.terms.map (Term.ground binding)⟩)
    (constraint.rhs.value fun fterm =>
      program.value fterm.kind ⟨fterm.function, fterm.terms.map (Term.ground binding)⟩) = true

/-- The binding of the rule satisfies its static part. -/
structure Admitted (program : Program) (rule : Rule) (binding : List Nat) : Prop where
  length : binding.length = rule.arity
  objects : ∀ object ∈ binding, object ∈ program.objects
  static : ∀ literal ∈ rule.body.staticLiterals,
    literal.HoldsIn {atom | atom ∈ program.staticAtoms} binding
  numeric : ∀ constraint ∈ rule.body.numericConstraints, ConstraintHolds program binding constraint

/-- The instances of the rules of a stratum. -/
def ruleClauses (program : Program) (stratum : List Rule) : Set (Clause Tuple) :=
  {clause | ∃ rule ∈ stratum, ∃ binding, Admitted program rule binding ∧
    clause =
      { head := rule.head.ground binding
        positive := (rule.body.fluentLiterals.filter Literal.polarity).map (·.atom.ground binding)
        negative := (rule.body.fluentLiterals.filter (!·.polarity)).map (·.atom.ground binding) }}

/-- The least model of the strata over the initial facts. -/
def leastModel (program : Program) (strata : List (List Rule)) : Set Tuple :=
  perfectModel (strata.map (ruleClauses program)) {atom | atom ∈ program.fluentAtoms}

namespace ProgramDomains

variable {program : Program} {rule : Rule} {binding : List Nat}

theorem initialSets_le_staticSets : initialSets program ≤ staticSets program :=
  le_foldl_insertConstant

theorem staticAtom_covered {atom : Tuple} (mem : atom ∈ program.staticAtoms) :
    (staticSets program).Covers (.staticPredicate atom.relation) atom.objects :=
  (DomainSets.covers_staticAtom mem).mono initialSets_le_staticSets

theorem fluentAtom_covered {atom : Tuple} (mem : atom ∈ program.fluentAtoms) :
    (staticSets program).Covers (.fluentPredicate atom.relation) atom.objects :=
  (DomainSets.covers_fluentAtom mem).mono initialSets_le_staticSets

theorem staticFterm_covered {term : Tuple} (defined : program.value .static term ≠ .nan) :
    (staticSets program).Covers (.staticFunction term.relation) term.objects :=
  (DomainSets.covers_staticFterm defined).mono initialSets_le_staticSets

theorem inDomains_rule (admitted : Admitted program rule binding) :
    InDomains (ruleDomains program rule) binding := by
  apply inDomains_foldl_restrict
  · intro index object found
    exact List.mem_toFinset.mpr (admitted.objects object (List.mem_of_getElem? found))
  · intro occurrence mem positive restricts
    rcases List.mem_append.mp mem with isLiteral | isFterm
    · obtain ⟨literal, memLiteral, rfl⟩ := List.mem_map.mp isLiteral
      exact staticAtom_covered ((admitted.static literal memLiteral).mpr positive)
    · obtain ⟨constraint, memConstraint, isFterm⟩ := List.mem_flatMap.mp isFterm
      obtain ⟨fterm, memFterm, rfl⟩ := List.mem_map.mp isFterm
      have defined := (admitted.numeric constraint memConstraint).defined fterm memFterm
      obtain ⟨kind, function, terms⟩ := fterm
      cases kind with
      | static => exact staticFterm_covered defined
      | fluent => cases restricts

theorem le_liftRule {sets : DomainSets} : sets ≤ liftRule program sets rule := le_foldl_lift

theorem staticSets_le_liftedSets : staticSets program ≤ liftedSets program := by
  apply foldl_invariant (P := (staticSets program ≤ ·))
  · intro state le rule _
    exact le.trans le_liftRule
  · exact le_rfl

theorem headAtom_covered (mem : rule ∈ program.rules) (admitted : Admitted program rule binding) :
    (liftedSets program).Covers (.fluentPredicate rule.head.predicate)
      (rule.head.terms.map (Term.ground binding)) := by
  unfold liftedSets
  refine foldl_establishes (P := fun _ => True)
    (fun sets : DomainSets => sets.Covers (.fluentPredicate rule.head.predicate)
      (rule.head.terms.map (Term.ground binding)))
    (fun _ _ _ _ => trivial) ?_ mem ?_ trivial
  · intro state _ other _ covers
    exact covers.mono le_liftRule
  · intro state _
    have visited : rule.head.occurrence .fluentPredicate ∈ programLiterals rule.body .static ++
        programLiterals rule.body .fluent ++ programConstraints rule.body ++
          [rule.head.occurrence .fluentPredicate] := List.mem_append_right _ List.mem_cons_self
    refine covers_foldl_lift (inDomains_rule admitted) visited (fun index occurs => ?_) rfl
    rw [admitted.length]
    exact program.heads_closed rule mem index occurs

/-- The facts of the least model are covered. -/
theorem leastModel_covered {strata : List (List Rule)}
    (rules : ∀ stratum ∈ strata, ∀ rule ∈ stratum, rule ∈ program.rules) :
    leastModel program strata ⊆
      {atom | (liftedSets program).Covers (.fluentPredicate atom.relation) atom.objects} := by
  apply perfectModel_subset
  · intro atom mem
    exact (fluentAtom_covered mem).mono staticSets_le_liftedSets
  · intro clauses mem clause memClause _
    obtain ⟨stratum, memStratum, rfl⟩ := List.mem_map.mp mem
    obtain ⟨rule, memRule, binding, admitted, rfl⟩ := memClause
    exact headAtom_covered (rules stratum memStratum rule memRule) admitted

end ProgramDomains

/-- What the domains contain for the least model of the strata. -/
structure ProgramVariableDomains.Sound (domains : ProgramVariableDomains) (program : Program)
    (strata : List (List Rule)) : Prop where
  rule : ∀ rule ∈ program.rules, ∀ binding, Admitted program rule binding →
    (∀ literal ∈ rule.body.fluentLiterals, literal.HoldsIn (leastModel program strata) binding) →
    List.Forall₂ (· ∈ ·) binding (domains.ruleDomains rule)
  static : ∀ atom ∈ program.staticAtoms, ∀ pos object, atom.objects[pos]? = some object →
    pos < program.arity (.staticPredicate atom.relation) →
      object ∈ (domains.symbolDomains (.staticPredicate atom.relation)).getD pos []
  fluent : ∀ atom ∈ leastModel program strata, ∀ pos object, atom.objects[pos]? = some object →
    pos < program.arity (.fluentPredicate atom.relation) →
      object ∈ (domains.symbolDomains (.fluentPredicate atom.relation)).getD pos []

open ProgramDomains in
theorem ProgramVariableDomains.compute_sound {program : Program} {strata : List (List Rule)}
    (rules : ∀ stratum ∈ strata, ∀ rule ∈ stratum, rule ∈ program.rules) :
    (ProgramVariableDomains.compute program).Sound program strata := by
  constructor
  · intro rule _ binding admitted _
    exact forall₂_toVariableDomainList admitted.length (inDomains_rule admitted)
  · intro atom mem pos object found inRange
    exact mem_toVariableDomainList inRange
      (((staticAtom_covered mem).mono staticSets_le_liftedSets) pos object found)
  · intro atom mem pos object found inRange
    exact mem_toVariableDomainList inRange (leastModel_covered rules mem pos object found)

end

/-- The domains of a task contain the bindings that can be applied, the instances of
effects that fire, the bindings of axioms that hold and the objects of all atoms, in
every reachable state; those of a program contain the bindings of rules that hold in
its least model, and the objects of its facts. -/
theorem computeVariableDomains_sound :
    (∀ (task : Planning.LiftedTask) (semantics : Tyr.Planning.TaskSemantics task),
      StrictNumerics semantics → ∀ state, semantics.Reachable state →
        (TaskVariableDomains.compute task).SoundIn semantics state) ∧
    ∀ (program : Datalog.Program) (strata : List (List Datalog.Rule)),
      (∀ stratum ∈ strata, ∀ rule ∈ stratum, rule ∈ program.rules) →
        (ProgramVariableDomains.compute program).Sound program strata := by
  refine ⟨fun task semantics strict state reachable => ?_, fun program strata rules => ?_⟩
  · exact TaskVariableDomains.compute_sound strict reachable
  · exact ProgramVariableDomains.compute_sound rules

/-! ### A task -/

/-- The action with one parameter `x` that adds `q(x)` where the static `p(x)` holds. -/
def mark : Planning.Action where
  arity := 1
  condition := { staticLiterals := [⟨⟨0, [.parameter 0]⟩, true⟩] }
  effects := [{ effect := { literals := [⟨⟨0, [.parameter 0]⟩, true⟩] } }]
  closed index occurs := by
    simp [Planning.ConjunctiveCondition.terms] at occurs
    omega

/-- Two objects, of which `p` holds for the first. -/
def markTask : Planning.LiftedTask where
  objects := [0, 1]
  arity _ := 1
  staticAtoms := [⟨0, [0]⟩]
  fluentAtoms := []
  staticFtermValues := []
  fluentFtermValues := []
  actions := [mark]
  axioms := []
  goal := {}
  effects_closed action mem effect memEffect literal memLiteral index occurs := by
    obtain rfl := List.mem_singleton.mp mem
    obtain rfl := List.mem_singleton.mp memEffect
    obtain rfl := List.mem_singleton.mp memLiteral
    simp at occurs
    subst occurs
    decide
  heads_closed ax mem := absurd mem List.not_mem_nil

open Tyr.Planning in
def markSemantics : TaskSemantics markTask where
  axiomLayers := []
  mem_axioms _ mem := absurd mem List.not_mem_nil
  constraintHolds valuation constraint :=
    (∀ fterm ∈ constraint.lhs.fterms ++ constraint.rhs.fterms, valuation fterm ≠ .nan) ∧
      constraint.evaluate valuation = true
  effectsAccepted _ _ _ := True
  successorValues state _ _ := state.fluentValues

/-- After `mark(0)` the atom `q(0)` holds, so the domain of `q` contains 0. -/
theorem computeVariableDomains_sound_mark :
    0 ∈ ((TaskVariableDomains.compute markTask).symbolDomains (.fluentPredicate 0)).getD 0 [] := by
  have isBinding : markTask.IsBinding mark.arity [0] := ⟨rfl, by decide⟩
  have noObjects : markTask.IsBinding 0 [] := ⟨rfl, by decide⟩
  have condition : markSemantics.Holds (Tyr.Planning.TaskSemantics.initial markTask) [0]
      mark.condition := by
    refine ⟨⟨fun literal mem => ?_, by simp [mark], by simp [mark]⟩, by simp [mark]⟩
    obtain rfl := List.mem_singleton.mp mem
    exact iff_of_true (by decide) rfl
  have applicable : markSemantics.Applicable (Tyr.Planning.TaskSemantics.initial markTask) mark [0] :=
    ⟨List.mem_singleton_self mark, isBinding, condition, trivial⟩
  have fires : markSemantics.Fires (Tyr.Planning.TaskSemantics.initial markTask) [0]
      { effect := { literals := [⟨⟨0, [.parameter 0]⟩, true⟩] } } [] := by
    refine ⟨noObjects, ⟨⟨?_, ?_, ?_⟩, ?_⟩⟩ <;> simp
  have added : (⟨0, [0]⟩ : Tuple) ∈ (markSemantics.successor
      (Tyr.Planning.TaskSemantics.initial markTask) mark [0]).fluentAtoms :=
    .inl ⟨_, List.mem_singleton_self _, [], fires, _, List.mem_singleton_self _, rfl, rfl⟩
  exact (computeVariableDomains_sound.1 markTask markSemantics
    (fun _ _ holds => holds.1) _ (.successor .initial applicable)).fluent ⟨0, [0]⟩ added 0 0 rfl
      (by decide)

end Tyr.Analysis
