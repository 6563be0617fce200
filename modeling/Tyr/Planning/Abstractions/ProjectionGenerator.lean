import Tyr.Lib.Fold
import Tyr.Formalism.Unification.Matching
import Tyr.Planning.Abstractions.TaskProjection
import Mathlib.Data.List.GetD

/-!
The labels of the transitions of a projection.

A transition of the projected action is found by matching its effects with the
difference of two abstract states and by choosing the effects that fire. The
substitution of its parameters is translated to the parameters of the original
action.

* `forEachUnifier` — the substitutions of the projected action.
* `liftSubstitutionToOriginal` — the substitution of the original action.
* `lift_eq_some` — what it binds if no quantified variable is numbered before a
  kept parameter.
-/

namespace Tyr.Planning

open Tyr.Formalism Tyr.Formalism.Planning Tyr.Formalism.Unification

/-! ### Atoms -/

def isObject : Term → Bool
  | .parameter _ => false
  | .object _ => true

def isGround (atom : Atom) : Bool := atom.terms.all isObject

/-- A ground atom as an atom. -/
def groundAtom (atom : Tuple) : Atom := ⟨atom.relation, atom.objects.map Term.object⟩

def differenceAtoms (lhs rhs : List Atom) : List Atom := lhs.filter (· ∉ rhs)

def literalHolds (literal : Literal) (atoms : List Atom) : Bool :=
  if literal.polarity then literal.atom ∈ atoms else literal.atom ∉ atoms

def sameAtomSet (lhs rhs : List Atom) : Bool := lhs.length == rhs.length && lhs.all (· ∈ rhs)

def pushUnique (atoms : List Atom) (atom : Atom) : List Atom :=
  if atom ∈ atoms then atoms else atoms ++ [atom]

/-! ### Conditions -/

/-- The substitutions of a projected action and of the variables of its effects. -/
abbrev Sigma := SubstitutionFunction Term

def computeSigmaDomainSize (action : MutableAction) : Nat :=
  action.effects.foldl (fun size effect => max size (effect.numParentVariables + effect.numVariables))
    action.numVariables

def makeSigma (action : MutableAction) : Sigma :=
  SubstitutionFunction.fromRange 0 (computeSigmaDomainSize action)

/-- `satisfy_static_literals_rec`: a ground literal is tested, a positive one that
is not ground is matched with each static atom. -/
def satisfyStaticLiterals (staticAtoms : List Atom) : List Literal → Sigma → List Sigma
  | [], sigma => [sigma]
  | literal :: rest, sigma =>
      let literal := applyLiteral sigma literal
      if isGround literal.atom then
        if literalHolds literal staticAtoms then satisfyStaticLiterals staticAtoms rest sigma else []
      else if !literal.polarity then []
      else
        staticAtoms.flatMap fun atom =>
          match matchSigma literal ⟨atom, literal.polarity⟩ sigma with
          | none => []
          | some matched => satisfyStaticLiterals staticAtoms rest matched

/-- The visible ground literals hold, all others are ignored. -/
def visibleFluentLiteralsHold (literals : List Literal) (srcAtoms visible : List Atom) (sigma : Sigma) :
    Bool :=
  literals.all fun literal =>
    let literal := applyLiteral sigma literal
    !isGround literal.atom || decide (literal.atom ∉ visible) || literalHolds literal srcAtoms

def satisfyConditionBindings (condition : MutableConjunctiveCondition)
    (staticAtoms srcAtoms visible : List Atom) (sigma : Sigma) : List Sigma :=
  (satisfyStaticLiterals staticAtoms condition.staticLiterals sigma).filter
    (visibleFluentLiteralsHold condition.fluentLiterals srcAtoms visible)

/-! ### Effects -/

/-- The literals of the effects with the polarity, matched with the target. -/
def matchEffectLiterals (action : MutableAction) (target : Atom) (polarity : Bool) (sigma : Sigma) :
    List Sigma :=
  action.effects.flatMap fun effect =>
    (effect.literals.filter fun literal => literal.polarity == polarity).filterMap fun literal =>
      matchSigma literal ⟨target, polarity⟩ sigma

/-- Match an effect literal of the polarity with each of the targets. -/
def unifyTargets (action : MutableAction) (polarity : Bool) : List Atom → Sigma → List Sigma
  | [], sigma => [sigma]
  | target :: rest, sigma =>
      (matchEffectLiterals action target polarity sigma).flatMap (unifyTargets action polarity rest)

/-- `unify_changes_rec`: the added atoms first, then the deleted ones. -/
def unifyChanges (action : MutableAction) (added deleted : List Atom) (sigma : Sigma) : List Sigma :=
  (unifyTargets action true added sigma).flatMap (unifyTargets action false deleted)

/-- The visible atoms that the fired effects add and delete. -/
structure Produced where
  add : List Atom := []
  del : List Atom := []

/-- Realize the literals of an effect that fires. There is no result if an atom is
not ground or the target state disagrees. -/
def produce (dstAtoms visible : List Atom) : List Literal → Produced → Option Produced
  | [], produced => some produced
  | literal :: rest, produced =>
      if !isGround literal.atom then none
      else if literal.atom ∉ visible then produce dstAtoms visible rest produced
      else if literal.polarity then
        if literal.atom ∉ dstAtoms then none
        else produce dstAtoms visible rest { produced with add := pushUnique produced.add literal.atom }
      else
        if literal.atom ∈ dstAtoms then none
        else produce dstAtoms visible rest { produced with del := pushUnique produced.del literal.atom }

/-- What does not change while the effects of an action are enumerated. -/
structure AbstractChange where
  srcAtoms : List Atom
  dstAtoms : List Atom
  visible : List Atom
  staticAtoms : List Atom

namespace AbstractChange

variable (change : AbstractChange)

/-- The change of the atoms of the pattern between two states. -/
def ofStates (pattern : Pattern) (staticAtoms : List Tuple) (src dst : Tuple → Bool) :
    AbstractChange where
  srcAtoms := (pattern.atoms.filter src).map groundAtom
  dstAtoms := (pattern.atoms.filter dst).map groundAtom
  visible := pattern.atoms.map groundAtom
  staticAtoms := staticAtoms.map groundAtom

def added : List Atom := differenceAtoms change.dstAtoms change.srcAtoms

def deleted : List Atom := differenceAtoms change.srcAtoms change.dstAtoms

/-- `enumerate_verified_bindings_rec`: each effect is skipped, or its condition is
satisfied and its literals are realized. The fired effects have to explain exactly
the difference. -/
def enumerateVerifiedBindings : List MutableConditionalEffect → Sigma → Produced → List Sigma
  | [], sigma, produced =>
      if !sameAtomSet produced.add change.added then []
      else if !sameAtomSet produced.del change.deleted then []
      else if produced.add.isEmpty && produced.del.isEmpty then []
      else [sigma]
  | effect :: rest, sigma, produced =>
      enumerateVerifiedBindings rest sigma produced ++
        (satisfyConditionBindings effect.condition change.staticAtoms change.srcAtoms change.visible
          sigma).flatMap fun sigmaEff =>
            match produce change.dstAtoms change.visible (effect.literals.map (applyLiteral sigmaEff))
              produced with
            | none => []
            | some produced => enumerateVerifiedBindings rest sigmaEff produced

/-- The substitutions of all variables that explain the change. -/
def explanations (action : MutableAction) : List Sigma :=
  (unifyChanges action change.added change.deleted (makeSigma action)).flatMap fun sigma₀ =>
    (satisfyConditionBindings action.condition change.staticAtoms change.srcAtoms change.visible
      sigma₀).flatMap fun sigma₁ => change.enumerateVerifiedBindings action.effects sigma₁ {}

end AbstractChange

/-! ### Substitutions by objects -/

/-- The objects that are bound to the first parameters; there is no result if one
of these is bound to a variable. -/
def toObjectSubstitution (sigma : Sigma) (numActionParameters : Nat) :
    Option (SubstitutionFunction Nat) :=
  (List.range numActionParameters).foldlM (fun result p =>
    match sigma.get p with
    | none => some result
    | some (.parameter _) => none
    | some (.object object) => (result.assign p object).map Prod.snd)
    (SubstitutionFunction.fromRange 0 numActionParameters)

/-- `for_each_unifier`: each substitution of the parameters is listed once. -/
def forEachUnifier (action : MutableAction) (change : AbstractChange) : List (SubstitutionFunction Nat) :=
  (change.explanations action).foldl (fun seen sigma =>
    match toObjectSubstitution sigma action.numVariables with
    | none => seen
    | some objects => if objects ∈ seen then seen else seen ++ [objects]) []

/-- The bound parameters of the projected action are assigned to the variables of
the original action; there is no result if one of these is not a parameter, where
the source throws. -/
def liftSubstitutionToOriginal (projectedSigma : SubstitutionFunction Nat) (originalArity : Nat)
    (projectedToOriginal : List Nat) : Option (SubstitutionFunction Nat) :=
  (List.range projectedToOriginal.length).foldlM (fun result projected =>
    match projectedSigma.get projected with
    | none => some result
    | some object => (result.assign (projectedToOriginal.getD projected 0) object).map Prod.snd)
    (SubstitutionFunction.fromRange 0 originalArity)

/-! ### What the substitutions bind -/

theorem mem_forEachUnifier {action : MutableAction} {change : AbstractChange}
    {objects : SubstitutionFunction Nat} :
    objects ∈ forEachUnifier action change ↔
      ∃ sigma ∈ change.explanations action,
        toObjectSubstitution sigma action.numVariables = some objects := by
  unfold forEachUnifier
  apply (Lib.foldl_iff (P := fun _ => True) (fun seen : List (SubstitutionFunction Nat) => objects ∈ seen)
    (fun sigma : Sigma => toObjectSubstitution sigma action.numVariables = some objects)
    (fun _ _ _ _ => trivial) ?_ trivial).trans
  · simp
  · intro seen _ sigma _
    cases toObjectSubstitution sigma action.numVariables with
    | none => simp
    | some found =>
        dsimp only
        split
        · next present =>
            refine (or_iff_left_of_imp ?_).symm
            rintro ⟨rfl⟩
            exact present
        · simp [eq_comm]

/-- The object of a term that is one. -/
def objectOf : Term → Option Nat
  | .parameter _ => none
  | .object object => some object

/-- The result binds the first parameters as the substitution does. -/
theorem toObjectSubstitution_spec {sigma : Sigma} {n : Nat} {objects : SubstitutionFunction Nat}
    (defined : toObjectSubstitution sigma n = some objects) :
    objects.parameters = List.range' 0 n ∧ ∀ p < n, sigma.get p = (objects.get p).map Term.object := by
  have noVariable : ∀ p < n, ∀ q, sigma.get p ≠ some (.parameter q) := by
    intro p less q bound
    obtain ⟨before, after, split⟩ := List.append_of_mem (List.mem_range.mpr less)
    rw [toObjectSubstitution, split, List.foldlM_append] at defined
    obtain ⟨result, _, rest⟩ := Option.bind_eq_some_iff.mp defined
    rw [List.foldlM_cons, bound] at rest
    cases rest
  have value : ∀ p < n, sigma.get p = ((sigma.get p).bind objectOf).map Term.object := by
    intro p less
    cases bound : sigma.get p with
    | none => rfl
    | some term =>
        cases term with
        | parameter q => exact absurd bound (noVariable p less q)
        | object object => rfl
  obtain ⟨result, loop, domain, bound, _⟩ := @SubstitutionFunction.foldlM_assign _
    (SubstitutionFunction.fromRange 0 n)
    (fun result p =>
      match sigma.get p with
      | none => some result
      | some (.parameter _) => none
      | some (.object object) => (result.assign p object).map Prod.snd)
    id (fun p => (sigma.get p).bind objectOf) n
    (by
      intro p less unbound result
      have free := value p less
      rw [unbound] at free
      rw [free]
      rfl)
    (by
      intro p less object bound result
      have given := value p less
      rw [bound] at given
      rw [given]
      rfl)
    (fun p less _ _ => SubstitutionFunction.mem_parameters_fromRange.mpr less)
    (fun _ _ _ _ same => same)
    (fun p _ => SubstitutionFunction.get_unbound p)
  have same : objects = result := Option.some.inj (defined.symm.trans loop)
  subst same
  refine ⟨domain, fun p less => ?_⟩
  rw [show objects.get p = _ from bound p less]
  exact value p less

section

variable {action : Action} {pattern : Pattern}

/-- Without a quantified variable before a kept parameter, exactly the kept
parameters of the original action are bound as in the projected action. -/
theorem ParametersFirst.lift_eq_some (first : ParametersFirst action pattern)
    {objects : SubstitutionFunction Nat}
    (domain : objects.parameters = List.range' 0 (keptParameters action pattern).length) :
    ∃ lifted, liftSubstitutionToOriginal objects action.arity
        (computeVariableRemapping action pattern).projectedToOriginal = some lifted ∧
      lifted.parameters = List.range' 0 action.arity ∧
      ∀ p ∈ keptParameters action pattern,
        lifted.get p = objects.get ((computeVariableRemapping action pattern).lookup p) := by
  have nodup := (computeVariableRemapping action pattern).nodup
  have position : ∀ i < (computeVariableRemapping action pattern).projectedToOriginal.length,
      (computeVariableRemapping action pattern).lookup
        ((computeVariableRemapping action pattern).projectedToOriginal.getD i 0) = i := by
    intro i less
    rw [List.getD_eq_getElem _ _ less]
    exact nodup.idxOf_getElem i less
  obtain ⟨lifted, loop, parameters, bound, _⟩ := @SubstitutionFunction.foldlM_assign _
    (SubstitutionFunction.fromRange 0 action.arity)
    (fun result projected =>
      match objects.get projected with
      | none => some result
      | some object => (result.assign ((computeVariableRemapping action pattern).projectedToOriginal.getD
          projected 0) object).map Prod.snd)
    (fun i => (computeVariableRemapping action pattern).projectedToOriginal.getD i 0) objects.get
    (computeVariableRemapping action pattern).projectedToOriginal.length
    (fun i _ unbound result => by rw [unbound])
    (fun i _ object bound result => by rw [bound])
    (by
      -- A bound parameter of the projected action is a kept parameter of the original one.
      intro i less object bound
      have inside := SubstitutionFunction.mem_parameters_of_get bound
      rw [domain, List.mem_range'_1] at inside
      apply SubstitutionFunction.mem_parameters_fromRange.mpr
      rw [List.getD_eq_getElem _ _ less]
      apply first
      exact List.mem_take_iff_getElem.mpr ⟨i, by omega, rfl⟩)
    (fun i less j less' same => by rw [← position i less, same, position j less'])
    (fun i _ => SubstitutionFunction.get_unbound _)
  refine ⟨lifted, loop, parameters, fun p kept => ?_⟩
  have occurs := (mem_keptParameters.mp kept).2
  have less := List.idxOf_lt_length_of_mem occurs
  have original := bound _ less
  rw [List.getD_eq_getElem _ _ less, List.getElem_idxOf less] at original
  exact original

/-- The parameters of the projected action are the kept ones of the original
action, and each label binds the original parameters to the objects that the
projected ones have in the transition. -/
structure LabelsLift (action : Action) (pattern : Pattern) (staticAtoms : List Tuple) : Prop where
  correspond : Set.BijOn (computeVariableRemapping action pattern).lookup
    {p | p ∈ keptParameters action pattern} {i | i < (projectAction action pattern).numVariables}
  lifts : ∀ src dst, ∀ objects ∈ forEachUnifier (projectAction action pattern)
      (AbstractChange.ofStates pattern staticAtoms src dst),
    ∃ lifted, liftSubstitutionToOriginal objects action.arity
        (computeVariableRemapping action pattern).projectedToOriginal = some lifted ∧
      (∀ p object, lifted.get p = some object → p < action.arity) ∧
      ∀ p ∈ keptParameters action pattern,
        lifted.get p = objects.get ((computeVariableRemapping action pattern).lookup p) ∧
        ∀ sigma ∈ (AbstractChange.ofStates pattern staticAtoms src dst).explanations
            (projectAction action pattern),
          toObjectSubstitution sigma (projectAction action pattern).numVariables = some objects →
            sigma.get ((computeVariableRemapping action pattern).lookup p) =
              (lifted.get p).map Term.object

/-- The labels lift exactly if no quantified variable is numbered before a kept
parameter. -/
theorem labelsLift_iff (action : Action) (pattern : Pattern) (staticAtoms : List Tuple) :
    LabelsLift action pattern staticAtoms ↔ ParametersFirst action pattern := by
  constructor
  · exact fun labels => parameters_correspond_iff.mp labels.correspond
  · intro first
    refine ⟨parameters_correspond_iff.mpr first, fun src dst objects produced => ?_⟩
    obtain ⟨sigma, _, defined⟩ := mem_forEachUnifier.mp produced
    obtain ⟨lifted, lift, domain, bound⟩ := first.lift_eq_some (toObjectSubstitution_spec defined).1
    refine ⟨lifted, lift, fun p object value => ?_, fun p kept => ⟨bound p kept, ?_⟩⟩
    · have inside := SubstitutionFunction.mem_parameters_of_get value
      rw [domain, List.mem_range'_1] at inside
      omega
    · intro sigma _ defined
      rw [bound p kept]
      exact (toObjectSubstitution_spec defined).2 _ (first.lookup_lt kept)

end

/-- An action with one parameter: all objects get the first predicate, and the
object of the parameter gets the second one. -/
def quantifiedFirst : Action where
  arity := 1
  effects := [{ arity := 1, effect := { literals := [⟨⟨0, [.parameter 1]⟩, true⟩] } },
    { effect := { literals := [⟨⟨1, [.parameter 0]⟩, true⟩] } }]
  closed := fun _ occurs => absurd occurs List.not_mem_nil

/-- The quantified variable is numbered before the parameter, and a label assigns
its object to a variable outside of the action's parameters. -/
theorem not_labelsLift_quantifiedFirst :
    ¬ LabelsLift quantifiedFirst ⟨[⟨0, [5]⟩, ⟨1, [5]⟩], by decide⟩ [] := by
  intro labels
  have produced : ((SubstitutionFunction.fromRange 0 1).bind 0 5) ∈
      forEachUnifier (projectAction quantifiedFirst ⟨[⟨0, [5]⟩, ⟨1, [5]⟩], by decide⟩)
        (AbstractChange.ofStates ⟨[⟨0, [5]⟩, ⟨1, [5]⟩], by decide⟩ [] (fun _ => false) (fun _ => true)) := by
    decide
  obtain ⟨lifted, lift, _⟩ := labels.lifts _ _ _ produced
  cases lift

end Tyr.Planning
