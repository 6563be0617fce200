import Tyr.Formalism.Atom
import Tyr.Formalism.Unification.Substitution

/-!
Matching and applying substitutions.

Matching walks over the terms of two structures of the same shape and binds the
parameters of two substitutions, `sigma` and `counted`. A parameter outside of
both domains is rigid.

* `matchTerm` — match two terms under the default policy.
* `Literal.match` — match two literals with an empty `counted` domain.
* `applySubstitutionFixpoint` — follow the bindings of a parameter.
-/

namespace Tyr.Formalism.Unification

inductive ParameterRole where
  | rigid
  | sigma
  | counted
  | ignored
deriving DecidableEq, Repr

structure MatchState where
  sigma : SubstitutionFunction Term
  counted : SubstitutionFunction Term
deriving DecidableEq

namespace SubstitutionFunction

variable {T : Type*} [DecidableEq T]

/-- `assign_or_check`, on a parameter of the domain: an unbound parameter is
bound, a bound one has to have the value. -/
def assignOrCheck (sigma : SubstitutionFunction T) (p : Nat) (value : T) :
    Option (SubstitutionFunction T) :=
  match sigma.get p with
  | none => some (sigma.bind p value)
  | some old => if old = value then some sigma else none

end SubstitutionFunction

/-! ### The default policy -/

namespace MatchState

variable (state : MatchState)

def resolveRole (p : Nat) : ParameterRole :=
  if state.sigma.containsParameter p then .sigma
  else if state.counted.containsParameter p then .counted
  else .rigid

def assignSigma (p : Nat) (value : Term) : Option MatchState :=
  (state.sigma.assignOrCheck p value).map fun sigma => { state with sigma := sigma }

def assignCounted (p : Nat) (value : Term) : Option MatchState :=
  (state.counted.assignOrCheck p value).map fun counted => { state with counted := counted }

end MatchState

def matchParameterParameter (lhs rhs : Nat) (state : MatchState) : Option MatchState :=
  let lhsRole := state.resolveRole lhs
  let rhsRole := state.resolveRole rhs
  if lhsRole = .ignored ∨ rhsRole = .ignored then some state
  else if lhsRole = .sigma then state.assignSigma lhs (.parameter rhs)
  else if lhsRole = .counted then state.assignCounted lhs (.parameter rhs)
  else if rhsRole = .sigma then state.assignSigma rhs (.parameter lhs)
  else if rhsRole = .counted then state.assignCounted rhs (.parameter lhs)
  else if lhs = rhs then some state
  else none

/-- `match_parameter_object` and, with the sides exchanged, `match_object_parameter`. -/
def matchParameterObject (p : Nat) (object : Term) (state : MatchState) : Option MatchState :=
  match state.resolveRole p with
  | .sigma => state.assignSigma p object
  | .counted => state.assignCounted p object
  | .ignored => some state
  | .rigid => none

def matchTerm (pattern element : Term) (state : MatchState) : Option MatchState :=
  match pattern, element with
  | .parameter lhs, .parameter rhs => matchParameterParameter lhs rhs state
  | .parameter lhs, .object rhs => matchParameterObject lhs (.object rhs) state
  | .object lhs, .parameter rhs => matchParameterObject rhs (.object lhs) state
  | .object lhs, .object rhs => if lhs = rhs then some state else none

/-! ### Structures -/

/-- `zip_terms` with `match_term` on two lists: they have the same length. -/
def matchTerms : List Term → List Term → MatchState → Option MatchState
  | [], [], state => some state
  | pattern :: patterns, element :: elements, state =>
      (matchTerm pattern element state).bind (matchTerms patterns elements)
  | _, _, _ => none

def matchAtom (pattern element : Atom) (state : MatchState) : Option MatchState :=
  if pattern.predicate = element.predicate then matchTerms pattern.terms element.terms state
  else none

def matchLiteral (pattern element : Literal) (state : MatchState) : Option MatchState :=
  if pattern.polarity = element.polarity then matchAtom pattern.atom element.atom state else none

/-- `match` with a substitution only. -/
def matchSigma (pattern element : Literal) (sigma : SubstitutionFunction Term) :
    Option (SubstitutionFunction Term) :=
  (matchLiteral pattern element ⟨sigma, SubstitutionFunction.fromRange 0 0⟩).map MatchState.sigma

/-! ### Applying a substitution -/

/-- The loop of `apply_substitution_fixpoint`. Each round sees one more bound
parameter, so one round more than there are parameters is enough. -/
def fixpointLoop (rho : SubstitutionFunction Term) : Nat → List Nat → Term → Term
  | 0, _, current => current
  | _ + 1, _, .object object => .object object
  | rounds + 1, seen, .parameter p =>
      if p ∈ seen then .parameter p
      else
        match rho.get p with
        | none => .parameter p
        | some value => fixpointLoop rho rounds (p :: seen) value

def applySubstitutionFixpoint (rho : SubstitutionFunction Term) (term : Term) : Term :=
  fixpointLoop rho (rho.parameters.length + 1) [] term

def applyAtom (rho : SubstitutionFunction Term) (atom : Atom) : Atom :=
  ⟨atom.predicate, atom.terms.map (applySubstitutionFixpoint rho)⟩

def applyLiteral (rho : SubstitutionFunction Term) (literal : Literal) : Literal :=
  ⟨applyAtom rho literal.atom, literal.polarity⟩

end Tyr.Formalism.Unification
