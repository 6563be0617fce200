import Mathlib.Data.Set.Defs
import Tyr.Formalism.Atom

/-!
Occurrences of predicates and functions.

What an analysis reads of a literal or a function term: the symbol, its terms, and
whether it is negated.
-/

namespace Tyr.Formalism

/-- A predicate or a function. -/
inductive Symbol where
  | staticPredicate (index : Nat)
  | fluentPredicate (index : Nat)
  | derivedPredicate (index : Nat)
  | staticFunction (index : Nat)
  | fluentFunction (index : Nat)
deriving DecidableEq, Repr

structure Occurrence where
  symbol : Symbol
  terms : List Term
  polarity : Bool := true
deriving DecidableEq, Repr

/-- The atom of a literal. -/
def Atom.occurrence (predicate : Nat → Symbol) (atom : Atom) : Occurrence :=
  ⟨predicate atom.predicate, atom.terms, true⟩

def Literal.occurrence (predicate : Nat → Symbol) (literal : Literal) : Occurrence :=
  ⟨predicate literal.atom.predicate, literal.atom.terms, literal.polarity⟩

/-- The literal holds in a set of atoms. -/
def Literal.HoldsIn (atoms : Set Tuple) (binding : List Nat) (literal : Literal) : Prop :=
  literal.atom.ground binding ∈ atoms ↔ literal.polarity = true

end Tyr.Formalism
