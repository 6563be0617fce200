import Mathlib.Data.List.Basic

/-!
Terms, atoms and literals.

Objects, predicates and functions are their indices, one index space for each
kind of predicate or function. A binding is the list of the objects of the
parameters.
-/

namespace Tyr.Formalism

inductive Term where
  | parameter (index : Nat)
  | object (index : Nat)
deriving DecidableEq, Repr

structure Atom where
  predicate : Nat
  terms : List Term
deriving DecidableEq, Repr

structure Literal where
  atom : Atom
  polarity : Bool
deriving DecidableEq, Repr

/-- A ground atom or the name of a ground function term. -/
structure Tuple where
  relation : Nat
  objects : List Nat
deriving DecidableEq, Repr

/-! ### Grounding -/

/-- The object of a term; a parameter reads the binding at its index. -/
def Term.ground (binding : List Nat) : Term → Nat
  | parameter index => binding.getD index 0
  | object index => index

def Atom.ground (binding : List Nat) (atom : Atom) : Tuple :=
  ⟨atom.predicate, atom.terms.map (Term.ground binding)⟩

theorem Atom.ground_congr {binding binding' : List Nat} {atom : Atom}
    (agree : ∀ term ∈ atom.terms, term.ground binding = term.ground binding') :
    atom.ground binding = atom.ground binding' := by
  rw [Atom.ground, Atom.ground, List.map_congr_left agree]

end Tyr.Formalism
