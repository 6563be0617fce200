import Tyr.Formalism.Datalog.Rule
import Tyr.Formalism.Occurrence

/-!
Datalog programs.
-/

namespace Tyr.Formalism.Datalog

/-- The heads of the rules mention the parameters of the rules only. The lists are not
sorted and may repeat their elements, unlike those of a canonicalized program. -/
structure Program where
  objects : List Nat
  arity : Symbol → Nat
  staticAtoms : List Tuple
  fluentAtoms : List Tuple
  staticFtermValues : List (Tuple × Number)
  fluentFtermValues : List (Tuple × Number)
  rules : List Rule
  heads_closed : ∀ rule ∈ rules, ∀ index, .parameter index ∈ rule.head.terms → index < rule.arity

namespace Program

variable (program : Program)

/-- The values of the function terms of a kind. -/
def ftermValues : FactKind → List (Tuple × Number)
  | .static => program.staticFtermValues
  | .fluent => program.fluentFtermValues

/-- The value of a function term, not a number if it is not listed. -/
def value (kind : FactKind) (fterm : Tuple) : Number :=
  ((program.ftermValues kind).lookup fterm).getD .nan

end Program

end Tyr.Formalism.Datalog
