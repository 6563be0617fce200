import Tyr.Formalism.FunctionExpression

/-!
Equality of function expressions and of comparisons is decidable.
-/

namespace Tyr.Formalism

variable {FTerm : Type*} [DecidableEq FTerm]

namespace FunctionExpression

mutual

/-- Are the expressions built alike? -/
def same : FunctionExpression FTerm → FunctionExpression FTerm → Bool
  | number lhs, number rhs => lhs == rhs
  | neg lhs, neg rhs => same lhs rhs
  | binary op lhs rhs, binary op' lhs' rhs' => op == op' && same lhs lhs' && same rhs rhs'
  | multi op front rest, multi op' front' rest' => op == op' && same front front' && sameAll rest rest'
  | fterm lhs, fterm rhs => lhs == rhs
  | _, _ => false

def sameAll : List (FunctionExpression FTerm) → List (FunctionExpression FTerm) → Bool
  | [], [] => true
  | lhs :: rest, rhs :: rest' => same lhs rhs && sameAll rest rest'
  | _, _ => false

end

mutual

theorem same_iff : ∀ lhs rhs : FunctionExpression FTerm, same lhs rhs = true ↔ lhs = rhs
  | number _, rhs => by cases rhs <;> simp [same]
  | neg lhs, rhs => by
      cases rhs with
      | neg rhs => simp [same, same_iff lhs rhs]
      | _ => simp [same]
  | binary _ lhs rhs, expr => by
      cases expr with
      | binary _ lhs' rhs' => simp [same, same_iff lhs lhs', same_iff rhs rhs', and_assoc]
      | _ => simp [same]
  | multi _ front rest, expr => by
      cases expr with
      | multi _ front' rest' => simp [same, same_iff front front', sameAll_iff rest rest', and_assoc]
      | _ => simp [same]
  | fterm _, rhs => by cases rhs <;> simp [same]

theorem sameAll_iff : ∀ lhs rhs : List (FunctionExpression FTerm), sameAll lhs rhs = true ↔ lhs = rhs
  | [], rhs => by cases rhs <;> simp [sameAll]
  | lhs :: rest, exprs => by
      cases exprs with
      | nil => simp [sameAll]
      | cons rhs rest' => simp [sameAll, same_iff lhs rhs, sameAll_iff rest rest']

end

instance : DecidableEq (FunctionExpression FTerm) := fun lhs rhs =>
  decidable_of_iff _ (same_iff lhs rhs)

end FunctionExpression

instance : DecidableEq (BooleanOperator FTerm) := fun lhs rhs =>
  decidable_of_iff (lhs.op = rhs.op ∧ lhs.lhs = rhs.lhs ∧ lhs.rhs = rhs.rhs) (by
    cases lhs
    cases rhs
    simp)

end Tyr.Formalism
