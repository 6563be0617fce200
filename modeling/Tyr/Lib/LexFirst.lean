import Mathlib.Order.WellFounded
import Mathlib.Data.Nat.Find
import Mathlib.Tactic.Tauto

/-!
The lexicographically first pair of numbers that satisfies a relation.

A set of pairs is partitioned by its first member: every nonempty relation has
a first pair (`exists_lexFirst`). An enumeration
that reports an object once for its first marked pair thereby reports every
object with a marked pair exactly once.
-/

namespace Tyr.Lib

/-- `(p, q)` comes before `(i, j)` in the lexicographic order. -/
def LexBefore (p q i j : Nat) : Prop := p < i ∨ (p = i ∧ q < j)

/-- `(i, j)` is the lexicographically first pair in `R`. -/
def LexFirst (R : Nat → Nat → Prop) (i j : Nat) : Prop :=
  R i j ∧ ∀ p q, LexBefore p q i j → ¬ R p q

theorem lexBefore_trichotomy (p q i j : Nat) :
    LexBefore p q i j ∨ (p = i ∧ q = j) ∨ LexBefore i j p q := by
  unfold LexBefore
  omega

theorem exists_lexFirst {R : Nat → Nat → Prop} {p q : Nat} (holds : R p q) :
    ∃ i j, LexFirst R i j := by
  classical
  have rows : ∃ i, ∃ j, R i j := ⟨p, q, holds⟩
  have row := Nat.find_spec rows
  refine ⟨Nat.find rows, Nat.find row, Nat.find_spec row, ?_⟩
  rintro p' q' (earlierRow | ⟨rfl, earlier⟩) marked
  · exact Nat.find_min rows earlierRow ⟨q', marked⟩
  · exact Nat.find_min row earlier marked

end Tyr.Lib
