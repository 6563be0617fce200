import Mathlib.Algebra.Group.Defs
import Mathlib.Tactic.Tauto

/-!
Weighted paths of a labelled successor function.

`Path succ s t c` says that `t` can be reached from `s` by steps of total weight
`c`. `Path.frontier` is the argument behind every best-first search: if the
closed vertices pass what is known about them on to their successors, then on
every path either the last vertex is closed or there is a first vertex that is
not, and what is known about it is the weight of the path so far.
-/

namespace Tyr.Lib

variable {σ ι W : Type*} [AddMonoid W]

/-- `t` is reachable from `s` by steps of total weight `c`. -/
inductive Path (succ : σ → List (ι × σ × W)) : σ → σ → W → Prop where
  | nil (s : σ) : Path succ s s 0
  | cons {s m t : σ} {l : ι} {w c : W} : (l, m, w) ∈ succ s → Path succ m t c → Path succ s t (w + c)

variable {succ : σ → List (ι × σ × W)}

/-- Along a path, either the target is closed, or some vertex on it is the first
one that is not closed; `known v q` is what is recorded about `v` at weight `q`. -/
theorem Path.frontier {closed : σ → Prop} {known : σ → W → Prop}
    (passes : ∀ v q, closed v → known v q → ∀ l m w, (l, m, w) ∈ succ v → known m (q + w))
    {s t : σ} {c q : W} (path : Path succ s t c) (start : known s q) :
    closed t ∨ ∃ m c₁ c₂, Path succ s m c₁ ∧ Path succ m t c₂ ∧ c = c₁ + c₂ ∧
      ¬ closed m ∧ known m (q + c₁) := by
  induction path generalizing q with
  | nil s =>
      by_cases isClosed : closed s
      · exact .inl isClosed
      · exact .inr ⟨s, 0, 0, .nil s, .nil s, (add_zero 0).symm, isClosed, by rwa [add_zero]⟩
  | @cons s m t l w c mem rest ih =>
      by_cases isClosed : closed s
      · rcases ih (passes s q isClosed start l m w mem) with done | ⟨v, c₁, c₂, pre, post, sum, hit, val⟩
        · exact .inl done
        · refine .inr ⟨v, w + c₁, c₂, .cons mem pre, post, ?_, hit, ?_⟩
          · rw [sum, add_assoc]
          · rwa [← add_assoc]
      · exact .inr ⟨s, 0, w + c, .nil s, .cons mem rest, (zero_add _).symm, isClosed,
          by rwa [add_zero]⟩

end Tyr.Lib
