import Mathlib.Data.List.Induction
import Mathlib.Logic.Relation

/-!
Worklists.

A loop takes the last item of its worklist, visits it, and puts what the visit returns
behind the others, until nothing is left.

* `Reaches.all` — a property that every visit passes on holds of every item.
* `drain_terminates` — the loop ends if the items that a visit returns are of lower rank.
-/

namespace Tyr.Lib.Worklist

variable {σ α : Type*}

/-- One iteration; there is none on an empty worklist. -/
def step (visit : σ → α → σ × List α) (state : σ × List α) : Option (σ × List α) :=
  match state.2.getLast? with
  | none => none
  | some item => some ((visit state.1 item).1, state.2.dropLast ++ (visit state.1 item).2)

/-- The loop, for a number of iterations; there is no result while items are left. -/
def drain (visit : σ → α → σ × List α) : Nat → σ × List α → Option σ
  | 0, _ => none
  | fuel + 1, state =>
      match step visit state with
      | none => some state.1
      | some next => drain visit fuel next

/-- Any number of iterations. -/
def Reaches (visit : σ → α → σ × List α) : σ × List α → σ × List α → Prop :=
  Relation.ReflTransGen fun state next => step visit state = some next

variable {visit : σ → α → σ × List α}

theorem step_concat (s : σ) (rest : List α) (item : α) :
    step visit (s, rest ++ [item]) = some ((visit s item).1, rest ++ (visit s item).2) := by
  simp [step]

theorem step_nil (s : σ) : step visit (s, []) = none := rfl

/-- A property that every visit passes on holds of every item. -/
theorem Reaches.all {P : α → Prop} (passes : ∀ s item, P item → ∀ new ∈ (visit s item).2, P new)
    {state next : σ × List α} (reaches : Reaches visit state next) (holds : ∀ item ∈ state.2, P item) :
    ∀ item ∈ next.2, P item := by
  induction reaches with
  | refl => exact holds
  | @tail mid last _ one ih =>
      obtain ⟨s, items⟩ := mid
      cases items using List.reverseRecOn with
      | nil => cases one
      | append_singleton rest item =>
          rw [step_concat] at one
          cases one
          intro new mem
          rcases List.mem_append.mp mem with before | pushed
          · exact ih new (List.mem_append_left _ before)
          · exact passes s item (ih item (by simp)) new pushed

section

variable {P : α → Prop} {rank : α → Nat}
  (lower : ∀ s item, P item → ∀ new ∈ (visit s item).2, P new ∧ rank new < rank item)

include lower

/-- The items of rank below `bound` at the end of the worklist are gone after some iterations. -/
theorem drain_append (bound : Nat) {items : List α} (holds : ∀ item ∈ items, P item ∧ rank item < bound)
    (s : σ) (rest : List α) :
    ∃ iterations s', ∀ fuel,
      drain visit (fuel + iterations) (s, rest ++ items) = drain visit fuel (s', rest) := by
  induction bound generalizing items s rest with
  | zero =>
      cases items with
      | nil => exact ⟨0, s, fun fuel => by simp⟩
      | cons item _ => exact absurd (holds item List.mem_cons_self).2 (Nat.not_lt_zero _)
  | succ bound ih =>
      induction items using List.reverseRecOn generalizing s with
      | nil => exact ⟨0, s, fun fuel => by simp⟩
      | append_singleton front item ihItems =>
          obtain ⟨good, below⟩ := holds item (by simp)
          -- What the visit pushes is of lower rank than the item.
          have lowerAll : ∀ new ∈ (visit s item).2, P new ∧ rank new < bound := by
            intro new mem
            obtain ⟨goodNew, lowerNew⟩ := lower s item good new mem
            exact ⟨goodNew, by omega⟩
          obtain ⟨n, s₁, pushed⟩ := ih lowerAll (visit s item).1 (rest ++ front)
          obtain ⟨n', s₂, others⟩ := ihItems (fun other mem => holds other (by simp [mem])) s₁
          refine ⟨n' + n + 1, s₂, fun fuel => ?_⟩
          rw [← others, ← Nat.add_assoc, ← Nat.add_assoc, drain, ← List.append_assoc, step_concat]
          exact pushed (fuel + n')

/-- The loop ends. -/
theorem drain_terminates {items : List α} (holds : ∀ item ∈ items, P item) (s : σ) :
    ∃ iterations s', ∀ fuel, iterations ≤ fuel → drain visit fuel (s, items) = some s' := by
  obtain ⟨bound, below⟩ : ∃ bound, ∀ item ∈ items, rank item < bound := by
    clear holds
    induction items with
    | nil => exact ⟨0, by simp⟩
    | cons item rest ih =>
        obtain ⟨bound, below⟩ := ih
        refine ⟨max (rank item + 1) bound, fun other mem => ?_⟩
        rcases List.mem_cons.mp mem with rfl | later
        · omega
        · have lower := below other later
          omega
  obtain ⟨n, s', gone⟩ := drain_append lower bound (fun item mem => ⟨holds item mem, below item mem⟩) s []
  refine ⟨n + 1, s', fun fuel enough => ?_⟩
  obtain ⟨more, rfl⟩ := Nat.exists_eq_add_of_le enough
  have run := gone (more + 1)
  rw [List.nil_append] at run
  rw [Nat.add_right_comm, Nat.add_comm n more, Nat.add_right_comm, run, drain, step_nil]

end

end Tyr.Lib.Worklist
