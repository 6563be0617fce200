import Mathlib.Data.Set.Finite.List
import Mathlib.Logic.Relation

/-!
Runs that end.

* `Simulates.run`, `Simulates.acc` — the runs of a system that simulates another one.
* `acc_of_measure` — a step that lowers a measure, as long as an invariant holds, is taken
  finitely often.
* `acc_of_loop` — a loop that ends, and that is left to where all runs end, ends.
* `exists_blocked` — then some run ends in a state without a step.
* `finite_lists` — the lists of one length over a finite set.
-/

namespace Tyr.Lib

section

variable {α β : Type*} {step : α → α → Prop} {step' : β → β → Prop} {f : α → β}
  {invariant : α → Prop} {a b : α}

/-! ### Simulated runs -/

/-- As long as the invariant holds, a step is one of the other system. -/
def Simulates (step : α → α → Prop) (step' : β → β → Prop) (f : α → β) (invariant : α → Prop) :
    Prop :=
  ∀ b c, invariant b → step b c → invariant c ∧ step' (f b) (f c)

/-- A run is one of the other system. -/
theorem Simulates.run (simulates : Simulates step step' f invariant) (start : invariant a)
    (run : Relation.ReflTransGen step a b) :
    invariant b ∧ Relation.ReflTransGen step' (f a) (f b) := by
  induction run with
  | refl => exact ⟨start, .refl⟩
  | tail _ isStep ih =>
      obtain ⟨kept, simulated⟩ := simulates _ _ ih.1 isStep
      exact ⟨kept, ih.2.tail simulated⟩

/-- Runs end if those of the other system do. -/
theorem Simulates.acc (simulates : Simulates step step' f invariant) (start : invariant a)
    (ends : Acc (fun c b => step' b c) (f a)) : Acc (fun c b => step b c) a := by
  generalize same : f a = value at ends
  induction ends generalizing a with
  | intro value _ ih =>
      constructor
      intro b isStep
      obtain ⟨kept, simulated⟩ := simulates a b start isStep
      exact ih (f b) (same ▸ simulated) kept rfl

/-- No run from a state of the invariant goes on forever, if each step lowers a measure. -/
theorem acc_of_measure {lt : β → β → Prop} (wellFounded : WellFounded lt)
    (keeps : ∀ b c, invariant b → step b c → invariant c) (measure : α → β)
    (lowers : ∀ b c, invariant b → step b c → lt (measure c) (measure b)) (start : invariant a) :
    Acc (fun c b => step b c) a := by
  have simulates : Simulates step (fun b c => lt c b) measure invariant :=
    fun b c holds isStep => ⟨keeps b c holds isStep, lowers b c holds isStep⟩
  exact simulates.acc start (wellFounded.apply (measure a))

/-- Runs through a loop end, if the loop does and so does what is run after leaving it. -/
theorem acc_of_loop {loop : β → β → Prop} {head : β → α} {start : β}
    (ends : Acc (fun c b => loop b c) start)
    (leaves : ∀ b, Relation.ReflTransGen loop start b → ∀ c, step (head b) c →
      (∃ b', loop b b' ∧ c = head b') ∨ Acc (fun c b => step b c) c) :
    Acc (fun c b => step b c) (head start) := by
  induction ends with
  | intro start _ ih =>
      constructor
      intro c isStep
      rcases leaves start .refl c isStep with ⟨b', isLoop, rfl⟩ | left
      · exact ih b' isLoop fun b run => leaves b (.head isLoop run)
      · exact left

theorem exists_blocked (ends : Acc (fun c b => step b c) a) :
    ∃ b, Relation.ReflTransGen step a b ∧ ∀ c, ¬ step b c := by
  induction ends with
  | intro a _ ih =>
      by_cases goesOn : ∃ b, step a b
      · obtain ⟨b, isStep⟩ := goesOn
        obtain ⟨c, run, blocked⟩ := ih b isStep
        exact ⟨c, .head isStep run, blocked⟩
      · exact ⟨a, .refl, fun c isStep => goesOn ⟨c, isStep⟩⟩

end

theorem finite_lists {α : Type*} (pool : Finset α) (length : Nat) :
    {list : List α | list.length = length ∧ ∀ x ∈ list, x ∈ pool}.Finite := by
  apply ((List.finite_length_eq {x // x ∈ pool} length).image (List.map Subtype.val)).subset
  rintro list ⟨isLength, inPool⟩
  refine ⟨list.attach.map fun x => ⟨x.1, inPool x.1 x.2⟩, ?_, ?_⟩
  · simpa using isLength
  · rw [List.map_map]
    exact List.attach_map_subtype_val list

end Tyr.Lib
