import Mathlib.Data.List.Perm.Basic
import Mathlib.Data.List.Nodup

/-!
Repetitions in a list, and reductions.

Each element of a list has a key. An element is a first occurrence if no element
before it has its key, and a repetition otherwise (`first_append_repeated`).

Reducing a nonempty list by a commutative and associative operation does not
depend on the order of the list (`foldl_eq_of_perm`).
-/

namespace Tyr.Lib

section Repetition

variable {α β : Type*} [DecidableEq β] (key : α → β)

/-- The elements whose keys are neither in `seen` nor occur earlier. -/
def firstOccurrences : List β → List α → List α
  | _, [] => []
  | seen, x :: rest =>
      if key x ∈ seen then firstOccurrences seen rest
      else x :: firstOccurrences (key x :: seen) rest

/-- The elements whose keys are in `seen` or occur earlier. -/
def repeatedOccurrences : List β → List α → List α
  | _, [] => []
  | seen, x :: rest =>
      if key x ∈ seen then x :: repeatedOccurrences seen rest
      else repeatedOccurrences (key x :: seen) rest

variable {key}

theorem first_append_repeated (seen : List β) (list : List α) :
    (firstOccurrences key seen list ++ repeatedOccurrences key seen list).Perm list := by
  induction list generalizing seen with
  | nil => exact List.Perm.refl []
  | cons x rest ih =>
      rw [firstOccurrences, repeatedOccurrences]
      split
      · exact List.perm_middle.trans ((ih seen).cons x)
      · exact (ih (key x :: seen)).cons x

theorem mem_map_firstOccurrences {seen : List β} {list : List α} {k : β} :
    k ∈ (firstOccurrences key seen list).map key ↔ k ∈ list.map key ∧ k ∉ seen := by
  induction list generalizing seen with
  | nil => simp [firstOccurrences]
  | cons x rest ih =>
      rw [firstOccurrences]
      split
      · next present =>
          rw [ih, List.map_cons, List.mem_cons]
          constructor
          · exact fun ⟨mem, new⟩ => ⟨Or.inr mem, new⟩
          · rintro ⟨rfl | mem, new⟩
            · exact absurd present new
            · exact ⟨mem, new⟩
      · next absent =>
          rw [List.map_cons, List.mem_cons, ih, List.map_cons, List.mem_cons, List.mem_cons]
          by_cases isHead : k = key x
          · subst isHead
            simp [absent]
          · simp [isHead]

theorem nodup_map_firstOccurrences (seen : List β) (list : List α) :
    ((firstOccurrences key seen list).map key).Nodup := by
  induction list generalizing seen with
  | nil => exact List.nodup_nil
  | cons x rest ih =>
      rw [firstOccurrences]
      split
      · exact ih seen
      · rw [List.map_cons, List.nodup_cons]
        refine ⟨fun mem => ?_, ih (key x :: seen)⟩
        exact (mem_map_firstOccurrences.mp mem).2 List.mem_cons_self

/-- Different keys are not repetitions. -/
theorem repeatedOccurrences_eq_nil {seen : List β} {list : List α} (nodup : (list.map key).Nodup)
    (new : ∀ x ∈ list, key x ∉ seen) : repeatedOccurrences key seen list = [] := by
  induction list generalizing seen with
  | nil => rfl
  | cons x rest ih =>
      rw [List.map_cons, List.nodup_cons] at nodup
      rw [repeatedOccurrences, if_neg (new x List.mem_cons_self)]
      apply ih nodup.2
      intro y mem
      rw [List.mem_cons, not_or]
      refine ⟨fun same => nodup.1 ?_, new y (List.mem_cons_of_mem x mem)⟩
      exact List.mem_map.mpr ⟨y, mem, same⟩

end Repetition

section Reduction

variable {α : Type*} {op : α → α → α}

/-- Permuting a nonempty list does not change its reduction. -/
theorem foldl_eq_of_perm (comm : ∀ x y, op x y = op y x)
    (rightComm : ∀ x y z, op (op x y) z = op (op x z) y) {x y : α} {xs ys : List α}
    (perm : (x :: xs).Perm (y :: ys)) : xs.foldl op x = ys.foldl op y := by
  have general : ∀ {l l' : List α}, l.Perm l' → ∀ {x xs y ys}, l = x :: xs → l' = y :: ys →
      xs.foldl op x = ys.foldl op y := by
    intro l l' perm
    induction perm with
    | nil => exact fun same => by cases same
    | cons z perm _ =>
        rintro x xs y ys ⟨⟩ ⟨⟩
        exact perm.foldl_eq' (fun _ _ _ _ _ => rightComm _ _ _) _
    | swap z w rest =>
        rintro x xs y ys ⟨⟩ ⟨⟩
        rw [List.foldl_cons, List.foldl_cons, comm]
    | trans first second ih ih' =>
        rintro x xs y ys rfl rfl
        rename_i middle
        cases middle with
        | nil => cases first.eq_nil
        | cons z zs => exact (ih rfl rfl).trans (ih' rfl rfl)
  exact general perm rfl rfl

end Reduction

end Tyr.Lib
