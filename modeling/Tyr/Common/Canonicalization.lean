import Mathlib.Data.List.Sort
import Mathlib.Data.Prod.Lex
import Mathlib.SetTheory.Cardinal.Order

/-!
Canonical lists.

A list of indices is made canonical by sorting it and removing repetitions.

* `pairwise_canonicalize` — the result is strictly increasing.
* `canonicalize_congr` — the result depends on the elements of the list only.
-/

namespace Tyr.IndexList

variable {α : Type*} [LinearOrder α]

/-- `std::is_sorted`. -/
def isCanonical (list : List α) : Bool := decide (list.Pairwise (· ≤ ·))

/-- `std::unique`: one element of each run of equal elements is kept. -/
def unique : List α → List α
  | [] => []
  | [x] => [x]
  | x :: y :: rest => if x = y then unique (y :: rest) else x :: unique (y :: rest)

/-- `canonicalize`. -/
def canonicalize (list : List α) : List α :=
  unique (if isCanonical list then list else list.insertionSort (· ≤ ·))

theorem mem_unique {x : α} {list : List α} : x ∈ unique list ↔ x ∈ list := by
  fun_induction unique list with
  | case1 => exact Iff.rfl
  | case2 => exact Iff.rfl
  | case3 y rest ih => simp [ih]
  | case4 z y rest _ ih => simp [ih]

/-- Repetitions of a sorted list are next to each other. -/
theorem pairwise_unique {list : List α} (sorted : list.Pairwise (· ≤ ·)) :
    (unique list).Pairwise (· < ·) := by
  fun_induction unique list with
  | case1 => exact List.Pairwise.nil
  | case2 x => exact List.pairwise_singleton _ x
  | case3 y rest ih => exact ih sorted.of_cons
  | case4 x y rest different ih =>
      refine List.Pairwise.cons ?_ (ih sorted.of_cons)
      intro z mem
      have less := lt_of_le_of_ne (List.rel_of_pairwise_cons sorted List.mem_cons_self) different
      rcases List.mem_cons.mp (mem_unique.mp mem) with rfl | later
      · exact less
      · exact less.trans_le (List.rel_of_pairwise_cons sorted.of_cons later)

@[simp] theorem mem_canonicalize {x : α} {list : List α} : x ∈ canonicalize list ↔ x ∈ list := by
  rw [canonicalize, mem_unique]
  split
  · exact Iff.rfl
  · exact List.mem_insertionSort (· ≤ ·)

theorem pairwise_canonicalize (list : List α) : (canonicalize list).Pairwise (· < ·) := by
  apply pairwise_unique
  split
  · next sorted => exact of_decide_eq_true sorted
  · exact List.pairwise_insertionSort (· ≤ ·) list

theorem nodup_canonicalize (list : List α) : (canonicalize list).Nodup :=
  (pairwise_canonicalize list).imp fun less => less.ne

/-- The result depends on the elements of the list only. -/
theorem canonicalize_congr {list list' : List α} (same : ∀ x, x ∈ list ↔ x ∈ list') :
    canonicalize list = canonicalize list' := by
  apply (pairwise_canonicalize list).eq_of_mem_iff (pairwise_canonicalize list')
  intro x
  rw [mem_canonicalize, mem_canonicalize, same]

/-- The greatest element is the last one. -/
theorem canonicalize_eq_concat {list : List α} {last : α} (mem : last ∈ list)
    (greatest : ∀ x ∈ list, x ≤ last) : ∃ init, canonicalize list = init ++ [last] := by
  obtain ⟨init, after, split⟩ := List.append_of_mem (mem_canonicalize.mpr mem)
  cases after with
  | nil => exact ⟨init, split⟩
  | cons next rest =>
      have increasing := pairwise_canonicalize list
      rw [split] at increasing
      have less : last < next :=
        List.rel_of_pairwise_cons (List.pairwise_append.mp increasing).2.1 List.mem_cons_self
      have inList : next ∈ list := by
        rw [← mem_canonicalize, split]
        simp
      exact absurd (greatest next inList) less.not_ge

end Tyr.IndexList

namespace Tyr

variable {α : Type*}

/-- Some order of the values of a type. -/
@[reducible]
noncomputable def arbitraryOrder (α : Type*) : LinearOrder α := IsWellOrder.linearOrder WellOrderingRel

/-- Compare first whether an element is the last one. -/
noncomputable def lastKey (last x : α) : Bool ×ₗ α := by
  classical exact toLex (decide (x = last), x)

theorem lastKey_injective (last : α) : Function.Injective (lastKey last) := fun _ _ same =>
  congrArg (fun pair => (ofLex pair).2) same

/-- Some order of a type in which the given element is the greatest. -/
@[reducible]
noncomputable def orderWithLast (last : α) : LinearOrder α :=
  letI := arbitraryOrder α
  LinearOrder.lift' (lastKey last) (lastKey_injective last)

theorem le_orderWithLast (last x : α) : (orderWithLast last).le x last := by
  let order := arbitraryOrder α
  change lastKey last x ≤ lastKey last last
  rw [lastKey, lastKey, Prod.Lex.toLex_le_toLex]
  by_cases same : x = last
  · subst same
    exact Or.inr ⟨rfl, le_rfl⟩
  · simp [same]

end Tyr
