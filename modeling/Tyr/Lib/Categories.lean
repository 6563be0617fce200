import Mathlib.Data.List.Sort
import Mathlib.Order.Basic

/-!
Sorting a list by categories, and cutting it.

`sortByCategory` sorts by a category, and the elements of a category by
themselves. `cutBelow` cuts a sorted list at a bound, and `cutAll` into one part
for each of the categories that follow a number, and the part behind them.

* `cutBelow_eq_filter`, `cutAll_eq_filter` — each part is the elements of its
  categories.
-/

namespace Tyr.Lib

variable {α : Type*}

/-! ### Sorting -/

section

variable [LinearOrder α] (category : α → Nat)

/-- By category, then by the elements. -/
def categoryLE (x y : α) : Bool :=
  category x < category y || (category x == category y && x ≤ y)

def sortByCategory (elements : List α) : List α := elements.mergeSort (categoryLE category)

variable {category}

theorem perm_sortByCategory (elements : List α) : (sortByCategory category elements).Perm elements :=
  List.mergeSort_perm elements _

theorem categoryLE_iff {x y : α} : categoryLE category x y = true ↔
    category x < category y ∨ category x = category y ∧ x ≤ y := by
  rw [categoryLE, Bool.or_eq_true, Bool.and_eq_true, decide_eq_true_iff, beq_iff_eq,
    decide_eq_true_iff]

theorem categoryLE_trans (x y z : α) (leXY : categoryLE category x y = true)
    (leYZ : categoryLE category y z = true) : categoryLE category x z = true := by
  rw [categoryLE_iff] at leXY leYZ ⊢
  rcases leXY with lessXY | ⟨sameXY, leXY⟩ <;> rcases leYZ with lessYZ | ⟨sameYZ, leYZ⟩
  · exact .inl (lessXY.trans lessYZ)
  · exact .inl (sameYZ ▸ lessXY)
  · exact .inl (sameXY ▸ lessYZ)
  · exact .inr ⟨sameXY.trans sameYZ, leXY.trans leYZ⟩

theorem categoryLE_total (x y : α) :
    (categoryLE category x y || categoryLE category y x) = true := by
  rw [Bool.or_eq_true, categoryLE_iff, categoryLE_iff]
  rcases Nat.lt_trichotomy (category x) (category y) with less | same | greater
  · exact .inl (.inl less)
  · rcases le_total x y with le | ge
    · exact .inl (.inr ⟨same, le⟩)
    · exact .inr (.inr ⟨same.symm, ge⟩)
  · exact .inr (.inl greater)

theorem sorted_sortByCategory (elements : List α) :
    (sortByCategory category elements).Pairwise fun x y => category x ≤ category y := by
  have sorted : (sortByCategory category elements).Pairwise
      fun x y => categoryLE category x y = true :=
    List.pairwise_mergeSort categoryLE_trans categoryLE_total elements
  refine sorted.imp fun {x y} le => ?_
  rw [categoryLE_iff] at le
  omega

end

/-! ### Cutting -/

section

variable (category : α → Nat)

/-- The elements before the first one whose category reaches the bound, and the others. -/
def cutBelow (bound : Nat) (elements : List α) : List α × List α :=
  (elements.takeWhile (category · < bound), elements.dropWhile (category · < bound))

/-- Cut off the parts of the next `n` categories. -/
def cutAll (start : Nat) : Nat → List α → List (List α) × List α
  | 0, elements => ([], elements)
  | n + 1, elements =>
      let (part, others) := cutBelow category (start + 1) elements
      let (parts, rest) := cutAll (start + 1) n others
      (part :: parts, rest)

variable {category}

theorem cutBelow_eq_filter {elements : List α}
    (sorted : elements.Pairwise fun x y => category x ≤ category y) (bound : Nat) :
    cutBelow category bound elements =
      (elements.filter (category · < bound), elements.filter (bound ≤ category ·)) := by
  rw [cutBelow]
  induction elements with
  | nil => rfl
  | cons x rest ih =>
      obtain ⟨least, sortedRest⟩ := List.pairwise_cons.mp sorted
      by_cases below : category x < bound
      · have parts := ih sortedRest
        simp only [Prod.mk.injEq] at parts
        simp [below, Nat.not_le.mpr below, parts]
      · have above : ∀ y ∈ rest, bound ≤ category y :=
          fun y mem => (Nat.le_of_not_lt below).trans (least y mem)
        have noneBelow : rest.filter (category · < bound) = [] := by
          rw [List.filter_eq_nil_iff]
          intro y mem
          simpa using above y mem
        have allAbove : rest.filter (bound ≤ category ·) = rest := by
          rw [List.filter_eq_self]
          intro y mem
          simpa using above y mem
        simp [below, Nat.le_of_not_lt below, noneBelow, allAbove]

/-- Each part is the elements of its category. -/
theorem cutAll_eq_filter {elements : List α}
    (sorted : elements.Pairwise fun x y => category x ≤ category y) {start : Nat}
    (above : ∀ x ∈ elements, start ≤ category x) (n : Nat) :
    cutAll category start n elements =
      ((List.range' start n).map fun i => elements.filter (category · = i),
        elements.filter (start + n ≤ category ·)) := by
  induction n generalizing start elements with
  | zero =>
      have all : elements.filter (start + 0 ≤ category ·) = elements := by
        rw [List.filter_eq_self]
        intro x mem
        simpa using above x mem
      simp only [cutAll, List.range'_zero, List.map_nil, all]
  | succ n ih =>
      have sortedOthers : (elements.filter (start + 1 ≤ category ·)).Pairwise
          fun x y => category x ≤ category y := sorted.filter _
      have aboveOthers : ∀ x ∈ elements.filter (start + 1 ≤ category ·), start + 1 ≤ category x := by
        intro x mem
        simpa using (List.mem_filter.mp mem).2
      have first : elements.filter (category · < start + 1) = elements.filter (category · = start) := by
        apply List.filter_congr
        intro x mem
        have le := above x mem
        rw [decide_eq_decide]
        omega
      simp only [cutAll, cutBelow_eq_filter sorted, ih sortedOthers aboveOthers, List.range'_succ,
        List.map_cons, List.filter_filter, first, Prod.mk.injEq, List.cons.injEq, true_and]
      constructor
      · apply List.map_congr_left
        intro i mem
        have le := (List.mem_range'_1.mp mem).1
        apply List.filter_congr
        intro x _
        rw [← Bool.decide_and, decide_eq_decide]
        omega
      · apply List.filter_congr
        intro x _
        rw [← Bool.decide_and, decide_eq_decide]
        omega

end

end Tyr.Lib
