import Mathlib.Data.List.GetD

/-!
Lists that grow up to the position that is written.

* `getD_set_grow` — a read after a write, where what is missing reads as the default.
-/

namespace Tyr.Lib

variable {α : Type*}

theorem getD_set_grow (list : List α) (default : α) (pos i : Nat) (value : α) :
    ((list ++ List.replicate (pos + 1 - list.length) default).set pos value).getD i default =
      if i = pos then value else list.getD i default := by
  have long : pos < (list ++ List.replicate (pos + 1 - list.length) default).length := by
    rw [List.length_append, List.length_replicate]
    omega
  rw [List.getD_eq_getElem?_getD, List.getD_eq_getElem?_getD, List.getElem?_set]
  by_cases same : pos = i
  · subst same
    rw [if_pos rfl, if_pos long, if_pos rfl]
    rfl
  · rw [if_neg same, if_neg (Ne.symm same)]
    by_cases inside : i < list.length
    · rw [List.getElem?_append_left inside]
    · rw [List.getElem?_append_right (Nat.le_of_not_lt inside), List.getElem?_replicate,
        List.getElem?_eq_none (Nat.le_of_not_lt inside)]
      split <;> rfl

end Tyr.Lib
