import Tyr.Formalism.Canonicalization
import Tyr.Formalism.ExactEvaluation

/-!
Undefined function terms.

An undefined function term makes the value of each expression that it occurs in
undefined, and no comparison but `!=` holds of an undefined value. Translating an
expression adds no function terms.

* `BooleanOperator.defined_of_holds` — the function terms of what holds are defined.
* `FunctionExpression.mem_fterms_rebuild` — where function terms come from.
-/

namespace Tyr.Formalism

open Tyr.Lib Number

/-! ### Operators -/

theorem ArithmeticOp.apply_undefined (op : ArithmeticOp) {lhs rhs : Number}
    (undefined : lhs = nan ∨ rhs = nan) : op.apply lhs rhs = nan := by
  cases op with
  | add => exact applyExactly_undefined .add undefined
  | sub => exact applyExactly_undefined .sub undefined
  | mul => exact applyExactly_undefined .mul undefined
  | div =>
      rcases undefined with rfl | rfl
      · exact nan_div rhs
      · exact div_nan lhs

theorem BooleanOp.apply_undefined {op : BooleanOp} (strict : op ≠ .ne) {lhs rhs : Number}
    (undefined : lhs = nan ∨ rhs = nan) : op.apply lhs rhs = false := by
  have abs_nan : nan.abs = nan := rfl
  rcases undefined with rfl | rfl
  · cases op with
    | ne => exact absurd rfl strict
    | eq | ge | gt | le | lt => simp [apply, abs_nan]
  · cases op with
    | ne => exact absurd rfl strict
    | eq | ge | gt | le | lt => simp [apply, abs_nan]

namespace FunctionExpression

/-! ### Values -/

section

variable {F : Type*} {valuation : F → Number}

mutual

/-- An undefined function term makes the value undefined. -/
theorem value_undefined : ∀ {fexpr : FunctionExpression F},
    (∃ t ∈ fexpr.fterms, valuation t = nan) → fexpr.value valuation = nan
  | number _, ⟨t, mem, _⟩ => by
      rw [fterms] at mem
      cases mem
  | neg arg, undefined => by
      rw [fterms] at undefined
      rw [value, value_undefined undefined]
      rfl
  | binary op lhs rhs, ⟨t, mem, undefined⟩ => by
      rw [fterms] at mem
      rw [value]
      apply op.apply_undefined
      rcases List.mem_append.mp mem with left | right
      · exact .inl (value_undefined ⟨t, left, undefined⟩)
      · exact .inr (value_undefined ⟨t, right, undefined⟩)
  | multi op front rest, ⟨t, mem, undefined⟩ => by
      rw [fterms] at mem
      rw [value]
      apply fold_undefined
      rcases List.mem_append.mp mem with left | right
      · exact .inl (value_undefined ⟨t, left, undefined⟩)
      · exact .inr ⟨t, right, undefined⟩
  | fterm t, ⟨t', mem, undefined⟩ => by
      rw [fterms] at mem
      obtain rfl := List.mem_singleton.mp mem
      rw [value, undefined]

theorem fold_undefined {op : MultiOp} {init : Number} : ∀ {rest : List (FunctionExpression F)},
    (init = nan ∨ ∃ t ∈ ftermsOfList rest, valuation t = nan) → fold valuation op init rest = nan
  | [], undefined => by
      rw [fold]
      rcases undefined with undefined | ⟨t, mem, _⟩
      · exact undefined
      · rw [ftermsOfList] at mem
        cases mem
  | arg :: rest, undefined => by
      rw [fold]
      apply fold_undefined
      rcases undefined with undefined | ⟨t, mem, undefined⟩
      · exact .inl (op.apply_undefined (.inl undefined))
      · rw [ftermsOfList] at mem
        rcases List.mem_append.mp mem with left | right
        · exact .inl (op.apply_undefined (.inr (value_undefined ⟨t, left, undefined⟩)))
        · exact .inr ⟨t, right, undefined⟩

end

end

/-! ### Translations -/

section

variable {F G : Type*} [LinearOrder (FunctionExpression G)] {f : F → G}

theorem mem_ftermsOfList {args : List (FunctionExpression F)} {t : F} :
    t ∈ ftermsOfList args ↔ ∃ arg ∈ args, t ∈ arg.fterms := by
  induction args with
  | nil => simp [ftermsOfList]
  | cons arg args ih => simp [ftermsOfList, ih]

/-- The arguments of a canonical operator are those that it was made of. -/
theorem mem_fterms_canonicalMulti {op : MultiOp} {front : FunctionExpression G}
    {rest : List (FunctionExpression G)} {t : G} :
    t ∈ (canonicalMulti op front rest).fterms ↔ ∃ arg ∈ front :: rest, t ∈ arg.fterms := by
  obtain ⟨front', rest', canonical, same⟩ := canonicalMulti_eq op front rest
  have mem_iff : ∀ arg, arg ∈ front' :: rest' ↔ arg ∈ front :: rest := by
    intro arg
    rw [← canonical, IndexList.mem_canonicalize]
  rw [same, fterms, List.mem_append, mem_ftermsOfList]
  simp only [← mem_iff]
  simp

theorem mem_fterms_canonicalBinary {op : ArithmeticOp} {lhs rhs : FunctionExpression G} {t : G} :
    t ∈ (canonicalBinary op lhs rhs).fterms ↔ t ∈ lhs.fterms ∨ t ∈ rhs.fterms := by
  rcases canonicalBinary_eq op lhs rhs with same | ⟨_, same⟩
  · rw [same, fterms, List.mem_append]
  · rw [same, fterms, List.mem_append]
    exact or_comm

mutual

theorem mem_fterms_rebuild : ∀ {fexpr : FunctionExpression F} {t : G},
    t ∈ (rebuild f fexpr).fterms → ∃ s ∈ fexpr.fterms, f s = t
  | number _, t, mem => by
      rw [rebuild, fterms] at mem
      cases mem
  | neg arg, t, mem => by
      rw [rebuild, fterms] at mem
      rw [fterms]
      exact mem_fterms_rebuild mem
  | binary op lhs rhs, t, mem => by
      rw [rebuild] at mem
      rw [fterms]
      rcases mem_fterms_canonicalBinary.mp mem with left | right
      · obtain ⟨s, memS, same⟩ := mem_fterms_rebuild left
        exact ⟨s, List.mem_append_left _ memS, same⟩
      · obtain ⟨s, memS, same⟩ := mem_fterms_rebuild right
        exact ⟨s, List.mem_append_right _ memS, same⟩
  | multi op front rest, t, mem => by
      rw [rebuild] at mem
      rw [fterms]
      obtain ⟨arg, memArg, inArg⟩ := mem_fterms_canonicalMulti.mp mem
      rcases List.mem_cons.mp memArg with rfl | memRest
      · obtain ⟨s, memS, same⟩ := mem_fterms_rebuild inArg
        exact ⟨s, List.mem_append_left _ memS, same⟩
      · obtain ⟨s, memS, same⟩ := mem_fterms_rebuildList memRest inArg
        exact ⟨s, List.mem_append_right _ memS, same⟩
  | fterm s, t, mem => by
      rw [rebuild, fterms] at mem
      rw [fterms]
      exact ⟨s, List.mem_singleton_self s, (List.mem_singleton.mp mem).symm⟩

theorem mem_fterms_rebuildList : ∀ {args : List (FunctionExpression F)}
    {arg : FunctionExpression G} {t : G}, arg ∈ rebuildList f args → t ∈ arg.fterms →
      ∃ s ∈ ftermsOfList args, f s = t
  | [], arg, t, memArg, _ => by
      rw [rebuildList] at memArg
      cases memArg
  | first :: args, arg, t, memArg, mem => by
      rw [rebuildList] at memArg
      rw [ftermsOfList]
      rcases List.mem_cons.mp memArg with rfl | memRest
      · obtain ⟨s, memS, same⟩ := mem_fterms_rebuild mem
        exact ⟨s, List.mem_append_left _ memS, same⟩
      · obtain ⟨s, memS, same⟩ := mem_fterms_rebuildList memRest mem
        exact ⟨s, List.mem_append_right _ memS, same⟩

end

end

end FunctionExpression

/-- The function terms of a constraint that holds are defined, unless it compares by `!=`. -/
theorem BooleanOperator.defined_of_holds {F : Type*} {valuation : F → Number}
    {constraint : BooleanOperator F} (strict : constraint.op ≠ .ne)
    (holds : constraint.op.apply (constraint.lhs.value valuation) (constraint.rhs.value valuation) = true) :
    ∀ fterm ∈ constraint.lhs.fterms ++ constraint.rhs.fterms, valuation fterm ≠ nan := by
  intro fterm mem undefined
  have isFalse : constraint.op.apply (constraint.lhs.value valuation)
      (constraint.rhs.value valuation) = false := by
    apply BooleanOp.apply_undefined strict
    rcases List.mem_append.mp mem with left | right
    · exact .inl (FunctionExpression.value_undefined ⟨fterm, left, undefined⟩)
    · exact .inr (FunctionExpression.value_undefined ⟨fterm, right, undefined⟩)
  rw [holds] at isFalse
  cases isFalse

end Tyr.Formalism
