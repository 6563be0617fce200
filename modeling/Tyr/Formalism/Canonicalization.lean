import Tyr.Common.Canonicalization
import Tyr.Common.NumberAlgebra
import Tyr.Lib.Repetition
import Tyr.Formalism.FunctionExpression

/-!
Canonical function expressions.

Whenever an expression is built, its operators are made canonical from the inside
out: the operands of a commutative binary operator are ordered, and the arguments
of an n-ary operator are sorted and listed once. `rebuild` does so for a
translation of the function terms, such as grounding.

* `canonicalMulti_congr` — the order and the repetitions of the arguments do not
  matter.
* `rebuild_rebuild` — canonicalizing before a translation changes nothing.
* `preserved_iff_neutral` — the values are preserved exactly if the repeated
  arguments of each n-ary operator are neutral.
* `evaluate_rebuild` — then the evaluators, which multiply the arguments of every
  n-ary operator, make the same of the canonical expression.

The numbers are exact: an operator gives the same on its arguments in any order,
which floating-point sums and products of three numbers do only up to rounding and
overflow.
-/

namespace Tyr.Formalism

open Tyr.Lib

/-! ### The operators -/

namespace MultiOp

theorem apply_comm (op : MultiOp) (x y : Number) : op.apply x y = op.apply y x := by
  cases op with
  | add => exact Number.add_comm x y
  | mul => exact Number.mul_comm x y

theorem apply_right_comm (op : MultiOp) (x y z : Number) :
    op.apply (op.apply x y) z = op.apply (op.apply x z) y := by
  cases op with
  | add => exact Number.add_right_comm x y z
  | mul => exact Number.mul_right_comm x y z

end MultiOp

namespace FunctionExpression

variable {F G H : Type*}

theorem fold_eq_foldl (valuation : F → Number) (op : MultiOp) (init : Number) :
    ∀ rest : List (FunctionExpression F),
      fold valuation op init rest = (rest.map (value valuation)).foldl op.apply init
  | [] => by rw [fold, List.map_nil, List.foldl_nil]
  | arg :: rest => by
      rw [fold, List.map_cons, List.foldl_cons]
      exact fold_eq_foldl valuation op _ rest

/-! ### Canonical operators -/

section

variable [LinearOrder (FunctionExpression G)]

/-- `canonicalize` of a binary operator. -/
def canonicalBinary (op : ArithmeticOp) (lhs rhs : FunctionExpression G) : FunctionExpression G :=
  if (op = .add ∨ op = .mul) ∧ rhs < lhs then .binary op rhs lhs else .binary op lhs rhs

/-- `canonicalize` of an n-ary operator: its arguments are sorted and listed once. -/
def canonicalMulti (op : MultiOp) (front : FunctionExpression G) (rest : List (FunctionExpression G)) :
    FunctionExpression G :=
  match IndexList.canonicalize (front :: rest) with
  | [] => .multi op front rest
  | front :: rest => .multi op front rest

mutual

/-- Translate the function terms and make the operators canonical. -/
def rebuild (f : F → G) : FunctionExpression F → FunctionExpression G
  | number value => number value
  | neg arg => neg (rebuild f arg)
  | binary op lhs rhs => canonicalBinary op (rebuild f lhs) (rebuild f rhs)
  | multi op front rest => canonicalMulti op (rebuild f front) (rebuildList f rest)
  | fterm t => fterm (f t)

def rebuildList (f : F → G) : List (FunctionExpression F) → List (FunctionExpression G)
  | [] => []
  | arg :: rest => rebuild f arg :: rebuildList f rest

end

theorem rebuildList_eq_map (f : F → G) :
    ∀ args : List (FunctionExpression F), rebuildList f args = args.map (rebuild f)
  | [] => by rw [rebuildList, List.map_nil]
  | arg :: rest => by rw [rebuildList, List.map_cons, rebuildList_eq_map f rest]

/-- The canonical operator depends on the set of the arguments only. -/
theorem canonicalMulti_congr (op : MultiOp) {front front' : FunctionExpression G}
    {rest rest' : List (FunctionExpression G)}
    (same : ∀ arg, arg ∈ front :: rest ↔ arg ∈ front' :: rest') :
    canonicalMulti op front rest = canonicalMulti op front' rest' := by
  have nonempty : IndexList.canonicalize (front :: rest) ≠ [] :=
    List.ne_nil_of_mem (IndexList.mem_canonicalize.mpr List.mem_cons_self)
  unfold canonicalMulti
  rw [← IndexList.canonicalize_congr same]
  cases canonical : IndexList.canonicalize (front :: rest) with
  | nil => exact absurd canonical nonempty
  | cons _ _ => rfl

theorem canonicalMulti_eq (op : MultiOp) (front : FunctionExpression G)
    (rest : List (FunctionExpression G)) :
    ∃ front' rest', IndexList.canonicalize (front :: rest) = front' :: rest' ∧
      canonicalMulti op front rest = .multi op front' rest' := by
  cases canonical : IndexList.canonicalize (front :: rest) with
  | nil =>
      have mem : front ∈ IndexList.canonicalize (front :: rest) :=
        IndexList.mem_canonicalize.mpr List.mem_cons_self
      rw [canonical] at mem
      cases mem
  | cons front' rest' =>
      refine ⟨front', rest', rfl, ?_⟩
      rw [canonicalMulti, canonical]

/-- The operands of a commutative operator can be given in either order. -/
theorem canonicalBinary_comm {op : ArithmeticOp} (commutative : op = .add ∨ op = .mul)
    (lhs rhs : FunctionExpression G) : canonicalBinary op lhs rhs = canonicalBinary op rhs lhs := by
  unfold canonicalBinary
  rcases lt_trichotomy lhs rhs with less | rfl | greater
  · rw [if_neg fun both => less.asymm both.2, if_pos ⟨commutative, less⟩]
  · rfl
  · rw [if_pos ⟨commutative, greater⟩, if_neg fun both => greater.asymm both.2]

theorem canonicalBinary_eq (op : ArithmeticOp) (lhs rhs : FunctionExpression G) :
    canonicalBinary op lhs rhs = .binary op lhs rhs ∨
      (op = .add ∨ op = .mul) ∧ canonicalBinary op lhs rhs = .binary op rhs lhs := by
  unfold canonicalBinary
  split
  · next swaps => exact Or.inr ⟨swaps.1, rfl⟩
  · exact Or.inl rfl

theorem value_canonicalBinary (valuation : G → Number) (op : ArithmeticOp)
    (lhs rhs : FunctionExpression G) :
    (canonicalBinary op lhs rhs).value valuation = op.apply (lhs.value valuation) (rhs.value valuation) := by
  rcases canonicalBinary_eq op lhs rhs with same | ⟨rfl | rfl, swapped⟩
  · rw [same, value]
  · rw [swapped, value]
    exact Number.add_comm _ _
  · rw [swapped, value]
    exact Number.mul_comm _ _

end

/-! ### Canonicalizing twice -/

section

variable [LinearOrder (FunctionExpression G)] [LinearOrder (FunctionExpression H)]

mutual

/-- An expression that is canonical already is translated to the same result. -/
theorem rebuild_rebuild (f : F → G) (g : G → H) : ∀ fexpr : FunctionExpression F,
    rebuild g (rebuild f fexpr) = rebuild (g ∘ f) fexpr
  | number _ => by rw [rebuild, rebuild, rebuild]
  | neg arg => by rw [rebuild, rebuild, rebuild, rebuild_rebuild f g arg]
  | binary op lhs rhs => by
      rw [rebuild, rebuild, ← rebuild_rebuild f g lhs, ← rebuild_rebuild f g rhs]
      rcases canonicalBinary_eq op (rebuild f lhs) (rebuild f rhs) with same | ⟨commutative, swapped⟩
      · rw [same, rebuild]
      · rw [swapped, rebuild, canonicalBinary_comm commutative]
  | multi op front rest => by
      obtain ⟨front', rest', canonical, same⟩ :=
        canonicalMulti_eq op (rebuild f front) (rebuildList f rest)
      rw [rebuild, rebuild, same, rebuild, ← rebuild_rebuild f g front,
        ← rebuildList_rebuildList f g rest]
      apply canonicalMulti_congr
      intro arg
      rw [rebuildList_eq_map, rebuildList_eq_map, ← List.map_cons, ← List.map_cons, ← canonical,
        List.mem_map, List.mem_map]
      simp only [IndexList.mem_canonicalize]
  | fterm t => by rw [rebuild, rebuild, rebuild, Function.comp_apply]

theorem rebuildList_rebuildList (f : F → G) (g : G → H) : ∀ args : List (FunctionExpression F),
    rebuildList g (rebuildList f args) = rebuildList (g ∘ f) args
  | [] => by rw [rebuildList, rebuildList, rebuildList]
  | arg :: rest => by
      rw [rebuildList, rebuildList, rebuildList, rebuild_rebuild f g arg,
        rebuildList_rebuildList f g rest]

end

end

/-! ### Everywhere in an expression -/

mutual

/-- The property holds of the expression and of all expressions in it. -/
def Everywhere (P : FunctionExpression F → Prop) : FunctionExpression F → Prop
  | number value => P (number value)
  | neg arg => P (neg arg) ∧ Everywhere P arg
  | binary op lhs rhs => P (binary op lhs rhs) ∧ Everywhere P lhs ∧ Everywhere P rhs
  | multi op front rest => P (multi op front rest) ∧ Everywhere P front ∧ EverywhereList P rest
  | fterm t => P (fterm t)

def EverywhereList (P : FunctionExpression F → Prop) : List (FunctionExpression F) → Prop
  | [] => True
  | arg :: rest => Everywhere P arg ∧ EverywhereList P rest

end

theorem Everywhere.here {P : FunctionExpression F → Prop} {fexpr : FunctionExpression F}
    (everywhere : Everywhere P fexpr) : P fexpr := by
  cases fexpr <;> simp only [Everywhere] at everywhere
  · exact everywhere
  · exact everywhere.1
  · exact everywhere.1
  · exact everywhere.1
  · exact everywhere

theorem EverywhereList.of_mem {P : FunctionExpression F → Prop} :
    ∀ {args : List (FunctionExpression F)}, EverywhereList P args → ∀ arg ∈ args, P arg
  | [], _, _, mem => absurd mem List.not_mem_nil
  | head :: rest, everywhere, arg, mem => by
      rw [EverywhereList] at everywhere
      rcases List.mem_cons.mp mem with rfl | later
      · exact everywhere.1.here
      · exact EverywhereList.of_mem everywhere.2 arg later

theorem EverywhereList.of_forall {P : FunctionExpression F → Prop} :
    ∀ {args : List (FunctionExpression F)}, (∀ arg ∈ args, Everywhere P arg) → EverywhereList P args
  | [], _ => by rw [EverywhereList]; trivial
  | arg :: rest, everywhere => by
      rw [EverywhereList]
      exact ⟨everywhere arg List.mem_cons_self,
        EverywhereList.of_forall fun other mem => everywhere other (List.mem_cons_of_mem _ mem)⟩

/-! ### The value of a canonical expression -/

section

variable [LinearOrder (FunctionExpression G)] (f : F → G) (valuation : G → Number)

/-- The expression keeps its value when it is translated. -/
def ValuePreserved (fexpr : FunctionExpression F) : Prop :=
  (rebuild f fexpr).value valuation = fexpr.value (valuation ∘ f)

/-- The value of an n-ary operator on the arguments whose translations differ. -/
def distinctValue (op : MultiOp) (front : FunctionExpression F) (rest : List (FunctionExpression F)) :
    Number :=
  fold (valuation ∘ f) op (front.value (valuation ∘ f))
    (firstOccurrences (rebuild f) [rebuild f front] rest)

/-- Applying an n-ary operator to the repeated arguments too does not change its
value. -/
def RepetitionsNeutral : FunctionExpression F → Prop
  | multi op front rest =>
      fold (valuation ∘ f) op (distinctValue f valuation op front rest)
        (repeatedOccurrences (rebuild f) [rebuild f front] rest) =
          distinctValue f valuation op front rest
  | _ => True

variable {f valuation}

/-- The arguments of a canonical operator are those whose translations differ. -/
theorem canonicalMulti_perm (op : MultiOp) (front : FunctionExpression F)
    (rest : List (FunctionExpression F)) :
    ∃ front' rest', canonicalMulti op (rebuild f front) (rest.map (rebuild f)) = .multi op front' rest' ∧
      (front' :: rest').Perm (rebuild f front ::
        (firstOccurrences (rebuild f) [rebuild f front] rest).map (rebuild f)) := by
  obtain ⟨front', rest', canonical, same⟩ := canonicalMulti_eq op (rebuild f front) (rest.map (rebuild f))
  refine ⟨front', rest', same, ?_⟩
  rw [← canonical]
  refine (List.perm_ext_iff_of_nodup (IndexList.nodup_canonicalize _) ?_).mpr fun arg => ?_
  · refine List.nodup_cons.mpr ⟨fun mem => ?_, nodup_map_firstOccurrences _ rest⟩
    exact (mem_map_firstOccurrences.mp mem).2 List.mem_cons_self
  · rw [IndexList.mem_canonicalize, List.mem_cons, List.mem_cons, mem_map_firstOccurrences,
      List.mem_singleton]
    tauto

theorem value_canonicalMulti {op : MultiOp} {front : FunctionExpression F}
    {rest : List (FunctionExpression F)} (frontPreserved : ValuePreserved f valuation front)
    (restPreserved : ∀ arg ∈ rest, ValuePreserved f valuation arg) :
    (canonicalMulti op (rebuild f front) (rest.map (rebuild f))).value valuation =
      distinctValue f valuation op front rest := by
  obtain ⟨front', rest', same, perm⟩ := @canonicalMulti_perm F G _ f op front rest
  have values : (firstOccurrences (rebuild f) [rebuild f front] rest).map
      (value valuation ∘ rebuild f) =
      (firstOccurrences (rebuild f) [rebuild f front] rest).map (value (valuation ∘ f)) := by
    apply List.map_congr_left
    intro arg mem
    exact restPreserved arg ((first_append_repeated _ rest).subset (List.mem_append_left _ mem))
  rw [same, value, fold_eq_foldl, distinctValue, fold_eq_foldl, ← values, ← frontPreserved, ← List.map_map]
  apply foldl_eq_of_perm op.apply_comm op.apply_right_comm
  rw [← List.map_cons, ← List.map_cons]
  exact perm.map _

theorem value_multi_eq (op : MultiOp) (front : FunctionExpression F) (rest : List (FunctionExpression F)) :
    (multi op front rest).value (valuation ∘ f) =
      fold (valuation ∘ f) op (distinctValue f valuation op front rest)
        (repeatedOccurrences (rebuild f) [rebuild f front] rest) := by
  rw [value, distinctValue, fold_eq_foldl, fold_eq_foldl, fold_eq_foldl, ← List.foldl_append,
    ← List.map_append]
  refine (List.Perm.foldl_eq' ?_ (fun _ _ _ _ _ => op.apply_right_comm _ _ _) _).symm
  exact (first_append_repeated _ rest).map _

mutual

/-- The values of an expression and of all expressions in it are preserved exactly
if the repeated arguments of all n-ary operators are neutral. -/
theorem preserved_iff_neutral : ∀ {fexpr : FunctionExpression F},
    Everywhere (ValuePreserved f valuation) fexpr ↔
      Everywhere (RepetitionsNeutral f valuation) fexpr
  | number _ => by
      rw [Everywhere, Everywhere, ValuePreserved, rebuild, value, value]
      exact iff_of_true rfl trivial
  | neg arg => by
      rw [Everywhere, Everywhere, ← preserved_iff_neutral]
      refine and_congr_left fun preserved => iff_of_true ?_ trivial
      rw [ValuePreserved, rebuild, value, value, preserved.here]
  | binary op lhs rhs => by
      rw [Everywhere, Everywhere, ← preserved_iff_neutral, ← preserved_iff_neutral]
      refine and_congr_left fun preserved => iff_of_true ?_ trivial
      rw [ValuePreserved, rebuild, value_canonicalBinary, value, preserved.1.here, preserved.2.here]
  | multi op front rest => by
      rw [Everywhere, Everywhere, ← preserved_iff_neutral, ← preservedList_iff_neutral]
      refine and_congr_left fun preserved => ?_
      rw [ValuePreserved, rebuild, rebuildList_eq_map,
        value_canonicalMulti preserved.1.here preserved.2.of_mem, value_multi_eq, RepetitionsNeutral]
      exact eq_comm
  | fterm _ => by
      rw [Everywhere, Everywhere, ValuePreserved, rebuild, value, value]
      exact iff_of_true rfl trivial

theorem preservedList_iff_neutral : ∀ {args : List (FunctionExpression F)},
    EverywhereList (ValuePreserved f valuation) args ↔
      EverywhereList (RepetitionsNeutral f valuation) args
  | [] => by rw [EverywhereList, EverywhereList]
  | arg :: rest => by
      rw [EverywhereList, EverywhereList, preserved_iff_neutral, preservedList_iff_neutral]

end

end

/-! ### What the evaluators make of a canonical expression -/

theorem accumulate_eq_foldl (valuation : F → Number) (init : Number) :
    ∀ rest : List (FunctionExpression F),
      accumulate valuation init rest = (rest.map (evaluate valuation)).foldl (MultiOp.apply .mul) init
  | [] => by rw [accumulate, List.map_nil, List.foldl_nil]
  | arg :: rest => by
      rw [accumulate, List.map_cons, List.foldl_cons]
      exact accumulate_eq_foldl valuation _ rest

section

variable [LinearOrder (FunctionExpression G)] (f : F → G) (valuation : G → Number)

/-- What the evaluators make of an n-ary operator on the arguments whose
translations differ. -/
def distinctProduct (front : FunctionExpression F) (rest : List (FunctionExpression F)) : Number :=
  accumulate (valuation ∘ f) (front.evaluate (valuation ∘ f))
    (firstOccurrences (rebuild f) [rebuild f front] rest)

/-- The evaluators make the same of an n-ary operator with and without the repeated
arguments. -/
def ProductNeutral : FunctionExpression F → Prop
  | multi _ front rest =>
      accumulate (valuation ∘ f) (distinctProduct f valuation front rest)
        (repeatedOccurrences (rebuild f) [rebuild f front] rest) = distinctProduct f valuation front rest
  | _ => True

variable {f valuation}

theorem evaluate_canonicalBinary (op : ArithmeticOp) (lhs rhs : FunctionExpression G) :
    (canonicalBinary op lhs rhs).evaluate valuation =
      op.apply (lhs.evaluate valuation) (rhs.evaluate valuation) := by
  rcases canonicalBinary_eq op lhs rhs with same | ⟨rfl | rfl, swapped⟩
  · rw [same, evaluate]
  · rw [swapped, evaluate]
    exact Number.add_comm _ _
  · rw [swapped, evaluate]
    exact Number.mul_comm _ _

theorem evaluate_canonicalMulti {op : MultiOp} {front : FunctionExpression F}
    {rest : List (FunctionExpression F)}
    (frontPreserved : (rebuild f front).evaluate valuation = front.evaluate (valuation ∘ f))
    (restPreserved : ∀ arg ∈ rest, (rebuild f arg).evaluate valuation = arg.evaluate (valuation ∘ f))
    (neutral : ProductNeutral f valuation (multi op front rest)) :
    (canonicalMulti op (rebuild f front) (rest.map (rebuild f))).evaluate valuation =
      (multi op front rest).evaluate (valuation ∘ f) := by
  obtain ⟨front', rest', same, perm⟩ := @canonicalMulti_perm F G _ f op front rest
  have values : (firstOccurrences (rebuild f) [rebuild f front] rest).map
      (evaluate valuation ∘ rebuild f) =
      (firstOccurrences (rebuild f) [rebuild f front] rest).map (evaluate (valuation ∘ f)) := by
    apply List.map_congr_left
    intro arg mem
    exact restPreserved arg ((first_append_repeated _ rest).subset (List.mem_append_left _ mem))
  have distinct : (multi op front' rest').evaluate valuation = distinctProduct f valuation front rest := by
    rw [evaluate, accumulate_eq_foldl, distinctProduct, accumulate_eq_foldl, ← values, ← frontPreserved,
      ← List.map_map]
    apply foldl_eq_of_perm (MultiOp.apply_comm .mul) (MultiOp.apply_right_comm .mul)
    rw [← List.map_cons, ← List.map_cons]
    exact perm.map _
  have all : (multi op front rest).evaluate (valuation ∘ f) =
      accumulate (valuation ∘ f) (distinctProduct f valuation front rest)
        (repeatedOccurrences (rebuild f) [rebuild f front] rest) := by
    rw [evaluate, distinctProduct, accumulate_eq_foldl, accumulate_eq_foldl, accumulate_eq_foldl,
      ← List.foldl_append, ← List.map_append]
    refine (List.Perm.foldl_eq' ?_ (fun _ _ _ _ _ => MultiOp.apply_right_comm .mul _ _ _) _).symm
    exact (first_append_repeated _ rest).map _
  rw [same, distinct, all]
  exact neutral.symm

mutual

/-- The evaluators make the same of an expression and its translation if the
repeated arguments of all n-ary operators are neutral. -/
theorem evaluate_rebuild : ∀ {fexpr : FunctionExpression F},
    Everywhere (ProductNeutral f valuation) fexpr →
      (rebuild f fexpr).evaluate valuation = fexpr.evaluate (valuation ∘ f)
  | number _, _ => by rw [rebuild, evaluate, evaluate]
  | neg arg, neutral => by
      rw [Everywhere] at neutral
      rw [rebuild, evaluate, evaluate, evaluate_rebuild neutral.2]
  | binary op lhs rhs, neutral => by
      rw [Everywhere] at neutral
      rw [rebuild, evaluate_canonicalBinary, evaluate, evaluate_rebuild neutral.2.1,
        evaluate_rebuild neutral.2.2]
  | multi op front rest, neutral => by
      rw [Everywhere] at neutral
      rw [rebuild, rebuildList_eq_map]
      exact evaluate_canonicalMulti (evaluate_rebuild neutral.2.1) (evaluate_rebuildAll neutral.2.2)
        neutral.1
  | fterm _, _ => by rw [rebuild, evaluate, evaluate, Function.comp_apply]

theorem evaluate_rebuildAll : ∀ {args : List (FunctionExpression F)},
    EverywhereList (ProductNeutral f valuation) args →
      ∀ arg ∈ args, (rebuild f arg).evaluate valuation = arg.evaluate (valuation ∘ f)
  | [], _, _, mem => absurd mem List.not_mem_nil
  | head :: rest, neutral, arg, mem => by
      rw [EverywhereList] at neutral
      have first := evaluate_rebuild neutral.1
      have later := evaluate_rebuildAll neutral.2
      rcases List.mem_cons.mp mem with rfl | inRest
      · exact first
      · exact later arg inRest

end

end

end FunctionExpression

end Tyr.Formalism
