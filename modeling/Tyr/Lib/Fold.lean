import Mathlib.Data.List.Basic
import Mathlib.Data.List.Nodup
import Mathlib.Logic.Function.Basic

/-!
Loops as left folds.

A loop that only ever switches observations on is described by one law: what
the observation says after the loop is what it said before, or what some
iteration switched on (`foldl_iff`). A loop whose body keeps a property keeps
it over the whole run (`foldl_invariant`), and two loops whose bodies keep a
relation stay related (`foldlM_rel`). An enumeration that is a nested loop
lists nothing twice when no result belongs to two outer elements
(`nodup_flatMap_of_unique`).
-/

namespace Tyr.Lib

variable {σ β γ : Type*}

/-- A property that every iteration keeps holds after the loop. -/
theorem foldl_invariant {step : σ → β → σ} {P : σ → Prop} {items : List β}
    (keeps : ∀ state, P state → ∀ item ∈ items, P (step state item))
    {state : σ} (holds : P state) : P (items.foldl step state) := by
  induction items generalizing state with
  | nil => exact holds
  | cons item rest ih =>
      refine ih (fun s hs b hb => keeps s hs b (List.mem_cons_of_mem _ hb)) ?_
      exact keeps state holds item List.mem_cons_self

/-- An observation that each iteration can only switch on, under the invariant
`P`, holds after the loop iff it held before or some iteration switched it on. -/
theorem foldl_iff {step : σ → β → σ} {P : σ → Prop} (observe : σ → Prop) (adds : β → Prop)
    {items : List β}
    (keeps : ∀ state, P state → ∀ item ∈ items, P (step state item))
    (law : ∀ state, P state → ∀ item ∈ items,
      (observe (step state item) ↔ observe state ∨ adds item))
    {state : σ} (holds : P state) :
    observe (items.foldl step state) ↔ observe state ∨ ∃ item ∈ items, adds item := by
  induction items generalizing state with
  | nil => simp
  | cons item rest ih =>
      have tail := ih (fun s hs b hb => keeps s hs b (List.mem_cons_of_mem _ hb))
        (fun s hs b hb => law s hs b (List.mem_cons_of_mem _ hb))
        (keeps state holds item List.mem_cons_self)
      rw [List.foldl_cons, tail, law state holds item List.mem_cons_self]
      simp only [List.mem_cons, exists_eq_or_imp, or_assoc]

/-- `foldl_iff` without an invariant. -/
theorem foldl_iff_of_law {step : σ → β → σ} {observe : σ → Prop} {adds : β → Prop}
    (items : List β) (law : ∀ state item, observe (step state item) ↔ observe state ∨ adds item)
    (state : σ) :
    observe (items.foldl step state) ↔ observe state ∨ ∃ item ∈ items, adds item :=
  foldl_iff (P := fun _ => True) observe adds (fun _ _ _ _ => trivial) (fun s _ b _ => law s b) trivial

/-- An observation that one iteration establishes and no iteration loses holds
after the loop. -/
theorem foldl_establishes {step : σ → β → σ} {P : σ → Prop} (observe : σ → Prop) {items : List β}
    (keeps : ∀ state, P state → ∀ item ∈ items, P (step state item))
    (stays : ∀ state, P state → ∀ item ∈ items, observe state → observe (step state item))
    {item : β} (mem : item ∈ items)
    (establishes : ∀ state, P state → observe (step state item))
    {state : σ} (holds : P state) : observe (items.foldl step state) := by
  induction items generalizing state with
  | nil => exact absurd mem List.not_mem_nil
  | cons head rest ih =>
      have keepsRest := fun s hs b hb => keeps s hs b (List.mem_cons_of_mem head hb)
      have staysRest := fun s hs b hb => stays s hs b (List.mem_cons_of_mem head hb)
      have headHolds := keeps state holds head List.mem_cons_self
      rcases List.mem_cons.mp mem with rfl | later
      · exact (foldl_invariant (P := fun s => P s ∧ observe s)
          (fun s hs b hb => ⟨keepsRest s hs.1 b hb, staysRest s hs.1 b hb hs.2⟩)
          ⟨headHolds, establishes state holds⟩).2
      · exact ih keepsRest staysRest later headHolds

/-- An observation that no iteration changes is the same after the loop. -/
theorem foldl_unchanged {step : σ → β → σ} (observe : σ → γ) {items : List β}
    (same : ∀ state, ∀ item ∈ items, observe (step state item) = observe state) (state : σ) :
    observe (items.foldl step state) = observe state :=
  foldl_invariant (P := fun s => observe s = observe state)
    (fun s hs b hb => (same s b hb).trans hs) rfl

/-- Loops that may fail stay related if each iteration keeps them so. -/
theorem foldlM_rel {τ : Type*} {R : σ → τ → Prop} {step : σ → β → Option σ}
    {step' : τ → β → Option τ}
    (keeps : ∀ state state', R state state' → ∀ item,
      Option.Rel R (step state item) (step' state' item))
    (items : List β) {state : σ} {state' : τ} (related : R state state') :
    Option.Rel R (items.foldlM step state) (items.foldlM step' state') := by
  induction items generalizing state state' with
  | nil => exact .some related
  | cons item rest ih =>
      rw [List.foldlM_cons, List.foldlM_cons]
      cases next : step state item <;> cases next' : step' state' item <;>
        have one := keeps state state' related item <;> rw [next, next'] at one <;> cases one
      · exact .none
      · rename_i relatedNext
        exact ih relatedNext

/-- A nested enumeration has no duplicates when the outer list has none, every
inner list has none, and no result is listed for two outer elements. -/
theorem nodup_flatMap_of_unique {items : List β} {inner : β → List γ}
    (outer : items.Nodup) (each : ∀ item ∈ items, (inner item).Nodup)
    (unique : ∀ a ∈ items, ∀ b ∈ items, ∀ result, result ∈ inner a → result ∈ inner b → a = b) :
    (items.flatMap inner).Nodup := by
  refine List.nodup_flatMap.mpr ⟨each, ?_⟩
  refine List.Pairwise.imp_of_mem ?_ outer
  intro a b memA memB different x inA inB
  exact different (unique a memA b memB x inA inB)

/-- `nodup_flatMap_of_unique` where a key of the result is its outer element. -/
theorem nodup_flatMap_of_key {items : List β} {inner : β → List γ} (key : γ → β)
    (outer : items.Nodup) (each : ∀ item ∈ items, (inner item).Nodup)
    (determined : ∀ item ∈ items, ∀ result ∈ inner item, key result = item) :
    (items.flatMap inner).Nodup :=
  nodup_flatMap_of_unique outer each fun a memA b memB x inA inB =>
    (determined a memA x inA).symm.trans (determined b memB x inB)

end Tyr.Lib
