import Mathlib.Algebra.BigOperators.Group.List.Basic
import Mathlib.Data.List.Forall2
import Mathlib.Data.List.Nodup

/-!
Counting through all choices of one index for each of several ranges.

The first index runs fastest. An index that reaches the end of its range is reset and
the following index moves.

* `advance` — the next indices, or none after the last ones.
* `value_advance` — a step adds one to the number that the indices spell.
* `search_first_iff` — a search from the first indices visits all of them.
* `getElem?_all` — all indices are listed in the order of the numbers that they spell.
* `sweeps_all` — moving from the first indices on visits the list of all indices.
-/

namespace Tyr.Lib.Odometer

def advance : List Nat → List Nat → Option (List Nat)
  | size :: sizes, index :: indices =>
      if index + 1 < size then some ((index + 1) :: indices)
      else (advance sizes indices).map (0 :: ·)
  | _, _ => none

/-- The number that the indices spell, the first index being the lowest digit. -/
def value : List Nat → List Nat → Nat
  | size :: sizes, index :: indices => index + size * value sizes indices
  | _, _ => 0

def InRange (sizes indices : List Nat) : Prop :=
  List.Forall₂ (· < ·) indices sizes

variable {sizes indices next other : List Nat}

theorem inRange_advance (inRange : InRange sizes indices) (step : advance sizes indices = some next) :
    InRange sizes next := by
  induction inRange generalizing next with
  | nil => cases step
  | cons lt inRange ih =>
      rw [advance] at step
      split at step
      · rename_i within
        cases step
        exact .cons within inRange
      · obtain ⟨rest, stepRest, rfl⟩ := Option.map_eq_some_iff.mp step
        exact .cons (Nat.zero_lt_of_lt lt) (ih stepRest)

theorem value_advance (inRange : InRange sizes indices) (step : advance sizes indices = some next) :
    value sizes next = value sizes indices + 1 := by
  induction inRange generalizing next with
  | nil => cases step
  | cons lt inRange ih =>
      rw [advance] at step
      split at step
      · cases step
        rw [value, value]
        omega
      · obtain ⟨rest, stepRest, rfl⟩ := Option.map_eq_some_iff.mp step
        rw [value, value, ih stepRest, Nat.mul_add]
        omega

theorem value_lt (inRange : InRange sizes indices) : value sizes indices < sizes.prod := by
  induction inRange with
  | nil => decide
  | cons lt inRange ih =>
      rename_i index size indices sizes
      rw [value, List.prod_cons]
      calc index + size * value sizes indices
          < size + size * value sizes indices := Nat.add_lt_add_right lt _
        _ = size * (value sizes indices + 1) := by rw [Nat.mul_add, Nat.mul_one, Nat.add_comm]
        _ ≤ size * sizes.prod := Nat.mul_le_mul_left _ ih

theorem value_of_advance_eq_none (inRange : InRange sizes indices)
    (last : advance sizes indices = none) : value sizes indices + 1 = sizes.prod := by
  induction inRange with
  | nil => decide
  | cons lt inRange ih =>
      rename_i index size indices sizes
      rw [advance] at last
      split at last
      · cases last
      · rw [value, List.prod_cons, ← ih (Option.map_eq_none_iff.mp last), Nat.mul_add]
        omega

/-- The indices are determined by the number that they spell. -/
theorem value_injective (inRange : InRange sizes indices) (inRangeOther : InRange sizes other)
    (same : value sizes indices = value sizes other) : indices = other := by
  induction inRange generalizing other with
  | nil => rw [List.forall₂_nil_right_iff.mp inRangeOther]
  | cons lt inRange ih =>
      rename_i index size indices sizes
      obtain _ | @⟨index', _, indices', _, lt', inRange'⟩ := inRangeOther
      rw [value, value] at same
      have sameIndex : index = index' := by
        have mods := congrArg (· % size) same
        simpa [Nat.add_mul_mod_self_left, Nat.mod_eq_of_lt lt, Nat.mod_eq_of_lt lt'] using mods
      subst sameIndex
      have sameValue := Nat.eq_of_mul_eq_mul_left (Nat.zero_lt_of_lt lt) (Nat.add_left_cancel same)
      rw [ih inRange' sameValue]

/-! ### Searching -/

structure Indices (sizes : List Nat) where
  val : List Nat
  inRange : InRange sizes val

theorem inRange_replicate_zero (positive : ∀ size ∈ sizes, 0 < size) :
    InRange sizes (List.replicate sizes.length 0) := by
  induction sizes with
  | nil => exact .nil
  | cons size sizes ih =>
      exact .cons (positive size List.mem_cons_self)
        (ih fun s mem => positive s (List.mem_cons_of_mem _ mem))

/-- All indices are zero. -/
def Indices.first (positive : ∀ size ∈ sizes, 0 < size) : Indices sizes :=
  ⟨List.replicate sizes.length 0, inRange_replicate_zero positive⟩

/-- Test the indices and those after them until a test succeeds. -/
def search (test : List Nat → Bool) (indices : Indices sizes) : Bool :=
  if test indices.val then true
  else
    match step : advance sizes indices.val with
    | none => false
    | some next => search test ⟨next, inRange_advance indices.inRange step⟩
termination_by sizes.prod - value sizes indices.val
decreasing_by
  have more := value_advance indices.inRange step
  have below := value_lt (inRange_advance indices.inRange step)
  omega

/-- The search visits the indices at which it starts and all later ones. -/
theorem search_iff_later {test : List Nat → Bool} (indices : Indices sizes) :
    search test indices = true ↔
      ∃ later, InRange sizes later ∧ value sizes indices.val ≤ value sizes later ∧
        test later = true := by
  induction indices using search.induct test with
  | case1 indices passes =>
      rw [search, if_pos passes]
      exact iff_of_true rfl ⟨indices.val, indices.inRange, Nat.le_refl _, passes⟩
  | case2 indices fails last =>
      rw [search, if_neg fails]
      split
      · constructor
        · intro absurdity
          cases absurdity
        · rintro ⟨later, inRange, le, passes⟩
          have final := value_of_advance_eq_none indices.inRange last
          have below := value_lt inRange
          have same := value_injective indices.inRange inRange (by omega)
          exact absurd (same ▸ passes) fails
      · rename_i next step
        cases last.symm.trans step
  | case3 indices fails next step ih =>
      have more := value_advance indices.inRange step
      rw [search, if_neg fails]
      split
      · rename_i last
        cases last.symm.trans step
      · rename_i other stepOther
        cases stepOther.symm.trans step
        rw [ih]
        dsimp only
        constructor
        · rintro ⟨later, inRange, le, passes⟩
          exact ⟨later, inRange, by omega, passes⟩
        · rintro ⟨later, inRange, le, passes⟩
          have ne : value sizes indices.val ≠ value sizes later := by
            intro same
            exact fails (value_injective indices.inRange inRange same ▸ passes)
          exact ⟨later, inRange, by omega, passes⟩

theorem value_replicate_zero : value sizes (List.replicate sizes.length 0) = 0 := by
  induction sizes with
  | nil => rfl
  | cons size sizes ih =>
      rw [List.length_cons, List.replicate_succ, value, ih]
      rfl

theorem search_first_iff {test : List Nat → Bool} (positive : ∀ size ∈ sizes, 0 < size) :
    search test (Indices.first positive) = true ↔ ∃ indices, InRange sizes indices ∧ test indices = true := by
  rw [search_iff_later, Indices.first, value_replicate_zero]
  simp only [Nat.zero_le, true_and]

/-! ### Listing all indices -/

/-- All indices, in the order of the numbers that they spell. -/
def all : List Nat → List (List Nat)
  | [] => [[]]
  | size :: sizes => (all sizes).flatMap fun rest => (List.range size).map (· :: rest)

theorem mem_all : indices ∈ all sizes ↔ InRange sizes indices := by
  induction sizes generalizing indices with
  | nil => rw [all, List.mem_singleton, InRange, List.forall₂_nil_right_iff]
  | cons size sizes ih =>
      simp only [all, List.mem_flatMap, List.mem_map, List.mem_range, ih]
      constructor
      · rintro ⟨rest, inRange, index, less, rfl⟩
        exact .cons less inRange
      · rintro (_ | ⟨less, inRange⟩)
        exact ⟨_, inRange, _, less, rfl⟩

theorem flatMap_range (size n : Nat) :
    (List.range n).flatMap (fun v => (List.range size).map (· + size * v)) =
      List.range (size * n) := by
  induction n with
  | zero => rfl
  | succ n ih =>
      rw [List.range_succ, List.flatMap_append, ih, List.flatMap_singleton, Nat.mul_succ,
        List.range_add]
      simp [Nat.add_comm]

theorem map_value_all (sizes : List Nat) : (all sizes).map (value sizes) = List.range sizes.prod := by
  induction sizes with
  | nil => rfl
  | cons size sizes ih =>
      rw [all, List.map_flatMap, List.prod_cons, ← flatMap_range, ← ih, List.flatMap_map]
      simp only [List.map_map]
      rfl

theorem length_all (sizes : List Nat) : (all sizes).length = sizes.prod := by
  simpa using congrArg List.length (map_value_all sizes)

theorem nodup_all (sizes : List Nat) : (all sizes).Nodup := by
  apply List.Nodup.of_map (value sizes)
  rw [map_value_all]
  exact List.nodup_range

/-- Indices are listed at the number that they spell. -/
theorem getElem?_all {k : Nat} :
    (all sizes)[k]? = some indices ↔ InRange sizes indices ∧ value sizes indices = k := by
  have position : ∀ {k : Nat} {indices : List Nat}, (all sizes)[k]? = some indices →
      value sizes indices = k := by
    intro k indices found
    have mapped : (List.range sizes.prod)[k]? = some (value sizes indices) := by
      rw [← map_value_all, List.getElem?_map, found]
      rfl
    obtain ⟨inside, same⟩ := List.getElem?_eq_some_iff.mp mapped
    rw [List.getElem_range] at same
    exact same.symm
  constructor
  · intro found
    exact ⟨mem_all.mp (List.mem_of_getElem? found), position found⟩
  · rintro ⟨inRange, rfl⟩
    obtain ⟨k, found⟩ := List.mem_iff_getElem?.mp (mem_all.mpr inRange)
    rw [position found]
    exact found

/-! ### Loops over items -/

section

variable {σ α β : Type*}

/-- A loop that visits its item and moves it, as long as `next` says so. The first argument
bounds the iterations. -/
def sweep (next : α → Bool × α) (visit : σ → α → σ) : Nat → σ → α → Option (σ × α)
  | 0, _, _ => none
  | fuel + 1, s, item =>
      match next item with
      | (true, moved) => sweep next visit fuel (visit s item) moved
      | (false, moved) => some (visit s item, moved)

/-- The items follow each other, and the last one ends the loop. -/
def Sweeps (next : α → Bool × α) (reset : α) : List α → Prop
  | [] => False
  | [item] => next item = (false, reset)
  | item :: moved :: rest => next item = (true, moved) ∧ Sweeps next reset (moved :: rest)

variable {next : α → Bool × α} {reset : α}

/-- The loop visits the items in their order. -/
theorem sweep_eq {visit : σ → α → σ} {item : α} {rest : List α}
    (sweeps : Sweeps next reset (item :: rest)) {fuel : Nat} (enough : rest.length < fuel) (s : σ) :
    sweep next visit fuel s item = some ((item :: rest).foldl visit s, reset) := by
  induction rest generalizing item fuel s with
  | nil =>
      cases fuel with
      | zero => exact absurd enough (Nat.not_lt_zero _)
      | succ fuel =>
          rw [Sweeps] at sweeps
          rw [sweep, sweeps]
          rfl
  | cons moved rest ih =>
      cases fuel with
      | zero => exact absurd enough (Nat.not_lt_zero _)
      | succ fuel =>
          obtain ⟨one, later⟩ := sweeps
          rw [sweep, one]
          exact ih later (Nat.lt_of_succ_lt_succ enough) (visit s item)

theorem sweeps_of_getElem? {items : List α} (nonempty : items ≠ [])
    (follows : ∀ k item moved, items[k]? = some item → items[k + 1]? = some moved →
      next item = (true, moved))
    (ends : ∀ k item, items[k]? = some item → k + 1 = items.length → next item = (false, reset)) :
    Sweeps next reset items := by
  induction items with
  | nil => exact absurd rfl nonempty
  | cons item rest ih =>
      cases rest with
      | nil => exact ends 0 item rfl rfl
      | cons moved rest =>
          refine ⟨follows 0 item moved rfl rfl, ih (List.cons_ne_nil _ _) ?_ ?_⟩
          · exact fun k => follows (k + 1)
          · exact fun k other found last => ends (k + 1) other found (congrArg (· + 1) last)

theorem Sweeps.map {next' : β → Bool × β} (f : α → β) {items : List α}
    (same : ∀ item ∈ items, next' (f item) = ((next item).1, f (next item).2))
    (sweeps : Sweeps next reset items) : Sweeps next' (f reset) (items.map f) := by
  induction items with
  | nil => exact sweeps
  | cons item rest ih =>
      have own := same item List.mem_cons_self
      cases rest with
      | nil =>
          rw [Sweeps] at sweeps
          rw [sweeps] at own
          exact own
      | cons moved rest =>
          obtain ⟨one, later⟩ := sweeps
          rw [one] at own
          exact ⟨own, ih (fun other mem => same other (List.mem_cons_of_mem _ mem)) later⟩

end

/-- The next indices, or the first ones again after the last ones. -/
def turn (sizes indices : List Nat) : Bool × List Nat :=
  match advance sizes indices with
  | some next => (true, next)
  | none => (false, List.replicate sizes.length 0)

theorem turn_cons (size index : Nat) (sizes indices : List Nat) :
    turn (size :: sizes) (index :: indices) =
      if index + 1 < size then (true, (index + 1) :: indices)
      else ((turn sizes indices).1, 0 :: (turn sizes indices).2) := by
  rw [turn, turn, advance]
  by_cases within : index + 1 < size
  · rw [if_pos within, if_pos within]
  · rw [if_neg within, if_neg within]
    cases advance sizes indices with
    | none => rfl
    | some next => rfl

/-- From the first indices on, all of them are visited in their order. -/
theorem sweeps_all (positive : ∀ size ∈ sizes, 0 < size) :
    Sweeps (turn sizes) (List.replicate sizes.length 0) (all sizes) := by
  have first := value_lt (inRange_replicate_zero positive)
  apply sweeps_of_getElem?
  · intro empty
    have length := length_all sizes
    rw [empty, List.length_nil] at length
    omega
  · intro k item moved found foundNext
    obtain ⟨inRange, spells⟩ := getElem?_all.mp found
    obtain ⟨inRangeNext, spellsNext⟩ := getElem?_all.mp foundNext
    rw [turn]
    cases step : advance sizes item with
    | none =>
        have last := value_of_advance_eq_none inRange step
        have below := value_lt inRangeNext
        omega
    | some next =>
        have one := value_advance inRange step
        rw [value_injective (inRange_advance inRange step) inRangeNext (by omega)]
  · intro k item found last
    obtain ⟨inRange, spells⟩ := getElem?_all.mp found
    rw [length_all] at last
    rw [turn]
    cases step : advance sizes item with
    | none => rfl
    | some next =>
        have one := value_advance inRange step
        have below := value_lt (inRange_advance inRange step)
        omega

/-- The list of all indices begins with the first ones. -/
theorem all_eq_cons (positive : ∀ size ∈ sizes, 0 < size) :
    ∃ rest, all sizes = List.replicate sizes.length 0 :: rest ∧ rest.length < sizes.prod := by
  have first : (all sizes)[0]? = some (List.replicate sizes.length 0) :=
    getElem?_all.mpr ⟨inRange_replicate_zero positive, value_replicate_zero⟩
  have length := length_all sizes
  cases listed : all sizes with
  | nil =>
      rw [listed] at first
      cases first
  | cons indices rest =>
      rw [listed] at first length
      cases first
      exact ⟨rest, rfl, by rw [← length]; exact Nat.lt_succ_self _⟩

end Tyr.Lib.Odometer
