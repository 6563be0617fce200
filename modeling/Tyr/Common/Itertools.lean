import Mathlib.Data.List.Basic
import Mathlib.Data.List.Forall2
import Mathlib.Data.List.GetD
import Mathlib.Data.List.Induction
import Tyr.Lib.Odometer

/-!
Enumeration of cartesian products and of boolean vectors.

Both loops count through indices: `for_each_element` from the last position to the first
one, and `for_each_boolean_vector` from the first position to the last one.

* `forEachElement_eq` — the callback is called for the elements of the product, in the order
  of `elements`.
* `forEachBooleanVector_eq` — the callback is called for the vectors, in the order of the
  numbers that they spell.
-/

namespace Tyr.CartesianSet

open Tyr.Lib

variable {α : Type*}

/-- The elements of the product in the order in which `for_each_element` visits
them: the last factor runs fastest, and an empty list of factors has the empty
element. -/
def elements : List (List α) → List (List α)
  | [] => [[]]
  | factor :: factors => factor.flatMap fun x => (elements factors).map (x :: ·)

theorem mem_elements {factors : List (List α)} {element : List α} :
    element ∈ elements factors ↔ List.Forall₂ (· ∈ ·) element factors := by
  induction factors generalizing element with
  | nil => rw [elements, List.mem_singleton, List.forall₂_nil_right_iff]
  | cons factor factors ih =>
      simp only [elements, List.mem_flatMap, List.mem_map]
      constructor
      · rintro ⟨x, mem, rest, memRest, rfl⟩
        exact .cons mem (ih.mp memRest)
      · rintro (_ | ⟨mem, memRest⟩)
        exact ⟨_, mem, _, ih.mpr memRest, rfl⟩

theorem nodup_elements {factors : List (List α)} (sets : ∀ factor ∈ factors, factor.Nodup) :
    (elements factors).Nodup := by
  induction factors with
  | nil => exact List.nodup_singleton _
  | cons factor factors ih =>
      have rest := ih fun other mem => sets other (List.mem_cons_of_mem _ mem)
      refine List.nodup_flatMap.mpr ⟨fun x _ => rest.map (List.cons_injective), ?_⟩
      refine (sets factor List.mem_cons_self).imp fun different => ?_
      intro element inFirst inSecond
      obtain ⟨_, _, rfl⟩ := List.mem_map.mp inFirst
      obtain ⟨_, _, same⟩ := List.mem_map.mp inSecond
      exact different (List.cons.inj same).1.symm

theorem elements_eq_nil {factors : List (List α)} (empty : [] ∈ factors) : elements factors = [] := by
  induction factors with
  | nil => cases empty
  | cons factor factors ih =>
      rw [elements]
      rcases List.mem_cons.mp empty with rfl | later
      · rfl
      · simp [ih later]

theorem elements_concat (factors : List (List α)) (factor : List α) :
    elements (factors ++ [factor]) =
      (elements factors).flatMap fun element => factor.map (element ++ [·]) := by
  induction factors with
  | nil => simp [elements, List.map_eq_flatMap]
  | cons first factors ih =>
      rw [List.cons_append, elements, ih, elements, List.flatMap_assoc]
      simp [List.map_flatMap, List.flatMap_map, List.map_map, Function.comp_def]

/-! ### The increment -/

/-- The increment from a position on; it fails when the first position overflows. -/
def increment (factors : List (List α)) : Nat → List Nat → Bool × List Nat
  | pos, indices =>
      let index := indices.getD pos 0 + 1
      if index < (factors.getD pos []).length then (true, indices.set pos index)
      else
        match pos with
        | 0 => (false, indices.set 0 0)
        | pos + 1 => increment factors pos (indices.set (pos + 1) 0)

/-- The numbers of choices of the positions, the last position first. -/
def sizes (factors : List (List α)) : List Nat := (factors.map List.length).reverse

theorem sizes_concat (factors : List (List α)) (factor : List α) :
    sizes (factors ++ [factor]) = factor.length :: sizes factors := by
  simp [sizes]

theorem length_sizes (factors : List (List α)) : (sizes factors).length = factors.length := by
  simp [sizes]

theorem positive_sizes {factors : List (List α)} (full : [] ∉ factors) :
    ∀ size ∈ sizes factors, 0 < size := by
  intro size mem
  obtain ⟨factor, inFactors, rfl⟩ := List.mem_map.mp (List.mem_reverse.mp mem)
  exact List.length_pos_iff.mpr fun empty => full (empty ▸ inFactors)

/-- The loop counts as the odometer does, with the positions in the other direction. -/
theorem increment_reverse (front back : List (List α)) (indices tail : List Nat)
    (length : indices.length = front.length) (nonempty : front ≠ []) :
    increment (front.reverse ++ back) (front.length - 1) (indices.reverse ++ tail) =
      ((Odometer.turn (front.map List.length) indices).1,
        (Odometer.turn (front.map List.length) indices).2.reverse ++ tail) := by
  induction front generalizing back indices tail with
  | nil => exact absurd rfl nonempty
  | cons factor front ih =>
      cases indices with
      | nil => cases length
      | cons index indices =>
          have length : indices.length = front.length := Nat.succ.inj length
          have last : (indices.reverse ++ index :: tail).getD front.length 0 = index := by
            simp [← length]
          have own : (front.reverse ++ factor :: back).getD front.length [] = factor := by
            simp
          have set : ∀ value, (indices.reverse ++ index :: tail).set front.length value =
              indices.reverse ++ value :: tail := by
            intro value
            simp [← length]
          rw [List.reverse_cons, List.reverse_cons, List.append_assoc, List.append_assoc,
            List.singleton_append, List.singleton_append, List.length_cons, Nat.add_sub_cancel,
            increment.eq_def, List.map_cons, Odometer.turn_cons]
          simp only [last, own]
          split
          · simp [set]
          · cases front with
            | nil =>
                rw [List.length_eq_zero_iff.mp length]
                rfl
            | cons other front =>
                have rest := ih (factor :: back) indices (0 :: tail) length (List.cons_ne_nil _ _)
                simp only [List.length_cons, Nat.add_sub_cancel, List.reverse_cons,
                  List.append_assoc, List.singleton_append] at rest
                rw [List.length_cons] at set
                simp only [List.length_cons, set, rest, List.reverse_cons, List.append_assoc,
                  List.singleton_append]

/-- The loop visits all indices, in the order of the odometer. -/
theorem sweeps_increment {factors : List (List α)} (nonempty : factors ≠ []) (full : [] ∉ factors) :
    Odometer.Sweeps (increment factors (factors.length - 1))
      (List.replicate (sizes factors).length 0).reverse
      ((Odometer.all (sizes factors)).map List.reverse) := by
  refine (Odometer.sweeps_all (positive_sizes full)).map List.reverse fun indices mem => ?_
  have length := (Odometer.mem_all.mp mem).length_eq
  rw [length_sizes] at length
  have step := increment_reverse factors.reverse [] indices [] (by simpa using length)
    (by simpa using nonempty)
  simpa [sizes] using step

/-! ### The loop -/

structure Workspace (α : Type*) where
  element : List α
  indices : List Nat

section

variable {σ : Type*} [Inhabited α]

/-- `std::vector::resize`. -/
def resize (list : List α) (n : Nat) : List α :=
  list.take n ++ List.replicate (n - list.length) default

/-- The component of a tuple. -/
def component (factors : List (List α)) (indices : List Nat) (i : Nat) : α :=
  (factors.getD i []).getD (indices.getD i 0) default

/-- Emit the current tuple. -/
def emit (factors : List (List α)) (element : List α) (indices : List Nat) : List α :=
  (List.range factors.length).foldl
    (fun element i => element.set i (component factors indices i)) element

/-- One iteration up to the call of the callback. -/
def visit (callback : σ → List α → σ) (factors : List (List α)) (state : List α × σ)
    (indices : List Nat) : List α × σ :=
  let element := emit factors state.1 indices
  (element, callback state.2 element)

/-- `for_each_element`, for a number of iterations, on a state that the callback changes. -/
def forEachElement (callback : σ → List α → σ) (fuel : Nat) (factors : List (List α))
    (workspace : Workspace α) (s : σ) : Option (Workspace α × σ) :=
  let n := factors.length
  let element := resize workspace.element n
  if n = 0 then some (⟨element, workspace.indices⟩, callback s element)
  else if factors.any List.isEmpty then some (⟨element, workspace.indices⟩, s)
  else
    (Odometer.sweep (increment factors (n - 1)) (visit callback factors) fuel (element, s)
      (List.replicate n 0)).map fun result => (⟨result.1.1, result.2⟩, result.1.2)

/-- The tuple of the components. -/
def tuple (factors : List (List α)) (indices : List Nat) : List α :=
  (List.range factors.length).map (component factors indices)

theorem length_resize (list : List α) (n : Nat) : (resize list n).length = n := by
  simp [resize]
  omega

/-- Emitting overwrites the whole element. -/
theorem emit_eq {factors : List (List α)} {element : List α} (length : element.length = factors.length)
    (indices : List Nat) : emit factors element indices = tuple factors indices := by
  have written : ∀ n ≤ element.length, (List.range n).foldl
      (fun element i => element.set i (component factors indices i)) element =
        (List.range n).map (component factors indices) ++ element.drop n := by
    intro n
    induction n with
    | zero => simp
    | succ n ih =>
        intro le
        rw [List.range_succ, List.foldl_append, ih (Nat.le_of_succ_le le), List.foldl_cons,
          List.foldl_nil, List.set_append_right _ _ (by simp), List.map_append,
          List.drop_eq_getElem_cons (Nat.lt_of_succ_le le), List.length_map, List.length_range,
          Nat.sub_self, List.set_cons_zero, List.map_singleton, List.append_assoc]
        rfl
  rw [emit, ← length, written _ (Nat.le_refl _), List.drop_length, List.append_nil, length, tuple]

theorem tuple_concat {factors : List (List α)} {factor : List α} {indices : List Nat} {index : Nat}
    (length : indices.length = factors.length) :
    tuple (factors ++ [factor]) (indices ++ [index]) =
      tuple factors indices ++ [factor.getD index default] := by
  rw [tuple, List.length_append, List.length_singleton, List.range_succ, List.map_append, tuple,
    List.map_singleton]
  congr 1
  · refine List.map_congr_left fun i mem => ?_
    have less := List.mem_range.mp mem
    rw [component, component, List.getD_append _ _ _ _ less,
      List.getD_append _ _ _ _ (length ▸ less)]
  · rw [component, List.getD_append_right _ _ _ _ (Nat.le_refl _), ← length,
      List.getD_append_right _ _ _ _ (Nat.le_refl _), Nat.sub_self]
    rfl

/-- The tuples of all indices, where the last index moves first. -/
theorem elements_eq_map (factors : List (List α)) :
    elements factors = (Odometer.all (sizes factors)).map fun indices =>
      tuple factors indices.reverse := by
  induction factors using List.reverseRecOn with
  | nil => rfl
  | append_singleton factors factor ih =>
      have own : factor = (List.range factor.length).map (factor.getD · default) := by
        apply List.ext_getElem
        · simp
        · intro i inside _
          simp [inside]
      rw [elements_concat, ih, sizes_concat, Odometer.all,
        List.flatMap_map, List.map_flatMap]
      refine List.flatMap_congr fun indices mem => ?_
      have length : indices.reverse.length = factors.length := by
        simpa [length_sizes] using (Odometer.mem_all.mp mem).length_eq
      rw [List.map_map]
      conv_lhs => rw [own, List.map_map]
      refine List.map_congr_left fun index _ => ?_
      rw [Function.comp_apply, Function.comp_apply, List.reverse_cons, tuple_concat length]

theorem foldl_visit (callback : σ → List α → σ) {factors : List (List α)} (indices : List (List Nat))
    {element : List α} (length : element.length = factors.length) (s : σ) :
    (indices.foldl (visit callback factors) (element, s)).2 =
      (indices.map (tuple factors)).foldl callback s := by
  induction indices generalizing element s with
  | nil => rfl
  | cons first rest ih =>
      rw [List.foldl_cons, visit, emit_eq length, List.map_cons, List.foldl_cons]
      exact ih (by simp [tuple]) _

/-- The callback is called for the elements of the product, whatever the workspace holds. -/
theorem forEachElement_eq (callback : σ → List α → σ) {fuel : Nat} (factors : List (List α))
    (enough : (factors.map List.length).prod ≤ fuel) (workspace : Workspace α) (s : σ) :
    ∃ workspace', forEachElement callback fuel factors workspace s =
      some (workspace', (elements factors).foldl callback s) := by
  unfold forEachElement
  have resized := length_resize workspace.element factors.length
  dsimp only
  split
  · next zero =>
      rw [List.length_eq_zero_iff.mp zero] at resized ⊢
      rw [List.length_eq_zero_iff.mp resized]
      exact ⟨_, rfl⟩
  · next nonzero =>
      have nonempty : factors ≠ [] := fun empty => nonzero (congrArg List.length empty)
      split
      · next empty =>
          obtain ⟨factor, mem, isEmpty⟩ := List.any_eq_true.mp empty
          rw [elements_eq_nil (List.isEmpty_iff.mp isEmpty ▸ mem)]
          exact ⟨_, rfl⟩
      · next full =>
          have loop := sweeps_increment nonempty (by simpa using full)
          obtain ⟨rest, listed, short⟩ := Odometer.all_eq_cons (positive_sizes (by simpa using full))
          rw [listed, List.map_cons, List.reverse_replicate, length_sizes] at loop
          have enough : (rest.map List.reverse).length < fuel := by
            rw [List.length_map]
            rw [sizes, List.prod_reverse] at short
            exact Nat.lt_of_lt_of_le short enough
          rw [Odometer.sweep_eq loop enough]
          refine ⟨_, congrArg some (Prod.ext rfl ?_)⟩
          dsimp only
          rw [foldl_visit callback _ resized, elements_eq_map, listed, List.map_cons, List.map_cons,
            List.reverse_replicate, length_sizes, List.map_map]
          rfl

end

end Tyr.CartesianSet

namespace Tyr.Itertools

open Tyr.Lib

section

variable {σ : Type*}

/-- The `for` loop: the entries before the first `false` are cleared, and that one is set. -/
def incrementBits : List Bool → Bool × List Bool
  | [] => (false, [])
  | false :: rest => (true, true :: rest)
  | true :: rest => ((incrementBits rest).1, false :: (incrementBits rest).2)

/-- The `while` loop, for a number of iterations. -/
def booleanLoop (callback : σ → List Bool → σ) : Nat → σ → List Bool → Option σ
  | 0, _, _ => none
  | fuel + 1, s, indices =>
      match incrementBits indices with
      | (true, next) => booleanLoop callback fuel (callback s next) next
      | (false, _) => some s

def forEachBooleanVector (callback : σ → List Bool → σ) (fuel n : Nat) (s : σ) : Option σ :=
  let indices := List.replicate n false
  booleanLoop callback fuel (callback s indices) indices

/-- The number that a vector spells, the first entry being the lowest bit. -/
def rank (bits : List Bool) : Nat :=
  Odometer.value (List.replicate bits.length 2) (bits.map Bool.toNat)

theorem rank_cons (bit : Bool) (bits : List Bool) : rank (bit :: bits) = bit.toNat + 2 * rank bits := rfl

theorem rank_concat (bits : List Bool) (bit : Bool) :
    rank (bits ++ [bit]) = rank bits + 2 ^ bits.length * bit.toNat := by
  induction bits with
  | nil => simp [rank, Odometer.value]
  | cons first rest ih =>
      rw [List.cons_append, rank_cons, rank_cons, ih, List.length_cons, Nat.pow_succ', Nat.mul_add,
        Nat.mul_assoc, Nat.add_assoc]

theorem rank_lt (bits : List Bool) : rank bits < 2 ^ bits.length := by
  induction bits with
  | nil => exact Nat.one_pos
  | cons bit rest ih =>
      have one := Bool.toNat_lt bit
      rw [rank_cons, List.length_cons, Nat.pow_succ']
      omega

/-- The vectors in the order of the numbers that they spell. -/
def vectors (n : Nat) : List (List Bool) :=
  (Odometer.all (List.replicate n 2)).map (List.map (· == 1))

variable {n : Nat}

theorem map_toNat_eq_one (bits : List Bool) : (bits.map Bool.toNat).map (· == 1) = bits := by
  rw [List.map_map]
  refine (List.map_congr_left fun bit _ => ?_).trans (List.map_id bits)
  cases bit <;> rfl

theorem inRange_bits_iff {digits : List Nat} :
    Odometer.InRange (List.replicate n 2) digits ↔
      ∃ bits : List Bool, bits.length = n ∧ digits = bits.map Bool.toNat := by
  induction n generalizing digits with
  | zero =>
      rw [List.replicate_zero, Odometer.InRange, List.forall₂_nil_right_iff]
      constructor
      · rintro rfl
        exact ⟨[], rfl, rfl⟩
      · rintro ⟨bits, length, rfl⟩
        rw [List.length_eq_zero_iff.mp length]
        rfl
  | succ n ih =>
      rw [List.replicate_succ]
      constructor
      · rintro (_ | @⟨digit, _, digits, _, less, inRange⟩)
        obtain ⟨bits, length, rfl⟩ := ih.mp inRange
        refine ⟨(digit == 1) :: bits, congrArg (· + 1) length, ?_⟩
        have cases : digit = 0 ∨ digit = 1 := by omega
        rcases cases with rfl | rfl <;> rfl
      · rintro ⟨bits, length, rfl⟩
        cases bits with
        | nil => cases length
        | cons bit bits =>
            exact .cons (Bool.toNat_lt bit) (ih.mpr ⟨bits, Nat.succ.inj length, rfl⟩)

/-- A vector stands at the number that it spells. -/
theorem getElem?_vectors {k : Nat} {bits : List Bool} :
    (vectors n)[k]? = some bits ↔ bits.length = n ∧ rank bits = k := by
  rw [vectors, List.getElem?_map, Option.map_eq_some_iff]
  constructor
  · rintro ⟨digits, found, rfl⟩
    obtain ⟨inRange, spells⟩ := Odometer.getElem?_all.mp found
    obtain ⟨bits, length, rfl⟩ := inRange_bits_iff.mp inRange
    rw [map_toNat_eq_one]
    exact ⟨length, by rw [rank, length, spells]⟩
  · rintro ⟨rfl, rfl⟩
    exact ⟨bits.map Bool.toNat, Odometer.getElem?_all.mpr ⟨inRange_bits_iff.mpr ⟨bits, rfl, rfl⟩, rfl⟩,
      map_toNat_eq_one bits⟩

theorem mem_vectors {bits : List Bool} : bits ∈ vectors n ↔ bits.length = n := by
  rw [List.mem_iff_getElem?]
  simp only [getElem?_vectors]
  constructor
  · rintro ⟨_, length, _⟩
    exact length
  · exact fun length => ⟨_, length, rfl⟩

theorem length_vectors (n : Nat) : (vectors n).length = 2 ^ n := by
  rw [vectors, List.length_map, Odometer.length_all, List.prod_replicate]

theorem nodup_vectors (n : Nat) : (vectors n).Nodup := by
  refine (Odometer.nodup_all _).map_on ?_
  intro digits mem digits' mem' same
  obtain ⟨bits, _, rfl⟩ := inRange_bits_iff.mp (Odometer.mem_all.mp mem)
  obtain ⟨bits', _, rfl⟩ := inRange_bits_iff.mp (Odometer.mem_all.mp mem')
  rw [map_toNat_eq_one, map_toNat_eq_one] at same
  rw [same]

/-- The increment is that of the odometer. -/
theorem incrementBits_eq (bits : List Bool) :
    incrementBits bits =
      ((Odometer.turn (List.replicate bits.length 2) (bits.map Bool.toNat)).1,
        (Odometer.turn (List.replicate bits.length 2) (bits.map Bool.toNat)).2.map (· == 1)) := by
  induction bits with
  | nil => rfl
  | cons bit rest ih =>
      rw [List.length_cons, List.replicate_succ, List.map_cons, Odometer.turn_cons]
      cases bit with
      | false => simpa [incrementBits] using (map_toNat_eq_one rest).symm
      | true => simp [incrementBits, ih]

theorem booleanLoop_eq (callback : σ → List Bool → σ) (fuel : Nat) (s : σ) (indices : List Bool) :
    booleanLoop callback fuel (callback s indices) indices =
      (Odometer.sweep incrementBits callback fuel s indices).map Prod.fst := by
  induction fuel generalizing s indices with
  | zero => rfl
  | succ fuel ih =>
      rw [booleanLoop, Odometer.sweep]
      cases step : incrementBits indices with
      | mk moved next =>
          cases moved with
          | false => rfl
          | true => exact ih (callback s indices) next

/-- The callback is called for all vectors, in the order of the numbers that they spell. -/
theorem forEachBooleanVector_eq (callback : σ → List Bool → σ) {fuel : Nat} (enough : 2 ^ n ≤ fuel)
    (s : σ) : forEachBooleanVector callback fuel n s = some ((vectors n).foldl callback s) := by
  have positive : ∀ size ∈ List.replicate n 2, 0 < size := by
    intro size mem
    rw [List.eq_of_mem_replicate mem]
    exact Nat.two_pos
  have same : ∀ digits ∈ Odometer.all (List.replicate n 2), incrementBits (digits.map (· == 1)) =
      ((Odometer.turn (List.replicate n 2) digits).1,
        (Odometer.turn (List.replicate n 2) digits).2.map (· == 1)) := by
    intro digits mem
    obtain ⟨bits, rfl, rfl⟩ := inRange_bits_iff.mp (Odometer.mem_all.mp mem)
    rw [map_toNat_eq_one, incrementBits_eq]
  have loop := (Odometer.sweeps_all positive).map (List.map (· == 1)) same
  obtain ⟨rest, listed, short⟩ := Odometer.all_eq_cons positive
  rw [List.length_replicate] at loop listed
  have first : (List.replicate n 0).map (· == 1) = List.replicate n false := by
    rw [List.map_replicate]
    rfl
  rw [listed, List.map_cons, first] at loop
  rw [List.prod_replicate] at short
  have enough : (rest.map (List.map (· == 1))).length < fuel := by
    rw [List.length_map]
    exact Nat.lt_of_lt_of_le short enough
  rw [forEachBooleanVector, booleanLoop_eq, Odometer.sweep_eq loop enough, vectors, listed,
    List.map_cons, first]
  rfl

end

end Tyr.Itertools
