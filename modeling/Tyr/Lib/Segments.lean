import Mathlib.Algebra.Group.Nat.Defs
import Mathlib.Data.Nat.Log
import Mathlib.Data.Set.Function

/-!
Indices in segments of doubling length.

The segment `s` has the positions below `base * 2 ^ s`, and the indices run through
the segments one after another.

* `segment_eq_iff` — the indices of a segment.
* `segment_capacity_add`, `offset_capacity_add` — the index of a position.
* `bijOn_slots` — below the capacity every position has one index.
-/

namespace Tyr.Lib.Segments

/-- The number of indices in the first `n` segments. -/
def capacity (base n : Nat) : Nat := base * (2 ^ n - 1)

/-- The segment of an index. -/
def segment (base i : Nat) : Nat := Nat.log2 (i / base + 1)

/-- The position of an index in its segment. -/
def offset (base i : Nat) : Nat := i - capacity base (segment base i)

variable {base : Nat}

@[simp] theorem capacity_zero : capacity base 0 = 0 := by
  simp [capacity]

theorem capacity_succ (n : Nat) : capacity base (n + 1) = capacity base n + base * 2 ^ n := by
  have one : 1 ≤ 2 ^ n := Nat.one_le_two_pow
  unfold capacity
  rw [← Nat.mul_add, Nat.pow_succ]
  congr 1
  omega

theorem capacity_mono {m n : Nat} (le : m ≤ n) : capacity base m ≤ capacity base n := by
  induction le with
  | refl => exact Nat.le_refl _
  | step le ih =>
      rw [capacity_succ]
      omega

/-- A segment has the indices from the capacity of the segments before it on. -/
theorem segment_eq_iff (pos : 0 < base) {i s : Nat} :
    segment base i = s ↔ capacity base s ≤ i ∧ i < capacity base (s + 1) := by
  have lower : 2 ^ s ≤ i / base + 1 ↔ capacity base s ≤ i := by
    rw [← Nat.sub_le_iff_le_add, Nat.le_div_iff_mul_le pos, Nat.mul_comm, capacity]
  have upper : i / base + 1 < 2 ^ (s + 1) ↔ i < capacity base (s + 1) := by
    rw [← Nat.lt_sub_iff_add_lt, Nat.div_lt_iff_lt_mul pos, Nat.mul_comm, capacity]
  rw [segment, Nat.log2_eq_iff (Nat.succ_ne_zero _), lower, upper]

theorem capacity_segment_le (pos : 0 < base) (i : Nat) : capacity base (segment base i) ≤ i :=
  ((segment_eq_iff pos).mp rfl).1

theorem lt_capacity_segment (pos : 0 < base) (i : Nat) : i < capacity base (segment base i + 1) :=
  ((segment_eq_iff pos).mp rfl).2

/-- The indices of the first segments are those below their capacity. -/
theorem segment_lt_iff (pos : 0 < base) {i n : Nat} : segment base i < n ↔ i < capacity base n := by
  constructor
  · intro less
    exact (lt_capacity_segment pos i).trans_le (capacity_mono less)
  · intro less
    by_contra le
    have reached := (capacity_mono (Nat.le_of_not_lt le)).trans (capacity_segment_le pos i)
    omega

theorem capacity_add_offset (pos : 0 < base) (i : Nat) :
    capacity base (segment base i) + offset base i = i :=
  Nat.add_sub_cancel' (capacity_segment_le pos i)

theorem offset_lt (pos : 0 < base) (i : Nat) : offset base i < base * 2 ^ segment base i := by
  have less := lt_capacity_segment pos i
  have split := capacity_add_offset pos i
  rw [capacity_succ] at less
  omega

/-- The first index behind the first segments is the first of the next one. -/
theorem segment_capacity_add (pos : 0 < base) {s p : Nat} (inSegment : p < base * 2 ^ s) :
    segment base (capacity base s + p) = s := by
  rw [segment_eq_iff pos, capacity_succ]
  omega

theorem offset_capacity_add (pos : 0 < base) {s p : Nat} (inSegment : p < base * 2 ^ s) :
    offset base (capacity base s + p) = p := by
  rw [offset, segment_capacity_add pos inSegment, Nat.add_sub_cancel_left]

/-- Indices at the same position are the same. -/
theorem eq_of_slot (pos : 0 < base) {i j : Nat} (sameSegment : segment base i = segment base j)
    (sameOffset : offset base i = offset base j) : i = j := by
  rw [← capacity_add_offset pos i, ← capacity_add_offset pos j, sameSegment, sameOffset]

/-- Below the capacity every position of the segments has one index. -/
theorem bijOn_slots (pos : 0 < base) (n : Nat) :
    Set.BijOn (fun i => (segment base i, offset base i)) {i | i < capacity base n}
      {slot | slot.1 < n ∧ slot.2 < base * 2 ^ slot.1} := by
  refine ⟨?_, ?_, ?_⟩
  · intro i below
    exact ⟨(segment_lt_iff pos).mpr below, offset_lt pos i⟩
  · intro i _ j _ same
    exact eq_of_slot pos (congrArg Prod.fst same) (congrArg Prod.snd same)
  · rintro ⟨s, p⟩ ⟨inRange, inSegment⟩
    have atSegment := segment_capacity_add pos inSegment
    refine ⟨capacity base s + p, ?_, Prod.ext atSegment (offset_capacity_add pos inSegment)⟩
    rw [Set.mem_ofPred_eq, ← segment_lt_iff pos, atSegment]
    exact inRange

end Tyr.Lib.Segments
