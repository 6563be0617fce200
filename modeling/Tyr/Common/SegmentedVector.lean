import Tyr.Lib.Fold
import Tyr.Lib.Segments
import Mathlib.Data.Nat.Size
import Mathlib.Data.Option.Basic

/-!
Segmented vectors.

The elements are in segments, each twice as long as the one before, so that a vector
grows without moving them. The size of the first segment is `2 ^ segShift`.

* `getSegmentIndex_eq`, `getSegmentPos_eq` — the bit arithmetic computes the
  segment of an index and the position in it.
* `get?_store`, `get?_resizeToFit` — one write, and growing.
* `run_refines` — every sequence of operations is one on a list.
-/

namespace Tyr

open Lib

def getSegmentIndex (segShift index : Nat) : Nat := Nat.size ((index >>> segShift) + 1) - 1

def getSegmentPos (segShift index : Nat) : Nat :=
  let q := index >>> segShift
  let r := index &&& (2 ^ segShift - 1)
  ((q - ((1 <<< getSegmentIndex segShift index) - 1)) <<< segShift) + r

theorem getSegmentIndex_eq (segShift index : Nat) :
    getSegmentIndex segShift index = Segments.segment (2 ^ segShift) index := by
  have nonzero : index >>> segShift + 1 ≠ 0 := Nat.succ_ne_zero _
  have positive : 0 < Nat.size (index >>> segShift + 1) := Nat.size_pos.mpr (Nat.pos_of_ne_zero nonzero)
  rw [Segments.segment, ← Nat.shiftRight_eq_div_pow, eq_comm, Nat.log2_eq_iff nonzero,
    ← Nat.lt_size, ← Nat.size_le, getSegmentIndex]
  omega

theorem getSegmentPos_eq (segShift index : Nat) :
    getSegmentPos segShift index = Segments.offset (2 ^ segShift) index := by
  have first := Segments.capacity_segment_le (Nat.two_pow_pos segShift) index
  have split := Nat.div_add_mod index (2 ^ segShift)
  rw [getSegmentPos, getSegmentIndex_eq, Nat.and_two_pow_sub_one_eq_mod, Nat.shiftRight_eq_div_pow,
    Nat.one_shiftLeft, Nat.shiftLeft_eq, Nat.mul_comm, Nat.mul_sub, Segments.offset]
  rw [Segments.capacity] at first ⊢
  have whole : 2 ^ Segments.segment (2 ^ segShift) index - 1 ≤ index / 2 ^ segShift := by
    rwa [Nat.le_div_iff_mul_le (Nat.two_pow_pos segShift), Nat.mul_comm]
  have scaled := Nat.mul_le_mul_left (2 ^ segShift) whole
  omega

/-- A vector whose first segment has `2 ^ segShift` elements. -/
structure SegmentedVector (α : Type*) (segShift : Nat) where
  segments : List (List α)
  capacity : Nat
  size : Nat

namespace SegmentedVector

variable {α : Type*} {segShift : Nat}

def create (α : Type*) (segShift : Nat) : SegmentedVector α segShift := ⟨[], 0, 0⟩

/-- The element at an index, if its segment is allocated. -/
def get? (vector : SegmentedVector α segShift) (pos : Nat) : Option α :=
  vector.segments[getSegmentIndex segShift pos]?.bind fun segment =>
    segment[getSegmentPos segShift pos]?

/-- `at`: none if it throws. -/
def at? (vector : SegmentedVector α segShift) (pos : Nat) : Option α :=
  if vector.size ≤ pos then none else vector.get? pos

/-- Assign to the element at an index. -/
def store (vector : SegmentedVector α segShift) (pos : Nat) (element : α) :
    SegmentedVector α segShift :=
  { vector with segments := vector.segments.modify (getSegmentIndex segShift pos) fun segment =>
      segment.set (getSegmentPos segShift pos) element }

def clear (vector : SegmentedVector α segShift) : SegmentedVector α segShift :=
  { vector with size := 0 }

/-- The last element must exist. -/
def popBack (vector : SegmentedVector α segShift) : Option (SegmentedVector α segShift) :=
  if 0 < vector.size then some { vector with size := vector.size - 1 } else none

section

variable [Inhabited α]

def addSegment (vector : SegmentedVector α segShift) (newSegmentSize : Nat) :
    SegmentedVector α segShift :=
  { vector with
    segments := vector.segments ++ [List.replicate newSegmentSize default]
    capacity := vector.capacity + newSegmentSize }

/-- The loop of `resize_to_fit`. -/
def addSegments (vector : SegmentedVector α segShift) (n : Nat) : SegmentedVector α segShift :=
  if vector.capacity < n then
    addSegments (vector.addSegment (2 ^ segShift <<< vector.segments.length)) n
  else vector
termination_by n - vector.capacity
decreasing_by
  have positive : 0 < 2 ^ segShift <<< vector.segments.length := by
    rw [Nat.shiftLeft_eq, ← Nat.pow_add]
    exact Nat.two_pow_pos _
  simp only [addSegment]
  omega

def resizeToFit (vector : SegmentedVector α segShift) (n : Nat) : SegmentedVector α segShift :=
  let vector := if vector.segments.isEmpty then vector.addSegment (2 ^ segShift) else vector
  vector.addSegments n

def pushBack (vector : SegmentedVector α segShift) (element : α) : SegmentedVector α segShift :=
  let vector := (vector.resizeToFit (vector.size + 1)).store vector.size element
  { vector with size := vector.size + 1 }

end

/-! ### Well-formed vectors -/

/-- The segments double, and the capacity is the number of their elements. -/
structure WellFormed (vector : SegmentedVector α segShift) : Prop where
  capacity_eq : vector.capacity = Segments.capacity (2 ^ segShift) vector.segments.length
  length_eq : ∀ s segment, vector.segments[s]? = some segment →
    segment.length = 2 ^ segShift * 2 ^ s
  size_le : vector.size ≤ vector.capacity

variable {vector : SegmentedVector α segShift} {pos i : Nat}

theorem wellFormed_create : (create α segShift).WellFormed where
  capacity_eq := by simp [create]
  length_eq := by simp [create]
  size_le := Nat.le_refl _

/-- The slot of an index below the capacity is allocated. -/
theorem WellFormed.slot (wf : vector.WellFormed) (below : i < vector.capacity) :
    ∃ segment, vector.segments[getSegmentIndex segShift i]? = some segment ∧
      getSegmentPos segShift i < segment.length := by
  rw [getSegmentIndex_eq, getSegmentPos_eq]
  have pos := Nat.two_pow_pos segShift
  rw [wf.capacity_eq, ← Segments.segment_lt_iff pos] at below
  refine ⟨_, List.getElem?_eq_getElem below, ?_⟩
  rw [wf.length_eq _ _ (List.getElem?_eq_getElem below)]
  exact Segments.offset_lt pos i

/-- The indices below the capacity are those of the allocated slots. -/
theorem WellFormed.bijOn (wf : vector.WellFormed) :
    Set.BijOn (fun i => (getSegmentIndex segShift i, getSegmentPos segShift i))
      {i | i < vector.capacity}
      {slot | ∃ segment, vector.segments[slot.1]? = some segment ∧ slot.2 < segment.length} := by
  have slots : {slot : Nat × Nat | ∃ segment, vector.segments[slot.1]? = some segment ∧
      slot.2 < segment.length} =
      {slot | slot.1 < vector.segments.length ∧ slot.2 < 2 ^ segShift * 2 ^ slot.1} := by
    ext ⟨s, p⟩
    constructor
    · rintro ⟨segment, found, inSegment⟩
      exact ⟨(List.getElem?_eq_some_iff.mp found).1, wf.length_eq _ _ found ▸ inSegment⟩
    · rintro ⟨inRange, inSegment⟩
      have found := List.getElem?_eq_getElem inRange
      exact ⟨_, found, (wf.length_eq _ _ found).symm ▸ inSegment⟩
  simp only [slots, wf.capacity_eq, getSegmentIndex_eq, getSegmentPos_eq]
  exact Segments.bijOn_slots (Nat.two_pow_pos segShift) _

theorem WellFormed.store (wf : vector.WellFormed) (pos : Nat) (element : α) :
    (vector.store pos element).WellFormed where
  capacity_eq := by simpa [SegmentedVector.store] using wf.capacity_eq
  length_eq := by
    intro s segment found
    rw [SegmentedVector.store, List.getElem?_modify] at found
    cases old : vector.segments[s]? with
    | none =>
        rw [old] at found
        cases found
    | some oldSegment =>
        rw [old] at found
        cases found
        have sameLength := wf.length_eq _ _ old
        split
        · rwa [List.length_set]
        · exact sameLength
  size_le := wf.size_le

/-- A write changes the element at its index and no other. -/
theorem get?_store (wf : vector.WellFormed) (below : pos < vector.capacity) (element : α) (i : Nat) :
    (vector.store pos element).get? i = if i = pos then some element else vector.get? i := by
  unfold get? store
  rw [List.getElem?_modify]
  by_cases same : i = pos
  · obtain ⟨segment, found, inSegment⟩ := wf.slot below
    rw [if_pos same, same, found]
    simp [inSegment]
  · rw [if_neg same]
    by_cases sameSegment : getSegmentIndex segShift pos = getSegmentIndex segShift i
    · have otherPos : getSegmentPos segShift pos ≠ getSegmentPos segShift i := by
        intro samePos
        rw [getSegmentIndex_eq, getSegmentIndex_eq] at sameSegment
        rw [getSegmentPos_eq, getSegmentPos_eq] at samePos
        exact same (Segments.eq_of_slot (Nat.two_pow_pos segShift) sameSegment samePos).symm
      cases vector.segments[getSegmentIndex segShift i]? with
      | none => rfl
      | some segment => simp [sameSegment, otherPos]
    · simp [sameSegment]

/-- A vector with more segments has the same elements. -/
theorem get?_of_isPrefix (wf : vector.WellFormed) {longer : SegmentedVector α segShift}
    (grown : vector.segments <+: longer.segments) (below : i < vector.capacity) :
    longer.get? i = vector.get? i := by
  obtain ⟨rest, grown⟩ := grown
  obtain ⟨segment, found, _⟩ := wf.slot below
  unfold get?
  rw [← grown, List.getElem?_append_left (List.getElem?_eq_some_iff.mp found).1]

/-! ### Lists -/

/-- The vector has the elements of the list. -/
structure Represents (vector : SegmentedVector α segShift) (elements : List α) : Prop where
  wf : vector.WellFormed
  size_eq : vector.size = elements.length
  get?_eq : ∀ i < elements.length, vector.get? i = elements[i]?

theorem Represents.at?_eq {elements : List α} (represents : vector.Represents elements) (i : Nat) :
    vector.at? i = elements[i]? := by
  rw [at?, represents.size_eq]
  split
  · rename_i outside
    exact (List.getElem?_eq_none outside).symm
  · rename_i inside
    exact represents.get?_eq i (Nat.lt_of_not_le inside)

theorem represents_create : (create α segShift).Represents [] :=
  ⟨wellFormed_create, rfl, fun _ inRange => absurd inRange (Nat.not_lt_zero _)⟩

/-- The vector with fewer elements. -/
theorem Represents.take {elements : List α} (represents : vector.Represents elements) {n : Nat}
    (le : n ≤ elements.length) :
    ({ vector with size := n } : SegmentedVector α segShift).Represents (elements.take n) where
  wf := ⟨represents.wf.capacity_eq, represents.wf.length_eq,
    (represents.size_eq ▸ le : n ≤ vector.size).trans represents.wf.size_le⟩
  size_eq := by
    rw [List.length_take, Nat.min_eq_left le]
  get?_eq := by
    intro i inRange
    rw [List.length_take, Nat.min_eq_left le] at inRange
    rw [List.getElem?_take_of_lt inRange]
    exact represents.get?_eq i (inRange.trans_le le)

theorem Represents.store {elements : List α} (represents : vector.Represents elements)
    (inRange : pos < elements.length) (element : α) :
    (vector.store pos element).Represents (elements.set pos element) where
  wf := represents.wf.store pos element
  size_eq := by
    rw [List.length_set]
    exact represents.size_eq
  get?_eq := by
    intro i inRangeI
    rw [List.length_set] at inRangeI
    have below := represents.wf.size_le
    rw [represents.size_eq] at below
    rw [get?_store represents.wf (inRange.trans_le below), List.getElem?_set, represents.get?_eq i inRangeI]
    by_cases same : i = pos
    · rw [if_pos same, if_pos same.symm, if_pos inRange]
    · rw [if_neg same, if_neg (Ne.symm same)]

/-! ### Growing -/

section

variable [Inhabited α]

theorem WellFormed.addSegment (wf : vector.WellFormed) {newSegmentSize : Nat}
    (doubled : newSegmentSize = 2 ^ segShift <<< vector.segments.length) :
    (vector.addSegment newSegmentSize).WellFormed where
  capacity_eq := by
    simp only [SegmentedVector.addSegment, List.length_append, List.length_singleton]
    rw [Segments.capacity_succ, ← wf.capacity_eq, doubled, Nat.shiftLeft_eq]
  length_eq := by
    intro s segment found
    rw [SegmentedVector.addSegment] at found
    rcases Nat.lt_trichotomy s vector.segments.length with before | rfl | after
    · rw [List.getElem?_append_left before] at found
      exact wf.length_eq _ _ found
    · rw [List.getElem?_concat_length] at found
      cases found
      rw [List.length_replicate, doubled, Nat.shiftLeft_eq]
    · rw [List.getElem?_eq_none (by simpa using Nat.succ_le_of_lt after)] at found
      cases found
  size_le := wf.size_le.trans (Nat.le_add_right _ _)

/-- The vector grows, by whole segments, until it has room for `n` elements. -/
structure Grown (vector longer : SegmentedVector α segShift) (n : Nat) : Prop where
  wf : longer.WellFormed
  isPrefix : vector.segments <+: longer.segments
  size_eq : longer.size = vector.size
  le_capacity : n ≤ longer.capacity

theorem grown_addSegments (wf : vector.WellFormed) (n : Nat) :
    Grown vector (vector.addSegments n) n := by
  fun_induction addSegments vector n with
  | case1 vector less ih =>
      have rest := ih (wf.addSegment rfl)
      exact ⟨rest.wf, (List.prefix_append _ _).trans rest.isPrefix, rest.size_eq, rest.le_capacity⟩
  | case2 vector enough => exact ⟨wf, List.prefix_refl _, rfl, Nat.le_of_not_lt enough⟩

theorem grown_resizeToFit (wf : vector.WellFormed) (n : Nat) :
    Grown vector (vector.resizeToFit n) n := by
  unfold resizeToFit
  dsimp only
  split
  · rename_i isEmpty
    have first : 2 ^ segShift = 2 ^ segShift <<< vector.segments.length := by
      rw [List.isEmpty_iff.mp isEmpty]
      rfl
    have rest := grown_addSegments (wf.addSegment first) n
    exact ⟨rest.wf, (List.prefix_append _ _).trans rest.isPrefix, rest.size_eq, rest.le_capacity⟩
  · exact grown_addSegments wf n

/-- Growing moves no element and overwrites none. -/
theorem get?_resizeToFit (wf : vector.WellFormed) (n : Nat) (below : i < vector.capacity) :
    (vector.resizeToFit n).get? i = vector.get? i :=
  get?_of_isPrefix wf (grown_resizeToFit wf n).isPrefix below

theorem WellFormed.pushBack (wf : vector.WellFormed) (element : α) :
    (vector.pushBack element).WellFormed := by
  have grown := grown_resizeToFit wf (vector.size + 1)
  have stored := grown.wf.store vector.size element
  refine ⟨stored.capacity_eq, stored.length_eq, ?_⟩
  have enough := grown.le_capacity
  have sameSize := grown.size_eq
  simp only [SegmentedVector.pushBack, SegmentedVector.store]
  omega

theorem size_pushBack (wf : vector.WellFormed) (element : α) :
    (vector.pushBack element).size = vector.size + 1 :=
  congrArg (· + 1) (grown_resizeToFit wf _).size_eq

/-- The new element is behind the others. -/
theorem get?_pushBack (wf : vector.WellFormed) (element : α) :
    (vector.pushBack element).get? vector.size = some element := by
  have grown := grown_resizeToFit wf (vector.size + 1)
  exact (get?_store grown.wf grown.le_capacity element _).trans (if_pos rfl)

theorem get?_pushBack_of_ne (wf : vector.WellFormed) (element : α) (below : i < vector.capacity)
    (other : i ≠ vector.size) : (vector.pushBack element).get? i = vector.get? i := by
  have grown := grown_resizeToFit wf (vector.size + 1)
  exact (get?_store grown.wf grown.le_capacity element i).trans
    ((if_neg other).trans (get?_resizeToFit wf _ below))

/-! ### Runs -/

inductive Op (α : Type*) where
  | pushBack (element : α)
  | popBack
  | clear
  | write (pos : Nat) (element : α)

/-- One operation; none if an assertion fails. -/
def step (vector : SegmentedVector α segShift) : Op α → Option (SegmentedVector α segShift)
  | .pushBack element => some (vector.pushBack element)
  | .popBack => vector.popBack
  | .clear => some vector.clear
  | .write pos element => if pos < vector.size then some (vector.store pos element) else none

def run (segShift : Nat) (ops : List (Op α)) : Option (SegmentedVector α segShift) :=
  ops.foldlM step (create α segShift)

/-- The operation on a list. -/
def listStep (elements : List α) : Op α → Option (List α)
  | .pushBack element => some (elements ++ [element])
  | .popBack => if 0 < elements.length then some elements.dropLast else none
  | .clear => some []
  | .write pos element => if pos < elements.length then some (elements.set pos element) else none

theorem Represents.pushBack {elements : List α} (represents : vector.Represents elements)
    (element : α) : (vector.pushBack element).Represents (elements ++ [element]) where
  wf := represents.wf.pushBack element
  size_eq := by
    rw [size_pushBack represents.wf, represents.size_eq, List.length_append, List.length_singleton]
  get?_eq := by
    intro i inRange
    rw [List.length_append, List.length_singleton, Nat.lt_succ_iff_lt_or_eq] at inRange
    rcases inRange with old | rfl
    · have below := represents.wf.size_le
      rw [represents.size_eq] at below
      rw [get?_pushBack_of_ne represents.wf element (old.trans_le below)
          (represents.size_eq ▸ old.ne), represents.get?_eq i old, List.getElem?_append_left old]
    · rw [← represents.size_eq, get?_pushBack represents.wf, represents.size_eq,
        List.getElem?_concat_length]

theorem Represents.step {elements : List α} (represents : vector.Represents elements) (op : Op α) :
    Option.Rel Represents (vector.step op) (listStep elements op) := by
  cases op with
  | pushBack element => exact .some (represents.pushBack element)
  | popBack =>
      rw [SegmentedVector.step, listStep, popBack, represents.size_eq, List.dropLast_eq_take]
      split
      · exact .some (represents.take (Nat.sub_le _ _))
      · exact .none
  | clear => exact .some (represents.take (Nat.zero_le _))
  | write pos element =>
      rw [SegmentedVector.step, listStep, represents.size_eq]
      split
      · rename_i inRange
        exact .some (represents.store inRange element)
      · exact .none

theorem represents_run (segShift : Nat) (ops : List (Op α)) :
    Option.Rel Represents (run segShift ops) (ops.foldlM listStep []) :=
  foldlM_rel (fun _ _ represents op => represents.step op) ops represents_create

/-- In every run the vector fails where the list does and has its elements, its slots are
those of the indices below the capacity, and growing leaves every element where it is. -/
theorem run_refines (segShift : Nat) (ops : List (Op α)) :
    (run segShift ops).isSome = (ops.foldlM listStep []).isSome ∧
    ∀ vector elements, run segShift ops = some vector → ops.foldlM listStep [] = some elements →
      vector.size = elements.length ∧
      (∀ i < vector.size, vector.get? i = elements[i]?) ∧
      (∀ i, vector.at? i = elements[i]?) ∧
      Set.BijOn (fun i => (getSegmentIndex segShift i, getSegmentPos segShift i))
        {i | i < vector.capacity}
        {slot | ∃ segment, vector.segments[slot.1]? = some segment ∧ slot.2 < segment.length} ∧
      (∀ n, ∀ i < vector.capacity, (vector.resizeToFit n).get? i = vector.get? i) ∧
      ∀ element, ∀ i < vector.capacity, i ≠ vector.size →
        (vector.pushBack element).get? i = vector.get? i := by
  have related := represents_run segShift ops
  constructor
  · generalize run segShift ops = ran at related ⊢
    generalize ops.foldlM listStep [] = listRan at related ⊢
    cases related with
    | none => rfl
    | some represents => rfl
  · intro vector elements ran listRan
    rw [ran, listRan] at related
    obtain ⟨represents⟩ := related
    refine ⟨represents.size_eq, ?_, represents.at?_eq, represents.wf.bijOn, ?_, ?_⟩
    · intro i inRange
      exact represents.get?_eq i (represents.size_eq ▸ inRange)
    · intro n i below
      exact get?_resizeToFit represents.wf n below
    · intro element i below other
      exact get?_pushBack_of_ne represents.wf element below other

end

end SegmentedVector

end Tyr
