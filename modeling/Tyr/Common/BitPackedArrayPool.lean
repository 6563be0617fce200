import Tyr.Common.Bit
import Tyr.Common.SegmentedVector
import Tyr.Lib.Fold

/-!
Pools of bit-packed arrays.

The arrays of a pool have the same length and the elements the same width. They are
stored one after another, without padding, in segments of doubling size.

* `codeBit_assign` — an assignment changes the code of its element and no other.
* `Grown` — new segments leave the stored arrays where they are.
* `Represents.pushBack` — a pool is a growing list of arrays.
-/

namespace Tyr

open Lib

/-- How the values of a pool are stored in blocks. -/
structure BlockCoder (w : Nat) (α : Type*) where
  decode : BitVec w → α
  encode : α → BitVec w
  decode_encode : ∀ value, decode (encode value) = value

theorem forwarding_decode_encode {w : Nat} (value : BitVec w) : id (id value) = value := rfl

def ForwardingBlockCoder (w : Nat) : BlockCoder w (BitVec w) :=
  ⟨id, id, forwarding_decode_encode⟩

/-- An exception and its text. -/
inductive Exception where
  | invalidArgument (what : String)
  | outOfRange (what : String)
deriving DecidableEq

/-- A pool whose first segment has room for `2 ^ segShift` arrays. -/
structure BitPackedArrayPool (w segShift : Nat) where
  segments : List (List (BitVec w))
  length : Nat
  width : Nat
  capacity : Nat
  size : Nat

/-- Where an array begins: a segment, a block of it and a bit of the block. -/
structure ArrayView where
  segment : Nat
  data : Nat
  offset : Nat

namespace BitPackedArrayPool

variable {w segShift : Nat} {α : Type*}

def create (w segShift length width : Nat) : BitPackedArrayPool w segShift :=
  ⟨[], length, width, 0, 0⟩

def blocksForBits (w bits : Nat) : Nat := Bit.ceilDiv bits w

/-- One iteration of the loop of `reserve`. -/
def addSegment (pool : BitPackedArrayPool w segShift) (seg : Nat) : BitPackedArrayPool w segShift :=
  let bitsPerArray := pool.length * pool.width
  let arraysInSegment := 2 ^ segShift <<< seg
  { pool with
    segments := pool.segments ++
      [List.replicate (blocksForBits w (arraysInSegment * bitsPerArray)) 0#w]
    capacity := pool.capacity + arraysInSegment }

def reserve (pool : BitPackedArrayPool w segShift) (size : Nat) : BitPackedArrayPool w segShift :=
  if size = 0 ∨ size ≤ pool.capacity then pool
  else
    let lastSegment := getSegmentIndex segShift (size - 1)
    let firstNewSegment := pool.segments.length
    (List.range' firstNewSegment (lastSegment + 1 - firstNewSegment)).foldl addSegment
      { pool with segments := pool.segments.take (lastSegment + 1) }

/-- `operator[]`. -/
def view (pool : BitPackedArrayPool w segShift) (index : Nat) : ArrayView :=
  let startBit := getSegmentPos segShift index * pool.width * pool.length
  ⟨getSegmentIndex segShift index, startBit / w, startBit % w⟩

def segment (pool : BitPackedArrayPool w segShift) (seg : Nat) : List (BitVec w) :=
  pool.segments.getD seg []

def setSegment (pool : BitPackedArrayPool w segShift) (seg : Nat) (blocks : List (BitVec w)) :
    BitPackedArrayPool w segShift :=
  { pool with segments := pool.segments.set seg blocks }

/-- Read an element of a view. -/
def read (coder : BlockCoder w α) (pool : BitPackedArrayPool w segShift) (view : ArrayView)
    (pos : Nat) : α :=
  let bitIndex := view.offset + pos * pool.width
  coder.decode (Bit.readInt (pool.segment view.segment) (view.data + bitIndex / w) (bitIndex % w)
    pool.width)

/-- Assign to an element of a view; none if the code does not fit. -/
def assign (coder : BlockCoder w α) (pool : BitPackedArrayPool w segShift) (view : ArrayView)
    (pos : Nat) (value : α) : Option (BitPackedArrayPool w segShift) :=
  let bitIndex := view.offset + pos * pool.width
  (Bit.assignInt (pool.segment view.segment) (view.data + bitIndex / w) (coder.encode value)
      (bitIndex % w) pool.width).map (pool.setSegment view.segment)

/-- Assign the elements one after another, from a position on. -/
def assignElements (coder : BlockCoder w α) (view : ArrayView) :
    BitPackedArrayPool w segShift → Nat → List α → BitPackedArrayPool w segShift × Option Exception
  | pool, _, [] => (pool, none)
  | pool, pos, value :: values =>
      match assign coder pool view pos value with
      | none => (pool, some (.outOfRange "int_reference: encoded value exceeds bit width"))
      | some pool => assignElements coder view pool (pos + 1) values

/-- `push_back`: the array is counted before its elements are assigned. -/
def pushBack (coder : BlockCoder w α) (pool : BitPackedArrayPool w segShift) (elements : List α) :
    BitPackedArrayPool w segShift × Option Exception :=
  if elements.length ≠ pool.length then
    (pool, some (.invalidArgument "BitPackedArrayPool: wrong number of elements."))
  else
    let index := pool.size
    let pool := pool.reserve (pool.size + 1)
    let pool := { pool with size := pool.size + 1 }
    assignElements coder (pool.view index) pool 0 elements

def clear (pool : BitPackedArrayPool w segShift) : BitPackedArrayPool w segShift :=
  { pool with size := 0 }

/-- The elements of an array. -/
def get (coder : BlockCoder w α) (pool : BitPackedArrayPool w segShift) (index : Nat) : List α :=
  (List.range pool.length).map (pool.read coder (pool.view index))

/-! ### Well-formed pools -/

/-- The segments double, and each has the blocks for its arrays. -/
structure WellFormed (pool : BitPackedArrayPool w segShift) : Prop where
  width_pos : 0 < pool.width
  width_le : pool.width ≤ w
  capacity_eq : pool.capacity = Segments.capacity (2 ^ segShift) pool.segments.length
  length_eq : ∀ s blocks, pool.segments[s]? = some blocks →
    blocks.length = Bit.ceilDiv (2 ^ segShift * 2 ^ s * (pool.length * pool.width)) w
  size_le : pool.size ≤ pool.capacity

/-- The number of an element among those of its segment. -/
def cell (pool : BitPackedArrayPool w segShift) (index pos : Nat) : Nat :=
  getSegmentPos segShift index * pool.length + pos

/-- A bit of the code of an element. -/
def codeBit (pool : BitPackedArrayPool w segShift) (index pos b : Nat) : Bool :=
  Bit.bit (pool.segment (getSegmentIndex segShift index)) (pool.cell index pos * pool.width + b)

variable {pool : BitPackedArrayPool w segShift} {index pos i j b : Nat}

@[simp] theorem length_setSegment (seg : Nat) (blocks : List (BitVec w)) :
    (pool.setSegment seg blocks).length = pool.length := rfl

@[simp] theorem width_setSegment (seg : Nat) (blocks : List (BitVec w)) :
    (pool.setSegment seg blocks).width = pool.width := rfl

@[simp] theorem cell_setSegment (seg : Nat) (blocks : List (BitVec w)) :
    (pool.setSegment seg blocks).cell index pos = pool.cell index pos := rfl

theorem segment_setSegment {seg : Nat} (inRange : seg < pool.segments.length)
    (blocks : List (BitVec w)) (s : Nat) :
    (pool.setSegment seg blocks).segment s = if s = seg then blocks else pool.segment s := by
  unfold segment setSegment
  rw [List.getD_eq_getElem?_getD, List.getD_eq_getElem?_getD, List.getElem?_set]
  by_cases same : s = seg
  · simp [same, inRange]
  · simp [same, Ne.symm same]

/-- The block and the offset at which an element begins. -/
theorem position_eq (pool : BitPackedArrayPool w segShift) (index pos : Nat) :
    ((pool.view index).data + ((pool.view index).offset + pos * pool.width) / w) * w +
        ((pool.view index).offset + pos * pool.width) % w = pool.cell index pos * pool.width := by
  have inner := Nat.div_add_mod' ((pool.view index).offset + pos * pool.width) w
  have outer := Nat.div_add_mod' (getSegmentPos segShift index * pool.width * pool.length) w
  rw [Nat.add_mul, Nat.add_assoc, inner, cell, Nat.add_mul, Nat.mul_right_comm, ← outer]
  exact (Nat.add_assoc _ _ _).symm

/-- Elements at the same place of a segment are the same. -/
theorem cell_inj (inRange : pos < pool.length) (inRange' : j < pool.length)
    (sameSegment : getSegmentIndex segShift index = getSegmentIndex segShift i)
    (same : pool.cell index pos = pool.cell i j) : index = i ∧ pos = j := by
  have samePos := congrArg (· / pool.length) same
  have sameElement := congrArg (· % pool.length) same
  simp only [cell, Bit.position_div inRange, Bit.position_div inRange'] at samePos
  simp only [cell, Bit.position_mod inRange, Bit.position_mod inRange'] at sameElement
  rw [getSegmentIndex_eq, getSegmentIndex_eq] at sameSegment
  rw [getSegmentPos_eq, getSegmentPos_eq] at samePos
  exact ⟨Segments.eq_of_slot (Nat.two_pow_pos segShift) sameSegment samePos, sameElement⟩

/-- The blocks of a segment have room for its elements. -/
theorem WellFormed.inRange (wf : pool.WellFormed) (below : index < pool.capacity)
    (inArray : pos < pool.length) :
    getSegmentIndex segShift index < pool.segments.length ∧
    pool.cell index pos * pool.width + pool.width ≤
      w * (pool.segment (getSegmentIndex segShift index)).length := by
  have positive := Nat.two_pow_pos segShift
  rw [wf.capacity_eq, ← Segments.segment_lt_iff positive, ← getSegmentIndex_eq] at below
  refine ⟨below, ?_⟩
  have found := List.getElem?_eq_getElem below
  have blocks := wf.length_eq _ _ found
  have inSegment : pool.cell index pos + 1 ≤
      2 ^ segShift * 2 ^ getSegmentIndex segShift index * pool.length := by
    have next := Nat.mul_le_mul_right pool.length (Segments.offset_lt positive index)
    rw [Nat.succ_mul, ← getSegmentPos_eq, ← getSegmentIndex_eq] at next
    rw [cell]
    omega
  have bits := Nat.mul_le_mul_right pool.width inSegment
  rw [Nat.succ_mul, Nat.mul_assoc (2 ^ segShift * _)] at bits
  rw [segment, List.getD_eq_getElem _ _ below, blocks]
  exact bits.trans (Bit.le_mul_ceilDiv (wf.width_pos.trans_le wf.width_le) _)

theorem WellFormed.width_lt (wf : pool.WellFormed) : 0 < w := wf.width_pos.trans_le wf.width_le

/-- The code of an element is read, if it fits. -/
theorem read_eq (wf : pool.WellFormed) (coder : BlockCoder w α) {value : α}
    (fit : Bit.fits (coder.encode value) pool.width = true)
    (stored : ∀ b < pool.width, pool.codeBit index pos b = (coder.encode value).getLsbD b) :
    pool.read coder (pool.view index) pos = value := by
  unfold read
  dsimp only
  rw [Bit.readInt_eq (Nat.mod_lt _ wf.width_lt) wf.width_le fit, coder.decode_encode]
  intro b inCode
  rw [position_eq]
  exact stored b inCode

/-- What an assignment does to the blocks of its segment. -/
structure Assigned (coder : BlockCoder w α) (pool next : BitPackedArrayPool w segShift)
    (index pos : Nat) (value : α) (blocks : List (BitVec w)) : Prop where
  fits : Bit.fits (coder.encode value) pool.width = true
  next_eq : next = pool.setSegment (getSegmentIndex segShift index) blocks
  length_eq : blocks.length = (pool.segment (getSegmentIndex segShift index)).length
  bit_eq : ∀ {cell b}, b < pool.width → Bit.bit blocks (cell * pool.width + b) =
    if cell = pool.cell index pos then (coder.encode value).getLsbD b
    else Bit.bit (pool.segment (getSegmentIndex segShift index)) (cell * pool.width + b)

theorem assign_eq_none_iff {coder : BlockCoder w α} {view : ArrayView} {value : α} :
    pool.assign coder view pos value = none ↔
      Bit.fits (coder.encode value) pool.width = false := by
  unfold assign Bit.assignInt
  dsimp only
  split <;> simp [*]

theorem assigned_of_assign {coder : BlockCoder w α} {value : α} {next : BitPackedArrayPool w segShift}
    (wf : pool.WellFormed) (below : index < pool.capacity) (inArray : pos < pool.length)
    (assigns : pool.assign coder (pool.view index) pos value = some next) :
    ∃ blocks, Assigned coder pool next index pos value blocks := by
  obtain ⟨_, room⟩ := wf.inRange below inArray
  unfold assign Bit.assignInt at assigns
  dsimp only at assigns
  split at assigns
  · rename_i fits
    cases assigns
    refine ⟨_, fits, rfl, Bit.length_writeInt _ _ _ _ _, ?_⟩
    intro cell b inCode
    have written := Bit.bit_writeInt (Nat.mod_lt _ wf.width_lt) wf.width_le
      ((position_eq pool index pos).symm ▸ room) wf.width_pos (coder.encode value)
      (cell * pool.width + b)
    rw [position_eq] at written
    refine written.trans ?_
    by_cases same : cell = pool.cell index pos
    · rw [if_pos same, if_pos (by rw [same]; omega), same, Nat.add_sub_cancel_left]
    · have outside : ¬ (pool.cell index pos * pool.width ≤ cell * pool.width + b ∧
          cell * pool.width + b < pool.cell index pos * pool.width + pool.width) := by
        rintro ⟨le, less⟩
        have inCell : (cell * pool.width + b) / pool.width = pool.cell index pos :=
          (Nat.div_eq_iff wf.width_pos).mpr (by omega)
        exact same ((Bit.position_div inCode _).symm.trans inCell)
      rw [if_neg same, if_neg outside]
  · cases assigns

theorem WellFormed.setSegment (wf : pool.WellFormed) {seg : Nat} {blocks : List (BitVec w)}
    (sameLength : blocks.length = (pool.segment seg).length) :
    (pool.setSegment seg blocks).WellFormed where
  width_pos := wf.width_pos
  width_le := wf.width_le
  capacity_eq := by
    simpa [BitPackedArrayPool.setSegment] using wf.capacity_eq
  length_eq := by
    intro s found foundAt
    obtain ⟨inRange, _⟩ := List.getElem?_eq_some_iff.mp foundAt
    simp only [BitPackedArrayPool.setSegment, List.length_set] at inRange
    have old := wf.length_eq s _ (List.getElem?_eq_getElem inRange)
    rw [BitPackedArrayPool.setSegment, List.getElem?_set] at foundAt
    split at foundAt
    · rename_i same
      subst same
      rw [if_pos inRange] at foundAt
      cases foundAt
      rw [sameLength, segment, List.getD_eq_getElem _ _ inRange]
      exact old
    · exact wf.length_eq s found foundAt
  size_le := wf.size_le

/-- An assignment changes the code of its element and no other. -/
theorem Assigned.codeBit_eq {coder : BlockCoder w α} {next : BitPackedArrayPool w segShift}
    {value : α} {blocks : List (BitVec w)} (assigned : Assigned coder pool next index pos value blocks)
    (wf : pool.WellFormed) (below : index < pool.capacity) (inArray : pos < pool.length)
    (inArrayJ : j < pool.length) (inCode : b < pool.width) :
    next.codeBit i j b =
      if i = index ∧ j = pos then (coder.encode value).getLsbD b else pool.codeBit i j b := by
  have segmentLt := (wf.inRange below inArray).1
  rw [assigned.next_eq, codeBit, segment_setSegment segmentLt, cell_setSegment, width_setSegment]
  by_cases sameSegment : getSegmentIndex segShift i = getSegmentIndex segShift index
  · rw [if_pos sameSegment, assigned.bit_eq inCode]
    by_cases same : i = index ∧ j = pos
    · rw [if_pos same, if_pos (by rw [same.1, same.2])]
    · rw [if_neg same, if_neg fun sameCell => same (cell_inj inArrayJ inArray sameSegment sameCell),
        codeBit, sameSegment]
  · rw [if_neg sameSegment, if_neg fun same => sameSegment (congrArg _ same.1), codeBit]

/-- The elements of an array were assigned, from a position on. -/
structure Written (coder : BlockCoder w α) (pool next : BitPackedArrayPool w segShift)
    (index pos : Nat) (values : List α) : Prop where
  wf : next.WellFormed
  length_eq : next.length = pool.length
  width_eq : next.width = pool.width
  capacity_eq : next.capacity = pool.capacity
  size_eq : next.size = pool.size
  codeBit_new : ∀ {k value b}, values[k]? = some value → b < pool.width →
    next.codeBit index (pos + k) b = (coder.encode value).getLsbD b
  codeBit_old : ∀ {i j b}, j < pool.length → b < pool.width → i ≠ index ∨ j < pos →
    next.codeBit i j b = pool.codeBit i j b

theorem assignElements_written {coder : BlockCoder w α} {values : List α} (wf : pool.WellFormed)
    (below : index < pool.capacity) (room : pos + values.length ≤ pool.length)
    (fits : ∀ value ∈ values, Bit.fits (coder.encode value) pool.width = true) :
    (assignElements coder (pool.view index) pool pos values).2 = none ∧
      Written coder pool (assignElements coder (pool.view index) pool pos values).1 index pos values := by
  induction values generalizing pool pos with
  | nil =>
      refine ⟨rfl, wf, rfl, rfl, rfl, rfl, ?_, fun _ _ _ => rfl⟩
      intro k value b found
      cases found
  | cons value values ih =>
      rw [List.length_cons] at room
      have inArray : pos < pool.length := by omega
      rw [assignElements]
      cases assigns : pool.assign coder (pool.view index) pos value with
      | none =>
          rw [assign_eq_none_iff, fits value List.mem_cons_self] at assigns
          cases assigns
      | some next =>
          obtain ⟨blocks, assigned⟩ := assigned_of_assign wf below inArray assigns
          have codeBit {i j b : Nat} := assigned.codeBit_eq (i := i) (j := j) (b := b) wf below inArray
          have nextWf : next.WellFormed := assigned.next_eq ▸ wf.setSegment assigned.length_eq
          obtain rfl := assigned.next_eq
          obtain ⟨completes, written⟩ := @ih _ (pos + 1) nextWf below
            (by rw [length_setSegment]; omega) fun later mem => fits later (List.mem_cons_of_mem _ mem)
          refine ⟨completes, written.wf, written.length_eq, written.width_eq, written.capacity_eq,
            written.size_eq, ?_, ?_⟩
          · intro k found b foundAt inCode
            cases k with
            | zero =>
                cases foundAt
                refine (written.codeBit_old inArray inCode (.inr (Nat.lt_succ_self pos))).trans ?_
                rw [codeBit inArray inCode, if_pos ⟨rfl, rfl⟩]
            | succ k =>
                rw [Nat.add_comm k 1, ← Nat.add_assoc]
                exact written.codeBit_new foundAt inCode
          · intro i j b inArrayJ inCode other
            have elsewhere : ¬ (i = index ∧ j = pos) := by omega
            refine (written.codeBit_old inArrayJ inCode (by omega)).trans ?_
            rw [codeBit inArrayJ inCode, if_neg elsewhere]

/-- The assignments throw iff an element does not fit. -/
theorem assignElements_eq_none_iff (coder : BlockCoder w α) (view : ArrayView)
    (pool : BitPackedArrayPool w segShift) (pos : Nat) (values : List α) :
    (assignElements coder view pool pos values).2 = none ↔
      ∀ value ∈ values, Bit.fits (coder.encode value) pool.width = true := by
  induction values generalizing pool pos with
  | nil => simp [assignElements]
  | cons value values ih =>
      rw [assignElements, List.forall_mem_cons]
      cases assigns : pool.assign coder view pos value with
      | none =>
          rw [assign_eq_none_iff] at assigns
          simp [assigns]
      | some next =>
          have fits : Bit.fits (coder.encode value) pool.width = true := by
            rw [← Bool.not_eq_false]
            intro unfit
            rw [assign_eq_none_iff.mpr unfit] at assigns
            cases assigns
          obtain ⟨blocks, _, rfl⟩ := Option.map_eq_some_iff.mp assigns
          exact (ih _ _).trans (and_iff_right fits).symm

/-- The assignments count no array. -/
theorem size_assignElements (coder : BlockCoder w α) (view : ArrayView)
    (pool : BitPackedArrayPool w segShift) (pos : Nat) (values : List α) :
    (assignElements coder view pool pos values).1.size = pool.size := by
  induction values generalizing pool pos with
  | nil => rfl
  | cons value values ih =>
      rw [assignElements]
      unfold assign
      dsimp only
      cases Bit.assignInt (pool.segment view.segment) _ (coder.encode value) _ pool.width with
      | none => rfl
      | some blocks => exact ih _ _

/-! ### Exceptions -/

/-- An array that a pool can store. -/
structure Fits (coder : BlockCoder w α) (length width : Nat) (array : List α) : Prop where
  length_eq : array.length = length
  fits : ∀ value ∈ array, Bit.fits (coder.encode value) width = true

/-- `reserve` changes the segments and the capacity only. -/
theorem frame_reserve (pool : BitPackedArrayPool w segShift) (n : Nat) :
    (pool.reserve n).length = pool.length ∧ (pool.reserve n).width = pool.width ∧
      (pool.reserve n).size = pool.size := by
  unfold reserve
  split
  · exact ⟨rfl, rfl, rfl⟩
  · apply foldl_invariant (P := fun next : BitPackedArrayPool w segShift =>
      next.length = pool.length ∧ next.width = pool.width ∧ next.size = pool.size)
    · intro next same seg _
      exact same
    · exact ⟨rfl, rfl, rfl⟩

theorem size_pushBack (coder : BlockCoder w α) (pool : BitPackedArrayPool w segShift)
    (elements : List α) : (pool.pushBack coder elements).1.size =
      if elements.length ≠ pool.length then pool.size else pool.size + 1 := by
  unfold pushBack
  split
  · rfl
  · exact (size_assignElements _ _ _ _ _).trans (congrArg (· + 1) (frame_reserve pool _).2.2)

/-- A push throws iff the array does not fit. -/
theorem pushBack_eq_none_iff (coder : BlockCoder w α) (pool : BitPackedArrayPool w segShift)
    (elements : List α) :
    (pool.pushBack coder elements).2 = none ↔ Fits coder pool.length pool.width elements := by
  unfold pushBack
  split
  · rename_i otherLength
    exact ⟨fun completes => absurd completes (by simp), fun fits => absurd fits.length_eq otherLength⟩
  · rename_i sameLength
    have width_eq := (frame_reserve pool (pool.size + 1)).2.1
    refine (assignElements_eq_none_iff _ _ _ _ _).trans ?_
    dsimp only
    rw [width_eq]
    exact ⟨fun fits => ⟨not_not.mp sameLength, fits⟩, Fits.fits⟩

/-! ### Growing -/

/-- The pool has more segments, and room for `n` arrays. -/
structure Grown (pool next : BitPackedArrayPool w segShift) (n : Nat) : Prop where
  wf : next.WellFormed
  isPrefix : pool.segments <+: next.segments
  length_eq : next.length = pool.length
  width_eq : next.width = pool.width
  size_eq : next.size = pool.size
  le_capacity : n ≤ next.capacity

/-- New segments leave the stored arrays where they are. -/
theorem Grown.codeBit_eq {next : BitPackedArrayPool w segShift} {n : Nat} (grown : Grown pool next n)
    (wf : pool.WellFormed) (below : i < pool.capacity) : next.codeBit i j b = pool.codeBit i j b := by
  rw [wf.capacity_eq, ← Segments.segment_lt_iff (Nat.two_pow_pos segShift), ← getSegmentIndex_eq] at below
  obtain ⟨rest, appended⟩ := grown.isPrefix
  have sameSegment : next.segment (getSegmentIndex segShift i) =
      pool.segment (getSegmentIndex segShift i) := by
    rw [segment, segment, ← appended, List.getD_append _ _ _ _ below]
  rw [codeBit, codeBit, sameSegment, cell, cell, grown.length_eq, grown.width_eq]

theorem WellFormed.addSegment (wf : pool.WellFormed) :
    (pool.addSegment pool.segments.length).WellFormed where
  width_pos := wf.width_pos
  width_le := wf.width_le
  capacity_eq := by
    simp only [BitPackedArrayPool.addSegment, List.length_append, List.length_singleton]
    rw [Segments.capacity_succ, ← wf.capacity_eq, Nat.shiftLeft_eq]
  length_eq := by
    intro s blocks found
    rw [BitPackedArrayPool.addSegment] at found
    rcases Nat.lt_trichotomy s pool.segments.length with before | rfl | after
    · rw [List.getElem?_append_left before] at found
      exact wf.length_eq _ _ found
    · rw [List.getElem?_concat_length] at found
      cases found
      rw [List.length_replicate, Nat.shiftLeft_eq]
      rfl
    · rw [List.getElem?_eq_none (by simpa using Nat.succ_le_of_lt after)] at found
      cases found
  size_le := wf.size_le.trans (Nat.le_add_right _ _)

/-- The loop of `reserve` adds the segments one after another. -/
theorem grown_addSegments (wf : pool.WellFormed) (count : Nat) :
    Grown pool ((List.range' pool.segments.length count).foldl addSegment pool)
      (Segments.capacity (2 ^ segShift) (pool.segments.length + count)) := by
  induction count generalizing pool with
  | zero => exact ⟨wf, List.prefix_refl _, rfl, rfl, rfl, wf.capacity_eq.ge⟩
  | succ count ih =>
      have rest := ih wf.addSegment
      have sameLength : (pool.addSegment pool.segments.length).segments.length =
          pool.segments.length + 1 := by
        simp [addSegment]
      rw [sameLength, Nat.add_right_comm] at rest
      rw [List.range'_succ, List.foldl_cons]
      exact ⟨rest.wf, (List.prefix_append _ _).trans rest.isPrefix, rest.length_eq, rest.width_eq,
        rest.size_eq, rest.le_capacity⟩

theorem grown_reserve (wf : pool.WellFormed) (n : Nat) : Grown pool (pool.reserve n) n := by
  unfold reserve
  split
  · rename_i enough
    have le : n ≤ pool.capacity := by omega
    exact ⟨wf, List.prefix_refl _, rfl, rfl, rfl, le⟩
  · rename_i short
    have positive := Nat.two_pow_pos segShift
    have beyond : ¬ n - 1 < pool.capacity := by omega
    rw [wf.capacity_eq, ← Segments.segment_lt_iff positive, ← getSegmentIndex_eq] at beyond
    have grown := grown_addSegments wf (getSegmentIndex segShift (n - 1) + 1 - pool.segments.length)
    rw [Nat.add_sub_cancel' (by omega)] at grown
    have room : n ≤ Segments.capacity (2 ^ segShift) (getSegmentIndex segShift (n - 1) + 1) := by
      have last := Segments.lt_capacity_segment positive (n - 1)
      rw [getSegmentIndex_eq]
      omega
    dsimp only
    rw [List.take_of_length_le (by omega)]
    exact ⟨grown.wf, grown.isPrefix, grown.length_eq, grown.width_eq, grown.size_eq,
      room.trans grown.le_capacity⟩

/-! ### Runs -/

/-- The pool stores the arrays. -/
structure Represents (coder : BlockCoder w α) (pool : BitPackedArrayPool w segShift)
    (arrays : List (List α)) : Prop where
  wf : pool.WellFormed
  size_eq : pool.size = arrays.length
  fits : ∀ array ∈ arrays, Fits coder pool.length pool.width array
  codeBit_eq : ∀ {i array j value b}, arrays[i]? = some array → array[j]? = some value →
    b < pool.width → pool.codeBit i j b = (coder.encode value).getLsbD b

variable {coder : BlockCoder w α} {arrays : List (List α)} {array : List α}

theorem Represents.get_eq (represents : Represents coder pool arrays) (found : arrays[i]? = some array) :
    pool.get coder i = array := by
  have fits := represents.fits array (List.mem_of_getElem? found)
  apply List.ext_getElem
  · simp [get, fits.length_eq]
  · intro j inGet inArray
    simp only [get, List.getElem_map, List.getElem_range]
    apply read_eq represents.wf coder (fits.fits _ (List.getElem_mem inArray))
    intro b inCode
    exact represents.codeBit_eq found (List.getElem?_eq_getElem inArray) inCode

theorem represents_create (segShift : Nat) (coder : BlockCoder w α) (length : Nat) {width : Nat}
    (width_pos : 0 < width) (width_le : width ≤ w) :
    Represents coder (create w segShift length width) [] where
  wf :=
    { width_pos := width_pos
      width_le := width_le
      capacity_eq := by simp [create]
      length_eq := by simp [create]
      size_le := Nat.le_refl _ }
  size_eq := rfl
  fits := by simp
  codeBit_eq := by simp

/-- Pushing an array that fits appends it. -/
theorem Represents.pushBack (represents : Represents coder pool arrays)
    (fits : Fits coder pool.length pool.width array) :
    (pool.pushBack coder array).2 = none ∧
      Represents coder (pool.pushBack coder array).1 (arrays ++ [array]) ∧
      (pool.pushBack coder array).1.length = pool.length ∧
      (pool.pushBack coder array).1.width = pool.width := by
  have grown := grown_reserve represents.wf (pool.size + 1)
  have le_capacity : (pool.reserve (pool.size + 1)).size + 1 ≤
      (pool.reserve (pool.size + 1)).capacity :=
    (congrArg (· + 1) grown.size_eq).trans_le grown.le_capacity
  let counted : BitPackedArrayPool w segShift :=
    { pool.reserve (pool.size + 1) with size := (pool.reserve (pool.size + 1)).size + 1 }
  have wf : counted.WellFormed :=
    ⟨grown.wf.width_pos, grown.wf.width_le, grown.wf.capacity_eq, grown.wf.length_eq, le_capacity⟩
  have below : pool.size < counted.capacity := grown.le_capacity
  have room : 0 + array.length ≤ counted.length := by
    rw [Nat.zero_add, fits.length_eq]
    exact grown.length_eq.ge
  obtain ⟨completes, written⟩ :
      (assignElements coder (counted.view pool.size) counted 0 array).2 = none ∧
        Written coder counted (assignElements coder (counted.view pool.size) counted 0 array).1
          pool.size 0 array := assignElements_written wf below room
    fun value mem => (congrArg (Bit.fits _) grown.width_eq).trans (fits.fits value mem)
  have pushed : pool.pushBack coder array =
      assignElements coder (counted.view pool.size) counted 0 array := by
    rw [BitPackedArrayPool.pushBack, if_neg (not_not_intro fits.length_eq)]
  have length_eq := written.length_eq.trans grown.length_eq
  have width_eq := written.width_eq.trans grown.width_eq
  rw [pushed]
  refine ⟨completes, ⟨written.wf, ?_, ?_, ?_⟩, length_eq, width_eq⟩
  · rw [written.size_eq, List.length_append, List.length_singleton, ← represents.size_eq]
    exact congrArg (· + 1) grown.size_eq
  · intro stored mem
    rw [length_eq, width_eq]
    rcases List.mem_append.mp mem with old | new
    · exact represents.fits stored old
    · exact List.mem_singleton.mp new ▸ fits
  · intro i stored j value b found foundValue inCode
    have inCode' : b < pool.width := width_eq ▸ inCode
    have inCounted : b < counted.width := written.width_eq ▸ inCode
    rcases Nat.lt_or_ge i arrays.length with old | new
    · rw [List.getElem?_append_left old] at found
      have fitsOld := represents.fits stored (List.mem_of_getElem? found)
      have inArray : j < counted.length := by
        rw [show counted.length = pool.length from grown.length_eq, ← fitsOld.length_eq]
        exact (List.getElem?_eq_some_iff.mp foundValue).1
      have below := old.trans_le (represents.size_eq ▸ represents.wf.size_le)
      refine (written.codeBit_old inArray inCounted (.inl ?_)).trans ?_
      · exact (represents.size_eq ▸ old).ne
      · exact (grown.codeBit_eq represents.wf below).trans
          (represents.codeBit_eq found foundValue inCode')
    · rw [List.getElem?_append_right new, List.getElem?_singleton] at found
      split at found
      · cases found
        have last : i = pool.size := by
          rw [represents.size_eq]
          omega
        rw [last, ← Nat.zero_add j]
        exact written.codeBit_new foundValue inCounted
      · cases found

/-- Push arrays one after another. -/
def run (coder : BlockCoder w α) (pool : BitPackedArrayPool w segShift) (arrays : List (List α)) :
    BitPackedArrayPool w segShift :=
  arrays.foldl (fun pool array => (pool.pushBack coder array).1) pool

theorem Represents.run (represents : Represents coder pool arrays) {more : List (List α)}
    (fits : ∀ array ∈ more, Fits coder pool.length pool.width array) :
    Represents coder (pool.run coder more) (arrays ++ more) ∧
      (pool.run coder more).length = pool.length ∧ (pool.run coder more).width = pool.width := by
  induction more generalizing pool arrays with
  | nil => exact ⟨(List.append_nil arrays).symm ▸ represents, rfl, rfl⟩
  | cons array more ih =>
      obtain ⟨_, pushed, length_eq, width_eq⟩ := represents.pushBack (fits array List.mem_cons_self)
      have fitsRest : ∀ later ∈ more, Fits coder (pool.pushBack coder array).1.length
          (pool.pushBack coder array).1.width later := by
        intro later mem
        rw [length_eq, width_eq]
        exact fits later (List.mem_cons_of_mem _ mem)
      obtain ⟨stored, lengthRest, widthRest⟩ := ih pushed fitsRest
      rw [List.append_cons]
      exact ⟨stored, lengthRest.trans length_eq, widthRest.trans width_eq⟩

end BitPackedArrayPool

end Tyr
