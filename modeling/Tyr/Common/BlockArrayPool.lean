import Tyr.Common.BitPackedArrayPool

/-!
Pools of block arrays, and pushes that fail.

Each element of a `BlockArrayPool` has a block of its own, so that every value fits.
A push to either pool may throw an exception.

* `ArrayPool.Unaffected` — nothing tells two states of a pool apart.
* `pushBack_unaffected_iff` — a push that throws leaves the pool as it was iff the
  array has the wrong number of elements.
-/

namespace Tyr

/-- A pool whose first segment has room for `2 ^ segShift` arrays. -/
structure BlockArrayPool (w segShift : Nat) where
  segments : List (List (BitVec w))
  length : Nat
  capacity : Nat
  size : Nat

namespace BlockArrayPool

variable {w segShift : Nat} {α : Type*}

/-- One iteration of the loop of `reserve`. -/
def addSegment (pool : BlockArrayPool w segShift) (seg : Nat) : BlockArrayPool w segShift :=
  let arraysInSegment := 2 ^ segShift <<< seg
  { pool with
    segments := pool.segments ++ [List.replicate (arraysInSegment * pool.length) 0#w]
    capacity := pool.capacity + arraysInSegment }

def reserve (pool : BlockArrayPool w segShift) (size : Nat) : BlockArrayPool w segShift :=
  if size = 0 ∨ size ≤ pool.capacity then pool
  else
    let lastSegment := getSegmentIndex segShift (size - 1)
    let firstNewSegment := pool.segments.length
    (List.range' firstNewSegment (lastSegment + 1 - firstNewSegment)).foldl addSegment
      { pool with segments := pool.segments.take (lastSegment + 1) }

/-- `operator[]`: the segment and the first block of an array. -/
def view (pool : BlockArrayPool w segShift) (index : Nat) : Nat × Nat :=
  (getSegmentIndex segShift index, getSegmentPos segShift index * pool.length)

def read (coder : BlockCoder w α) (pool : BlockArrayPool w segShift) (view : Nat × Nat) (pos : Nat) :
    α :=
  coder.decode ((pool.segments.getD view.1 []).getD (view.2 + pos) 0#w)

def assign (coder : BlockCoder w α) (pool : BlockArrayPool w segShift) (view : Nat × Nat) (pos : Nat)
    (value : α) : BlockArrayPool w segShift :=
  { pool with segments := pool.segments.modify view.1 fun blocks =>
      blocks.set (view.2 + pos) (coder.encode value) }

/-- Assign the elements one after another, from a position on. -/
def assignElements (coder : BlockCoder w α) (view : Nat × Nat) :
    BlockArrayPool w segShift → Nat → List α → BlockArrayPool w segShift
  | pool, _, [] => pool
  | pool, pos, value :: values =>
      assignElements coder view (pool.assign coder view pos value) (pos + 1) values

def pushBack (coder : BlockCoder w α) (pool : BlockArrayPool w segShift) (elements : List α) :
    BlockArrayPool w segShift × Option Exception :=
  if elements.length ≠ pool.length then
    (pool, some (.invalidArgument "BlockArrayPool: wrong number of elements."))
  else
    let index := pool.size
    let pool := pool.reserve (pool.size + 1)
    let pool := { pool with size := pool.size + 1 }
    (assignElements coder (pool.view index) pool 0 elements, none)

def clear (pool : BlockArrayPool w segShift) : BlockArrayPool w segShift := { pool with size := 0 }

/-- The elements of an array. -/
def get (coder : BlockCoder w α) (pool : BlockArrayPool w segShift) (index : Nat) : List α :=
  (List.range pool.length).map (pool.read coder (pool.view index))

/-- A push throws before it does anything. -/
theorem pushBack_of_throws (coder : BlockCoder w α) (pool : BlockArrayPool w segShift)
    (elements : List α) (throws : (pool.pushBack coder elements).2 ≠ none) :
    (pool.pushBack coder elements).1 = pool := by
  unfold pushBack at throws ⊢
  split
  · rfl
  · rename_i sameLength
    rw [if_neg sameLength] at throws
    exact absurd rfl throws

end BlockArrayPool

/-! ### What a pool shows -/

/-- The operations of a pool of arrays. -/
structure ArrayPool (σ : Type*) (α : Type*) where
  pushBack : σ → List α → σ × Option Exception
  clear : σ → σ
  size : σ → Nat
  get : σ → Nat → List α

inductive Request (α : Type*) where
  | pushBack (elements : List α)
  | clear
  | size
  | get (index : Nat)

inductive Reply (α : Type*) where
  | pushed (thrown : Option Exception)
  | cleared
  | size (size : Nat)
  | array (elements : Option (List α))

namespace ArrayPool

variable {σ α : Type*}

/-- One request; an index behind the size has no array. -/
def reply (pool : ArrayPool σ α) (state : σ) : Request α → σ × Reply α
  | .pushBack elements =>
      let (state, thrown) := pool.pushBack state elements
      (state, .pushed thrown)
  | .clear => (pool.clear state, .cleared)
  | .size => (state, .size (pool.size state))
  | .get index =>
      (state, .array (if index < pool.size state then some (pool.get state index) else none))

def replies (pool : ArrayPool σ α) : σ → List (Request α) → List (Reply α)
  | _, [] => []
  | state, request :: requests =>
      let (state, reply) := pool.reply state request
      reply :: pool.replies state requests

/-- The states have the same arrays, and every later operation has the same result. -/
structure Unaffected (pool : ArrayPool σ α) (before after : σ) : Prop where
  size_eq : pool.size after = pool.size before
  get_eq : ∀ index < pool.size before, pool.get after index = pool.get before index
  replies_eq : ∀ requests, pool.replies after requests = pool.replies before requests

theorem unaffected_refl (pool : ArrayPool σ α) (state : σ) : pool.Unaffected state state :=
  ⟨rfl, fun _ _ => rfl, fun _ => rfl⟩

end ArrayPool

section

variable {w segShift : Nat} {α : Type*}

def bitPackedArrays (segShift : Nat) (coder : BlockCoder w α) :
    ArrayPool (BitPackedArrayPool w segShift) α where
  pushBack pool := pool.pushBack coder
  clear pool := pool.clear
  size pool := pool.size
  get pool := pool.get coder

def blockArrays (segShift : Nat) (coder : BlockCoder w α) : ArrayPool (BlockArrayPool w segShift) α where
  pushBack pool := pool.pushBack coder
  clear pool := pool.clear
  size pool := pool.size
  get pool := pool.get coder

/-- A push that throws leaves a pool of bit-packed arrays as it was iff the array has the
wrong number of elements, and it leaves every pool of block arrays as it was. -/
theorem pushBack_unaffected_iff (coder : BlockCoder w α) (elements : List α) :
    (∀ pool : BitPackedArrayPool w segShift, (pool.pushBack coder elements).2 ≠ none →
      ((bitPackedArrays segShift coder).Unaffected pool (pool.pushBack coder elements).1 ↔
        elements.length ≠ pool.length)) ∧
    ∀ pool : BlockArrayPool w segShift, (pool.pushBack coder elements).2 ≠ none →
      (blockArrays segShift coder).Unaffected pool (pool.pushBack coder elements).1 := by
  constructor
  · intro pool _
    constructor
    · intro unaffected sameLength
      have counted : (pool.pushBack coder elements).1.size = pool.size := unaffected.size_eq
      rw [BitPackedArrayPool.size_pushBack, if_neg (not_not_intro sameLength)] at counted
      omega
    · intro otherLength
      rw [BitPackedArrayPool.pushBack, if_pos otherLength]
      exact ArrayPool.unaffected_refl _ pool
  · intro pool throws
    rw [BlockArrayPool.pushBack_of_throws coder pool elements throws]
    exact ArrayPool.unaffected_refl _ pool

/-- The second element needs three bits, and the array is counted. -/
theorem pushBack_counts_rejected :
    ¬ ∀ (pool : BitPackedArrayPool 32 0) (elements : List (BitVec 32)),
      (pool.pushBack (ForwardingBlockCoder 32) elements).2 ≠ none →
      (bitPackedArrays 0 (ForwardingBlockCoder 32)).Unaffected pool
        (pool.pushBack (ForwardingBlockCoder 32) elements).1 := by
  intro unaffected
  have throws : ((BitPackedArrayPool.create 32 0 2 2).pushBack (ForwardingBlockCoder 32)
      [1#32, 4#32]).2 ≠ none := by
    rw [ne_eq, BitPackedArrayPool.pushBack_eq_none_iff]
    intro fits
    exact absurd (fits.fits 4#32 (by simp)) (by decide)
  have counted : BitPackedArrayPool.size _ = 0 := (unaffected _ _ throws).size_eq
  rw [BitPackedArrayPool.size_pushBack, if_neg (by decide)] at counted
  cases counted

end

end Tyr
