import Mathlib.Data.Nat.Bitwise
import Mathlib.Data.List.GetD

/-!
Unsigned integers packed into blocks of `w` bits.

A list of blocks is one long sequence of bits (`bit`). `writeInt` stores an integer
at an offset of a block, also across the end of the block, and `readInt` reads it.
The width of a block type is a power of two, so `& (digits - 1)` is the remainder by `w`.

* `bit_writeInt` — a write changes the bits of its field and no other.
* `getLsbD_readInt` — a read returns the bits of its field.
* `readInt_eq` — what was written is read.
* `writeInt_frame` — both together, and writes to disjoint fields commute.
-/

namespace Tyr.Bit

/-- A `uint_t`. -/
abbrev Block := BitVec 32

def ceilDiv (x y : Nat) : Nat := (x + y - 1) / y

/-- The width of the integers below `domainSize`. -/
def bitsNeeded (domainSize : Nat) : Nat :=
  if domainSize ≤ 1 then 1 else Nat.log2 (domainSize - 1) + 1

variable {w : Nat}

/-- The block with the `i` lowest bits set. -/
def loSet (i : Nat) : BitVec w := if i < w then (1#w <<< i) - 1#w else BitVec.allOnes w

def block (blocks : List (BitVec w)) (i : Nat) : BitVec w := blocks.getD i 0#w

/-- The bit at a position, over all blocks. -/
def bit (blocks : List (BitVec w)) (i : Nat) : Bool := (block blocks (i / w)).getLsbD (i % w)

/-! ### Integers -/

/-- `write_int`: the bits behind the end of the block go to the next one. -/
def writeInt (blocks : List (BitVec w)) (start : Nat) (x : BitVec w) (offset len : Nat) :
    List (BitVec w) :=
  let x := x &&& loSet len
  if w ≤ offset + len then
    let blocks := blocks.set start ((block blocks start &&& loSet offset) ||| (x <<< offset))
    let spilled := (offset + len) % w
    if spilled = 0 then blocks
    else blocks.set (start + 1)
      ((block blocks (start + 1) &&& ~~~(loSet spilled)) ||| (x >>> (len - spilled)))
  else
    blocks.set start
      ((block blocks start &&& ((BitVec.allOnes w <<< (offset + len)) ||| loSet offset)) |||
        (x <<< offset))

/-- `read_int`. -/
def readInt (blocks : List (BitVec w)) (start offset len : Nat) : BitVec w :=
  let low := block blocks start >>> offset
  if w < offset + len then
    low ||| ((block blocks (start + 1) &&& loSet ((offset + len) % w)) <<< (w - offset))
  else low &&& loSet len

/-- Does the integer fit into `len` bits? -/
def fits (raw : BitVec w) (len : Nat) : Bool := raw &&& ~~~(loSet len) == 0#w

/-- Assign to an `int_reference`; none if the value does not fit. -/
def assignInt (blocks : List (BitVec w)) (start : Nat) (value : BitVec w) (offset len : Nat) :
    Option (List (BitVec w)) :=
  if fits value len then some (writeInt blocks start value offset len) else none

/-- Assign to a `bit_reference`. -/
def assignBit (blocks : List (BitVec w)) (i : Nat) (value : Bool) : List (BitVec w) :=
  let mask := 1#w <<< (i % w)
  blocks.set (i / w)
    (if value then block blocks (i / w) ||| mask else block blocks (i / w) &&& ~~~mask)

/-! ### Bits of the masks -/

theorem getLsbD_loSet {i : Nat} (le : i ≤ w) (j : Nat) :
    (loSet i : BitVec w).getLsbD j = decide (j < i) := by
  unfold loSet
  split
  · rename_i less
    have pow : 2 ^ i < 2 ^ w := Nat.pow_lt_pow_right (by decide) less
    have one : 1 ≤ 2 ^ i := Nat.one_le_two_pow
    have toNat : (1#w <<< i - 1#w).toNat = 2 ^ i - 1 := by
      rw [BitVec.toNat_sub, BitVec.toNat_shiftLeft, BitVec.toNat_ofNat, Nat.shiftLeft_eq,
        Nat.mod_eq_of_lt (one.trans_lt pow), one_mul, Nat.mod_eq_of_lt pow,
        show 2 ^ w - 1 + 2 ^ i = 2 ^ i - 1 + 2 ^ w by omega, Nat.add_mod_right]
      exact Nat.mod_eq_of_lt (by omega)
    rw [BitVec.getLsbD, toNat, Nat.testBit_two_pow_sub_one]
  · obtain rfl : i = w := by omega
    rw [BitVec.getLsbD_allOnes]

theorem getLsbD_ones_shiftLeft (i j : Nat) :
    (BitVec.allOnes w <<< i).getLsbD j = (decide (j < w) && decide (i ≤ j)) := by
  rw [BitVec.getLsbD_shiftLeft, BitVec.getLsbD_allOnes]
  by_cases less : j < i
  · simp [less]
  · have small : j < w → j - i < w := by omega
    by_cases inBlock : j < w
    · simp [inBlock, Nat.le_of_not_lt less, small inBlock]
    · simp [inBlock]

theorem block_set {blocks : List (BitVec w)} {i : Nat} (inRange : i < blocks.length)
    (value : BitVec w) (j : Nat) :
    block (blocks.set i value) j = if j = i then value else block blocks j := by
  unfold block
  rw [List.getD_eq_getElem?_getD, List.getD_eq_getElem?_getD, List.getElem?_set]
  by_cases same : j = i
  · simp [same, inRange]
  · simp [same, Ne.symm same]

@[simp] theorem length_writeInt (blocks : List (BitVec w)) (start : Nat) (x : BitVec w)
    (offset len : Nat) : (writeInt blocks start x offset len).length = blocks.length := by
  unfold writeInt
  dsimp only
  split
  · split <;> simp
  · simp

@[simp] theorem length_assignBit (blocks : List (BitVec w)) (i : Nat) (value : Bool) :
    (assignBit blocks i value).length = blocks.length := by
  simp [assignBit]

/-! ### Positions -/

theorem position_div {j : Nat} (small : j < w) (b : Nat) : (b * w + j) / w = b := by
  rw [Nat.add_comm, Nat.add_mul_div_right _ _ (Nat.zero_lt_of_lt small), Nat.div_eq_of_lt small,
    Nat.zero_add]

theorem position_mod {j : Nat} (small : j < w) (b : Nat) : (b * w + j) % w = j := by
  rw [Nat.mul_add_mod', Nat.mod_eq_of_lt small]

/-- The bit at a position of a block. -/
theorem bit_position (blocks : List (BitVec w)) (b : Nat) {j : Nat} (small : j < w) :
    bit blocks (b * w + j) = (block blocks b).getLsbD j := by
  rw [bit, position_div small, position_mod small]

/-- Lists of blocks with the same bits are the same. -/
theorem ext {blocks blocks' : List (BitVec w)} (sameLength : blocks.length = blocks'.length)
    (same : ∀ i, bit blocks i = bit blocks' i) : blocks = blocks' := by
  apply List.ext_getElem sameLength
  intro b inRange inRange'
  apply BitVec.eq_of_getLsbD_eq
  intro j small
  have sameBit := same (b * w + j)
  rw [bit_position _ _ small, bit_position _ _ small] at sameBit
  rwa [block, block, List.getD_eq_getElem _ _ inRange, List.getD_eq_getElem _ _ inRange'] at sameBit

/-- A field that does not end in its first block has the rest of its bits in the next one. -/
theorem spilled_eq {offset len : Nat} (inBlock : offset < w) (len_le : len ≤ w)
    (reaches : w ≤ offset + len) : (offset + len) % w = offset + len - w := by
  rw [Nat.mod_eq_sub_mod reaches]
  exact Nat.mod_eq_of_lt (by omega)

/-- The positions of a field are in its first block or in the next one. -/
theorem inField_iff {start offset len b j : Nat} (inBlock : offset < w) (len_le : len ≤ w)
    (small : j < w) :
    start * w + offset ≤ b * w + j ∧ b * w + j < start * w + offset + len ↔
      (b = start ∧ offset ≤ j ∧ j < offset + len) ∨ (b = start + 1 ∧ w + j < offset + len) := by
  rcases Nat.lt_trichotomy b start with before | rfl | after
  · have ends := Nat.mul_le_mul_right w before
    rw [Nat.succ_mul] at ends
    omega
  · omega
  · rcases Nat.eq_or_lt_of_le after with rfl | beyond
    · rw [Nat.succ_mul]
      omega
    · have ends := Nat.mul_le_mul_right w beyond
      rw [Nat.succ_mul, Nat.succ_mul] at ends
      omega

/-! ### Bits of the fields -/

/-- The bits of a block in which a field was stored that starts in it. -/
theorem getLsbD_store {old x : BitVec w} {offset len : Nat} (inBlock : offset < w) (j : Nat)
    (small : j < w) (le : w ≤ offset + len) (len_le : len ≤ w) :
    ((old &&& loSet offset) ||| ((x &&& loSet len) <<< offset)).getLsbD j =
      if offset ≤ j then x.getLsbD (j - offset) else old.getLsbD j := by
  rw [BitVec.getLsbD_or, BitVec.getLsbD_and, BitVec.getLsbD_shiftLeft, BitVec.getLsbD_and,
    getLsbD_loSet inBlock.le, getLsbD_loSet len_le]
  by_cases before : j < offset
  · simp [before, Nat.not_le.mpr before]
  · have inField : j - offset < len := by omega
    simp [before, Nat.le_of_not_lt before, small, inField]

/-- The bits of a block in which a field was stored that ends in it. -/
theorem getLsbD_store_inside {old x : BitVec w} {offset len : Nat} (j : Nat) (small : j < w)
    (lt : offset + len < w) :
    ((old &&& ((BitVec.allOnes w <<< (offset + len)) ||| loSet offset)) |||
        ((x &&& loSet len) <<< offset)).getLsbD j =
      if offset ≤ j ∧ j < offset + len then x.getLsbD (j - offset) else old.getLsbD j := by
  rw [BitVec.getLsbD_or, BitVec.getLsbD_and, BitVec.getLsbD_or, getLsbD_ones_shiftLeft,
    BitVec.getLsbD_shiftLeft, BitVec.getLsbD_and, getLsbD_loSet (by omega), getLsbD_loSet (by omega)]
  by_cases before : j < offset
  · simp [before, small, Nat.not_le.mpr before]
  · have after : offset + len ≤ j ↔ ¬ j - offset < len := by omega
    have inside : offset ≤ j ∧ j < offset + len ↔ j - offset < len := by omega
    by_cases inField : j - offset < len
    · simp [before, small, after, inside, inField]
    · simp [before, small, after, inside, inField]

/-- The bits of the block that takes what spills over. -/
theorem getLsbD_spill {old x : BitVec w} {spilled len : Nat} (inBlock : spilled ≤ len)
    (len_le : len ≤ w) (j : Nat) (small : j < w) :
    ((old &&& ~~~(loSet spilled)) ||| ((x &&& loSet len) >>> (len - spilled))).getLsbD j =
      if j < spilled then x.getLsbD (len - spilled + j) else old.getLsbD j := by
  rw [BitVec.getLsbD_or, BitVec.getLsbD_and, BitVec.getLsbD_not, BitVec.getLsbD_ushiftRight,
    BitVec.getLsbD_and, getLsbD_loSet (inBlock.trans len_le), getLsbD_loSet len_le]
  by_cases before : j < spilled
  · have inField : len - spilled + j < len := by omega
    simp [before, inField]
  · have outside : ¬ len - spilled + j < len := by omega
    simp [before, small, outside]

/-- The bits of a block after a write. -/
theorem getLsbD_writeInt {blocks : List (BitVec w)} {start offset len : Nat} (inBlock : offset < w)
    (len_le : len ≤ w) (startLt : start < blocks.length)
    (nextLt : w < offset + len → start + 1 < blocks.length) (x : BitVec w) (b : Nat) {j : Nat}
    (small : j < w) :
    (block (writeInt blocks start x offset len) b).getLsbD j =
      if b = start ∧ offset ≤ j ∧ j < offset + len then x.getLsbD (j - offset)
      else if b = start + 1 ∧ w + j < offset + len then x.getLsbD (w + j - offset)
      else (block blocks b).getLsbD j := by
  unfold writeInt
  dsimp only
  split
  · rename_i reaches
    have spilledEq := spilled_eq inBlock len_le reaches
    have atStart : (block (blocks.set start
        ((block blocks start &&& loSet offset) ||| ((x &&& loSet len) <<< offset))) b).getLsbD j =
        if b = start ∧ offset ≤ j ∧ j < offset + len then x.getLsbD (j - offset)
        else (block blocks b).getLsbD j := by
      have inField : j < offset + len := by omega
      rw [block_set startLt]
      by_cases same : b = start
      · rw [if_pos same, getLsbD_store inBlock _ small reaches len_le, same]
        simp only [true_and, inField, and_true]
      · rw [if_neg same, if_neg fun both => same both.1]
    split
    · rename_i full
      rw [atStart, if_neg fun spills : b = start + 1 ∧ w + j < offset + len => by omega]
    · rename_i spills
      rw [block_set (by simpa using nextLt (by omega))]
      by_cases same : b = start + 1
      · have spilledLe : (offset + len) % w ≤ len := by omega
        have position : len - (offset + len) % w + j = w + j - offset := by omega
        have field : j < (offset + len) % w ↔ w + j < offset + len := by omega
        rw [if_pos same, getLsbD_spill spilledLe len_le _ small, position,
          block_set startLt, if_neg (Nat.succ_ne_self start),
          if_neg fun first : b = start ∧ offset ≤ j ∧ j < offset + len => by omega]
        simp only [same, field, true_and]
      · rw [if_neg same, atStart, if_neg fun second : b = start + 1 ∧ _ => same second.1]
  · rename_i inside
    rw [block_set startLt, if_neg fun second : b = start + 1 ∧ w + j < offset + len => by omega]
    by_cases same : b = start
    · rw [if_pos same, getLsbD_store_inside _ small (Nat.lt_of_not_le inside), same]
      simp only [true_and]
    · rw [if_neg same, if_neg fun first => same first.1]

/-- A write changes the bits of its field and no other. -/
theorem bit_writeInt {blocks : List (BitVec w)} {start offset len : Nat} (inBlock : offset < w)
    (len_le : len ≤ w) (inRange : start * w + offset + len ≤ w * blocks.length)
    (nonempty : 0 < len) (x : BitVec w) (i : Nat) :
    bit (writeInt blocks start x offset len) i =
      if start * w + offset ≤ i ∧ i < start * w + offset + len then
        x.getLsbD (i - (start * w + offset)) else bit blocks i := by
  rw [Nat.mul_comm w] at inRange
  have startLt : start < blocks.length := by
    apply Nat.lt_of_mul_lt_mul_right (a := w)
    omega
  have nextLt : w < offset + len → start + 1 < blocks.length := by
    intro crosses
    apply Nat.lt_of_mul_lt_mul_right (a := w)
    rw [Nat.succ_mul]
    omega
  obtain ⟨b, j, small, rfl⟩ : ∃ b j, j < w ∧ i = b * w + j :=
    ⟨i / w, i % w, Nat.mod_lt _ (Nat.zero_lt_of_lt inBlock), (Nat.div_add_mod' i w).symm⟩
  rw [bit_position _ _ small, bit_position _ _ small,
    getLsbD_writeInt inBlock len_le startLt nextLt x b small]
  simp only [inField_iff inBlock len_le small]
  by_cases first : b = start ∧ offset ≤ j ∧ j < offset + len
  · rw [if_pos first, if_pos (.inl first), first.1, Nat.add_sub_add_left]
  · rw [if_neg first]
    by_cases second : b = start + 1 ∧ w + j < offset + len
    · have position : (start + 1) * w + j - (start * w + offset) = w + j - offset := by
        rw [Nat.succ_mul]
        omega
      rw [if_pos second, if_pos (.inr second), second.1, position]
    · rw [if_neg second, if_neg fun inField => inField.elim first second]

/-- A read returns the bits of its field. -/
theorem getLsbD_readInt {offset len : Nat} (inBlock : offset < w) (len_le : len ≤ w)
    (blocks : List (BitVec w)) (start i : Nat) :
    (readInt blocks start offset len).getLsbD i =
      (decide (i < len) && bit blocks (start * w + offset + i)) := by
  have inFirst : offset + i < w →
      bit blocks (start * w + offset + i) = (block blocks start).getLsbD (offset + i) := by
    intro low
    rw [Nat.add_assoc, bit_position _ _ low]
  unfold readInt
  dsimp only
  split
  · rename_i crosses
    have spilledEq := spilled_eq inBlock len_le crosses.le
    rw [BitVec.getLsbD_or, BitVec.getLsbD_ushiftRight, BitVec.getLsbD_shiftLeft, BitVec.getLsbD_and,
      spilledEq, getLsbD_loSet (by omega)]
    by_cases low : offset + i < w
    · have notHigh : i < w - offset := by omega
      have inField : i < len := by omega
      simp [notHigh, inField, inFirst low]
    · have high : ¬ i < w - offset := by omega
      have clear : (block blocks start).getLsbD (offset + i) = false :=
        BitVec.getLsbD_of_ge _ _ (Nat.le_of_not_lt low)
      by_cases inField : i < len
      · have masked : i - (w - offset) < offset + len - w := by omega
        have small : i < w := by omega
        have position : start * w + offset + i = (start + 1) * w + (i - (w - offset)) := by
          rw [Nat.succ_mul]
          omega
        rw [position, bit_position _ _ (by omega)]
        simp [high, clear, inField, masked, small]
      · have masked : ¬ i - (w - offset) < offset + len - w := by omega
        simp [clear, inField, masked]
  · rename_i inside
    rw [BitVec.getLsbD_and, BitVec.getLsbD_ushiftRight, getLsbD_loSet len_le]
    by_cases inField : i < len
    · simp [inField, inFirst (by omega)]
    · simp [inField]

theorem fits_iff {raw : BitVec w} {len : Nat} (len_le : len ≤ w) :
    fits raw len = true ↔ ∀ i, len ≤ i → raw.getLsbD i = false := by
  rw [fits, beq_iff_eq]
  constructor
  · intro zero i le
    have masked := congrArg (fun value : BitVec w => value.getLsbD i) zero
    by_cases small : i < w
    · simp only [BitVec.getLsbD_and, BitVec.getLsbD_not, getLsbD_loSet len_le] at masked
      simpa [Nat.not_lt.mpr le, small] using masked
    · exact BitVec.getLsbD_of_ge _ _ (Nat.le_of_not_lt small)
  · intro high
    apply BitVec.eq_of_getLsbD_eq
    intro i small
    rw [BitVec.getLsbD_and, BitVec.getLsbD_not, getLsbD_loSet len_le]
    rcases Nat.lt_or_ge i len with inField | le
    · simp [inField]
    · simp [high i le]

theorem fits_width (raw : BitVec w) : fits raw w = true :=
  (fits_iff (Nat.le_refl w)).mpr fun i le => BitVec.getLsbD_of_ge raw i le

/-- What was written is read, if it fits. -/
theorem readInt_eq {blocks : List (BitVec w)} {start offset len : Nat} {x : BitVec w}
    (inBlock : offset < w) (len_le : len ≤ w) (fit : fits x len = true)
    (stored : ∀ i < len, bit blocks (start * w + offset + i) = x.getLsbD i) :
    readInt blocks start offset len = x := by
  apply BitVec.eq_of_getLsbD_eq
  intro i small
  rw [getLsbD_readInt inBlock len_le]
  rcases Nat.lt_or_ge i len with inField | le
  · simp [inField, stored i inField]
  · simp [Nat.not_lt.mpr le, (fits_iff len_le).mp fit i le]

/-- Assigning a bit changes no other. -/
theorem bit_assignBit {blocks : List (BitVec w)} {i : Nat} (inRange : i < w * blocks.length)
    (value : Bool) (j : Nat) :
    bit (assignBit blocks i value) j = if j = i then value else bit blocks j := by
  have width : 0 < w := Nat.pos_of_mul_pos_right (Nat.zero_lt_of_lt inRange)
  have inBlocks : i / w < blocks.length := Nat.div_lt_of_lt_mul inRange
  have small : j % w < w := Nat.mod_lt _ width
  unfold bit assignBit
  dsimp only
  rw [block_set inBlocks]
  by_cases sameBlock : j / w = i / w
  · rw [if_pos sameBlock, sameBlock, ← BitVec.twoPow_eq]
    have same : j = i ↔ j % w = i % w := by
      constructor
      · rintro rfl
        rfl
      · intro sameBit
        rw [← Nat.div_add_mod j w, sameBlock, sameBit, Nat.div_add_mod]
    have mask : (BitVec.twoPow w (i % w)).getLsbD (j % w) = decide (j % w = i % w) := by
      rw [BitVec.getLsbD_twoPow]
      simp [Nat.mod_lt _ width, eq_comm]
    cases value with
    | true =>
        rw [if_pos rfl, BitVec.getLsbD_or, mask]
        by_cases sameBit : j % w = i % w <;> simp only [same, sameBit, decide_true, decide_false,
          Bool.or_true, Bool.or_false, if_true, if_false]
    | false =>
        rw [if_neg Bool.false_ne_true, BitVec.getLsbD_and, BitVec.getLsbD_not, mask]
        by_cases sameBit : j % w = i % w
        · rw [if_pos (same.mpr sameBit)]
          simp [sameBit]
        · rw [if_neg fun isBit => sameBit (same.mp isBit)]
          simp only [sameBit, small, decide_true, decide_false, Bool.not_false, Bool.and_true]
  · rw [if_neg sameBlock, if_neg fun same => sameBlock (congrArg (· / w) same)]

/-- The blocks have room for the bits. -/
theorem le_mul_ceilDiv (width : 0 < w) (bits : Nat) : bits ≤ w * ceilDiv bits w := by
  have less := Nat.lt_mul_div_succ (bits + w - 1) width
  rw [Nat.mul_succ] at less
  unfold ceilDiv
  omega

/-! ### Round trips -/

/-- A read after a write truncates the integer to its field. -/
theorem toNat_readInt_writeInt {blocks : List (BitVec w)} {start offset len : Nat}
    (inBlock : offset < w) (len_le : len ≤ w)
    (inRange : start * w + offset + len ≤ w * blocks.length) (nonempty : 0 < len) (x : BitVec w) :
    (readInt (writeInt blocks start x offset len) start offset len).toNat = x.toNat % 2 ^ len := by
  apply Nat.eq_of_testBit_eq
  intro i
  rw [BitVec.testBit_toNat, Nat.testBit_mod_two_pow, BitVec.testBit_toNat,
    getLsbD_readInt inBlock len_le, bit_writeInt inBlock len_le inRange nonempty]
  by_cases inField : i < len
  · rw [if_pos ⟨Nat.le_add_right _ _, Nat.add_lt_add_left inField _⟩, Nat.add_sub_cancel_left]
  · simp [inField]

/-- Writes to disjoint fields commute. -/
theorem writeInt_comm {blocks : List (BitVec w)} {start offset len start' offset' len' : Nat}
    (inBlock : offset < w) (len_le : len ≤ w) (nonempty : 0 < len)
    (inRange : start * w + offset + len ≤ w * blocks.length)
    (inBlock' : offset' < w) (len_le' : len' ≤ w) (nonempty' : 0 < len')
    (inRange' : start' * w + offset' + len' ≤ w * blocks.length)
    (disjoint : start * w + offset + len ≤ start' * w + offset' ∨
      start' * w + offset' + len' ≤ start * w + offset) (x y : BitVec w) :
    writeInt (writeInt blocks start x offset len) start' y offset' len' =
      writeInt (writeInt blocks start' y offset' len') start x offset len := by
  apply ext (by simp)
  intro i
  rw [bit_writeInt inBlock' len_le' (by simpa using inRange') nonempty',
    bit_writeInt inBlock len_le inRange nonempty,
    bit_writeInt inBlock len_le (by simpa using inRange) nonempty,
    bit_writeInt inBlock' len_le' inRange' nonempty']
  by_cases inFirst : start * w + offset ≤ i ∧ i < start * w + offset + len
  · rw [if_pos inFirst, if_pos inFirst, if_neg (by omega)]
  · rw [if_neg inFirst, if_neg inFirst]

/-- A write is read back up to its length, leaves every other bit, and commutes with
the writes to disjoint fields. -/
theorem writeInt_frame {blocks : List (BitVec w)} {start offset len : Nat} (inBlock : offset < w)
    (nonempty : 0 < len) (len_le : len ≤ w)
    (inRange : start * w + offset + len ≤ w * blocks.length) (x : BitVec w) :
    (readInt (writeInt blocks start x offset len) start offset len).toNat = x.toNat % 2 ^ len ∧
    (writeInt blocks start x offset len).length = blocks.length ∧
    (∀ i, i < start * w + offset ∨ start * w + offset + len ≤ i →
      bit (writeInt blocks start x offset len) i = bit blocks i) ∧
    ∀ {start' offset' len'}, offset' < w → 0 < len' → len' ≤ w →
      start' * w + offset' + len' ≤ w * blocks.length →
      (start * w + offset + len ≤ start' * w + offset' ∨
        start' * w + offset' + len' ≤ start * w + offset) →
      ∀ y, writeInt (writeInt blocks start x offset len) start' y offset' len' =
        writeInt (writeInt blocks start' y offset' len') start x offset len := by
  refine ⟨toNat_readInt_writeInt inBlock len_le inRange nonempty x, length_writeInt _ _ _ _ _,
    fun i outside => ?_, fun inBlock' nonempty' len_le' inRange' disjoint y => ?_⟩
  · rw [bit_writeInt inBlock len_le inRange nonempty, if_neg (by omega)]
  · exact writeInt_comm inBlock len_le nonempty inRange inBlock' len_le' nonempty' inRange'
      disjoint x y

/-- Across two bytes. -/
theorem writeInt_frame_bytes :
    (readInt (writeInt [0xff#8, 0xff#8] 0 0x15#8 5 6) 0 5 6).toNat = 0x15 ∧
    (writeInt [0xff#8, 0xff#8] 0 0x15#8 5 6).length = 2 ∧
    (∀ i, i < 5 ∨ 11 ≤ i →
      bit (writeInt [0xff#8, 0xff#8] 0 0x15#8 5 6) i = bit [0xff#8, 0xff#8] i) ∧
    ∀ {start' offset' len'}, offset' < 8 → 0 < len' → len' ≤ 8 →
      start' * 8 + offset' + len' ≤ 8 * 2 →
      (11 ≤ start' * 8 + offset' ∨ start' * 8 + offset' + len' ≤ 5) →
      ∀ y, writeInt (writeInt [0xff#8, 0xff#8] 0 0x15#8 5 6) start' y offset' len' =
        writeInt (writeInt [0xff#8, 0xff#8] start' y offset' len') 0 0x15#8 5 6 :=
  writeInt_frame (by decide) (by decide) (by decide) (by decide) 0x15#8

end Tyr.Bit
