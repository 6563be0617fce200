import Tyr.Common.Bit
import Tyr.Lib.BitScan
import Tyr.Lib.Fold
import Mathlib.Data.Finset.Range
import Mathlib.Data.Finset.Basic
import Mathlib.Data.Finset.Card
import Mathlib.Data.Option.Basic

/-!
Spans of bits.

A span views blocks as a set of numbers below its number of bits. The bits of the
last block beyond that number must be zero (`trailingBitsZero`).

* `trailingBitsZero_iff` — no bit beyond the length is set.
* `findFirst_eq`, `findNext_eq`, `forEachBit_eq` — what the loops visit.
* `refines_finset` — operations on spans are operations on finite sets.
-/

namespace Tyr

open Lib BitScan

/-- The blocks of `numBits` bits. -/
structure BitsetSpan (w : Nat) where
  data : List (BitVec w)
  numBits : Nat
deriving DecidableEq

namespace BitsetSpan

variable {w : Nat}

def blockIndex (w pos : Nat) : Nat := pos / w

def blockPos (w pos : Nat) : Nat := pos % w

def numBlocks (w numBits : Nat) : Nat := (numBits + w - 1) / w

def fullMask : BitVec w := ~~~0#w

def lastMask (numBits : Nat) : BitVec w :=
  let r := numBits % w
  if r = 0 then fullMask else (1#w <<< r) - 1#w

def block (span : BitsetSpan w) (i : Nat) : BitVec w := Bit.block span.data i

/-! ### Helpers and accessors -/

def clearTrailingBits (span : BitsetSpan w) : BitsetSpan w :=
  let n := numBlocks w span.numBits
  if n = 0 then span
  else { span with data := span.data.set (n - 1) (span.block (n - 1) &&& lastMask span.numBits) }

def trailingBitsZero (span : BitsetSpan w) : Bool :=
  let n := numBlocks w span.numBits
  if n = 0 then true else (span.block (n - 1) &&& ~~~lastMask span.numBits) == 0#w

def test (span : BitsetSpan w) (pos : Nat) : Bool :=
  (span.block (blockIndex w pos) &&& (1#w <<< blockPos w pos)) != 0#w

def count (span : BitsetSpan w) : Nat :=
  (List.range (numBlocks w span.numBits)).foldl (fun cnt i => cnt + popcount (span.block i)) 0

/-! ### Modifiers -/

/-- `set` of one bit. -/
def set (span : BitsetSpan w) (pos : Nat) : BitsetSpan w :=
  { span with
    data := span.data.set (blockIndex w pos)
      (span.block (blockIndex w pos) ||| (1#w <<< blockPos w pos)) }

/-- `set` of all bits. -/
def setAll (span : BitsetSpan w) : BitsetSpan w :=
  { span with data := List.replicate (numBlocks w span.numBits) fullMask }.clearTrailingBits

/-- `reset` of one bit. -/
def reset (span : BitsetSpan w) (pos : Nat) : BitsetSpan w :=
  { span with
    data := span.data.set (blockIndex w pos)
      (span.block (blockIndex w pos) &&& ~~~(1#w <<< blockPos w pos)) }

/-- `reset` of all bits. -/
def resetAll (span : BitsetSpan w) : BitsetSpan w :=
  { span with data := List.replicate (numBlocks w span.numBits) 0#w }

/-- The loop of an operator over the blocks of two spans. -/
def zipBlocks (f : BitVec w → BitVec w → BitVec w) (span other : BitsetSpan w) : BitsetSpan w :=
  { span with
    data := (List.range (numBlocks w span.numBits)).map fun i =>
      f (span.block i) (other.block i) }

def copyFrom (span other : BitsetSpan w) : BitsetSpan w := zipBlocks (fun _ y => y) span other

def diffFrom (span other : BitsetSpan w) : BitsetSpan w := zipBlocks (fun x y => y &&& ~~~x) span other

/-- `operator&=`. -/
def andAssign (span other : BitsetSpan w) : BitsetSpan w := zipBlocks (fun x y => x &&& y) span other

/-- `operator|=`. -/
def orAssign (span other : BitsetSpan w) : BitsetSpan w := zipBlocks (fun x y => x ||| y) span other

/-- `operator-=`. -/
def subAssign (span other : BitsetSpan w) : BitsetSpan w :=
  zipBlocks (fun x y => x &&& ~~~y) span other

/-! ### Iterators -/

/-- The words of a loop that masks the last one. -/
def maskLast (numBits : Nat) (word : Nat → BitVec w) (i : Nat) : BitVec w :=
  if i = numBlocks w numBits - 1 then word i &&& lastMask numBits else word i

/-- The words of a loop that starts behind the first bits of a word. -/
def maskFirst (pos : Nat) (word : Nat → BitVec w) (i : Nat) : BitVec w :=
  if i = blockIndex w pos then word i &&& (fullMask <<< blockPos w pos) else word i

/-- None is `npos`. -/
def findFirst (span : BitsetSpan w) : Option Nat :=
  scan span.numBits span.block (numBlocks w span.numBits) 0

def findNext (span : BitsetSpan w) (pos : Nat) : Option Nat :=
  let pos := pos + 1
  if span.numBits ≤ pos then none
  else
    let i := blockIndex w pos
    scan span.numBits (maskFirst pos span.block) (numBlocks w span.numBits - i) i

def findFirstZero (span : BitsetSpan w) : Option Nat :=
  scan span.numBits (maskLast span.numBits fun i => ~~~span.block i) (numBlocks w span.numBits) 0

def findNextZero (span : BitsetSpan w) (pos : Nat) : Option Nat :=
  let pos := pos + 1
  if span.numBits ≤ pos then none
  else
    let i := blockIndex w pos
    scan span.numBits (maskLast span.numBits (maskFirst pos fun i => ~~~span.block i))
      (numBlocks w span.numBits - i) i

/-- The numbers for which `for_each_bit` calls back, in order. -/
def forEachBit (combiner : List (BitVec w) → BitVec w) (first : BitsetSpan w)
    (rest : List (BitsetSpan w)) : List Nat :=
  (List.range (numBlocks w first.numBits)).flatMap fun block =>
    drain (block * w) (maskLast first.numBits
      (fun block => combiner ((first :: rest).map fun span => span.block block)) block)

/-! ### Blocks and bits -/

def bit (span : BitsetSpan w) (p : Nat) : Bool := Bit.bit span.data p

theorem le_numBlocks_mul (width : 0 < w) (numBits : Nat) : numBits ≤ numBlocks w numBits * w := by
  rw [Nat.mul_comm]
  exact Bit.le_mul_ceilDiv width numBits

theorem numBlocks_mul_lt (width : 0 < w) (numBits : Nat) : numBlocks w numBits * w < numBits + w := by
  have le := Nat.div_mul_le_self (numBits + w - 1) w
  unfold numBlocks
  omega

theorem lt_of_lt_numBlocks_sub {numBits i : Nat} (width : 0 < w) (before : i < numBlocks w numBits - 1)
    {j : Nat} (small : j < w) : i * w + j < numBits := by
  have bound := numBlocks_mul_lt width numBits
  have ends := Nat.mul_le_mul_right w (show i + 1 + 1 ≤ numBlocks w numBits by omega)
  rw [Nat.succ_mul, Nat.succ_mul] at ends
  omega

/-- The mask has the bits of the last block that belong to the span. -/
theorem getLsbD_lastMask {numBits : Nat} (width : 0 < w) (nonempty : numBlocks w numBits ≠ 0)
    {j : Nat} (small : j < w) : (lastMask numBits : BitVec w).getLsbD j =
      decide ((numBlocks w numBits - 1) * w + j < numBits) := by
  have upper := le_numBlocks_mul width numBits
  have lower := numBlocks_mul_lt width numBits
  obtain ⟨n, blocks⟩ := Nat.exists_eq_succ_of_ne_zero nonempty
  rw [blocks, Nat.succ_mul] at upper lower
  rw [blocks, Nat.succ_sub_one]
  have split := Nat.div_add_mod' numBits w
  have rest := Nat.mod_lt numBits width
  unfold lastMask
  dsimp only
  split
  · rename_i divides
    have whole : n < numBits / w := by
      apply Nat.lt_of_mul_lt_mul_right (a := w)
      omega
    have ends := Nat.mul_le_mul_right w whole
    rw [Nat.succ_mul] at ends
    have inSpan : n * w + j < numBits := by omega
    simp [fullMask, small, inSpan]
  · rename_i remains
    have index : numBits / w = n := by
      refine (Nat.div_eq_iff width).mpr ⟨by omega, ?_⟩
      by_contra full
      have filled : numBits = (n + 1) * w := by
        rw [Nat.succ_mul]
        omega
      exact remains (filled ▸ Nat.mul_mod_left _ _)
    have mask := Bit.getLsbD_loSet rest.le j
    rw [Bit.loSet, if_pos rest] at mask
    rw [index] at split
    rw [mask]
    exact decide_eq_decide.mpr (by omega)

/-- The masked words have the bits below the length. -/
theorem wordBit_maskLast {numBits p : Nat} (width : 0 < w) (word : Nat → BitVec w)
    (inBlocks : p < numBlocks w numBits * w) :
    wordBit (maskLast numBits word) p = (wordBit word p && decide (p < numBits)) := by
  obtain ⟨i, j, small, rfl⟩ : ∃ i j, j < w ∧ p = i * w + j :=
    ⟨p / w, p % w, Nat.mod_lt _ width, (Nat.div_add_mod' p w).symm⟩
  have index : i < numBlocks w numBits := by
    apply Nat.lt_of_mul_lt_mul_right (a := w)
    omega
  rw [wordBit_add _ i small, wordBit_add _ i small, maskLast]
  split
  · rename_i last
    rw [BitVec.getLsbD_and, getLsbD_lastMask width (Nat.ne_zero_of_lt index) small, ← last]
  · rename_i inner
    have inSpan := lt_of_lt_numBlocks_sub width (show i < numBlocks w numBits - 1 by omega) small
    simp [inSpan]

/-- The masked words have the bits from the position on. -/
theorem wordBit_maskFirst {pos p : Nat} (width : 0 < w) (word : Nat → BitVec w)
    (reached : blockIndex w pos * w ≤ p) :
    wordBit (maskFirst pos word) p = (wordBit word p && decide (pos ≤ p)) := by
  obtain ⟨i, j, small, rfl⟩ : ∃ i j, j < w ∧ p = i * w + j :=
    ⟨p / w, p % w, Nat.mod_lt _ width, (Nat.div_add_mod' p w).symm⟩
  have split := Nat.div_add_mod' pos w
  have rest := Nat.mod_lt pos width
  rw [wordBit_add _ i small, wordBit_add _ i small, maskFirst]
  unfold blockIndex blockPos at *
  split
  · rename_i first
    have shifted := Bit.getLsbD_ones_shiftLeft (w := w) (pos % w) j
    rw [BitVec.getLsbD_and, fullMask, BitVec.not_zero, shifted, first]
    simp only [small, decide_true, Bool.true_and]
    congr 1
    exact decide_eq_decide.mpr (by omega)
  · rename_i other
    have later : pos / w + 1 ≤ i := by
      by_contra before
      have ends := Nat.mul_le_mul_right w (show i + 1 ≤ pos / w by omega)
      rw [Nat.succ_mul] at ends
      omega
    have ends := Nat.mul_le_mul_right w later
    rw [Nat.succ_mul] at ends
    have inSpan : pos ≤ i * w + j := by omega
    simp [inSpan]

theorem bit_add (span : BitsetSpan w) (i : Nat) {j : Nat} (small : j < w) :
    span.bit (i * w + j) = (span.block i).getLsbD j :=
  wordBit_add span.block i small

theorem block_of_le {span : BitsetSpan w} {i : Nat} (outside : span.data.length ≤ i) :
    span.block i = 0#w :=
  List.getD_eq_default _ _ outside

/-- No bit beyond the length is set. -/
theorem trailingBitsZero_iff {span : BitsetSpan w} (width : 0 < w)
    (sameLength : span.data.length = numBlocks w span.numBits) :
    span.trailingBitsZero = true ↔ ∀ p, span.numBits ≤ p → span.bit p = false := by
  have masked : span.trailingBitsZero = true ↔ ∀ j < w, numBlocks w span.numBits ≠ 0 →
      span.numBits ≤ (numBlocks w span.numBits - 1) * w + j →
      (span.block (numBlocks w span.numBits - 1)).getLsbD j = false := by
    unfold trailingBitsZero
    dsimp only
    split
    · rename_i empty
      simp [empty]
    · rename_i nonempty
      rw [beq_iff_eq]
      constructor
      · intro zero j small _ beyond
        have bitZero := congrArg (fun x : BitVec w => x.getLsbD j) zero
        have outside : ¬ (numBlocks w span.numBits - 1) * w + j < span.numBits := by omega
        simp only [BitVec.getLsbD_and, BitVec.getLsbD_not, getLsbD_lastMask width nonempty small,
          small, outside, decide_true, decide_false, Bool.not_false, Bool.and_true,
          BitVec.getLsbD_zero] at bitZero
        exact bitZero
      · intro zero
        apply BitVec.eq_of_getLsbD_eq
        intro j small
        rw [BitVec.getLsbD_and, BitVec.getLsbD_not, getLsbD_lastMask width nonempty small]
        by_cases inside : (numBlocks w span.numBits - 1) * w + j < span.numBits
        · simp [inside]
        · simp [zero j small nonempty (Nat.le_of_not_lt inside)]
  rw [masked]
  constructor
  · intro zero p beyond
    obtain ⟨i, j, small, rfl⟩ : ∃ i j, j < w ∧ p = i * w + j :=
      ⟨p / w, p % w, Nat.mod_lt _ width, (Nat.div_add_mod' p w).symm⟩
    rw [bit_add span i small]
    rcases Nat.lt_trichotomy i (numBlocks w span.numBits - 1) with inner | rfl | outside
    · exact absurd (lt_of_lt_numBlocks_sub width inner small) (Nat.not_lt_of_le beyond)
    · by_cases nonempty : numBlocks w span.numBits = 0
      · rw [block_of_le (by omega), BitVec.getLsbD_zero]
      · exact zero j small nonempty beyond
    · rw [block_of_le (by omega), BitVec.getLsbD_zero]
  · intro zero j small _ beyond
    rw [← bit_add span _ small]
    exact zero _ beyond

/-- The span has its blocks, and no bit beyond the length is set. -/
structure WellFormed (span : BitsetSpan w) : Prop where
  length_eq : span.data.length = numBlocks w span.numBits
  trailing : span.trailingBitsZero = true

variable {span other : BitsetSpan w} {pos p : Nat}

theorem WellFormed.bit_eq_false (wf : span.WellFormed) (width : 0 < w) (beyond : span.numBits ≤ p) :
    span.bit p = false :=
  (trailingBitsZero_iff width wf.length_eq).mp wf.trailing p beyond

theorem WellFormed.lt_of_bit (wf : span.WellFormed) (width : 0 < w) (isSet : span.bit p = true) :
    p < span.numBits := by
  by_contra beyond
  rw [wf.bit_eq_false width (Nat.le_of_not_lt beyond)] at isSet
  cases isSet

theorem wellFormed_of_bit (width : 0 < w) (sameLength : span.data.length = numBlocks w span.numBits)
    (inBound : ∀ p, span.bit p = true → p < span.numBits) : span.WellFormed := by
  refine ⟨sameLength, (trailingBitsZero_iff width sameLength).mpr ?_⟩
  intro p beyond
  rw [← Bool.not_eq_true]
  intro isSet
  exact absurd (inBound p isSet) (Nat.not_lt_of_le beyond)

theorem test_eq (width : 0 < w) (span : BitsetSpan w) (pos : Nat) : span.test pos = span.bit pos := by
  have small := Nat.mod_lt pos width
  have nonzero : BitVec.twoPow w (pos % w) ≠ 0#w := by
    intro zero
    have isSet := congrArg (fun x : BitVec w => x.getLsbD (pos % w)) zero
    simp [small] at isSet
  unfold test blockIndex blockPos bit Bit.bit block
  rw [← BitVec.twoPow_eq, BitVec.and_twoPow]
  split
  · rename_i isSet
    rw [isSet]
    simpa using nonzero
  · rename_i notSet
    simpa using notSet

/-! ### Operations on bits -/

theorem bit_set (wf : span.WellFormed) (width : 0 < w) (inRange : pos < span.numBits) (p : Nat) :
    (span.set pos).bit p = if p = pos then true else span.bit p := by
  have inBlocks : pos < w * span.data.length := by
    rw [wf.length_eq, Nat.mul_comm]
    exact inRange.trans_le (le_numBlocks_mul width _)
  exact Bit.bit_assignBit inBlocks true p

theorem bit_reset (wf : span.WellFormed) (width : 0 < w) (inRange : pos < span.numBits) (p : Nat) :
    (span.reset pos).bit p = if p = pos then false else span.bit p := by
  have inBlocks : pos < w * span.data.length := by
    rw [wf.length_eq, Nat.mul_comm]
    exact inRange.trans_le (le_numBlocks_mul width _)
  exact Bit.bit_assignBit inBlocks false p

/-- An operator works on each bit if it does so on blocks. -/
theorem bit_zipBlocks {f : BitVec w → BitVec w → BitVec w} {g : Bool → Bool → Bool} (width : 0 < w)
    (bitwise : ∀ x y j, j < w → (f x y).getLsbD j = g (x.getLsbD j) (y.getLsbD j))
    (span other : BitsetSpan w) (p : Nat) : (zipBlocks f span other).bit p =
      if p < numBlocks w span.numBits * w then g (span.bit p) (other.bit p) else false := by
  obtain ⟨i, j, small, rfl⟩ : ∃ i j, j < w ∧ p = i * w + j :=
    ⟨p / w, p % w, Nat.mod_lt _ width, (Nat.div_add_mod' p w).symm⟩
  rw [bit_add _ i small, bit_add _ i small, bit_add _ i small]
  by_cases index : i < numBlocks w span.numBits
  · have ends := Nat.mul_le_mul_right w (Nat.succ_le_of_lt index)
    rw [Nat.succ_mul] at ends
    have stored : (zipBlocks f span other).block i = f (span.block i) (other.block i) := by
      simp [zipBlocks, block, Bit.block, index]
    rw [if_pos (by omega), stored, bitwise _ _ j small]
  · have ends := Nat.mul_le_mul_right w (Nat.le_of_not_lt index)
    have outside : (zipBlocks f span other).data.length ≤ i := by
      simpa [zipBlocks] using index
    rw [if_neg (by omega), block_of_le outside, BitVec.getLsbD_zero]

theorem wellFormed_zipBlocks {f : BitVec w → BitVec w → BitVec w} {g : Bool → Bool → Bool}
    (width : 0 < w)
    (bitwise : ∀ x y j, j < w → (f x y).getLsbD j = g (x.getLsbD j) (y.getLsbD j))
    (zero : g false false = false) (wf : span.WellFormed) (wf' : other.WellFormed)
    (sameBits : span.numBits = other.numBits) : (zipBlocks f span other).WellFormed := by
  apply wellFormed_of_bit width
  · simp [zipBlocks]
  · intro p isSet
    by_contra beyond
    have left := wf.bit_eq_false width (Nat.le_of_not_lt beyond)
    have right := wf'.bit_eq_false width (sameBits ▸ Nat.le_of_not_lt beyond)
    rw [bit_zipBlocks width bitwise, left, right, zero, ite_self] at isSet
    cases isSet

theorem wellFormed_set (wf : span.WellFormed) (width : 0 < w) (inRange : pos < span.numBits) :
    (span.set pos).WellFormed := by
  apply wellFormed_of_bit width
  · simpa [set] using wf.length_eq
  · intro p isSet
    rw [bit_set wf width inRange] at isSet
    split at isSet
    · rename_i same
      exact same ▸ inRange
    · exact wf.lt_of_bit width isSet

theorem wellFormed_reset (wf : span.WellFormed) (width : 0 < w) (inRange : pos < span.numBits) :
    (span.reset pos).WellFormed := by
  apply wellFormed_of_bit width
  · simpa [reset] using wf.length_eq
  · intro p isSet
    rw [bit_reset wf width inRange] at isSet
    split at isSet
    · cases isSet
    · exact wf.lt_of_bit width isSet

theorem bit_resetAll (span : BitsetSpan w) (p : Nat) : span.resetAll.bit p = false := by
  unfold bit Bit.bit Bit.block resetAll
  rw [List.getD_eq_getElem?_getD, List.getElem?_replicate]
  split <;> simp

theorem wellFormed_resetAll (width : 0 < w) (span : BitsetSpan w) : span.resetAll.WellFormed := by
  apply wellFormed_of_bit width
  · simp [resetAll]
  · intro p isSet
    rw [bit_resetAll] at isSet
    cases isSet

theorem length_setAll (span : BitsetSpan w) :
    span.setAll.data.length = numBlocks w span.numBits ∧ span.setAll.numBits = span.numBits := by
  unfold setAll clearTrailingBits
  dsimp only
  split <;> simp

theorem bit_setAll (width : 0 < w) (span : BitsetSpan w) (p : Nat) :
    span.setAll.bit p = decide (p < span.numBits) := by
  have blocks : ∀ i < numBlocks w span.numBits,
      span.setAll.block i = maskLast span.numBits (fun _ => fullMask) i := by
    intro i index
    have nonempty : numBlocks w span.numBits ≠ 0 := Nat.ne_zero_of_lt index
    have last : numBlocks w span.numBits - 1 < numBlocks w span.numBits := by omega
    unfold setAll clearTrailingBits maskLast block Bit.block
    dsimp only
    rw [if_neg nonempty, List.getD_eq_getElem?_getD, List.getElem?_set, List.getD_eq_getElem?_getD]
    by_cases same : i = numBlocks w span.numBits - 1
    · simp [same, last]
    · simp [same, Ne.symm same, index]
  by_cases inBlocks : p < numBlocks w span.numBits * w
  · have masked := wordBit_maskLast width (fun _ => fullMask) inBlocks
    have full : wordBit (fun _ => (fullMask : BitVec w)) p = true := by
      simp [wordBit, fullMask, Nat.mod_lt p width]
    rw [full, Bool.true_and] at masked
    rw [← masked]
    exact congrArg (fun x : BitVec w => x.getLsbD (p % w))
      (blocks _ (Nat.div_lt_of_lt_mul (by rwa [Nat.mul_comm])))
  · have outside : span.setAll.data.length ≤ p / w := by
      rw [(length_setAll span).1, Nat.le_div_iff_mul_le width]
      exact Nat.le_of_not_lt inBlocks
    have beyond := (le_numBlocks_mul width span.numBits).trans (Nat.le_of_not_lt inBlocks)
    have zero : span.setAll.block (p / w) = 0#w := block_of_le outside
    have unset : span.setAll.bit p = false :=
      (congrArg (fun x : BitVec w => x.getLsbD (p % w)) zero).trans BitVec.getLsbD_zero
    rw [unset, decide_eq_false (Nat.not_lt_of_le beyond)]

theorem wellFormed_setAll (width : 0 < w) (span : BitsetSpan w) : span.setAll.WellFormed := by
  apply wellFormed_of_bit width
  · rw [(length_setAll span).1, (length_setAll span).2]
  · intro p isSet
    rw [bit_setAll width, decide_eq_true_iff] at isSet
    rwa [(length_setAll span).2]

/-! ### Visits -/

/-- A scan of the words from a position on finds the first bit. -/
theorem scan_from (width : 0 < w) (pos numBits : Nat) {word : Nat → BitVec w} {P : Nat → Bool}
    (bits : ∀ p < numBlocks w numBits * w, blockIndex w pos * w ≤ p →
      (wordBit word p = true ↔ P p = true ∧ pos ≤ p ∧ p < numBits)) :
    scan numBits word (numBlocks w numBits - blockIndex w pos) (blockIndex w pos) =
      (List.range' pos (numBits - pos)).find? P := by
  have first := Nat.div_mul_le_self pos w
  have upper := le_numBlocks_mul width numBits
  by_cases reached : numBlocks w numBits ≤ blockIndex w pos
  · have beyond : numBits ≤ pos := by
      have ends := Nat.mul_le_mul_right w reached
      unfold blockIndex at ends
      omega
    rw [Nat.sub_eq_zero_of_le reached, Nat.sub_eq_zero_of_le beyond]
    rfl
  · have words : blockIndex w pos + (numBlocks w numBits - blockIndex w pos) = numBlocks w numBits := by
      omega
    have ends : blockIndex w pos * w + (numBlocks w numBits - blockIndex w pos) * w =
        numBlocks w numBits * w := by
      rw [← Nat.add_mul, words]
    rw [scan_eq]
    · apply find?_range'_congr
      intro p
      rw [List.mem_range'_1, List.mem_range'_1, ends]
      constructor
      · rintro ⟨⟨le, less⟩, isSet⟩
        obtain ⟨accepted, above, below⟩ := (bits p less le).mp isSet
        exact ⟨by omega, accepted⟩
      · rintro ⟨⟨above, below⟩, accepted⟩
        have le : blockIndex w pos * w ≤ p := first.trans above
        exact ⟨⟨le, by omega⟩, (bits p (by omega) le).mpr ⟨accepted, above, by omega⟩⟩
    · intro p le less isSet
      rw [words] at less
      exact ((bits p less le).mp isSet).2.2

theorem findFirst_eq (wf : span.WellFormed) (width : 0 < w) :
    span.findFirst = (List.range' 0 span.numBits).find? span.bit := by
  have start : blockIndex w 0 = 0 := Nat.zero_div w
  have bits : ∀ p < numBlocks w span.numBits * w, blockIndex w 0 * w ≤ p →
      (wordBit span.block p = true ↔ span.bit p = true ∧ 0 ≤ p ∧ p < span.numBits) :=
    fun p _ _ => ⟨fun isSet => ⟨isSet, Nat.zero_le p, wf.lt_of_bit width isSet⟩, And.left⟩
  have scanned := scan_from width 0 span.numBits bits
  rwa [start] at scanned

theorem findNext_eq (wf : span.WellFormed) (width : 0 < w) (pos : Nat) :
    span.findNext pos = (List.range' (pos + 1) (span.numBits - (pos + 1))).find? span.bit := by
  unfold findNext
  dsimp only
  split
  · rename_i beyond
    rw [Nat.sub_eq_zero_of_le beyond]
    rfl
  · apply scan_from width
    intro p _ reached
    rw [wordBit_maskFirst width _ reached, Bool.and_eq_true, decide_eq_true_iff]
    exact ⟨fun both => ⟨both.1, both.2, wf.lt_of_bit width both.1⟩, fun all => ⟨all.1, all.2.1⟩⟩

/-- A bit of the complements of the blocks. -/
theorem wordBit_not (width : 0 < w) (span : BitsetSpan w) (p : Nat) :
    wordBit (fun i => ~~~span.block i) p = !span.bit p := by
  unfold wordBit bit Bit.bit
  rw [BitVec.getLsbD_not, decide_eq_true (Nat.mod_lt p width), Bool.true_and]
  rfl

theorem findFirstZero_eq (width : 0 < w) (span : BitsetSpan w) :
    span.findFirstZero = (List.range' 0 span.numBits).find? fun p => !span.bit p := by
  have start : blockIndex w 0 = 0 := Nat.zero_div w
  have bits : ∀ p < numBlocks w span.numBits * w, blockIndex w 0 * w ≤ p →
      (wordBit (maskLast span.numBits fun i => ~~~span.block i) p = true ↔
        (!span.bit p) = true ∧ 0 ≤ p ∧ p < span.numBits) := by
    intro p inBlocks _
    rw [wordBit_maskLast width _ inBlocks, wordBit_not width, Bool.and_eq_true, decide_eq_true_iff]
    exact ⟨fun both => ⟨both.1, Nat.zero_le p, both.2⟩, fun all => ⟨all.1, all.2.2⟩⟩
  have scanned := scan_from width 0 span.numBits bits
  rwa [start] at scanned

theorem findNextZero_eq (width : 0 < w) (span : BitsetSpan w) (pos : Nat) :
    span.findNextZero pos =
      (List.range' (pos + 1) (span.numBits - (pos + 1))).find? fun p => !span.bit p := by
  unfold findNextZero
  dsimp only
  split
  · rename_i beyond
    rw [Nat.sub_eq_zero_of_le beyond]
    rfl
  · apply scan_from width
    intro p inBlocks reached
    rw [wordBit_maskLast width _ inBlocks, wordBit_maskFirst width _ reached, wordBit_not width,
      Bool.and_eq_true, Bool.and_eq_true, decide_eq_true_iff, decide_eq_true_iff, and_assoc]

/-- Finding one bit after another visits the bits that are set, in ascending order. -/
theorem iterate_findNext (wf : span.WellFormed) (width : 0 < w) {fuel : Nat}
    (enough : span.numBits ≤ fuel) :
    iterate span.findNext fuel span.findFirst = (List.range span.numBits).filter span.bit := by
  rw [findFirst_eq wf width, List.range_eq_range']
  apply iterate_find? _ enough
  intro p _ _
  rw [findNext_eq wf width, Nat.zero_add]

theorem iterate_findNextZero (width : 0 < w) (span : BitsetSpan w) {fuel : Nat}
    (enough : span.numBits ≤ fuel) :
    iterate span.findNextZero fuel span.findFirstZero =
      (List.range span.numBits).filter fun p => !span.bit p := by
  rw [findFirstZero_eq width, List.range_eq_range']
  apply iterate_find? _ enough
  intro p _ _
  rw [findNextZero_eq width, Nat.zero_add]

/-- The bits of the words below the length. -/
theorem flatMap_ones (width : 0 < w) {numBits : Nat} {word : Nat → BitVec w} {P : Nat → Bool}
    (bits : ∀ p < numBlocks w numBits * w, wordBit word p = (P p && decide (p < numBits))) :
    ((List.range (numBlocks w numBits)).flatMap fun i => (ones (word i)).map (i * w + ·)) =
      (List.range numBits).filter P := by
  obtain ⟨rest, total⟩ := Nat.exists_eq_add_of_le (le_numBlocks_mul width numBits)
  have accepted : (List.range (numBlocks w numBits * w)).filter (wordBit word) =
      (List.range (numBlocks w numBits * w)).filter fun p => P p && decide (p < numBits) :=
    List.filter_congr fun p mem => bits p (List.mem_range.mp mem)
  have below : (List.range numBits).filter (fun p => P p && decide (p < numBits)) =
      (List.range numBits).filter P := by
    apply List.filter_congr
    intro p mem
    rw [decide_eq_true (List.mem_range.mp mem), Bool.and_true]
  have above : ((List.range rest).map (numBits + ·)).filter
      (fun p => P p && decide (p < numBits)) = [] := by
    rw [List.filter_eq_nil_iff]
    intro p mem
    obtain ⟨k, _, rfl⟩ := List.mem_map.mp mem
    simp
  rw [← filter_wordBit, accepted, total, List.range_add, List.filter_append, below, above,
    List.append_nil]

theorem count_eq (wf : span.WellFormed) (width : 0 < w) :
    span.count = ((List.range span.numBits).filter span.bit).length := by
  have sum : ∀ (blocks : List Nat) (cnt : Nat),
      blocks.foldl (fun cnt i => cnt + popcount (span.block i)) cnt =
        cnt + (blocks.flatMap fun i => (ones (span.block i)).map (i * w + ·)).length := by
    intro blocks
    induction blocks with
    | nil => simp
    | cons i rest ih =>
        intro cnt
        rw [List.foldl_cons, ih, List.flatMap_cons, List.length_append, List.length_map, popcount,
          Nat.add_assoc]
  rw [count, sum, Nat.zero_add, flatMap_ones width]
  intro p _
  by_cases inRange : p < span.numBits
  · simp [inRange]
    rfl
  · have unset : wordBit span.block p = false := wf.bit_eq_false width (Nat.le_of_not_lt inRange)
    simp [inRange, unset]

/-- The combiner works on each bit. -/
def Bitwise (combiner : List (BitVec w) → BitVec w) (f : List Bool → Bool) : Prop :=
  ∀ blocks j, j < w → (combiner blocks).getLsbD j = f (blocks.map fun x => x.getLsbD j)

theorem forEachBit_eq (width : 0 < w) {combiner : List (BitVec w) → BitVec w}
    {f : List Bool → Bool} (bitwise : Bitwise combiner f) (first : BitsetSpan w)
    (rest : List (BitsetSpan w)) :
    forEachBit combiner first rest =
      (List.range first.numBits).filter fun p => f ((first :: rest).map fun span => span.bit p) := by
  unfold forEachBit
  simp only [drain_eq]
  apply flatMap_ones width
  intro p inBlocks
  rw [wordBit_maskLast width _ inBlocks, wordBit, bitwise _ _ (Nat.mod_lt p width), List.map_map]
  rfl

/-! ### Finite sets -/

/-- The numbers that a span represents. -/
def members (span : BitsetSpan w) : Finset Nat :=
  (Finset.range span.numBits).filter fun p => span.test p = true

theorem WellFormed.mem_members (wf : span.WellFormed) (width : 0 < w) :
    p ∈ span.members ↔ span.bit p = true := by
  rw [members, Finset.mem_filter, Finset.mem_range, test_eq width]
  exact and_iff_right_of_imp (wf.lt_of_bit width)

theorem WellFormed.decide_mem_members (wf : span.WellFormed) (width : 0 < w) (p : Nat) :
    decide (p ∈ span.members) = span.bit p := by
  rw [Bool.eq_iff_iff, decide_eq_true_iff, wf.mem_members width]

/-- An operation on one span. -/
inductive Modifier where
  | set (pos : Nat)
  | setAll
  | reset (pos : Nat)
  | resetAll

/-- None if the assertion fails. -/
def Modifier.apply (span : BitsetSpan w) : Modifier → Option (BitsetSpan w)
  | .set pos => if pos < span.numBits then some (span.set pos) else none
  | .setAll => some span.setAll
  | .reset pos => if pos < span.numBits then some (span.reset pos) else none
  | .resetAll => some span.resetAll

def Modifier.onSet (numBits : Nat) (numbers : Finset Nat) : Modifier → Option (Finset Nat)
  | .set pos => if pos < numBits then some (insert pos numbers) else none
  | .setAll => some (Finset.range numBits)
  | .reset pos => if pos < numBits then some (numbers.erase pos) else none
  | .resetAll => some ∅

/-- An operation that reads another span. -/
inductive Operator where
  | copyFrom
  | diffFrom
  | andAssign
  | orAssign
  | subAssign

def Operator.apply (span other : BitsetSpan w) : Operator → BitsetSpan w
  | .copyFrom => span.copyFrom other
  | .diffFrom => span.diffFrom other
  | .andAssign => span.andAssign other
  | .orAssign => span.orAssign other
  | .subAssign => span.subAssign other

def Operator.onSet (numbers others : Finset Nat) : Operator → Finset Nat
  | .copyFrom => others
  | .diffFrom => others \ numbers
  | .andAssign => numbers ∩ others
  | .orAssign => numbers ∪ others
  | .subAssign => numbers \ others

theorem Modifier.apply_rel (wf : span.WellFormed) (width : 0 < w) (modifier : Modifier) :
    Option.Rel (fun next numbers => next.WellFormed ∧ next.numBits = span.numBits ∧
      next.members = numbers) (modifier.apply span) (modifier.onSet span.numBits span.members) := by
  cases modifier with
  | set pos =>
      rw [Modifier.apply, Modifier.onSet]
      split
      · rename_i inRange
        have wfNext := wellFormed_set wf width inRange
        refine .some ⟨wfNext, rfl, Finset.ext fun p => ?_⟩
        rw [wfNext.mem_members width, bit_set wf width inRange, Finset.mem_insert,
          wf.mem_members width]
        by_cases same : p = pos <;> simp [same]
      · exact .none
  | setAll =>
      have wfNext := wellFormed_setAll width span
      refine .some ⟨wfNext, (length_setAll span).2, Finset.ext fun p => ?_⟩
      rw [wfNext.mem_members width, bit_setAll width, Finset.mem_range, decide_eq_true_iff]
  | reset pos =>
      rw [Modifier.apply, Modifier.onSet]
      split
      · rename_i inRange
        have wfNext := wellFormed_reset wf width inRange
        refine .some ⟨wfNext, rfl, Finset.ext fun p => ?_⟩
        rw [wfNext.mem_members width, bit_reset wf width inRange, Finset.mem_erase,
          wf.mem_members width]
        by_cases same : p = pos <;> simp [same]
      · exact .none
  | resetAll =>
      have wfNext := wellFormed_resetAll width span
      refine .some ⟨wfNext, rfl, Finset.ext fun p => ?_⟩
      simp [wfNext.mem_members width, bit_resetAll]

/-- An operator that works on each bit works on the sets. -/
theorem members_zipBlocks {f : BitVec w → BitVec w → BitVec w} {g : Bool → Bool → Bool}
    (width : 0 < w)
    (bitwise : ∀ x y j, j < w → (f x y).getLsbD j = g (x.getLsbD j) (y.getLsbD j))
    (zero : g false false = false) (wf : span.WellFormed) (wf' : other.WellFormed)
    (sameBits : span.numBits = other.numBits) {numbers : Finset Nat}
    (onSet : ∀ p, p ∈ numbers ↔ g (decide (p ∈ span.members)) (decide (p ∈ other.members)) = true) :
    (zipBlocks f span other).WellFormed ∧ (zipBlocks f span other).numBits = span.numBits ∧
      (zipBlocks f span other).members = numbers := by
  have wfNext := wellFormed_zipBlocks width bitwise zero wf wf' sameBits
  refine ⟨wfNext, rfl, Finset.ext fun p => ?_⟩
  rw [wfNext.mem_members width, onSet, wf.decide_mem_members width, wf'.decide_mem_members width,
    bit_zipBlocks width bitwise]
  by_cases inBlocks : p < numBlocks w span.numBits * w
  · rw [if_pos inBlocks]
  · have beyond := (le_numBlocks_mul width span.numBits).trans (Nat.le_of_not_lt inBlocks)
    rw [if_neg inBlocks, wf.bit_eq_false width beyond, wf'.bit_eq_false width (sameBits ▸ beyond), zero]

theorem Operator.apply_members (wf : span.WellFormed) (wf' : other.WellFormed) (width : 0 < w)
    (sameBits : span.numBits = other.numBits) (operator : Operator) :
    (operator.apply span other).WellFormed ∧
      (operator.apply span other).numBits = span.numBits ∧
      (operator.apply span other).members = operator.onSet span.members other.members := by
  cases operator with
  | copyFrom =>
      refine members_zipBlocks (f := fun _ y => y) (g := fun _ y => y) width ?_ rfl wf wf'
        sameBits ?_
      · simp
      · simp [onSet]
  | diffFrom =>
      refine members_zipBlocks (f := fun x y => y &&& ~~~x) (g := fun x y => y && !x) width ?_ rfl wf wf'
        sameBits ?_
      · intro x y j small
        simp [small]
      · simp [onSet, and_comm]
  | andAssign =>
      refine members_zipBlocks (f := fun x y => x &&& y) (g := fun x y => x && y) width ?_ rfl wf wf'
        sameBits ?_
      · simp
      · simp [onSet]
  | orAssign =>
      refine members_zipBlocks (f := fun x y => x ||| y) (g := fun x y => x || y) width ?_ rfl wf wf'
        sameBits ?_
      · simp
      · simp [onSet]
  | subAssign =>
      refine members_zipBlocks (f := fun x y => x &&& ~~~y) (g := fun x y => x && !y) width ?_ rfl wf wf'
        sameBits ?_
      · intro x y j small
        simp [small]
      · simp [onSet]

/-! ### Runs -/

/-- An operation on the spans of a family, which may read the span it changes. -/
inductive Op where
  | modify (k : Nat) (modifier : Modifier)
  | assign (k l : Nat) (operator : Operator)

def step (spans : List (BitsetSpan w)) : Op → Option (List (BitsetSpan w))
  | .modify k modifier =>
      spans[k]?.bind fun span => (modifier.apply span).map fun next => spans.set k next
  | .assign k l operator =>
      spans[k]?.bind fun span => spans[l]?.map fun other => spans.set k (operator.apply span other)

/-- The operation on finite sets. -/
def setStep (numBits : Nat) (sets : List (Finset Nat)) : Op → Option (List (Finset Nat))
  | .modify k modifier =>
      sets[k]?.bind fun numbers => (modifier.onSet numBits numbers).map fun next => sets.set k next
  | .assign k l operator =>
      sets[k]?.bind fun numbers => sets[l]?.map fun others => sets.set k (operator.onSet numbers others)

/-- Spans of one length, and the sets they represent. -/
structure Represents (numBits : Nat) (spans : List (BitsetSpan w)) (sets : List (Finset Nat)) :
    Prop where
  wf : ∀ span ∈ spans, span.WellFormed
  numBits_eq : ∀ span ∈ spans, span.numBits = numBits
  sets_eq : spans.map members = sets

theorem Represents.set {numBits k : Nat} {spans : List (BitsetSpan w)} {sets : List (Finset Nat)}
    {next : BitsetSpan w} (represents : Represents numBits spans sets) (wf : next.WellFormed)
    (numBits_eq : next.numBits = numBits) :
    Represents numBits (spans.set k next) (sets.set k next.members) := by
  refine ⟨fun span mem => ?_, fun span mem => ?_, ?_⟩
  · rcases List.mem_or_eq_of_mem_set mem with old | rfl
    · exact represents.wf span old
    · exact wf
  · rcases List.mem_or_eq_of_mem_set mem with old | rfl
    · exact represents.numBits_eq span old
    · exact numBits_eq
  · rw [List.map_set, represents.sets_eq]

theorem Represents.step {numBits : Nat} {spans : List (BitsetSpan w)} {sets : List (Finset Nat)}
    (represents : Represents numBits spans sets) (width : 0 < w) (op : Op) :
    Option.Rel (Represents numBits) (BitsetSpan.step spans op) (setStep numBits sets op) := by
  obtain rfl := represents.sets_eq
  cases op with
  | modify k modifier =>
      rw [BitsetSpan.step, setStep, List.getElem?_map]
      cases found : spans[k]? with
      | none => exact .none
      | some span =>
          have mem := List.mem_of_getElem? found
          have related := modifier.apply_rel (represents.wf span mem) width
          rw [represents.numBits_eq span mem] at related
          simp only [Option.bind_some, Option.map_some]
          generalize modifier.apply span = next at related ⊢
          generalize modifier.onSet numBits span.members = numbers at related ⊢
          cases related with
          | none => exact .none
          | some facts =>
              obtain ⟨wf, numBits_eq, rfl⟩ := facts
              exact .some (represents.set wf numBits_eq)
  | assign k l operator =>
      rw [BitsetSpan.step, setStep, List.getElem?_map, List.getElem?_map]
      cases found : spans[k]? with
      | none => exact .none
      | some span =>
          cases found' : spans[l]? with
          | none => exact .none
          | some other =>
              have mem := List.mem_of_getElem? found
              have mem' := List.mem_of_getElem? found'
              have sameBits := (represents.numBits_eq span mem).trans
                (represents.numBits_eq other mem').symm
              obtain ⟨wf, numBits_eq, members_eq⟩ := operator.apply_members
                (represents.wf span mem) (represents.wf other mem') width sameBits
              simp only [Option.bind_some, Option.map_some]
              rw [← members_eq]
              exact .some (represents.set wf (numBits_eq.trans (represents.numBits_eq span mem)))

theorem Represents.run {numBits : Nat} {spans : List (BitsetSpan w)} {sets : List (Finset Nat)}
    (represents : Represents numBits spans sets) (width : 0 < w) (ops : List Op) :
    Option.Rel (Represents numBits) (ops.foldlM BitsetSpan.step spans)
      (ops.foldlM (setStep numBits) sets) :=
  foldlM_rel (fun _ _ represents op => represents.step width op) ops represents

theorem WellFormed.card_members (wf : span.WellFormed) (width : 0 < w) :
    span.members.card = ((List.range span.numBits).filter span.bit).length := by
  have asList : span.members = ((List.range span.numBits).filter span.bit).toFinset := by
    ext p
    rw [wf.mem_members width, List.mem_toFinset, List.mem_filter, List.mem_range]
    exact (and_iff_right_of_imp (wf.lt_of_bit width)).symm
  rw [asList, List.toFinset_card_of_nodup (List.nodup_range.filter _)]

/-- In every run the spans represent the sets of the run on finite sets. No bit beyond the
length is set, and the loops visit the members, the others and the members of a combined
set, each once and in ascending order. -/
theorem refines_finset (width : 0 < w) {numBits : Nat} {spans : List (BitsetSpan w)}
    {sets : List (Finset Nat)} (represents : Represents numBits spans sets) (ops : List Op) :
    Option.Rel (fun spans sets => spans.map members = sets)
      (ops.foldlM step spans) (ops.foldlM (setStep numBits) sets) ∧
    ∀ reached, ops.foldlM step spans = some reached → ∀ span ∈ reached,
      span.numBits = numBits ∧ span.trailingBitsZero = true ∧
      (∀ p, numBits ≤ p → span.bit p = false) ∧
      (∀ fuel, numBits ≤ fuel → iterate span.findNext fuel span.findFirst =
        (List.range numBits).filter fun p => decide (p ∈ span.members)) ∧
      (∀ fuel, numBits ≤ fuel → iterate span.findNextZero fuel span.findFirstZero =
        (List.range numBits).filter fun p => decide (p ∉ span.members)) ∧
      (∀ combiner f rest, Bitwise combiner f → (∀ other ∈ rest, other ∈ reached) →
        forEachBit combiner span rest = (List.range numBits).filter fun p =>
          f ((span :: rest).map fun other => decide (p ∈ other.members))) ∧
      span.count = span.members.card := by
  have related := represents.run width ops
  generalize ops.foldlM (setStep numBits) sets = numbers at related ⊢
  constructor
  · generalize ops.foldlM step spans = reached at related ⊢
    cases related with
    | none => exact .none
    | some represented => exact .some represented.sets_eq
  · intro reached ran span mem
    rw [ran] at related
    cases related with
    | some represented =>
      have wf := represented.wf span mem
      have sameBits := represented.numBits_eq span mem
      refine ⟨sameBits, wf.trailing, fun p beyond => wf.bit_eq_false width (sameBits ▸ beyond),
        fun fuel enough => ?_, fun fuel enough => ?_, ?_, ?_⟩
      · rw [iterate_findNext wf width (sameBits ▸ enough), sameBits]
        exact List.filter_congr fun p _ => (wf.decide_mem_members width p).symm
      · rw [iterate_findNextZero width span (sameBits ▸ enough), sameBits]
        apply List.filter_congr
        intro p _
        rw [decide_not, wf.decide_mem_members width]
      · intro combiner f rest bitwise inFamily
        rw [forEachBit_eq width bitwise, sameBits]
        apply List.filter_congr
        intro p _
        congr 1
        apply List.map_congr_left
        intro other otherMem
        have wfOther : other.WellFormed := by
          rcases List.mem_cons.mp otherMem with rfl | inRest
          · exact wf
          · exact represented.wf other (inFamily other inRest)
        exact (wfOther.decide_mem_members width p).symm
      · rw [count_eq wf width, wf.card_members width]

theorem represents_zeros : Represents 11 [⟨[0#8, 0#8], 11⟩, ⟨[0#8, 0#8], 11⟩] [∅, ∅] := by
  have wf : (⟨[0#8, 0#8], 11⟩ : BitsetSpan 8).WellFormed := ⟨by decide, by decide⟩
  have empty : (⟨[0#8, 0#8], 11⟩ : BitsetSpan 8).members = ∅ := by
    decide
  refine ⟨?_, ?_, ?_⟩
  · simpa using wf
  · simp
  · simp [empty]

/-- All numbers below 11 but 10. -/
theorem refines_zeros :
    Option.Rel (fun spans sets => spans.map members = sets)
      ([Op.modify 0 (.set 10), .modify 1 .setAll, .assign 1 0 .subAssign].foldlM step
        [(⟨[0#8, 0#8], 11⟩ : BitsetSpan 8), ⟨[0#8, 0#8], 11⟩])
      ([Op.modify 0 (.set 10), .modify 1 .setAll, .assign 1 0 .subAssign].foldlM (setStep 11) [∅, ∅]) :=
  (refines_finset (by decide) represents_zeros _).1

end BitsetSpan

end Tyr
