import Mathlib.Data.List.Basic
import Mathlib.Data.Nat.Bitwise

/-!
Scanning words for bits.

Words of `w` bits are one long sequence of bits (`wordBit`). A scan looks for the
first word that is not zero and counts the zeros below its lowest bit.

* `scan_eq` — the scan finds the first bit.
* `iterate_find?` — finding one bit after another lists the bits in ascending order.
* `drain_eq` — so does taking the lowest bit off a word again and again.
* `filter_range_mul` — a long sequence is read word by word.
-/

namespace Tyr.Lib.BitScan

variable {w : Nat}

/-- A bit of a sequence of words. -/
def wordBit (word : Nat → BitVec w) (p : Nat) : Bool := (word (p / w)).getLsbD (p % w)

/-- The bits of a word. -/
def ones (x : BitVec w) : List Nat := (List.range w).filter fun j => x.getLsbD j

/-- The number of bits of a word. -/
def popcount (x : BitVec w) : Nat := (ones x).length

/-- The number of zeros below the lowest bit. -/
def countrZero (x : BitVec w) : Nat := (List.range w).findIdx fun j => x.getLsbD j

/-! ### Words -/

theorem wordBit_add (word : Nat → BitVec w) (i : Nat) {j : Nat} (small : j < w) :
    wordBit word (i * w + j) = (word i).getLsbD j := by
  rw [wordBit, Nat.add_comm, Nat.add_mul_div_right _ _ (Nat.zero_lt_of_lt small),
    Nat.div_eq_of_lt small, Nat.zero_add, Nat.add_mul_mod_self_right, Nat.mod_eq_of_lt small]

/-- A long sequence is read word by word. -/
theorem filter_range_mul (n : Nat) (P : Nat → Bool) :
    (List.range (n * w)).filter P =
      (List.range n).flatMap fun i => ((List.range w).filter fun j => P (i * w + j)).map (i * w + ·) := by
  induction n with
  | zero => simp
  | succ n ih =>
      rw [Nat.succ_mul, List.range_add, List.filter_append, ih, List.range_succ, List.flatMap_append,
        List.flatMap_singleton, List.filter_map]
      rfl

theorem filter_wordBit (n : Nat) (word : Nat → BitVec w) :
    (List.range (n * w)).filter (wordBit word) =
      (List.range n).flatMap fun i => (ones (word i)).map (i * w + ·) := by
  rw [filter_range_mul]
  congr 1
  funext i
  congr 1
  apply List.filter_congr
  intro j mem
  exact wordBit_add word i (List.mem_range.mp mem)

/-! ### The lowest bit -/

theorem exists_getLsbD {x : BitVec w} (nonzero : x ≠ 0#w) : ∃ j < w, x.getLsbD j = true := by
  by_contra none
  apply nonzero
  apply BitVec.eq_of_getLsbD_eq
  intro j small
  rw [BitVec.getLsbD_zero, ← Bool.not_eq_true]
  intro isSet
  exact none ⟨j, small, isSet⟩

theorem countrZero_spec {x : BitVec w} (nonzero : x ≠ 0#w) :
    countrZero x < w ∧ x.getLsbD (countrZero x) = true ∧
      ∀ j < countrZero x, x.getLsbD j = false := by
  obtain ⟨j, small, isSet⟩ := exists_getLsbD nonzero
  have found : (List.range w).findIdx (fun j => x.getLsbD j) < (List.range w).length :=
    List.findIdx_lt_length_of_exists ⟨j, List.mem_range.mpr small, isSet⟩
  refine ⟨by simpa [countrZero] using found, ?_, ?_⟩
  · have isSet := @List.findIdx_getElem _ (fun j => x.getLsbD j) (List.range w) found
    simp only [List.getElem_range] at isSet
    exact isSet
  · intro k before
    simpa using List.not_of_lt_findIdx before

/-- Taking off the lowest bit. -/
theorem getLsbD_and_sub_one {x : BitVec w} (nonzero : x ≠ 0#w) (j : Nat) :
    (x &&& (x - 1#w)).getLsbD j = (x.getLsbD j && decide (j ≠ countrZero x)) := by
  obtain ⟨small, isSet, below⟩ := countrZero_spec nonzero
  generalize countrZero x = t at small isSet below
  -- The bits above the lowest one stay, and those below it are zero in the word.
  have low : x.toNat % 2 ^ (t + 1) = 2 ^ t := by
    apply Nat.eq_of_testBit_eq
    intro k
    rw [Nat.testBit_mod_two_pow, Nat.testBit_two_pow, BitVec.testBit_toNat]
    rcases Nat.lt_trichotomy k t with before | rfl | after
    · simp [below k before, before.ne']
    · simp [isSet]
    · simp [after.ne, Nat.not_lt_of_le (Nat.succ_le_of_lt after)]
  have split := Nat.div_add_mod x.toNat (2 ^ (t + 1))
  rw [low] at split
  have positive := Nat.two_pow_pos t
  have pred : (x - 1#w).toNat = 2 ^ (t + 1) * (x.toNat / 2 ^ (t + 1)) + (2 ^ t - 1) := by
    have one : (1#w).toNat = 1 := by
      rw [BitVec.toNat_ofNat, Nat.mod_eq_of_lt (Nat.one_lt_two_pow (Nat.ne_zero_of_lt small))]
    rw [BitVec.toNat_sub_of_le (by rw [BitVec.le_def, one]; omega), one]
    omega
  have predLt : 2 ^ t - 1 < 2 ^ (t + 1) := by
    rw [Nat.pow_succ]
    omega
  rw [BitVec.getLsbD_and, BitVec.getLsbD, BitVec.getLsbD, pred, Nat.testBit_two_pow_mul_add _ predLt]
  rcases Nat.lt_trichotomy j t with before | rfl | after
  · have zero : x.toNat.testBit j = false := below j before
    rw [zero, Bool.false_and, Bool.false_and]
  · simp
  · have beyond : ¬ j < t + 1 := by omega
    have high : (x.toNat / 2 ^ (t + 1)).testBit (j - (t + 1)) = x.toNat.testBit j := by
      rw [Nat.testBit_div_two_pow, Nat.sub_add_cancel (by omega)]
    simp [beyond, high, after.ne']

/-- The first number of a range that a test accepts, and the others. -/
theorem filter_range_eq_cons {P : Nat → Bool} {n first : Nat} (small : first < n)
    (accepted : P first = true) (below : ∀ j < first, P j = false) :
    (List.range n).filter P = first :: (List.range n).filter fun j => P j && decide (j ≠ first) := by
  obtain ⟨rest, rfl⟩ := Nat.exists_eq_add_of_le (Nat.succ_le_of_lt small)
  have before : ∀ Q : Nat → Bool, (∀ j < first, Q j = false) → (List.range first).filter Q = [] := by
    intro Q rejects
    rw [List.filter_eq_nil_iff]
    intro j mem
    rw [rejects j (List.mem_range.mp mem)]
    exact Bool.false_ne_true
  have after : ((List.range rest).map (first + 1 + ·)).filter (fun j => P j && decide (j ≠ first)) =
      ((List.range rest).map (first + 1 + ·)).filter P := by
    apply List.filter_congr
    intro j mem
    obtain ⟨k, _, rfl⟩ := List.mem_map.mp mem
    have other : first + 1 + k ≠ first := by omega
    simp [other]
  rw [List.range_add, List.range_succ, List.filter_append, List.filter_append, List.filter_append,
    List.filter_append, before P below, after,
    before _ fun j less => by rw [below j less, Bool.false_and]]
  simp [accepted]

/-- The bits of a word: its lowest one, and those that stay when it is taken off. -/
theorem ones_eq_cons {x : BitVec w} (nonzero : x ≠ 0#w) :
    ones x = countrZero x :: ones (x &&& (x - 1#w)) := by
  obtain ⟨small, isSet, below⟩ := countrZero_spec nonzero
  rw [ones, filter_range_eq_cons small isSet below, ones]
  congr 1
  exact List.filter_congr fun j _ => (getLsbD_and_sub_one nonzero j).symm

@[simp] theorem ones_zero : ones (0#w) = [] := by
  simp [ones]

/-- Take the lowest bit off, while there is one. -/
def drain (offset : Nat) (x : BitVec w) : List Nat :=
  if x = 0#w then [] else (offset + countrZero x) :: drain offset (x &&& (x - 1#w))
termination_by (ones x).length
decreasing_by
  rename_i nonzero
  rw [ones_eq_cons nonzero, List.length_cons]
  exact Nat.lt_succ_self _

theorem drain_eq (offset : Nat) (x : BitVec w) : drain offset x = (ones x).map (offset + ·) := by
  fun_induction drain offset x with
  | case1 => simp
  | case2 x nonzero ih => rw [ones_eq_cons nonzero, List.map_cons, ih]

/-! ### Scans -/

/-- Look for the first bit, from the word `i` on; a bit at the bound is none. -/
def scan (bound : Nat) (word : Nat → BitVec w) : Nat → Nat → Option Nat
  | 0, _ => none
  | fuel + 1, i =>
      if word i = 0#w then scan bound word fuel (i + 1)
      else
        let bit := i * w + countrZero (word i)
        if bit < bound then some bit else none

theorem scan_eq {bound : Nat} {word : Nat → BitVec w} {fuel i : Nat}
    (inBound : ∀ p, i * w ≤ p → p < (i + fuel) * w → wordBit word p = true → p < bound) :
    scan bound word fuel i = (List.range' (i * w) (fuel * w)).find? (wordBit word) := by
  induction fuel generalizing i with
  | zero => simp [scan]
  | succ fuel ih =>
      have split : List.range' (i * w) ((fuel + 1) * w) =
          (List.range w).map (i * w + ·) ++ List.range' ((i + 1) * w) (fuel * w) := by
        rw [List.range_eq_range', List.map_add_range', Nat.succ_mul, Nat.succ_mul,
          Nat.add_comm (fuel * w), ← List.range'_append_1, Nat.add_zero]
      have bits : ∀ j < w, wordBit word (i * w + j) = (word i).getLsbD j :=
        fun j small => wordBit_add word i small
      rw [scan, split, List.find?_append, List.find?_map]
      split
      · rename_i zero
        have none : (List.range w).find? (wordBit word ∘ (i * w + ·)) = none := by
          rw [List.find?_range_eq_none]
          intro j small
          simp [bits j small, zero]
        have inRest : ∀ p, (i + 1) * w ≤ p → p < (i + 1 + fuel) * w → wordBit word p = true →
            p < bound := by
          intro p le less
          rw [Nat.succ_mul] at le
          rw [Nat.add_right_comm] at less
          exact inBound p (by omega) less
        rw [none, ih inRest]
        rfl
      · rename_i nonzero
        obtain ⟨small, isSet, below⟩ := countrZero_spec nonzero
        have found : (List.range w).find? (wordBit word ∘ (i * w + ·)) =
            some (countrZero (word i)) := by
          rw [List.find?_range_eq_some]
          refine ⟨(bits _ small).trans isSet, List.mem_range.mpr small, ?_⟩
          intro j before
          simp [bits j (before.trans small), below j before]
        have inScan : i * w + countrZero (word i) < (i + (fuel + 1)) * w := by
          have ends := Nat.mul_le_mul_right w (Nat.le_add_right (i + 1) fuel)
          rw [Nat.succ_mul] at ends
          rw [Nat.add_comm fuel, ← Nat.add_assoc]
          omega
        dsimp only
        rw [found, if_pos (inBound _ (Nat.le_add_right _ _) inScan ((bits _ small).trans isSet))]
        rfl

/-- The first number is the same if the accepted numbers are. -/
theorem find?_range'_congr {P Q : Nat → Bool} {start count start' count' : Nat}
    (same : ∀ p, (p ∈ List.range' start count ∧ P p = true) ↔
      (p ∈ List.range' start' count' ∧ Q p = true)) :
    (List.range' start count).find? P = (List.range' start' count').find? Q := by
  have first : ∀ {P Q : Nat → Bool} {start count start' count' p : Nat},
      (∀ p, (p ∈ List.range' start count ∧ P p = true) ↔
        (p ∈ List.range' start' count' ∧ Q p = true)) →
      (List.range' start count).find? P = some p → (List.range' start' count').find? Q = some p := by
    intro P Q start count start' count' p same found
    obtain ⟨accepted, inRange, below⟩ := List.find?_range'_eq_some.mp found
    obtain ⟨inRange', accepted'⟩ := (same p).mp ⟨inRange, accepted⟩
    rw [List.find?_range'_eq_some]
    refine ⟨accepted', inRange', ?_⟩
    intro q le less
    by_contra notRejected
    have acceptedQ : Q q = true := by simpa using notRejected
    have inRangeQ : q ∈ List.range' start' count' := by
      rw [List.mem_range'_1] at inRange' ⊢
      omega
    obtain ⟨inRangeP, acceptedP⟩ := (same q).mpr ⟨inRangeQ, acceptedQ⟩
    have rejectedP := below q (List.mem_range'_1.mp inRangeP).1 less
    rw [acceptedP] at rejectedP
    cases rejectedP
  apply Option.ext
  intro p
  exact ⟨first same, first fun p => (same p).symm⟩

/-- Find one number after another. -/
def iterate (next : Nat → Option Nat) : Nat → Option Nat → List Nat
  | 0, _ => []
  | _ + 1, none => []
  | fuel + 1, some p => p :: iterate next fuel (next p)

/-- Finding the first number of a range that a test accepts, and then always the next one,
lists the accepted numbers in ascending order. -/
theorem iterate_find? {P : Nat → Bool} {next : Nat → Option Nat} {start count : Nat}
    (finds : ∀ p, start ≤ p → p < start + count →
      next p = (List.range' (p + 1) (start + count - (p + 1))).find? P)
    {fuel : Nat} (enough : count ≤ fuel) :
    iterate next fuel ((List.range' start count).find? P) = (List.range' start count).filter P := by
  induction count generalizing start fuel with
  | zero => cases fuel <;> rfl
  | succ count ih =>
      have findsRest : ∀ p, start + 1 ≤ p → p < start + 1 + count →
          next p = (List.range' (p + 1) (start + 1 + count - (p + 1))).find? P := by
        intro p le less
        rw [finds p (by omega) (by omega), Nat.add_right_comm, Nat.add_assoc start]
      rw [List.range'_succ, List.find?_cons, List.filter_cons]
      cases accepted : P start with
      | true =>
          cases fuel with
          | zero => exact absurd enough (Nat.not_succ_le_zero _)
          | succ fuel =>
              have after : start + (count + 1) - (start + 1) = count := by omega
              rw [if_pos rfl, iterate, finds start (Nat.le_refl _) (by omega), after,
                ih findsRest (Nat.le_of_succ_le_succ enough)]
      | false =>
          rw [if_neg Bool.false_ne_true]
          exact ih findsRest (Nat.le_of_succ_le enough)

end Tyr.Lib.BitScan
