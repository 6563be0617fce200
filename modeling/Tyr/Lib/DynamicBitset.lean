import Mathlib.Data.List.GetD
import Mathlib.Data.List.Nodup

/-!
Bitsets of any size.

A bitset is the list of its bits; a bit beyond the size reads as false.

* `test_and`, `test_or`, `test_set` — the bits after an operation.
* `indices_eq` — the set bits in ascending order.
-/

namespace Tyr.Lib.DynamicBitset

def test (bits : List Bool) (i : Nat) : Bool := bits.getD i false

/-- Bits that are added are false. -/
def resize (bits : List Bool) (n : Nat) : List Bool :=
  bits.take n ++ List.replicate (n - bits.length) false

def setAll (bits : List Bool) : List Bool := bits.map fun _ => true

def resetAll (bits : List Bool) : List Bool := bits.map fun _ => false

def set (bits : List Bool) (i : Nat) : List Bool := List.set bits i true

def and (bits others : List Bool) : List Bool := List.zipWith (· && ·) bits others

def or (bits others : List Bool) : List Bool := List.zipWith (· || ·) bits others

def none (bits : List Bool) : Bool := bits.all (! ·)

/-- The set bits, from `find_first` on with `find_next`. -/
def indices (bits : List Bool) : List Nat := (List.range bits.length).filter fun i => test bits i

variable {bits others : List Bool} {n i j : Nat}

@[simp] theorem length_resize (bits : List Bool) (n : Nat) : (resize bits n).length = n := by
  simp [resize]
  omega

theorem setAll_resize (bits : List Bool) (n : Nat) : setAll (resize bits n) = List.replicate n true := by
  simp [setAll]

theorem resetAll_resize (bits : List Bool) (n : Nat) :
    resetAll (resize bits n) = List.replicate n false := by
  simp [resetAll]

@[simp] theorem length_set (bits : List Bool) (i : Nat) : (set bits i).length = bits.length :=
  List.length_set

theorem test_set (inside : i < bits.length) :
    test (set bits i) j = true ↔ j = i ∨ test bits j = true := by
  rw [test, test, set, List.getD_eq_getElem?_getD, List.getD_eq_getElem?_getD]
  by_cases same : j = i
  · subst same
    simp [inside]
  · simp [List.getElem?_set_ne (Ne.symm same), same]

theorem length_and (sized : bits.length = n) (sized' : others.length = n) :
    (and bits others).length = n := by
  simp [and, sized, sized']

theorem length_or (sized : bits.length = n) (sized' : others.length = n) :
    (or bits others).length = n := by
  simp [or, sized, sized']

theorem test_and : test (and bits others) i = true ↔ test bits i = true ∧ test others i = true := by
  rw [test, test, test, and, List.getD_eq_getElem?_getD, List.getD_eq_getElem?_getD, List.getD_eq_getElem?_getD,
    List.getElem?_zipWith]
  cases bits[i]? <;> cases others[i]? <;> simp

theorem test_or (sized : bits.length = others.length) :
    test (or bits others) i = true ↔ test bits i = true ∨ test others i = true := by
  rw [test, test, test, or, List.getD_eq_getElem?_getD, List.getD_eq_getElem?_getD, List.getD_eq_getElem?_getD,
    List.getElem?_zipWith]
  by_cases inside : i < bits.length
  · rw [List.getElem?_eq_getElem inside, List.getElem?_eq_getElem (sized ▸ inside)]
    simp
  · rw [List.getElem?_eq_none (Nat.le_of_not_lt inside),
      List.getElem?_eq_none (sized ▸ Nat.le_of_not_lt inside)]
    simp

theorem test_replicate : test (List.replicate n true) i = true ↔ i < n := by
  rw [test, List.getD_eq_getElem?_getD, List.getElem?_replicate]
  by_cases inside : i < n
  · simp [inside]
  · simp [inside]

@[simp] theorem test_replicate_false : test (List.replicate n false) i = false := by
  rw [test, List.getD_eq_getElem?_getD, List.getElem?_replicate]
  by_cases inside : i < n
  · simp [inside]
  · simp [inside]

theorem none_iff : none bits = true ↔ ∀ i, test bits i = false := by
  rw [none, List.all_eq_true]
  constructor
  · intro all i
    rw [test, List.getD_eq_getElem?_getD]
    cases found : bits[i]? with
    | none => rfl
    | some bit => simpa using all bit (List.mem_of_getElem? found)
  · intro all bit mem
    obtain ⟨i, found⟩ := List.mem_iff_getElem?.mp mem
    have zero := all i
    rw [test, List.getD_eq_getElem?_getD, found] at zero
    simpa using zero

/-- The set bits are the numbers that a test accepts. -/
theorem indices_eq {P : Nat → Prop} [DecidablePred P] (sized : bits.length = n)
    (isSet : ∀ i < n, test bits i = true ↔ P i) :
    indices bits = (List.range n).filter fun i => decide (P i) := by
  rw [indices, sized]
  apply List.filter_congr
  intro i mem
  rw [Bool.eq_iff_iff, isSet i (List.mem_range.mp mem), decide_eq_true_iff]

end Tyr.Lib.DynamicBitset
