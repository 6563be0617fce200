import Tyr.Common.BitPackedArrayPool
import Tyr.Lib.Interning

/-!
Sets of bit-packed arrays.

A hash set of indices into a pool: two indices are equal if the pool has equal arrays
there, and an array is looked up by its elements. An index has the 32 bits of a `uint_t`.

* `Represents.insert` — inserting is interning, while the indices fit.
* `Represents.run` — over a whole run the set has the distinct arrays.
* `refines_table` — pools and sets store what they are given.
* `index_wraps` — the array after 2 ^ 32 others gets the index 0.
-/

namespace Tyr

open Lib

structure BitPackedArraySet (w segShift : Nat) where
  pool : BitPackedArrayPool w segShift
  set : List Nat

namespace BitPackedArraySet

variable {w segShift : Nat} {α : Type*}

def create (w segShift length width : Nat) : BitPackedArraySet w segShift :=
  ⟨.create w segShift length width, []⟩

section

variable [DecidableEq α]

/-- The index in the hash set whose array has the elements. -/
def find (coder : BlockCoder w α) (set : BitPackedArraySet w segShift) (elements : List α) :
    Option Nat :=
  set.set.find? fun index => set.pool.get coder index == elements

/-- Insert an index into the hash set, unless an equal one is there. -/
def emplace (coder : BlockCoder w α) (set : BitPackedArraySet w segShift) (index : Nat) :
    BitPackedArraySet w segShift :=
  match set.find coder (set.pool.get coder index) with
  | some _ => set
  | none => { set with set := set.set ++ [index] }

/-- `insert`: the index of the array, and whether it is new. -/
def insert (coder : BlockCoder w α) (set : BitPackedArraySet w segShift) (elements : List α) :
    BitPackedArraySet w segShift × Except Exception (Nat × Bool) :=
  match set.find coder elements with
  | some index => (set, .ok (index, false))
  | none =>
      let index := set.pool.size % 2 ^ 32
      let (pool, thrown) := set.pool.pushBack coder elements
      let set := { set with pool := pool }
      match thrown with
      | some exception => (set, .error exception)
      | none => (set.emplace coder index, .ok (index, true))

/-- Insert arrays one after another. -/
def run (coder : BlockCoder w α) :
    BitPackedArraySet w segShift → List (List α) →
      BitPackedArraySet w segShift × List (Except Exception (Nat × Bool))
  | set, [] => (set, [])
  | set, array :: arrays =>
      let (set, result) := set.insert coder array
      let (set, results) := run coder set arrays
      (set, result :: results)

/-- The distinct arrays, in the order in which they were first inserted. -/
def distinct (table arrays : List (List α)) : List (List α) :=
  arrays.foldl (fun table array => (Interning.insert (· == ·) table array).1) table

/-! ### One insertion -/

/-- The set has the arrays of the table, under their positions. -/
structure Represents (coder : BlockCoder w α) (set : BitPackedArraySet w segShift)
    (table : List (List α)) : Prop where
  pool : set.pool.Represents coder table
  set_eq : set.set = List.range table.length
  distinct : Interning.Distinct (fun _ => True) table

variable {coder : BlockCoder w α} {set : BitPackedArraySet w segShift} {table : List (List α)}
  {array : List α}

/-- Looking up in the hash set is looking up in the table. -/
theorem find_range {pool : BitPackedArrayPool w segShift}
    (stored : ∀ (i : Nat) (array : List α), table[i]? = some array → pool.get coder i = array)
    (array : List α) :
    (List.range table.length).find? (fun index => pool.get coder index == array) =
      Interning.find (· == ·) table array := by
  have agree : ∀ i (inRange : i < table.length),
      (pool.get coder i == array) = (array == table[i]) := by
    intro i inRange
    rw [stored i _ (List.getElem?_eq_getElem inRange), Bool.beq_comm]
  cases found : Interning.find (· == ·) table array with
  | none =>
      rw [Interning.find, List.findIdx?_eq_none_iff] at found
      rw [List.find?_range_eq_none]
      intro i inRange
      rw [agree i inRange, found _ (List.getElem_mem inRange)]
      rfl
  | some index =>
      obtain ⟨inRange, equal, first⟩ := List.findIdx?_eq_some_iff_getElem.mp found
      rw [List.find?_range_eq_some]
      refine ⟨(agree index inRange).trans equal, List.mem_range.mpr inRange, ?_⟩
      intro j before
      rw [agree j (before.trans inRange)]
      simpa using first j before

theorem Represents.find_eq (represents : Represents coder set table) (array : List α) :
    set.find coder array = Interning.find (· == ·) table array := by
  rw [find, represents.set_eq]
  exact find_range (fun _ _ => represents.pool.get_eq) array

/-- An array that is not stored yet gets the size of the pool as its index. -/
theorem Represents.insert_new (represents : Represents coder set table)
    (fits : BitPackedArrayPool.Fits coder set.pool.length set.pool.width array)
    (absent : Interning.find (· == ·) table array = none) :
    set.insert coder array =
      (emplace coder { set with pool := (set.pool.pushBack coder array).1 } (table.length % 2 ^ 32),
        .ok (table.length % 2 ^ 32, true)) := by
  have completes := (represents.pool.pushBack fits).1
  unfold BitPackedArraySet.insert
  rw [represents.find_eq, absent]
  dsimp only
  rw [completes, represents.pool.size_eq]

theorem Represents.insert (represents : Represents coder set table)
    (fits : BitPackedArrayPool.Fits coder set.pool.length set.pool.width array)
    (room : (Interning.insert (· == ·) table array).1.length ≤ 2 ^ 32) :
    (set.insert coder array).2 = .ok ((Interning.insert (· == ·) table array).2,
        (Interning.find (· == ·) table array).isNone) ∧
      Represents coder (set.insert coder array).1 (Interning.insert (· == ·) table array).1 ∧
      (set.insert coder array).1.pool.length = set.pool.length ∧
      (set.insert coder array).1.pool.width = set.pool.width := by
  have distinct : Interning.Distinct (fun _ => True) (Interning.insert (· == ·) table array).1 :=
    represents.distinct.insert .beq
  unfold Interning.insert at room distinct ⊢
  cases found : Interning.find (· == ·) table array with
  | some index =>
      unfold BitPackedArraySet.insert
      rw [represents.find_eq, found]
      exact ⟨rfl, represents, rfl, rfl⟩
  | none =>
      rw [found] at room distinct
      dsimp only at room distinct
      obtain ⟨_, pushed, length_eq, width_eq⟩ := represents.pool.pushBack fits
      have small : table.length % 2 ^ 32 = table.length := by
        apply Nat.mod_eq_of_lt
        rw [List.length_append, List.length_singleton] at room
        omega
      rw [represents.insert_new fits found, small]
      have stored : ∀ (i : Nat) (old : List α), table[i]? = some old →
          (set.pool.pushBack coder array).1.get coder i = old := by
        intro i old foundAt
        apply pushed.get_eq
        rw [List.getElem?_append_left (List.getElem?_eq_some_iff.mp foundAt).1, foundAt]
      have last : (set.pool.pushBack coder array).1.get coder table.length = array := by
        apply pushed.get_eq
        rw [List.getElem?_concat_length]
      have emplaced : emplace coder { set with pool := (set.pool.pushBack coder array).1 }
          table.length = ⟨(set.pool.pushBack coder array).1, set.set ++ [table.length]⟩ := by
        unfold emplace find
        dsimp only
        rw [last, represents.set_eq, find_range stored, found]
      rw [emplaced]
      refine ⟨rfl, ⟨pushed, ?_, distinct⟩, length_eq, width_eq⟩
      rw [represents.set_eq, List.length_append, List.length_singleton, List.range_succ]

/-! ### Runs -/

theorem distinct_cons (table : List (List α)) (array : List α) (arrays : List (List α)) :
    distinct table (array :: arrays) =
      distinct (Interning.insert (· == ·) table array).1 arrays := rfl

theorem isPrefix_distinct (table arrays : List (List α)) : table <+: distinct table arrays := by
  induction arrays generalizing table with
  | nil => exact List.prefix_refl _
  | cons array arrays ih => exact Interning.insert_prefix.trans (ih _)

theorem Represents.run (represents : Represents coder set table) {arrays : List (List α)}
    (fits : ∀ array ∈ arrays, BitPackedArrayPool.Fits coder set.pool.length set.pool.width array)
    (room : (BitPackedArraySet.distinct table arrays).length ≤ 2 ^ 32) :
    Represents coder (set.run coder arrays).1 (BitPackedArraySet.distinct table arrays) ∧
      (set.run coder arrays).2.length = arrays.length ∧
      (set.run coder arrays).1.pool.length = set.pool.length ∧
      (set.run coder arrays).1.pool.width = set.pool.width ∧
      ∀ (i : Nat) (array : List α), arrays[i]? = some array → ∃ index inserted,
        (set.run coder arrays).2[i]? = some (.ok (index, inserted)) ∧
        (BitPackedArraySet.distinct table arrays)[index]? = some array := by
  induction arrays generalizing set table with
  | nil =>
      refine ⟨represents, rfl, rfl, rfl, ?_⟩
      intro i array found
      cases found
  | cons first arrays ih =>
      rw [distinct_cons] at room ⊢
      obtain ⟨rest, isPrefix⟩ := isPrefix_distinct (Interning.insert (· == ·) table first).1 arrays
      have roomFirst : (Interning.insert (· == ·) table first).1.length ≤ 2 ^ 32 :=
        (List.IsPrefix.length_le ⟨rest, isPrefix⟩).trans room
      obtain ⟨result, inserted, length_eq, width_eq⟩ :=
        represents.insert (fits first List.mem_cons_self) roomFirst
      have fitsRest : ∀ array ∈ arrays, BitPackedArrayPool.Fits coder
          (set.insert coder first).1.pool.length (set.insert coder first).1.pool.width array := by
        intro array mem
        rw [length_eq, width_eq]
        exact fits array (List.mem_cons_of_mem _ mem)
      obtain ⟨final, sameLength, finalLength, finalWidth, found⟩ := ih inserted fitsRest room
      refine ⟨final, congrArg (· + 1) sameLength, finalLength.trans length_eq,
        finalWidth.trans width_eq, ?_⟩
      intro i array foundAt
      cases i with
      | zero =>
          cases foundAt
          refine ⟨_, _, congrArg some result, ?_⟩
          have stored : (Interning.insert (· == ·) table first).1[(Interning.insert (· == ·) table
              first).2]? = some first := Interning.getElem?_insert .beq
          rw [← isPrefix, List.getElem?_append_left (List.getElem?_eq_some_iff.mp stored).1, stored]
      | succ i => exact found i array foundAt

omit [DecidableEq α] in
theorem represents_create (segShift : Nat) (coder : BlockCoder w α) (length : Nat) {width : Nat}
    (width_pos : 0 < width) (width_le : width ≤ w) :
    Represents coder (create w segShift length width) [] :=
  ⟨BitPackedArrayPool.represents_create segShift coder length width_pos width_le, rfl,
    Interning.distinct_nil⟩

omit [DecidableEq α] in
/-- Same index, same array. -/
theorem Represents.index_eq_iff (represents : Represents coder set table) {i j : Nat}
    {other : List α} (foundI : table[i]? = some array) (foundJ : table[j]? = some other) :
    i = j ↔ array = other := by
  constructor
  · rintro rfl
    exact Option.some.inj (foundI.symm.trans foundJ)
  · rintro rfl
    exact represents.distinct i j array foundI foundJ trivial

/-- A pool reads back every array that was pushed. A set, while it has at most 2 ^ 32 arrays,
gives each array the position among the distinct ones at which it reads it back. -/
theorem refines_table (segShift : Nat) (coder : BlockCoder w α) {length width : Nat} (width_pos : 0 < width)
    (width_le : width ≤ w) {arrays : List (List α)}
    (fits : ∀ array ∈ arrays, BitPackedArrayPool.Fits coder length width array) :
    (((BitPackedArrayPool.create w segShift length width).run coder arrays).size = arrays.length ∧
      (∀ (i : Nat) (array : List α), arrays[i]? = some array →
        ((BitPackedArrayPool.create w segShift length width).run coder arrays).get coder i = array) ∧
      ∀ array, BitPackedArrayPool.Fits coder length width array →
        (((BitPackedArrayPool.create w segShift length width).run coder arrays).pushBack
          coder array).2 = none) ∧
    ((distinct [] arrays).length ≤ 2 ^ 32 →
      (∀ (i : Nat) (array : List α), arrays[i]? = some array → ∃ index inserted,
        ((create w segShift length width).run coder arrays).2[i]? = some (.ok (index, inserted)) ∧
        (distinct [] arrays)[index]? = some array) ∧
      (∀ (i j : Nat) (x y : Nat × Bool), ((create w segShift length width).run coder arrays).2[i]? = some (.ok x) →
        ((create w segShift length width).run coder arrays).2[j]? = some (.ok y) →
        (x.1 = y.1 ↔ arrays[i]? = arrays[j]?)) ∧
      ∀ (k : Nat) (array : List α), (distinct [] arrays)[k]? = some array →
        ((create w segShift length width).run coder arrays).1.pool.get coder k = array) := by
  constructor
  · obtain ⟨stored, length_eq, width_eq⟩ := (BitPackedArrayPool.represents_create
      segShift coder length width_pos width_le).run fits
    refine ⟨stored.size_eq, fun i array => stored.get_eq, fun array fitsArray => ?_⟩
    rw [BitPackedArrayPool.pushBack_eq_none_iff, length_eq, width_eq]
    exact fitsArray
  · intro room
    obtain ⟨represents, sameLength, _, _, found⟩ :=
      (represents_create segShift coder length width_pos width_le).run fits room
    refine ⟨found, ?_, fun k array => represents.pool.get_eq⟩
    have denotes : ∀ (i : Nat) (x : Nat × Bool),
        ((create w segShift length width).run coder arrays).2[i]? = some (.ok x) →
        ∃ array, arrays[i]? = some array ∧ (distinct [] arrays)[x.1]? = some array := by
      intro i x result
      have inRange : i < arrays.length := sameLength ▸ (List.getElem?_eq_some_iff.mp result).1
      obtain ⟨index, inserted, resultI, atIndex⟩ := found i _ (List.getElem?_eq_getElem inRange)
      cases resultI.symm.trans result
      exact ⟨_, List.getElem?_eq_getElem inRange, atIndex⟩
    intro i j x y resultI resultJ
    obtain ⟨arrayI, atI, storedI⟩ := denotes i x resultI
    obtain ⟨arrayJ, atJ, storedJ⟩ := denotes j y resultJ
    rw [atI, atJ, Option.some_inj]
    exact represents.index_eq_iff storedI storedJ

/-- A set of pairs of 3 bit integers. -/
theorem refines_pairs :
    ((BitPackedArrayPool.create 8 0 2 3).run (ForwardingBlockCoder 8)
        [[1#8, 5#8], [7#8, 2#8], [1#8, 5#8]]).get (ForwardingBlockCoder 8) 2 = [1#8, 5#8] ∧
      ((create 8 0 2 3).run (ForwardingBlockCoder 8)
        [[1#8, 5#8], [7#8, 2#8], [1#8, 5#8]]).1.pool.get (ForwardingBlockCoder 8) 1 = [7#8, 2#8] := by
  have fits : ∀ array ∈ [[1#8, 5#8], [7#8, 2#8], [1#8, 5#8]],
      BitPackedArrayPool.Fits (ForwardingBlockCoder 8) 2 3 array := by
    intro array mem
    have checked : ∀ array ∈ [[1#8, 5#8], [7#8, 2#8], [1#8, 5#8]], array.length = 2 ∧
        ∀ value ∈ array, Bit.fits value 3 = true := by
      decide
    exact ⟨(checked array mem).1, (checked array mem).2⟩
  obtain ⟨pool, set⟩ := refines_table 0 (ForwardingBlockCoder 8) (by decide : 0 < 3) (by decide) fits
  exact ⟨pool.2.1 2 _ rfl, (set (by decide)).2.2 1 _ (by decide)⟩

/-! ### More arrays than indices -/

theorem run_concat (coder : BlockCoder w α) (set : BitPackedArraySet w segShift)
    (arrays : List (List α)) (last : List α) :
    (set.run coder (arrays ++ [last])).2 =
      (set.run coder arrays).2 ++ [((set.run coder arrays).1.insert coder last).2] := by
  induction arrays generalizing set with
  | nil => rfl
  | cons array arrays ih => exact congrArg _ (ih _)

theorem distinct_of_nodup {arrays : List (List α)} (nodup : (table ++ arrays).Nodup) :
    distinct table arrays = table ++ arrays := by
  induction arrays generalizing table with
  | nil => exact (List.append_nil table).symm
  | cons array arrays ih =>
      have absent : array ∉ table := by
        intro mem
        exact (List.nodup_append.mp nodup).2.2 array mem array List.mem_cons_self rfl
      have notFound : Interning.find (· == ·) table array = none := by
        rw [Interning.find, List.findIdx?_eq_none_iff]
        intro stored mem
        rw [beq_eq_false_iff_ne]
        rintro rfl
        exact absent mem
      rw [List.append_cons] at nodup ⊢
      rw [distinct_cons, Interning.insert, notFound]
      exact ih nodup

/-- The index of the array that is inserted first. -/
theorem getElem?_run_zero (segShift : Nat) (coder : BlockCoder w α) {length width : Nat}
    (width_pos : 0 < width) (width_le : width ≤ w) {arrays : List (List α)}
    (fits : BitPackedArrayPool.Fits coder length width array) (first : arrays[0]? = some array) :
    ((create w segShift length width).run coder arrays).2[0]? = some (.ok (0, true)) := by
  have represents := represents_create segShift coder length width_pos width_le
  cases arrays with
  | nil => cases first
  | cons head arrays =>
      cases first
      exact congrArg (some ∘ Prod.snd) (represents.insert_new fits rfl)

/-- The index of an array that is inserted after others. -/
theorem getElem?_run_last (segShift : Nat) (coder : BlockCoder w α) {length width : Nat}
    (width_pos : 0 < width) (width_le : width ≤ w) {arrays : List (List α)} {last : List α}
    (fits : ∀ array ∈ arrays ++ [last], BitPackedArrayPool.Fits coder length width array)
    (nodup : (arrays ++ [last]).Nodup) (few : arrays.length ≤ 2 ^ 32) :
    ((create w segShift length width).run coder (arrays ++ [last])).2[arrays.length]? =
      some (.ok (arrays.length % 2 ^ 32, true)) := by
  have stored : distinct [] arrays = arrays :=
    distinct_of_nodup (List.Nodup.of_append_left nodup)
  have fitsArrays : ∀ array ∈ arrays, BitPackedArrayPool.Fits coder length width array :=
    fun array mem => fits array (List.mem_append_left _ mem)
  obtain ⟨represents, sameLength, length_eq, width_eq, _⟩ :=
    (represents_create segShift coder length width_pos width_le).run fitsArrays
      (stored.symm ▸ few)
  rw [stored] at represents
  have notFound : Interning.find (· == ·) arrays last = none := by
    rw [Interning.find, List.findIdx?_eq_none_iff]
    intro array mem
    rw [beq_eq_false_iff_ne]
    rintro rfl
    exact (List.nodup_append.mp nodup).2.2 last mem last List.mem_cons_self rfl
  have fitsLast : BitPackedArrayPool.Fits coder
      ((create w segShift length width).run coder arrays).1.pool.length
      ((create w segShift length width).run coder arrays).1.pool.width last := by
    rw [length_eq, width_eq]
    exact fits last (List.mem_append_right _ List.mem_cons_self)
  rw [run_concat, ← sameLength, List.getElem?_concat_length,
    represents.insert_new fitsLast notFound, sameLength]

end

/-- Arrays of two blocks, a different one for every number below 2 ^ 64. -/
def wide (n : Nat) : List (BitVec 32) := [BitVec.ofNat 32 n, BitVec.ofNat 32 (n / 2 ^ 32)]

theorem wide_inj {n m : Nat} (nLe : n ≤ 2 ^ 32) (mLe : m ≤ 2 ^ 32) (same : wide n = wide m) :
    n = m := by
  simp only [wide, List.cons.injEq, and_true] at same
  have low := congrArg BitVec.toNat same.1
  have high := congrArg BitVec.toNat same.2
  simp only [BitVec.toNat_ofNat] at low high
  omega

/-- The first arrays and the one after them. -/
def wideArrays : List (List (BitVec 32)) := (List.range (2 ^ 32)).map wide ++ [wide (2 ^ 32)]

theorem wideArrays_eq : wideArrays = (List.range (2 ^ 32 + 1)).map wide := by
  rw [wideArrays, List.range_succ, List.map_append, List.map_singleton]

theorem nodup_wideArrays : wideArrays.Nodup := by
  rw [wideArrays_eq]
  apply List.Nodup.map_on _ List.nodup_range
  intro n nMem m mMem same
  exact wide_inj (Nat.le_of_lt_succ (List.mem_range.mp nMem))
    (Nat.le_of_lt_succ (List.mem_range.mp mMem)) same

theorem fits_wide (n : Nat) : BitPackedArrayPool.Fits (ForwardingBlockCoder 32) 2 32 (wide n) :=
  ⟨rfl, fun value _ => Bit.fits_width value⟩

/-- The array after 2 ^ 32 others gets the index of the first one. -/
theorem index_wraps :
    ¬ ∀ arrays : List (List (BitVec 32)),
      (∀ array ∈ arrays, BitPackedArrayPool.Fits (ForwardingBlockCoder 32) 2 32 array) →
      ∀ (i j : Nat) (x y : Nat × Bool),
        ((create 32 4 2 32).run (ForwardingBlockCoder 32) arrays).2[i]? = some (.ok x) →
        ((create 32 4 2 32).run (ForwardingBlockCoder 32) arrays).2[j]? = some (.ok y) →
        (x.1 = y.1 ↔ arrays[i]? = arrays[j]?) := by
  intro claim
  have fits : ∀ array ∈ wideArrays,
      BitPackedArrayPool.Fits (ForwardingBlockCoder 32) 2 32 array := by
    intro array mem
    rw [wideArrays_eq] at mem
    obtain ⟨n, _, rfl⟩ := List.mem_map.mp mem
    exact fits_wide n
  have stored : ∀ n ≤ 2 ^ 32, wideArrays[n]? = some (wide n) := by
    intro n le
    rw [wideArrays_eq, List.getElem?_map, List.getElem?_range (Nat.lt_succ_of_le le)]
    rfl
  have count : ((List.range (2 ^ 32)).map wide).length = 2 ^ 32 := by
    rw [List.length_map, List.length_range]
  have first := getElem?_run_zero 4 (ForwardingBlockCoder 32) (by decide) (Nat.le_refl 32)
    (fits_wide 0) (stored 0 (Nat.zero_le _))
  have last := getElem?_run_last 4 (ForwardingBlockCoder 32) (by decide) (Nat.le_refl 32) fits
    nodup_wideArrays count.le
  rw [count, Nat.mod_self] at last
  have same := (claim wideArrays fits 0 (2 ^ 32) (0, true) (0, true) first last).mp rfl
  rw [stored 0 (Nat.zero_le _), stored _ (Nat.le_refl _), Option.some_inj] at same
  cases wide_inj (Nat.zero_le _) (Nat.le_refl _) same

end BitPackedArraySet

end Tyr
