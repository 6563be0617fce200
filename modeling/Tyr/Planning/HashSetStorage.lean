import Tyr.Common.Bit
import Tyr.Lib.GrowingList
import Tyr.Planning.StateRepository
import Mathlib.Data.List.Forall2

/-!
The hash set storage of states.

A lifted task stores the indices of its facts and atoms in vectors. A ground task
packs the values of its variables and its derived atoms into blocks. Both store
the rounded values of the function terms in a vector, with a gap where a function
term was never set: a gap is not a number, and equal to nothing.

* `lifted`, `ground` — the two storages.
* `unpackFacts_pack` — the packed values of the variables can be read back.
* `hashSet_lawful` — both storages are lawful; they recognise states without gaps.
* `registration_canonical_iff` — when registration is canonical.
-/

namespace Tyr

/-- `operator==` on `float_t`: not a number equals nothing. -/
def Number.equal (lhs rhs : Number) : Bool := lhs == rhs && !lhs.isNaN

namespace Planning.HashSet

open Tyr.Lib

/-! ### Vectors -/

/-- `tyr::get`. -/
def get {α : Type} (pos : Nat) (vec : List α) (default : α) : α := vec.getD pos default

/-- `std::equal` on vectors of the same size. -/
def vectorEqual (lhs rhs : List Number) : Bool :=
  lhs.length == rhs.length && (lhs.zip rhs).all fun (x, y) => x.equal y

/-- No value is missing. -/
def HasNoGap (values : List Number) : Prop := .nan ∉ values

theorem number_equal_iff {x y : Number} : x.equal y = true ↔ x = y ∧ x ≠ .nan := by
  unfold Number.equal
  cases x <;> simp [Number.isNaN]

theorem vectorEqual_partial : PartialEquality vectorEqual HasNoGap := by
  intro lhs
  induction lhs with
  | nil =>
      intro rhs
      cases rhs <;> simp [vectorEqual, HasNoGap]
  | cons x rest ih =>
      intro rhs
      cases rhs with
      | nil => simp [vectorEqual]
      | cons y rest' =>
          have tails := ih rest'
          simp only [vectorEqual, HasNoGap, Bool.and_eq_true, beq_iff_eq] at tails
          simp only [vectorEqual, HasNoGap, List.length_cons, List.zip_cons_cons, List.all_cons,
            Bool.and_eq_true, beq_iff_eq, Nat.add_right_cancel_iff, number_equal_iff,
            List.cons.injEq, List.mem_cons, not_or]
          constructor
          · rintro ⟨sameLength, ⟨rfl, isNumber⟩, sameRest⟩
            obtain ⟨rfl, noGap⟩ := tails.mp ⟨sameLength, sameRest⟩
            exact ⟨⟨rfl, rfl⟩, fun gap => isNumber gap.symm, noGap⟩
          · rintro ⟨⟨rfl, rfl⟩, isNumber, noGap⟩
            obtain ⟨sameLength, sameRest⟩ := tails.mpr ⟨rfl, noGap⟩
            exact ⟨sameLength, ⟨rfl, fun gap => isNumber gap.symm⟩, sameRest⟩

/-- `NumericUnpackedStorage`: the value of a function term. -/
def functionValue (values : List Number) (fterm : Nat) : Number := get fterm values .nan

/-- The vector that is stored for the values. -/
def packValues (values : List Number) : List Number := values.map Number.canonicalize

theorem functionValue_packValues (values : List Number) (fterm : Nat) :
    functionValue (packValues values) fterm = (functionValue values fterm).canonicalize := by
  unfold functionValue get packValues
  rw [List.getD_eq_getElem?_getD, List.getD_eq_getElem?_getD, List.getElem?_map]
  cases values[fterm]? <;> rfl

theorem canonicalize_eq_nan {number : Number} : number.canonicalize = .nan ↔ number = .nan := by
  cases number <;> simp [Number.canonicalize]

theorem hasNoGap_packValues {values : List Number} : HasNoGap (packValues values) ↔ HasNoGap values := by
  unfold HasNoGap packValues
  rw [List.mem_map, not_iff_not]
  constructor
  · rintro ⟨value, mem, gap⟩
    exact canonicalize_eq_nan.mp gap ▸ mem
  · intro mem
    exact ⟨.nan, mem, rfl⟩

/-- Vectors without gaps are equal iff they give the function terms the same values. -/
theorem packValues_eq_iff {lhs rhs : List Number} :
    packValues lhs = packValues rhs ∧ HasNoGap (packValues rhs) ↔
      (∀ fterm, (functionValue lhs fterm).canonicalize = (functionValue rhs fterm).canonicalize) ∧
        HasNoGap lhs ∧ HasNoGap rhs := by
  rw [← @hasNoGap_packValues lhs, ← @hasNoGap_packValues rhs]
  simp only [← functionValue_packValues]
  generalize packValues lhs = lhs
  generalize packValues rhs = rhs
  constructor
  · rintro ⟨rfl, noGap⟩
    exact ⟨fun _ => rfl, noGap, noGap⟩
  · rintro ⟨same, noGapLhs, noGapRhs⟩
    refine ⟨List.ext_getElem? fun fterm => ?_, noGapRhs⟩
    have value := same fterm
    simp only [functionValue, get, List.getD_eq_getElem?_getD] at value
    cases left : lhs[fterm]? <;> cases right : rhs[fterm]? <;> rw [left, right] at value
    · obtain rfl : Number.nan = _ := value
      exact absurd (List.mem_of_getElem? right) noGapRhs
    · obtain rfl : _ = Number.nan := value
      exact absurd (List.mem_of_getElem? left) noGapLhs
    · exact congrArg some value

/-! ### Lifted tasks -/

/-- `tyr::test`. -/
def test (pos : Nat) (bitset : List Bool) : Bool := get pos bitset false

/-- `tyr::set`. -/
def set (pos : Nat) (value : Bool) (bitset : List Bool) : List Bool :=
  (if bitset.length ≤ pos then bitset ++ List.replicate (pos + 1 - bitset.length) false
    else bitset).set pos value

structure LiftedState where
  facts : List Bool
  atoms : List Bool
  values : List Number

structure LiftedContext where
  uintVecSet : List (List Nat)
  floatVecSet : List (List Number)

/-- Indices into the sets of the context. -/
structure PackedState where
  facts : Nat
  atoms : Nat
  values : Nat
deriving DecidableEq

/-- The positions that are set, in ascending order. -/
def packIndices (bitset : List Bool) : List Nat :=
  (List.range bitset.length).filter fun pos => test pos bitset

def unpackIndices (view : List Nat) : List Bool :=
  view.foldl (fun bitset pos => set pos true bitset) []

/-- The storage of a lifted task: both backends share the set of index vectors. -/
def lifted : StateStorage where
  Unpacked := LiftedState
  Context := LiftedContext
  Packed := PackedState
  initial := ⟨[], []⟩
  insert context state :=
    let (uintVecSet, facts) := Interning.insert (· == ·) context.uintVecSet (packIndices state.facts)
    let (uintVecSet, atoms) := Interning.insert (· == ·) uintVecSet (packIndices state.atoms)
    let (floatVecSet, values) :=
      Interning.insert vectorEqual context.floatVecSet (packValues state.values)
    some (⟨uintVecSet, floatVecSet⟩, ⟨facts, atoms, values⟩)
  unpack context packed :=
    ⟨unpackIndices (get packed.facts context.uintVecSet []),
      unpackIndices (get packed.atoms context.uintVecSet []),
      get packed.values context.floatVecSet []⟩
  fluentValue state var := (test var state.facts).toNat
  derivedAtom state atom := test atom state.atoms
  functionValue state fterm := functionValue state.values fterm

theorem test_set (pos : Nat) (value : Bool) (bitset : List Bool) (i : Nat) :
    test i (set pos value bitset) = if i = pos then value else test i bitset := by
  have grown : (if bitset.length ≤ pos then bitset ++ List.replicate (pos + 1 - bitset.length) false
      else bitset) = bitset ++ List.replicate (pos + 1 - bitset.length) false := by
    split
    · rfl
    · next inside =>
        rw [Nat.sub_eq_zero_of_le (by omega), List.replicate_zero, List.append_nil]
  unfold test get set
  rw [grown]
  exact Lib.getD_set_grow bitset false pos i value

theorem test_unpackIndices (view : List Nat) (i : Nat) :
    test i (unpackIndices view) = decide (i ∈ view) := by
  have general : ∀ bitset, test i (view.foldl (fun bitset pos => set pos true bitset) bitset) =
      (decide (i ∈ view) || test i bitset) := by
    induction view with
    | nil => simp
    | cons pos rest ih =>
        intro bitset
        rw [List.foldl_cons, ih, test_set]
        by_cases same : i = pos <;> simp [same]
  rw [unpackIndices, general]
  simp [test, get]

theorem mem_packIndices {bitset : List Bool} {i : Nat} :
    i ∈ packIndices bitset ↔ test i bitset = true := by
  rw [packIndices, List.mem_filter, List.mem_range, and_iff_right_iff_imp]
  intro isSet
  by_contra outside
  rw [test, get, List.getD_eq_default _ _ (Nat.le_of_not_lt outside)] at isSet
  cases isSet

theorem test_unpack_pack (bitset : List Bool) (i : Nat) :
    test i (unpackIndices (packIndices bitset)) = test i bitset := by
  rw [test_unpackIndices, Bool.eq_iff_iff, decide_eq_true_iff, mem_packIndices]

theorem packIndices_eq_iff {lhs rhs : List Bool} :
    packIndices lhs = packIndices rhs ↔ ∀ i, test i lhs = test i rhs := by
  constructor
  · intro same i
    rw [← test_unpack_pack lhs, same, test_unpack_pack]
  · intro same
    have nodup : ∀ bitset, (packIndices bitset).Nodup := fun _ => List.nodup_range.filter _
    have sorted : ∀ bitset, (packIndices bitset).Pairwise (· < ·) :=
      fun _ => List.pairwise_lt_range.filter _
    have perm : (packIndices lhs).Perm (packIndices rhs) :=
      (List.perm_ext_iff_of_nodup (nodup lhs) (nodup rhs)).mpr fun i => by
        rw [mem_packIndices, mem_packIndices, same]
    exact perm.eq_of_pairwise (fun _ _ _ _ less greater => absurd less greater.asymm)
      (sorted lhs) (sorted rhs)

/-! ### Ground tasks -/

structure VariableInfo where
  start : Nat
  offset : Nat
  length : Nat

/-- The bits of a variable: it has a value for each of its atoms and one for none of them. -/
def fieldLength (numAtoms : Nat) : Nat := Bit.bitsNeeded ((numAtoms + 1) % 2 ^ 32)

/-- The fields of the variables, from a bit on. -/
def fluentInfos : Nat → List Nat → List VariableInfo
  | _, [] => []
  | currentBit, numAtoms :: rest =>
      ⟨currentBit / 32, currentBit % 32, fieldLength numAtoms⟩ ::
        fluentInfos (currentBit + fieldLength numAtoms) rest

/-- The bit after the last field. -/
def lastBit : Nat → List Nat → Nat
  | currentBit, [] => currentBit
  | currentBit, numAtoms :: rest => lastBit (currentBit + fieldLength numAtoms) rest

/-- What the layout depends on: the number of atoms of each variable and of derived atoms. -/
structure GroundTask where
  fluentVariables : List Nat
  derivedNumBits : Nat

/-- An unpacked state of a task. -/
structure GroundState (task : GroundTask) where
  facts : List Bit.Block
  atoms : List Bool
  values : List Number
  facts_length : facts.length = task.fluentVariables.length
  atoms_length : atoms.length = task.derivedNumBits

structure GroundContext where
  fluentArraySet : List (List Bit.Block)
  derivedArraySet : List (List Bit.Block)
  floatVecSet : List (List Number)

def packFacts : List Bit.Block → List VariableInfo → List Bit.Block → Option (List Bit.Block)
  | blocks, info :: infos, value :: values =>
      (Bit.assignInt blocks info.start value info.offset info.length).bind
        fun blocks => packFacts blocks infos values
  | blocks, [], _ => some blocks
  | blocks, _ :: _, [] => some blocks

def unpackFacts (infos : List VariableInfo) (blocks : List Bit.Block) : List Bit.Block :=
  infos.map fun info => Bit.readInt blocks info.start info.offset info.length

def packAtoms (numBits : Nat) (atoms : List Bool) : List Bit.Block :=
  (List.range numBits).foldl (fun blocks i => Bit.assignBit blocks i (test i atoms))
    (List.replicate (Bit.ceilDiv numBits 32) 0#32)

def unpackAtoms (numBits : Nat) (blocks : List Bit.Block) : List Bool :=
  (List.range numBits).map (Bit.bit blocks)

theorem fieldLength_pos (numAtoms : Nat) : 0 < fieldLength numAtoms := by
  unfold fieldLength Bit.bitsNeeded
  split
  · exact Nat.one_pos
  · exact Nat.succ_pos _

theorem fieldLength_le (numAtoms : Nat) : fieldLength numAtoms ≤ 32 := by
  unfold fieldLength Bit.bitsNeeded
  split
  · decide
  · rename_i large
    have small : (numAtoms + 1) % 2 ^ 32 - 1 < 2 ^ 32 := by omega
    exact Nat.succ_le_of_lt ((Nat.log2_lt (by omega)).mpr small)

theorem length_fluentInfos (currentBit : Nat) (fluentVariables : List Nat) :
    (fluentInfos currentBit fluentVariables).length = fluentVariables.length := by
  induction fluentVariables generalizing currentBit with
  | nil => rfl
  | cons numAtoms rest ih => exact congrArg (· + 1) (ih _)

theorem le_lastBit (currentBit : Nat) (fluentVariables : List Nat) :
    currentBit ≤ lastBit currentBit fluentVariables := by
  induction fluentVariables generalizing currentBit with
  | nil => exact Nat.le_refl _
  | cons numAtoms rest ih => exact (Nat.le_add_right _ _).trans (ih _)

section

variable {currentBit numAtoms : Nat} {fluentVariables : List Nat} {blocks packed : List Bit.Block}
  {value : Bit.Block} {values : List Bit.Block}

/-- The first value goes to its field and the others behind it. -/
theorem packFacts_cons (packs : packFacts blocks (fluentInfos currentBit (numAtoms :: fluentVariables))
      (value :: values) = some packed)
    (inRange : lastBit currentBit (numAtoms :: fluentVariables) ≤ 32 * blocks.length) :
    ∃ next, packFacts next (fluentInfos (currentBit + fieldLength numAtoms) fluentVariables) values =
        some packed ∧
      next.length = blocks.length ∧ Bit.fits value (fieldLength numAtoms) = true ∧
      ∀ i, Bit.bit next i = if currentBit ≤ i ∧ i < currentBit + fieldLength numAtoms then
        value.getLsbD (i - currentBit) else Bit.bit blocks i := by
  rw [fluentInfos, packFacts, Bit.assignInt] at packs
  split at packs
  · rename_i fit
    have fieldEnd := (le_lastBit (currentBit + fieldLength numAtoms) fluentVariables).trans inRange
    have position : currentBit / 32 * 32 + currentBit % 32 = currentBit := by omega
    have stored : currentBit / 32 * 32 + currentBit % 32 + fieldLength numAtoms ≤ 32 * blocks.length :=
      position.symm ▸ fieldEnd
    refine ⟨_, packs, Bit.length_writeInt _ _ _ _ _, fit, fun i => ?_⟩
    rw [Bit.bit_writeInt (Nat.mod_lt _ (by decide)) (fieldLength_le numAtoms) stored
      (fieldLength_pos numAtoms), position]
  · cases packs

/-- Packing from a bit on leaves the bits before it. -/
theorem bit_packFacts (inRange : lastBit currentBit fluentVariables ≤ 32 * blocks.length)
    (packs : packFacts blocks (fluentInfos currentBit fluentVariables) values = some packed)
    {i : Nat} (before : i < currentBit) : Bit.bit packed i = Bit.bit blocks i := by
  induction fluentVariables generalizing currentBit blocks values with
  | nil =>
      rw [fluentInfos, packFacts] at packs
      cases packs
      rfl
  | cons numAtoms rest ih =>
      cases values with
      | nil =>
          cases packs
          rfl
      | cons value values =>
          obtain ⟨next, packsRest, sameLength, _, bits⟩ := packFacts_cons packs inRange
          rw [ih (sameLength ▸ inRange) packsRest (before.trans_le (Nat.le_add_right _ _)), bits,
            if_neg fun inField => absurd inField.1 (Nat.not_le_of_lt before)]

/-- The packed values can be read back. -/
theorem unpackFacts_pack (inRange : lastBit currentBit fluentVariables ≤ 32 * blocks.length)
    (sameLength : values.length = fluentVariables.length)
    (packs : packFacts blocks (fluentInfos currentBit fluentVariables) values = some packed) :
    unpackFacts (fluentInfos currentBit fluentVariables) packed = values := by
  induction fluentVariables generalizing currentBit blocks values with
  | nil =>
      obtain rfl := List.length_eq_zero_iff.mp sameLength
      rfl
  | cons numAtoms rest ih =>
      cases values with
      | nil => cases sameLength
      | cons value values =>
          obtain ⟨next, packsRest, nextLength, fit, bits⟩ := packFacts_cons packs inRange
          have inRangeRest : lastBit (currentBit + fieldLength numAtoms) rest ≤ 32 * next.length :=
            nextLength ▸ inRange
          rw [fluentInfos, unpackFacts, List.map_cons]
          refine congrArg₂ List.cons ?_ (ih inRangeRest (Nat.succ.inj sameLength) packsRest)
          apply Bit.readInt_eq (Nat.mod_lt _ (by decide)) (fieldLength_le numAtoms) fit
          intro i inField
          have position : currentBit / 32 * 32 + currentBit % 32 + i = currentBit + i := by omega
          rw [position, bit_packFacts inRangeRest packsRest (Nat.add_lt_add_left inField _), bits,
            if_pos ⟨Nat.le_add_right _ _, Nat.add_lt_add_left inField _⟩, Nat.add_sub_cancel_left]

end

theorem bit_packAtoms {numBits : Nat} (atoms : List Bool) {i : Nat} (inRange : i < numBits) :
    Bit.bit (packAtoms numBits atoms) i = test i atoms := by
  have general : ∀ (positions : List Nat) (blocks : List Bit.Block),
      (∀ pos ∈ positions, pos < 32 * blocks.length) →
      Bit.bit (positions.foldl (fun blocks i => Bit.assignBit blocks i (test i atoms)) blocks) i =
        if i ∈ positions then test i atoms else Bit.bit blocks i := by
    intro positions
    induction positions with
    | nil =>
        intro blocks _
        rfl
    | cons pos rest ih =>
        intro blocks allInRange
        rw [List.foldl_cons, ih _ fun pos mem => by simpa using allInRange pos (List.mem_cons_of_mem _ mem),
          Bit.bit_assignBit (allInRange pos List.mem_cons_self)]
        by_cases inRest : i ∈ rest
        · simp [inRest]
        · by_cases same : i = pos <;> simp [inRest, same]
  rw [packAtoms, general, if_pos (List.mem_range.mpr inRange)]
  intro pos mem
  rw [List.length_replicate]
  exact (List.mem_range.mp mem).trans_le (Bit.le_mul_ceilDiv (by decide) numBits)

theorem test_unpackAtoms_pack {numBits : Nat} {atoms : List Bool} (sameLength : atoms.length = numBits)
    (i : Nat) : test i (unpackAtoms numBits (packAtoms numBits atoms)) = test i atoms := by
  unfold unpackAtoms
  by_cases inRange : i < numBits
  · have value := bit_packAtoms atoms inRange
    rw [test, get, List.getD_eq_getElem _ _ (by simpa using inRange), List.getElem_map,
      List.getElem_range, value]
  · rw [test, get, List.getD_eq_default _ _ (by simpa using inRange), test, get,
      List.getD_eq_default _ _ (by omega)]

/-- The storage of a ground task. -/
def ground (task : GroundTask) : StateStorage where
  Unpacked := GroundState task
  Context := GroundContext
  Packed := PackedState
  initial := ⟨[], [], []⟩
  insert context state :=
    (packFacts (List.replicate (Bit.ceilDiv (lastBit 0 task.fluentVariables) 32) 0#32)
        (fluentInfos 0 task.fluentVariables) state.facts).map fun blocks =>
      let (fluentArraySet, facts) := Interning.insert (· == ·) context.fluentArraySet blocks
      let (derivedArraySet, atoms) := Interning.insert (· == ·) context.derivedArraySet
        (packAtoms task.derivedNumBits state.atoms)
      let (floatVecSet, values) :=
        Interning.insert vectorEqual context.floatVecSet (packValues state.values)
      (⟨fluentArraySet, derivedArraySet, floatVecSet⟩, ⟨facts, atoms, values⟩)
  unpack context packed :=
    { facts := unpackFacts (fluentInfos 0 task.fluentVariables)
        (get packed.facts context.fluentArraySet [])
      atoms := unpackAtoms task.derivedNumBits (get packed.atoms context.derivedArraySet [])
      values := get packed.values context.floatVecSet []
      facts_length := by simp [unpackFacts, length_fluentInfos]
      atoms_length := by simp [unpackAtoms] }
  fluentValue state var := (get var state.facts 0#32).toNat
  derivedAtom state atom := test atom state.atoms
  functionValue state fterm := functionValue state.values fterm

theorem packAtoms_eq_iff {numBits : Nat} {lhs rhs : List Bool} (lengthLhs : lhs.length = numBits)
    (lengthRhs : rhs.length = numBits) :
    packAtoms numBits lhs = packAtoms numBits rhs ↔ ∀ i, test i lhs = test i rhs := by
  constructor
  · intro same i
    rw [← test_unpackAtoms_pack lengthLhs, same, test_unpackAtoms_pack lengthRhs]
  · intro same
    simp only [packAtoms, same]

/-! ### Both storages are lawful -/

theorem get_of_getElem? {α : Type} {vec : List α} {pos : Nat} {x default : α}
    (found : vec[pos]? = some x) : get pos vec default = x := by
  rw [get, List.getD_eq_getElem?_getD, found]
  rfl

theorem toNat_injective {lhs rhs : Bool} (same : lhs.toNat = rhs.toNat) : lhs = rhs := by
  cases lhs <;> cases rhs <;> first | rfl | cases same

theorem PackedState.eq_iff {lhs rhs : PackedState} :
    lhs = rhs ↔ lhs.facts = rhs.facts ∧ lhs.atoms = rhs.atoms ∧ lhs.values = rhs.values := by
  cases lhs
  cases rhs
  simp

/-- The state has no gap: every function term up to the last stored one has a value. -/
def lifted_lawful : lifted.Lawful fun state => HasNoGap state.values where
  Inv context := Interning.Distinct (fun _ => True) context.uintVecSet ∧
    Interning.Distinct HasNoGap context.floatVecSet
  Holds context packed state := context.uintVecSet[packed.facts]? = some (packIndices state.facts) ∧
    context.uintVecSet[packed.atoms]? = some (packIndices state.atoms) ∧
    context.floatVecSet[packed.values]? = some (packValues state.values)
  inv_initial := ⟨Interning.distinct_nil, Interning.distinct_nil⟩
  inv_insert := by
    rintro context _ state _ ⟨uints, floats⟩ ⟨⟩
    exact ⟨(uints.insert .beq).insert .beq, floats.insert vectorEqual_partial⟩
  holds_insert := by
    rintro context _ state _ ⟨uints, floats⟩ ⟨⟩
    refine ⟨?_, Interning.getElem?_insert .beq, Interning.getElem?_insert vectorEqual_partial⟩
    exact Interning.getElem?_insert_of_some (Interning.getElem?_insert .beq)
  holds_mono := by
    rintro context _ state _ packed' state' _ ⟨⟩ ⟨facts, atoms, values⟩
    refine ⟨?_, ?_, Interning.getElem?_insert_of_some values⟩
    · exact Interning.getElem?_insert_of_some (Interning.getElem?_insert_of_some facts)
    · exact Interning.getElem?_insert_of_some (Interning.getElem?_insert_of_some atoms)
  eq_iff := by
    rintro context _ state _ packed' state' ⟨uints, floats⟩ ⟨⟩ ⟨facts, atoms, values⟩
    let withFacts := Interning.insert (· == ·) context.uintVecSet (packIndices state.facts)
    have factsIff : withFacts.2 = packed'.facts ↔ _ := Interning.insert_eq_iff .beq uints facts
    have atomsIff : (Interning.insert (· == ·) withFacts.1 (packIndices state.atoms)).2 =
        packed'.atoms ↔ _ :=
      Interning.insert_eq_iff .beq (uints.insert .beq) (Interning.getElem?_insert_of_some atoms)
    have valuesIff : (Interning.insert vectorEqual context.floatVecSet (packValues state.values)).2 =
        packed'.values ↔ _ := Interning.insert_eq_iff vectorEqual_partial floats values
    rw [packIndices_eq_iff, and_true] at factsIff atomsIff
    rw [packValues_eq_iff] at valuesIff
    refine (PackedState.eq_iff.trans (and_congr (eq_comm.trans factsIff)
      (and_congr (eq_comm.trans atomsIff) (eq_comm.trans valuesIff)))).trans ?_
    constructor
    · rintro ⟨sameFacts, sameAtoms, sameValues, noGap⟩
      exact ⟨⟨fun var => congrArg Bool.toNat (sameFacts var), sameAtoms, sameValues⟩, noGap⟩
    · rintro ⟨same, noGap⟩
      exact ⟨fun var => toNat_injective (same.fluent var), same.derived, same.function, noGap⟩
  restores := by
    rintro context packed state _ ⟨facts, atoms, values⟩
    refine ⟨fun var => ?_, fun atom => ?_, fun fterm => ?_⟩
    · simp only [lifted, get_of_getElem? facts, test_unpack_pack]
    · simp only [lifted, get_of_getElem? atoms, test_unpack_pack]
    · simp only [lifted, get_of_getElem? values, functionValue_packValues]

/-- The packed blocks of the facts of a state. -/
def PacksFacts {task : GroundTask} (state : GroundState task) (blocks : List Bit.Block) : Prop :=
  packFacts (List.replicate (Bit.ceilDiv (lastBit 0 task.fluentVariables) 32) 0#32)
    (fluentInfos 0 task.fluentVariables) state.facts = some blocks

theorem PacksFacts.unpack {task : GroundTask} {state : GroundState task} {blocks : List Bit.Block}
    (packs : PacksFacts state blocks) :
    unpackFacts (fluentInfos 0 task.fluentVariables) blocks = state.facts := by
  refine unpackFacts_pack ?_ state.facts_length packs
  rw [List.length_replicate]
  unfold Bit.ceilDiv
  omega

theorem PacksFacts.eq_iff {task : GroundTask} {lhs rhs : GroundState task}
    {blocks blocks' : List Bit.Block} (packs : PacksFacts lhs blocks) (packs' : PacksFacts rhs blocks') :
    blocks = blocks' ↔
      ∀ var, (ground task).fluentValue lhs var = (ground task).fluentValue rhs var := by
  constructor
  · rintro rfl var
    simp only [ground, ← packs.unpack, ← packs'.unpack]
  · intro same
    have facts : lhs.facts = rhs.facts := by
      apply List.ext_getElem (lhs.facts_length.trans rhs.facts_length.symm)
      intro var inLhs inRhs
      have value := BitVec.eq_of_toNat_eq (same var)
      rwa [get, get, List.getD_eq_getElem _ _ inLhs, List.getD_eq_getElem _ _ inRhs] at value
    rw [PacksFacts, facts] at packs
    exact Option.some.inj (packs.symm.trans packs')

def ground_lawful (task : GroundTask) :
    (ground task).Lawful fun state => HasNoGap state.values where
  Inv context := Interning.Distinct (fun _ => True) context.fluentArraySet ∧
    Interning.Distinct (fun _ => True) context.derivedArraySet ∧
    Interning.Distinct HasNoGap context.floatVecSet
  Holds context packed state := (∃ blocks, PacksFacts state blocks ∧
      context.fluentArraySet[packed.facts]? = some blocks) ∧
    context.derivedArraySet[packed.atoms]? = some (packAtoms task.derivedNumBits state.atoms) ∧
    context.floatVecSet[packed.values]? = some (packValues state.values)
  inv_initial := ⟨Interning.distinct_nil, Interning.distinct_nil, Interning.distinct_nil⟩
  inv_insert := by
    rintro context context' state packed ⟨fluents, derived, floats⟩ inserted
    obtain ⟨blocks, _, ⟨⟩⟩ := Option.map_eq_some_iff.mp inserted
    exact ⟨fluents.insert .beq, derived.insert .beq, floats.insert vectorEqual_partial⟩
  holds_insert := by
    rintro context context' state packed ⟨fluents, derived, floats⟩ inserted
    obtain ⟨blocks, packs, ⟨⟩⟩ := Option.map_eq_some_iff.mp inserted
    exact ⟨⟨blocks, packs, Interning.getElem?_insert .beq⟩, Interning.getElem?_insert .beq,
      Interning.getElem?_insert vectorEqual_partial⟩
  holds_mono := by
    rintro context context' state packed packed' state' _ inserted ⟨⟨blocks', packs', facts⟩, atoms, values⟩
    obtain ⟨blocks, packs, ⟨⟩⟩ := Option.map_eq_some_iff.mp inserted
    exact ⟨⟨blocks', packs', Interning.getElem?_insert_of_some facts⟩,
      Interning.getElem?_insert_of_some atoms, Interning.getElem?_insert_of_some values⟩
  eq_iff := by
    rintro context context' state packed packed' state' ⟨fluents, derived, floats⟩ inserted
      ⟨⟨blocks', packs', facts⟩, atoms, values⟩
    obtain ⟨blocks, packs, ⟨⟩⟩ := Option.map_eq_some_iff.mp inserted
    have factsIff : (Interning.insert (· == ·) context.fluentArraySet blocks).2 = packed'.facts ↔ _ :=
      Interning.insert_eq_iff .beq fluents facts
    have atomsIff : (Interning.insert (· == ·) context.derivedArraySet
        (packAtoms task.derivedNumBits state.atoms)).2 = packed'.atoms ↔ _ :=
      Interning.insert_eq_iff .beq derived atoms
    have valuesIff : (Interning.insert vectorEqual context.floatVecSet (packValues state.values)).2 =
        packed'.values ↔ _ := Interning.insert_eq_iff vectorEqual_partial floats values
    rw [PacksFacts.eq_iff packs' packs, and_true] at factsIff
    rw [packAtoms_eq_iff state'.atoms_length state.atoms_length, and_true] at atomsIff
    rw [packValues_eq_iff] at valuesIff
    refine (PackedState.eq_iff.trans (and_congr (eq_comm.trans factsIff)
      (and_congr (eq_comm.trans atomsIff) (eq_comm.trans valuesIff)))).trans ?_
    constructor
    · rintro ⟨sameFacts, sameAtoms, sameValues, noGap⟩
      exact ⟨⟨sameFacts, sameAtoms, sameValues⟩, noGap⟩
    · rintro ⟨same, noGap⟩
      exact ⟨same.fluent, same.derived, same.function, noGap⟩
  restores := by
    rintro context packed state _ ⟨⟨blocks, packs, facts⟩, atoms, values⟩
    refine ⟨fun var => ?_, fun atom => ?_, fun fterm => ?_⟩
    · simp only [ground, get_of_getElem? facts, packs.unpack]
    · simp only [ground, get_of_getElem? atoms, test_unpackAtoms_pack state.atoms_length]
    · simp only [ground, get_of_getElem? values, functionValue_packValues]

/-! ### Registration -/

inductive Kind where
  | lifted
  | ground (task : GroundTask)

/-- The hash set storage of a kind of task. -/
def storage : Kind → StateStorage
  | .lifted => HashSet.lifted
  | .ground task => HashSet.ground task

/-- The stored values of a state. -/
def values : (kind : Kind) → (storage kind).Unpacked → List Number
  | .lifted => LiftedState.values
  | .ground _ => GroundState.values

def hashSet_lawful : (kind : Kind) → (storage kind).Lawful fun state => HasNoGap (values kind state)
  | .lifted => lifted_lawful
  | .ground task => ground_lawful task

/-- Registration is canonical for a run iff a state that is registered twice has
a value for every function term up to the last one stored. -/
theorem registration_canonical_iff (kind : Kind)
    (axiomEvaluator : Option ((storage kind).Unpacked → (storage kind).Unpacked))
    (states : List (storage kind).Unpacked) :
    StateRepository.Canonical
        (StateRepository.registerAll axiomEvaluator (.create (storage kind)) states).1
        (StateRepository.registerAll axiomEvaluator (.create (storage kind)) states).2 ↔
      (StateRepository.registerAll axiomEvaluator (.create (storage kind)) states).2.Pairwise
        fun first second => (storage kind).SameState first.state second.state →
          HasNoGap (values kind first.state) ∧ HasNoGap (values kind second.state) :=
  StateRepository.canonical_iff (hashSet_lawful kind) axiomEvaluator states

/-- A state in which the second function term has a value and the first one has none. -/
def gapState : LiftedState := ⟨[true], [], [.nan, .finite 1]⟩

/-- A state with a gap gets a new index each time. -/
theorem not_canonical_gapState :
    ¬ StateRepository.Canonical
        (StateRepository.registerAll none (.create (storage .lifted)) [gapState, gapState]).1
        (StateRepository.registerAll none (.create (storage .lifted)) [gapState, gapState]).2 := by
  intro canonical
  have registered : (StateRepository.registerAll none (.create (storage .lifted))
      [gapState, gapState]).2 = [⟨gapState, 0⟩, ⟨gapState, 1⟩] := by
    rfl
  have index := canonical.index
  rw [registered, List.pairwise_cons] at index
  have same := (index.1 _ List.mem_cons_self).mpr ⟨fun _ => rfl, fun _ => rfl, fun _ => rfl⟩
  cases same

end Planning.HashSet

end Tyr
