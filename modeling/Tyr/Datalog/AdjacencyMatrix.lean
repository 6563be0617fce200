import Tyr.Common.BitsetSpan
import Mathlib.Data.List.Infix

/-!
Adjacency matrices of k-partite graphs, with shared bitsets.

An `AdjacencyMatrix` has the bitsets of a vertex, one for each partition, behind one
another. A `DeduplicatedAdjacencyMatrix` stores equal rows once and equal bitsets once,
and an offset, a `uint_t`, for each of them.

* `position_inj` — the bitsets of a matrix share no bit.
* `inv_addRows` — what the offsets denote after any number of rows.
* `getBitset_deduplicate` — the shared bitsets are those of the matrix.
* `deduplicate_wraps` — not so when the offsets do not fit a `uint_t`.
-/

namespace Tyr.Datalog.Adjacency

open Tyr.Lib

/-! ### Layouts -/

structure BitsetInfo where
  bitOffset : Nat
  numBits : Nat
  blockOffset : Nat
  numBlocks : Nat
deriving Inhabited

structure GraphLayout where
  nv : Nat
  k : Nat
  infos : List BitsetInfo
  numBlocks : Nat

/-- The loop of the constructor over the partitions. -/
def bitsetInfos : Nat → Nat → List (List Nat) → List BitsetInfo
  | _, _, [] => []
  | bitOffset, blockOffset, partition :: rest =>
      let partitionBlocks := BitsetSpan.numBlocks 64 partition.length
      ⟨bitOffset, partition.length, blockOffset, partitionBlocks⟩ ::
        bitsetInfos (bitOffset + partition.length) (blockOffset + partitionBlocks) rest

def GraphLayout.create (nv : Nat) (vertexPartitions : List (List Nat)) : GraphLayout where
  nv := nv
  k := vertexPartitions.length
  infos := bitsetInfos 0 0 vertexPartitions
  numBlocks := (vertexPartitions.map fun partition => BitsetSpan.numBlocks 64 partition.length).sum

def GraphLayout.info (layout : GraphLayout) (p : Nat) : BitsetInfo := layout.infos.getD p default

/-- The blocks of the partitions are behind one another. -/
structure GraphLayout.WellFormed (layout : GraphLayout) : Prop where
  numBlocks_eq : ∀ p < layout.k,
    (layout.info p).numBlocks = BitsetSpan.numBlocks 64 (layout.info p).numBits
  inRow : ∀ p < layout.k, (layout.info p).blockOffset + (layout.info p).numBlocks ≤ layout.numBlocks
  behind : ∀ p q, p < q → q < layout.k →
    (layout.info p).blockOffset + (layout.info p).numBlocks ≤ (layout.info q).blockOffset

theorem getD_bitsetInfos (bitOffset blockOffset : Nat) {vertexPartitions : List (List Nat)} {p : Nat}
    (inRange : p < vertexPartitions.length) :
    let info := (bitsetInfos bitOffset blockOffset vertexPartitions).getD p default
    info.numBlocks = BitsetSpan.numBlocks 64 info.numBits ∧ blockOffset ≤ info.blockOffset ∧
      info.blockOffset + info.numBlocks ≤ blockOffset +
        (vertexPartitions.map fun partition => BitsetSpan.numBlocks 64 partition.length).sum ∧
      ∀ q, p < q → q < vertexPartitions.length → info.blockOffset + info.numBlocks ≤
        ((bitsetInfos bitOffset blockOffset vertexPartitions).getD q default).blockOffset := by
  dsimp only
  induction vertexPartitions generalizing bitOffset blockOffset p with
  | nil => exact absurd inRange (Nat.not_lt_zero p)
  | cons partition rest ih =>
      rw [bitsetInfos, List.map_cons, List.sum_cons]
      cases p with
      | zero =>
          refine ⟨rfl, Nat.le_refl _, ?_, ?_⟩
          · simp only [List.getD_cons_zero]
            omega
          · intro q later inRangeQ
            obtain ⟨q, rfl⟩ := Nat.exists_eq_succ_of_ne_zero (Nat.ne_zero_of_lt later)
            exact (ih _ _ (Nat.lt_of_succ_lt_succ inRangeQ)).2.1
      | succ p =>
          obtain ⟨numBlocks_eq, first, last, behind⟩ := ih (bitOffset + partition.length)
            (blockOffset + BitsetSpan.numBlocks 64 partition.length) (Nat.lt_of_succ_lt_succ inRange)
          simp only [List.getD_cons_succ]
          refine ⟨numBlocks_eq, by omega, by omega, ?_⟩
          intro q later inRangeQ
          obtain ⟨q, rfl⟩ := Nat.exists_eq_succ_of_ne_zero (Nat.ne_zero_of_lt later)
          exact behind q (Nat.lt_of_succ_lt_succ later) (Nat.lt_of_succ_lt_succ inRangeQ)

theorem wellFormed_create (nv : Nat) (vertexPartitions : List (List Nat)) :
    (GraphLayout.create nv vertexPartitions).WellFormed where
  numBlocks_eq p inRange := (getD_bitsetInfos 0 0 inRange).1
  inRow p inRange := by
    have last := (getD_bitsetInfos 0 0 inRange).2.2.1
    rwa [Nat.zero_add] at last
  behind p q less inRange :=
    (getD_bitsetInfos 0 0 (less.trans inRange)).2.2.2 q less inRange

/-! ### Adjacency matrices -/

/-- The span at an offset of the data. -/
def spanAt (data : List (BitVec 64)) (start numBits : Nat) : BitsetSpan 64 :=
  ⟨(data.drop start).take (BitsetSpan.numBlocks 64 numBits), numBits⟩

structure AdjacencyMatrix (layout : GraphLayout) where
  bitsetData : List (BitVec 64)
  length_eq : bitsetData.length = layout.nv * layout.k * layout.numBlocks

variable {layout : GraphLayout}

def AdjacencyMatrix.getRow (m : AdjacencyMatrix layout) (v : Nat) : List (BitVec 64) :=
  (m.bitsetData.drop (layout.numBlocks * v)).take layout.numBlocks

def AdjacencyMatrix.getBitset (m : AdjacencyMatrix layout) (v p : Nat) : BitsetSpan 64 :=
  spanAt m.bitsetData (layout.numBlocks * v + (layout.info p).blockOffset) (layout.info p).numBits

/-- The place of a bit in the data. -/
def position (layout : GraphLayout) (v p b : Nat) : Nat :=
  (layout.numBlocks * v + (layout.info p).blockOffset) * 64 + b

section

variable {v v' p p' b b' : Nat}

/-- The blocks of a partition have room for its bits. -/
theorem GraphLayout.WellFormed.bit_lt (wf : layout.WellFormed) (inRange : p < layout.k)
    (inBitset : b < (layout.info p).numBits) : b < (layout.info p).numBlocks * 64 := by
  rw [wf.numBlocks_eq p inRange]
  exact inBitset.trans_le (BitsetSpan.le_numBlocks_mul (by decide) _)

/-- Different bitsets share no bit. -/
theorem position_inj (wf : layout.WellFormed) (inRange : p < layout.k) (inRange' : p' < layout.k)
    (inBitset : b < (layout.info p).numBits) (inBitset' : b' < (layout.info p').numBits)
    (same : position layout v p b = position layout v' p' b') : v = v' ∧ p = p' ∧ b = b' := by
  have room := wf.bit_lt inRange inBitset
  have room' := wf.bit_lt inRange' inBitset'
  have inRow := wf.inRow p inRange
  have inRow' := wf.inRow p' inRange'
  unfold position at same
  have rows : v = v' := by
    rcases Nat.lt_trichotomy v v' with before | rfl | after
    · have ends := Nat.mul_le_mul_left layout.numBlocks (Nat.succ_le_of_lt before)
      rw [Nat.mul_succ] at ends
      omega
    · rfl
    · have ends := Nat.mul_le_mul_left layout.numBlocks (Nat.succ_le_of_lt after)
      rw [Nat.mul_succ] at ends
      omega
  subst rows
  rcases Nat.lt_trichotomy p p' with before | rfl | after
  · have behind := wf.behind p p' before inRange'
    omega
  · exact ⟨rfl, rfl, by omega⟩
  · have behind := wf.behind p' p after inRange
    omega

/-- The rows are in the data. -/
theorem AdjacencyMatrix.row_le (m : AdjacencyMatrix layout) (vertex : v < layout.nv)
    (inRange : p < layout.k) :
    layout.numBlocks * v + layout.numBlocks ≤ m.bitsetData.length := by
  have rows := Nat.mul_le_mul_left layout.numBlocks (Nat.succ_le_of_lt vertex)
  have cells := Nat.mul_le_mul_left (layout.numBlocks * layout.nv) (Nat.succ_le_of_lt
    (Nat.zero_lt_of_lt inRange))
  rw [m.length_eq, Nat.mul_comm (layout.nv * layout.k), ← Nat.mul_assoc]
  rw [Nat.mul_succ] at rows cells
  omega

/-- Every bit is in the data. -/
theorem position_lt (wf : layout.WellFormed) (m : AdjacencyMatrix layout) (vertex : v < layout.nv)
    (inRange : p < layout.k) (inBitset : b < (layout.info p).numBits) :
    position layout v p b < m.bitsetData.length * 64 := by
  have room := wf.bit_lt inRange inBitset
  have inRow := wf.inRow p inRange
  have row := m.row_le vertex inRange
  unfold position
  omega

theorem bit_spanAt (data : List (BitVec 64)) (start : Nat) {numBits : Nat} (inBitset : b < numBits) :
    (spanAt data start numBits).bit b = Bit.bit data (start * 64 + b) := by
  have inBlocks : b / 64 < BitsetSpan.numBlocks 64 numBits := by
    have room := BitsetSpan.le_numBlocks_mul (w := 64) (by decide) numBits
    omega
  have block : (start * 64 + b) / 64 = start + b / 64 := by omega
  have offset : (start * 64 + b) % 64 = b % 64 := by omega
  rw [BitsetSpan.bit, Bit.bit, Bit.bit, block, offset, Bit.block, Bit.block, spanAt,
    List.getD_eq_getElem?_getD, List.getD_eq_getElem?_getD, List.getElem?_take_of_lt inBlocks,
    List.getElem?_drop]

/-- A bit of a bitset of a matrix. -/
theorem AdjacencyMatrix.bit_getBitset (m : AdjacencyMatrix layout)
    (inBitset : b < (layout.info p).numBits) :
    (m.getBitset v p).bit b = Bit.bit m.bitsetData (position layout v p b) :=
  bit_spanAt _ _ inBitset

/-- A bitset is a part of its row. -/
theorem AdjacencyMatrix.getBitset_eq (m : AdjacencyMatrix layout) (wf : layout.WellFormed)
    (inRange : p < layout.k) (v : Nat) : m.getBitset v p =
      spanAt (m.getRow v) (layout.info p).blockOffset (layout.info p).numBits := by
  have inRow := wf.inRow p inRange
  have blocks := wf.numBlocks_eq p inRange
  rw [getBitset, getRow, spanAt, spanAt, List.drop_take, List.take_take, List.drop_drop,
    Nat.min_eq_left (by omega)]

theorem AdjacencyMatrix.length_getBitset (m : AdjacencyMatrix layout) (wf : layout.WellFormed)
    (vertex : v < layout.nv) (inRange : p < layout.k) :
    (m.getBitset v p).data.length = BitsetSpan.numBlocks 64 (m.getBitset v p).numBits := by
  have inRow := wf.inRow p inRange
  have blocks := wf.numBlocks_eq p inRange
  have row := m.row_le vertex inRange
  simp only [getBitset, spanAt, List.length_take, List.length_drop]
  omega

end

/-! ### Deduplicated matrices -/

/-- The state of the constructor: the two maps and the data built so far. -/
structure Deduplicated where
  rowToOffset : List (List (BitVec 64) × Nat)
  partitionToOffset : List (BitsetSpan 64 × Nat)
  rowOffset : List Nat
  rowData : List Nat
  bitsetData : List (BitVec 64)

/-- One iteration of the loop over the partitions: a bitset that is not known is stored, under
the size of the data as its offset. -/
def addPartition (m : AdjacencyMatrix layout) (v : Nat) (state : Deduplicated) (k : Nat) :
    Deduplicated :=
  let b := m.getBitset v k
  match state.partitionToOffset.lookup b with
  | some offset => { state with rowData := state.rowData ++ [offset] }
  | none =>
      let offset := state.bitsetData.length % 2 ^ 32
      { state with
        partitionToOffset := state.partitionToOffset ++ [(b, offset)]
        rowData := state.rowData ++ [offset]
        bitsetData := state.bitsetData ++ b.data }

/-- One iteration of the loop over the vertices: a row that is not known is built. -/
def addRow (m : AdjacencyMatrix layout) (state : Deduplicated) (v : Nat) : Deduplicated :=
  let row := m.getRow v
  match state.rowToOffset.lookup row with
  | some offset => { state with rowOffset := state.rowOffset ++ [offset] }
  | none =>
      let offset := state.rowData.length % 2 ^ 32
      (List.range layout.k).foldl (addPartition m v)
        { state with
          rowToOffset := state.rowToOffset ++ [(row, offset)]
          rowOffset := state.rowOffset ++ [offset] }

/-- The matrix after a number of vertices. -/
def addRows (m : AdjacencyMatrix layout) (n : Nat) : Deduplicated :=
  (List.range n).foldl (addRow m) ⟨[], [], [], [], []⟩

/-- `DeduplicatedAdjacencyMatrix(m)`. -/
def deduplicate (m : AdjacencyMatrix layout) : Deduplicated := addRows m layout.nv

/-- `get_bitset`; the index into the row data is a `uint_t`. -/
def Deduplicated.getBitset (layout : GraphLayout) (state : Deduplicated) (v p : Nat) :
    BitsetSpan 64 :=
  let start := state.rowData.getD ((state.rowOffset.getD v 0 + p) % 2 ^ 32) 0
  spanAt state.bitsetData start (layout.info p).numBits

/-! ### Growing data -/

/-- The data is only appended to. -/
structure Deduplicated.Grows (state next : Deduplicated) : Prop where
  rowOffset : state.rowOffset <+: next.rowOffset
  rowData : state.rowData <+: next.rowData
  bitsetData : state.bitsetData <+: next.bitsetData

theorem Deduplicated.Grows.refl (state : Deduplicated) : state.Grows state :=
  ⟨List.prefix_refl _, List.prefix_refl _, List.prefix_refl _⟩

theorem Deduplicated.Grows.trans {state next last : Deduplicated} (grows : state.Grows next)
    (grows' : next.Grows last) : state.Grows last :=
  ⟨grows.rowOffset.trans grows'.rowOffset, grows.rowData.trans grows'.rowData,
    grows.bitsetData.trans grows'.bitsetData⟩

theorem grows_addPartition (m : AdjacencyMatrix layout) (v : Nat) (state : Deduplicated) (k : Nat) :
    state.Grows (addPartition m v state k) := by
  unfold addPartition
  dsimp only
  cases state.partitionToOffset.lookup (m.getBitset v k) with
  | some offset => exact ⟨List.prefix_refl _, List.prefix_append _ _, List.prefix_refl _⟩
  | none => exact ⟨List.prefix_refl _, List.prefix_append _ _, List.prefix_append _ _⟩

theorem grows_addPartitions (m : AdjacencyMatrix layout) (v : Nat) (ks : List Nat)
    (state : Deduplicated) : state.Grows (ks.foldl (addPartition m v) state) :=
  foldl_invariant (P := state.Grows)
    (fun _ grows k _ => grows.trans (grows_addPartition m v _ k)) (.refl state)

theorem grows_addRow (m : AdjacencyMatrix layout) (state : Deduplicated) (v : Nat) :
    state.Grows (addRow m state v) := by
  unfold addRow
  dsimp only
  cases state.rowToOffset.lookup (m.getRow v) with
  | some offset => exact ⟨List.prefix_append _ _, List.prefix_refl _, List.prefix_refl _⟩
  | none =>
      have grows := grows_addPartitions m v (List.range layout.k)
        { state with
          rowToOffset := state.rowToOffset ++ [(m.getRow v, state.rowData.length % 2 ^ 32)]
          rowOffset := state.rowOffset ++ [state.rowData.length % 2 ^ 32] }
      exact ⟨(List.prefix_append _ _).trans grows.rowOffset, grows.rowData, grows.bitsetData⟩

/-- The span is stored at an offset. -/
def Deduplicated.Stores (state : Deduplicated) (offset : Nat) (b : BitsetSpan 64) : Prop :=
  spanAt state.bitsetData offset b.numBits = b

/-- The bitsets of a vertex are stored at an offset of the row data. -/
def Deduplicated.StoresRow (m : AdjacencyMatrix layout) (state : Deduplicated) (offset v : Nat) :
    Prop :=
  ∀ p < layout.k, ∃ start, state.rowData[offset + p]? = some start ∧
    state.Stores start (m.getBitset v p)

/-- What is stored stays where it is. -/
theorem Deduplicated.Grows.stores {state next : Deduplicated} (grows : state.Grows next) {offset : Nat}
    {b : BitsetSpan 64} (blocks : b.data.length = BitsetSpan.numBlocks 64 b.numBits)
    (stores : state.Stores offset b) : next.Stores offset b := by
  obtain ⟨rest, appended⟩ := grows.bitsetData
  have length := congrArg (fun span => span.data.length) stores
  simp only [spanAt, List.length_take, List.length_drop, blocks] at length
  refine Eq.trans ?_ stores
  rw [spanAt, spanAt, ← appended]
  by_cases empty : BitsetSpan.numBlocks 64 b.numBits = 0
  · simp only [empty, List.take_zero]
  · rw [List.drop_append_of_le_length (by omega), List.take_append_of_le_length]
    rw [List.length_drop]
    omega

theorem Deduplicated.Grows.storesRow {m : AdjacencyMatrix layout} {state next : Deduplicated}
    {offset v : Nat} (grows : state.Grows next) (wf : layout.WellFormed) (vertex : v < layout.nv)
    (stores : state.StoresRow m offset v) : next.StoresRow m offset v := by
  intro p inRange
  obtain ⟨start, found, stored⟩ := stores p inRange
  obtain ⟨rest, appended⟩ := grows.rowData
  refine ⟨start, ?_, grows.stores (m.length_getBitset wf vertex inRange) stored⟩
  rw [← appended, List.getElem?_append_left (List.getElem?_eq_some_iff.mp found).1, found]

/-- A span that is appended is stored, while the offset fits. -/
theorem stores_append {state : Deduplicated} {b : BitsetSpan 64}
    (blocks : b.data.length = BitsetSpan.numBlocks 64 b.numBits)
    (room : (state.bitsetData ++ b.data).length ≤ 2 ^ 32) :
    spanAt (state.bitsetData ++ b.data) (state.bitsetData.length % 2 ^ 32) b.numBits = b := by
  obtain ⟨data, numBits⟩ := b
  dsimp only at blocks room ⊢
  rw [spanAt]
  congr 1
  rw [List.length_append] at room
  by_cases empty : BitsetSpan.numBlocks 64 numBits = 0
  · rw [empty] at blocks ⊢
    rw [List.take_zero, List.length_eq_zero_iff.mp blocks]
  · rw [Nat.mod_eq_of_lt (by omega), List.drop_left, ← blocks, List.take_length]

/-! ### Every row is stored -/

section

variable {m : AdjacencyMatrix layout} {state base : Deduplicated} {v j n : Nat}

/-- The bitsets that are known are stored. -/
def PartitionKeys (state : Deduplicated) : Prop :=
  ∀ b offset, state.partitionToOffset.lookup b = some offset →
    b.data.length = BitsetSpan.numBlocks 64 b.numBits ∧ state.Stores offset b

/-- The first `j` bitsets of a row were added. -/
structure Building (m : AdjacencyMatrix layout) (v : Nat) (base state : Deduplicated) (j : Nat) :
    Prop where
  grows : base.Grows state
  rowToOffset_eq : state.rowToOffset = base.rowToOffset
  rowOffset_eq : state.rowOffset = base.rowOffset
  length_eq : state.rowData.length = base.rowData.length + j
  entries : ∀ p < j, ∃ start, state.rowData[base.rowData.length + p]? = some start ∧
    state.Stores start (m.getBitset v p)
  partitionKeys : PartitionKeys state

theorem Building.step (building : Building m v base state j) (wf : layout.WellFormed)
    (vertex : v < layout.nv) (inRange : j < layout.k)
    (room : (addPartition m v state j).bitsetData.length ≤ 2 ^ 32) :
    Building m v base (addPartition m v state j) (j + 1) := by
  have grows := grows_addPartition m v state j
  have blocks {p : Nat} := m.length_getBitset (p := p) wf vertex
  -- The entries before stay, and the new one is behind them.
  have entries : ∀ start, (addPartition m v state j).rowData = state.rowData ++ [start] →
      (addPartition m v state j).Stores start (m.getBitset v j) →
      ∀ p < j + 1, ∃ start, (addPartition m v state j).rowData[base.rowData.length + p]? =
        some start ∧ (addPartition m v state j).Stores start (m.getBitset v p) := by
    intro start appended stored p less
    rcases Nat.lt_succ_iff_lt_or_eq.mp less with old | rfl
    · obtain ⟨start', found, stored'⟩ := building.entries p old
      refine ⟨start', ?_, grows.stores (blocks (old.trans inRange)) stored'⟩
      rw [appended, List.getElem?_append_left (List.getElem?_eq_some_iff.mp found).1, found]
    · refine ⟨start, ?_, stored⟩
      rw [appended, ← building.length_eq, List.getElem?_concat_length]
  have keys : ∀ b offset, state.partitionToOffset.lookup b = some offset →
      b.data.length = BitsetSpan.numBlocks 64 b.numBits ∧
        (addPartition m v state j).Stores offset b := by
    intro b offset found
    obtain ⟨length_eq, stored⟩ := building.partitionKeys b offset found
    exact ⟨length_eq, grows.stores length_eq stored⟩
  cases known : state.partitionToOffset.lookup (m.getBitset v j) with
  | some offset =>
      have next : addPartition m v state j = { state with rowData := state.rowData ++ [offset] } := by
        rw [addPartition]
        simp only [known]
      have stored := (keys _ offset known).2
      refine ⟨building.grows.trans grows, ?_, ?_, ?_, entries offset (by rw [next]) stored, ?_⟩
      · rw [next, building.rowToOffset_eq]
      · rw [next, building.rowOffset_eq]
      · rw [next, List.length_append, List.length_singleton, building.length_eq, Nat.add_assoc]
      · intro b offset' found
        rw [next] at found
        exact keys b offset' found
  | none =>
      let offset := state.bitsetData.length % 2 ^ 32
      have next : addPartition m v state j =
          { state with
            partitionToOffset := state.partitionToOffset ++ [(m.getBitset v j, offset)]
            rowData := state.rowData ++ [offset]
            bitsetData := state.bitsetData ++ (m.getBitset v j).data } := by
        rw [addPartition]
        simp only [known]
        rfl
      have stored : (addPartition m v state j).Stores offset (m.getBitset v j) := by
        rw [next] at room ⊢
        exact stores_append (blocks inRange) room
      refine ⟨building.grows.trans grows, ?_, ?_, ?_, entries offset (by rw [next]) stored, ?_⟩
      · rw [next, building.rowToOffset_eq]
      · rw [next, building.rowOffset_eq]
      · rw [next, List.length_append, List.length_singleton, building.length_eq, Nat.add_assoc]
      · intro b offset' found
        have lookup : (addPartition m v state j).partitionToOffset.lookup b =
            (state.partitionToOffset.lookup b).or ([(m.getBitset v j, offset)].lookup b) := by
          rw [next, List.lookup_append]
        rw [lookup] at found
        cases old : state.partitionToOffset.lookup b with
        | some offset'' =>
            rw [old] at found
            cases found
            exact keys b _ old
        | none =>
            rw [old, Option.none_or, List.lookup_cons] at found
            by_cases same : b = m.getBitset v j
            · subst same
              simp only [BEq.rfl] at found
              cases found
              exact ⟨blocks inRange, stored⟩
            · rw [beq_false_of_ne same] at found
              cases found

theorem building_addPartitions (base : Deduplicated) (wf : layout.WellFormed) (vertex : v < layout.nv)
    (partitionKeys : PartitionKeys base) (le : j ≤ layout.k)
    (room : ((List.range j).foldl (addPartition m v) base).bitsetData.length ≤ 2 ^ 32) :
    Building m v base ((List.range j).foldl (addPartition m v) base) j := by
  induction j with
  | zero => exact ⟨.refl base, rfl, rfl, rfl, fun p less => absurd less (Nat.not_lt_zero p), partitionKeys⟩
  | succ j ih =>
      rw [List.range_succ, List.foldl_append] at room ⊢
      have before := (grows_addPartition m v
        ((List.range j).foldl (addPartition m v) base) j).bitsetData.length_le.trans room
      exact (ih (Nat.le_of_succ_le le) before).step wf vertex le room

/-- The first `n` rows were added. -/
structure Inv (m : AdjacencyMatrix layout) (state : Deduplicated) (n : Nat) : Prop where
  length_eq : state.rowOffset.length = n
  rows : ∀ v < n, ∃ offset, state.rowOffset[v]? = some offset ∧ state.StoresRow m offset v
  rowKeys : ∀ row offset, state.rowToOffset.lookup row = some offset →
    ∃ v < n, m.getRow v = row ∧ state.StoresRow m offset v
  partitionKeys : PartitionKeys state

/-- Equal rows have equal bitsets. -/
theorem Deduplicated.StoresRow.of_row_eq {offset v' : Nat} (stores : state.StoresRow m offset v)
    (wf : layout.WellFormed) (same : m.getRow v = m.getRow v') : state.StoresRow m offset v' := by
  intro p inRange
  obtain ⟨start, found, stored⟩ := stores p inRange
  rw [m.getBitset_eq wf inRange, same, ← m.getBitset_eq wf inRange] at stored
  exact ⟨start, found, stored⟩

/-- The invariant after another row, whose offset was appended. -/
theorem Inv.concat {next : Deduplicated} {offset : Nat} (inv : Inv m state n) (wf : layout.WellFormed)
    (vertex : n < layout.nv) (grows : state.Grows next)
    (rowOffset_eq : next.rowOffset = state.rowOffset ++ [offset])
    (stores : next.StoresRow m offset n)
    (rowKeys : ∀ row offset', next.rowToOffset.lookup row = some offset' →
      state.rowToOffset.lookup row = some offset' ∨ row = m.getRow n ∧ offset' = offset)
    (partitionKeys : PartitionKeys next) : Inv m next (n + 1) := by
  have old : ∀ {offset v}, v < n → state.StoresRow m offset v → next.StoresRow m offset v :=
    fun less stored => grows.storesRow wf (less.trans vertex) stored
  refine ⟨?_, ?_, ?_, partitionKeys⟩
  · rw [rowOffset_eq, List.length_append, List.length_singleton, inv.length_eq]
  · intro v less
    rw [rowOffset_eq]
    rcases Nat.lt_succ_iff_lt_or_eq.mp less with before | rfl
    · obtain ⟨offset', found, stored⟩ := inv.rows v before
      refine ⟨offset', ?_, old before stored⟩
      rw [List.getElem?_append_left (List.getElem?_eq_some_iff.mp found).1, found]
    · refine ⟨offset, ?_, stores⟩
      rw [← inv.length_eq, List.getElem?_concat_length]
  · intro row offset' found
    rcases rowKeys row offset' found with known | ⟨rfl, rfl⟩
    · obtain ⟨v, before, same, stored⟩ := inv.rowKeys row offset' known
      exact ⟨v, before.trans (Nat.lt_succ_self n), same, old before stored⟩
    · exact ⟨n, Nat.lt_succ_self n, rfl, stores⟩

theorem Inv.step (inv : Inv m state n) (wf : layout.WellFormed) (vertex : n < layout.nv)
    (rowRoom : (addRow m state n).rowData.length ≤ 2 ^ 32)
    (room : (addRow m state n).bitsetData.length ≤ 2 ^ 32) : Inv m (addRow m state n) (n + 1) := by
  have grows := grows_addRow m state n
  cases known : state.rowToOffset.lookup (m.getRow n) with
  | some offset =>
      have next : addRow m state n = { state with rowOffset := state.rowOffset ++ [offset] } := by
        rw [addRow]
        simp only [known]
      rw [next] at grows ⊢
      obtain ⟨v, before, same, stored⟩ := inv.rowKeys _ offset known
      have stores := (grows.storesRow wf (before.trans vertex) stored).of_row_eq wf same
      exact inv.concat wf vertex grows rfl stores (fun row offset' found => .inl found)
        inv.partitionKeys
  | none =>
      let offset := state.rowData.length % 2 ^ 32
      let base : Deduplicated :=
        { state with
          rowToOffset := state.rowToOffset ++ [(m.getRow n, offset)]
          rowOffset := state.rowOffset ++ [offset] }
      have next : addRow m state n = (List.range layout.k).foldl (addPartition m n) base := by
        rw [addRow]
        simp only [known]
        rfl
      rw [next] at grows rowRoom room ⊢
      have building := building_addPartitions base wf vertex inv.partitionKeys
        (Nat.le_refl _) room
      have stores : Deduplicated.StoresRow m ((List.range layout.k).foldl (addPartition m n) base)
          offset n := by
        intro p inRange
        have small : offset = state.rowData.length := by
          have length_eq : _ = state.rowData.length + layout.k := building.length_eq
          exact Nat.mod_eq_of_lt (by omega)
        rw [small]
        exact building.entries p inRange
      refine inv.concat wf vertex grows building.rowOffset_eq stores ?_ building.partitionKeys
      intro row offset' found
      rw [building.rowToOffset_eq, List.lookup_append, List.lookup_cons, List.lookup_nil] at found
      cases old : state.rowToOffset.lookup row with
      | some offset'' =>
          rw [old] at found
          cases found
          exact .inl rfl
      | none =>
          rw [old, Option.none_or] at found
          by_cases same : row = m.getRow n
          · simp only [same, BEq.rfl] at found
            cases found
            exact .inr ⟨same, rfl⟩
          · rw [beq_false_of_ne same] at found
            cases found

theorem addRows_succ (m : AdjacencyMatrix layout) (n : Nat) :
    addRows m (n + 1) = addRow m (addRows m n) n := by
  rw [addRows, List.range_succ, List.foldl_append]
  rfl

theorem inv_addRows (wf : layout.WellFormed) (le : n ≤ layout.nv)
    (rowRoom : (addRows m n).rowData.length ≤ 2 ^ 32)
    (room : (addRows m n).bitsetData.length ≤ 2 ^ 32) : Inv m (addRows m n) n := by
  induction n with
  | zero =>
      refine ⟨rfl, fun v less => absurd less (Nat.not_lt_zero v), ?_, ?_⟩
      · intro row offset found
        cases found
      · intro b offset found
        cases found
  | succ n ih =>
      rw [addRows_succ] at rowRoom room ⊢
      have grows := grows_addRow m (addRows m n) n
      exact (ih (Nat.le_of_succ_le le) (grows.rowData.length_le.trans rowRoom)
        (grows.bitsetData.length_le.trans room)).step wf le rowRoom room

theorem Inv.getBitset_eq (inv : Inv m state n) (rowRoom : state.rowData.length ≤ 2 ^ 32)
    (less : v < n) {p : Nat} (inRange : p < layout.k) :
    state.getBitset layout v p = m.getBitset v p := by
  obtain ⟨offset, found, stored⟩ := inv.rows v less
  obtain ⟨start, foundStart, storedBitset⟩ := stored p inRange
  have small : offset + p < 2 ^ 32 := (List.getElem?_eq_some_iff.mp foundStart).1.trans_le rowRoom
  unfold Deduplicated.getBitset
  rw [List.getD_eq_getElem?_getD, List.getD_eq_getElem?_getD, found, Option.getD_some,
    Nat.mod_eq_of_lt small, foundStart, Option.getD_some]
  exact storedBitset

/-- The bitsets of a deduplicated matrix are those of the matrix, while the offsets fit a
`uint_t`. Different bitsets of a matrix share no bit. -/
theorem getBitset_deduplicate {nv : Nat} {vertexPartitions : List (List Nat)}
    (m : AdjacencyMatrix (GraphLayout.create nv vertexPartitions)) :
    ((deduplicate m).rowData.length ≤ 2 ^ 32 → (deduplicate m).bitsetData.length ≤ 2 ^ 32 →
      ∀ v < nv, ∀ p < vertexPartitions.length,
        (deduplicate m).getBitset (GraphLayout.create nv vertexPartitions) v p = m.getBitset v p) ∧
    (∀ v < nv, ∀ p < vertexPartitions.length,
      ∀ b < ((GraphLayout.create nv vertexPartitions).info p).numBits,
        (m.getBitset v p).bit b =
          Bit.bit m.bitsetData (position (GraphLayout.create nv vertexPartitions) v p b) ∧
        position (GraphLayout.create nv vertexPartitions) v p b < m.bitsetData.length * 64) ∧
    ∀ v v' p p' b b', p < vertexPartitions.length → p' < vertexPartitions.length →
      b < ((GraphLayout.create nv vertexPartitions).info p).numBits →
      b' < ((GraphLayout.create nv vertexPartitions).info p').numBits →
      position (GraphLayout.create nv vertexPartitions) v p b =
        position (GraphLayout.create nv vertexPartitions) v' p' b' → v = v' ∧ p = p' ∧ b = b' := by
  have wf := wellFormed_create nv vertexPartitions
  refine ⟨?_, ?_, ?_⟩
  · intro rowRoom room v vertex p inRange
    exact (inv_addRows wf (Nat.le_refl nv) rowRoom room).getBitset_eq rowRoom vertex inRange
  · intro v vertex p inRange b inBitset
    exact ⟨m.bit_getBitset inBitset, position_lt wf m vertex inRange inBitset⟩
  · intro v v' p p' b b' inRange inRange' inBitset inBitset' same
    exact position_inj wf inRange inRange' inBitset inBitset' same

/-- Two vertices with an empty partition between them: `numBlocks` is 2. -/
def pairMatrix : AdjacencyMatrix (GraphLayout.create 2 [[0], [], [1]]) :=
  ⟨[0#64, 1#64, 0#64, 1#64, 0#64, 0#64, 1#64, 0#64, 0#64, 0#64, 0#64, 0#64], rfl⟩

theorem getBitset_deduplicate_pairMatrix :
    (deduplicate pairMatrix).rowOffset = [0, 0] ∧ (deduplicate pairMatrix).rowData = [0, 1, 1] ∧
      (deduplicate pairMatrix).getBitset (GraphLayout.create 2 [[0], [], [1]]) 1 2 =
        pairMatrix.getBitset 1 2 :=
  ⟨by decide, by decide,
    (getBitset_deduplicate pairMatrix).1 (by decide) (by decide) 1 (by decide) 2 (by decide)⟩

/-! ### More entries than offsets -/

/-- The loop over the partitions has one entry for each, and the two maps of the rows stay. -/
theorem frame_addPartitions (wf : layout.WellFormed) (v : Nat) (ks : List Nat)
    (inRange : ∀ k ∈ ks, k < layout.k) (state : Deduplicated) :
    (ks.foldl (addPartition m v) state).rowData.length = state.rowData.length + ks.length ∧
      (ks.foldl (addPartition m v) state).rowToOffset = state.rowToOffset ∧
      (ks.foldl (addPartition m v) state).rowOffset = state.rowOffset ∧
      (ks.foldl (addPartition m v) state).bitsetData.length ≤
        state.bitsetData.length + ks.length * layout.numBlocks := by
  induction ks generalizing state with
  | nil => simp
  | cons k ks ih =>
      have kInRange := inRange k List.mem_cons_self
      have blocks : (m.getBitset v k).data.length ≤ layout.numBlocks := by
        have inRow := wf.inRow k kInRange
        have numBlocks_eq := wf.numBlocks_eq k kInRange
        simp only [AdjacencyMatrix.getBitset, spanAt, List.length_take]
        omega
      have first : (addPartition m v state k).rowData.length = state.rowData.length + 1 ∧
          (addPartition m v state k).rowToOffset = state.rowToOffset ∧
          (addPartition m v state k).rowOffset = state.rowOffset ∧
          (addPartition m v state k).bitsetData.length ≤
            state.bitsetData.length + layout.numBlocks := by
        unfold addPartition
        dsimp only
        cases state.partitionToOffset.lookup (m.getBitset v k) with
        | some offset => simp
        | none => simpa using blocks
      obtain ⟨rowData, rowToOffset, rowOffset, bitsetData⟩ :=
        ih (fun later mem => inRange later (List.mem_cons_of_mem k mem)) (addPartition m v state k)
      obtain ⟨rowData', rowToOffset', rowOffset', bitsetData'⟩ := first
      rw [List.foldl_cons, List.length_cons, Nat.succ_mul]
      exact ⟨by omega, rowToOffset.trans rowToOffset', rowOffset.trans rowOffset', by omega⟩

/-- A row that is not known gets the size of the row data, as a `uint_t`, as its offset. -/
theorem frame_addRow (wf : layout.WellFormed) {v : Nat}
    (unknown : state.rowToOffset.lookup (m.getRow v) = none) :
    (addRow m state v).rowData.length = state.rowData.length + layout.k ∧
      (addRow m state v).rowToOffset =
        state.rowToOffset ++ [(m.getRow v, state.rowData.length % 2 ^ 32)] ∧
      (addRow m state v).rowOffset = state.rowOffset ++ [state.rowData.length % 2 ^ 32] ∧
      (addRow m state v).bitsetData.length ≤
        state.bitsetData.length + layout.k * layout.numBlocks := by
  have frame := frame_addPartitions (m := m) wf v (List.range layout.k)
    (fun k mem => List.mem_range.mp mem)
    { state with
      rowToOffset := state.rowToOffset ++ [(m.getRow v, state.rowData.length % 2 ^ 32)]
      rowOffset := state.rowOffset ++ [state.rowData.length % 2 ^ 32] }
  rw [List.length_range] at frame
  rw [addRow]
  simp only [unknown]
  exact frame

/-- A row that differs from those before is not known. -/
theorem lookup_eq_none_of_distinct
    (keys : ∀ row offset, state.rowToOffset.lookup row = some offset → ∃ v < n, m.getRow v = row)
    (distinct : ∀ u v, u < n + 1 → v < n + 1 → m.getRow u = m.getRow v → u = v) :
    state.rowToOffset.lookup (m.getRow n) = none := by
  rw [Option.eq_none_iff_forall_ne_some]
  intro offset found
  obtain ⟨v, less, same⟩ := keys _ offset found
  exact less.ne (distinct v n (Nat.lt_succ_of_lt less) (Nat.lt_succ_self n) same)

/-- While the rows differ, each of them is built. -/
theorem addRows_distinct (wf : layout.WellFormed)
    (distinct : ∀ u v, u < n → v < n → m.getRow u = m.getRow v → u = v) :
    (addRows m n).rowData.length = n * layout.k ∧ (addRows m n).rowOffset.length = n ∧
      ∀ row offset, (addRows m n).rowToOffset.lookup row = some offset →
        ∃ v < n, m.getRow v = row := by
  induction n with
  | zero =>
      refine ⟨(Nat.zero_mul _).symm, rfl, ?_⟩
      intro row offset found
      cases found
  | succ n ih =>
      obtain ⟨rowData, rowOffset, keys⟩ := ih fun u v uLt vLt =>
        distinct u v (Nat.lt_succ_of_lt uLt) (Nat.lt_succ_of_lt vLt)
      obtain ⟨rowData', rowToOffset', rowOffset', _⟩ :=
        frame_addRow wf (lookup_eq_none_of_distinct keys distinct)
      rw [addRows_succ]
      refine ⟨?_, ?_, ?_⟩
      · rw [rowData', rowData, Nat.succ_mul]
      · rw [rowOffset', List.length_append, rowOffset, List.length_singleton]
      · intro row offset found
        rw [rowToOffset', List.lookup_append, List.lookup_cons, List.lookup_nil] at found
        cases old : (addRows m n).rowToOffset.lookup row with
        | some offset' =>
            obtain ⟨v, less, same⟩ := keys row offset' old
            exact ⟨v, Nat.lt_succ_of_lt less, same⟩
        | none =>
            rw [old, Option.none_or] at found
            by_cases same : row = m.getRow n
            · exact ⟨n, Nat.lt_succ_self n, same.symm⟩
            · rw [beq_false_of_ne same] at found
              cases found

/-- The offset of a row that differs from those before. -/
theorem rowOffset_distinct (wf : layout.WellFormed)
    (distinct : ∀ u v, u < n + 1 → v < n + 1 → m.getRow u = m.getRow v → u = v) :
    (addRows m (n + 1)).rowOffset[n]? = some (n * layout.k % 2 ^ 32) := by
  obtain ⟨rowData, rowOffset, keys⟩ := addRows_distinct (n := n) wf fun u v uLt vLt =>
    distinct u v (Nat.lt_succ_of_lt uLt) (Nat.lt_succ_of_lt vLt)
  rw [addRows_succ, (frame_addRow wf (lookup_eq_none_of_distinct keys distinct)).2.2.1,
    List.getElem?_append_right rowOffset.le, rowOffset, Nat.sub_self, rowData]
  rfl

theorem grows_addRows (m : AdjacencyMatrix layout) {i : Nat} (le : i ≤ n) :
    (addRows m i).Grows (addRows m n) := by
  induction le with
  | refl => exact .refl _
  | step _ ih => exact ih.trans ((addRows_succ m _) ▸ grows_addRow m _ _)

/-- The row whose offset is a multiple of 2 ^ 32 is taken for the first one. -/
theorem getBitset_wraps (wf : layout.WellFormed) (vertex : 0 < layout.nv)
    (distinct : ∀ u v, u < n + 1 → v < n + 1 → m.getRow u = m.getRow v → u = v)
    (wraps : n * layout.k % 2 ^ 32 = 0) (rowRoom : layout.k ≤ 2 ^ 32)
    (room : layout.k * layout.numBlocks ≤ 2 ^ 32) {p : Nat} (inRange : p < layout.k) :
    (addRows m (n + 1)).getBitset layout n p = m.getBitset 0 p := by
  have unknown : (⟨[], [], [], [], []⟩ : Deduplicated).rowToOffset.lookup (m.getRow 0) = none := rfl
  have first := frame_addRow wf unknown
  have inv : Inv m (addRows m 1) 1 := by
    apply inv_addRows wf vertex
    · exact first.1.le.trans (by simpa using rowRoom)
    · exact first.2.2.2.trans (by simpa using room)
  obtain ⟨offset, found, stored⟩ := inv.rows 0 Nat.one_pos
  have zero : (addRows m 1).rowOffset = [0] := first.2.2.1
  rw [zero] at found
  cases found
  obtain ⟨start, foundStart, storedBitset⟩ :=
    ((grows_addRows m (Nat.succ_le_succ (Nat.zero_le n))).storesRow wf vertex stored) p inRange
  rw [Nat.zero_add] at foundStart
  unfold Deduplicated.getBitset
  rw [List.getD_eq_getElem?_getD, List.getD_eq_getElem?_getD, rowOffset_distinct wf distinct, wraps,
    Option.getD_some, Nat.zero_add, Nat.mod_eq_of_lt (inRange.trans_le rowRoom), foundStart,
    Option.getD_some]
  exact storedBitset

end

/-- One partition of 65 vertices and some empty ones. -/
def widePartitions (n : Nat) : List (List Nat) := List.range 65 :: List.replicate n []

def wideLayout (n : Nat) : GraphLayout := GraphLayout.create 65 (widePartitions n)

/-- Every vertex is adjacent to itself. -/
def wideCell (i : Nat) : BitVec 64 :=
  if i / 2 / 64 = i % 2 then BitVec.twoPow 64 (i / 2 % 64) else 0#64

theorem k_wideLayout (n : Nat) : (wideLayout n).k = n + 1 := by
  simp [wideLayout, GraphLayout.create, widePartitions]

theorem numBlocks_wideLayout (n : Nat) : (wideLayout n).numBlocks = 2 := by
  simp [wideLayout, GraphLayout.create, widePartitions, BitsetSpan.numBlocks]

theorem info_wideLayout (n : Nat) : (wideLayout n).info 0 = ⟨0, 65, 0, 2⟩ := rfl

theorem length_wide (n : Nat) : ((List.range (65 * (n + 1) * 2)).map wideCell).length =
    (wideLayout n).nv * (wideLayout n).k * (wideLayout n).numBlocks := by
  rw [List.length_map, List.length_range, k_wideLayout, numBlocks_wideLayout]
  rfl

def wideMatrix (n : Nat) : AdjacencyMatrix (wideLayout n) :=
  ⟨(List.range (65 * (n + 1) * 2)).map wideCell, length_wide n⟩

theorem bit_wideMatrix (n : Nat) {v b : Nat} (vertex : v < 65) (bit : b < 65) :
    ((wideMatrix n).getBitset v 0).bit b = decide (b = v) := by
  have place : position (wideLayout n) v 0 b = 128 * v + b := by
    have start : ((wideLayout n).info 0).blockOffset = 0 := rfl
    rw [position, numBlocks_wideLayout, start]
    omega
  have cell : (wideMatrix n).bitsetData[(128 * v + b) / 64]? = some (wideCell (2 * v + b / 64)) := by
    have index : (128 * v + b) / 64 = 2 * v + b / 64 := by omega
    have inRange : 2 * v + b / 64 < 65 * (n + 1) * 2 := by omega
    rw [index, wideMatrix, List.getElem?_map, List.getElem?_range inRange, Option.map_some]
  have half : (2 * v + b / 64) / 2 = v := by omega
  have parity : (2 * v + b / 64) % 2 = b / 64 := by omega
  have offset : (128 * v + b) % 64 = b % 64 := by omega
  rw [AdjacencyMatrix.bit_getBitset _ (by rw [info_wideLayout]; exact bit), place, Bit.bit, Bit.block,
    List.getD_eq_getElem?_getD, cell, Option.getD_some, offset, wideCell, half, parity]
  by_cases same : v / 64 = b / 64
  · rw [if_pos same, BitVec.getLsbD_twoPow, decide_eq_true (Nat.mod_lt v (by decide)),
      Bool.true_and]
    exact decide_eq_decide.mpr (by omega)
  · rw [if_neg same, BitVec.getLsbD_zero]
    exact (decide_eq_false (by omega)).symm

/-- When the row data of 64 rows has 2 ^ 32 entries, the row of vertex 64 is taken for that of
vertex 0. -/
theorem getBitset_wideMatrix {n : Nat} (wraps : 64 * (n + 1) % 2 ^ 32 = 0)
    (room : (n + 1) * 2 ≤ 2 ^ 32) :
    (deduplicate (wideMatrix n)).getBitset (wideLayout n) 64 0 ≠ (wideMatrix n).getBitset 64 0 := by
  have wf : (wideLayout n).WellFormed := wellFormed_create _ _
  have distinct : ∀ u v, u < 64 + 1 → v < 64 + 1 →
      (wideMatrix n).getRow u = (wideMatrix n).getRow v → u = v := by
    intro u v uLt vLt same
    have inRange : 0 < (wideLayout n).k := by simp [k_wideLayout]
    have bits : ((wideMatrix n).getBitset u 0).bit u = ((wideMatrix n).getBitset v 0).bit u := by
      rw [AdjacencyMatrix.getBitset_eq _ wf inRange, AdjacencyMatrix.getBitset_eq _ wf inRange, same]
    rw [bit_wideMatrix n uLt uLt, bit_wideMatrix n vLt uLt] at bits
    simpa using bits
  have first := getBitset_wraps (p := 0) wf (by decide : 0 < 65) distinct
    (by rw [k_wideLayout]; exact wraps) (by rw [k_wideLayout]; omega)
    (by rw [k_wideLayout, numBlocks_wideLayout]; exact room) (by simp [k_wideLayout])
  intro same
  have bits : ((wideMatrix n).getBitset 0 0).bit 0 = ((wideMatrix n).getBitset 64 0).bit 0 :=
    congrArg (fun span => span.bit 0) (first.symm.trans same)
  rw [bit_wideMatrix n (by decide) (by decide), bit_wideMatrix n (by decide) (by decide)] at bits
  exact absurd bits (by decide)

/-- With 2 ^ 26 partitions the shared bitsets are not those of the matrix. -/
theorem deduplicate_wraps :
    ¬ ∀ (nv : Nat) (vertexPartitions : List (List Nat))
      (m : AdjacencyMatrix (GraphLayout.create nv vertexPartitions)),
      ∀ v < nv, ∀ p < vertexPartitions.length,
        (deduplicate m).getBitset (GraphLayout.create nv vertexPartitions) v p =
          m.getBitset v p := by
  intro claim
  have fits : ∀ n, 64 * (n + 1) % 2 ^ 32 = 0 → ¬ (n + 1) * 2 ≤ 2 ^ 32 := fun n wraps room =>
    getBitset_wideMatrix wraps room
      (claim 65 (widePartitions n) (wideMatrix n) 64 (by decide) 0 (Nat.succ_pos _))
  exact fits (2 ^ 26 - 1) (by simp) (by simp)

end Tyr.Datalog.Adjacency
