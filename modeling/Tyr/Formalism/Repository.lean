import Tyr.Lib.LayeredInterning
import Mathlib.Data.List.Infix
import Mathlib.Logic.Function.Basic
import Mathlib.Logic.Relation

/-!
Layered repositories.

A repository stores the data of each type of symbol, compared by their identifying
members, and for each relation the rows of objects of its bindings. A child looks up in
its parent what it does not have and continues its numbering; a parent is not extended
any more. Slots of relations are created when the first binding is inserted.

* `Repository` — a chain of layers, its own layer first.
* `Repository.getOrCreate`, `Repository.getOrCreateRow`, `Repository.branch`.
* `Repository.interns_uniquely` — contents and indices correspond, in all layers and
  after any further calls.
-/

namespace Tyr.Formalism

open Tyr.Lib

/-- The types of symbols and relations of a repository. Symbols are compared by their
identifying members; the comparison is partial, as the one of floating point numbers. -/
structure Schema where
  Symbol : Type
  Relation : Type
  Members : Symbol → Type
  Others : Symbol → Type
  equalTo : ∀ t, Members t → Members t → Bool
  Proper : ∀ t, Members t → Prop
  equalTo_partial : ∀ t, PartialEquality (equalTo t) (Proper t)
  decidableSymbol : DecidableEq Symbol
  decidableRelation : DecidableEq Relation

instance Schema.instSymbol (S : Schema) : DecidableEq S.Symbol := S.decidableSymbol
instance Schema.instRelation (S : Schema) : DecidableEq S.Relation := S.decidableRelation

/-- A symbol before it is stored. -/
structure Builder (S : Schema) (t : S.Symbol) where
  members : S.Members t
  others : S.Others t

/-- A stored symbol. -/
structure Data (S : Schema) (t : S.Symbol) extends Builder S t where
  index : Nat

/-- `BasicSymbolRepository::Slot`. -/
structure SymbolSlot (S : Schema) (t : S.Symbol) where
  container : List (Data S t)
  parentSize : Nat

/-- `BasicRelationRepository::Slot`. -/
structure RelationSlot where
  container : List (List Nat)
  parentSize : Nat

/-- The slots of one repository; those of the relations are found by the index of the
relation. -/
structure RepositoryLayer (S : Schema) where
  symbols : ∀ t, SymbolSlot S t
  relations : S.Relation → Nat → Option RelationSlot

/-- A repository and its ancestors. -/
structure Repository (S : Schema) where
  layer : RepositoryLayer S
  parents : List (RepositoryLayer S)

variable {S : Schema}

/-! ### Symbols -/

namespace SymbolSlot

variable {t : S.Symbol} (slot : SymbolSlot S t)

/-- `IndexedHashSet::find`. -/
def position (members : S.Members t) : Option Nat :=
  slot.container.findIdx? fun data => S.equalTo t members data.members

def findLocal (members : S.Members t) : Option Nat :=
  (slot.position members).map (slot.parentSize + ·)

/-- The slot, the index and whether the symbol is new. -/
def getOrCreateLocal (builder : Builder S t) : SymbolSlot S t × Nat × Bool :=
  match slot.position builder.members with
  | some position => (slot, slot.parentSize + position, false)
  | none =>
      ({ slot with container := slot.container ++ [⟨builder, slot.parentSize + slot.container.length⟩] },
        slot.parentSize + slot.container.length, true)

def isLocal (index : Nat) : Bool := slot.parentSize ≤ index

def atLocal (index : Nat) : Option (Data S t) := slot.container[index - slot.parentSize]?

def size : Nat := slot.parentSize + slot.container.length

end SymbolSlot

namespace Repository

/-- The layers, the own one first. -/
def chain (repo : Repository S) : List (RepositoryLayer S) := repo.layer :: repo.parents

section

variable (t : S.Symbol)

/-- The loop of `find` over the layers. -/
def findIn (members : S.Members t) : List (RepositoryLayer S) → Option Nat
  | [] => none
  | layer :: parents =>
      match (layer.symbols t).findLocal members with
      | some index => some index
      | none => findIn members parents

def find (repo : Repository S) (members : S.Members t) : Option Nat := findIn t members repo.chain

/-- The loop of `operator[]` over the layers. -/
def getIn (index : Nat) : List (RepositoryLayer S) → Option (Data S t)
  | [] => none
  | layer :: parents =>
      if (layer.symbols t).isLocal index then (layer.symbols t).atLocal index
      else getIn index parents

/-- `operator[]`. -/
def get (repo : Repository S) (index : Nat) : Option (Data S t) := getIn t index repo.chain

def size (repo : Repository S) : Nat := (repo.layer.symbols t).size

/-- The repository, the index and whether the symbol is new. -/
def getOrCreate (repo : Repository S) (builder : Builder S t) : Repository S × Nat × Bool :=
  match repo.find t builder.members with
  | some index => (repo, index, false)
  | none =>
      let (slot, index, success) := (repo.layer.symbols t).getOrCreateLocal builder
      ({ repo with layer.symbols := Function.update repo.layer.symbols t slot }, index, success)

end

/-! ### Bindings -/

section

variable (r : S.Relation) (g : Nat)

/-- `BasicRelationRepository::size`. -/
def sizeIn : List (RepositoryLayer S) → Nat
  | [] => 0
  | layer :: parents =>
      match layer.relations r g with
      | none => sizeIn parents
      | some slot => slot.parentSize + slot.container.length

def rowSize (repo : Repository S) : Nat := sizeIn r g repo.chain

/-- The loop of `find` over the layers. -/
def findRowIn (objects : List Nat) : List (RepositoryLayer S) → Option Nat
  | [] => none
  | layer :: parents =>
      match layer.relations r g with
      | none => findRowIn objects parents
      | some slot =>
          match Interning.find (· == ·) slot.container objects with
          | some position => some (slot.parentSize + position)
          | none => findRowIn objects parents

def findRow (repo : Repository S) (objects : List Nat) : Option Nat :=
  findRowIn r g objects repo.chain

/-- The loop of `operator[]` over the layers. -/
def getRowIn (row : Nat) : List (RepositoryLayer S) → Option (List Nat)
  | [] => none
  | layer :: parents =>
      match layer.relations r g with
      | none => getRowIn row parents
      | some slot =>
          if slot.parentSize ≤ row then slot.container[row - slot.parentSize]?
          else getRowIn row parents

/-- `operator[]`. -/
def getRow (repo : Repository S) (row : Nat) : Option (List Nat) := getRowIn r g row repo.chain

/-- `get_or_create_slot`. -/
def getOrCreateSlot (repo : Repository S) : RelationSlot :=
  (repo.layer.relations r g).getD ⟨[], sizeIn r g repo.parents⟩

/-- The repository, the row and whether the binding is new. -/
def getOrCreateRow (repo : Repository S) (objects : List Nat) : Repository S × Nat × Bool :=
  match repo.findRow r g objects with
  | some row => (repo, row, false)
  | none =>
      let slot := repo.getOrCreateSlot r g
      let inserted := Interning.insert (· == ·) slot.container objects
      ({ repo with
          layer.relations := Function.update repo.layer.relations r (Function.update
            (repo.layer.relations r) g (some { slot with container := inserted.1 })) },
        slot.parentSize + inserted.2, true)

end

/-! ### Layers -/

/-- The number of symbols of the chain. -/
def symbolSizeIn (t : S.Symbol) : List (RepositoryLayer S) → Nat
  | [] => 0
  | layer :: _ => (layer.symbols t).size

/-- A layer without symbols and bindings. -/
def emptyLayer (parents : List (RepositoryLayer S)) : RepositoryLayer S where
  symbols t := ⟨[], symbolSizeIn t parents⟩
  relations _ _ := none

def root (S : Schema) : Repository S := ⟨emptyLayer [], []⟩

/-- A child. -/
def branch (repo : Repository S) : Repository S := ⟨emptyLayer repo.chain, repo.chain⟩

/-- `clear`: the slots of relations stay. -/
def clear (repo : Repository S) : Repository S where
  layer :=
    { symbols := fun t => ⟨[], symbolSizeIn t repo.parents⟩
      relations := fun r g => (repo.layer.relations r g).map fun _ => ⟨[], sizeIn r g repo.parents⟩ }
  parents := repo.parents

/-! ### Symbols as layers of contents -/

section

variable (t : S.Symbol)

/-- The contents of a layer. -/
def content (layer : RepositoryLayer S) : LayeredInterning.Layer (S.Members t) :=
  ⟨(layer.symbols t).parentSize, (layer.symbols t).container.map fun data => data.members⟩

/-- The contents of the layers. -/
def contents (layers : List (RepositoryLayer S)) : List (LayeredInterning.Layer (S.Members t)) :=
  layers.map (content t)

variable {t} {layers parents : List (RepositoryLayer S)} {layer : RepositoryLayer S}
  {repo : Repository S} {builder : Builder S t}

theorem contents_cons : contents t (layer :: parents) = content t layer :: contents t parents := rfl

theorem position_eq (slot : SymbolSlot S t) (members : S.Members t) : slot.position members =
    Interning.find (S.equalTo t) (slot.container.map fun data => data.members) members := by
  rw [Interning.find, List.findIdx?_map]
  rfl

theorem findIn_eq (members : S.Members t) :
    findIn t members layers = LayeredInterning.find (S.equalTo t) (contents t layers) members := by
  induction layers with
  | nil => rfl
  | cons layer parents ih =>
      rw [findIn, SymbolSlot.findLocal, position_eq, contents_cons, LayeredInterning.find, content]
      cases Interning.find (S.equalTo t) ((layer.symbols t).container.map fun data => data.members)
          members with
      | some index => rfl
      | none => exact ih

theorem getIn_eq (index : Nat) : (getIn t index layers).map (fun data => data.members) =
    LayeredInterning.at? (contents t layers) index := by
  induction layers with
  | nil => rfl
  | cons layer parents ih =>
      rw [getIn, contents_cons, LayeredInterning.at?, content]
      by_cases isLocal : (layer.symbols t).parentSize ≤ index
      · rw [SymbolSlot.isLocal, decide_eq_true isLocal, if_pos rfl, if_pos isLocal,
          SymbolSlot.atLocal, List.getElem?_map]
      · rw [SymbolSlot.isLocal, decide_eq_false isLocal, if_neg Bool.false_ne_true, if_neg isLocal]
        exact ih

theorem symbolSizeIn_eq : symbolSizeIn t layers = LayeredInterning.size (contents t layers) := by
  cases layers with
  | nil => rfl
  | cons layer parents =>
      rw [contents_cons, LayeredInterning.size, content, List.length_map]
      rfl

/-- The symbols of a chain: the layers continue each other's numbering, no content is
stored twice, and the data carry their indices. -/
structure SymbolInvariant (t : S.Symbol) (layers : List (RepositoryLayer S)) : Prop where
  aligned : LayeredInterning.Aligned (contents t layers)
  distinct : Interning.Distinct (S.Proper t) (LayeredInterning.visible (contents t layers))
  numbered : ∀ index data, getIn t index layers = some data → data.index = index

namespace SymbolInvariant

theorem parentSize_eq (invariant : SymbolInvariant t (layer :: parents)) :
    (layer.symbols t).parentSize = (LayeredInterning.visible (contents t parents)).length := by
  have aligned := invariant.aligned
  rw [contents_cons] at aligned
  exact aligned.parentSize_eq

/-- Below its offset a layer sees what its parent sees. -/
theorem getIn_below (invariant : SymbolInvariant t (layer :: parents)) {index : Nat}
    (below : index < (LayeredInterning.visible (contents t parents)).length) :
    getIn t index (layer :: parents) = getIn t index parents := by
  have start := invariant.parentSize_eq
  have notLocal : ¬ (layer.symbols t).parentSize ≤ index := by omega
  rw [getIn, SymbolSlot.isLocal, decide_eq_false notLocal, if_neg Bool.false_ne_true]

theorem tail (invariant : SymbolInvariant t (layer :: parents)) : SymbolInvariant t parents where
  aligned := invariant.aligned.2
  distinct := invariant.distinct.of_isPrefix (List.prefix_append _ _)
  numbered index data found := by
    have aligned : LayeredInterning.Aligned (contents t parents) := invariant.aligned.2
    have inRange : index < (LayeredInterning.visible (contents t parents)).length := by
      have atIndex : (getIn t index parents).map _ = _ := getIn_eq index
      rw [found, LayeredInterning.at?_eq aligned] at atIndex
      exact (List.getElem?_eq_some_iff.mp atIndex.symm).1
    apply invariant.numbered index data
    rw [invariant.getIn_below inRange, found]

/-- A layer without symbols that starts at the size of the chain. -/
theorem emptySlot (invariant : SymbolInvariant t layers)
    (isEmpty : layer.symbols t = ⟨[], symbolSizeIn t layers⟩) : SymbolInvariant t (layer :: layers) := by
  have sameContent : content t layer = ⟨LayeredInterning.size (contents t layers), []⟩ := by
    rw [content, isEmpty, symbolSizeIn_eq]
    rfl
  refine ⟨?_, ?_, ?_⟩
  · rw [contents_cons, sameContent]
    exact invariant.aligned.branch
  · rw [contents_cons, sameContent, LayeredInterning.visible, List.append_nil]
    exact invariant.distinct
  · intro index data found
    rw [getIn, isEmpty] at found
    split at found
    · cases found
    · exact invariant.numbered index data found

end SymbolInvariant

/-! ### One call on symbols -/

/-- What `get_or_create` does to the chain of its type. -/
theorem getOrCreate_contents (repo : Repository S) (builder : Builder S t) :
    LayeredInterning.insert (S.equalTo t) (content t repo.layer) (contents t repo.parents)
        builder.members =
      (contents t (repo.getOrCreate t builder).1.chain, (repo.getOrCreate t builder).2.1) := by
  have lookup : repo.find t builder.members = LayeredInterning.find (S.equalTo t)
      (content t repo.layer :: contents t repo.parents) builder.members := findIn_eq _
  unfold getOrCreate LayeredInterning.insert
  rw [← lookup]
  cases found : repo.find t builder.members with
  | some index => rfl
  | none =>
      have missing : (repo.layer.symbols t).position builder.members = none := by
        cases isLocal : (repo.layer.symbols t).position builder.members with
        | some position =>
            rw [find, chain, findIn, SymbolSlot.findLocal, isLocal] at found
            cases found
        | none => rfl
      simp [SymbolSlot.getOrCreateLocal, missing, contents, content, chain]

/-- Other types are not changed. -/
theorem getOrCreate_other {other : S.Symbol} (different : other ≠ t) (repo : Repository S)
    (builder : Builder S t) :
    contents other (repo.getOrCreate t builder).1.chain = contents other repo.chain ∧
      ∀ index, getIn other index (repo.getOrCreate t builder).1.chain = getIn other index repo.chain := by
  unfold getOrCreate
  cases repo.find t builder.members with
  | some index => exact ⟨rfl, fun _ => rfl⟩
  | none =>
      simp only [contents, content, chain, List.map_cons, getIn, Function.update_of_ne different,
        and_self, implies_true]

/-- A symbol that is found changes nothing. -/
theorem getOrCreate_known {index : Nat} (known : repo.find t builder.members = some index) :
    repo.getOrCreate t builder = (repo, index, false) := by
  rw [getOrCreate, known]

/-- The slot after a symbol that is not found. -/
theorem getOrCreate_slot (missing : repo.find t builder.members = none) :
    (repo.getOrCreate t builder).1.parents = repo.parents ∧
      (repo.getOrCreate t builder).1.layer.symbols t =
        ⟨(repo.layer.symbols t).container ++ [⟨builder, repo.size t⟩],
          (repo.layer.symbols t).parentSize⟩ ∧
      (repo.getOrCreate t builder).2 = (repo.size t, true) := by
  have notHere : (repo.layer.symbols t).position builder.members = none := by
    cases isLocal : (repo.layer.symbols t).position builder.members with
    | some position =>
        rw [find, chain, findIn, SymbolSlot.findLocal, isLocal] at missing
        cases missing
    | none => rfl
  simp [getOrCreate, missing, SymbolSlot.getOrCreateLocal, notHere, size, SymbolSlot.size]

theorem getIn_cons (index : Nat) : getIn t index (layer :: parents) =
    if (layer.symbols t).parentSize ≤ index then
      (layer.symbols t).container[index - (layer.symbols t).parentSize]?
    else getIn t index parents := by
  simp [getIn, SymbolSlot.isLocal, SymbolSlot.atLocal]

/-- A child has no symbols of its own. -/
theorem get_of_branch {index : Nat} {data : Data S t} (found : repo.branch.get t index = some data) :
    repo.get t index = some data := by
  rw [get, chain, getIn_cons] at found
  split at found
  · cases found
  · exact found

theorem get_root (index : Nat) : (root S).get t index = none := by
  rw [get, chain, getIn_cons]
  split <;> rfl

/-- A symbol that is not found is stored at the end. -/
theorem get_getOrCreate_new (missing : repo.find t builder.members = none) (index : Nat) :
    (repo.getOrCreate t builder).1.get t index =
      if index = repo.size t then some ⟨builder, index⟩ else repo.get t index := by
  obtain ⟨sameParents, slot, _⟩ := getOrCreate_slot missing
  rw [get, chain, getIn_cons, slot, sameParents, get, chain, getIn_cons]
  dsimp only
  have numbered : repo.size t =
      (repo.layer.symbols t).parentSize + (repo.layer.symbols t).container.length := rfl
  by_cases isLocal : (repo.layer.symbols t).parentSize ≤ index
  · rw [if_pos isLocal, if_pos isLocal]
    rcases Nat.lt_trichotomy index (repo.size t) with old | isNew | beyond
    · rw [if_neg (by omega), List.getElem?_append_left (by omega)]
    · rw [if_pos isNew, List.getElem?_append_right (by omega), ← isNew]
      have last : index - (repo.layer.symbols t).parentSize -
          (repo.layer.symbols t).container.length = 0 := by omega
      rw [last]
      rfl
    · rw [if_neg (by omega), List.getElem?_eq_none (by simp; omega),
        List.getElem?_eq_none (by omega)]
  · rw [if_neg isLocal, if_neg isLocal, if_neg (by omega)]

theorem SymbolInvariant.getOrCreate (invariant : SymbolInvariant t repo.chain)
    (builder : Builder S t) : SymbolInvariant t (repo.getOrCreate t builder).1.chain := by
  have same := getOrCreate_contents repo builder
  have aligned : LayeredInterning.Aligned (content t repo.layer :: contents t repo.parents) :=
    invariant.aligned
  refine ⟨?_, ?_, ?_⟩
  · rw [← (Prod.mk.inj same).1]
    exact aligned.insert
  · rw [← (Prod.mk.inj same).1]
    exact LayeredInterning.distinct_insert (S.equalTo_partial t) aligned invariant.distinct _
  · intro index data found
    cases known : repo.find t builder.members with
    | some other =>
        rw [getOrCreate_known known] at found
        exact invariant.numbered index data found
    | none =>
        change (repo.getOrCreate t builder).1.get t index = some data at found
        rw [get_getOrCreate_new known] at found
        split at found
        · obtain rfl := Option.some.inj found
          rfl
        · exact invariant.numbered index data found

end

/-! ### Bindings as layers of rows -/

section

variable (r : S.Relation) (g : Nat)

/-- The rows of a layer; without a slot there are none yet. -/
def rowLayer (parents : List (RepositoryLayer S)) (layer : RepositoryLayer S) :
    LayeredInterning.Layer (List Nat) :=
  match layer.relations r g with
  | none => ⟨sizeIn r g parents, []⟩
  | some slot => ⟨slot.parentSize, slot.container⟩

/-- The rows of the layers. -/
def rows : List (RepositoryLayer S) → List (LayeredInterning.Layer (List Nat))
  | [] => []
  | layer :: parents => rowLayer r g parents layer :: rows parents

variable {r g} {layers parents : List (RepositoryLayer S)} {layer : RepositoryLayer S}
  {repo : Repository S}

theorem sizeIn_eq : sizeIn r g layers = LayeredInterning.size (rows r g layers) := by
  cases layers with
  | nil => rfl
  | cons layer parents =>
      rw [sizeIn, rows, LayeredInterning.size, rowLayer]
      cases layer.relations r g <;> rfl

theorem findRowIn_eq (objects : List Nat) : findRowIn r g objects layers =
    LayeredInterning.find (· == ·) (rows r g layers) objects := by
  induction layers with
  | nil => rfl
  | cons layer parents ih =>
      rw [findRowIn, rows, LayeredInterning.find, rowLayer]
      cases layer.relations r g with
      | none => exact ih
      | some slot =>
          dsimp only
          cases Interning.find (· == ·) slot.container objects with
          | some position => rfl
          | none => exact ih

theorem getRowIn_eq (aligned : LayeredInterning.Aligned (rows r g layers)) (row : Nat) :
    getRowIn r g row layers = LayeredInterning.at? (rows r g layers) row := by
  induction layers with
  | nil => rfl
  | cons layer parents ih =>
      have below := ih aligned.2
      rw [getRowIn, rows, LayeredInterning.at?, rowLayer]
      cases layer.relations r g with
      | some slot =>
          dsimp only
          rw [below]
      | none =>
          dsimp only
          rw [below]
          split
          · next beyond =>
              rw [sizeIn_eq, LayeredInterning.Aligned.size_eq aligned.2] at beyond
              rw [LayeredInterning.at?_eq aligned.2, List.getElem?_eq_none beyond]
              rfl
          · rfl

/-- The rows of a chain: the layers continue each other's numbering, and no row is stored
twice. -/
structure RowInvariant (r : S.Relation) (g : Nat) (layers : List (RepositoryLayer S)) : Prop where
  aligned : LayeredInterning.Aligned (rows r g layers)
  distinct : Interning.Distinct (fun _ => True) (LayeredInterning.visible (rows r g layers))

namespace RowInvariant

theorem tail (invariant : RowInvariant r g (layer :: parents)) : RowInvariant r g parents where
  aligned := invariant.aligned.2
  distinct := invariant.distinct.of_isPrefix (List.prefix_append _ _)

/-- A layer without rows that starts at the size of the chain. -/
theorem emptySlot (invariant : RowInvariant r g layers)
    (slots : ∀ slot, layer.relations r g = some slot → slot = ⟨[], sizeIn r g layers⟩) :
    RowInvariant r g (layer :: layers) := by
  have isEmpty : rowLayer r g layers layer = ⟨sizeIn r g layers, []⟩ := by
    unfold rowLayer
    cases found : layer.relations r g with
    | none => rfl
    | some slot =>
        rw [slots slot found]
  refine ⟨?_, ?_⟩
  · rw [rows, isEmpty, sizeIn_eq]
    exact invariant.aligned.branch
  · rw [rows, isEmpty, LayeredInterning.visible, List.append_nil]
    exact invariant.distinct

end RowInvariant

/-! ### One call on bindings -/

/-- What `get_or_create` does to the chain of its relation. -/
theorem getOrCreateRow_rows (repo : Repository S) (objects : List Nat) :
    LayeredInterning.insert (· == ·) (rowLayer r g repo.parents repo.layer) (rows r g repo.parents)
        objects =
      (rows r g (repo.getOrCreateRow r g objects).1.chain, (repo.getOrCreateRow r g objects).2.1) := by
  have lookup : repo.findRow r g objects = LayeredInterning.find (· == ·)
      (rowLayer r g repo.parents repo.layer :: rows r g repo.parents) objects := findRowIn_eq objects
  unfold getOrCreateRow LayeredInterning.insert
  rw [← lookup]
  cases found : repo.findRow r g objects with
  | some row => rfl
  | none =>
      have slotLayer : rowLayer r g repo.parents repo.layer =
          ⟨(repo.getOrCreateSlot r g).parentSize, (repo.getOrCreateSlot r g).container⟩ := by
        unfold rowLayer getOrCreateSlot
        cases repo.layer.relations r g <;> rfl
      have notHere : Interning.find (· == ·) (repo.getOrCreateSlot r g).container objects = none := by
        rw [lookup, slotLayer, LayeredInterning.find] at found
        cases isLocal : Interning.find (· == ·) (repo.getOrCreateSlot r g).container objects with
        | some position =>
            dsimp only at found
            rw [isLocal] at found
            cases found
        | none => rfl
      rw [slotLayer]
      simp [Interning.insert, notHere, rows, rowLayer, chain]

/-- Other relations are not changed. -/
theorem getOrCreateRow_other {r' : S.Relation} {g' : Nat} (different : r' ≠ r ∨ g' ≠ g)
    (repo : Repository S) (objects : List Nat) :
    rows r' g' (repo.getOrCreateRow r g objects).1.chain = rows r' g' repo.chain := by
  unfold getOrCreateRow
  cases repo.findRow r g objects with
  | some row => rfl
  | none =>
      have same : Function.update repo.layer.relations r (Function.update (repo.layer.relations r) g
          (some { repo.getOrCreateSlot r g with
            container := (Interning.insert (· == ·) (repo.getOrCreateSlot r g).container objects).1 }))
          r' g' = repo.layer.relations r' g' := by
        by_cases sameRelation : r' = r
        · subst sameRelation
          rw [Function.update_self, Function.update_of_ne (different.resolve_left fun no => no rfl)]
        · rw [Function.update_of_ne sameRelation]
      simp only [chain, rows, rowLayer, same]

theorem rows_getOrCreate (repo : Repository S) {t : S.Symbol} (builder : Builder S t) :
    rows r g (repo.getOrCreate t builder).1.chain = rows r g repo.chain := by
  unfold getOrCreate
  cases repo.find t builder.members <;> rfl

theorem contents_getOrCreateRow {t : S.Symbol} (repo : Repository S) (r : S.Relation) (g : Nat)
    (objects : List Nat) :
    contents t (repo.getOrCreateRow r g objects).1.chain = contents t repo.chain ∧
      ∀ index, getIn t index (repo.getOrCreateRow r g objects).1.chain = getIn t index repo.chain := by
  unfold getOrCreateRow
  cases repo.findRow r g objects with
  | some row => exact ⟨rfl, fun _ => rfl⟩
  | none => exact ⟨rfl, fun _ => rfl⟩

theorem RowInvariant.getOrCreateRow (invariant : RowInvariant r g repo.chain) (objects : List Nat) :
    RowInvariant r g (repo.getOrCreateRow r g objects).1.chain := by
  have same := getOrCreateRow_rows (r := r) (g := g) repo objects
  have aligned : LayeredInterning.Aligned
      (rowLayer r g repo.parents repo.layer :: rows r g repo.parents) := invariant.aligned
  refine ⟨?_, ?_⟩
  · rw [← (Prod.mk.inj same).1]
    exact aligned.insert
  · rw [← (Prod.mk.inj same).1]
    exact LayeredInterning.distinct_insert PartialEquality.beq aligned invariant.distinct _

end

/-! ### Runs -/

/-- A call of `get_or_create`, or a child. After that its parent is not extended. -/
inductive Step (repo : Repository S) : Repository S → Prop where
  | symbol (t : S.Symbol) (builder : Builder S t) : Step repo (repo.getOrCreate t builder).1
  | binding (r : S.Relation) (g : Nat) (objects : List Nat) :
      Step repo (repo.getOrCreateRow r g objects).1
  | branch : Step repo repo.branch

inductive Reachable : Repository S → Prop where
  | root : Reachable (root S)
  | step {repo repo' : Repository S} : Reachable repo → Step repo repo' → Reachable repo'
  | clear {repo : Repository S} : Reachable repo → Reachable repo.clear

/-- The invariants of all types and relations. -/
structure Valid (layers : List (RepositoryLayer S)) : Prop where
  symbol : ∀ t, SymbolInvariant t layers
  binding : ∀ r g, RowInvariant r g layers

section

variable {repo later : Repository S} {layers parents : List (RepositoryLayer S)}
  {layer : RepositoryLayer S}

theorem valid_nil : Valid ([] : List (RepositoryLayer S)) where
  symbol _ := ⟨trivial, Interning.distinct_nil, fun _ _ found => by cases found⟩
  binding _ _ := ⟨trivial, Interning.distinct_nil⟩

theorem Valid.tail (valid : Valid (layer :: parents)) : Valid parents where
  symbol t := (valid.symbol t).tail
  binding r g := (valid.binding r g).tail

theorem Valid.of_suffix (valid : Valid layers) (isSuffix : parents <:+ layers) : Valid parents := by
  obtain ⟨front, rfl⟩ := isSuffix
  induction front with
  | nil => exact valid
  | cons layer front ih => exact ih valid.tail

/-- An empty layer on top. -/
theorem Valid.emptyLayer (valid : Valid layers)
    (symbols : ∀ t, layer.symbols t = ⟨[], symbolSizeIn t layers⟩)
    (slots : ∀ r g slot, layer.relations r g = some slot → slot = ⟨[], sizeIn r g layers⟩) :
    Valid (layer :: layers) where
  symbol t := (valid.symbol t).emptySlot (symbols t)
  binding r g := (valid.binding r g).emptySlot (slots r g)

/-- A new repository has no slots of relations. -/
theorem Valid.child (valid : Valid layers) : Valid (Repository.emptyLayer layers :: layers) :=
  valid.emptyLayer (fun _ => rfl) fun _ _ _ found => by cases found

theorem Valid.clear (valid : Valid repo.chain) : Valid repo.clear.chain := by
  apply Valid.emptyLayer (valid.of_suffix (List.suffix_cons _ _))
  · intro t
    rfl
  · intro r g slot found
    obtain ⟨_, _, rfl⟩ := Option.map_eq_some_iff.mp found
    rfl

/-- One step keeps the invariants. -/
theorem Step.valid (step : Step repo later) (valid : Valid repo.chain) : Valid later.chain := by
  cases step with
  | symbol t builder =>
      refine ⟨fun other => ?_, fun r g => ?_⟩
      · by_cases same : other = t
        · subst same
          exact (valid.symbol other).getOrCreate builder
        · obtain ⟨sameContents, sameData⟩ := getOrCreate_other same repo builder
          have invariant := valid.symbol other
          refine ⟨?_, ?_, fun index data found => ?_⟩
          · rw [sameContents]
            exact invariant.aligned
          · rw [sameContents]
            exact invariant.distinct
          · rw [sameData] at found
            exact invariant.numbered index data found
      · have sameRows := rows_getOrCreate (r := r) (g := g) repo builder
        have invariant := valid.binding r g
        refine ⟨?_, ?_⟩
        · rw [sameRows]
          exact invariant.aligned
        · rw [sameRows]
          exact invariant.distinct
  | binding r g objects =>
      refine ⟨fun t => ?_, fun r' g' => ?_⟩
      · obtain ⟨sameContents, sameData⟩ := contents_getOrCreateRow (t := t) repo r g objects
        have invariant := valid.symbol t
        refine ⟨?_, ?_, fun index data found => ?_⟩
        · rw [sameContents]
          exact invariant.aligned
        · rw [sameContents]
          exact invariant.distinct
        · rw [sameData] at found
          exact invariant.numbered index data found
      · by_cases same : r' = r ∧ g' = g
        · obtain ⟨rfl, rfl⟩ := same
          exact (valid.binding r' g').getOrCreateRow objects
        · have sameRows := getOrCreateRow_other (not_and_or.mp same) repo objects
          have invariant := valid.binding r' g'
          refine ⟨?_, ?_⟩
          · rw [sameRows]
            exact invariant.aligned
          · rw [sameRows]
            exact invariant.distinct
  | branch => exact valid.child

theorem Reachable.valid (reachable : Reachable repo) : Valid repo.chain := by
  induction reachable with
  | root => exact valid_nil.child
  | step _ step ih => exact step.valid ih
  | clear _ ih => exact ih.clear

/-- One step keeps the contents at their indices. -/
theorem Step.contents_prefix (step : Step repo later) (valid : Valid repo.chain) (t : S.Symbol) :
    LayeredInterning.visible (contents t repo.chain) <+:
      LayeredInterning.visible (contents t later.chain) := by
  cases step with
  | symbol other builder =>
      by_cases same : t = other
      · subst same
        have inserted := getOrCreate_contents repo builder
        have aligned : LayeredInterning.Aligned (content t repo.layer :: contents t repo.parents) :=
          (valid.symbol t).aligned
        rw [← (Prod.mk.inj inserted).1]
        exact LayeredInterning.visible_prefix_insert aligned builder.members
      · rw [(getOrCreate_other same repo builder).1]
  | binding r g objects => rw [(contents_getOrCreateRow repo r g objects).1]
  | branch => exact List.prefix_append _ _

/-- One step keeps the rows at their indices. -/
theorem Step.rows_prefix (step : Step repo later) (valid : Valid repo.chain) (r : S.Relation)
    (g : Nat) : LayeredInterning.visible (rows r g repo.chain) <+:
      LayeredInterning.visible (rows r g later.chain) := by
  cases step with
  | symbol t builder => rw [rows_getOrCreate repo builder]
  | binding r' g' objects =>
      by_cases same : r = r' ∧ g = g'
      · obtain ⟨rfl, rfl⟩ := same
        have inserted := getOrCreateRow_rows (r := r) (g := g) repo objects
        have aligned : LayeredInterning.Aligned
            (rowLayer r g repo.parents repo.layer :: rows r g repo.parents) :=
          (valid.binding r g).aligned
        rw [← (Prod.mk.inj inserted).1]
        exact LayeredInterning.visible_prefix_insert aligned objects
      · rw [getOrCreateRow_other (not_and_or.mp same) repo objects]
  | branch => exact List.prefix_append _ _

/-- Further calls of `get_or_create` and further children. -/
abbrev Extends : Repository S → Repository S → Prop := Relation.ReflTransGen Step

/-- The repository itself or an ancestor of it. -/
def Below (lower repo : Repository S) : Prop := lower.chain <:+ repo.chain

theorem Extends.keeps (run : Extends repo later) (valid : Valid repo.chain) : Valid later.chain ∧
    (∀ t, LayeredInterning.visible (contents t repo.chain) <+:
      LayeredInterning.visible (contents t later.chain)) ∧
    ∀ r g, LayeredInterning.visible (rows r g repo.chain) <+:
      LayeredInterning.visible (rows r g later.chain) := by
  induction run with
  | refl => exact ⟨valid, fun _ => List.prefix_refl _, fun _ _ => List.prefix_refl _⟩
  | tail _ step ih =>
      obtain ⟨validMiddle, symbols, bindings⟩ := ih
      refine ⟨step.valid validMiddle, fun t => ?_, fun r g => ?_⟩
      · exact (symbols t).trans (step.contents_prefix validMiddle t)
      · exact (bindings r g).trans (step.rows_prefix validMiddle r g)

theorem contents_suffix_prefix (isSuffix : parents <:+ layers) (t : S.Symbol) :
    LayeredInterning.visible (contents t parents) <+: LayeredInterning.visible (contents t layers) := by
  obtain ⟨front, rfl⟩ := isSuffix
  induction front with
  | nil => exact List.prefix_refl _
  | cons layer front ih => exact ih.trans (List.prefix_append _ _)

theorem rows_suffix_prefix (isSuffix : parents <:+ layers) (r : S.Relation) (g : Nat) :
    LayeredInterning.visible (rows r g parents) <+: LayeredInterning.visible (rows r g layers) := by
  obtain ⟨front, rfl⟩ := isSuffix
  induction front with
  | nil => exact List.prefix_refl _
  | cons layer front ih => exact ih.trans (List.prefix_append _ _)

/-! ### Stores of symbols and of bindings -/

/-- The operations on the symbols of a type; their contents are the identifying members. -/
def symbolOperations (t : S.Symbol) :
    LayeredInterning.Operations (Repository S) (S.Members t) (Builder S t) where
  size repo := repo.size t
  get repo index := (repo.get t index).map fun data => data.members
  find repo := repo.find t
  content builder := builder.members
  getOrCreate repo := repo.getOrCreate t

/-- The operations on the bindings of a relation. -/
def rowOperations (r : S.Relation) (g : Nat) :
    LayeredInterning.Operations (Repository S) (List Nat) (List Nat) where
  size repo := repo.rowSize r g
  get repo := repo.getRow r g
  find repo := repo.findRow r g
  content objects := objects
  getOrCreate repo := repo.getOrCreateRow r g

theorem symbolOperations_isLayered (t : S.Symbol) : LayeredInterning.IsLayered (symbolOperations t)
    (S.equalTo t) Extends Below (S.Proper t) (fun repo => Valid repo.chain)
    fun repo => contents t repo.chain where
  partialEq := S.equalTo_partial t
  aligned valid := (valid.symbol t).aligned
  distinct valid := (valid.symbol t).distinct
  size {repo} _ := by
    change symbolSizeIn t repo.chain = _
    exact symbolSizeIn_eq
  get _ := getIn_eq
  find _ := findIn_eq
  insert _ builder := ⟨_, _, rfl, getOrCreate_contents _ builder⟩
  valid valid builder := (Step.symbol t builder).valid valid
  known found := getOrCreate_known found
  created {repo builder} missing := by
    change (repo.getOrCreate t builder).2.2 = true
    rw [(getOrCreate_slot missing).2.2]
  extend run valid := ⟨(run.keeps valid).1, (run.keeps valid).2.1 t⟩
  lower isBelow valid := ⟨valid.of_suffix isBelow, contents_suffix_prefix isBelow t⟩

theorem rowOperations_isLayered (r : S.Relation) (g : Nat) : LayeredInterning.IsLayered
    (rowOperations (S := S) r g) (· == ·) Extends Below (fun _ => True)
    (fun repo => Valid repo.chain) fun repo => rows r g repo.chain where
  partialEq := PartialEquality.beq
  aligned valid := (valid.binding r g).aligned
  distinct valid := (valid.binding r g).distinct
  size _ := sizeIn_eq
  get valid := getRowIn_eq (valid.binding r g).aligned
  find _ := findRowIn_eq
  insert _ objects := ⟨_, _, rfl, getOrCreateRow_rows _ objects⟩
  valid valid objects := (Step.binding r g objects).valid valid
  known {repo objects row} found := by
    have known : repo.findRow r g objects = some row := found
    change repo.getOrCreateRow r g objects = _
    rw [getOrCreateRow, known]
  created {repo objects} missing := by
    have unknown : repo.findRow r g objects = none := missing
    change (repo.getOrCreateRow r g objects).2.2 = true
    rw [getOrCreateRow, unknown]
  extend run valid := ⟨(run.keeps valid).1, (run.keeps valid).2.2 r g⟩
  lower isBelow valid := ⟨valid.of_suffix isBelow, rows_suffix_prefix isBelow r g⟩

/-- In each repository of a chain, whatever was called before, the contents of each type
and the bindings of each relation correspond to their indices: also in the ancestors and
after further calls and children. Data carry their indices, and new data are stored as
they were given. -/
theorem interns_uniquely (reachable : Reachable repo) :
    (∀ t, LayeredInterning.InternsUniquely (symbolOperations t) (S.equalTo t) Extends Below repo) ∧
      (∀ r g, LayeredInterning.InternsUniquely (rowOperations r g) (· == ·) Extends Below repo) ∧
      (∀ t index data, repo.get t index = some data → data.index = index) ∧
      ∀ t builder, repo.find t builder.members = none →
        (repo.getOrCreate t builder).1.get t (repo.getOrCreate t builder).2.1 =
          some ⟨builder, (repo.getOrCreate t builder).2.1⟩ := by
  have valid := reachable.valid
  refine ⟨fun t => (symbolOperations_isLayered t).internsUniquely valid,
    fun r g => (rowOperations_isLayered r g).internsUniquely valid,
    fun t => (valid.symbol t).numbered, fun t builder missing => ?_⟩
  rw [get_getOrCreate_new missing, (getOrCreate_slot missing).2.2, if_pos rfl]

theorem numberEquality_partial (_ : Unit) :
    PartialEquality (fun x y : Nat => x == y) fun _ => True :=
  PartialEquality.beq

/-- One type of symbols, which are numbers, and one type of relations. -/
def numberSchema : Schema where
  Symbol := Unit
  Relation := Unit
  Members _ := Nat
  Others _ := Unit
  equalTo _ x y := x == y
  Proper _ _ := True
  equalTo_partial := numberEquality_partial
  decidableSymbol := inferInstance
  decidableRelation := inferInstance

/-- A parent with the number 5 and a child with the number 7 and a binding. -/
def numberChild : Repository numberSchema :=
  ((((root numberSchema).getOrCreate () ⟨(5 : Nat), ()⟩).1.branch.getOrCreate () ⟨(7 : Nat), ()⟩).1
    |>.getOrCreateRow () 0 [1, 2]).1

theorem numberChild_reachable : Reachable numberChild :=
  .step (.step (.step (.step .root (.symbol _ _)) .branch) (.symbol _ _)) (.binding _ _ _)

theorem interns_uniquely_numberChild :
    LayeredInterning.InternsUniquely (rowOperations (S := numberSchema) () 0) (· == ·) Extends Below
      numberChild :=
  (interns_uniquely numberChild_reachable).2.1 () 0

end

end Repository

end Tyr.Formalism
