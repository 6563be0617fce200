import Tyr.Lib.Interning

/-!
Interning in a chain of layers.

Each layer has a table of its own, and the indices of its values start where those of the
layers below it end. A value is looked up in all layers, the top one first, and inserted
in the top layer if no layer has it. A layer below another one does not change.

* `visible` — the values of all layers, by their indices.
* `Aligned` — the offsets are the numbers of the values below.
* `at?_eq`, `find_eq_some_iff` — lookups by index and by value.
* `Aligned.insert`, `visible_insert` — an insertion adds at most one value, at the end.
* `Interned`, `interned` — indices and values correspond.
* `IsLayered.internsUniquely` — the operations of a store that is a chain of layers.
-/

namespace Tyr.Lib.LayeredInterning

variable {α : Type*}

structure Layer (α : Type*) where
  parentSize : Nat
  table : List α

/-- The values that the top layer sees: those of the lowest layer come first. -/
def visible : List (Layer α) → List α
  | [] => []
  | layer :: parents => visible parents ++ layer.table

/-- The number of values, as the top layer counts them. -/
def size : List (Layer α) → Nat
  | [] => 0
  | layer :: _ => layer.parentSize + layer.table.length

/-- The offset of each layer is the number of values below it. -/
def Aligned : List (Layer α) → Prop
  | [] => True
  | layer :: parents => layer.parentSize = size parents ∧ Aligned parents

/-- The value at an index, from the first layer that starts at or below it. -/
def at? : List (Layer α) → Nat → Option α
  | [], _ => none
  | layer :: parents, index =>
      if layer.parentSize ≤ index then layer.table[index - layer.parentSize]? else at? parents index

section

variable (eq : α → α → Bool)

/-- The index of a value, from the first layer that has it. -/
def find : List (Layer α) → α → Option Nat
  | [], _ => none
  | layer :: parents, value =>
      match Interning.find eq layer.table value with
      | some index => some (layer.parentSize + index)
      | none => find parents value

/-- The layers and the index of a value. -/
def insert (layer : Layer α) (parents : List (Layer α)) (value : α) : List (Layer α) × Nat :=
  match find eq (layer :: parents) value with
  | some index => (layer :: parents, index)
  | none =>
      ({ layer with table := layer.table ++ [value] } :: parents,
        layer.parentSize + layer.table.length)

end

variable {layer : Layer α} {parents layers : List (Layer α)} {index : Nat} {value x : α}

theorem Aligned.size_eq (aligned : Aligned layers) : size layers = (visible layers).length := by
  induction layers with
  | nil => rfl
  | cons layer parents ih =>
      rw [size, visible, List.length_append, aligned.1, ih aligned.2]

theorem Aligned.parentSize_eq (aligned : Aligned (layer :: parents)) :
    layer.parentSize = (visible parents).length := by
  rw [aligned.1, aligned.2.size_eq]

/-- A new layer that starts at the size of the chain. -/
theorem Aligned.branch (aligned : Aligned layers) : Aligned (⟨size layers, []⟩ :: layers) :=
  ⟨rfl, aligned⟩

theorem at?_eq (aligned : Aligned layers) : at? layers index = (visible layers)[index]? := by
  induction layers with
  | nil => rfl
  | cons layer parents ih =>
      have start := aligned.parentSize_eq
      rw [at?, visible]
      split
      · next isLocal => rw [List.getElem?_append_right (by omega), start]
      · next below => rw [List.getElem?_append_left (by omega), ih aligned.2]

/-! ### Lookups -/

section

variable {eq : α → α → Bool} {Proper : α → Prop}

/-- The value at the index that a lookup finds is the value looked for. -/
theorem of_find (partialEq : PartialEquality eq Proper) (aligned : Aligned layers)
    (found : find eq layers value = some index) :
    (visible layers)[index]? = some value ∧ Proper value := by
  induction layers with
  | nil => cases found
  | cons layer parents ih =>
      have start := aligned.parentSize_eq
      rw [find] at found
      cases isLocal : Interning.find eq layer.table value with
      | some position =>
          rw [isLocal] at found
          obtain rfl := Option.some.inj found
          obtain ⟨atPosition, proper⟩ := Interning.eq_of_find partialEq isLocal
          rw [visible, List.getElem?_append_right (by omega), ← start, Nat.add_sub_cancel_left]
          exact ⟨atPosition, proper⟩
      | none =>
          rw [isLocal] at found
          obtain ⟨atIndex, proper⟩ := ih aligned.2 found
          have inRange := (List.getElem?_eq_some_iff.mp atIndex).1
          rw [visible, List.getElem?_append_left inRange]
          exact ⟨atIndex, proper⟩

/-- A lookup that finds nothing tests all values. -/
theorem of_not_find (missing : find eq layers value = none) {y : α} (mem : y ∈ visible layers) :
    eq value y = false := by
  induction layers with
  | nil => cases mem
  | cons layer parents ih =>
      rw [find] at missing
      cases isLocal : Interning.find eq layer.table value with
      | some position =>
          rw [isLocal] at missing
          cases missing
      | none =>
          rw [isLocal] at missing
          rcases List.mem_append.mp mem with below | here
          · exact ih missing below
          · exact List.findIdx?_eq_none_iff.mp isLocal y here

/-- A lookup finds the index of the value, if it is proper and not stored twice. -/
theorem find_eq_some_iff (partialEq : PartialEquality eq Proper) (aligned : Aligned layers)
    (distinct : Interning.Distinct Proper (visible layers)) :
    find eq layers value = some index ↔ (visible layers)[index]? = some value ∧ Proper value := by
  refine ⟨of_find partialEq aligned, ?_⟩
  rintro ⟨atIndex, proper⟩
  cases found : find eq layers value with
  | some other =>
      have atOther := (of_find partialEq aligned found).1
      rw [distinct other index value atOther atIndex proper]
  | none =>
      have unequal := of_not_find found (List.mem_of_getElem? atIndex)
      rw [(partialEq value value).mpr ⟨rfl, proper⟩] at unequal
      cases unequal

/-! ### Insertions -/

theorem Aligned.insert (aligned : Aligned (layer :: parents)) :
    Aligned (insert eq layer parents value).1 := by
  unfold LayeredInterning.insert
  cases find eq (layer :: parents) value with
  | some index => exact aligned
  | none => exact ⟨aligned.1, aligned.2⟩

/-- The new value comes last. -/
theorem visible_insert (eq : α → α → Bool) (aligned : Aligned (layer :: parents)) (value : α) :
    (find eq (layer :: parents) value = some (insert eq layer parents value).2 ∧
        visible (insert eq layer parents value).1 = visible (layer :: parents)) ∨
      (find eq (layer :: parents) value = none ∧
        (insert eq layer parents value).2 = (visible (layer :: parents)).length ∧
        visible (insert eq layer parents value).1 = visible (layer :: parents) ++ [value]) := by
  unfold LayeredInterning.insert
  cases found : find eq (layer :: parents) value with
  | some index => exact .inl ⟨rfl, rfl⟩
  | none =>
      refine .inr ⟨rfl, ?_, ?_⟩
      · rw [← aligned.size_eq, size]
      · simp only [visible, List.append_assoc]

theorem visible_prefix_insert (aligned : Aligned (layer :: parents)) (value : α) :
    visible (layer :: parents) <+: visible (insert eq layer parents value).1 := by
  rcases visible_insert eq aligned value with ⟨_, same⟩ | ⟨_, _, grown⟩
  · simp [same]
  · simp [grown]

/-- The value is at its index. -/
theorem getElem?_visible_insert (partialEq : PartialEquality eq Proper)
    (aligned : Aligned (layer :: parents)) (value : α) :
    (visible (insert eq layer parents value).1)[(insert eq layer parents value).2]? = some value := by
  rcases visible_insert eq aligned value with ⟨found, same⟩ | ⟨_, last, grown⟩
  · rw [same]
    exact (of_find partialEq aligned found).1
  · rw [grown, last, List.getElem?_concat_length]

theorem distinct_insert (partialEq : PartialEquality eq Proper)
    (aligned : Aligned (layer :: parents))
    (distinct : Interning.Distinct Proper (visible (layer :: parents))) (value : α) :
    Interning.Distinct Proper (visible (insert eq layer parents value).1) := by
  rcases visible_insert eq aligned value with ⟨_, same⟩ | ⟨missing, _, grown⟩
  · rwa [same]
  · rw [grown]
    have unequal : ∀ y ∈ visible (layer :: parents), eq value y = false :=
      fun y mem => of_not_find missing mem
    exact distinct.concat partialEq unequal

/-- The index is the one of an earlier value iff the values are equal. -/
theorem insert_eq_iff (partialEq : PartialEquality eq Proper) (aligned : Aligned (layer :: parents))
    (distinct : Interning.Distinct Proper (visible (layer :: parents)))
    (atIndex : (visible (layer :: parents))[index]? = some x) :
    (insert eq layer parents value).2 = index ↔ eq value x = true := by
  have inRange := (List.getElem?_eq_some_iff.mp atIndex).1
  rw [partialEq]
  rcases visible_insert eq aligned value with ⟨found, _⟩ | ⟨missing, last, _⟩
  · constructor
    · rintro rfl
      obtain ⟨atFound, proper⟩ := of_find partialEq aligned found
      exact ⟨Option.some.inj (atFound.symm.trans atIndex), proper⟩
    · rintro ⟨rfl, proper⟩
      have same := (find_eq_some_iff partialEq aligned distinct).mpr ⟨atIndex, proper⟩
      exact Option.some.inj (found.symm.trans same)
  · rw [last]
    constructor
    · rintro rfl
      exact absurd inRange (Nat.lt_irrefl _)
    · rintro ⟨rfl, proper⟩
      rw [(find_eq_some_iff partialEq aligned distinct).mpr ⟨atIndex, proper⟩] at missing
      cases missing

/-- The indices and the values of a chain correspond: there is a value at each index below
the size, no two values are equal, and a value is found at the index of its equal. -/
structure Interned (eq : α → α → Bool) (size : Nat) (get : Nat → Option α)
    (find : α → Option Nat) : Prop where
  dense : ∀ index, (∃ x, get index = some x) ↔ index < size
  distinct : ∀ i j x y, get i = some x → get j = some y → eq x y = true → i = j
  find_iff : ∀ x index, find x = some index ↔ ∃ y, get index = some y ∧ eq x y = true

theorem interned (partialEq : PartialEquality eq Proper) (aligned : Aligned layers)
    (distinct : Interning.Distinct Proper (visible layers)) :
    Interned eq (size layers) (fun index => (visible layers)[index]?) (find eq layers) where
  dense index := by
    rw [aligned.size_eq]
    constructor
    · rintro ⟨x, found⟩
      exact (List.getElem?_eq_some_iff.mp found).1
    · intro inRange
      exact ⟨_, List.getElem?_eq_getElem inRange⟩
  distinct i j x y atI atJ equal := by
    obtain ⟨rfl, proper⟩ := (partialEq x y).mp equal
    exact distinct i j x atI atJ proper
  find_iff x index := by
    rw [find_eq_some_iff partialEq aligned distinct]
    constructor
    · rintro ⟨atIndex, proper⟩
      exact ⟨x, atIndex, (partialEq x x).mpr ⟨rfl, proper⟩⟩
    · rintro ⟨y, atIndex, equal⟩
      obtain ⟨rfl, proper⟩ := (partialEq x y).mp equal
      exact ⟨atIndex, proper⟩

end

/-! ### Stores -/

/-- The operations of a store with states `σ`, contents `α` and builders `β` of them. -/
structure Operations (σ α β : Type*) where
  size : σ → Nat
  get : σ → Nat → Option α
  find : σ → α → Option Nat
  content : β → α
  getOrCreate : σ → β → σ × Nat × Bool

section

variable {σ β : Type*} (ops : Operations σ α β) (eq : α → α → Bool) (Extends Below : σ → σ → Prop)

/-- Contents and indices correspond, in this state, after further calls and in the stores
below: equal contents have the same index, and an index has the content it had. -/
structure InternsUniquely (state : σ) : Prop where
  interned : Interned eq (ops.size state) (ops.get state) (ops.find state)
  stored : ∀ builder, ops.get (ops.getOrCreate state builder).1 (ops.getOrCreate state builder).2.1 =
    some (ops.content builder)
  known : ∀ builder index, ops.find state (ops.content builder) = some index →
    ops.getOrCreate state builder = (state, index, false)
  created : ∀ builder, ops.find state (ops.content builder) = none →
    (ops.getOrCreate state builder).2 = (ops.size state, true) ∧
      ops.size (ops.getOrCreate state builder).1 = ops.size state + 1
  later : ∀ after, Extends state after →
    ∀ index < ops.size state, ops.get after index = ops.get state index
  same : ∀ builder after builder', Extends (ops.getOrCreate state builder).1 after →
    ((ops.getOrCreate after builder').2.1 = (ops.getOrCreate state builder).2.1 ↔
      eq (ops.content builder') (ops.content builder) = true)
  below : ∀ lower, Below lower state →
    (∀ index < ops.size lower, ops.get state index = ops.get lower index) ∧
      ∀ content index, ops.find lower content = some index ↔
        ops.find state content = some index ∧ index < ops.size lower

/-- The store is a chain of layers in each valid state. -/
structure IsLayered (Proper : α → Prop) (Valid : σ → Prop) (layers : σ → List (Layer α)) : Prop where
  partialEq : PartialEquality eq Proper
  aligned : ∀ {state}, Valid state → Aligned (layers state)
  distinct : ∀ {state}, Valid state → Interning.Distinct Proper (visible (layers state))
  size : ∀ {state}, Valid state → ops.size state = LayeredInterning.size (layers state)
  get : ∀ {state}, Valid state → ∀ index, ops.get state index = at? (layers state) index
  find : ∀ {state}, Valid state → ∀ content,
    ops.find state content = LayeredInterning.find eq (layers state) content
  insert : ∀ {state}, Valid state → ∀ builder, ∃ layer parents, layers state = layer :: parents ∧
    LayeredInterning.insert eq layer parents (ops.content builder) =
      (layers (ops.getOrCreate state builder).1, (ops.getOrCreate state builder).2.1)
  valid : ∀ {state}, Valid state → ∀ builder, Valid (ops.getOrCreate state builder).1
  known : ∀ {state builder index}, ops.find state (ops.content builder) = some index →
    ops.getOrCreate state builder = (state, index, false)
  created : ∀ {state builder}, ops.find state (ops.content builder) = none →
    (ops.getOrCreate state builder).2.2 = true
  extend : ∀ {state after}, Extends state after → Valid state →
    Valid after ∧ visible (layers state) <+: visible (layers after)
  lower : ∀ {lower state}, Below lower state → Valid state →
    Valid lower ∧ visible (layers lower) <+: visible (layers state)

variable {ops eq Extends Below} {Proper : α → Prop} {Valid : σ → Prop} {layers : σ → List (Layer α)}
  {state : σ}

theorem IsLayered.size_eq (layered : IsLayered ops eq Extends Below Proper Valid layers)
    (valid : Valid state) : ops.size state = (visible (layers state)).length := by
  rw [layered.size valid, (layered.aligned valid).size_eq]

theorem IsLayered.get_eq (layered : IsLayered ops eq Extends Below Proper Valid layers)
    (valid : Valid state) (index : Nat) : ops.get state index = (visible (layers state))[index]? := by
  rw [layered.get valid, at?_eq (layered.aligned valid)]

theorem IsLayered.find_iff (layered : IsLayered ops eq Extends Below Proper Valid layers)
    (valid : Valid state) (content : α) (index : Nat) : ops.find state content = some index ↔
      (visible (layers state))[index]? = some content ∧ Proper content := by
  rw [layered.find valid, find_eq_some_iff layered.partialEq (layered.aligned valid)
    (layered.distinct valid)]

/-- A prefix has the same values at its indices. -/
theorem getElem?_of_isPrefix {front whole : List α} (isPrefix : front <+: whole) {index : Nat}
    (inRange : index < front.length) : whole[index]? = front[index]? := by
  obtain ⟨rest, rfl⟩ := isPrefix
  rw [List.getElem?_append_left inRange]

theorem IsLayered.getOrCreate (layered : IsLayered ops eq Extends Below Proper Valid layers)
    (valid : Valid state) (builder : β) : ops.get (ops.getOrCreate state builder).1
      (ops.getOrCreate state builder).2.1 = some (ops.content builder) := by
  obtain ⟨layer, parents, isChain, inserted⟩ := layered.insert valid builder
  have aligned := layered.aligned valid
  rw [isChain] at aligned
  have stored := getElem?_visible_insert layered.partialEq aligned (ops.content builder)
  rw [inserted] at stored
  rw [layered.get_eq (layered.valid valid builder)]
  exact stored

theorem IsLayered.internsUniquely (layered : IsLayered ops eq Extends Below Proper Valid layers)
    (valid : Valid state) : InternsUniquely ops eq Extends Below state where
  interned := by
    have interned := interned layered.partialEq (layered.aligned valid) (layered.distinct valid)
    rw [← layered.size valid] at interned
    have getSame : ops.get state = fun index => (visible (layers state))[index]? :=
      funext (layered.get_eq valid)
    have findSame : ops.find state = LayeredInterning.find eq (layers state) :=
      funext (layered.find valid)
    rwa [getSame, findSame]
  stored := layered.getOrCreate valid
  known _ _ found := layered.known found
  created builder missing := by
    obtain ⟨layer, parents, isChain, inserted⟩ := layered.insert valid builder
    have aligned := layered.aligned valid
    rw [isChain] at aligned
    have absent := layered.find valid (ops.content builder)
    rw [missing, isChain] at absent
    rcases visible_insert eq aligned (ops.content builder) with ⟨found, _⟩ | ⟨_, last, grown⟩
    · rw [← absent] at found
      cases found
    · rw [inserted] at last grown
      dsimp only at last grown
      rw [← isChain] at last grown
      refine ⟨Prod.ext ?_ (layered.created missing), ?_⟩
      · rw [last, layered.size_eq valid]
      · rw [layered.size_eq (layered.valid valid builder), grown, layered.size_eq valid,
          List.length_append, List.length_singleton]
  later after extends_ index inRange := by
    obtain ⟨validAfter, isPrefix⟩ := layered.extend extends_ valid
    rw [layered.size_eq valid] at inRange
    rw [layered.get_eq validAfter, layered.get_eq valid, getElem?_of_isPrefix isPrefix inRange]
  same builder after builder' extends_ := by
    have validNext := layered.valid valid builder
    obtain ⟨validAfter, isPrefix⟩ := layered.extend extends_ validNext
    have stored := layered.getOrCreate valid builder
    rw [layered.get_eq validNext] at stored
    have inRange := (List.getElem?_eq_some_iff.mp stored).1
    have storedAfter := (getElem?_of_isPrefix isPrefix inRange).trans stored
    obtain ⟨layer, parents, isChain, inserted⟩ := layered.insert validAfter builder'
    have aligned := layered.aligned validAfter
    have distinct := layered.distinct validAfter
    rw [isChain] at aligned distinct storedAfter
    have equalIff : (LayeredInterning.insert eq layer parents (ops.content builder')).2 = _ ↔ _ :=
      insert_eq_iff layered.partialEq aligned distinct storedAfter
    rwa [inserted] at equalIff
  below lower isBelow := by
    obtain ⟨validLower, isPrefix⟩ := layered.lower isBelow valid
    refine ⟨fun index inRange => ?_, fun content index => ?_⟩
    · rw [layered.size_eq validLower] at inRange
      rw [layered.get_eq valid, layered.get_eq validLower, getElem?_of_isPrefix isPrefix inRange]
    · rw [layered.find_iff validLower, layered.find_iff valid, layered.size_eq validLower]
      constructor
      · rintro ⟨atIndex, proper⟩
        have inRange := (List.getElem?_eq_some_iff.mp atIndex).1
        rw [getElem?_of_isPrefix isPrefix inRange]
        exact ⟨⟨atIndex, proper⟩, inRange⟩
      · rintro ⟨⟨atIndex, proper⟩, inRange⟩
        rw [getElem?_of_isPrefix isPrefix inRange] at atIndex
        exact ⟨atIndex, proper⟩

theorem InternsUniquely.get_later (interns : InternsUniquely ops eq Extends Below state) {after : σ}
    (run : Extends state after) {index : Nat} {x : α} (found : ops.get state index = some x) :
    ops.get after index = some x := by
  rw [interns.later after run index ((interns.interned.dense index).mp ⟨x, found⟩), found]

/-- What a store below has is found, and nothing is created. -/
theorem InternsUniquely.known_of_below (interns : InternsUniquely ops eq Extends Below state)
    {lower : σ} (internsLower : InternsUniquely ops eq Extends Below lower)
    (isBelow : Below lower state) {index : Nat} {builder : β}
    (found : ops.get lower index = some (ops.content builder))
    (proper : eq (ops.content builder) (ops.content builder) = true) :
    ops.getOrCreate state builder = (state, index, false) := by
  apply interns.known
  have foundLower := (internsLower.interned.find_iff _ index).mpr ⟨_, found, proper⟩
  exact (((interns.below lower isBelow).2 _ index).mp foundLower).1

end

end Tyr.Lib.LayeredInterning
