import Mathlib.Algebra.Order.Group.Multiset
import Mathlib.Logic.Function.Basic

/-!
Pools of shared objects.

A pool owns its entries and keeps the free ones on a stack. A pointer counts itself at its
entry, and the last pointer to an entry gives it back. Pointers are variables of the program;
a program may use several pools, which live as long as their pointers.

* `Balanced` — the counts are those of the references that are held, and the stacks have the
  entries that nobody holds.
* `Balanced.incRefCount`, `Balanced.decRefCount`, `Balanced.getOrAllocateWith` — a reference more
  or less.
* `run_counts_pointers` — the counts, the free lists and the next entries of every run.
-/

namespace Tyr

variable {T : Type*}

structure SharedObjectPoolEntry (T : Type*) where
  refcount : Nat
  object : T

/-- The address of an entry: its pool, and its index in the storage of the pool. -/
structure EntryAddress where
  pool : Nat
  index : Nat
deriving DecidableEq

structure SharedObjectPool (T : Type*) where
  storage : List (SharedObjectPoolEntry T) := []
  stack : List EntryAddress := []

/-- The pools of a program by their addresses. -/
abbrev Pools (T : Type*) := Nat → SharedObjectPool T

structure SharedObjectPoolPtr where
  pool : Option Nat := none
  entry : Option EntryAddress := none
deriving DecidableEq

namespace Pools

def entryAt (pools : Pools T) (element : EntryAddress) : Option (SharedObjectPoolEntry T) :=
  (pools element.pool).storage[element.index]?

/-- The count of an entry, if there is one at the address. -/
def countAt (pools : Pools T) (element : EntryAddress) : Option Nat :=
  (pools.entryAt element).map SharedObjectPoolEntry.refcount

def refcount (pools : Pools T) (element : EntryAddress) : Nat := (pools.countAt element).getD 0

def modifyEntry (pools : Pools T) (element : EntryAddress)
    (f : SharedObjectPoolEntry T → SharedObjectPoolEntry T) : Pools T :=
  Function.update pools element.pool
    { pools element.pool with storage := (pools element.pool).storage.modify element.index f }

def setStack (pools : Pools T) (pool : Nat) (stack : List EntryAddress) : Pools T :=
  Function.update pools pool { pools pool with stack }

def allocate [Inhabited T] (pools : Pools T) (pool : Nat) : Pools T :=
  Function.update pools pool
    { storage := (pools pool).storage ++ [⟨0, default⟩]
      stack := (pools pool).stack ++ [⟨pool, (pools pool).storage.length⟩] }

def free (pools : Pools T) (pool : Nat) (element : EntryAddress) : Pools T :=
  pools.setStack pool ((pools pool).stack ++ [element])

end Pools

/-! ### Pointers -/

namespace SharedObjectPoolPtr

/-- `if (m_pool && m_entry) inc_ref_count();` -/
def incRefCount (pools : Pools T) : SharedObjectPoolPtr → Pools T
  | ⟨some _, some entry⟩ => pools.modifyEntry entry fun e => { e with refcount := e.refcount + 1 }
  | _ => pools

/-- `if (m_pool && m_entry) dec_ref_count();`, which deallocates after the last reference. -/
def decRefCount (pools : Pools T) : SharedObjectPoolPtr → Pools T × SharedObjectPoolPtr
  | ⟨some pool, some entry⟩ =>
      let pools := pools.modifyEntry entry fun e => { e with refcount := e.refcount - 1 }
      if pools.refcount entry = 0 then (pools.free pool entry, {})
      else (pools, ⟨some pool, some entry⟩)
  | this => (pools, this)

/-- The constructor from a pool and an entry. -/
def create (pools : Pools T) (pool : Option Nat) (object : Option EntryAddress) :
    Pools T × SharedObjectPoolPtr :=
  (incRefCount pools ⟨pool, object⟩, ⟨pool, object⟩)

def copyConstruct (pools : Pools T) (other : SharedObjectPoolPtr) : Pools T × SharedObjectPoolPtr :=
  let this : SharedObjectPoolPtr := { pool := other.pool, entry := other.entry }
  (incRefCount pools this, this)

/-- The assignment from another pointer. -/
def copyAssign (pools : Pools T) (this other : SharedObjectPoolPtr) : Pools T × SharedObjectPoolPtr :=
  let (pools, _) := decRefCount pools this
  let this : SharedObjectPoolPtr := { pool := other.pool, entry := other.entry }
  (incRefCount pools this, this)

/-- The new pointer and the one that is moved from. -/
def moveConstruct (other : SharedObjectPoolPtr) : SharedObjectPoolPtr × SharedObjectPoolPtr :=
  ({ pool := other.pool, entry := other.entry }, {})

/-- The assignment from another pointer, which is moved from. -/
def moveAssign (pools : Pools T) (this other : SharedObjectPoolPtr) :
    Pools T × SharedObjectPoolPtr × SharedObjectPoolPtr :=
  let (pools, _) := decRefCount pools this
  (pools, { pool := other.pool, entry := other.entry }, {})

/-- The destructor. -/
def destroy (pools : Pools T) (this : SharedObjectPoolPtr) : Pools T := (decRefCount pools this).1

end SharedObjectPoolPtr

/-- `get_or_allocate` with arguments; `initialize` does not throw. -/
def getOrAllocateWith [Inhabited T] (pools : Pools T) (pool : Nat) (init : T → T) :
    Pools T × SharedObjectPoolPtr :=
  let pools := if (pools pool).stack.isEmpty then pools.allocate pool else pools
  match (pools pool).stack.getLast? with
  | none => (pools, {})
  | some element =>
      let pools := pools.setStack pool (pools pool).stack.dropLast
      let pools := pools.modifyEntry element fun e => { e with object := init e.object }
      SharedObjectPoolPtr.create pools (some pool) (some element)

/-- `get_or_allocate` without arguments. -/
def getOrAllocate [Inhabited T] (pools : Pools T) (pool : Nat) : Pools T × SharedObjectPoolPtr :=
  getOrAllocateWith pools pool id

/-- `clone`: another entry with the same object. -/
def SharedObjectPoolPtr.clone [Inhabited T] (pools : Pools T) :
    SharedObjectPoolPtr → Pools T × SharedObjectPoolPtr
  | ⟨some pool, some entry⟩ =>
      let (pools, pointer) := getOrAllocate pools pool
      match pointer.entry, pools.entryAt entry with
      | some element, some own =>
          (pools.modifyEntry element fun e => { e with object := own.object }, pointer)
      | _, _ => (pools, pointer)
  | _ => (pools, {})

/-! ### Programs -/

/-- The pools, and the pointers in the order of their construction; a pointer that is
destroyed leaves `none`. -/
structure Memory (T : Type*) where
  pools : Pools T := fun _ => {}
  pointers : List (Option SharedObjectPoolPtr) := []

/-- The statements of a program. A construction adds a pointer, the others name pointers. -/
inductive PointerOp (T : Type*) where
  | construct
  | getOrAllocate (pool : Nat)
  | getOrAllocateWith (pool : Nat) (init : T → T)
  | clone (source : Nat)
  | copyConstruct (source : Nat)
  | moveConstruct (source : Nat)
  | copyAssign (target source : Nat)
  | moveAssign (target source : Nat)
  | write (target : Nat) (object : T)
  | destroy (target : Nat)

namespace Memory

/-- The pointer of a variable, unless it is destroyed or was never constructed. -/
def pointer (memory : Memory T) (i : Nat) : Option SharedObjectPoolPtr :=
  memory.pointers.getD i none

/-- A pointer is constructed. -/
def push (memory : Memory T) (result : Pools T × SharedObjectPoolPtr) : Memory T :=
  { pools := result.1, pointers := memory.pointers ++ [some result.2] }

variable [Inhabited T]

/-- A statement, unless it names a pointer that is not live, or writes through a null pointer. -/
def step (memory : Memory T) : PointerOp T → Option (Memory T)
  | .construct => some (memory.push (memory.pools, {}))
  | .getOrAllocate pool => some (memory.push (Tyr.getOrAllocate memory.pools pool))
  | .getOrAllocateWith pool init => some (memory.push (Tyr.getOrAllocateWith memory.pools pool init))
  | .clone source => (memory.pointer source).map fun other => memory.push (other.clone memory.pools)
  | .copyConstruct source =>
      (memory.pointer source).map fun other => memory.push (other.copyConstruct memory.pools)
  | .moveConstruct source =>
      (memory.pointer source).map fun other =>
        let (this, other) := SharedObjectPoolPtr.moveConstruct other
        { memory with pointers := memory.pointers.set source (some other) ++ [some this] }
  | .copyAssign target source =>
      (memory.pointer target).bind fun this => (memory.pointer source).map fun other =>
        if target = source then memory
        else
          let (pools, this) := this.copyAssign memory.pools other
          { pools, pointers := memory.pointers.set target (some this) }
  | .moveAssign target source =>
      (memory.pointer target).bind fun this => (memory.pointer source).map fun other =>
        if target = source then memory
        else
          let (pools, this, other) := this.moveAssign memory.pools other
          { pools, pointers := (memory.pointers.set target (some this)).set source (some other) }
  | .write target object =>
      ((memory.pointer target).bind SharedObjectPoolPtr.entry).map fun entry =>
        { memory with pools := memory.pools.modifyEntry entry fun e => { e with object } }
  | .destroy target =>
      (memory.pointer target).map fun this =>
        { pools := this.destroy memory.pools, pointers := memory.pointers.set target none }

def run (ops : List (PointerOp T)) : Option (Memory T) := ops.foldlM step {}

end Memory

/-! ### Entries and stacks -/

namespace Pools

variable {pools : Pools T} {element other : EntryAddress} {pool : Nat}

theorem entryAt_modifyEntry {f : SharedObjectPoolEntry T → SharedObjectPoolEntry T} :
    (pools.modifyEntry element f).entryAt other =
      if other = element then (pools.entryAt other).map f else pools.entryAt other := by
  obtain ⟨pool, index⟩ := element
  obtain ⟨pool', index'⟩ := other
  unfold entryAt modifyEntry
  dsimp only
  by_cases samePool : pool' = pool
  · subst samePool
    rw [Function.update_self, List.getElem?_modify]
    by_cases sameIndex : index = index'
    · subst sameIndex
      simp
    · rw [if_neg (by simp [Ne.symm sameIndex])]
      simp [sameIndex]
  · rw [Function.update_of_ne samePool, if_neg (by simp [samePool])]

@[simp] theorem stack_modifyEntry {f : SharedObjectPoolEntry T → SharedObjectPoolEntry T} :
    (pools.modifyEntry element f pool).stack = (pools pool).stack := by
  unfold modifyEntry
  by_cases same : pool = element.pool
  · rw [same, Function.update_self]
  · rw [Function.update_of_ne same]

@[simp] theorem entryAt_setStack {stack : List EntryAddress} :
    (pools.setStack pool stack).entryAt element = pools.entryAt element := by
  unfold entryAt setStack
  by_cases same : element.pool = pool
  · rw [same, Function.update_self]
  · rw [Function.update_of_ne same]

theorem stack_setStack {stack : List EntryAddress} {pool' : Nat} :
    (pools.setStack pool stack pool').stack = if pool' = pool then stack else (pools pool').stack := by
  unfold setStack
  by_cases same : pool' = pool
  · rw [same, Function.update_self, if_pos rfl]
  · rw [Function.update_of_ne same, if_neg same]

theorem entryAt_allocate [Inhabited T] :
    (pools.allocate pool).entryAt element =
      if element = ⟨pool, (pools pool).storage.length⟩ then some ⟨0, default⟩
      else pools.entryAt element := by
  unfold entryAt allocate
  obtain ⟨pool', index⟩ := element
  by_cases same : pool' = pool
  · subst same
    rw [Function.update_self, List.getElem?_append]
    dsimp only
    by_cases old : index < (pools pool').storage.length
    · rw [if_pos old, if_neg (by simp [Nat.ne_of_lt old])]
    · by_cases new : index = (pools pool').storage.length
      · simp [new]
      · rw [if_neg old, if_neg (by simp [new]), List.getElem?_eq_none (by simp; omega),
          List.getElem?_eq_none (by omega)]
  · rw [Function.update_of_ne same, if_neg (by simp [same])]

theorem stack_allocate [Inhabited T] {pool' : Nat} :
    (pools.allocate pool pool').stack =
      if pool' = pool then (pools pool).stack ++ [⟨pool, (pools pool).storage.length⟩]
      else (pools pool').stack := by
  unfold allocate
  by_cases same : pool' = pool
  · rw [same, Function.update_self, if_pos rfl]
  · rw [Function.update_of_ne same, if_neg same]

/-- A count that is not zero is the count of an entry. -/
theorem countAt_of_refcount_pos (pos : 0 < pools.refcount element) :
    pools.countAt element = some (pools.refcount element) := by
  unfold refcount at pos ⊢
  cases found : pools.countAt element with
  | none =>
      rw [found] at pos
      cases pos
  | some count => rfl

theorem countAt_eq_zero_iff :
    pools.countAt element = some 0 ↔
      element.index < (pools element.pool).storage.length ∧ pools.refcount element = 0 := by
  rw [refcount, countAt, entryAt]
  cases found : (pools element.pool).storage[element.index]? with
  | none => simp [List.getElem?_eq_none_iff.mp found]
  | some entry => simp [(List.getElem?_eq_some_iff.mp found).1]

theorem countAt_modifyEntry {f : SharedObjectPoolEntry T → SharedObjectPoolEntry T} {g : Nat → Nat}
    (counts : ∀ entry, (f entry).refcount = g entry.refcount) :
    (pools.modifyEntry element f).countAt other =
      if other = element then (pools.countAt other).map g else pools.countAt other := by
  unfold countAt
  rw [entryAt_modifyEntry]
  split
  · rw [Option.map_map, Option.map_map]
    exact congrArg (Option.map · _) (funext counts)
  · rfl

/-- The objects are irrelevant to the counts. -/
theorem countAt_modifyObject {f : SharedObjectPoolEntry T → SharedObjectPoolEntry T}
    (same : ∀ entry, (f entry).refcount = entry.refcount) :
    (pools.modifyEntry element f).countAt other = pools.countAt other := by
  rw [countAt_modifyEntry (g := id) same]
  split
  · exact Option.map_id_apply
  · rfl

@[simp] theorem countAt_setStack {stack : List EntryAddress} :
    (pools.setStack pool stack).countAt element = pools.countAt element := by
  rw [countAt, entryAt_setStack, countAt]

theorem countAt_allocate [Inhabited T] :
    (pools.allocate pool).countAt element =
      if element = ⟨pool, (pools pool).storage.length⟩ then some 0 else pools.countAt element := by
  unfold countAt
  rw [entryAt_allocate]
  split <;> rfl

end Pools

/-! ### Balanced pools -/

/-- The counts are those of the references that are held, and the stack of a pool has its
entries that nobody holds, each once. -/
structure Balanced (pools : Pools T) (held : Multiset EntryAddress) : Prop where
  counted : ∀ element, pools.refcount element = held.count element
  listed : ∀ pool element, element ∈ (pools pool).stack ↔
    element.pool = pool ∧ pools.countAt element = some 0
  once : ∀ pool, (pools pool).stack.Nodup

theorem balanced_empty : Balanced (fun _ => {} : Pools T) 0 where
  counted _ := rfl
  listed pool element := by
    simp [Pools.countAt, Pools.entryAt]
  once _ := List.nodup_nil

namespace Balanced

variable {pools : Pools T} {held : Multiset EntryAddress} {element : EntryAddress}

/-- A held entry is on no stack. -/
theorem countAt_of_mem (balanced : Balanced pools held) (mem : element ∈ held) :
    pools.countAt element = some (held.count element) := by
  have pos : 0 < pools.refcount element := by
    rw [balanced.counted]
    exact Multiset.count_pos.mpr mem
  rw [Pools.countAt_of_refcount_pos pos, balanced.counted]

/-- Nothing but the counts and the stacks matters. -/
theorem of_same {pools' : Pools T} (balanced : Balanced pools held)
    (counts : ∀ other, pools'.countAt other = pools.countAt other)
    (sameStack : ∀ pool, (pools' pool).stack = (pools pool).stack) : Balanced pools' held := by
  refine ⟨fun other => ?_, fun pool other => ?_, fun pool => ?_⟩
  · rw [Pools.refcount, counts]
    exact balanced.counted other
  · rw [sameStack, counts]
    exact balanced.listed pool other
  · rw [sameStack]
    exact balanced.once pool

/-- One more reference to an entry that is held. -/
theorem increment (balanced : Balanced pools held) (mem : element ∈ held) :
    Balanced (pools.modifyEntry element fun e => { e with refcount := e.refcount + 1 })
      (element ::ₘ held) := by
  have count : ∀ other,
      (pools.modifyEntry element fun e => { e with refcount := e.refcount + 1 }).countAt other =
        if other = element then some (held.count element + 1) else pools.countAt other := by
    intro other
    rw [Pools.countAt_modifyEntry (g := (· + 1)) fun _ => rfl]
    split
    · next same => rw [same, balanced.countAt_of_mem mem, Option.map_some]
    · rfl
  refine ⟨fun other => ?_, fun pool other => ?_, fun pool => ?_⟩
  · rw [Pools.refcount, count, Multiset.count_cons]
    split
    · next same => rw [same, Option.getD_some]
    · exact balanced.counted other
  · rw [Pools.stack_modifyEntry, balanced.listed, count]
    split
    · next same =>
        rw [same, balanced.countAt_of_mem mem]
        have pos := Multiset.count_pos.mpr mem
        simp [Nat.ne_of_gt pos]
    · rfl
  · rw [Pools.stack_modifyEntry]
    exact balanced.once pool

/-- One reference less; the last one gives the entry back. -/
theorem decrement (balanced : Balanced pools (element ::ₘ held)) :
    Balanced (SharedObjectPoolPtr.decRefCount pools ⟨some element.pool, some element⟩).1 held := by
  have before : pools.countAt element = some (held.count element + 1) := by
    rw [balanced.countAt_of_mem (Multiset.mem_cons_self _ _), Multiset.count_cons_self]
  let less := pools.modifyEntry element fun e => { e with refcount := e.refcount - 1 }
  have count : ∀ other, less.countAt other =
      if other = element then some (held.count element) else pools.countAt other := by
    intro other
    rw [Pools.countAt_modifyEntry (g := (· - 1)) fun _ => rfl]
    split
    · next same =>
        rw [same, before]
        rfl
    · rfl
  have counted : ∀ other, less.refcount other = held.count other := by
    intro other
    rw [Pools.refcount, count]
    split
    · next same => rw [same, Option.getD_some]
    · next different =>
        rw [← Multiset.count_cons_of_ne different, ← balanced.counted]
        rfl
  have stack : ∀ pool, (less pool).stack = (pools pool).stack := fun _ => Pools.stack_modifyEntry
  have notListed : ∀ pool, element ∉ (pools pool).stack := by
    intro pool mem
    have zero := ((balanced.listed pool element).mp mem).2
    rw [before] at zero
    cases zero
  unfold SharedObjectPoolPtr.decRefCount
  dsimp only
  split
  · next zero =>
      rw [counted] at zero
      have freed : ∀ pool, (less.free element.pool element pool).stack =
          if pool = element.pool then (pools pool).stack ++ [element] else (pools pool).stack := by
        intro pool
        rw [Pools.free, Pools.stack_setStack, stack, stack]
        split
        · next same => rw [same]
        · rfl
      refine ⟨fun other => ?_, fun pool other => ?_, fun pool => ?_⟩
      · rw [Pools.refcount, Pools.free, Pools.countAt_setStack]
        exact counted other
      · rw [freed, Pools.free, Pools.countAt_setStack, count]
        by_cases same : other = element
        · subst same
          rw [if_pos rfl, zero]
          split
          · next own => simp [own]
          · next foreign => simp [notListed, Ne.symm foreign]
        · rw [if_neg same, ← balanced.listed]
          split
          · simp [same]
          · rfl
      · rw [freed]
        split
        · rw [← List.concat_eq_append]
          exact (balanced.once pool).concat (notListed pool)
        · exact balanced.once pool
  · next nonzero =>
      rw [counted] at nonzero
      refine ⟨counted, fun pool other => ?_, fun pool => ?_⟩
      · rw [stack, balanced.listed, count]
        split
        · next same =>
            rw [same, before]
            simp [nonzero]
        · rfl
      · rw [stack]
        exact balanced.once pool

/-- A new entry, which nobody holds. -/
theorem allocate [Inhabited T] (balanced : Balanced pools held) (pool : Nat) :
    Balanced (pools.allocate pool) held := by
  have fresh : pools.countAt ⟨pool, (pools pool).storage.length⟩ = none := by
    simp [Pools.countAt, Pools.entryAt]
  have notListed : ∀ pool', (⟨pool, (pools pool).storage.length⟩ : EntryAddress) ∉
      (pools pool').stack := by
    intro pool' mem
    have zero := ((balanced.listed pool' _).mp mem).2
    rw [fresh] at zero
    cases zero
  refine ⟨fun other => ?_, fun pool' other => ?_, fun pool' => ?_⟩
  · rw [Pools.refcount, Pools.countAt_allocate, ← balanced.counted, Pools.refcount]
    split
    · next new => rw [new, fresh, Option.getD_some, Option.getD_none]
    · rfl
  · rw [Pools.stack_allocate, Pools.countAt_allocate]
    by_cases new : other = ⟨pool, (pools pool).storage.length⟩
    · subst new
      rw [if_pos rfl]
      split
      · next own => simp [own]
      · next foreign => simp [notListed, Ne.symm foreign]
    · rw [if_neg new, ← balanced.listed]
      split
      · next own => simp [own, new]
      · rfl
  · rw [Pools.stack_allocate]
    split
    · rw [← List.concat_eq_append]
      exact (balanced.once pool).concat (notListed pool)
    · exact balanced.once pool'

/-- The entry on top of the stack is taken by the first reference to it. -/
theorem take (balanced : Balanced pools held) {pool : Nat} {front : List EntryAddress}
    (stack : (pools pool).stack = front ++ [element]) :
    element ∉ held ∧ element.pool = pool ∧
      Balanced ((pools.setStack pool front).modifyEntry element fun e =>
        { e with refcount := e.refcount + 1 }) (element ::ₘ held) := by
  obtain ⟨own, zero⟩ := (balanced.listed pool element).mp (by simp [stack])
  have once := balanced.once pool
  rw [stack, ← List.concat_eq_append, List.nodup_concat] at once
  have none : held.count element = 0 := by
    rw [← balanced.counted, Pools.refcount, zero, Option.getD_some]
  have count : ∀ other, ((pools.setStack pool front).modifyEntry element fun e =>
      { e with refcount := e.refcount + 1 }).countAt other =
        if other = element then some 1 else pools.countAt other := by
    intro other
    rw [Pools.countAt_modifyEntry (g := (· + 1)) fun _ => rfl, Pools.countAt_setStack]
    split
    · next same =>
        rw [same, zero]
        rfl
    · rfl
  refine ⟨Multiset.count_eq_zero.mp none, own, fun other => ?_, fun pool' other => ?_, fun pool' => ?_⟩
  · rw [Pools.refcount, count, Multiset.count_cons]
    split
    · next same => rw [same, none, Option.getD_some]
    · exact balanced.counted other
  · rw [Pools.stack_modifyEntry, Pools.stack_setStack, count]
    by_cases same : other = element
    · subst same
      rw [if_pos rfl]
      split
      · simp [once.1]
      · next foreign =>
          simp [balanced.listed, own, Ne.symm foreign]
    · rw [if_neg same, ← balanced.listed]
      split
      · next top =>
          rw [top, stack]
          simp [same]
      · rfl
  · rw [Pools.stack_modifyEntry, Pools.stack_setStack]
    split
    · exact once.2
    · exact balanced.once pool'

/-- `get_or_allocate` returns an entry that nobody holds. -/
theorem getOrAllocateWith [Inhabited T] (balanced : Balanced pools held) (pool : Nat) (init : T → T) :
    ∃ element : EntryAddress, (getOrAllocateWith pools pool init).2 = ⟨some element.pool, some element⟩ ∧
      element.pool = pool ∧ element ∉ held ∧
      Balanced (Tyr.getOrAllocateWith pools pool init).1 (element ::ₘ held) := by
  let ready := if (pools pool).stack.isEmpty then pools.allocate pool else pools
  have readyBalanced : Balanced ready held := by
    simp only [ready]
    split
    · exact balanced.allocate pool
    · exact balanced
  have nonempty : (ready pool).stack ≠ [] := by
    simp only [ready]
    split
    · simp [Pools.stack_allocate]
    · next full => simpa using full
  have stack := List.dropLast_append_getLast nonempty
  have last := List.getLast?_eq_getLast_of_ne_nil nonempty
  generalize (ready pool).stack.getLast nonempty = element at stack last
  obtain ⟨unheld, own, taken⟩ := readyBalanced.take stack.symm
  have result : Tyr.getOrAllocateWith pools pool init =
      SharedObjectPoolPtr.create (((ready.setStack pool (ready pool).stack.dropLast).modifyEntry element
        fun e => { e with object := init e.object })) (some pool) (some element) := by
    unfold Tyr.getOrAllocateWith
    dsimp only
    rw [last]
  rw [result]
  refine ⟨element, by rw [own]; rfl, own, unheld, taken.of_same (fun other => ?_) fun pool' => ?_⟩
  · have object : ((ready.setStack pool (ready pool).stack.dropLast).modifyEntry element fun e =>
        { e with object := init e.object }).countAt other =
          (ready.setStack pool (ready pool).stack.dropLast).countAt other :=
      Pools.countAt_modifyObject fun _ => rfl
    rw [SharedObjectPoolPtr.create, SharedObjectPoolPtr.incRefCount,
      Pools.countAt_modifyEntry (g := (· + 1)) fun _ => rfl, object,
      Pools.countAt_modifyEntry (g := (· + 1)) fun _ => rfl]
  · rw [SharedObjectPoolPtr.create, SharedObjectPoolPtr.incRefCount]
    simp

end Balanced

/-! ### References -/

/-- The reference that a variable holds; one that is destroyed or null holds none. -/
def holds (slot : Option SharedObjectPoolPtr) : Multiset EntryAddress :=
  ((slot.bind SharedObjectPoolPtr.entry).toList : Multiset EntryAddress)

/-- The references of all variables. -/
def held (pointers : List (Option SharedObjectPoolPtr)) : Multiset EntryAddress :=
  (pointers.map holds).sum

theorem holds_null : holds (some {}) = 0 := rfl

theorem holds_none : holds none = 0 := rfl

/-- A null pointer, or a pointer to an entry of its pool. -/
def SharedObjectPoolPtr.Paired (ptr : SharedObjectPoolPtr) : Prop :=
  ptr = {} ∨ ∃ element : EntryAddress, ptr = ⟨some element.pool, some element⟩

theorem held_concat (pointers : List (Option SharedObjectPoolPtr)) (slot : Option SharedObjectPoolPtr) :
    held (pointers ++ [slot]) = holds slot + held pointers := by
  simp [held, add_comm]

/-- The reference of one variable apart from those of the others. -/
theorem held_set {pointers : List (Option SharedObjectPoolPtr)} {i : Nat}
    {slot : Option SharedObjectPoolPtr} (found : pointers[i]? = some slot) :
    ∃ rest, held pointers = holds slot + rest ∧
      ∀ slot', held (pointers.set i slot') = holds slot' + rest := by
  obtain ⟨inside, same⟩ := List.getElem?_eq_some_iff.mp found
  have apart : ∀ slot', held (pointers.take i ++ slot' :: pointers.drop (i + 1)) =
      holds slot' + (held (pointers.take i) + held (pointers.drop (i + 1))) := by
    intro slot'
    simp only [held, List.map_append, List.map_cons, List.sum_append, List.sum_cons]
    exact add_left_comm _ _ _
  refine ⟨held (pointers.take i) + held (pointers.drop (i + 1)), ?_, fun slot' => ?_⟩
  · rw [← apart, ← same, List.getElem_cons_drop, List.take_append_drop]
  · rw [List.set_eq_take_append_cons_drop, if_pos inside, apart]

namespace Balanced

variable {pools : Pools T} {rest : Multiset EntryAddress} {ptr : SharedObjectPoolPtr}

theorem incRefCount (balanced : Balanced pools rest) (paired : ptr.Paired)
    (shared : holds (some ptr) ≤ rest) :
    Balanced (ptr.incRefCount pools) (holds (some ptr) + rest) := by
  rcases paired with rfl | ⟨element, rfl⟩
  · rwa [holds_null, zero_add]
  · exact balanced.increment (Multiset.singleton_le.mp shared)

theorem decRefCount (paired : ptr.Paired) (balanced : Balanced pools (holds (some ptr) + rest)) :
    Balanced (ptr.decRefCount pools).1 rest := by
  rcases paired with rfl | ⟨element, rfl⟩
  · rwa [holds_null, zero_add] at balanced
  · exact balanced.decrement

end Balanced

/-! ### Runs -/

/-- The number of live pointers to an entry. -/
def Memory.numPointers (memory : Memory T) (element : EntryAddress) : Nat :=
  memory.pointers.countP fun slot => slot.bind SharedObjectPoolPtr.entry == some element

theorem count_held (pointers : List (Option SharedObjectPoolPtr)) (element : EntryAddress) :
    (held pointers).count element =
      pointers.countP fun slot => slot.bind SharedObjectPoolPtr.entry == some element := by
  induction pointers with
  | nil => rfl
  | cons slot rest ih =>
      have cons : held (slot :: rest) = holds slot + held rest := List.sum_cons
      rw [cons, Multiset.count_add, ih, List.countP_cons, Nat.add_comm, holds]
      congr 1
      cases slot.bind SharedObjectPoolPtr.entry with
      | none => rfl
      | some other =>
          rw [Option.toList_some, Multiset.coe_singleton, Multiset.count_singleton]
          by_cases same : element = other
          · simp [same]
          · simp [same, Ne.symm same]

/-- Pointers are null or point to an entry of their pool, and the pools count them. -/
structure Memory.Consistent (memory : Memory T) : Prop where
  paired : ∀ ptr, some ptr ∈ memory.pointers → ptr.Paired
  balanced : Balanced memory.pools (held memory.pointers)

theorem paired_null : SharedObjectPoolPtr.Paired {} := .inl rfl

theorem paired_set {pointers : List (Option SharedObjectPoolPtr)} {i : Nat}
    {slot : Option SharedObjectPoolPtr} (all : ∀ ptr, some ptr ∈ pointers → ptr.Paired)
    (paired : ∀ ptr, slot = some ptr → ptr.Paired) :
    ∀ ptr, some ptr ∈ pointers.set i slot → ptr.Paired := by
  intro ptr mem
  rcases List.mem_or_eq_of_mem_set mem with old | new
  · exact all ptr old
  · exact paired ptr new.symm

namespace Memory

variable {memory next : Memory T} {i : Nat} {ptr : SharedObjectPoolPtr}

theorem pointer_eq_some : memory.pointer i = some ptr ↔ memory.pointers[i]? = some (some ptr) := by
  rw [pointer, List.getD_eq_getElem?_getD]
  cases memory.pointers[i]? with
  | none => simp
  | some slot => simp

namespace Consistent

theorem paired_pointer (consistent : memory.Consistent) (live : memory.pointer i = some ptr) :
    ptr.Paired :=
  consistent.paired ptr (List.mem_of_getElem? (pointer_eq_some.mp live))

theorem push (consistent : memory.Consistent) {result : Pools T × SharedObjectPoolPtr}
    (paired : result.2.Paired)
    (balanced : Balanced result.1 (holds (some result.2) + held memory.pointers)) :
    (memory.push result).Consistent := by
  refine ⟨fun ptr mem => ?_, ?_⟩
  · rcases List.mem_append.mp mem with old | new
    · exact consistent.paired ptr old
    · cases List.mem_singleton.mp new
      exact paired
  · rw [Memory.push, held_concat]
    exact balanced

theorem pushCopy (consistent : memory.Consistent) (live : memory.pointer i = some ptr) :
    (memory.push (ptr.copyConstruct memory.pools)).Consistent := by
  have paired := consistent.paired_pointer live
  obtain ⟨rest, split, _⟩ := held_set (pointer_eq_some.mp live)
  refine consistent.push paired (consistent.balanced.incRefCount paired ?_)
  rw [split]
  exact Multiset.le_add_right _ _

theorem pushMoved (consistent : memory.Consistent) (live : memory.pointer i = some ptr) :
    Consistent { memory with pointers := memory.pointers.set i (some {}) ++ [some ptr] } := by
  have paired := consistent.paired_pointer live
  obtain ⟨rest, split, set⟩ := held_set (pointer_eq_some.mp live)
  refine ⟨fun other mem => ?_, ?_⟩
  · rcases List.mem_append.mp mem with old | new
    · refine paired_set consistent.paired (fun null same => ?_) other old
      cases same
      exact paired_null
    · cases List.mem_singleton.mp new
      exact paired
  · dsimp only
    rw [held_concat, set, holds_null, zero_add, ← split]
    exact consistent.balanced

/-- The pointer of a variable gives its reference back, and gets the reference `ptr'`. -/
theorem replace (consistent : memory.Consistent) (live : memory.pointer i = some ptr)
    {pools : Pools T} {slot : Option SharedObjectPoolPtr} (paired : ∀ ptr', slot = some ptr' → ptr'.Paired)
    (balanced : ∀ rest, held memory.pointers = holds (some ptr) + rest →
      held (memory.pointers.set i none) = rest →
        Balanced (ptr.decRefCount memory.pools).1 rest → Balanced pools (holds slot + rest)) :
    Consistent { pools, pointers := memory.pointers.set i slot } := by
  obtain ⟨rest, split, set⟩ := held_set (pointer_eq_some.mp live)
  refine ⟨paired_set consistent.paired paired, ?_⟩
  dsimp only
  rw [set]
  have others : held (memory.pointers.set i none) = rest := by
    rw [set, holds_none, zero_add]
  refine balanced rest split others (.decRefCount (consistent.paired_pointer live) ?_)
  rw [← split]
  exact consistent.balanced

theorem copyAssigned (consistent : memory.Consistent) (live : memory.pointer i = some ptr) {j : Nat}
    {other : SharedObjectPoolPtr} (liveOther : memory.pointer j = some other) (apart : i ≠ j) :
    Consistent
      { pools := (ptr.copyAssign memory.pools other).1
        pointers := memory.pointers.set i (some (ptr.copyAssign memory.pools other).2) } := by
  have paired := consistent.paired_pointer liveOther
  refine consistent.replace live (fun new same => ?_) fun rest _ others balanced => ?_
  · cases same
    exact paired
  · refine balanced.incRefCount paired ?_
    have stays : (memory.pointers.set i none)[j]? = some (some other) := by
      rw [List.getElem?_set_ne apart]
      exact pointer_eq_some.mp liveOther
    obtain ⟨_, split, _⟩ := held_set stays
    rw [← others, split]
    exact Multiset.le_add_right _ _

theorem destroyed (consistent : memory.Consistent) (live : memory.pointer i = some ptr) :
    Consistent
      { pools := ptr.destroy memory.pools
        pointers := memory.pointers.set i none } := by
  refine consistent.replace live nofun fun rest _ _ balanced => ?_
  rw [holds_none, zero_add]
  exact balanced

theorem moveAssigned (consistent : memory.Consistent) (live : memory.pointer i = some ptr) {j : Nat}
    {other : SharedObjectPoolPtr} (liveOther : memory.pointer j = some other) (apart : i ≠ j) :
    Consistent
      { pools := (ptr.moveAssign memory.pools other).1
        pointers := (memory.pointers.set i (some (ptr.moveAssign memory.pools other).2.1)).set j
          (some (ptr.moveAssign memory.pools other).2.2) } := by
  have paired := consistent.paired_pointer liveOther
  obtain ⟨rest, split, set⟩ := held_set (pointer_eq_some.mp live)
  have stays : (memory.pointers.set i (some other))[j]? = some (some other) := by
    rw [List.getElem?_set_ne apart]
    exact pointer_eq_some.mp liveOther
  obtain ⟨rest', splitOther, setOther⟩ := held_set stays
  -- The reference of the other pointer is the one that is moved.
  have same : rest = rest' := by
    rw [set] at splitOther
    exact add_left_cancel splitOther
  refine ⟨paired_set (paired_set consistent.paired ?_) ?_, ?_⟩
  · intro new eq
    cases eq
    exact paired
  · intro null eq
    cases eq
    exact paired_null
  · have moved : held ((memory.pointers.set i (some other)).set j (some {})) = rest := by
      rw [setOther, holds_null, zero_add, same]
    have balanced := consistent.balanced
    rw [split] at balanced
    have released := Balanced.decRefCount (consistent.paired_pointer live) balanced
    rw [← moved] at released
    exact released

variable [Inhabited T]

theorem pushAllocated (consistent : memory.Consistent) (pool : Nat) (init : T → T) :
    (memory.push (Tyr.getOrAllocateWith memory.pools pool init)).Consistent := by
  obtain ⟨element, result, _, _, balanced⟩ := consistent.balanced.getOrAllocateWith pool init
  refine consistent.push ?_ ?_
  · rw [result]
    exact .inr ⟨element, rfl⟩
  · rw [result]
    exact balanced

theorem pushClone (consistent : memory.Consistent) (live : memory.pointer i = some ptr) :
    (memory.push (ptr.clone memory.pools)).Consistent := by
  rcases consistent.paired_pointer live with rfl | ⟨entry, rfl⟩
  · have null : SharedObjectPoolPtr.clone memory.pools {} = (memory.pools, {}) := rfl
    rw [null]
    refine consistent.push paired_null ?_
    rw [holds_null, zero_add]
    exact consistent.balanced
  · obtain ⟨element, result, _, _, balanced⟩ :=
      consistent.balanced.getOrAllocateWith entry.pool id
    unfold SharedObjectPoolPtr.clone getOrAllocate
    dsimp only
    rw [result]
    dsimp only
    split
    · next other own same _ =>
        cases same
        refine consistent.push (.inr ⟨element, rfl⟩) ?_
        exact balanced.of_same (fun _ => Pools.countAt_modifyObject fun _ => rfl)
          fun _ => Pools.stack_modifyEntry
    · exact consistent.push (.inr ⟨element, rfl⟩) balanced

end Consistent

theorem consistent_empty : Consistent ({} : Memory T) where
  paired _ mem := absurd mem List.not_mem_nil
  balanced := balanced_empty

variable [Inhabited T]

/-- Every statement keeps the counts. -/
theorem step_consistent (consistent : memory.Consistent) {op : PointerOp T}
    (step : memory.step op = some next) : next.Consistent := by
  cases op with
  | construct =>
      cases step
      refine consistent.push paired_null ?_
      rw [holds_null, zero_add]
      exact consistent.balanced
  | getOrAllocate pool =>
      cases step
      exact consistent.pushAllocated pool id
  | getOrAllocateWith pool init =>
      cases step
      exact consistent.pushAllocated pool init
  | clone source =>
      obtain ⟨ptr, live, rfl⟩ := Option.map_eq_some_iff.mp step
      exact consistent.pushClone live
  | copyConstruct source =>
      obtain ⟨ptr, live, rfl⟩ := Option.map_eq_some_iff.mp step
      exact consistent.pushCopy live
  | moveConstruct source =>
      obtain ⟨ptr, live, rfl⟩ := Option.map_eq_some_iff.mp step
      exact consistent.pushMoved live
  | copyAssign target source =>
      obtain ⟨this, live, step⟩ := Option.bind_eq_some_iff.mp step
      obtain ⟨other, liveOther, rfl⟩ := Option.map_eq_some_iff.mp step
      split
      · exact consistent
      · next apart => exact consistent.copyAssigned live liveOther apart
  | moveAssign target source =>
      obtain ⟨this, live, step⟩ := Option.bind_eq_some_iff.mp step
      obtain ⟨other, liveOther, rfl⟩ := Option.map_eq_some_iff.mp step
      split
      · exact consistent
      · next apart => exact consistent.moveAssigned live liveOther apart
  | write target object =>
      obtain ⟨entry, _, rfl⟩ := Option.map_eq_some_iff.mp step
      refine ⟨consistent.paired, consistent.balanced.of_same ?_ fun _ => Pools.stack_modifyEntry⟩
      exact fun _ => Pools.countAt_modifyObject fun _ => rfl
  | destroy target =>
      obtain ⟨ptr, live, rfl⟩ := Option.map_eq_some_iff.mp step
      exact consistent.destroyed live

theorem run_consistent {ops : List (PointerOp T)} (consistent : memory.Consistent)
    (run : ops.foldlM Memory.step memory = some next) : next.Consistent := by
  induction ops generalizing memory with
  | nil =>
      cases run
      exact consistent
  | cons op ops ih =>
      obtain ⟨mid, one, later⟩ := Option.bind_eq_some_iff.mp run
      exact ih (step_consistent consistent one) later

/-- In every run, the counts are the numbers of pointers, the stack of a pool has its entries
without pointers once, and what is allocated next has no pointer. -/
theorem run_counts_pointers {ops : List (PointerOp T)} (ran : run ops = some memory) :
    (∀ element, memory.pools.refcount element = memory.numPointers element) ∧
      (∀ pool element, element ∈ (memory.pools pool).stack ↔
        element.pool = pool ∧ element.index < (memory.pools pool).storage.length ∧
          memory.pools.refcount element = 0) ∧
      (∀ pool, (memory.pools pool).stack.Nodup) ∧
      ∀ pool init, ∃ element,
        (Tyr.getOrAllocateWith memory.pools pool init).2 = ⟨some pool, some element⟩ ∧
          memory.numPointers element = 0 := by
  have consistent := run_consistent consistent_empty ran
  have balanced := consistent.balanced
  have counts : ∀ element, (held memory.pointers).count element = memory.numPointers element :=
    count_held memory.pointers
  refine ⟨fun element => ?_, fun pool element => ?_, balanced.once, fun pool init => ?_⟩
  · rw [balanced.counted, counts]
  · rw [balanced.listed]
    constructor
    · rintro ⟨rfl, zero⟩
      exact ⟨rfl, Pools.countAt_eq_zero_iff.mp zero⟩
    · rintro ⟨rfl, zero⟩
      exact ⟨rfl, Pools.countAt_eq_zero_iff.mpr zero⟩
  · obtain ⟨element, result, rfl, unheld, _⟩ := balanced.getOrAllocateWith pool init
    refine ⟨element, result, ?_⟩
    rw [← counts, Multiset.count_eq_zero.mpr unheld]

/-- Copies, a self-assignment and moves, the last pointer destroyed, and the entry used again. -/
theorem run_counts_pointers_moves :
    ∃ memory : Memory Nat,
      run [.getOrAllocate 0, .copyConstruct 0, .copyAssign 0 0, .moveConstruct 1, .destroy 0,
        .moveAssign 1 2, .destroy 1, .getOrAllocate 0] = some memory ∧
      memory.pools.refcount ⟨0, 0⟩ = 1 ∧
      (∀ element, memory.pools.refcount element = memory.numPointers element) ∧
      ∀ pool, (memory.pools pool).stack.Nodup := by
  refine ⟨_, rfl, rfl, ?_⟩
  have ran : run ([.getOrAllocate 0, .copyConstruct 0, .copyAssign 0 0, .moveConstruct 1,
    .destroy 0, .moveAssign 1 2, .destroy 1, .getOrAllocate 0] : List (PointerOp Nat)) = some _ := rfl
  obtain ⟨counts, _, once, _⟩ := run_counts_pointers ran
  exact ⟨counts, once⟩

end Memory

end Tyr
