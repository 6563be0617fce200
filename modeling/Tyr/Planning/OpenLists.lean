import Mathlib.Data.List.GetD
import Mathlib.Data.List.Sort

/-!
Open lists.

A priority queue removes an entry with a smallest key. An alternating open list
takes its entries from several queues in turn, from each one as many as its weight
says, and passes over the queues that are empty.

* `popLeast_perm` — a priority queue removes one entry and keeps the others.
* `AlternatingOpenList.Valid.pop_entries` — so does the alternating open list,
  whatever its weights are.
* `AlternatingOpenList.Valid.pop_eq_none` — it fails only if all queues are empty.
-/

namespace Tyr.Planning

/-! ### Priority queues -/

section

variable {E : Type*} (le : E → E → Prop) [DecidableRel le]

/-- The first of the entries with a smallest key, and the other entries. -/
def popLeast (queue : List E) : Option (E × List E) :=
  match queue.insertionSort le with
  | [] => none
  | entry :: rest => some (entry, rest)

variable {le}

theorem popLeast_perm {queue rest : List E} {entry : E} (popped : popLeast le queue = some (entry, rest)) :
    queue.Perm (entry :: rest) := by
  have perm := List.perm_insertionSort le queue
  unfold popLeast at popped
  split at popped
  · cases popped
  · next first others sorted =>
      cases popped
      rw [sorted] at perm
      exact perm.symm

theorem popLeast_eq_none {queue : List E} : popLeast le queue = none ↔ queue = [] := by
  have perm := List.perm_insertionSort le queue
  unfold popLeast
  split
  · next sorted =>
      rw [sorted] at perm
      exact iff_of_true rfl perm.symm.eq_nil
  · next first others sorted =>
      rw [sorted] at perm
      refine iff_of_false nofun ?_
      rintro rfl
      exact List.cons_ne_nil _ _ perm.eq_nil

end

/-! ### Alternating between queues -/

/-- `pos` is the current queue and `count` the number of entries taken from it since
it became the current one. -/
structure AlternatingOpenList (E : Type*) where
  queues : List (List E)
  weights : List Nat
  pos : Nat
  count : Nat

namespace AlternatingOpenList

variable {E : Type*} (openlist : AlternatingOpenList E)

def queue (i : Nat) : List E := openlist.queues.getD i []

def isEmpty : Bool := openlist.queues.all List.isEmpty

def insert (i : Nat) (entry : E) : AlternatingOpenList E :=
  { openlist with queues := openlist.queues.set i (entry :: openlist.queue i) }

/-- All entries. -/
def entries : List E := openlist.queues.flatten

/-- The position after `pos`, in a circle. -/
def nextPos (pos : Nat) : Nat := if pos + 1 = openlist.queues.length then 0 else pos + 1

/-- The loop of `find_next_nonempty_queue`: after one round over the queues it stands
where it began. -/
def nextNonemptyQueue : (rounds : Nat) → (pos : Nat) → Nat
  | 0, pos => pos
  | rounds + 1, pos =>
      if (openlist.queue (openlist.nextPos pos)).isEmpty then
        nextNonemptyQueue rounds (openlist.nextPos pos)
      else openlist.nextPos pos

def findNextNonemptyQueue : AlternatingOpenList E :=
  { openlist with
    pos := openlist.nextNonemptyQueue openlist.queues.length openlist.pos
    count := 0 }

/-- Pass on to the next queue if the current one is empty or had its turn. -/
def advance : AlternatingOpenList E :=
  if (openlist.queue openlist.pos).isEmpty ∨ openlist.weights.getD openlist.pos 0 ≤ openlist.count then
    openlist.findNextNonemptyQueue
  else openlist

/-- `top` followed by `pop`. -/
def pop (le : E → E → Prop) [DecidableRel le] : Option (E × AlternatingOpenList E) :=
  if openlist.isEmpty then none
  else
    let current := openlist.advance
    (popLeast le (current.queue current.pos)).map fun (entry, rest) =>
      (entry, { current with
        queues := current.queues.set current.pos rest
        count := current.count + 1 })

variable {openlist}

theorem isEmpty_iff : openlist.isEmpty = true ↔ openlist.entries = [] := by
  simp [isEmpty, entries, List.flatten_eq_nil_iff]

/-- Removing an entry from one of the queues. -/
theorem flatten_perm_of_getElem? {queues : List (List E)} {i : Nat} {queue rest : List E} {entry : E}
    (position : queues[i]? = some queue) (perm : queue.Perm (entry :: rest)) :
    queues.flatten.Perm (entry :: (queues.set i rest).flatten) := by
  induction queues generalizing i with
  | nil => cases position
  | cons first others ih =>
      cases i with
      | zero =>
          rw [List.getElem?_cons_zero] at position
          cases position
          simpa using perm.append_right others.flatten
      | succ i =>
          rw [List.getElem?_cons_succ] at position
          rw [List.set_cons_succ, List.flatten_cons, List.flatten_cons]
          exact ((ih position).append_left first).trans List.perm_middle

theorem insert_entries {i : Nat} {entry : E} (inside : i < openlist.queues.length) :
    (openlist.insert i entry).entries.Perm (entry :: openlist.entries) := by
  have queue : openlist.queue i = openlist.queues[i] := List.getD_eq_getElem _ _ inside
  have position : (openlist.queues.set i (entry :: openlist.queue i))[i]? =
      some (entry :: openlist.queue i) := List.getElem?_set_self inside
  have removed := flatten_perm_of_getElem? position (.refl _)
  rw [List.set_set, queue, List.set_getElem_self] at removed
  rw [entries, insert, queue]
  exact removed

/-- A search that ends at an empty queue has passed over empty queues only. -/
theorem queue_eq_nil_of_nextNonemptyQueue : ∀ (rounds pos : Nat), pos < openlist.queues.length →
    openlist.queue (openlist.nextNonemptyQueue rounds pos) = [] →
      ∀ k < rounds, openlist.queue ((pos + k + 1) % openlist.queues.length) = [] := by
  intro rounds
  induction rounds with
  | zero => exact fun _ _ _ k less => absurd less (Nat.not_lt_zero k)
  | succ rounds ih =>
      intro pos inside ends k less
      have next : openlist.nextPos pos = (pos + 1) % openlist.queues.length := by
        unfold nextPos
        split
        · next last => rw [last, Nat.mod_self]
        · next notLast => rw [Nat.mod_eq_of_lt (by omega)]
      rw [nextNonemptyQueue] at ends
      split at ends
      · next empty =>
          cases k with
          | zero =>
              rw [Nat.add_zero, ← next]
              exact List.isEmpty_iff.mp empty
          | succ k =>
              have insideNext : openlist.nextPos pos < openlist.queues.length := by
                rw [next]
                exact Nat.mod_lt _ (Nat.zero_lt_of_lt inside)
              have later := ih _ insideNext ends k (Nat.lt_of_succ_lt_succ less)
              rw [next, Nat.add_assoc, Nat.mod_add_mod] at later
              rw [show pos + (k + 1) + 1 = pos + 1 + (k + 1) by omega]
              exact later
      · next nonempty =>
          rw [ends] at nonempty
          exact absurd rfl nonempty

/-- The search for a queue ends at one that has entries, if there is any. -/
theorem nextNonemptyQueue_nonempty {i pos : Nat} (nonempty : openlist.queue i ≠ [])
    (inside : pos < openlist.queues.length) :
    openlist.queue (openlist.nextNonemptyQueue openlist.queues.length pos) ≠ [] := by
  intro ends
  have passed := queue_eq_nil_of_nextNonemptyQueue _ pos inside ends
  have less : i < openlist.queues.length := by
    by_contra outside
    exact nonempty (List.getD_eq_default _ _ (Nat.le_of_not_lt outside))
  rcases Nat.lt_or_ge pos i with before | after
  · have visited := passed (i - pos - 1) (by omega)
    rw [show pos + (i - pos - 1) + 1 = i by omega, Nat.mod_eq_of_lt less] at visited
    exact nonempty visited
  · have visited := passed (i + openlist.queues.length - pos - 1) (by omega)
    rw [show pos + (i + openlist.queues.length - pos - 1) + 1 = i + openlist.queues.length by omega,
      Nat.add_mod_right, Nat.mod_eq_of_lt less] at visited
    exact nonempty visited

/-- The current queue is one of the queues. -/
structure Valid (openlist : AlternatingOpenList E) : Prop where
  pos_lt : openlist.pos < openlist.queues.length

@[simp] theorem advance_queues : openlist.advance.queues = openlist.queues := by
  unfold advance
  split <;> rfl

theorem nextNonemptyQueue_lt : ∀ (rounds : Nat) {pos : Nat}, pos < openlist.queues.length →
    openlist.nextNonemptyQueue rounds pos < openlist.queues.length
  | 0, _, inside => inside
  | rounds + 1, pos, inside => by
      have next : openlist.nextPos pos < openlist.queues.length := by
        unfold nextPos
        split <;> omega
      rw [nextNonemptyQueue]
      split
      · exact nextNonemptyQueue_lt rounds next
      · exact next

theorem Valid.advance_pos_lt (valid : openlist.Valid) :
    openlist.advance.pos < openlist.queues.length := by
  unfold advance
  split
  · exact nextNonemptyQueue_lt _ valid.pos_lt
  · exact valid.pos_lt

/-- After passing on, the current queue has entries if any queue has. -/
theorem Valid.advance_nonempty (valid : openlist.Valid) (nonempty : openlist.isEmpty = false) :
    openlist.queue openlist.advance.pos ≠ [] := by
  unfold advance
  split
  · obtain ⟨i, hasEntries⟩ : ∃ i, openlist.queue i ≠ [] := by
      by_contra allEmpty
      rw [not_exists] at allEmpty
      have empty : openlist.isEmpty = true := by
        rw [isEmpty, List.all_eq_true]
        intro queue mem
        obtain ⟨i, less, rfl⟩ := List.mem_iff_getElem.mp mem
        have this := not_not.mp (allEmpty i)
        rw [queue, List.getD_eq_getElem _ _ less] at this
        exact List.isEmpty_iff.mpr this
      rw [empty] at nonempty
      cases nonempty
    exact nextNonemptyQueue_nonempty hasEntries valid.pos_lt
  · next current =>
      rw [not_or] at current
      exact fun empty => current.1 (List.isEmpty_iff.mpr empty)

variable {le : E → E → Prop} [DecidableRel le]

theorem Valid.pop_eq_none (valid : openlist.Valid) : openlist.pop le = none ↔ openlist.entries = [] := by
  rw [← isEmpty_iff]
  unfold pop
  split
  · next empty => exact iff_of_true rfl empty
  · next nonempty =>
      refine iff_of_false ?_ nonempty
      rw [Option.map_eq_none_iff, popLeast_eq_none, queue, advance_queues]
      exact valid.advance_nonempty (Bool.eq_false_of_not_eq_true nonempty)

/-- An entry is removed, and no other entry is lost. -/
theorem Valid.pop_entries (valid : openlist.Valid) {entry : E} {rest : AlternatingOpenList E}
    (popped : openlist.pop le = some (entry, rest)) :
    openlist.entries.Perm (entry :: rest.entries) ∧ rest.Valid ∧
      rest.queues.length = openlist.queues.length ∧ rest.weights = openlist.weights := by
  unfold pop at popped
  split at popped
  · cases popped
  · obtain ⟨⟨first, others⟩, removed, same⟩ := Option.map_eq_some_iff.mp popped
    cases same
    have inside := valid.advance_pos_lt
    have position : openlist.queues[openlist.advance.pos]? =
        some (openlist.queue openlist.advance.pos) := by
      rw [queue, List.getD_eq_getElem _ _ inside, List.getElem?_eq_getElem inside]
    rw [queue, advance_queues, ← queue] at removed
    refine ⟨?_, ⟨?_⟩, ?_, ?_⟩
    · rw [entries, entries, advance_queues]
      exact flatten_perm_of_getElem? position (popLeast_perm removed)
    · simpa using inside
    · simp
    · unfold advance
      split <;> rfl

theorem Valid.insert (valid : openlist.Valid) (i : Nat) (entry : E) : (openlist.insert i entry).Valid := by
  refine ⟨?_⟩
  rw [AlternatingOpenList.insert, List.length_set]
  exact valid.pos_lt

end AlternatingOpenList

end Tyr.Planning
