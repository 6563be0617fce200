import Mathlib

/-!
Buckets of facts by cost.

`CostBuckets` is a monotone bucket queue: a fact waits in the bucket of its
cost, `update` moves it to another bucket, and `advanceToNextNonempty` moves the
current cost forward to the next bucket that is not empty.
-/

namespace Tyr.Datalog

structure CostBuckets (α : Type*) where
  buckets : List (Finset α)
  current : Nat
  totalSize : Nat

/-- A cost; `⊤` is the sentinel of a fact without a cost, the greatest value of
the source's type. -/
abbrev Cost := WithTop Nat

theorem Cost.some_eq_natCast {c d : Nat} : (WithTop.some c : Cost) = (d : Cost) ↔ d = c :=
  WithTop.coe_inj.trans eq_comm

/-- The cost of a head before and after a merge. -/
structure CostUpdate where
  oldCost : Cost
  newCost : Cost

namespace CostBuckets

variable {α : Type*}

def create : CostBuckets α := ⟨[∅], 0, 0⟩

/-- The bucket of a cost; there is none beyond the vector. -/
def bucket (q : CostBuckets α) (c : Nat) : Finset α := q.buckets.getD c ∅

def clear (q : CostBuckets α) : CostBuckets α := ⟨q.buckets.map fun _ => ∅, 0, 0⟩

def resizeToFit (q : CostBuckets α) (c : Nat) : CostBuckets α :=
  { q with buckets := q.buckets ++ List.replicate (c + 1 - q.buckets.length) ∅ }

@[simp] theorem bucket_clear (q : CostBuckets α) (c : Nat) : q.clear.bucket c = ∅ := by
  rw [bucket, clear, List.getD_eq_getElem?_getD, List.getElem?_map]
  cases q.buckets[c]? <;> rfl

@[simp] theorem bucket_resizeToFit (q : CostBuckets α) (c d : Nat) :
    (q.resizeToFit c).bucket d = q.bucket d := by
  unfold resizeToFit bucket
  by_cases inside : d < q.buckets.length
  · rw [List.getD_append _ _ _ _ inside]
  · have outside : q.buckets.length ≤ d := Nat.le_of_not_lt inside
    rw [List.getD_append_right _ _ _ _ outside, List.getD_eq_default _ _ outside,
      List.getD_eq_getElem?_getD, List.getElem?_replicate]
    split <;> rfl

theorem lt_length_resizeToFit (q : CostBuckets α) (c : Nat) :
    c < (q.resizeToFit c).buckets.length := by
  unfold resizeToFit
  rw [List.length_append, List.length_replicate]
  omega

theorem bucket_set {buckets : List (Finset α)} {c : Nat} (inside : c < buckets.length)
    (s : Finset α) (current size d : Nat) :
    (CostBuckets.mk (buckets.set c s) current size).bucket d =
      if d = c then s else buckets.getD d ∅ := by
  unfold bucket
  split
  · next same =>
      subst same
      rw [List.getD_eq_getElem _ _ (by simpa using inside), List.getElem_set_self]
  · next different =>
      rw [List.getD_eq_getElem?_getD, List.getElem?_set_ne (Ne.symm different),
        List.getD_eq_getElem?_getD]

theorem lt_length_of_mem {q : CostBuckets α} {c : Nat} {a : α} (mem : a ∈ q.bucket c) :
    c < q.buckets.length := by
  by_contra outside
  rw [bucket, List.getD_eq_default _ _ (by omega)] at mem
  exact Finset.notMem_empty a mem

variable [DecidableEq α]

def insert (q : CostBuckets α) (c : Nat) (a : α) : CostBuckets α :=
  let q := q.resizeToFit c
  if a ∈ q.bucket c then q
  else { q with buckets := q.buckets.set c (Insert.insert a (q.bucket c)), totalSize := q.totalSize + 1 }

def erase (q : CostBuckets α) (c : Nat) (a : α) : CostBuckets α :=
  if a ∈ q.bucket c then
    { q with buckets := q.buckets.set c ((q.bucket c).erase a), totalSize := q.totalSize - 1 }
  else q

/-- `erase` at an optional cost. -/
def eraseCost (q : CostBuckets α) (c : Cost) (a : α) : CostBuckets α :=
  match c with
  | ⊤ => q
  | (c : Nat) => q.erase c a

/-- `insert` at a cost. No head is ever merged at the sentinel. -/
def insertCost (q : CostBuckets α) (c : Cost) (a : α) : CostBuckets α :=
  match c with
  | ⊤ => q
  | (c : Nat) => q.insert c a

def update (q : CostBuckets α) (update : CostUpdate) (a : α) : CostBuckets α :=
  (q.eraseCost update.oldCost a).insertCost update.newCost a

def clearCurrent (q : CostBuckets α) : CostBuckets α :=
  { q with
    totalSize := q.totalSize - (q.bucket q.current).card
    buckets := q.buckets.set q.current ∅ }

/-- The first cost from `c` on whose bucket is not empty, among the next
`remaining` buckets; `c + remaining` if there is none. -/
def firstNonempty (q : CostBuckets α) : (remaining c : Nat) → Nat
  | 0, c => c
  | remaining + 1, c => if q.bucket c = ∅ then q.firstNonempty remaining (c + 1) else c

/-- Move forward to the next bucket that is not empty, if there is one. -/
def advanceToNextNonempty (q : CostBuckets α) : Bool × CostBuckets α :=
  let next := q.firstNonempty (q.buckets.length - q.current) q.current
  (decide (next < q.buckets.length), { q with current := next })

def currentBucket (q : CostBuckets α) : Finset α := q.bucket q.current

/-! ### Members of the buckets -/

theorem mem_insert {q : CostBuckets α} {c d : Nat} {a x : α} :
    x ∈ (q.insert c a).bucket d ↔ x ∈ q.bucket d ∨ (d = c ∧ x = a) := by
  unfold insert
  dsimp only
  split
  · next present =>
      rw [bucket_resizeToFit] at present ⊢
      constructor
      · exact .inl
      · rintro (old | ⟨rfl, rfl⟩)
        · exact old
        · exact present
  · next absent =>
      rw [bucket_set (q.lt_length_resizeToFit c)]
      change x ∈ (if d = c then _ else (q.resizeToFit c).bucket d) ↔ _
      rw [bucket_resizeToFit, bucket_resizeToFit]
      split
      · next same =>
          subst same
          rw [Finset.mem_insert, or_comm, and_iff_right rfl]
      · next different => exact (or_iff_left fun both => different both.1).symm

theorem mem_erase {q : CostBuckets α} {c d : Nat} {a x : α} :
    x ∈ (q.erase c a).bucket d ↔ x ∈ q.bucket d ∧ ¬ (d = c ∧ x = a) := by
  unfold erase
  split
  · next present =>
      rw [bucket_set (lt_length_of_mem present)]
      change x ∈ (if d = c then _ else q.bucket d) ↔ _
      split
      · next same =>
          subst same
          rw [Finset.mem_erase, and_comm, and_iff_right rfl]
      · next different => exact (and_iff_left fun both => different both.1).symm
  · next absent =>
      constructor
      · rintro mem
        refine ⟨mem, ?_⟩
        rintro ⟨rfl, rfl⟩
        exact absent mem
      · exact And.left

theorem mem_eraseCost {q : CostBuckets α} {c : Cost} {d : Nat} {a x : α} :
    x ∈ (q.eraseCost c a).bucket d ↔ x ∈ q.bucket d ∧ ¬ (c = d ∧ x = a) := by
  induction c using WithTop.recTopCoe with
  | top => simp [eraseCost]
  | coe c =>
      change x ∈ (q.erase c a).bucket d ↔ _
      rw [mem_erase, Cost.some_eq_natCast]

theorem mem_insertCost {q : CostBuckets α} {c : Cost} {d : Nat} {a x : α} :
    x ∈ (q.insertCost c a).bucket d ↔ x ∈ q.bucket d ∨ (c = d ∧ x = a) := by
  induction c using WithTop.recTopCoe with
  | top => simp [insertCost]
  | coe c =>
      change x ∈ (q.insert c a).bucket d ↔ _
      rw [mem_insert, Cost.some_eq_natCast]

theorem mem_update {q : CostBuckets α} {u : CostUpdate} {d : Nat} {a x : α} :
    x ∈ (q.update u a).bucket d ↔
      (x ∈ q.bucket d ∧ ¬ (u.oldCost = d ∧ x = a)) ∨ (u.newCost = d ∧ x = a) := by
  rw [update, mem_insertCost, mem_eraseCost]

theorem mem_update_of_ne {q : CostBuckets α} {u : CostUpdate} {d : Nat} {a x : α} (other : x ≠ a) :
    x ∈ (q.update u a).bucket d ↔ x ∈ q.bucket d := by
  rw [mem_update]
  tauto

/-- A member of the bucket of its old cost only is then in the bucket of its new cost only. -/
theorem mem_update_self {q : CostBuckets α} {oldCost newCost : Cost} {a : α}
    (waits : ∀ c : Nat, a ∈ q.bucket c ↔ oldCost = c) (d : Nat) :
    a ∈ (q.update ⟨oldCost, newCost⟩ a).bucket d ↔ newCost = d := by
  rw [mem_update, waits]
  tauto

omit [DecidableEq α] in
theorem mem_clearCurrent {q : CostBuckets α} {d : Nat} {x : α} :
    x ∈ q.clearCurrent.bucket d ↔ x ∈ q.bucket d ∧ d ≠ q.current := by
  unfold clearCurrent
  by_cases inside : q.current < q.buckets.length
  · rw [bucket_set inside]
    split
    · next same => simp [same]
    · next different => exact (and_iff_left different).symm
  · have outside : q.buckets.length ≤ q.current := Nat.le_of_not_lt inside
    rw [List.set_eq_of_length_le outside]
    change x ∈ q.bucket d ↔ _
    refine (and_iff_left_of_imp fun mem => ?_).symm
    have := lt_length_of_mem mem
    omega

@[simp] theorem current_insert (q : CostBuckets α) (c : Nat) (a : α) :
    (q.insert c a).current = q.current := by
  unfold insert
  dsimp only
  split <;> rfl

@[simp] theorem current_erase (q : CostBuckets α) (c : Nat) (a : α) :
    (q.erase c a).current = q.current := by
  unfold erase
  split <;> rfl

@[simp] theorem current_update (q : CostBuckets α) (u : CostUpdate) (a : α) :
    (q.update u a).current = q.current := by
  have erased : ∀ c : Cost, (q.eraseCost c a).current = q.current := by
    intro c
    induction c using WithTop.recTopCoe with
    | top => rfl
    | coe c => exact current_erase q c a
  have inserted : ∀ (c : Cost) (r : CostBuckets α), (r.insertCost c a).current = r.current := by
    intro c r
    induction c using WithTop.recTopCoe with
    | top => rfl
    | coe c => exact current_insert r c a
  rw [update, inserted, erased]

/-! ### The total size -/

/-- The total size is the sum of the sizes of the buckets. -/
def Counts (q : CostBuckets α) : Prop := q.totalSize = (q.buckets.map Finset.card).sum

omit [DecidableEq α] in
/-- Replacing a bucket changes the sum by the sizes of the two. -/
theorem sum_card_set {buckets : List (Finset α)} {c : Nat} (inside : c < buckets.length)
    (s : Finset α) :
    ((buckets.set c s).map Finset.card).sum + (buckets.getD c ∅).card =
      (buckets.map Finset.card).sum + s.card := by
  induction buckets generalizing c with
  | nil => exact absurd inside (Nat.not_lt_zero c)
  | cons bucket buckets ih =>
      cases c with
      | zero =>
          simp only [List.set_cons_zero, List.map_cons, List.sum_cons, List.getD_cons_zero]
          omega
      | succ c =>
          have rest := ih (Nat.lt_of_succ_lt_succ inside)
          simp only [List.set_cons_succ, List.map_cons, List.sum_cons, List.getD_cons_succ]
          omega

omit [DecidableEq α] in
theorem counts_clear (q : CostBuckets α) : q.clear.Counts := by
  unfold Counts clear
  rw [List.map_map]
  induction q.buckets with
  | nil => rfl
  | cons bucket buckets ih => simpa using ih

omit [DecidableEq α] in
theorem Counts.resizeToFit {q : CostBuckets α} (counts : q.Counts) (c : Nat) :
    (q.resizeToFit c).Counts := by
  unfold Counts CostBuckets.resizeToFit
  simp only [List.map_append, List.map_replicate, Finset.card_empty, List.sum_append,
    List.sum_replicate, smul_zero, Nat.add_zero]
  exact counts

theorem Counts.insert {q : CostBuckets α} (counts : q.Counts) (c : Nat) (a : α) :
    (q.insert c a).Counts := by
  have resized : (q.resizeToFit c).totalSize = _ := counts.resizeToFit c
  unfold CostBuckets.insert
  dsimp only
  split
  · exact resized
  · next absent =>
      have sum := sum_card_set (q.lt_length_resizeToFit c) (Insert.insert a ((q.resizeToFit c).bucket c))
      rw [Finset.card_insert_of_notMem absent] at sum
      unfold Counts
      dsimp only
      unfold bucket at sum ⊢
      omega

theorem Counts.erase {q : CostBuckets α} (counts : q.Counts) (c : Nat) (a : α) :
    (q.erase c a).Counts := by
  have total : q.totalSize = _ := counts
  unfold CostBuckets.erase
  split
  · next present =>
      have sum := sum_card_set (lt_length_of_mem present) ((q.bucket c).erase a)
      have some : 0 < (q.bucket c).card := Finset.card_pos.mpr ⟨a, present⟩
      rw [Finset.card_erase_of_mem present] at sum
      unfold Counts
      dsimp only
      unfold bucket at sum some ⊢
      omega
  · exact counts

theorem Counts.update {q : CostBuckets α} (counts : q.Counts) (u : CostUpdate) (a : α) :
    (q.update u a).Counts := by
  have erased : ∀ c : Cost, (q.eraseCost c a).Counts := by
    intro c
    induction c using WithTop.recTopCoe with
    | top => exact counts
    | coe c => exact counts.erase c a
  have inserted : ∀ (c : Cost) (r : CostBuckets α), r.Counts → (r.insertCost c a).Counts := by
    intro c r counts
    induction c using WithTop.recTopCoe with
    | top => exact counts
    | coe c => exact counts.insert c a
  exact inserted _ _ (erased _)

omit [DecidableEq α] in
theorem Counts.clearCurrent {q : CostBuckets α} (counts : q.Counts) : q.clearCurrent.Counts := by
  have total : q.totalSize = _ := counts
  unfold Counts CostBuckets.clearCurrent
  dsimp only
  by_cases inside : q.current < q.buckets.length
  · have sum := sum_card_set inside ∅
    rw [Finset.card_empty] at sum
    unfold bucket
    omega
  · rw [List.set_eq_of_length_le (by omega), bucket, List.getD_eq_default _ _ (by omega),
      Finset.card_empty]
    omega

/-! ### Advancing -/

theorem firstNonempty_spec (q : CostBuckets α) (remaining c : Nat) :
    c ≤ q.firstNonempty remaining c ∧ q.firstNonempty remaining c ≤ c + remaining ∧
      (∀ d, c ≤ d → d < q.firstNonempty remaining c → q.bucket d = ∅) ∧
      (q.firstNonempty remaining c < c + remaining →
        q.bucket (q.firstNonempty remaining c) ≠ ∅) := by
  induction remaining generalizing c with
  | zero =>
      simp only [firstNonempty, Nat.add_zero]
      exact ⟨Nat.le_refl c, Nat.le_refl c, by omega, by omega⟩
  | succ remaining ih =>
      unfold firstNonempty
      split
      · next empty =>
          obtain ⟨low, high, skipped, found⟩ := ih (c + 1)
          refine ⟨by omega, by omega, fun d from_ below => ?_, fun inside => found (by omega)⟩
          rcases Nat.eq_or_lt_of_le from_ with rfl | later
          · exact empty
          · exact skipped d later below
      · next nonempty =>
          exact ⟨Nat.le_refl c, by omega, by omega, fun _ => nonempty⟩

/-- Advancing never moves backwards, skips empty buckets only and keeps the
buckets; it succeeds exactly when a bucket from the current one on is not empty. -/
theorem advanceToNextNonempty_spec (q : CostBuckets α) :
    (∀ c, q.advanceToNextNonempty.2.bucket c = q.bucket c) ∧
      q.current ≤ q.advanceToNextNonempty.2.current ∧
      (∀ c, q.current ≤ c → c < q.advanceToNextNonempty.2.current → q.bucket c = ∅) ∧
      (q.advanceToNextNonempty.1 = true → q.advanceToNextNonempty.2.currentBucket ≠ ∅) ∧
      (q.advanceToNextNonempty.1 = false → ∀ c, q.current ≤ c → q.bucket c = ∅) := by
  obtain ⟨low, high, skipped, found⟩ :=
    q.firstNonempty_spec (q.buckets.length - q.current) q.current
  refine ⟨fun _ => rfl, low, skipped, fun success => ?_, fun failure c later => ?_⟩
  · have inside := of_decide_eq_true success
    exact found (by omega)
  · have outside := of_decide_eq_false failure
    by_cases inside : c < q.buckets.length
    · exact skipped c later (by omega)
    · rw [bucket, List.getD_eq_default _ _ (by omega)]

end CostBuckets

end Tyr.Datalog
