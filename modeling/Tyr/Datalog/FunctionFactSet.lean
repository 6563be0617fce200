import Tyr.Common.Number
import Tyr.Lib.GrowingList
import Mathlib.Data.Finset.Card
import Mathlib.Data.List.GetD
import Mathlib.Data.List.Infix

/-!
Fact sets of functions.

The bindings and the values of a function are stored in the order of their insertion,
and a vector maps the row of a binding to its position. An insertion is rejected by
comparing the row with the number of bindings, not by that vector.

* `FunctionFactSet.Represents` — which values a set holds.
* `throwsRight_iff` — when an insertion is rejected as it should be.
* `isPartialMap_iff` — the calls after which a set is a partial map, and the states whose
  numeric variables can be inserted.
-/

namespace Tyr.Datalog

/-! ### Sets -/

/-- The greatest `uint_t`. It marks rows without a value and is no row itself. -/
def noPosition : Nat := 2 ^ 32 - 1

/-- The index of a row. -/
abbrev Row := Fin noPosition

instance : NeZero noPosition := ⟨by decide⟩

/-- `tyr::set`. -/
def setAt {α : Type*} (pos : Nat) (value : α) (vec : List α) (default : α) : List α :=
  (vec ++ List.replicate (pos + 1 - vec.length) default).set pos value

structure FunctionFactSet where
  remap : List Nat
  bindings : List Row
  values : List Number
deriving DecidableEq

namespace FunctionFactSet

def reset : FunctionFactSet := ⟨[], [], []⟩

/-- The error that is thrown, if any, and the set afterwards. -/
def insert (set : FunctionFactSet) (row : Row) (value : Number) : Option String × FunctionFactSet :=
  if row.val < set.bindings.length then
    (some "Multiple value assignments to a ground function term.", set)
  else
    let pos := set.bindings.length % 2 ^ 32
    (none,
      { remap := setAt row.val pos set.remap noPosition
        bindings := set.bindings ++ [row]
        values := set.values ++ [value] })

/-- `operator[]`. -/
def lookup (set : FunctionFactSet) (row : Row) : Number :=
  if set.remap.length ≤ row.val then .nan
  else set.values.getD (set.remap.getD row.val noPosition) .nan

/-- The values that a set holds, in the order of their insertion. -/
structure Represents (set : FunctionFactSet) (inserted : List (Row × Number)) : Prop where
  bindings : set.bindings = inserted.map Prod.fst
  values : set.values = inserted.map Prod.snd
  remap : ∀ row : Row, set.remap.getD row.val noPosition =
    if row ∈ inserted.map Prod.fst then (inserted.map Prod.fst).idxOf row else noPosition
  distinct : (inserted.map Prod.fst).Nodup

end FunctionFactSet

theorem getD_setAt {α : Type*} (pos i : Nat) (value : α) (vec : List α) (default : α) :
    (setAt pos value vec default).getD i default = if i = pos then value else vec.getD i default :=
  Lib.getD_set_grow vec default pos i value

namespace FunctionFactSet

variable {set : FunctionFactSet} {inserted : List (Row × Number)} {row : Row} {value : Number}

theorem represents_reset : reset.Represents [] where
  bindings := rfl
  values := rfl
  remap := fun _ => rfl
  distinct := List.nodup_nil

/-- There are at most as many bindings as rows. -/
theorem Represents.length_le (represents : set.Represents inserted) : inserted.length ≤ noPosition := by
  have bound := represents.distinct.length_le_card
  rwa [List.length_map, Fintype.card_fin] at bound

/-- A new row is stored. -/
theorem Represents.insert (represents : set.Represents inserted)
    (isNew : row ∉ inserted.map Prod.fst) (accepted : (set.insert row value).1 = none) :
    (set.insert row value).2.Represents (inserted ++ [(row, value)]) := by
  unfold FunctionFactSet.insert at accepted ⊢
  split at accepted
  · cases accepted
  · next notBelow =>
      rw [if_neg notBelow]
      have distinct : ((inserted ++ [(row, value)]).map Prod.fst).Nodup := by
        rw [List.map_append, List.nodup_append]
        refine ⟨represents.distinct, List.nodup_singleton _, ?_⟩
        rintro other mem _ memNew rfl
        obtain rfl : other = row := List.mem_singleton.mp memNew
        exact isNew mem
      constructor
      · simp [represents.bindings]
      · simp [represents.values]
      · intro other
        have inRange : inserted.length % 2 ^ 32 = inserted.length := by
          have := represents.length_le
          rw [noPosition] at this
          omega
        rw [getD_setAt, represents.bindings, List.length_map, inRange, represents.remap]
        by_cases same : other = row
        · subst same
          rw [if_pos rfl, if_pos (by simp), List.map_append, List.idxOf_append_of_notMem isNew]
          simp
        · rw [if_neg fun eq => same (Fin.ext eq)]
          by_cases old : other ∈ inserted.map Prod.fst
          · rw [if_pos old, if_pos (by rw [List.map_append]; exact List.mem_append_left _ old),
              List.map_append, List.idxOf_append_of_mem old]
          · rw [if_neg old, if_neg (by simpa [same] using old)]
      · exact distinct

/-- Without a value at its row, a binding has the default value of the lookup. -/
theorem lookup_eq_getD (represents : set.Represents inserted) (row : Row) :
    set.lookup row = set.values.getD (set.remap.getD row.val noPosition) .nan := by
  unfold lookup
  split
  · next outside =>
      have few : set.values.length ≤ noPosition := by
        rw [represents.values, List.length_map]
        exact represents.length_le
      rw [List.getD_eq_default set.remap _ outside, List.getD_eq_default _ _ few]
  · rfl

theorem Represents.lookup_of_mem (represents : set.Represents inserted)
    (mem : (row, value) ∈ inserted) : set.lookup row = value := by
  have memRow : row ∈ inserted.map Prod.fst := List.mem_map_of_mem mem
  rw [lookup_eq_getD represents, represents.remap, if_pos memRow, represents.values]
  obtain ⟨i, inRange, atI⟩ := List.getElem_of_mem mem
  have inMap : i < (inserted.map Prod.fst).length := by rwa [List.length_map]
  have atRow : (inserted.map Prod.fst).idxOf row = i := by
    have rowAtI : (inserted.map Prod.fst)[i] = row := by rw [List.getElem_map, atI]
    rw [← rowAtI, represents.distinct.idxOf_getElem]
  rw [atRow, List.getD_eq_getElem _ _ (by simpa using inRange), List.getElem_map, atI]

theorem Represents.lookup_of_notMem (represents : set.Represents inserted)
    (notMem : row ∉ inserted.map Prod.fst) : set.lookup row = .nan := by
  rw [lookup_eq_getD represents, represents.remap, if_neg notMem]
  apply List.getD_eq_default
  rw [represents.values, List.length_map]
  exact represents.length_le

/-! ### Sequences of calls -/

/-- A set together with the values whose insertion did not throw. -/
structure History where
  set : FunctionFactSet
  inserted : List (Row × Number)

namespace History

def insert (history : History) (call : Row × Number) : History :=
  match history.set.insert call.1 call.2 with
  | (none, set) => ⟨set, history.inserted ++ [call]⟩
  | (some _, set) => ⟨set, history.inserted⟩

/-- The insertions since the last reset. -/
def run (calls : List (Row × Number)) : History := calls.foldl insert ⟨reset, []⟩

/-- The rows that hold a value. -/
def rows (history : History) : List Row := history.inserted.map Prod.fst

/-- The call is rejected iff the row holds a value. -/
def ThrowsRight (history : History) (call : Row × Number) : Prop :=
  (history.set.insert call.1 call.2).1 ≠ none ↔ call.1 ∈ history.rows

end History

/-- The set is a partial map that rejects duplicates throughout the calls. -/
structure IsPartialMap (calls : List (Row × Number)) : Prop where
  throws : ∀ before call, before ++ [call] <+: calls → (History.run before).ThrowsRight call
  unchanged : ∀ before call, before ++ [call] <+: calls →
    ((History.run before).set.insert call.1 call.2).1 ≠ none →
      ((History.run before).set.insert call.1 call.2).2 = (History.run before).set
  values : ∀ before, before <+: calls → ∀ entry ∈ (History.run before).inserted,
    (History.run before).set.lookup entry.1 = entry.2
  others : ∀ before, before <+: calls → ∀ row ∉ (History.run before).rows,
    (History.run before).set.lookup row = .nan

/-- Each repeated row is less than the number of different rows before it, and no new row
is. -/
def RowsInOrder (calls : List (Row × Number)) : Prop :=
  ∀ before call, before ++ [call] <+: calls →
    (call.1 ∈ before.map Prod.fst ↔ call.1.val < (before.map Prod.fst).toFinset.card)

variable {calls : List (Row × Number)} {call : Row × Number}

theorem insert_thrown_iff : (set.insert row value).1 ≠ none ↔ row.val < set.bindings.length := by
  unfold FunctionFactSet.insert
  split
  · next below => simp [below]
  · next notBelow => simp [notBelow]

theorem insert_of_thrown (thrown : (set.insert row value).1 ≠ none) :
    (set.insert row value).2 = set := by
  have below := insert_thrown_iff.mp thrown
  unfold FunctionFactSet.insert
  rw [if_pos below]

namespace History

theorem run_append : run (calls ++ [call]) = (run calls).insert call := by
  rw [run, List.foldl_append]
  rfl

theorem insert_of_thrown {history : History}
    (thrown : (history.set.insert call.1 call.2).1 ≠ none) : history.insert call = history := by
  have unchanged := FunctionFactSet.insert_of_thrown thrown
  unfold insert
  split
  · next accepted =>
      rw [accepted] at thrown
      exact absurd rfl thrown
  · next rejected =>
      rw [rejected] at unchanged
      cases unchanged
      rfl

theorem insert_of_accepted {history : History}
    (accepted : (history.set.insert call.1 call.2).1 = none) :
    history.insert call =
      ⟨(history.set.insert call.1 call.2).2, history.inserted ++ [call]⟩ := by
  unfold insert
  split
  · next result => rw [result]
  · next rejected =>
      rw [rejected] at accepted
      cases accepted

/-- After calls that were rejected as they should be, the set holds the first value of
each row. -/
theorem represents_run
    (right : ∀ before call, before ++ [call] <+: calls → (run before).ThrowsRight call) :
    (run calls).set.Represents (run calls).inserted ∧
      ∀ row, row ∈ (run calls).rows ↔ row ∈ calls.map Prod.fst := by
  induction calls using List.reverseRecOn with
  | nil => exact ⟨represents_reset, fun row => Iff.rfl⟩
  | append_singleton calls call ih =>
      have earlier : ∀ before other, before ++ [other] <+: calls → (run before).ThrowsRight other :=
        fun before other sub => right before other (sub.trans (List.prefix_append calls [call]))
      obtain ⟨represents, same⟩ := ih earlier
      have here := right calls call (List.prefix_refl _)
      rw [run_append]
      by_cases thrown : ((run calls).set.insert call.1 call.2).1 ≠ none
      · rw [insert_of_thrown thrown]
        refine ⟨represents, fun row => ?_⟩
        have known := (same call.1).mp (here.mp thrown)
        rw [same, List.map_append, List.mem_append, List.map_singleton, List.mem_singleton]
        constructor
        · exact Or.inl
        · rintro (old | rfl)
          · exact old
          · exact known
      · have accepted := not_not.mp thrown
        rw [insert_of_accepted accepted]
        refine ⟨represents.insert (here.not.mp thrown) accepted, fun row => ?_⟩
        rw [rows, List.map_append, List.mem_append, List.map_append, List.mem_append]
        exact or_congr_left (same row)

/-- A call is rejected as it should be iff its row is in order. -/
theorem throwsRight_iff
    (right : ∀ before call, before ++ [call] <+: calls → (run before).ThrowsRight call) :
    (run calls).ThrowsRight call ↔
      (call.1 ∈ calls.map Prod.fst ↔ call.1.val < (calls.map Prod.fst).toFinset.card) := by
  obtain ⟨represents, same⟩ := represents_run right
  have count : (run calls).set.bindings.length = (calls.map Prod.fst).toFinset.card := by
    have distinct : ((run calls).inserted.map Prod.fst).Nodup := represents.distinct
    rw [represents.bindings, ← List.toFinset_card_of_nodup distinct]
    congr 1
    ext row
    rw [List.mem_toFinset, List.mem_toFinset]
    exact same row
  rw [ThrowsRight, insert_thrown_iff, count, same]
  exact comm

end History

/-- The set is a partial map throughout the calls iff their rows are in order. -/
theorem isPartialMap_iff_rowsInOrder (calls : List (Row × Number)) :
    IsPartialMap calls ↔ RowsInOrder calls := by
  constructor
  · intro partialMap before call sub
    apply (History.throwsRight_iff fun earlier other subEarlier => ?_).mp
    · exact partialMap.throws before call sub
    · exact partialMap.throws earlier other
        (subEarlier.trans ((List.prefix_append before [call]).trans sub))
  · intro inOrder
    have right : ∀ before, before <+: calls → ∀ earlier call, earlier ++ [call] <+: before →
        (History.run earlier).ThrowsRight call := by
      intro before
      induction before using List.reverseRecOn with
      | nil =>
          intro _ earlier call sub
          simp at sub
      | append_singleton before last ih =>
          intro sub earlier call subEarlier
          have shorter := ih ((List.prefix_append before [last]).trans sub)
          rcases List.prefix_concat_iff.mp subEarlier with whole | inside
          · obtain ⟨rfl, rfl⟩ := List.append_singleton_inj.mp whole
            exact (History.throwsRight_iff shorter).mpr (inOrder earlier call sub)
          · exact shorter earlier call inside
    have represents := fun before sub => (History.represents_run (right before sub)).1
    exact
      { throws := right calls (List.prefix_refl calls)
        unchanged := fun _ _ _ thrown => insert_of_thrown thrown
        values := fun before sub entry mem => (represents before sub).lookup_of_mem mem
        others := fun before sub row notMem => (represents before sub).lookup_of_notMem notMem }

end FunctionFactSet

/-! ### The numeric variables of a state -/

/-- A ground function term: its function and its row. -/
structure FunctionBinding where
  function : Nat
  row : Row
deriving DecidableEq

/-- `FunctionFactSets`: the set of each function. -/
abbrev FunctionFactSets := Nat → FunctionFactSet

namespace FunctionFactSets

def reset : FunctionFactSets := fun _ => FunctionFactSet.reset

def insert (sets : FunctionFactSets) (binding : FunctionBinding) (value : Number) :
    Option String × FunctionFactSets :=
  let (thrown, set) := (sets binding.function).insert binding.row value
  (thrown, Function.update sets binding.function set)

end FunctionFactSets

/-- The numeric variables of the state are inserted in the order of their iteration; the
datalog repository merges each function term to its binding. An error ends the loop. -/
def insertNumericVariablesToFactSet {FunctionTerm : Type} (merge : FunctionTerm → FunctionBinding) :
    List (FunctionTerm × Number) → FunctionFactSets → Option String × FunctionFactSets
  | [], sets => (none, sets)
  | (fterm, value) :: rest, sets =>
      match sets.insert (merge fterm) value with
      | (none, sets) => insertNumericVariablesToFactSet merge rest sets
      | (some thrown, sets) => (some thrown, sets)

/-- The row of each function term is at least the number of terms of its function before
it. -/
def RowsNotBelow {FunctionTerm : Type} (merge : FunctionTerm → FunctionBinding)
    (state : List (FunctionTerm × Number)) : Prop :=
  ∀ before fterm value, before ++ [(fterm, value)] <+: state →
    (before.filter fun entry => (merge entry.1).function = (merge fterm).function).length ≤
      (merge fterm).row.val

section

variable {FunctionTerm : Type} {merge : FunctionTerm → FunctionBinding}

/-- Inserting into sets that hold the variables before. -/
theorem insertNumericVariables_none_iff {before rest : List (FunctionTerm × Number)}
    {sets : FunctionFactSets}
    (counts : ∀ f, (sets f).bindings.length =
      (before.filter fun entry => (merge entry.1).function = f).length) :
    (insertNumericVariablesToFactSet merge rest sets).1 = none ↔
      ∀ middle fterm value, middle ++ [(fterm, value)] <+: rest →
        ((before ++ middle).filter fun entry =>
          (merge entry.1).function = (merge fterm).function).length ≤ (merge fterm).row.val := by
  induction rest generalizing before sets with
  | nil => simp [insertNumericVariablesToFactSet]
  | cons entry rest ih =>
      obtain ⟨fterm, value⟩ := entry
      by_cases below : (merge fterm).row.val < (sets (merge fterm).function).bindings.length
      · have thrown :
            (insertNumericVariablesToFactSet merge ((fterm, value) :: rest) sets).1 ≠ none := by
          simp [insertNumericVariablesToFactSet, FunctionFactSets.insert, FunctionFactSet.insert, below]
        refine iff_of_false thrown fun notBelow => ?_
        have first := notBelow [] fterm value (by simp)
        rw [List.append_nil, ← counts] at first
        exact absurd below (not_lt.mpr first)
      · have accepted : (insertNumericVariablesToFactSet merge ((fterm, value) :: rest) sets).1 =
            (insertNumericVariablesToFactSet merge rest (sets.insert (merge fterm) value).2).1 := by
          simp [insertNumericVariablesToFactSet, FunctionFactSets.insert, FunctionFactSet.insert, below]
        rw [accepted, @ih (before ++ [(fterm, value)])]
        · constructor
          · intro later middle other otherValue sub
            cases middle with
            | nil =>
                obtain ⟨rfl, rfl⟩ : other = fterm ∧ otherValue = value := by simpa using sub
                rw [List.append_nil, ← counts]
                exact not_lt.mp below
            | cons entry middle =>
                obtain ⟨rfl, subRest⟩ := List.cons_prefix_cons.mp sub
                rw [List.append_cons]
                exact later middle other otherValue subRest
          · intro all middle other otherValue sub
            rw [← List.append_cons]
            exact all _ other otherValue (List.cons_prefix_cons.mpr ⟨rfl, sub⟩)
        · intro f
          by_cases same : f = (merge fterm).function
          · subst same
            simp [FunctionFactSets.insert, FunctionFactSet.insert, below, ← counts]
          · simp [FunctionFactSets.insert, Function.update_of_ne same, counts, Ne.symm same]

end

/-- The set is a partial map throughout the calls iff their rows are in order, and the
numeric variables of a state are inserted iff no row is below the number of terms of its
function before it. -/
theorem isPartialMap_iff (calls : List (Row × Number)) {FunctionTerm : Type}
    (merge : FunctionTerm → FunctionBinding) (state : List (FunctionTerm × Number)) :
    (FunctionFactSet.IsPartialMap calls ↔ FunctionFactSet.RowsInOrder calls) ∧
      ((insertNumericVariablesToFactSet merge state FunctionFactSets.reset).1 = none ↔
        RowsNotBelow merge state) := by
  refine ⟨FunctionFactSet.isPartialMap_iff_rowsInOrder calls, ?_⟩
  have empty : ∀ f, (FunctionFactSets.reset f).bindings.length =
      (([] : List (FunctionTerm × Number)).filter fun entry => (merge entry.1).function = f).length :=
    fun _ => rfl
  exact insertNumericVariables_none_iff empty

/-- Two terms of a function, the second of which was interned first. -/
def swappedTerms : List (FunctionBinding × Number) := [(⟨0, 1⟩, .finite 5), (⟨0, 0⟩, .finite 7)]

/-- The row `0` is rejected after the row `1`, also for a state with these two terms. -/
theorem swappedTerms_thrown :
    ¬ (∀ calls : List (Row × Number), FunctionFactSet.IsPartialMap calls) ∧
    swappedTerms.Nodup ∧
      (insertNumericVariablesToFactSet id swappedTerms FunctionFactSets.reset).1 =
        some "Multiple value assignments to a ground function term." := by
  refine ⟨fun claim => ?_, by decide, by decide⟩
  have right := (claim [((1 : Row), .finite 5), ((0 : Row), .finite 7)]).throws
    [((1 : Row), .finite 5)] ((0 : Row), .finite 7) (List.prefix_refl _)
  have thrown : ((FunctionFactSet.History.run [((1 : Row), .finite 5)]).set.insert 0 (.finite 7)).1 ≠
      none := by decide
  have inserted := right.mp thrown
  revert inserted
  decide

end Tyr.Datalog
