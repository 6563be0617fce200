import Mathlib.Data.List.Basic

/-!
Interning values in a table.

`insert` returns the index of an equal value, if the table has one, and appends
the value otherwise. The equality test may be partial, as the comparison of
floating point numbers is: a value that is not `Proper` is not recognised, not even
as equal to itself.

* `insert_prefix`, `getElem?_insert` — the table grows and holds the value.
* `Distinct.concat`, `Distinct.insert` — a proper value is stored once.
* `insert_eq_iff` — when the index is the one of an earlier value.
-/

namespace Tyr.Lib

variable {α : Type*}

/-- A test that accepts equal values, if they are proper. -/
def PartialEquality (eq : α → α → Bool) (Proper : α → Prop) : Prop :=
  ∀ x y, eq x y = true ↔ x = y ∧ Proper x

theorem PartialEquality.beq [BEq α] [LawfulBEq α] :
    PartialEquality (fun x y : α => x == y) fun _ => True := by
  intro x y
  rw [beq_iff_eq, and_true]

namespace Interning

section

variable (eq : α → α → Bool)

def find (table : List α) (value : α) : Option Nat := table.findIdx? (eq value)

def insert (table : List α) (value : α) : List α × Nat :=
  match find eq table value with
  | some index => (table, index)
  | none => (table ++ [value], table.length)

end

/-- No proper value is stored twice. -/
def Distinct (Proper : α → Prop) (table : List α) : Prop :=
  ∀ (i j : Nat) (x : α), table[i]? = some x → table[j]? = some x → Proper x → i = j

theorem distinct_nil {Proper : α → Prop} : Distinct Proper ([] : List α) := by
  intro i j x atI
  cases atI

variable {eq : α → α → Bool} {Proper : α → Prop} {table : List α} {value x : α} {i : Nat}

theorem Distinct.of_isPrefix {longer : List α} (distinct : Distinct Proper longer)
    (isPrefix : table <+: longer) : Distinct Proper table := by
  obtain ⟨rest, rfl⟩ := isPrefix
  intro i j x atI atJ
  have inRangeI := (List.getElem?_eq_some_iff.mp atI).1
  have inRangeJ := (List.getElem?_eq_some_iff.mp atJ).1
  apply distinct i j x
  · rw [List.getElem?_append_left inRangeI, atI]
  · rw [List.getElem?_append_left inRangeJ, atJ]

theorem insert_prefix : table <+: (insert eq table value).1 := by
  unfold insert
  cases find eq table value with
  | some index => exact List.prefix_refl _
  | none => exact List.prefix_append _ _

/-- What the table holds it still holds. -/
theorem getElem?_insert_of_some (found : table[i]? = some x) :
    (insert eq table value).1[i]? = some x := by
  obtain ⟨rest, grown⟩ : table <+: (insert eq table value).1 := insert_prefix
  obtain ⟨inRange, _⟩ := List.getElem?_eq_some_iff.mp found
  rw [← grown, List.getElem?_append_left inRange, found]

/-- The value that a lookup finds is the value looked for. -/
theorem eq_of_find (partialEq : PartialEquality eq Proper) (found : find eq table value = some i) :
    table[i]? = some value ∧ Proper value := by
  obtain ⟨inRange, equal, _⟩ := List.findIdx?_eq_some_iff_getElem.mp found
  obtain ⟨same, proper⟩ := (partialEq _ _).mp equal
  exact ⟨List.getElem?_eq_some_iff.mpr ⟨inRange, same.symm⟩, proper⟩

theorem getElem?_insert (partialEq : PartialEquality eq Proper) :
    (insert eq table value).1[(insert eq table value).2]? = some value := by
  unfold insert
  cases found : find eq table value with
  | some index => exact (eq_of_find partialEq found).1
  | none => simp

/-- A value that no stored value equals can be appended. -/
theorem Distinct.concat (partialEq : PartialEquality eq Proper) (distinct : Distinct Proper table)
    (unequal : ∀ y ∈ table, eq value y = false) : Distinct Proper (table ++ [value]) := by
  have absent : ∀ {i : Nat}, Proper value → table[i]? ≠ some value := by
    intro i proper atI
    have notEqual := unequal value (List.mem_of_getElem? atI)
    rw [(partialEq value value).mpr ⟨rfl, proper⟩] at notEqual
    cases notEqual
  have split : ∀ {i : Nat} {x : α}, (table ++ [value])[i]? = some x →
      table[i]? = some x ∨ i = table.length ∧ x = value := by
    intro i x atI
    rcases Nat.lt_trichotomy i table.length with before | rfl | after
    · rw [List.getElem?_append_left before] at atI
      exact .inl atI
    · rw [List.getElem?_concat_length] at atI
      exact .inr ⟨rfl, (Option.some.inj atI).symm⟩
    · have outside : (table ++ [value]).length ≤ i := by
        rw [List.length_append]
        exact after
      rw [List.getElem?_eq_none outside] at atI
      cases atI
  intro i j x atI atJ proper
  rcases split atI with oldI | ⟨rfl, rfl⟩ <;> rcases split atJ with oldJ | ⟨rfl, same⟩
  · exact distinct i j x oldI oldJ proper
  · exact absurd (same ▸ oldI) (absent (same ▸ proper))
  · exact absurd oldJ (absent proper)
  · rfl

theorem Distinct.insert (partialEq : PartialEquality eq Proper) (distinct : Distinct Proper table) :
    Distinct Proper (insert eq table value).1 := by
  unfold Interning.insert
  cases found : find eq table value with
  | some index => exact distinct
  | none => exact distinct.concat partialEq (List.findIdx?_eq_none_iff.mp found)

/-- The index is the one of an earlier value iff the values are equal and proper. -/
theorem insert_eq_iff (partialEq : PartialEquality eq Proper) (distinct : Distinct Proper table)
    (atI : table[i]? = some x) : (insert eq table value).2 = i ↔ x = value ∧ Proper value := by
  obtain ⟨inRange, _⟩ := List.getElem?_eq_some_iff.mp atI
  unfold insert
  cases found : find eq table value with
  | some index =>
      obtain ⟨atIndex, proper⟩ := eq_of_find partialEq found
      constructor
      · rintro rfl
        exact ⟨Option.some.inj (atI.symm.trans atIndex), proper⟩
      · rintro ⟨rfl, _⟩
        exact distinct _ _ _ atIndex atI proper
  | none =>
      constructor
      · rintro rfl
        exact absurd inRange (Nat.lt_irrefl _)
      · rintro ⟨rfl, proper⟩
        have notEqual := List.findIdx?_eq_none_iff.mp found x (List.mem_of_getElem? atI)
        rw [(partialEq x x).mpr ⟨rfl, proper⟩] at notEqual
        cases notEqual

end Interning

end Tyr.Lib
