import Mathlib.Data.List.Nodup
import Mathlib.Data.List.Perm.Basic

/-!
Association lists whose keys are listed once.

* `mem_iff_lookup` — the entries are the results of lookups.
* `lookup_perm` — the order of the entries is irrelevant.
* `lookup_emplace`, `foldl_emplace` — an entry is added unless the key has one.
* `lookup_modify` — the value of one key is changed.
-/

namespace Tyr.Lib.AssociationList

variable {α β : Type*} [DecidableEq α]

theorem mem_iff_lookup {entries : List (α × β)} (nodup : (entries.map Prod.fst).Nodup) {key : α}
    {value : β} : (key, value) ∈ entries ↔ entries.lookup key = some value := by
  induction entries with
  | nil => simp
  | cons entry rest ih =>
      obtain ⟨other, stored⟩ := entry
      obtain ⟨notMem, nodupRest⟩ := List.nodup_cons.mp nodup
      rw [List.lookup_cons, List.mem_cons, ih nodupRest]
      by_cases same : key = other
      · subst same
        have absent : rest.lookup key ≠ some value := fun found =>
          notMem (List.mem_map.mpr ⟨_, (ih nodupRest).mpr found, rfl⟩)
        simp [absent, eq_comm]
      · simp [same, beq_false_of_ne same]

theorem lookup_perm {entries others : List (α × β)} (perm : entries.Perm others)
    (nodup : (entries.map Prod.fst).Nodup) (key : α) : entries.lookup key = others.lookup key := by
  have nodupOthers : (others.map Prod.fst).Nodup := (perm.map Prod.fst).nodup nodup
  apply Option.ext
  intro value
  rw [← mem_iff_lookup nodup, ← mem_iff_lookup nodupOthers, perm.mem_iff]

theorem lookup_eq_none_iff {entries : List (α × β)} {key : α} :
    entries.lookup key = none ↔ key ∉ entries.map Prod.fst := by
  rw [List.lookup_eq_none_iff, List.mem_map]
  constructor
  · rintro absent ⟨entry, mem, rfl⟩
    simpa using absent entry mem
  · intro absent entry mem
    simpa using fun same : key = entry.1 => absent ⟨entry, mem, same.symm⟩

/-- Add an entry unless the key has one. -/
def emplace (entries : List (α × β)) (key : α) (value : β) : List (α × β) :=
  match entries.lookup key with
  | some _ => entries
  | none => entries ++ [(key, value)]

variable {entries : List (α × β)} {key other : α} {value : β}

theorem lookup_emplace : (emplace entries key value).lookup other =
    if other = key then some ((entries.lookup key).getD value) else entries.lookup other := by
  unfold emplace
  cases found : entries.lookup key with
  | some stored =>
      by_cases same : other = key
      · rw [if_pos same, same, found]
        rfl
      · rw [if_neg same]
  | none =>
      dsimp only
      rw [List.lookup_append, List.lookup_cons, List.lookup_nil]
      by_cases same : other = key
      · simp [same, found]
      · simp [same, beq_false_of_ne same]

theorem nodup_emplace (nodup : (entries.map Prod.fst).Nodup) :
    ((emplace entries key value).map Prod.fst).Nodup := by
  unfold emplace
  cases found : entries.lookup key with
  | some stored => exact nodup
  | none =>
      have absent := lookup_eq_none_iff.mp found
      dsimp only
      rw [List.map_append, List.map_cons, List.map_nil, ← List.concat_eq_append]
      exact nodup.concat absent

/-- Adding entries of distinct keys appends them. -/
theorem foldl_emplace {front : List (α × β)} (nodup : ((front ++ entries).map Prod.fst).Nodup) :
    entries.foldl (fun list entry => emplace list entry.1 entry.2) front = front ++ entries := by
  induction entries generalizing front with
  | nil => simp
  | cons entry rest ih =>
      have absent : front.lookup entry.1 = none := by
        rw [lookup_eq_none_iff]
        intro mem
        rw [List.map_append, List.map_cons, List.nodup_append] at nodup
        exact nodup.2.2 _ mem _ List.mem_cons_self rfl
      have added : emplace front entry.1 entry.2 = front ++ [entry] := by
        rw [emplace, absent]
      have step : front ++ entry :: rest = front ++ [entry] ++ rest := by simp
      rw [List.foldl_cons, added, step]
      rw [step] at nodup
      exact ih nodup

/-- Change the value of a key; a key without an entry gets one, with a default value. -/
def modify (key : α) (fallback : β) (change : β → β) : List (α × β) → List (α × β)
  | [] => [(key, change fallback)]
  | (other, stored) :: rest =>
      if other = key then (other, change stored) :: rest
      else (other, stored) :: modify key fallback change rest

theorem lookup_modify {fallback : β} {change : β → β} :
    (modify key fallback change entries).lookup other =
      if other = key then some (change ((entries.lookup key).getD fallback))
      else entries.lookup other := by
  induction entries with
  | nil =>
      rw [modify, List.lookup_cons, List.lookup_nil]
      by_cases same : other = key
      · simp [same]
      · simp [same, beq_false_of_ne same]
  | cons entry rest ih =>
      obtain ⟨first, stored⟩ := entry
      rw [modify]
      by_cases isFirst : first = key
      · subst isFirst
        rw [if_pos rfl, List.lookup_cons, List.lookup_cons, List.lookup_cons]
        by_cases same : other = first
        · simp [same]
        · simp [same, beq_false_of_ne same]
      · rw [if_neg isFirst, List.lookup_cons, List.lookup_cons, List.lookup_cons, ih]
        by_cases same : other = key
        · simp [same, beq_false_of_ne (Ne.symm isFirst)]
        · rw [if_neg same, if_neg same]

end Tyr.Lib.AssociationList
