import Mathlib.Data.List.Basic
import Mathlib.Data.List.Nodup
import Mathlib.Data.List.Range

/-!
Substitutions of parameters.

A substitution has a domain of parameters, each with an optional value.
-/

namespace Tyr.Formalism.Unification

/-- The slot of a parameter is at the parameter's position in the domain. -/
structure SubstitutionFunction (T : Type*) where
  parameters : List Nat
  data : List (Option T)
  nodup : parameters.Nodup
  sized : data.length = parameters.length
deriving DecidableEq

namespace SubstitutionFunction

variable {T : Type*}

instance [DecidableEq T] : LawfulBEq (SubstitutionFunction T) := inferInstance

/-- A substitution without values. -/
def unbound (parameters : List Nat) (nodup : parameters.Nodup) : SubstitutionFunction T where
  parameters := parameters
  data := List.replicate parameters.length none
  nodup := nodup
  sized := List.length_replicate

/-- `from_range`: the domain of `size` parameters from `offset` on. -/
def fromRange (offset size : Nat) : SubstitutionFunction T :=
  unbound (List.range' offset size) List.nodup_range'

variable (sigma : SubstitutionFunction T)

def containsParameter (p : Nat) : Bool := decide (p ∈ sigma.parameters)

/-- The slot of a parameter; there is none outside of the domain. -/
def tryGet (p : Nat) : Option (Option T) := sigma.data[sigma.parameters.idxOf p]?

/-- The value of a bound parameter. -/
def get (p : Nat) : Option T := (sigma.tryGet p).join

def isBound (p : Nat) : Bool := (sigma.get p).isSome

/-- Write the slot of a parameter. -/
def bind (p : Nat) (value : T) : SubstitutionFunction T where
  parameters := sigma.parameters
  data := sigma.data.set (sigma.parameters.idxOf p) (some value)
  nodup := sigma.nodup
  sized := by rw [List.length_set, sigma.sized]

/-- `assign`: there is no result outside of the domain, where the source throws,
and a bound parameter is not changed. -/
def assign (p : Nat) (value : T) : Option (Bool × SubstitutionFunction T) :=
  match sigma.tryGet p with
  | none => none
  | some (some _) => some (false, sigma)
  | some none => some (true, sigma.bind p value)

variable {sigma}

theorem containsParameter_iff {p : Nat} : sigma.containsParameter p = true ↔ p ∈ sigma.parameters :=
  decide_eq_true_iff

theorem tryGet_eq_none {p : Nat} : sigma.tryGet p = none ↔ p ∉ sigma.parameters := by
  rw [tryGet, List.getElem?_eq_none_iff, sigma.sized, ← List.idxOf_lt_length_iff, Nat.not_lt]

theorem isBound_iff {p : Nat} : sigma.isBound p = true ↔ ∃ value, sigma.get p = some value :=
  Option.isSome_iff_exists

theorem get_eq_some {p : Nat} {value : T} :
    sigma.get p = some value ↔ sigma.tryGet p = some (some value) := by
  rw [get, Option.join_eq_some_iff]

theorem mem_parameters_of_get {p : Nat} {value : T} (bound : sigma.get p = some value) :
    p ∈ sigma.parameters := by
  by_contra outside
  rw [get, tryGet_eq_none.mpr outside] at bound
  cases bound

theorem get_unbound {parameters : List Nat} {nodup : parameters.Nodup} (p : Nat) :
    (unbound parameters nodup : SubstitutionFunction T).get p = none := by
  cases slot : (unbound parameters nodup : SubstitutionFunction T).get p with
  | none => rfl
  | some value =>
      rw [get_eq_some] at slot
      have mem := List.mem_of_getElem? slot
      cases List.eq_of_mem_replicate mem

@[simp] theorem parameters_bind {p : Nat} {value : T} :
    (sigma.bind p value).parameters = sigma.parameters := rfl

theorem get_bind {p q : Nat} {value : T} (inside : p ∈ sigma.parameters) :
    (sigma.bind p value).get q = if q = p then some value else sigma.get q := by
  have position := List.idxOf_lt_length_of_mem inside
  unfold get tryGet bind
  dsimp only
  split
  · next same =>
      subst same
      rw [List.getElem?_set_self (by rwa [sigma.sized])]
      rfl
  · next different =>
      rw [List.getElem?_set_ne]
      intro samePosition
      exact different ((List.idxOf_inj inside).mp samePosition).symm

/-- An unbound parameter of the domain can be assigned. -/
theorem assign_unbound {p : Nat} {value : T} (inside : p ∈ sigma.parameters)
    (free : sigma.get p = none) : sigma.assign p value = some (true, sigma.bind p value) := by
  unfold assign
  cases slot : sigma.tryGet p with
  | none => exact absurd inside (tryGet_eq_none.mp slot)
  | some content =>
      cases content with
      | none => rfl
      | some old =>
          rw [get_eq_some.mpr slot] at free
          cases free

@[simp] theorem parameters_fromRange {offset size : Nat} :
    (fromRange offset size : SubstitutionFunction T).parameters = List.range' offset size := rfl

theorem mem_parameters_fromRange {size p : Nat} :
    p ∈ (fromRange 0 size : SubstitutionFunction T).parameters ↔ p < size := by
  rw [parameters_fromRange, List.mem_range'_1]
  omega

/-- A loop that assigns the values to different unbound parameters of the domain
binds these, and changes nothing else. -/
theorem foldlM_assign {step : SubstitutionFunction T → Nat → Option (SubstitutionFunction T)}
    {target : Nat → Nat} {value : Nat → Option T} {n : Nat}
    (skip : ∀ i < n, value i = none → ∀ result, step result i = some result)
    (write : ∀ i < n, ∀ v, value i = some v →
      ∀ result, step result i = (result.assign (target i) v).map Prod.snd)
    (inside : ∀ i < n, ∀ v, value i = some v → target i ∈ sigma.parameters)
    (injective : ∀ i < n, ∀ j < n, target i = target j → i = j)
    (free : ∀ i < n, sigma.get (target i) = none) :
    ∃ result, (List.range n).foldlM step sigma = some result ∧ result.parameters = sigma.parameters ∧
      (∀ i < n, result.get (target i) = value i) ∧
      ∀ p, (∀ i < n, target i ≠ p) → result.get p = sigma.get p := by
  induction n with
  | zero => exact ⟨sigma, rfl, rfl, fun i less => absurd less (Nat.not_lt_zero i), fun _ _ => rfl⟩
  | succ n ih =>
      obtain ⟨result, loop, domain, bound, others⟩ := ih
        (fun i less => skip i (less.trans n.lt_succ_self)) (fun i less => write i (less.trans n.lt_succ_self))
        (fun i less => inside i (less.trans n.lt_succ_self))
        (fun i less j less' => injective i (less.trans n.lt_succ_self) j (less'.trans n.lt_succ_self))
        (fun i less => free i (less.trans n.lt_succ_self))
      have different : ∀ i < n, target i ≠ target n := fun i less same =>
        less.ne (injective i (less.trans n.lt_succ_self) n n.lt_succ_self same)
      have last : result.get (target n) = none := (others _ different).trans (free n n.lt_succ_self)
      rw [List.range_succ, List.foldlM_append, loop]
      cases content : value n with
      | none =>
          refine ⟨result, ?_, domain, ?_, fun p apart => others p fun i less => apart i (less.trans n.lt_succ_self)⟩
          · simp [skip n n.lt_succ_self content]
          · intro i less
            rcases Nat.lt_succ_iff_lt_or_eq.mp less with earlier | rfl
            · exact bound i earlier
            · rw [last, content]
      | some v =>
          have mem : target n ∈ result.parameters := domain ▸ inside n n.lt_succ_self v content
          refine ⟨result.bind (target n) v, ?_, domain, ?_, ?_⟩
          · simp [write n n.lt_succ_self v content, assign_unbound mem last]
          · intro i less
            rw [get_bind mem]
            rcases Nat.lt_succ_iff_lt_or_eq.mp less with earlier | rfl
            · rw [if_neg (different i earlier), bound i earlier]
            · rw [if_pos rfl, content]
          · intro p apart
            rw [get_bind mem, if_neg (apart n n.lt_succ_self).symm]
            exact others p fun i less => apart i (less.trans n.lt_succ_self)

end SubstitutionFunction

end Tyr.Formalism.Unification
