import Mathlib.Dynamics.PeriodicPts.Defs
import Tyr.Formalism.Unification.Structures

/-!
Following the bindings of a substitution.

`Resolves` is the loop of `apply_substitution_fixpoint` as a relation: it stops at an
object, at an unbound parameter, or at a parameter that it has seen.

* `applySubstitutionFixpoint_eq_iff` — the loop computes the relation.
* `applySubstitutionFixpoint_idem` — a second time changes nothing, cycles or not.
* `applySubstitutionFixpoint_eq_iff_leads` — without cycles the result is the end of the
  bindings.
-/

namespace Tyr.Formalism.Unification

open StructureTraits

variable {rho : SubstitutionFunction Term}

/-- From the term, with the parameters seen so far, to the result. -/
inductive Resolves (rho : SubstitutionFunction Term) : List Nat → Term → Term → Prop where
  | object {seen object} : Resolves rho seen (.object object) (.object object)
  | repeated {seen p} : p ∈ seen → Resolves rho seen (.parameter p) (.parameter p)
  | unbound {seen p} : p ∉ seen → rho.get p = none → Resolves rho seen (.parameter p) (.parameter p)
  | step {seen p value result} : p ∉ seen → rho.get p = some value →
      Resolves rho (p :: seen) value result → Resolves rho seen (.parameter p) result

theorem Resolves.unique {seen : List Nat} {term result result' : Term}
    (resolves : Resolves rho seen term result) (resolves' : Resolves rho seen term result') :
    result = result' := by
  induction resolves with
  | object =>
      cases resolves'
      rfl
  | repeated mem =>
      cases resolves' with
      | repeated => rfl
      | unbound => rfl
      | step fresh => exact absurd mem fresh
  | unbound fresh free =>
      cases resolves' with
      | repeated => rfl
      | unbound => rfl
      | step _ bound =>
          rw [free] at bound
          cases bound
  | step fresh bound _ ih =>
      cases resolves' with
      | repeated mem => exact absurd mem fresh
      | unbound _ free =>
          rw [free] at bound
          cases bound
      | step _ bound' rest =>
          rw [bound] at bound'
          cases bound'
          exact ih rest

/-- The rounds of the loop suffice: the parameters seen are different and bound. -/
theorem resolves_fixpointLoop {rounds : Nat} {seen : List Nat} (nodup : seen.Nodup)
    (within : seen ⊆ rho.parameters) (enough : rounds + seen.length = rho.parameters.length + 1)
    (term : Term) : Resolves rho seen term (fixpointLoop rho rounds seen term) := by
  induction rounds generalizing seen term with
  | zero =>
      have few := (List.subperm_of_subset nodup within).length_le
      omega
  | succ rounds ih =>
      cases term with
      | object object => exact .object
      | parameter p =>
          rw [fixpointLoop]
          by_cases mem : p ∈ seen
          · rw [if_pos mem]
            exact .repeated mem
          · rw [if_neg mem]
            cases bound : rho.get p with
            | none => exact .unbound mem bound
            | some value =>
                refine .step mem bound (ih (List.nodup_cons.mpr ⟨mem, nodup⟩) ?_ ?_ value)
                · exact List.cons_subset.mpr
                    ⟨SubstitutionFunction.mem_parameters_of_get bound, within⟩
                · rw [List.length_cons]
                  omega

theorem applySubstitutionFixpoint_eq_iff {term result : Term} :
    applySubstitutionFixpoint rho term = result ↔ Resolves rho [] term result := by
  have loop : Resolves rho [] term (applySubstitutionFixpoint rho term) :=
    resolves_fixpointLoop List.nodup_nil (List.nil_subset _) rfl term
  constructor
  · rintro rfl
    exact loop
  · intro resolves
    exact loop.unique resolves

/-! ### Applying twice -/

/-- The term that the loop stops at comes back when its bindings are followed. -/
theorem Resolves.periodic {seen : List Nat} {term result : Term} (resolves : Resolves rho seen term result)
    (visited : ∀ p ∈ seen, ∃ n, (applyOnceTerm rho)^[n + 1] (.parameter p) = term) :
    result ∈ Function.periodicPts (applyOnceTerm rho) := by
  induction resolves with
  | object => exact ⟨1, Nat.one_pos, rfl⟩
  | repeated mem =>
      obtain ⟨n, back⟩ := visited _ mem
      exact ⟨n + 1, n.succ_pos, back⟩
  | unbound _ free =>
      refine ⟨1, Nat.one_pos, ?_⟩
      simp [Function.IsPeriodicPt, Function.IsFixedPt, applyOnceTerm, free]
  | @step seen p value result _ bound _ ih =>
      have next : applyOnceTerm rho (.parameter p) = value := by simp [applyOnceTerm, bound]
      refine ih fun q mem => ?_
      rcases List.mem_cons.mp mem with rfl | before
      · exact ⟨0, next⟩
      · obtain ⟨n, reached⟩ := visited q before
        exact ⟨n + 1, by rw [Function.iterate_succ_apply', reached, next]⟩

/-- From a term that comes back, the loop ends where it has started: it runs through the
period, and sees no parameter twice on the way. -/
theorem resolves_of_period {term : Term} {k d : Nat} {seen : List Nat}
    (period : k + d = Function.minimalPeriod (applyOnceTerm rho) term)
    (periodic : term ∈ Function.periodicPts (applyOnceTerm rho))
    (visited : ∀ p, p ∈ seen ↔ ∃ j < k, (applyOnceTerm rho)^[j] term = .parameter p) :
    Resolves rho seen ((applyOnceTerm rho)^[k] term) term := by
  have back := Function.iterate_minimalPeriod (f := applyOnceTerm rho) (x := term)
  have fixed : ∀ current, (applyOnceTerm rho)^[k] term = current →
      applyOnceTerm rho current = current → current = term := by
    rintro current rfl stays
    rw [← period, Nat.add_comm, Function.iterate_add_apply, Function.iterate_fixed stays] at back
    exact back
  induction d generalizing k seen with
  | zero =>
      rw [Nat.add_zero] at period
      rw [period, back]
      cases term with
      | object object => exact .object
      | parameter p =>
          refine .repeated ((visited p).mpr ⟨0, ?_, rfl⟩)
          rw [period]
          exact Function.minimalPeriod_pos_of_mem_periodicPts periodic
  | succ d ih =>
      cases current : (applyOnceTerm rho)^[k] term with
      | object object =>
          rw [← fixed _ current rfl]
          exact .object
      | parameter p =>
          have fresh : p ∉ seen := by
            intro mem
            obtain ⟨j, less, same⟩ := (visited p).mp mem
            have equal := (Function.iterate_eq_iterate_iff_of_lt_minimalPeriod (by omega) (by omega)).mp
              (same.trans current.symm)
            exact less.ne equal
          cases bound : rho.get p with
          | none =>
              rw [← fixed _ current (by simp [applyOnceTerm, bound])]
              exact .unbound fresh bound
          | some value =>
              have next : (applyOnceTerm rho)^[k + 1] term = value := by
                rw [Function.iterate_succ_apply', current]
                simp [applyOnceTerm, bound]
              refine .step fresh bound (next ▸ ih (by omega) ?_ ?_)
              · intro q
                rw [List.mem_cons, visited]
                constructor
                · rintro (rfl | ⟨j, less, same⟩)
                  · exact ⟨k, k.lt_succ_self, current⟩
                  · exact ⟨j, less.trans k.lt_succ_self, same⟩
                · rintro ⟨j, less, same⟩
                  rcases Nat.lt_succ_iff_lt_or_eq.mp less with before | rfl
                  · exact .inr ⟨j, before, same⟩
                  · rw [current, Term.parameter.injEq] at same
                    exact .inl same.symm
              · rintro current' rfl stays
                have back' := back
                rw [← period, ← Nat.add_assoc, Nat.add_right_comm, Nat.add_comm,
                  Function.iterate_add_apply, Function.iterate_fixed stays] at back'
                exact back'

theorem applySubstitutionFixpoint_idem (rho : SubstitutionFunction Term) (term : Term) :
    applySubstitutionFixpoint rho (applySubstitutionFixpoint rho term) =
      applySubstitutionFixpoint rho term := by
  have resolves : Resolves rho [] term (applySubstitutionFixpoint rho term) :=
    applySubstitutionFixpoint_eq_iff.mp rfl
  have periodic := resolves.periodic (by simp)
  rw [applySubstitutionFixpoint_eq_iff]
  exact resolves_of_period (k := 0) (Nat.zero_add _) periodic (by simp)

/-! ### Without cycles -/

/-- One binding. -/
def Binds (rho : SubstitutionFunction Term) (term value : Term) : Prop :=
  ∃ p, term = .parameter p ∧ rho.get p = some value

def Acyclic (rho : SubstitutionFunction Term) : Prop :=
  ∀ term, ¬ Relation.TransGen (Binds rho) term term

/-- The bindings lead from the term to `result`, and end there. -/
structure Leads (rho : SubstitutionFunction Term) (term result : Term) : Prop where
  path : Relation.ReflTransGen (Binds rho) term result
  ends : ∀ value, ¬ Binds rho result value

theorem Binds.unique {term value value' : Term} (binds : Binds rho term value)
    (binds' : Binds rho term value') : value = value' := by
  obtain ⟨p, rfl, bound⟩ := binds
  obtain ⟨q, same, bound'⟩ := binds'
  cases same
  rw [bound] at bound'
  exact Option.some.inj bound'

theorem Leads.unique {term result result' : Term} (leads : Leads rho term result)
    (leads' : Leads rho term result') : result = result' := by
  have path := leads.path
  induction path using Relation.ReflTransGen.head_induction_on with
  | refl =>
      cases leads'.path.cases_head with
      | inl same => exact same
      | inr more =>
          obtain ⟨value, binds, _⟩ := more
          exact absurd binds (leads.ends value)
  | head binds rest ih =>
      cases leads'.path.cases_head with
      | inl same => exact absurd (same ▸ binds) (leads'.ends _)
      | inr more =>
          obtain ⟨value, binds', rest'⟩ := more
          cases binds.unique binds'
          exact ih ⟨rest, leads.ends⟩ ⟨rest', leads'.ends⟩

theorem leads_of_resolves (acyclic : Acyclic rho) {seen : List Nat} {term result : Term}
    (resolves : Resolves rho seen term result)
    (visited : ∀ p ∈ seen, Relation.TransGen (Binds rho) (.parameter p) term) :
    Leads rho term result := by
  induction resolves with
  | object => exact ⟨.refl, by simp [Binds]⟩
  | repeated mem => exact absurd (visited _ mem) (acyclic _)
  | unbound _ free => exact ⟨.refl, by simp [Binds, free]⟩
  | @step seen p value result _ bound _ ih =>
      have binds : Binds rho (.parameter p) value := ⟨p, rfl, bound⟩
      have leads := ih fun q mem => by
        rcases List.mem_cons.mp mem with rfl | before
        · exact .single binds
        · exact (visited q before).tail binds
      exact ⟨leads.path.head binds, leads.ends⟩

theorem applySubstitutionFixpoint_eq_iff_leads (acyclic : Acyclic rho) {term result : Term} :
    applySubstitutionFixpoint rho term = result ↔ Leads rho term result := by
  have leads : Leads rho term (applySubstitutionFixpoint rho term) :=
    leads_of_resolves acyclic (applySubstitutionFixpoint_eq_iff.mp rfl) (by simp)
  constructor
  · rintro rfl
    exact leads
  · intro leads'
    exact leads.unique leads'

/-- Values that are not bound make no cycle. -/
theorem acyclic_of_unbound_values
    (unbound : ∀ p q, rho.get p = some (.parameter q) → rho.get q = none) : Acyclic rho := by
  intro term cycle
  obtain ⟨value, ⟨p, rfl, bound⟩, rest⟩ := Relation.TransGen.head'_iff.mp cycle
  cases rest.cases_head with
  | inl same =>
      subst same
      rw [unbound p p bound] at bound
      cases bound
  | inr more =>
      obtain ⟨value', ⟨q, rfl, bound'⟩, _⟩ := more
      rw [unbound p q bound] at bound'
      cases bound'

end Tyr.Formalism.Unification
