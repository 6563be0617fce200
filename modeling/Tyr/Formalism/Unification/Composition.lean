import Tyr.Formalism.Unification.Resolution

/-!
Composing substitutions.

The composed substitution binds a parameter to what `inner` and then `outer` make of it.
Applied once it is `inner` and then `outer`; followed to its end, it may go on from a
parameter that `outer` has given to one that `inner` binds.

* `applyFixpoint_compose_iff` — when following the bindings gives the same.
* `composition_counterexample` — it does not always.
-/

namespace Tyr.Formalism.Unification

open StructureTraits

/-- The parameters of `source` that are not in the list yet, behind it. -/
def appendUnique (parameters source : List Nat) : List Nat :=
  source.foldl (fun parameters p => if p ∈ parameters then parameters else parameters ++ [p]) parameters

theorem nodup_appendUnique {parameters : List Nat} (nodup : parameters.Nodup) (source : List Nat) :
    (appendUnique parameters source).Nodup := by
  unfold appendUnique
  induction source generalizing parameters with
  | nil => exact nodup
  | cons p rest ih =>
      rw [List.foldl_cons]
      by_cases mem : p ∈ parameters
      · rw [if_pos mem]
        exact ih nodup
      · rw [if_neg mem]
        exact ih (List.nodup_append_comm.mp (List.nodup_cons.mpr ⟨mem, nodup⟩))

theorem mem_appendUnique {parameters source : List Nat} {p : Nat} :
    p ∈ appendUnique parameters source ↔ p ∈ parameters ∨ p ∈ source := by
  unfold appendUnique
  induction source generalizing parameters with
  | nil => simp
  | cons q rest ih =>
      rw [List.foldl_cons, ih]
      by_cases mem : q ∈ parameters
      · rw [if_pos mem, List.mem_cons]
        constructor
        · rintro (before | later)
          · exact .inl before
          · exact .inr (.inr later)
        · rintro (before | rfl | later)
          · exact .inl before
          · exact .inl mem
          · exact .inr later
      · rw [if_neg mem, List.mem_append, List.mem_singleton, List.mem_cons, or_assoc]

/-- A parameter under `inner` and then `outer`. -/
def applyBoth (outer inner : SubstitutionFunction Term) (p : Nat) : Term :=
  applySubstitutionFixpoint outer (applySubstitutionFixpoint inner (.parameter p))

/-- One iteration of the loop of `compose_substitutions`; its parameters are in the domain,
where `assign` does not throw. -/
def composeStep (outer inner result : SubstitutionFunction Term) (p : Nat) : SubstitutionFunction Term :=
  if applyBoth outer inner p = .parameter p then result
  else
    match result.assign p (applyBoth outer inner p) with
    | none => result
    | some (_, next) => next

def composeSubstitutions (outer inner : SubstitutionFunction Term) : SubstitutionFunction Term :=
  let parameters := appendUnique (appendUnique [] inner.parameters) outer.parameters
  parameters.foldl (composeStep outer inner)
    (.unbound parameters (nodup_appendUnique (nodup_appendUnique List.nodup_nil _) _))

section

variable {outer inner : SubstitutionFunction Term}

theorem get_foldl_composeStep {ps : List Nat} {result : SubstitutionFunction Term} (nodup : ps.Nodup)
    (within : ps ⊆ result.parameters) (free : ∀ p ∈ ps, result.get p = none) (q : Nat) :
    (ps.foldl (composeStep outer inner) result).get q =
      if q ∈ ps ∧ applyBoth outer inner q ≠ .parameter q then some (applyBoth outer inner q)
      else result.get q := by
  induction ps generalizing result with
  | nil => simp
  | cons p rest ih =>
      obtain ⟨fresh, nodup⟩ := List.nodup_cons.mp nodup
      obtain ⟨inside, within⟩ := List.cons_subset.mp within
      have freeFirst := free p List.mem_cons_self
      have freeRest : ∀ p' ∈ rest, result.get p' = none := fun p' mem =>
        free p' (List.mem_cons_of_mem _ mem)
      rw [List.foldl_cons]
      by_cases same : applyBoth outer inner p = .parameter p
      · rw [composeStep, if_pos same, ih nodup within freeRest]
        by_cases first : q = p
        · simp [first, same, fresh]
        · simp [first]
      · have step : composeStep outer inner result p = result.bind p (applyBoth outer inner p) := by
          rw [composeStep, if_neg same, SubstitutionFunction.assign_unbound inside freeFirst]
        have freeNext : ∀ p' ∈ rest, (result.bind p (applyBoth outer inner p)).get p' = none := by
          intro p' mem
          rw [SubstitutionFunction.get_bind inside, if_neg (ne_of_mem_of_not_mem mem fresh),
            freeRest p' mem]
        rw [step, ih nodup (by exact within) freeNext,
          SubstitutionFunction.get_bind inside]
        by_cases first : q = p
        · simp [first, same, fresh]
        · simp [first]

theorem applyBoth_of_outside {p : Nat} (outInner : p ∉ inner.parameters)
    (outOuter : p ∉ outer.parameters) : applyBoth outer inner p = .parameter p := by
  have stays : ∀ rho : SubstitutionFunction Term, p ∉ rho.parameters →
      applySubstitutionFixpoint rho (.parameter p) = .parameter p := by
    intro rho outside
    refine applySubstitutionFixpoint_eq_iff.mpr (.unbound List.not_mem_nil ?_)
    rw [SubstitutionFunction.get, SubstitutionFunction.tryGet_eq_none.mpr outside]
    rfl
  rw [applyBoth, stays inner outInner, stays outer outOuter]

/-- The bindings of the composed substitution. -/
theorem get_composeSubstitutions (outer inner : SubstitutionFunction Term) (p : Nat) :
    (composeSubstitutions outer inner).get p =
      if applyBoth outer inner p = .parameter p then none else some (applyBoth outer inner p) := by
  unfold composeSubstitutions
  dsimp only
  have nodup := nodup_appendUnique (nodup_appendUnique List.nodup_nil inner.parameters) outer.parameters
  refine (get_foldl_composeStep nodup (List.Subset.refl _)
    (fun q _ => SubstitutionFunction.get_unbound q) p).trans ?_
  rw [SubstitutionFunction.get_unbound]
  by_cases same : applyBoth outer inner p = .parameter p
  · simp [same]
  · have mem : p ∈ appendUnique (appendUnique [] inner.parameters) outer.parameters := by
      rw [mem_appendUnique, mem_appendUnique, or_assoc]
      by_contra outside
      rw [not_or, not_or] at outside
      exact same (applyBoth_of_outside outside.2.1 outside.2.2)
    rw [if_pos ⟨mem, same⟩, if_neg same]

/-! ### Following the bindings -/

/-- The law, for terms. -/
theorem fixpoint_compose_iff : (∀ p, applySubstitutionFixpoint (composeSubstitutions outer inner)
      (.parameter p) = applyBoth outer inner p) ↔
    ∀ p q, applyBoth outer inner p = .parameter q → applyBoth outer inner q = .parameter q := by
  constructor
  · intro law p q given
    have again := applySubstitutionFixpoint_idem (composeSubstitutions outer inner) (.parameter p)
    rwa [law, given, law] at again
  · intro settled p
    rw [applySubstitutionFixpoint_eq_iff]
    have first := get_composeSubstitutions outer inner p
    by_cases same : applyBoth outer inner p = .parameter p
    · rw [if_pos same] at first
      rw [same]
      exact .unbound List.not_mem_nil first
    · rw [if_neg same] at first
      refine .step List.not_mem_nil first ?_
      cases result : applyBoth outer inner p with
      | object object => exact .object
      | parameter q =>
          have different : q ≠ p := fun equal => same (equal ▸ result)
          refine .unbound (by simpa using different) ?_
          rw [get_composeSubstitutions, if_pos (settled p q result)]

/-- The bindings of `inner` and then those of `outer` lead from a parameter to a term. -/
def LeadsThrough (outer inner : SubstitutionFunction Term) (p : Nat) (result : Term) : Prop :=
  ∃ mid, Leads inner (.parameter p) mid ∧ Leads outer mid result

/-- A parameter that `inner` and then `outer` give is not led elsewhere by them. -/
def Settled (outer inner : SubstitutionFunction Term) : Prop :=
  ∀ p q, LeadsThrough outer inner p (.parameter q) → LeadsThrough outer inner q (.parameter q)

theorem applyBoth_eq_iff (acyclicInner : Acyclic inner) (acyclicOuter : Acyclic outer) {p : Nat}
    {result : Term} : applyBoth outer inner p = result ↔ LeadsThrough outer inner p result := by
  rw [applyBoth, applySubstitutionFixpoint_eq_iff_leads acyclicOuter]
  constructor
  · intro leads
    exact ⟨_, (applySubstitutionFixpoint_eq_iff_leads acyclicInner).mp rfl, leads⟩
  · rintro ⟨mid, leads, leads'⟩
    rwa [(applySubstitutionFixpoint_eq_iff_leads acyclicInner).mpr leads]

theorem settled_iff (acyclicInner : Acyclic inner) (acyclicOuter : Acyclic outer) :
    Settled outer inner ↔
      ∀ p q, applyBoth outer inner p = .parameter q → applyBoth outer inner q = .parameter q := by
  simp only [Settled, ← applyBoth_eq_iff acyclicInner acyclicOuter]

theorem Settled.fixpoint_compose (settled : Settled outer inner) (acyclicInner : Acyclic inner)
    (acyclicOuter : Acyclic outer) (term : Term) :
    applySubstitutionFixpoint (composeSubstitutions outer inner) term =
      applySubstitutionFixpoint outer (applySubstitutionFixpoint inner term) := by
  cases term with
  | object object => simp only [applySubstitutionFixpoint_eq_iff.mpr .object]
  | parameter p =>
      exact fixpoint_compose_iff.mpr ((settled_iff acyclicInner acyclicOuter).mp settled) p

theorem Settled.acyclic_compose (settled : Settled outer inner) (acyclicInner : Acyclic inner)
    (acyclicOuter : Acyclic outer) : Acyclic (composeSubstitutions outer inner) := by
  refine acyclic_of_unbound_values fun p q bound => ?_
  rw [get_composeSubstitutions] at bound ⊢
  by_cases same : applyBoth outer inner p = .parameter p
  · rw [if_pos same] at bound
    cases bound
  · rw [if_neg same, Option.some.injEq] at bound
    rw [if_pos ((settled_iff acyclicInner acyclicOuter).mp settled p q bound)]

theorem Settled.applyFixpoint_compose (settled : Settled outer inner) (acyclicInner : Acyclic inner)
    (acyclicOuter : Acyclic outer) {S : Type} [StructureTraits S] (value : S) :
    applyFixpoint (composeSubstitutions outer inner) value =
      applyFixpoint outer (applyFixpoint inner value) := by
  rw [applyFixpoint, applyFixpoint, applyFixpoint, laws.transform_transform]
  exact transform_congr_iff.mpr fun term _ =>
    settled.fixpoint_compose acyclicInner acyclicOuter term

end

/-- Following the bindings of a composed substitution is following those of `inner` and then
those of `outer` iff no parameter that they give is led elsewhere by them. Where this holds,
composing is associative; applying a substitution twice is applying it once. -/
theorem applyFixpoint_compose_iff (outer middle inner : SubstitutionFunction Term)
    (acyclicInner : Acyclic inner) (acyclicMiddle : Acyclic middle) (acyclicOuter : Acyclic outer) :
    ((∀ (S : Type) [StructureTraits S] (value : S),
      applyFixpoint (composeSubstitutions outer inner) value =
        applyFixpoint outer (applyFixpoint inner value)) ↔ Settled outer inner) ∧
    (Settled middle inner → Settled outer middle →
      Settled outer (composeSubstitutions middle inner) →
      Settled (composeSubstitutions outer middle) inner →
      ∀ (S : Type) [StructureTraits S] (value : S),
        applyFixpoint (composeSubstitutions outer (composeSubstitutions middle inner)) value =
          applyFixpoint (composeSubstitutions (composeSubstitutions outer middle) inner) value) ∧
    ∀ (rho : SubstitutionFunction Term) (S : Type) [StructureTraits S] (value : S),
      applyFixpoint rho (applyFixpoint rho value) = applyFixpoint rho value := by
  refine ⟨⟨?_, ?_⟩, ?_, ?_⟩
  · intro law
    rw [settled_iff acyclicInner acyclicOuter]
    exact fixpoint_compose_iff.mp fun p => law Term (.parameter p)
  · intro settled S _ value
    exact settled.applyFixpoint_compose acyclicInner acyclicOuter value
  · intro first last left right S _ value
    have acyclicFirst := first.acyclic_compose acyclicInner acyclicMiddle
    have acyclicLast := last.acyclic_compose acyclicMiddle acyclicOuter
    calc applyFixpoint (composeSubstitutions outer (composeSubstitutions middle inner)) value
        = applyFixpoint outer (applyFixpoint middle (applyFixpoint inner value)) := by
          rw [left.applyFixpoint_compose acyclicFirst acyclicOuter,
            first.applyFixpoint_compose acyclicInner acyclicMiddle]
      _ = applyFixpoint (composeSubstitutions (composeSubstitutions outer middle) inner) value := by
          rw [right.applyFixpoint_compose acyclicInner acyclicLast,
            last.applyFixpoint_compose acyclicMiddle acyclicOuter]
  · intro rho S _ value
    rw [applyFixpoint, applyFixpoint, laws.transform_transform]
    exact transform_congr_iff.mpr fun term _ => applySubstitutionFixpoint_idem rho term

/-! ### A parameter that is bound again -/

/-- A substitution of one parameter. -/
def singleBinding (p : Nat) (value : Term) : SubstitutionFunction Term :=
  (SubstitutionFunction.fromRange p 1).bind p value

theorem get_singleBinding (p q : Nat) (value : Term) :
    (singleBinding p value).get q = if q = p then some value else none := by
  have inside : p ∈ (SubstitutionFunction.fromRange p 1 : SubstitutionFunction Term).parameters := by simp
  rw [singleBinding, SubstitutionFunction.get_bind inside, SubstitutionFunction.fromRange,
    SubstitutionFunction.get_unbound]

theorem acyclic_singleBinding {p : Nat} {value : Term} (different : value ≠ .parameter p) :
    Acyclic (singleBinding p value) := by
  refine acyclic_of_unbound_values fun q q' bound => ?_
  rw [get_singleBinding] at bound ⊢
  by_cases same : q = p
  · rw [if_pos same, Option.some.injEq] at bound
    rw [if_neg]
    rintro rfl
    exact different bound
  · rw [if_neg same] at bound
    cases bound

/-- Parameter 2 is bound to parameter 3, and after it parameter 0 to parameter 2. -/
theorem composition_counterexample :
    ¬ ∀ outer inner : SubstitutionFunction Term, Acyclic inner → Acyclic outer →
      ∀ (S : Type) [StructureTraits S] (value : S),
        applyFixpoint (composeSubstitutions outer inner) value =
          applyFixpoint outer (applyFixpoint inner value) := by
  intro law
  have same := law (singleBinding 0 (.parameter 2)) (singleBinding 2 (.parameter 3))
    (acyclic_singleBinding (by decide)) (acyclic_singleBinding (by decide)) Term (.parameter 0)
  exact absurd same (by decide)

/-- The substitutions of the test of the composition. -/
theorem applyFixpoint_compose_singleBindings :
    applyFixpoint (composeSubstitutions (singleBinding 1 (.object 4)) (singleBinding 0 (.parameter 1)))
      [Term.parameter 0, .parameter 1] =
    applyFixpoint (singleBinding 1 (.object 4)) (applyFixpoint (singleBinding 0 (.parameter 1))
      [Term.parameter 0, .parameter 1]) := by
  have acyclicInner : Acyclic (singleBinding 0 (.parameter 1)) := acyclic_singleBinding (by decide)
  have acyclicOuter : Acyclic (singleBinding 1 (.object 4)) := acyclic_singleBinding (by decide)
  refine (applyFixpoint_compose_iff _ _ _ acyclicInner acyclicInner acyclicOuter).1.mpr ?_ _ _
  rw [settled_iff acyclicInner acyclicOuter]
  intro p q given
  by_cases bound : p = 0 ∨ p = 1
  · have toObject :
        applyBoth (singleBinding 1 (.object 4)) (singleBinding 0 (.parameter 1)) p = .object 4 := by
      rcases bound with rfl | rfl <;> decide
    rw [toObject] at given
    cases given
  · obtain ⟨notZero, notOne⟩ := not_or.mp bound
    have stays :
        applyBoth (singleBinding 1 (.object 4)) (singleBinding 0 (.parameter 1)) p = .parameter p :=
      applyBoth_of_outside (by simpa [singleBinding] using notZero)
        (by simpa [singleBinding] using notOne)
    have same := stays.symm.trans given
    cases same
    exact given

end Tyr.Formalism.Unification
