import Tyr.Formalism.Unification.Structures

/-!
Matching against ground structures.

An extension of a substitution has the same domain and keeps its bindings. A match
against a ground structure gives the least extension that solves the pairs of
terms: its extensions are those of the start that solve them.

* `matchTerm_ground` — one pair.
* `zipPairs_ground` — any number of pairs.
* `matchStructure_ground` — matching is sound and complete, and the result is least.
-/

namespace Tyr.Formalism.Unification

open StructureTraits

namespace SubstitutionFunction

/-- The same domain, and every binding of `sigma`. -/
structure Extends (rho sigma : SubstitutionFunction Term) : Prop where
  parameters_eq : rho.parameters = sigma.parameters
  keeps : ∀ p value, sigma.get p = some value → rho.get p = some value

theorem Extends.refl (sigma : SubstitutionFunction Term) : sigma.Extends sigma :=
  ⟨rfl, fun _ _ bound => bound⟩

/-- Binding an unbound parameter is the least way to give it the value. -/
theorem extends_bind_iff {sigma rho : SubstitutionFunction Term} {p : Nat} {value : Term}
    (inside : p ∈ sigma.parameters) (free : sigma.get p = none) :
    rho.Extends (sigma.bind p value) ↔ rho.Extends sigma ∧ rho.get p = some value := by
  constructor
  · intro ext
    refine ⟨⟨ext.parameters_eq, ?_⟩, ext.keeps p value (by rw [get_bind inside, if_pos rfl])⟩
    intro q value' bound
    have different : q ≠ p := by
      rintro rfl
      rw [free] at bound
      cases bound
    exact ext.keeps q value' (by rw [get_bind inside, if_neg different, bound])
  · rintro ⟨ext, bound⟩
    refine ⟨ext.parameters_eq, ?_⟩
    intro q value' bound'
    rw [get_bind inside] at bound'
    by_cases same : q = p
    · rw [if_pos same] at bound'
      rw [same, bound, bound']
    · rw [if_neg same] at bound'
      exact ext.keeps q value' bound'

end SubstitutionFunction

open SubstitutionFunction

theorem applyOnceTerm_eq_object {rho : SubstitutionFunction Term} {p object : Nat} :
    applyOnceTerm rho (.parameter p) = .object object ↔ rho.get p = some (.object object) := by
  rw [applyOnceTerm]
  cases rho.get p with
  | none => simp
  | some value => simp

/-- What a walk from `sigma` has found: its result has the extensions of `sigma` that solve
the pairs, and binds no parameter that is not in them. -/
structure Solved (pairs : List (Term × Term)) (sigma result : SubstitutionFunction Term) : Prop where
  extends_iff : ∀ rho : SubstitutionFunction Term, rho.Extends result ↔
    rho.Extends sigma ∧ ∀ pair ∈ pairs, applyOnceTerm rho pair.1 = pair.2
  fresh : ∀ p, sigma.get p = none → result.get p ≠ none → ∃ pair ∈ pairs, pair.1 = .parameter p

/-- No extension of `sigma` solves the pairs. -/
def Unsolvable (pairs : List (Term × Term)) (sigma : SubstitutionFunction Term) : Prop :=
  ∀ rho : SubstitutionFunction Term, rho.Extends sigma →
    ¬ ∀ pair ∈ pairs, applyOnceTerm rho pair.1 = pair.2

/-- The two outcomes of a walk. -/
def Decides (pairs : List (Term × Term)) (sigma counted : SubstitutionFunction Term) :
    Option MatchState → Prop
  | none => Unsolvable pairs sigma
  | some next => next.counted = counted ∧ Solved pairs sigma next.sigma

/-! ### One pair -/

section

variable {sigma counted : SubstitutionFunction Term} {p object : Nat}

theorem solved_refl {pairs : List (Term × Term)}
    (solves : ∀ rho : SubstitutionFunction Term, rho.Extends sigma →
      ∀ pair ∈ pairs, applyOnceTerm rho pair.1 = pair.2) : Solved pairs sigma sigma where
  extends_iff rho := ⟨fun ext => ⟨ext, solves rho ext⟩, And.left⟩
  fresh _ free bound := absurd free bound

theorem resolveRole_counted_empty (empty : counted.parameters = []) :
    (MatchState.mk sigma counted).resolveRole p =
      if sigma.containsParameter p then .sigma else .rigid := by
  have outside : counted.containsParameter p = false := by simp [containsParameter, empty]
  simp [MatchState.resolveRole, outside]

theorem matchParameterObject_ground (empty : counted.parameters = []) :
    Decides [(.parameter p, .object object)] sigma counted
      (matchParameterObject p (.object object) ⟨sigma, counted⟩) := by
  rw [matchParameterObject, resolveRole_counted_empty empty]
  by_cases inside : p ∈ sigma.parameters
  · rw [containsParameter_iff.mpr inside]
    simp only [if_true, MatchState.assignSigma, assignOrCheck]
    cases bound : sigma.get p with
    | none =>
        refine ⟨rfl, ?_, ?_⟩
        · intro rho
          simp [extends_bind_iff inside bound, applyOnceTerm_eq_object]
        · intro q free newly
          refine ⟨_, List.mem_singleton_self _, ?_⟩
          by_cases same : q = p
          · rw [same]
          · rw [get_bind inside, if_neg same] at newly
            exact absurd free newly
    | some old =>
        by_cases same : old = .object object
        · simp only [same, if_true]
          refine ⟨rfl, solved_refl ?_⟩
          intro rho ext
          simp [applyOnceTerm_eq_object, ext.keeps p old bound, same]
        · simp only [if_neg same]
          intro rho ext solves
          have value := applyOnceTerm_eq_object.mp (solves _ (List.mem_singleton_self _))
          rw [ext.keeps p old bound, Option.some.injEq] at value
          exact same value
  · have outside : sigma.containsParameter p = false := by simp [containsParameter, inside]
    rw [outside]
    intro rho ext solves
    have value := applyOnceTerm_eq_object.mp (solves _ (List.mem_singleton_self _))
    exact inside (ext.parameters_eq ▸ mem_parameters_of_get value)

/-- A term and an object. -/
theorem matchTerm_ground (empty : counted.parameters = []) (term : Term) :
    Decides [(term, .object object)] sigma counted
      (matchTerm term (.object object) ⟨sigma, counted⟩) := by
  cases term with
  | parameter p => exact matchParameterObject_ground empty
  | object lhs =>
      rw [matchTerm]
      by_cases same : lhs = object
      · rw [if_pos same]
        exact ⟨rfl, solved_refl fun rho _ => by simp [applyOnceTerm, same]⟩
      · rw [if_neg same]
        intro rho _ solves
        have value := solves _ (List.mem_singleton_self _)
        rw [applyOnceTerm, Term.object.injEq] at value
        exact same value

end

/-! ### The walk -/

/-- One pair after another. -/
theorem zipPairs_ground {pairs : List (Term × Term)} {sigma counted : SubstitutionFunction Term}
    (empty : counted.parameters = []) (ground : ∀ pair ∈ pairs, ∃ object, pair.2 = .object object) :
    Decides pairs sigma counted (zipPairs matchTerm pairs ⟨sigma, counted⟩) := by
  induction pairs generalizing sigma with
  | nil => exact ⟨rfl, solved_refl fun _ _ => by simp⟩
  | cons pair rest ih =>
      obtain ⟨term, element⟩ := pair
      obtain ⟨object, isObject⟩ := ground (term, element) List.mem_cons_self
      cases isObject
      have first : Decides [(term, .object object)] sigma counted
          (matchTerm term (.object object) ⟨sigma, counted⟩) := matchTerm_ground empty term
      rw [zipPairs, List.foldlM_cons]
      cases step : matchTerm term (.object object) ⟨sigma, counted⟩ with
      | none =>
          rw [step] at first
          intro rho ext solves
          refine first rho ext fun pair mem => ?_
          cases List.mem_singleton.mp mem
          exact solves _ List.mem_cons_self
      | some next =>
          obtain ⟨sigma', counted'⟩ := next
          rw [step] at first
          obtain ⟨rfl, solved⟩ := first
          have later : Decides rest sigma' _ (zipPairs matchTerm rest ⟨sigma', _⟩) :=
            ih fun pair mem => ground pair (List.mem_cons_of_mem _ mem)
          change Decides _ sigma _ (zipPairs matchTerm rest ⟨sigma', counted'⟩)
          have both : ∀ rho : SubstitutionFunction Term,
              (rho.Extends sigma ∧ ∀ pair ∈ (term, .object object) :: rest,
                applyOnceTerm rho pair.1 = pair.2) ↔
              rho.Extends sigma' ∧ ∀ pair ∈ rest, applyOnceTerm rho pair.1 = pair.2 := by
            intro rho
            rw [solved.extends_iff, List.forall_mem_cons, List.forall_mem_singleton, and_assoc]
          cases walk : zipPairs matchTerm rest ⟨sigma', counted'⟩ with
          | none =>
              rw [walk] at later
              intro rho ext solves
              obtain ⟨ext', solves'⟩ := (both rho).mp ⟨ext, solves⟩
              exact later rho ext' solves'
          | some last =>
              rw [walk] at later
              refine ⟨later.1, ?_, ?_⟩
              · intro rho
                rw [later.2.extends_iff, both]
              · intro p free bound
                by_cases before : sigma'.get p = none
                · obtain ⟨pair, mem, occurs⟩ := later.2.fresh p before bound
                  exact ⟨pair, List.mem_cons_of_mem _ mem, occurs⟩
                · obtain ⟨pair, mem, occurs⟩ := solved.fresh p free before
                  cases List.mem_singleton.mp mem
                  exact ⟨_, List.mem_cons_self, occurs⟩

/-! ### Structures -/

section

variable {S : Type} [StructureTraits S] {pattern target : S}

/-- Application gives the target when the pairs of a structure of the same shape are solved. -/
theorem applySubstitutionOnce_eq_iff {rho : SubstitutionFunction Term} :
    applySubstitutionOnce rho pattern = target ↔ SameShape pattern target ∧
      ∀ pair ∈ (terms pattern).zip (terms target), applyOnceTerm rho pair.1 = pair.2 := by
  rw [applySubstitutionOnce, laws.transform_eq]
  refine and_congr_right fun shape => ?_
  rw [← List.forall₂_eq_eq_eq, List.forall₂_map_left_iff, List.forall₂_iff_zip]
  constructor
  · rintro ⟨_, solves⟩ pair mem
    exact solves mem
  · intro solves
    exact ⟨laws.length_terms shape, fun mem => solves _ mem⟩

theorem matchStructure_eq_some {sigma result : SubstitutionFunction Term}
    (isMatch : matchStructure pattern target sigma = some result) : SameShape pattern target := by
  rw [matchStructure, matchEx_state] at isMatch
  obtain ⟨next, walk, _⟩ := Option.map_eq_some_iff.mp isMatch
  exact (laws.zip_eq_some.mp walk).1

/-- Both outcomes of a match against a ground structure. -/
theorem matchStructure_decides (pattern : S) (ground : IsGround target) (sigma : SubstitutionFunction Term) :
    (∀ result, matchStructure pattern target sigma = some result →
      SameShape pattern target ∧ Solved ((terms pattern).zip (terms target)) sigma result) ∧
    (matchStructure pattern target sigma = none → SameShape pattern target →
      Unsolvable ((terms pattern).zip (terms target)) sigma) := by
  have walk : Decides ((terms pattern).zip (terms target)) sigma (.fromRange 0 0)
      (zipPairs matchTerm ((terms pattern).zip (terms target)) ⟨sigma, .fromRange 0 0⟩) :=
    zipPairs_ground rfl
    fun pair mem => ground pair.2 (List.of_mem_zip mem).2
  constructor
  · intro result isMatch
    have shape := matchStructure_eq_some isMatch
    rw [matchStructure, matchEx_state] at isMatch
    obtain ⟨next, zip, rfl⟩ := Option.map_eq_some_iff.mp isMatch
    rw [(laws.zip_eq_some.mp zip).2] at walk
    exact ⟨shape, walk.2⟩
  · intro fails shape
    rw [matchStructure, matchEx_state, Option.map_eq_none_iff] at fails
    cases outcome : zipPairs matchTerm ((terms pattern).zip (terms target))
        ⟨sigma, SubstitutionFunction.fromRange 0 0⟩ with
    | none =>
        rw [outcome] at walk
        exact walk
    | some next =>
        rw [laws.zip_eq_some.mpr ⟨shape, outcome⟩] at fails
        cases fails

/-- Matching against a ground structure succeeds iff an extension of the substitution makes
the pattern the target, and gives the least one. -/
theorem matchStructure_ground (pattern target : S) (sigma : SubstitutionFunction Term) :
    (IsGround target →
      ((∃ result, matchStructure pattern target sigma = some result) ↔
        ∃ rho : SubstitutionFunction Term, rho.Extends sigma ∧
          applySubstitutionOnce rho pattern = target) ∧
      ∀ result, matchStructure pattern target sigma = some result →
        result.Extends sigma ∧ applySubstitutionOnce result pattern = target ∧
        (∀ rho : SubstitutionFunction Term, rho.Extends sigma →
          applySubstitutionOnce rho pattern = target → rho.Extends result) ∧
        ∀ p, sigma.get p = none → result.get p ≠ none → Term.parameter p ∈ terms pattern) ∧
    (¬ SameShape pattern target → matchStructure pattern target sigma = none) := by
  constructor
  · intro ground
    obtain ⟨succeeds, fails⟩ := matchStructure_decides pattern ground sigma
    have sound : ∀ result, matchStructure pattern target sigma = some result →
        result.Extends sigma ∧ applySubstitutionOnce result pattern = target := by
      intro result isMatch
      obtain ⟨shape, solved⟩ := succeeds result isMatch
      obtain ⟨ext, solves⟩ := (solved.extends_iff result).mp (.refl result)
      exact ⟨ext, applySubstitutionOnce_eq_iff.mpr ⟨shape, solves⟩⟩
    refine ⟨⟨?_, ?_⟩, ?_⟩
    · rintro ⟨result, isMatch⟩
      exact ⟨result, sound result isMatch⟩
    · rintro ⟨rho, ext, same⟩
      obtain ⟨shape, solves⟩ := applySubstitutionOnce_eq_iff.mp same
      by_contra no
      exact fails (Option.eq_none_iff_forall_ne_some.mpr fun result isMatch => no ⟨result, isMatch⟩)
        shape rho ext solves
    · intro result isMatch
      obtain ⟨shape, solved⟩ := succeeds result isMatch
      refine ⟨(sound result isMatch).1, (sound result isMatch).2, ?_, ?_⟩
      · intro rho ext same
        exact (solved.extends_iff rho).mpr ⟨ext, (applySubstitutionOnce_eq_iff.mp same).2⟩
      · intro p free bound
        obtain ⟨pair, mem, occurs⟩ := solved.fresh p free bound
        exact occurs ▸ (List.of_mem_zip mem).1
  · intro different
    rw [Option.eq_none_iff_forall_ne_some]
    intro result isMatch
    exact different (matchStructure_eq_some isMatch)

/-- Two literals with a repeated parameter and a constant. -/
theorem matchStructure_ground_literals :
    ∃ result, matchStructure
      [⟨⟨0, [.parameter 0, .object 7, .parameter 0]⟩, true⟩, ⟨⟨1, [.parameter 1]⟩, false⟩]
      [(⟨⟨0, [.object 3, .object 7, .object 3]⟩, true⟩ : Literal), ⟨⟨1, [.object 4]⟩, false⟩]
      (SubstitutionFunction.fromRange 0 2) = some result := by
  have ground : IsGround
      [(⟨⟨0, [.object 3, .object 7, .object 3]⟩, true⟩ : Literal), ⟨⟨1, [.object 4]⟩, false⟩] := by
    intro term mem
    cases term with
    | parameter p => simp [terms] at mem
    | object object => exact ⟨object, rfl⟩
  refine ((matchStructure_ground _ _ _).1 ground).1.mpr
    ⟨((SubstitutionFunction.fromRange 0 2).bind 0 (.object 3)).bind 1 (.object 4), ⟨rfl, ?_⟩, by decide⟩
  intro p value bound
  rw [SubstitutionFunction.fromRange, SubstitutionFunction.get_unbound] at bound
  cases bound

end

end Tyr.Formalism.Unification
