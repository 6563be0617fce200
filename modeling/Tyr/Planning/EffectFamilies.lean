import Mathlib.Data.List.GetD
import Tyr.Planning.LiftedApplicability
import Tyr.Planning.MetricAccumulation

/-!
Compatibility of the numeric effects that fire.

The families of the effects seen so far are kept in a vector, which is resized for
each effect so that it ends with the effect's index. The record of an earlier
effect is therefore lost when a later one has a smaller index.

* `recordAll_isSome_iff` — the vector detects an incompatible pair exactly if no
  effect of a smaller index is between the two.
* `isApplicableIfFires_iff`, `isApplicableIfFiresLifted_iff` — what the tests
  decide, for a ground action and for an action binding.
* `compatibilityExact_iff` — when they decide compatibility.
-/

namespace Tyr.Planning

open Tyr.Formalism Tyr.Formalism.Planning

/-! ### The vector of families -/

/-- A numeric effect that fires: the index under which its family is recorded, and
the ground function term that it changes. -/
structure FiredEffect where
  index : Nat
  target : Nat
  family : EffectFamily
deriving DecidableEq, Repr

/-- Compare the family of an effect with the recorded one, and record it. -/
def recordFamily (families : List EffectFamily) (effect : FiredEffect) : Option (List EffectFamily) :=
  let families := resize families (effect.index + 1) .none
  if !isCompatibleEffectFamily effect.family (families.getD effect.index .none) then none
  else some (families.set effect.index effect.family)

theorem getD_resize (families : List EffectFamily) (size i : Nat) :
    (resize families size .none).getD i .none = if i < size then families.getD i .none else .none := by
  simp only [resize, List.getD_eq_getElem?_getD, List.getElem?_append, List.length_take,
    List.getElem?_take, List.getElem?_replicate]
  split
  · split
    · rfl
    · omega
  · split
    · split
      · rw [List.getElem?_eq_none (by omega)]
        rfl
      · omega
    · split
      · omega
      · rfl

theorem length_resize (families : List EffectFamily) (size : Nat) :
    (resize families size .none).length = size := by
  simp only [resize, List.length_append, List.length_take, List.length_replicate]
  omega

/-- The recorded families afterwards: those of larger indices are lost. -/
theorem getD_recordFamily {families families' : List EffectFamily} {effect : FiredEffect}
    (records : recordFamily families effect = some families') (i : Nat) :
    families'.getD i .none = if i = effect.index then effect.family
      else if i < effect.index then families.getD i .none else .none := by
  unfold recordFamily at records
  dsimp only at records
  split at records
  · cases records
  · obtain rfl := Option.some.inj records
    rw [List.getD_eq_getElem?_getD, List.getElem?_set, length_resize]
    by_cases same : i = effect.index
    · subst same
      simp
    · rw [if_neg (Ne.symm same), if_neg same, ← List.getD_eq_getElem?_getD, getD_resize]
      by_cases less : i < effect.index
      · rw [if_pos less, if_pos (Nat.lt_succ_of_lt less)]
      · rw [if_neg less, if_neg (by omega)]

theorem recordFamily_isSome_iff {families : List EffectFamily} {effect : FiredEffect} :
    (recordFamily families effect).isSome = true ↔
      isCompatibleEffectFamily effect.family (families.getD effect.index .none) = true := by
  simp only [recordFamily, getD_resize, if_pos (Nat.lt_succ_self _)]
  cases isCompatibleEffectFamily effect.family (families.getD effect.index .none) <;> simp

def recordAll (effects : List FiredEffect) : Option (List EffectFamily) :=
  effects.foldlM recordFamily []

theorem recordAll_concat (effects : List FiredEffect) (effect : FiredEffect) :
    recordAll (effects ++ [effect]) =
      (recordAll effects).bind fun families => recordFamily families effect := by
  simp [recordAll, List.foldlM_append]

/-- The last effect that recorded a family for an index, with larger indices only
behind it. -/
def LastVisible (effects : List FiredEffect) (index : Nat) (effect : FiredEffect) : Prop :=
  ∃ earlier later, effects = earlier ++ effect :: later ∧ effect.index = index ∧
    ∀ other ∈ later, index < other.index

theorem lastVisible_concat {effects : List FiredEffect} {last effect : FiredEffect} {index : Nat} :
    LastVisible (effects ++ [last]) index effect ↔
      (last.index = index ∧ effect = last) ∨ (index < last.index ∧ LastVisible effects index effect) := by
  constructor
  · rintro ⟨earlier, later, split, same, above⟩
    rcases List.eq_nil_or_concat later with rfl | ⟨later', other, rfl⟩
    · obtain ⟨rfl, sameEffect⟩ := List.append_inj' split rfl
      obtain rfl := List.singleton_inj.mp sameEffect
      exact .inl ⟨same, rfl⟩
    · rw [List.concat_eq_append] at split above
      rw [← List.cons_append, ← List.append_assoc] at split
      obtain ⟨rfl, sameEffect⟩ := List.append_inj' split rfl
      obtain rfl := List.singleton_inj.mp sameEffect
      refine .inr ⟨above last (by simp), earlier, later', rfl, same, fun other mem => ?_⟩
      exact above other (List.mem_append_left _ mem)
  · rintro (⟨same, rfl⟩ | ⟨less, earlier, later, rfl, same, above⟩)
    · exact ⟨effects, [], rfl, same, fun other mem => absurd mem List.not_mem_nil⟩
    · refine ⟨earlier, later ++ [last], by simp, same, fun other mem => ?_⟩
      rcases List.mem_append.mp mem with mem | mem
      · exact above other mem
      · obtain rfl := List.mem_singleton.mp mem
        exact less

/-- The vector holds the families of the last visible effects. -/
theorem getD_recordAll {effects : List FiredEffect} {families : List EffectFamily}
    (records : recordAll effects = some families) (index : Nat) :
    (∀ effect, LastVisible effects index effect → families.getD index .none = effect.family) ∧
      ((∀ effect, ¬ LastVisible effects index effect) → families.getD index .none = .none) := by
  induction effects using List.reverseRecOn generalizing families with
  | nil =>
      obtain rfl : [] = families := Option.some.inj records
      refine ⟨fun effect ⟨earlier, later, split, _⟩ => ?_, fun _ => rfl⟩
      simp at split
  | append_singleton effects last ih =>
      rw [recordAll_concat, Option.bind_eq_some_iff] at records
      obtain ⟨before, recordsBefore, recordsLast⟩ := records
      rw [getD_recordFamily recordsLast]
      obtain ⟨visible, invisible⟩ := ih recordsBefore
      constructor
      · intro effect isVisible
        rcases lastVisible_concat.mp isVisible with ⟨same, rfl⟩ | ⟨less, isVisible⟩
        · rw [if_pos same.symm]
        · rw [if_neg less.ne, if_pos less, visible effect isVisible]
      · intro none
        split
        · rename_i same
          exact absurd (lastVisible_concat.mpr (.inl ⟨same.symm, rfl⟩)) (none last)
        · split
          · rename_i less
            apply invisible
            intro effect isVisible
            exact none effect (lastVisible_concat.mpr (.inr ⟨less, isVisible⟩))
          · rfl

/-- Two effects of one index without a smaller index between them are compatible. -/
def VisiblyCompatible (effects : List FiredEffect) : Prop :=
  ∀ before effect after, effects = before ++ effect :: after → ∀ earlier,
    LastVisible before effect.index earlier →
      isCompatibleEffectFamily effect.family earlier.family = true

theorem visiblyCompatible_concat {effects : List FiredEffect} {last : FiredEffect} :
    VisiblyCompatible (effects ++ [last]) ↔ VisiblyCompatible effects ∧ ∀ earlier,
      LastVisible effects last.index earlier →
        isCompatibleEffectFamily last.family earlier.family = true := by
  constructor
  · intro compatible
    refine ⟨fun before effect after split => ?_, compatible effects last [] rfl⟩
    exact compatible before effect (after ++ [last]) (by simp [split])
  · rintro ⟨compatible, compatibleLast⟩ before effect after split
    rcases List.eq_nil_or_concat after with rfl | ⟨after', other, rfl⟩
    · obtain ⟨rfl, sameEffect⟩ := List.append_inj' split rfl
      obtain rfl := List.singleton_inj.mp sameEffect
      exact compatibleLast
    · rw [List.concat_eq_append, ← List.cons_append, ← List.append_assoc] at split
      obtain ⟨rfl, -⟩ := List.append_inj' split rfl
      exact compatible before effect after' rfl

/-- The effects are accepted exactly if they are visibly compatible. -/
theorem recordAll_isSome_iff (effects : List FiredEffect) :
    (recordAll effects).isSome = true ↔ VisiblyCompatible effects := by
  induction effects using List.reverseRecOn with
  | nil =>
      refine iff_of_true rfl fun before effect after split => ?_
      simp at split
  | append_singleton effects last ih =>
      rw [visiblyCompatible_concat, ← ih, recordAll_concat]
      cases records : recordAll effects with
      | none => simp
      | some families =>
          obtain ⟨visible, invisible⟩ := getD_recordAll records last.index
          rw [Option.bind_some, recordFamily_isSome_iff, Option.isSome_some, eq_self, true_and]
          constructor
          · intro compatible earlier isVisible
            rwa [visible earlier isVisible] at compatible
          · intro compatible
            by_cases exists' : ∃ earlier, LastVisible effects last.index earlier
            · obtain ⟨earlier, isVisible⟩ := exists'
              rw [visible earlier isVisible]
              exact compatible earlier isVisible
            · rw [invisible (not_exists.mp exists')]
              simp [isCompatibleEffectFamily]

/-! ### The tests of the effects that fire -/

/-- Whether the numbers that an effect reads are defined, and the family that it
records; an increase of `total-cost` records none. -/
structure EffectTest where
  defined : Bool
  effect : Option FiredEffect
deriving DecidableEq, Repr

def runTest (families : List EffectFamily) (test : EffectTest) : Option (List EffectFamily) :=
  if test.defined then
    match test.effect with
    | none => some families
    | some effect => recordFamily families effect
  else none

/-- Everything that the effects read is defined. -/
def AllDefined (tests : List EffectTest) : Prop := ∀ test ∈ tests, test.defined = true

/-- The numeric effects among the effects. -/
def numericTests (tests : List EffectTest) : List FiredEffect := tests.filterMap EffectTest.effect

/-- The effects on one ground function term have compatible families. -/
def Compatible (tests : List EffectTest) : Prop :=
  (numericTests tests).Pairwise fun effect other =>
    effect.target = other.target → isCompatibleEffectFamily effect.family other.family = true

/-- What the effects part of the applicability test is about. -/
def Acceptable (tests : List EffectTest) : Prop := AllDefined tests ∧ Compatible tests

theorem foldlM_runTest (families : List EffectFamily) (tests : List EffectTest) :
    tests.foldlM runTest families =
      if tests.all EffectTest.defined then (numericTests tests).foldlM recordFamily families
      else none := by
  induction tests generalizing families with
  | nil => rfl
  | cons test rest ih =>
      obtain ⟨defined, effect⟩ := test
      rw [List.foldlM_cons]
      cases defined with
      | false => simp [runTest]
      | true =>
          cases effect with
          | none => simp [runTest, ih, numericTests]
          | some effect =>
              cases records : recordFamily families effect with
              | none => simp [runTest, records, numericTests]
              | some families' => simp [runTest, records, numericTests, ih]

theorem runTests_isSome_iff (tests : List EffectTest) :
    (tests.foldlM runTest []).isSome = true ↔
      AllDefined tests ∧ VisiblyCompatible (numericTests tests) := by
  rw [foldlM_runTest, ← recordAll_isSome_iff, recordAll, AllDefined, ← List.all_eq_true]
  split
  · rename_i all
    simp [all]
  · rename_i undefined
    simp [undefined]

/-! ### Ground actions -/

section

variable (context : StateContext)

/-- The tests of an effect. -/
def effectTests (effect : GroundConjunctiveEffect) : List EffectTest :=
  effect.numericEffects.map (fun numeric =>
      { defined := !((numeric.op != .assign &&
            (context.unpackedState.fluentValues numeric.fterm).isNaN) ||
          (numeric.fexpr.evaluate context.get).isNaN)
        effect := some ⟨numeric.fterm, numeric.fterm, numeric.op.family⟩ }) ++
    effect.auxiliaryNumericEffect.toList.map fun fexpr =>
      { defined := !(fexpr.evaluate context.get).isNaN, effect := none }

/-- The tests of the effects that fire. -/
def firedTests (effects : List GroundConditionalEffect) : List EffectTest :=
  (firedEffects context effects).flatMap (effectTests context)

variable {context}

theorem isApplicableNumericEffect_eq (families : List EffectFamily) (effect : GroundNumericEffect) :
    isApplicableNumericEffect context families effect = runTest families
      { defined := !((effect.op != .assign &&
            (context.unpackedState.fluentValues effect.fterm).isNaN) ||
          (effect.fexpr.evaluate context.get).isNaN)
        effect := some ⟨effect.fterm, effect.fterm, effect.op.family⟩ } := by
  simp only [isApplicableNumericEffect, runTest, recordFamily]
  by_cases assigns : effect.op = .assign <;>
    cases (context.unpackedState.fluentValues effect.fterm).isNaN <;>
    cases (effect.fexpr.evaluate context.get).isNaN <;> simp [assigns]

theorem isApplicableEffect_eq (families : List EffectFamily) (effect : GroundConjunctiveEffect) :
    isApplicableEffect context families effect =
      (effectTests context effect).foldlM runTest families := by
  rw [effectTests, List.foldlM_append, List.foldlM_map, isApplicableEffect]
  simp only [← isApplicableNumericEffect_eq]
  apply bind_congr
  intro families
  cases effect.auxiliaryNumericEffect with
  | none => rfl
  | some fexpr =>
      simp only [Option.toList_some, List.map_cons, List.map_nil, List.foldlM_cons, List.foldlM_nil,
        runTest]
      cases (fexpr.evaluate context.get).isNaN <;> simp

theorem foldlM_isApplicable (families : List EffectFamily) (effects : List GroundConditionalEffect) :
    effects.foldlM (fun families condEffect =>
      if isApplicableCondition context condEffect.condition then
        isApplicableEffect context families condEffect.effect
      else some families) families = (firedTests context effects).foldlM runTest families := by
  induction effects generalizing families with
  | nil => rfl
  | cons condEffect rest ih =>
      rw [List.foldlM_cons]
      by_cases fires : isApplicableCondition context condEffect.condition
      · have tests : firedTests context (condEffect :: rest) =
            effectTests context condEffect.effect ++ firedTests context rest := by
          simp [firedTests, firedEffects, fires]
        rw [tests, List.foldlM_append, if_pos fires, isApplicableEffect_eq]
        exact bind_congr ih
      · have tests : firedTests context (condEffect :: rest) = firedTests context rest := by
          simp [firedTests, firedEffects, fires]
        rw [tests, if_neg fires]
        exact ih families

/-- What the test of a ground action decides. -/
theorem isApplicableIfFires_iff (effects : List GroundConditionalEffect) :
    isApplicableIfFires context effects = true ↔ AllDefined (firedTests context effects) ∧
      VisiblyCompatible (numericTests (firedTests context effects)) := by
  rw [isApplicableIfFires, foldlM_isApplicable, runTests_isSome_iff]

end

/-! ### Action bindings -/

namespace ApplicabilityContext

variable (context : ApplicabilityContext) (ftermIndex : FtermIndex)

/-- The tests of an effect under a binding. -/
def effectTestsLifted (effect : ConjunctiveEffect) : List EffectTest :=
  effect.numericEffects.map (fun numeric =>
      { defined := !((numeric.op != .assign &&
            (context.get (.fluent numeric.function numeric.terms)).isNaN) ||
          (numeric.fexpr.evaluate context.get).isNaN)
        effect := some
          { index := ftermIndex.index numeric.function numeric.terms
            target := context.repository.fluentFterm
              ⟨numeric.function, numeric.terms.map (Term.ground context.binding)⟩
            family := numeric.op.family } }) ++
    effect.auxiliaryNumericEffect.toList.map fun fexpr =>
      { defined := !(fexpr.evaluate context.get).isNaN, effect := none }

/-- The tests of an instance: none if it does not fire. -/
def instanceTests (inst : EffectInstance) : List EffectTest :=
  if (context.extend inst.1).isApplicableLiftedCondition inst.2.condition then
    (context.extend inst.1).effectTestsLifted ftermIndex inst.2.effect
  else []

def firedTestsLifted (domains : EffectDomains) (effects : List ConditionalEffect) : List EffectTest :=
  (effectInstances domains effects).flatMap (context.instanceTests ftermIndex)

variable {context ftermIndex}

theorem isApplicableLiftedNumericEffect_eq (families : List EffectFamily) (effect : NumericEffect) :
    context.isApplicableLiftedNumericEffect ftermIndex families effect = runTest families
      { defined := !((effect.op != .assign &&
            (context.get (.fluent effect.function effect.terms)).isNaN) ||
          (effect.fexpr.evaluate context.get).isNaN)
        effect := some
          { index := ftermIndex.index effect.function effect.terms
            target := context.repository.fluentFterm
              ⟨effect.function, effect.terms.map (Term.ground context.binding)⟩
            family := effect.op.family } } := by
  simp only [isApplicableLiftedNumericEffect, runTest, recordFamily]
  by_cases assigns : effect.op = .assign <;>
    cases (context.get (.fluent effect.function effect.terms)).isNaN <;>
    cases (effect.fexpr.evaluate context.get).isNaN <;> simp [assigns]

theorem isApplicableLiftedEffect_eq (families : List EffectFamily) (effect : ConjunctiveEffect) :
    context.isApplicableLiftedEffect ftermIndex families effect =
      (context.effectTestsLifted ftermIndex effect).foldlM runTest families := by
  rw [effectTestsLifted, List.foldlM_append, List.foldlM_map, isApplicableLiftedEffect]
  simp only [← isApplicableLiftedNumericEffect_eq]
  apply bind_congr
  intro families
  cases effect.auxiliaryNumericEffect with
  | none => rfl
  | some fexpr =>
      simp only [Option.toList_some, List.map_cons, List.map_nil, List.foldlM_cons, List.foldlM_nil,
        runTest]
      cases (fexpr.evaluate context.get).isNaN <;> simp

theorem isApplicableInstance_eq (families : List EffectFamily) (inst : EffectInstance) :
    context.isApplicableInstance ftermIndex families inst =
      (context.instanceTests ftermIndex inst).foldlM runTest families := by
  simp only [isApplicableInstance, instanceTests, isApplicableLiftedEffect_eq]
  split
  · rfl
  · rfl

/-- What the test of an action binding decides. -/
theorem isApplicableIfFiresLifted_iff (domains : EffectDomains) (effects : List ConditionalEffect) :
    context.isApplicableIfFiresLifted ftermIndex domains effects = true ↔
      AllDefined (context.firedTestsLifted ftermIndex domains effects) ∧
        VisiblyCompatible (numericTests (context.firedTestsLifted ftermIndex domains effects)) := by
  have runs : ∀ (families : List EffectFamily) (instances : List EffectInstance),
      instances.foldlM (context.isApplicableInstance ftermIndex) families =
        (instances.flatMap (context.instanceTests ftermIndex)).foldlM runTest families := by
    intro families instances
    induction instances generalizing families with
    | nil => rfl
    | cons inst rest ih =>
        rw [List.foldlM_cons, List.flatMap_cons, List.foldlM_append, isApplicableInstance_eq]
        exact bind_congr ih
  rw [isApplicableIfFiresLifted, runs, ← firedTestsLifted, runTests_isSome_iff]

end ApplicabilityContext

/-! ### Exactness -/

section

variable (context : ApplicabilityContext) (ftermIndex : FtermIndex) (domains : EffectDomains)
  (action : Action)

/-- The tests of the ground action of the binding. -/
def groundActionTests : List EffectTest :=
  firedTests context.state (action.instantiate context.repository domains context.binding).effects

/-- The tests of the action binding. -/
def actionBindingTests : List EffectTest :=
  context.firedTestsLifted ftermIndex domains action.effects

/-- Both tests accept the effects that fire, in any order, if and only if they are
defined and compatible, and they agree. -/
structure CompatibilityExact : Prop where
  ground : ∀ effects,
    (firedTests context.state effects).Perm (groundActionTests context domains action) →
      (isApplicableIfFires context.state effects = true ↔
        Acceptable (groundActionTests context domains action))
  lifted : ∀ domains' effects, (context.firedTestsLifted ftermIndex domains' effects).Perm
      (actionBindingTests context ftermIndex domains action) →
    (context.isApplicableIfFiresLifted ftermIndex domains' effects = true ↔
      Acceptable (actionBindingTests context ftermIndex domains action))
  agree : isApplicableIfFires context.state
      (action.instantiate context.repository domains context.binding).effects =
    context.isApplicableIfFiresLifted ftermIndex domains action.effects

/-- If everything is defined, no order of the effects of the ground action hides all
incompatible pairs, and the records of the lifted function terms show an
incompatible pair exactly if there is one. Grounding does not make the effects
acceptable or unacceptable. -/
structure RecordsSuffice : Prop where
  ground : ∀ effects,
    (firedTests context.state effects).Perm (groundActionTests context domains action) →
      AllDefined (groundActionTests context domains action) →
        (VisiblyCompatible (numericTests (firedTests context.state effects)) ↔
          Compatible (groundActionTests context domains action))
  lifted : ∀ domains' effects, (context.firedTestsLifted ftermIndex domains' effects).Perm
      (actionBindingTests context ftermIndex domains action) →
    AllDefined (actionBindingTests context ftermIndex domains action) →
      (VisiblyCompatible (numericTests (context.firedTestsLifted ftermIndex domains' effects)) ↔
        Compatible (actionBindingTests context ftermIndex domains action))
  agree : Acceptable (groundActionTests context domains action) ↔
    Acceptable (actionBindingTests context ftermIndex domains action)

variable {context ftermIndex domains action}

/-- A test that decides `visible` where everything is defined is exact iff `visible`
is compatibility there. -/
theorem test_exact_iff {tests tests' : List EffectTest} {test : Bool} (perm : tests'.Perm tests)
    (decides : test = true ↔ AllDefined tests' ∧ VisiblyCompatible (numericTests tests')) :
    (test = true ↔ Acceptable tests) ↔
      (AllDefined tests → (VisiblyCompatible (numericTests tests') ↔ Compatible tests)) := by
  have defined : AllDefined tests' ↔ AllDefined tests :=
    forall_congr' fun test => imp_congr_left perm.mem_iff
  rw [decides, Acceptable, defined]
  exact and_congr_right_iff

/-- The tests are exact if and only if the records suffice. -/
theorem compatibilityExact_iff (context : ApplicabilityContext) (ftermIndex : FtermIndex)
    (domains : EffectDomains) (action : Action) :
    CompatibilityExact context ftermIndex domains action ↔
      RecordsSuffice context ftermIndex domains action := by
  constructor
  · intro exact
    refine ⟨fun effects perm => ?_, fun domains' effects perm => ?_, ?_⟩
    · exact (test_exact_iff perm (isApplicableIfFires_iff effects)).mp (exact.ground effects perm)
    · exact (test_exact_iff perm (ApplicabilityContext.isApplicableIfFiresLifted_iff ..)).mp
        (exact.lifted domains' effects perm)
    · rw [← exact.ground _ (.refl _), ← exact.lifted domains action.effects (.refl _), exact.agree]
  · intro suffice
    have ground : ∀ effects,
        (firedTests context.state effects).Perm (groundActionTests context domains action) →
          (isApplicableIfFires context.state effects = true ↔
            Acceptable (groundActionTests context domains action)) := fun effects perm =>
      (test_exact_iff perm (isApplicableIfFires_iff effects)).mpr (suffice.ground effects perm)
    have lifted : ∀ domains' effects, (context.firedTestsLifted ftermIndex domains' effects).Perm
        (actionBindingTests context ftermIndex domains action) →
        (context.isApplicableIfFiresLifted ftermIndex domains' effects = true ↔
          Acceptable (actionBindingTests context ftermIndex domains action)) :=
      fun domains' effects perm =>
        (test_exact_iff perm (ApplicabilityContext.isApplicableIfFiresLifted_iff ..)).mpr
          (suffice.lifted domains' effects perm)
    refine ⟨ground, lifted, ?_⟩
    rw [Bool.eq_iff_iff, ground _ (.refl _), lifted domains action.effects (.refl _)]
    exact suffice.agree

end

/-! A reset of the function terms of two objects, one ground term each: the second
instance is compared with the record of the first. -/

def resetEffect : ConditionalEffect where
  arity := 1
  effect := { numericEffects := [⟨.assign, 0, [.parameter 0], .number (.finite 0)⟩] }

def resetAll : Action where
  arity := 0
  effects := [resetEffect]
  closed := ConjunctiveCondition.closed_empty

def twoObjects : EffectDomains := fun effect => List.replicate effect.arity [0, 1]

theorem resetAll_tests : actionBindingTests emptyContext .encode twoObjects resetAll =
    [⟨true, some ⟨FtermIndex.encode.index 0 [.parameter 0], 0, .assign⟩⟩,
      ⟨true, some ⟨FtermIndex.encode.index 0 [.parameter 0], 1, .assign⟩⟩] := rfl

theorem resetAll_not_exact : ¬ CompatibilityExact emptyContext .encode twoObjects resetAll := by
  intro exact
  have lifted := exact.lifted twoObjects resetAll.effects (.refl _)
  have acceptable : Acceptable (actionBindingTests emptyContext .encode twoObjects resetAll) := by
    rw [resetAll_tests]
    refine ⟨by simp [AllDefined], ?_⟩
    simp [Compatible, numericTests]
  have visible := ((ApplicabilityContext.isApplicableIfFiresLifted_iff ..).mp (lifted.mpr acceptable)).2
  rw [← actionBindingTests, resetAll_tests] at visible
  have pair := visible [⟨FtermIndex.encode.index 0 [.parameter 0], 0, .assign⟩]
    ⟨FtermIndex.encode.index 0 [.parameter 0], 1, .assign⟩ [] rfl
    ⟨FtermIndex.encode.index 0 [.parameter 0], 0, .assign⟩ ⟨[], [], rfl, rfl, by simp⟩
  simp [isCompatibleEffectFamily] at pair

end Tyr.Planning
