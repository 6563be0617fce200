import Tyr.Datalog.Termination

/-!
The witnesses of an evaluation.

While no pass reports a false positive and no cost wraps around, the annotations are
those of unbounded costs. If each rule costs something, the body of a witness costs less
than its fact, so that following the witnesses ends in initial facts.

* `WitnessInvariant.run` — what regular passes keep.
* `WitnessInvariant.body_lt`, `WitnessInvariant.initial_iff` — the witnesses of the facts.
-/

namespace Tyr.Datalog

open Tyr.Lib Tyr.Formalism Tyr.Formalism.Datalog

/-- In the passes from the state on, no rule reports a false positive, and no cost wraps
around. -/
structure Evaluation.RegularCosts (data : ProgramData) (numeric : NumericOverapproximation)
    (aggregation : Aggregation) {stratum : Stratum} (e : Evaluation stratum) : Prop where
  noFalsePositive : ∀ r ∈ e.state.active,
    (stratum.get r).NoFalsePositive numeric (data.factSets e.state.facts)
  current : ∀ r ∈ e.state.active,
    (e.state.buckets.current : Cost) + (stratum.get r).rule.cost < maxCost
  bodies : ∀ r ∈ e.state.active, ∀ binding, BodyHolds data (stratum.get r) e.state.facts binding →
    groundCost aggregation e.state.annotations.orAnnot (stratum.get r).rule binding < maxCost

/-- The invariant of an evaluation of rules that cost something. -/
structure WitnessInvariant (data : ProgramData) (numeric : NumericOverapproximation)
    (aggregation : Aggregation) {stratum : Stratum} (goals facts : List Tuple)
    (e : Evaluation stratum) : Prop where
  annotations : StratumState.AnnotationInvariant data aggregation
    (reportedEnumeration data numeric) facts (fun fact => if fact ∈ facts then 0 else ⊤) e.state
  seen : Machine.SeenExact data numeric e.state
  tracks : e.tp.Tracks goals e.state.facts
  initial : ∀ fact ∈ facts, e.state.annotations.andAnnot fact = none

/-- A step of an evaluation whose state is regular. -/
abbrev Evaluation.RegularStep (data : ProgramData) (numeric : NumericOverapproximation)
    (aggregation : Aggregation) {stratum : Stratum} (e e' : Evaluation stratum) : Prop :=
  e.RegularCosts data numeric aggregation ∧ e.Step data numeric aggregation e'

section

variable {data : ProgramData} {numeric : NumericOverapproximation} {aggregation : Aggregation}
  {stratum : Stratum} {goals facts : List Tuple} {e e' : Evaluation stratum}
  {schedule : Schedule stratum}

theorem witnessInvariant_start (ws : ProgramWorkspace) (distinct : ws.goalFacts.Nodup) :
    WitnessInvariant data numeric aggregation ws.goalFacts facts (ws.start stratum facts) where
  annotations := annotationInvariant_start ws aggregation _
  seen := seenExact_start ws
  tracks := tracks_start ws distinct
  initial := fun _ _ => rfl

theorem lt_groundCost {orAnnot : Tuple → Cost} {rule : Rule} {binding : List Nat} {fact : Tuple}
    (costs : 0 < rule.cost) (mem : fact ∈ witnessFacts rule binding)
    (finite : groundCost aggregation orAnnot rule binding ≠ ⊤) :
    orAnnot fact < groundCost aggregation orAnnot rule binding := by
  have bodyFinite : bodyCost aggregation orAnnot rule binding ≠ ⊤ :=
    ne_top_of_le_ne_top finite bodyCost_le_groundCost
  obtain ⟨body, same⟩ := WithTop.ne_top_iff_exists.mp bodyFinite
  have less : bodyCost aggregation orAnnot rule binding <
      groundCost aggregation orAnnot rule binding := by
    rw [groundCost, ← same]
    exact WithTop.coe_lt_coe.mpr (Nat.lt_add_of_pos_right costs)
  exact (le_bodyCost mem).trans_lt less

section

variable (positive : PositiveStratum data stratum facts)
  (inv : WitnessInvariant data numeric aggregation goals facts e)

include positive inv

theorem WitnessInvariant.nowExact (regular : e.RegularCosts data numeric aggregation) :
    Machine.NowExact data numeric e.state :=
  positive.nowExact inv.annotations.facts.model regular.noFalsePositive

/-- What a regular pass announces holds, so that no cost wraps around. -/
theorem WitnessInvariant.inRange (regular : e.RegularCosts data numeric aggregation)
    (valid : Machine.ValidSchedule data numeric aggregation e.state schedule) :
    Machine.InRange data aggregation e.state schedule where
  current := regular.current
  announced := by
    intro r active a announced
    have holds := valid.announced_holds inv.seen (inv.nowExact positive regular)
      inv.annotations.facts active announced
    exact regular.bodies r active a.binding holds

/-- A regular pass keeps the invariant. -/
theorem WitnessInvariant.step (costs : ∀ cws ∈ stratum, 0 < cws.rule.cost)
    (step : e.RegularStep data numeric aggregation e') :
    WitnessInvariant data numeric aggregation goals facts e' := by
  obtain ⟨regular, step⟩ := step
  have tracks := step.tracks inv.tracks
  obtain ⟨_, schedule, valid, advances, rfl⟩ := step
  have inRange := inv.inRange positive regular valid
  have merges : ∀ merge ∈ schedule.merges, merge.1 ∈ e.state.active :=
    fun merge mem => ((valid.merges merge).mp mem).1
  have unbounded := valid.unbounded inv.seen (inv.nowExact positive regular) inRange
  have sameNext : Machine.next data aggregation e.state schedule =
      e.state.next data (.annotate aggregation) schedule := inRange.next merges
  refine ⟨?_, inv.seen.next (inv.nowExact positive regular), tracks, fun fact isInitial => ?_⟩
  · rw [sameNext]
    apply inv.annotations.iterates positive.negationFree (fun fact mem => if_pos mem)
    rw [inRange.merged merges] at advances
    exact ⟨schedule, unbounded, advances, rfl⟩
  · -- An initial fact costs nothing, and every witness costs something.
    have merged := inv.annotations.costs.mergedCosts inv.annotations.facts unbounded
    change (Machine.merged data aggregation e.state schedule).2.andAnnot fact = none
    rw [inRange.merged merges]
    rcases merged.explained fact with ⟨_, sameAnd⟩ | ⟨r, witness, _, _, _, _, price, annotated⟩
    · exact sameAnd.trans (inv.initial fact isInitial)
    · have free : (e.state.merged data (.annotate aggregation) schedule).2.orAnnot fact = 0 := by
        rw [merged.settled fact (inv.annotations.facts.contains fact isInitial),
          inv.annotations.costs.unchanged fact isInitial, if_pos isInitial]
      have ruleCost : (0 : Cost) < ((stratum.get r).rule.cost : Cost) :=
        WithTop.coe_lt_coe.mpr (costs _ (List.get_mem stratum r))
      have nothing : groundCost aggregation e.state.annotations.orAnnot (stratum.get r).rule
          witness.binding = 0 := by rw [← price, ← annotated, free]
      exact absurd nothing (ruleCost.trans_le le_add_self).ne'

theorem WitnessInvariant.run (costs : ∀ cws ∈ stratum, 0 < cws.rule.cost)
    (run : Relation.ReflTransGen (Evaluation.RegularStep data numeric aggregation) e e') :
    WitnessInvariant data numeric aggregation goals facts e' := by
  induction run with
  | refl => exact inv
  | tail _ step ih => exact ih.step positive costs step

end

/-! ### The witnesses -/

section

variable (inv : WitnessInvariant data numeric aggregation goals facts e)

include inv

/-- A fact without a witness is an initial one. -/
theorem WitnessInvariant.initial_iff {fact : Tuple} (isFact : fact ∈ e.state.facts) :
    e.state.annotations.andAnnot fact = none ↔ fact ∈ facts := by
  constructor
  · intro noWitness
    by_contra notInitial
    obtain ⟨_, _, _, found, _⟩ := inv.annotations.explanations.witness fact
      (inv.annotations.costs.finite fact isFact) notInitial
    rw [noWitness] at found
    cases found
  · exact inv.initial fact

/-- The witness of a fact is a ground rule that holds and whose body costs less. -/
theorem WitnessInvariant.body_lt (costs : ∀ cws ∈ stratum, 0 < cws.rule.cost) {fact : Tuple}
    (isFact : fact ∈ e.state.facts) {witness : Witness}
    (found : e.state.annotations.andAnnot fact = some witness) :
    ∃ cws ∈ stratum, witness.rule = cws.rule ∧
      BodyHolds data cws e.state.facts witness.binding ∧
      groundHead cws.rule witness.binding = fact ∧
      ∀ body ∈ witnessFacts cws.rule witness.binding,
        e.state.annotations.orAnnot body < e.state.annotations.orAnnot fact := by
  have notInitial : fact ∉ facts := by
    intro isInitial
    rw [inv.initial fact isInitial] at found
    cases found
  have finite := inv.annotations.costs.finite fact isFact
  obtain ⟨cws, mem, other, foundOther, sameRule, holds, sameHead, price⟩ :=
    inv.annotations.explanations.witness fact finite notInitial
  obtain rfl : witness = other := Option.some.inj (found.symm.trans foundOther)
  refine ⟨cws, mem, sameRule, holds, sameHead, fun body memBody => ?_⟩
  rw [price] at finite ⊢
  exact lt_groundCost (costs cws mem) memBody finite

end

end

end Tyr.Datalog
