import Tyr.Datalog.Termination

/-!
Evaluations whose sums stay in the range of a word.

* `Annotations.CoverBodies` — no fact is annotated below a body fact of its witness.
* `Machine.InRange.coverBodies` — what an iteration keeps.
* `AtHead.costs_cover` — what an evaluation keeps, and the total cost of the goals.
-/

namespace Tyr.Datalog

open Tyr.Lib Tyr.Formalism Tyr.Formalism.Datalog

/-- No fact is annotated below a body fact of its witness. -/
def Annotations.CoverBodies (annotations : Annotations) : Prop :=
  ∀ fact witness, annotations.andAnnot fact = some witness →
    ∀ body ∈ witnessFacts witness.rule witness.binding,
      annotations.orAnnot body ≤ annotations.orAnnot fact

/-- Greatest costs do not wrap around, sums do not when they are below the greatest word. -/
def TotalInRange (aggregation : Aggregation) (goals : List Tuple) (orAnnot : Tuple → Cost) : Prop :=
  aggregation = .max ∨ aggregation.applyAll (goals.map orAnnot) 0 < maxCost

/-- No goal is annotated above the total cost. -/
def TerminationPolicy.CoversGoals (tp : TerminationPolicy) (aggregation : Aggregation)
    (goals : List Tuple) (orAnnot : Tuple → Cost) : Prop :=
  ∀ goal ∈ goals, orAnnot goal ≤ tp.totalCost aggregation orAnnot

section

variable {data : ProgramData} {numeric : NumericOverapproximation} {aggregation : Aggregation}
  {stratum : Stratum} {st : StratumState stratum} {schedule : Schedule stratum}

/-! ### One iteration -/

/-- A merge keeps the facts above their bodies, and annotations only go down. -/
theorem Annotations.CoverBodies.mergeHead {merged : CostBuckets Tuple × Annotations}
    (covers : merged.2.CoverBodies)
    (improves : ∀ fact, merged.2.orAnnot fact ≤ st.annotations.orAnnot fact)
    (merge : Fin stratum.length × Nat × Tuple) :
    (st.mergeHead data (.annotate aggregation) schedule merged merge).2.CoverBodies ∧
      ∀ fact, (st.mergeHead data (.annotate aggregation) schedule merged merge).2.orAnnot fact ≤
        st.annotations.orAnnot fact := by
  obtain ⟨r, worker, head⟩ := merge
  rcases updateOrAnnot_cases merged.2 head
      (st.workerWitnesses data (.annotate aggregation) schedule r worker head) with
    ⟨same, _⟩ | ⟨witness, found, better, updated⟩
  · have unchanged :
        (st.mergeHead data (.annotate aggregation) schedule merged (r, worker, head)).2 = merged.2 := by
      simp only [StratumState.mergeHead, same]
    rw [unchanged]
    exact ⟨covers, improves⟩
  · have result : (st.mergeHead data (.annotate aggregation) schedule merged (r, worker, head)).2 =
        { orAnnot := Function.update merged.2.orAnnot head witness.cost
          andAnnot := Function.update merged.2.andAnnot head (some witness) } := by
      simp only [StratumState.mergeHead, updated]
    have lower : ∀ fact, Function.update merged.2.orAnnot head witness.cost fact ≤
        merged.2.orAnnot fact := by
      intro fact
      by_cases isHead : fact = head
      · subst isHead
        rw [Function.update_self]
        exact better.le
      · rw [Function.update_of_ne isHead]
    rw [result]
    refine ⟨fun fact other foundOther body mem => ?_, fun fact => (lower fact).trans (improves fact)⟩
    dsimp only at foundOther ⊢
    by_cases isHead : fact = head
    · subst isHead
      rw [Function.update_self] at foundOther
      cases foundOther
      obtain ⟨sameRule, _, _, price, _⟩ :=
        StratumState.witnessOf_workerWitnesses r worker fact witness found
      have cover : st.annotations.orAnnot body ≤ witness.cost := by
        rw [price, ← sameRule]
        exact (le_bodyCost mem).trans bodyCost_le_groundCost
      rw [Function.update_self]
      exact ((lower body).trans (improves body)).trans cover
    · rw [Function.update_of_ne isHead] at foundOther
      rw [Function.update_of_ne isHead]
      exact (lower body).trans (covers fact other foundOther body mem)

/-- An iteration whose sums are in range keeps the facts above their bodies. -/
theorem Machine.InRange.coverBodies (inRange : InRange data aggregation st schedule)
    (valid : ValidSchedule data numeric aggregation st schedule)
    (covers : st.annotations.CoverBodies) :
    (Machine.merged data aggregation st schedule).2.CoverBodies := by
  have both : (st.merged data (.annotate aggregation) schedule).2.CoverBodies ∧
      ∀ fact, (st.merged data (.annotate aggregation) schedule).2.orAnnot fact ≤
        st.annotations.orAnnot fact := by
    unfold StratumState.merged
    apply foldl_invariant (P := fun merged : CostBuckets Tuple × Annotations =>
      merged.2.CoverBodies ∧ ∀ fact, merged.2.orAnnot fact ≤ st.annotations.orAnnot fact)
    · exact fun _ holds merge _ => holds.1.mergeHead holds.2 merge
    · exact ⟨covers, fun _ => le_rfl⟩
  rw [inRange.merged fun merge mem => ((valid.merges merge).mp mem).1]
  exact both.1

/-! ### The total cost -/

/-- Sums that stay in range do not wrap around. -/
theorem Aggregation.foldl_wrapApply_eq (aggregation : Aggregation) {costs : List Cost} {acc : Cost}
    (inRange : aggregation = .max ∨ aggregation.applyAll costs acc < maxCost) :
    costs.foldl aggregation.wrapApply acc = aggregation.applyAll costs acc := by
  induction costs generalizing acc with
  | nil => rfl
  | cons cost costs ih =>
      have first : aggregation.wrapApply acc cost = aggregation.apply acc cost := by
        rcases inRange with isMax | small
        · subst isMax
          rfl
        · exact aggregation.wrapApply_eq ((aggregation.le_applyAll costs _).trans_lt small)
      rw [List.foldl_cons, first, ih (inRange.imp_right id)]
      rfl

theorem TerminationPolicy.coversGoals_of_inRange {tp : TerminationPolicy} {goals facts : List Tuple}
    {orAnnot : Tuple → Cost} (tracks : tp.Tracks goals facts)
    (inRange : TotalInRange aggregation goals orAnnot) :
    tp.CoversGoals aggregation goals orAnnot := by
  intro goal mem
  have total : tp.totalCost aggregation orAnnot = aggregation.applyAll (goals.map orAnnot) 0 := by
    rw [← aggregation.foldl_wrapApply_eq inRange, totalCost, tracks.bindings, List.foldl_map]
  rw [total]
  exact aggregation.mem_le_applyAll (List.mem_map_of_mem mem) 0

/-! ### Evaluations -/

variable {ws : ProgramWorkspace} {facts derived : List Tuple} {earlier : List Stratum}
  {e : Evaluation stratum}

theorem AtHead.coverBodies (atHead : AtHead data numeric aggregation
      (fun st schedule => Machine.InRange data aggregation st schedule) ws facts earlier stratum e
      derived) : e.state.annotations.CoverBodies := by
  induction atHead with
  | first stratum =>
      intro fact witness found
      cases found
  | pass _ _ valid inRange _ ih => exact inRange.coverBodies valid ih
  | achieved _ _ _ ih => exact ih
  | exhausted _ _ _ valid inRange _ ih => exact inRange.coverBodies valid ih

/-- In an evaluation whose sums stay in range, the costs are those of unbounded
arithmetic, no fact is annotated below a body fact of its witness, and no goal above the
total cost. -/
theorem AtHead.costs_cover (atHead : AtHead data numeric aggregation
      (fun st schedule => Machine.InRange data aggregation st schedule) ws facts earlier stratum e
      derived)
    (distinct : ws.goalFacts.Nodup) :
    (e.state.annotations.CoverBodies ∧
      (TotalInRange aggregation ws.goalFacts e.state.annotations.orAnnot →
        e.tp.CoversGoals aggregation ws.goalFacts e.state.annotations.orAnnot)) ∧
    ∀ schedule, e.tp.check = false → Machine.ValidSchedule data numeric aggregation e.state schedule →
      Machine.InRange data aggregation e.state schedule →
        Machine.merged data aggregation e.state schedule =
            e.state.merged data (.annotate aggregation) schedule ∧
          (Machine.merged data aggregation e.state schedule).2.CoverBodies ∧
          (TotalInRange aggregation ws.goalFacts
              (Machine.merged data aggregation e.state schedule).2.orAnnot →
            e.tp.CoversGoals aggregation ws.goalFacts
              (Machine.merged data aggregation e.state schedule).2.orAnnot) := by
  have tracks := atHead.tracks distinct
  refine ⟨⟨atHead.coverBodies, TerminationPolicy.coversGoals_of_inRange tracks⟩, ?_⟩
  intro schedule _ valid inRange
  refine ⟨inRange.merged fun merge mem => ((valid.merges merge).mp mem).1,
    inRange.coverBodies valid atHead.coverBodies, ?_⟩
  exact TerminationPolicy.coversGoals_of_inRange tracks

end

end Tyr.Datalog
