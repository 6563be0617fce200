import Tyr.Datalog.MachineCosts

/-!
Bottom-up evaluation up to the goals.

The termination policy counts the goals that are no facts yet, and the loop returns as
soon as there are none. An evaluation starts from the workspace that the previous one
left behind.

* `TerminationPolicy` — the goals.
* `TerminationPolicy.checksExact_iff` — which sequences of calls are counted right.
* `Evaluation.Step`, `Evaluation.Stops` — the loop with the check at its head.
* `EvaluationInvariant.orAnnot_le` — on the way no annotation of a fact is above the
  cost of a derivation.
-/

namespace Tyr.Datalog

open Tyr.Lib Tyr.Formalism Tyr.Formalism.Datalog

/-! ### The termination policy -/

structure TerminationPolicy where
  unsatGoals : Finset Tuple
  numUnsatGoals : Nat
  bindings : List Tuple

namespace TerminationPolicy

def clear (_ : TerminationPolicy) : TerminationPolicy := ⟨∅, 0, []⟩

/-- The loop body of `set_goals`. -/
def addGoal (tp : TerminationPolicy) (goal : Tuple) : TerminationPolicy where
  unsatGoals := insert goal tp.unsatGoals
  numUnsatGoals := tp.numUnsatGoals + 1
  bindings := tp.bindings ++ [goal]

def setGoals (tp : TerminationPolicy) (goals : List Tuple) : TerminationPolicy :=
  goals.foldl addGoal tp.clear

/-- `--` on a `size_t`. -/
def decrement (n : Nat) : Nat := if n = 0 then 2 ^ 64 - 1 else n - 1

def achieve (tp : TerminationPolicy) (fact : Tuple) : TerminationPolicy :=
  if fact ∈ tp.unsatGoals then
    { tp with unsatGoals := tp.unsatGoals.erase fact, numUnsatGoals := decrement tp.numUnsatGoals }
  else tp

/-- The goals get their bits back, and the counter is zero. -/
def reset (tp : TerminationPolicy) : TerminationPolicy :=
  { tp with unsatGoals := tp.bindings.toFinset, numUnsatGoals := 0 }

def check (tp : TerminationPolicy) : Bool := tp.numUnsatGoals == 0

def totalCost (tp : TerminationPolicy) (aggregation : Aggregation) (orAnnot : Tuple → Cost) : Cost :=
  tp.bindings.foldl (fun cost binding => aggregation.wrapApply cost (orAnnot binding)) 0

/-- The policy tracks which goals are facts. -/
structure Tracks (goals facts : List Tuple) (tp : TerminationPolicy) : Prop where
  unsat : ∀ goal, goal ∈ tp.unsatGoals ↔ goal ∈ goals ∧ goal ∉ facts
  card : tp.numUnsatGoals = tp.unsatGoals.card
  bindings : tp.bindings = goals

variable {goals facts : List Tuple} {tp : TerminationPolicy}

theorem tracks_setGoals (distinct : goals.Nodup) : Tracks goals [] (tp.setGoals goals) := by
  suffices all : ∀ (done rest : List Tuple) (tp : TerminationPolicy), (done ++ rest).Nodup →
      Tracks done [] tp → Tracks (done ++ rest) [] (rest.foldl addGoal tp) by
    exact all [] goals tp.clear distinct ⟨by simp [clear], rfl, rfl⟩
  intro done rest
  induction rest generalizing done with
  | nil =>
      intro tp _ tracks
      rwa [List.append_nil]
  | cons goal rest ih =>
      intro tp distinct tracks
      rw [List.append_cons] at distinct ⊢
      apply ih _ _ distinct
      have isNew : goal ∉ done := by
        intro mem
        have nodup := (List.nodup_append.mp distinct).1
        rw [List.nodup_append] at nodup
        exact nodup.2.2 goal mem goal List.mem_cons_self rfl
      have notUnsat : goal ∉ tp.unsatGoals := fun mem => isNew ((tracks.unsat goal).mp mem).1
      constructor
      · intro other
        simp only [addGoal, Finset.mem_insert, tracks.unsat, List.mem_append, List.mem_singleton,
          List.not_mem_nil, not_false_eq_true, and_true]
        exact or_comm
      · rw [addGoal, Finset.card_insert_of_notMem notUnsat, tracks.card]
      · rw [addGoal, tracks.bindings]

/-- An achieved fact is no open goal any more. -/
theorem mem_unsatGoals_achieve (unsat : ∀ goal, goal ∈ tp.unsatGoals ↔ goal ∈ goals ∧ goal ∉ facts)
    (fact goal : Tuple) :
    goal ∈ (tp.achieve fact).unsatGoals ↔ goal ∈ goals ∧ goal ∉ facts ++ [fact] := by
  unfold TerminationPolicy.achieve
  rw [List.mem_append, List.mem_singleton]
  split
  · rw [Finset.mem_erase, unsat]
    tauto
  · next satisfied =>
      have noGoal := (unsat fact).not.mp satisfied
      rw [unsat]
      constructor
      · rintro ⟨isGoal, notFact⟩
        refine ⟨isGoal, ?_⟩
        rintro (old | rfl)
        · exact notFact old
        · exact noGoal ⟨isGoal, notFact⟩
      · rintro ⟨isGoal, notFact⟩
        exact ⟨isGoal, fun old => notFact (.inl old)⟩

theorem Tracks.achieve (tracks : Tracks goals facts tp) (fact : Tuple) :
    Tracks goals (facts ++ [fact]) (tp.achieve fact) := by
  refine ⟨mem_unsatGoals_achieve tracks.unsat fact, ?_, ?_⟩ <;> unfold TerminationPolicy.achieve
  · split
    · next unsat =>
        have some : tp.unsatGoals.card ≠ 0 := Finset.card_ne_zero_of_mem unsat
        dsimp only
        rw [tracks.card, Finset.card_erase_of_mem unsat, decrement, if_neg some]
    · exact tracks.card
  · split <;> exact tracks.bindings

theorem Tracks.achieveAll (tracks : Tracks goals facts tp) (new : List Tuple) :
    Tracks goals (facts ++ new) (new.foldl TerminationPolicy.achieve tp) := by
  induction new generalizing facts tp with
  | nil => rwa [List.append_nil]
  | cons fact new ih =>
      rw [List.append_cons]
      exact ih (tracks.achieve fact)

/-- Only which facts there are matters. -/
theorem Tracks.congr {facts' : List Tuple} (tracks : Tracks goals facts tp)
    (same : ∀ fact, fact ∈ facts ↔ fact ∈ facts') : Tracks goals facts' tp where
  unsat := fun goal => (tracks.unsat goal).trans (and_congr_right' (not_congr (same goal)))
  card := tracks.card
  bindings := tracks.bindings

theorem Tracks.check_iff (tracks : Tracks goals facts tp) :
    tp.check = true ↔ ∀ goal ∈ goals, goal ∈ facts := by
  rw [check, beq_iff_eq, tracks.card, Finset.card_eq_zero, Finset.eq_empty_iff_forall_notMem]
  apply forall_congr'
  intro goal
  rw [tracks.unsat]
  tauto

/-- The total of the greatest costs is at most a bound of the costs. -/
theorem Tracks.totalCost_le (tracks : Tracks goals facts tp) {orAnnot : Tuple → Cost} {bound : Cost}
    (le : ∀ goal ∈ goals, orAnnot goal ≤ bound) : tp.totalCost .max orAnnot ≤ bound := by
  rw [totalCost, tracks.bindings]
  apply foldl_invariant (P := (· ≤ bound))
  · intro cost below goal mem
    exact max_le below (le goal mem)
  · exact zero_le

/-! ### Sequences of calls -/

/-- Different goal facts, as many as a `size_t` can count. -/
structure GoalFactSet where
  facts : List Tuple
  distinct : facts.Nodup
  few : facts.length < 2 ^ 64

/-- A call after `set_goals`. -/
inductive Call where
  | achieve (fact : Tuple)
  | reset
  | check
deriving DecidableEq

def perform (tp : TerminationPolicy) : Call → TerminationPolicy
  | .achieve fact => tp.achieve fact
  | .reset => tp.reset
  | .check => tp

/-- The facts that were achieved since the latest reset. -/
def achievedSince (achieved : List Tuple) : Call → List Tuple
  | .achieve fact => achieved ++ [fact]
  | .reset => []
  | .check => achieved

/-- The policy after `set_goals` and the calls. -/
def after (tp : TerminationPolicy) (goals : GoalFactSet) (calls : List Call) : TerminationPolicy :=
  calls.foldl perform (tp.setGoals goals.facts)

def achieved (calls : List Call) : List Tuple := calls.foldl achievedSince []

/-- Each check tells whether all goals were achieved since the goals were set or reset. -/
def ChecksExact (tp : TerminationPolicy) (goals : GoalFactSet) (calls : List Call) : Prop :=
  ∀ before, before ++ [.check] <+: calls →
    ((tp.after goals before).check = true ↔ ∀ goal ∈ goals.facts, goal ∈ achieved before)

/-- After a reset each check comes when some of the goals were achieved since, but not all
of them, or there are no goals. -/
def ChecksBetween (goals : GoalFactSet) (calls : List Call) : Prop :=
  ∀ before, before ++ [.check] <+: calls → .reset ∈ before → goals.facts ≠ [] →
    (∃ goal ∈ goals.facts, goal ∈ achieved before) ∧ ∃ goal ∈ goals.facts, goal ∉ achieved before

/-- After a reset the policy counts the achieved goals down from zero. -/
structure CountsDown (goals facts : List Tuple) (tp : TerminationPolicy) : Prop where
  unsat : ∀ goal, goal ∈ tp.unsatGoals ↔ goal ∈ goals ∧ goal ∉ facts
  count : tp.numUnsatGoals = (2 ^ 64 - (goals.length - tp.unsatGoals.card)) % 2 ^ 64
  bindings : tp.bindings = goals

theorem countsDown_reset (distinct : goals.Nodup) (bindings : tp.bindings = goals) :
    CountsDown goals [] tp.reset where
  unsat := by
    intro goal
    rw [reset, bindings, List.mem_toFinset]
    simp
  count := by
    rw [reset, bindings, List.toFinset_card_of_nodup distinct]
    simp
  bindings := bindings

theorem CountsDown.card_le (counts : CountsDown goals facts tp) :
    tp.unsatGoals.card ≤ goals.length := by
  have sub : tp.unsatGoals ⊆ goals.toFinset := by
    intro goal mem
    exact List.mem_toFinset.mpr ((counts.unsat goal).mp mem).1
  exact (Finset.card_le_card sub).trans goals.toFinset_card_le

theorem CountsDown.achieve (counts : CountsDown goals facts tp) (few : goals.length < 2 ^ 64)
    (fact : Tuple) : CountsDown goals (facts ++ [fact]) (tp.achieve fact) := by
  refine ⟨mem_unsatGoals_achieve counts.unsat fact, ?_, ?_⟩ <;> unfold TerminationPolicy.achieve
  · split
    · next unsat =>
        have some : tp.unsatGoals.card ≠ 0 := Finset.card_ne_zero_of_mem unsat
        have atMost := counts.card_le
        dsimp only
        rw [counts.count, Finset.card_erase_of_mem unsat, decrement]
        split <;> omega
    · exact counts.count
  · split <;> exact counts.bindings

/-- The counter is zero iff no goal was achieved since the reset. -/
theorem CountsDown.check_iff (counts : CountsDown goals facts tp) (distinct : goals.Nodup)
    (few : goals.length < 2 ^ 64) : tp.check = true ↔ ∀ goal ∈ goals, goal ∉ facts := by
  have atMost := counts.card_le
  have zero : tp.numUnsatGoals = 0 ↔ goals.length ≤ tp.unsatGoals.card := by
    rw [counts.count]
    omega
  rw [check, beq_iff_eq, zero, ← List.toFinset_card_of_nodup distinct]
  have sub : tp.unsatGoals ⊆ goals.toFinset := by
    intro goal mem
    exact List.mem_toFinset.mpr ((counts.unsat goal).mp mem).1
  constructor
  · intro all goal isGoal
    have same := Finset.eq_of_subset_of_card_le sub all
    have isOpen : goal ∈ tp.unsatGoals := same ▸ List.mem_toFinset.mpr isGoal
    exact ((counts.unsat goal).mp isOpen).2
  · intro none
    apply Finset.card_le_card
    intro goal mem
    have isGoal := List.mem_toFinset.mp mem
    exact (counts.unsat goal).mpr ⟨isGoal, none goal isGoal⟩

/-- What a policy knows after some calls depends on whether it was reset. -/
theorem tracks_or_countsDown (tp : TerminationPolicy) (goals : GoalFactSet) (calls : List Call) :
    (.reset ∉ calls → Tracks goals.facts (achieved calls) (tp.after goals calls)) ∧
      (.reset ∈ calls → CountsDown goals.facts (achieved calls) (tp.after goals calls)) := by
  induction calls using List.reverseRecOn with
  | nil => exact ⟨fun _ => tracks_setGoals goals.distinct, nofun⟩
  | append_singleton calls call ih =>
      have performed : tp.after goals (calls ++ [call]) = (tp.after goals calls).perform call := by
        rw [after, List.foldl_append]
        rfl
      have since : achieved (calls ++ [call]) = achievedSince (achieved calls) call := by
        rw [achieved, List.foldl_append]
        rfl
      rw [performed, since]
      cases call with
      | achieve fact =>
          constructor
          · intro noReset
            exact (ih.1 fun mem => noReset (List.mem_append_left _ mem)).achieve fact
          · intro wasReset
            exact (ih.2 (by simpa using wasReset)).achieve goals.few fact
      | reset =>
          refine ⟨fun noReset => absurd (by simp) noReset, fun _ => ?_⟩
          apply countsDown_reset goals.distinct
          by_cases wasReset : Call.reset ∈ calls
          · exact (ih.2 wasReset).bindings
          · exact (ih.1 wasReset).bindings
      | check =>
          constructor
          · intro noReset
            exact ih.1 fun mem => noReset (List.mem_append_left _ mem)
          · intro wasReset
            exact ih.2 (by simpa using wasReset)

/-- The checks are exact iff each check after a reset comes between the first and the last
goal. -/
theorem checksExact_iff_checksBetween (tp : TerminationPolicy) (goals : GoalFactSet)
    (calls : List Call) : ChecksExact tp goals calls ↔ ChecksBetween goals calls := by
  apply forall₂_congr
  intro before _
  obtain ⟨tracks, counts⟩ := tracks_or_countsDown tp goals before
  by_cases wasReset : Call.reset ∈ before
  · rw [(counts wasReset).check_iff goals.distinct goals.few]
    by_cases empty : goals.facts = []
    · simp [empty]
    · obtain ⟨first, isGoal⟩ := List.exists_mem_of_ne_nil _ empty
      constructor
      · intro agree _ _
        constructor
        · by_contra none
          push Not at none
          exact none first isGoal (agree.mp none first isGoal)
        · by_contra all
          push Not at all
          exact agree.mpr all first isGoal (all first isGoal)
      · intro between
        obtain ⟨⟨goal, memGoal, done⟩, ⟨other, memOther, notDone⟩⟩ := between wasReset empty
        exact iff_of_false (fun none => none goal memGoal done) fun all => notDone (all other memOther)
  · exact iff_of_true (tracks wasReset).check_iff fun isReset => absurd isReset wasReset

end TerminationPolicy

/-! ### Evaluations -/

/-- What an evaluation leaves behind. -/
structure ProgramWorkspace where
  solve : SolveState
  goalFacts : List Tuple
  tp : TerminationPolicy

/-- `clear` after the facts were reset and the given ones inserted. -/
def ProgramWorkspace.clear (ws : ProgramWorkspace) (facts : List Tuple) : ProgramWorkspace where
  solve :=
    { facts := facts
      annotations :=
        { orAnnot := fun fact => if fact ∈ facts then 0 else ⊤
          andAnnot := fun _ => none }
      buckets := ws.solve.buckets.clear }
  goalFacts := ws.goalFacts
  tp := facts.foldl TerminationPolicy.achieve (ws.tp.clear.setGoals ws.goalFacts)

/-- The state at the head of the loop. -/
structure Evaluation (stratum : Stratum) where
  state : StratumState stratum
  tp : TerminationPolicy

/-- The evaluation of a program with one stratum on the facts begins. -/
def ProgramWorkspace.start (ws : ProgramWorkspace) (stratum : Stratum) (facts : List Tuple) :
    Evaluation stratum where
  state := (ws.clear facts).solve.enter stratum
  tp := (ws.clear facts).tp

namespace Evaluation

section

variable (data : ProgramData) (numeric : NumericOverapproximation) (aggregation : Aggregation)
  {stratum : Stratum}

/-- The policy after the heads that are no facts yet were inserted. -/
def achieveHeads (e : Evaluation stratum) (heads : List Tuple) : TerminationPolicy :=
  (heads.filter fun head => head ∉ e.state.facts).foldl TerminationPolicy.achieve e.tp

/-- One pass through the loop that continues. -/
def Step (e e' : Evaluation stratum) : Prop :=
  e.tp.check = false ∧ ∃ schedule, Machine.ValidSchedule data numeric aggregation e.state schedule ∧
    (Machine.merged data aggregation e.state schedule).1.advanceToNextNonempty.1 = true ∧
    e' = ⟨Machine.next data aggregation e.state schedule, e.achieveHeads schedule.inserted⟩

/-- The loop returns: the goals are facts, or there are no more heads. -/
inductive Stops (e : Evaluation stratum) : Annotations → Prop where
  | achieved : e.tp.check = true → Stops e e.state.annotations
  | exhausted (schedule : Schedule stratum) : e.tp.check = false →
      Machine.ValidSchedule data numeric aggregation e.state schedule →
      (Machine.merged data aggregation e.state schedule).1.advanceToNextNonempty.1 = false →
      Stops e (Machine.merged data aggregation e.state schedule).2

/-- The evaluation gets from one state to the other, and the condition holds in all states. -/
def Reaches (condition : Evaluation stratum → Prop) (e e' : Evaluation stratum) : Prop :=
  Relation.ReflTransGen (fun e e' => condition e ∧ Step data numeric aggregation e e') e e' ∧
    condition e'

end

/-- In the passes from the state on, no rule reports a false positive, and no sum wraps
around. -/
structure Regular (data : ProgramData) (numeric : NumericOverapproximation) {stratum : Stratum}
    (e : Evaluation stratum) : Prop where
  noFalsePositive : ∀ r ∈ e.state.active,
    (stratum.get r).NoFalsePositive numeric (data.factSets e.state.facts)
  inRange : ∀ r ∈ e.state.active,
    (e.state.buckets.current : Cost) + (stratum.get r).rule.cost < maxCost

end Evaluation

/-- A stratum of rules without constraints and negative fluent literals, for facts of the
right arities. -/
structure PositiveStratum (data : ProgramData) (stratum : Stratum) (facts : List Tuple) : Prop where
  noConstraints : ∀ cws ∈ stratum, cws.rule.body.numericConstraints = []
  positive : ∀ cws ∈ stratum, ∀ literal ∈ cws.rule.body.fluentLiterals, literal.polarity = true
  typed : ∀ cws ∈ stratum, ∀ fluent : List Tuple,
    (∀ fact ∈ fluent, StratumModel data stratum (· ∈ facts) fact) →
      cws.TypedFacts (data.factSets fluent)

/-- The invariant of an evaluation of greatest costs. -/
structure EvaluationInvariant (data : ProgramData) (numeric : NumericOverapproximation)
    {stratum : Stratum} (goals facts : List Tuple) (e : Evaluation stratum) : Prop where
  annotations : StratumState.AnnotationInvariant data .max (reportedEnumeration data numeric) facts
    (fun fact => if fact ∈ facts then 0 else ⊤) e.state
  seen : Machine.SeenExact data numeric e.state
  tracks : e.tp.Tracks goals e.state.facts

section

variable {data : ProgramData} {numeric : NumericOverapproximation} {stratum : Stratum}
  {goals facts : List Tuple} {e e' : Evaluation stratum} {schedule : Schedule stratum}

/-- The goals that an iteration achieves are the ones it inserts. -/
theorem Evaluation.Step.tracks {aggregation : Aggregation}
    (step : e.Step data numeric aggregation e') (tracks : e.tp.Tracks goals e.state.facts) :
    e'.tp.Tracks goals e'.state.facts := by
  obtain ⟨_, schedule, _, _, rfl⟩ := step
  apply (tracks.achieveAll _).congr
  intro fact
  change _ ↔ fact ∈ StratumState.insertHeads e.state.facts schedule.inserted
  rw [StratumState.mem_insertHeads, List.mem_append, List.mem_filter, decide_eq_true_iff]
  tauto

theorem PositiveStratum.negationFree (positive : PositiveStratum data stratum facts) :
    stratum.NegationFree := by
  intro cws mem _ _ literal memLiteral negative
  rw [positive.positive cws mem literal memLiteral] at negative
  cases negative

/-- The tests on facts of the model report what they should. -/
theorem PositiveStratum.nowExact (positive : PositiveStratum data stratum facts)
    {st : StratumState stratum}
    (model : ∀ fact ∈ st.facts, StratumModel data stratum (· ∈ facts) fact)
    (exact : ∀ r ∈ st.active,
      (stratum.get r).NoFalsePositive numeric (data.factSets st.facts)) :
    Machine.NowExact data numeric st := by
  intro r active parameters binding
  have mem := List.get_mem stratum r
  exact candidate_iff_cliqueTests parameters (positive.noConstraints _ mem)
    (positive.typed _ mem _ model) (exact r active)

theorem entryCosts_clear (ws : ProgramWorkspace) (stratum : Stratum) (facts : List Tuple) :
    StratumState.EntryCosts stratum (ws.clear facts).solve where
  finite := by
    intro fact mem
    have free : (ws.clear facts).solve.annotations.orAnnot fact = 0 := if_pos mem
    rw [free]
    exact WithTop.zero_ne_top
  others := fun _ notMem => if_neg notMem
  heads := fun _ mem _ _ _ => if_pos mem

theorem annotationInvariant_start (ws : ProgramWorkspace) (aggregation : Aggregation)
    (enumeration : CliqueEnumeration data) :
    StratumState.AnnotationInvariant data aggregation enumeration facts
      (fun fact => if fact ∈ facts then 0 else ⊤) (ws.start stratum facts).state where
  facts := StratumState.factInvariant_enter _
  costs := StratumState.costInvariant_enter (entryCosts_clear ws stratum facts)
  explanations := StratumState.explanations_enter
  sorted := List.pairwise_of_forall_mem_list fun a memA b memB =>
    ((if_pos memA : (if a ∈ facts then (0 : Cost) else ⊤) = 0).trans
      (if_pos memB : (if b ∈ facts then (0 : Cost) else ⊤) = 0).symm).le

theorem seenExact_start (ws : ProgramWorkspace) :
    Machine.SeenExact data numeric (ws.start stratum facts).state := by
  intro r _ seen mem
  cases mem

theorem tracks_start (ws : ProgramWorkspace) (distinct : ws.goalFacts.Nodup) :
    (ws.start stratum facts).tp.Tracks ws.goalFacts (ws.start stratum facts).state.facts :=
  (TerminationPolicy.tracks_setGoals distinct).achieveAll facts

/-- What the workspace was used for before does not matter. -/
theorem evaluationInvariant_start (ws : ProgramWorkspace) (distinct : ws.goalFacts.Nodup) :
    EvaluationInvariant data numeric ws.goalFacts facts (ws.start stratum facts) where
  annotations := annotationInvariant_start ws .max _
  seen := seenExact_start ws
  tracks := tracks_start ws distinct

section

variable (positive : PositiveStratum data stratum facts)
  (inv : EvaluationInvariant data numeric goals facts e)

include inv

/-- A rule costs at most the current cost and its own. -/
theorem EvaluationInvariant.groundCost_le {cws : ConstRuleWorkspace} {binding : List Nat}
    (holds : BodyHolds data cws e.state.facts binding) :
    groundCost .max e.state.annotations.orAnnot cws.rule binding ≤
      (e.state.buckets.current : Cost) + cws.rule.cost := by
  refine add_le_add_left (Aggregation.applyAll_max_le zero_le fun cost mem => ?_) _
  obtain ⟨fact, memFact, rfl⟩ := List.mem_map.mp mem
  by_cases isBase : fact ∈ facts
  · rw [inv.annotations.costs.unchanged fact isBase, if_pos isBase]
    exact zero_le
  · exact inv.annotations.costs.settled fact (holds.witnessFacts fact memFact) isBase

include positive

/-- The tests on the current facts report what they should. -/
theorem EvaluationInvariant.nowExact (regular : e.Regular data numeric) :
    Machine.NowExact data numeric e.state :=
  positive.nowExact inv.annotations.facts.model regular.noFalsePositive

/-- What a regular pass announces holds, so that no sum wraps around. -/
theorem EvaluationInvariant.inRange (regular : e.Regular data numeric)
    (valid : Machine.ValidSchedule data numeric .max e.state schedule) :
    Machine.InRange data .max e.state schedule where
  current := regular.inRange
  announced := by
    intro r active a announced
    have holds := valid.announced_holds inv.seen (inv.nowExact positive regular)
      inv.annotations.facts active announced
    exact (inv.groundCost_le holds).trans_lt (regular.inRange r active)

/-- A regular pass is one of unbounded costs and exact matching. -/
theorem EvaluationInvariant.unbounded (regular : e.Regular data numeric)
    (valid : Machine.ValidSchedule data numeric .max e.state schedule) :
    e.state.ValidSchedule data (.annotate .max) (reportedEnumeration data numeric) schedule ∧
      Machine.merged data .max e.state schedule =
        e.state.merged data (.annotate .max) schedule := by
  have inRange := inv.inRange positive regular valid
  exact ⟨valid.unbounded inv.seen (inv.nowExact positive regular) inRange,
    inRange.merged fun merge mem => ((valid.merges merge).mp mem).1⟩

/-- A regular pass keeps the invariant. -/
theorem EvaluationInvariant.step (regular : e.Regular data numeric)
    (step : e.Step data numeric .max e') : EvaluationInvariant data numeric goals facts e' := by
  have tracks := step.tracks inv.tracks
  obtain ⟨_, schedule, valid, advances, rfl⟩ := step
  have inRange := inv.inRange positive regular valid
  obtain ⟨unbounded, sameMerged⟩ := inv.unbounded positive regular valid
  have sameNext : Machine.next data .max e.state schedule =
      e.state.next data (.annotate .max) schedule :=
    inRange.next fun merge mem => ((valid.merges merge).mp mem).1
  constructor
  · rw [sameNext]
    apply inv.annotations.iterates positive.negationFree (fun fact mem => if_pos mem)
    rw [sameMerged] at advances
    exact ⟨schedule, unbounded, advances, rfl⟩
  · exact inv.seen.next (inv.nowExact positive regular)
  · exact tracks

theorem EvaluationInvariant.run
    (run : Relation.ReflTransGen
      (fun e e' => e.Regular data numeric ∧ e.Step data numeric .max e') e e') :
    EvaluationInvariant data numeric goals facts e' := by
  induction run with
  | refl => exact inv
  | tail _ step ih => exact ih.step positive step.1 step.2

/-! ### Costs on the way -/

/-- What has a derivation below the current cost is a fact of at most that cost. -/
theorem EvaluationInvariant.settled {fact : Tuple} {c : Cost}
    (derivation : HasCost (groundClauses data .max stratum (· ∈ facts)) fact c)
    (below : c < e.state.buckets.current) :
    fact ∈ e.state.facts ∧ e.state.annotations.orAnnot fact ≤ c := by
  induction derivation with
  | derive clause costs mem _ ih =>
      rcases mem with ⟨fact, isBase, rfl⟩ | ⟨cws, memRule, binding, admits, rfl⟩
      · refine ⟨inv.annotations.facts.contains fact isBase, ?_⟩
        exact ((inv.annotations.costs.unchanged fact isBase).trans (if_pos isBase)).le
      · have bodyCost : ∀ body ∈ witnessFacts cws.rule binding,
            costs body < e.state.buckets.current := fun body memBody =>
          ((Aggregation.max.mem_le_applyAll (List.mem_map_of_mem memBody) 0).trans
            le_self_add).trans_lt below
        have body := fun fact mem => ih fact mem (bodyCost fact mem)
        have holds : BodyHolds data cws e.state.facts binding := by
          apply bodyHolds_of_admits admits
          · intro literal memLiteral negative
            rw [positive.positive cws memRule literal memLiteral] at negative
            cases negative
          · exact fun literal memLiteral isPositive =>
              (body _ (mem_witnessFacts.mpr ⟨literal, memLiteral, isPositive, rfl⟩)).1
        obtain ⟨r, rfl⟩ := List.get_of_mem memRule
        have known : e.state.annotations.orAnnot (groundHead (stratum.get r).rule binding) ≤
            groundCost .max e.state.annotations.orAnnot (stratum.get r).rule binding := by
          cases hSeen : (e.state.rules r).seen with
          | none =>
              rw [inv.annotations.costs.fresh r hSeen] at below
              exact absurd below not_lt_zero
          | some s =>
              -- A body fact that is new since then has the current cost.
              have before : BodyHolds data (stratum.get r) s binding := by
                by_contra unseen
                have extend := ((inv.annotations.facts.rules r).enumerated s hSeen).extend
                obtain ⟨fact, memFact, isFact, isNew⟩ := exists_new_fact extend holds unseen
                have current := inv.annotations.costs.recent r s hSeen binding fact memFact isFact isNew
                have le := (body fact memFact).2.trans_lt (bodyCost fact memFact)
                rw [current] at le
                exact lt_irrefl _ le
              exact inv.annotations.costs.paid r s hSeen binding before
        have le : groundCost .max e.state.annotations.orAnnot (stratum.get r).rule binding ≤
            (ruleClause .max (stratum.get r).rule binding).value
              ((witnessFacts (stratum.get r).rule binding).map costs) :=
          add_le_add_left (Aggregation.max.applyAll_mono (fun fact mem => (body fact mem).2) le_rfl) _
        refine ⟨?_, known.trans le⟩
        by_contra notFact
        have late := inv.annotations.costs.later _ notFact
        exact absurd (late.trans (known.trans le)) (not_le.mpr below)

/-- The annotation of a fact is at most the cost of each of its derivations. -/
theorem EvaluationInvariant.orAnnot_le {fact : Tuple} (isFact : fact ∈ e.state.facts) {c : Cost}
    (derivation : HasCost (groundClauses data .max stratum (· ∈ facts)) fact c) :
    e.state.annotations.orAnnot fact ≤ c := by
  by_cases isBase : fact ∈ facts
  · rw [inv.annotations.costs.unchanged fact isBase, if_pos isBase]
    exact zero_le
  · by_cases below : c < e.state.buckets.current
    · exact (inv.settled positive derivation below).2
    · exact (inv.annotations.costs.settled fact isFact isBase).trans (not_lt.mp below)

/-- When there are no more heads, everything derivable is a fact. -/
theorem EvaluationInvariant.exhausted (regular : e.Regular data numeric)
    (valid : Machine.ValidSchedule data numeric .max e.state schedule)
    (done : (Machine.merged data .max e.state schedule).1.advanceToNextNonempty.1 = false)
    {fact : Tuple} {c : Cost}
    (derivation : HasCost (groundClauses data .max stratum (· ∈ facts)) fact c) :
    fact ∈ e.state.facts := by
  obtain ⟨unbounded, sameMerged⟩ := inv.unbounded positive regular valid
  rw [sameMerged] at done
  have least : LeastAnnotations data .max stratum facts
      ⟨e.state.facts, (e.state.merged data (.annotate .max) schedule).2,
        (e.state.merged data (.annotate .max) schedule).1.advanceToNextNonempty.2⟩ :=
    (inv.annotations.returned (fun fact mem => if_pos mem)
      ⟨schedule, unbounded, done, rfl, rfl⟩ rfl).leastAnnotations positive.negationFree
  by_contra notFact
  exact (least.others fact notFact).2 c derivation

end

end

/-! ### Evaluations of several strata -/

/-- The heads that the merges of an iteration derive. -/
def Schedule.heads {stratum : Stratum} (schedule : Schedule stratum) : List Tuple :=
  schedule.merges.map fun merge => merge.2.2

section

variable {data : ProgramData} {numeric : NumericOverapproximation} {aggregation : Aggregation}
  {ws : ProgramWorkspace} {facts : List Tuple} {stratum : Stratum} {e : Evaluation stratum}

/-- A condition on a pass through the loop. -/
abbrev PassCondition := ∀ {stratum : Stratum}, StratumState stratum → Schedule stratum → Prop

/-- `solve_bottom_up` on the workspace and the facts gets to the head of the loop over a
stratum, after the earlier strata and after passes that meet the condition. The last list
holds the heads derived in this stratum. -/
inductive AtHead (data : ProgramData) (numeric : NumericOverapproximation)
    (aggregation : Aggregation) (condition : PassCondition) (ws : ProgramWorkspace)
    (facts : List Tuple) :
    List Stratum → (stratum : Stratum) → Evaluation stratum → List Tuple → Prop where
  | first (stratum : Stratum) :
      AtHead data numeric aggregation condition ws facts [] stratum (ws.start stratum facts) []
  | pass {earlier : List Stratum} {stratum : Stratum} {e : Evaluation stratum} {derived : List Tuple}
      {schedule : Schedule stratum} :
      AtHead data numeric aggregation condition ws facts earlier stratum e derived →
      e.tp.check = false → Machine.ValidSchedule data numeric aggregation e.state schedule →
      condition e.state schedule →
      (Machine.merged data aggregation e.state schedule).1.advanceToNextNonempty.1 = true →
      AtHead data numeric aggregation condition ws facts earlier stratum
        ⟨Machine.next data aggregation e.state schedule, e.achieveHeads schedule.inserted⟩
        (derived ++ schedule.heads)
  | achieved {earlier : List Stratum} {stratum : Stratum} {e : Evaluation stratum}
      {derived : List Tuple} (next : Stratum) :
      AtHead data numeric aggregation condition ws facts earlier stratum e derived →
      e.tp.check = true →
      AtHead data numeric aggregation condition ws facts (earlier ++ [stratum]) next
        ⟨(SolveState.mk e.state.facts e.state.annotations e.state.buckets).enter next, e.tp⟩ []
  | exhausted {earlier : List Stratum} {stratum : Stratum} {e : Evaluation stratum}
      {derived : List Tuple} {schedule : Schedule stratum} (next : Stratum) :
      AtHead data numeric aggregation condition ws facts earlier stratum e derived →
      e.tp.check = false → Machine.ValidSchedule data numeric aggregation e.state schedule →
      condition e.state schedule →
      (Machine.merged data aggregation e.state schedule).1.advanceToNextNonempty.1 = false →
      AtHead data numeric aggregation condition ws facts (earlier ++ [stratum]) next
        ⟨(SolveState.mk e.state.facts (Machine.merged data aggregation e.state schedule).2
          (Machine.merged data aggregation e.state schedule).1.advanceToNextNonempty.2).enter next,
          e.tp⟩ []

theorem AtHead.tracks {condition : PassCondition} {earlier : List Stratum} {derived : List Tuple}
    (atHead : AtHead data numeric aggregation condition ws facts earlier stratum e derived)
    (distinct : ws.goalFacts.Nodup) : e.tp.Tracks ws.goalFacts e.state.facts := by
  induction atHead with
  | first stratum => exact (TerminationPolicy.tracks_setGoals distinct).achieveAll facts
  | pass _ unsatisfied valid _ advances ih =>
      have step : Evaluation.Step data numeric aggregation _ _ :=
        ⟨unsatisfied, _, valid, advances, rfl⟩
      exact step.tracks ih
  | achieved _ _ _ ih => exact ih
  | exhausted _ _ _ _ _ _ ih => exact ih

end

/-- The checks are exact iff each check after a reset comes between the first and the last
goal. An evaluation never resets the policy: it stops early only when all goals are facts. -/
theorem checksExact_iff (tp : TerminationPolicy) (goals : TerminationPolicy.GoalFactSet)
    (calls : List TerminationPolicy.Call) (data : ProgramData) (numeric : NumericOverapproximation)
    (aggregation : Aggregation) (ws : ProgramWorkspace) (facts : List Tuple)
    (earlier : List Stratum) (stratum : Stratum) (e : Evaluation stratum) (derived : List Tuple) :
    (tp.ChecksExact goals calls ↔ TerminationPolicy.ChecksBetween goals calls) ∧
      (ws.goalFacts.Nodup →
        AtHead data numeric aggregation (fun _ _ => True) ws facts earlier stratum e derived →
          (e.tp.check = true ↔ ∀ goal ∈ ws.goalFacts, goal ∈ e.state.facts)) := by
  refine ⟨TerminationPolicy.checksExact_iff_checksBetween tp goals calls, ?_⟩
  intro distinct atHead
  exact (atHead.tracks distinct).check_iff

/-- A goal that is reset and checked. -/
def oneGoal : TerminationPolicy.GoalFactSet := ⟨[⟨0, []⟩], List.nodup_singleton _, by decide⟩

/-- After a reset the check succeeds at once, and no longer when the goal is achieved. -/
theorem reset_check_early : ¬ (∀ (tp : TerminationPolicy) (goals : TerminationPolicy.GoalFactSet)
    (calls : List TerminationPolicy.Call), tp.ChecksExact goals calls) ∧
    (TerminationPolicy.after ⟨∅, 0, []⟩ oneGoal [.reset]).check = true ∧
    (TerminationPolicy.after ⟨∅, 0, []⟩ oneGoal [.reset, .achieve ⟨0, []⟩]).check = false := by
  refine ⟨fun claim => ?_, by decide, by decide⟩
  have early := (claim ⟨∅, 0, []⟩ oneGoal [.reset, .check] [.reset] (List.prefix_refl _)).mp (by decide)
  exact List.not_mem_nil (early ⟨0, []⟩ List.mem_cons_self)

end Tyr.Datalog
