import Tyr.Datalog.BottomUpCorrect
import Tyr.Lib.Ending

/-!
Bottom-up evaluation ends.

A pass through the loop inserts a new fact, or no rule is active after it, or the current
cost grows while no rule is active. There are finitely many facts, as the parameters of
the rules have finite domains, so the loop ends under every schedule, and no choice blocks.

* `SolveStep` — the passes and the strata, one step after the other.
* `Progress`, `measure_lt` — what a pass lowers.
* `acc_between` — no run goes on forever.
* `SolvesStrata.nodup` — it lists each fact once.
-/

namespace Tyr.Datalog

open Tyr.Lib Tyr.Formalism Tyr.Formalism.Datalog

/-! ### Finitely many facts -/

theorem ConstRuleWorkspace.finite_inDomains (cws : ConstRuleWorkspace) :
    {binding | cws.InDomains binding}.Finite := by
  apply (finite_lists cws.parameterDomains.flatten.toFinset cws.rule.arity).subset
  rintro binding ⟨length, inDomains⟩
  refine ⟨length, fun object mem => ?_⟩
  obtain ⟨p, inRange, rfl⟩ := List.getElem_of_mem mem
  have inDomain := inDomains p (length ▸ inRange)
  rw [List.getD_eq_getElem _ _ inRange] at inDomain
  cases found : cws.parameterDomains[p]? with
  | none =>
      rw [List.getD_eq_getElem?_getD, found] at inDomain
      cases inDomain
  | some domain =>
      rw [List.getD_eq_getElem?_getD, found] at inDomain
      exact List.mem_toFinset.mpr (List.mem_flatten.mpr ⟨domain, List.mem_of_getElem? found, inDomain⟩)

/-- The heads of the rules under the bindings in their domains. -/
def Stratum.Heads (stratum : Stratum) : Set Tuple :=
  {fact | ∃ cws ∈ stratum, ∃ binding, cws.InDomains binding ∧ groundHead cws.rule binding = fact}

theorem Stratum.finite_heads (stratum : Stratum) : stratum.Heads.Finite := by
  have family := (List.finite_toSet stratum).biUnion fun cws _ =>
    cws.finite_inDomains.image (groundHead cws.rule)
  apply family.subset
  rintro fact ⟨cws, mem, binding, inDomains, rfl⟩
  exact Set.mem_biUnion mem ⟨binding, inDomains, rfl⟩

/-- The model of a stratum over finitely many facts is finite. -/
theorem finite_stratumModel (data : ProgramData) (stratum : Stratum) (base : List Tuple) :
    {fact | StratumModel data stratum (· ∈ base) fact}.Finite := by
  apply ((List.finite_toSet base).union stratum.finite_heads).subset
  intro fact inModel
  cases inModel with
  | base given => exact .inl given
  | rule mem admits _ => exact .inr ⟨_, mem, _, admits.inDomains, rfl⟩

namespace StratumState

section

variable {data : ProgramData} {policy : AnnotationPolicy} {enumeration : CliqueEnumeration data}
  {stratum : Stratum} {st st' : StratumState stratum} {schedule : Schedule stratum}

/-! ### What a pass lowers -/

/-- A pass inserts a fact, or it leaves no rule active; if none was active before either,
the current cost grows in the buckets there are. -/
inductive Progress (st st' : StratumState stratum) : Prop where
  | inserts (fact : Tuple) : fact ∈ st'.facts → fact ∉ st.facts → Progress st st'
  | rests : st'.facts = st.facts → st.active.Nonempty → st'.active = ∅ → Progress st st'
  | advances : st'.facts = st.facts → st.active = ∅ → st'.active = ∅ →
      st'.buckets.buckets.length = st.buckets.buckets.length →
      st.buckets.current < st'.buckets.current →
      st'.buckets.current < st.buckets.buckets.length → Progress st st'

theorem insertHeads_eq_self {facts heads : List Tuple} (old : ∀ head ∈ heads, head ∈ facts) :
    insertHeads facts heads = facts := by
  unfold insertHeads
  induction heads with
  | nil => rfl
  | cons head heads ih =>
      rw [List.foldl_cons, if_pos (old head List.mem_cons_self)]
      exact ih fun other mem => old other (List.mem_cons_of_mem _ mem)

theorem nodup_insertHeads {facts heads : List Tuple} (nodup : facts.Nodup) :
    (insertHeads facts heads).Nodup := by
  unfold insertHeads
  refine foldl_invariant (P := fun facts : List Tuple => facts.Nodup) ?_ nodup
  intro facts nodup head _
  by_cases present : head ∈ facts
  · rwa [if_pos present]
  · rw [if_neg present]
    exact List.nodup_append.mpr ⟨nodup, List.nodup_singleton head, fun fact mem other isHead same =>
      present (List.mem_singleton.mp isHead ▸ same ▸ mem)⟩

theorem activeAfter_eq_empty {facts heads : List Tuple} (old : ∀ head ∈ heads, head ∈ facts) :
    (activeAfter facts heads : Finset (Fin stratum.length)) = ∅ := by
  apply Finset.filter_eq_empty_iff.mpr
  intro r _ listens
  obtain ⟨head, mem, isNew⟩ := List.any_eq_true.mp listens
  exact of_decide_eq_true (Bool.and_eq_true_iff.mp isNew).1 (old head mem)

theorem merges_eq_nil (merges : ∀ merge, merge ∈ schedule.merges ↔ st.Announces data schedule merge)
    (inactive : st.active = ∅) : schedule.merges = [] := by
  apply List.eq_nil_iff_forall_not_mem.mpr
  intro merge mem
  have active := ((merges merge).mp mem).1
  rw [inactive] at active
  exact Finset.notMem_empty _ active

/-- Without merges, advancing leads past the current cost. -/
theorem current_lt_advance {buckets : CostBuckets Tuple}
    (advances : buckets.clearCurrent.advanceToNextNonempty.1 = true) :
    buckets.clearCurrent.advanceToNextNonempty.2.buckets.length = buckets.buckets.length ∧
      buckets.current < buckets.clearCurrent.advanceToNextNonempty.2.current ∧
      buckets.clearCurrent.advanceToNextNonempty.2.current < buckets.buckets.length := by
  have length : buckets.clearCurrent.buckets.length = buckets.buckets.length := List.length_set
  obtain ⟨_, forward, _, nonempty, _⟩ := buckets.clearCurrent.advanceToNextNonempty_spec
  have inside : buckets.clearCurrent.advanceToNextNonempty.2.current <
      buckets.clearCurrent.buckets.length := of_decide_eq_true advances
  refine ⟨length, lt_of_le_of_ne forward fun same => nonempty advances ?_, length ▸ inside⟩
  apply Finset.eq_empty_of_forall_notMem
  intro fact mem
  exact (CostBuckets.mem_clearCurrent.mp mem).2 same.symm

/-- Whatever the merges are, a pass that continues makes progress. -/
theorem progress_of_merges {merged : CostBuckets Tuple × Annotations}
    (merges : ∀ merge, merge ∈ schedule.merges ↔ st.Announces data schedule merge)
    (unmerged : schedule.merges = [] → merged.1 = st.buckets.clearCurrent)
    (advances : merged.1.advanceToNextNonempty.1 = true)
    (facts : st'.facts = insertHeads st.facts schedule.inserted)
    (active : st'.active = activeAfter st.facts schedule.inserted)
    (buckets : st'.buckets = merged.1.advanceToNextNonempty.2) : Progress st st' := by
  by_cases old : ∀ head ∈ schedule.inserted, head ∈ st.facts
  · have sameFacts : st'.facts = st.facts := facts.trans (insertHeads_eq_self old)
    have rests : st'.active = ∅ := active.trans (activeAfter_eq_empty old)
    rcases st.active.eq_empty_or_nonempty with inactive | active
    · have same := unmerged (merges_eq_nil merges inactive)
      rw [same] at advances
      obtain ⟨length, grows, inside⟩ := current_lt_advance advances
      rw [← same, ← buckets] at length grows inside
      exact .advances sameFacts inactive rests length grows inside
    · exact .rests sameFacts active rests
  · push Not at old
    obtain ⟨head, mem, isNew⟩ := old
    exact .inserts head (facts ▸ mem_insertHeads.mpr (.inr mem)) isNew

theorem Iterates.progress (iterates : st.Iterates data policy enumeration st') : Progress st st' := by
  obtain ⟨schedule, valid, advances, rfl⟩ := iterates
  refine progress_of_merges valid.merges (fun noMerges => ?_) advances rfl rfl rfl
  rw [StratumState.merged, noMerges, List.foldl_nil]

/-- The facts still missing, the active rules, and the costs ahead. -/
def measure (model : Finset Tuple) (st : StratumState stratum) : ℕ ×ₗ ℕ ×ₗ ℕ :=
  toLex ((model \ st.facts.toFinset).card,
    toLex (st.active.card, st.buckets.buckets.length - st.buckets.current))

theorem Progress.measure_lt {model : Finset Tuple} (progress : Progress st st')
    (inModel : ∀ fact ∈ st'.facts, fact ∈ model) (grows : ∀ fact ∈ st.facts, fact ∈ st'.facts) :
    measure model st' < measure model st := by
  cases progress with
  | inserts fact isFact isNew =>
      refine Prod.Lex.toLex_lt_toLex.mpr (.inl (Finset.card_lt_card ?_))
      refine Finset.ssubset_iff_subset_ne.mpr ⟨?_, fun same => ?_⟩
      · apply Finset.sdiff_subset_sdiff (Finset.Subset.refl _)
        exact fun other mem => List.mem_toFinset.mpr (grows other (List.mem_toFinset.mp mem))
      · have missing : fact ∈ model \ st.facts.toFinset :=
          Finset.mem_sdiff.mpr ⟨inModel fact isFact, fun mem => isNew (List.mem_toFinset.mp mem)⟩
        rw [← same] at missing
        exact (Finset.mem_sdiff.mp missing).2 (List.mem_toFinset.mpr isFact)
  | rests sameFacts active rests =>
      refine Prod.Lex.toLex_lt_toLex.mpr (.inr ⟨?_, Prod.Lex.toLex_lt_toLex.mpr (.inl ?_)⟩)
      · rw [sameFacts]
      · rw [rests, Finset.card_empty]
        exact active.card_pos
  | advances sameFacts inactive rests length ahead inside =>
      refine Prod.Lex.toLex_lt_toLex.mpr (.inr ⟨?_, Prod.Lex.toLex_lt_toLex.mpr (.inr ⟨?_, ?_⟩)⟩)
      · rw [sameFacts]
      · rw [inactive, rests]
      · change st'.buckets.buckets.length - st'.buckets.current <
          st.buckets.buckets.length - st.buckets.current
        omega

/-- The loop over a stratum ends. -/
theorem LoopInvariant.acc {base : List Tuple} {entry : Tuple → Cost}
    (negationFree : stratum.NegationFree)
    (inv : LoopInvariant data enumeration base entry policy st) :
    Acc (fun after before => Iterates data policy enumeration before after) st := by
  apply acc_of_measure wellFounded_lt (fun _ _ before => before.iterates negationFree)
    (measure (finite_stratumModel data stratum base).toFinset) _ inv
  intro before after invariant iterates
  refine iterates.progress.measure_lt (fun fact mem => ?_) ?_
  · exact (Set.Finite.mem_toFinset _).mpr
      ((invariant.iterates negationFree iterates).facts.model fact mem)
  · obtain ⟨schedule, _, _, rfl⟩ := iterates
    exact fun fact mem => mem_insertHeads.mpr (.inl mem)

/-! ### No pass blocks -/

variable (data policy enumeration st)

/-- Bindings in the domains can be reported, each once. -/
theorem exists_reports (cws : ConstRuleWorkspace) (reported : List Nat → Prop)
    (inDomains : ∀ binding, reported binding → cws.InDomains binding) :
    ∃ reports : List (Nat × List Nat), (reports.map Prod.snd).Nodup ∧
      ∀ binding, binding ∈ reports.map Prod.snd ↔ reported binding := by
  have finite : {binding | reported binding}.Finite := cws.finite_inDomains.subset inDomains
  refine ⟨finite.toFinset.toList.map fun binding => (0, binding), ?_, fun binding => ?_⟩
  · rw [List.map_map]
    exact (List.map_id _).symm ▸ Finset.nodup_toList _
  · rw [List.map_map, show Prod.snd ∘ (fun binding : List Nat => (0, binding)) = id from rfl,
      List.map_id, Finset.mem_toList, Set.Finite.mem_toFinset]
    exact Iff.rfl

/-- Whatever the rules report, the heads can be merged, and those that wait then inserted. -/
theorem exists_schedule (reports : Fin stratum.length → List (Nat × List Nat))
    (waiting : Schedule stratum → Finset Tuple)
    (merged : ∀ schedule inserted, waiting { schedule with inserted } = waiting schedule) :
    ∃ schedule : Schedule stratum, schedule.reports = reports ∧
      (∀ r, schedule.pending r = (st.rules r).pending) ∧
      (∀ merge, merge ∈ schedule.merges ↔ st.Announces data schedule merge) ∧
      ∀ head, head ∈ schedule.inserted ↔ head ∈ waiting schedule := by
  let enumerated : Schedule stratum := ⟨fun r => (st.rules r).pending, reports, fun _ => 0, [], []⟩
  let merges := st.active.toList.flatMap fun r =>
    (st.output data enumerated r).announced.map fun a =>
      (r, a.worker, groundHead (stratum.get r).rule a.binding)
  let announced : Schedule stratum := { enumerated with merges }
  refine ⟨{ announced with inserted := (waiting announced).toList }, rfl, fun _ => rfl, ?_,
    fun head => ?_⟩
  · rintro ⟨r, worker, head⟩
    constructor
    · intro mem
      obtain ⟨rule, active, memAnnounced⟩ := List.mem_flatMap.mp mem
      obtain ⟨a, isAnnounced, same⟩ := List.mem_map.mp memAnnounced
      cases same
      exact ⟨Finset.mem_toList.mp active, a, isAnnounced, rfl, rfl⟩
    · rintro ⟨active, a, isAnnounced, isWorker, isHead⟩
      refine List.mem_flatMap.mpr ⟨r, Finset.mem_toList.mpr active, List.mem_map.mpr ⟨a, isAnnounced, ?_⟩⟩
      exact congrArg (Prod.mk r) (congrArg₂ Prod.mk isWorker isHead)
  · rw [merged]
    exact Finset.mem_toList

end

end StratumState

/-! ### The whole evaluation -/

/-- Between two strata, or at the head of the loop over a stratum with others to follow. -/
inductive SolveConfig where
  | between (strata : List Stratum) (solve : SolveState)
  | within (stratum : Stratum) (strata : List Stratum) (st : StratumState stratum)

section

variable (data : ProgramData) (policy : AnnotationPolicy) (enumeration : CliqueEnumeration data)

/-- A step of `solve_bottom_up`: a stratum is entered, a pass is made, or the loop returns. -/
inductive SolveStep : SolveConfig → SolveConfig → Prop where
  | enter (stratum : Stratum) (strata : List Stratum) (solve : SolveState) :
      SolveStep (.between (stratum :: strata) solve) (.within stratum strata (solve.enter stratum))
  | iterate {stratum : Stratum} (strata : List Stratum) {st st' : StratumState stratum} :
      st.Iterates data policy enumeration st' →
      SolveStep (.within stratum strata st) (.within stratum strata st')
  | returns {stratum : Stratum} (strata : List Stratum) {st : StratumState stratum}
      {annotations : Annotations} {buckets : CostBuckets Tuple} :
      st.Returns data policy enumeration annotations buckets →
      SolveStep (.within stratum strata st) (.between strata ⟨st.facts, annotations, buckets⟩)

end

section

variable {data : ProgramData} {policy : AnnotationPolicy} {enumeration : CliqueEnumeration data}

theorem acc_between {strata : List Stratum} (stratified : Stratified strata) {solve : SolveState}
    (entry : EntryInvariant policy strata solve) :
    Acc (fun after before => SolveStep data policy enumeration before after)
      (.between strata solve) := by
  induction strata generalizing solve with
  | nil => exact ⟨_, fun config isStep => nomatch isStep⟩
  | cons stratum strata ih =>
      constructor
      intro config isStep
      cases isStep with
      | enter =>
          have negationFree := stratified.negationFree stratum List.mem_cons_self
          have start := loopInvariant_enter enumeration entry
          refine acc_of_loop (start.acc negationFree) fun st' run config isStep => ?_
          cases isStep with
          | iterate _ iterates => exact .inl ⟨_, iterates, rfl⟩
          | @returns _ _ _ annotations buckets returns =>
              have solves : SolvesStratum data policy enumeration stratum solve
                  ⟨st'.facts, annotations, buckets⟩ := ⟨st', run, returns, rfl⟩
              exact .inr (ih stratified.tail (solves.entryInvariant stratified entry))

/-- What a configuration leads to when no step is left. -/
def SolveConfig.Leads (data : ProgramData) (policy : AnnotationPolicy)
    (enumeration : CliqueEnumeration data) : SolveConfig → SolveState → Prop
  | .between strata solve, final => SolvesStrata data policy enumeration strata solve final
  | .within _ strata st, final => ∃ st' annotations buckets,
      Relation.ReflTransGen (StratumState.Iterates data policy enumeration) st st' ∧
      st'.Returns data policy enumeration annotations buckets ∧
      SolvesStrata data policy enumeration strata ⟨st'.facts, annotations, buckets⟩ final

theorem SolveStep.leads {config config' : SolveConfig} {final : SolveState}
    (step : SolveStep data policy enumeration config config')
    (leads : config'.Leads data policy enumeration final) :
    config.Leads data policy enumeration final := by
  cases step with
  | enter =>
      obtain ⟨st', annotations, buckets, run, returns, rest⟩ := leads
      exact .cons ⟨st', run, returns, rfl⟩ rest
  | iterate _ iterates =>
      obtain ⟨st', annotations, buckets, run, returns, rest⟩ := leads
      exact ⟨st', annotations, buckets, .head iterates run, returns, rest⟩
  | returns _ returns => exact ⟨_, _, _, .refl, returns, leads⟩

theorem leads_of_run {config : SolveConfig} {final : SolveState}
    (run : Relation.ReflTransGen (SolveStep data policy enumeration) config (.between [] final)) :
    config.Leads data policy enumeration final := by
  generalize isEnd : SolveConfig.between [] final = last at run
  induction run using Relation.ReflTransGen.head_induction_on with
  | refl =>
      subst isEnd
      exact .nil final
  | head step _ ih => exact step.leads ih

theorem SolvesStrata.nodup {strata : List Stratum} {before after : SolveState}
    (solves : SolvesStrata data policy enumeration strata before after)
    (nodup : before.facts.Nodup) : after.facts.Nodup := by
  induction solves with
  | nil => exact nodup
  | @cons stratum strata before middle after stratumSolves _ ih =>
      obtain ⟨st, run, returns, same⟩ := stratumSolves
      apply ih
      rw [same]
      clear returns same
      induction run with
      | refl => exact nodup
      | tail _ step stepNodup =>
          obtain ⟨schedule, _, _, rfl⟩ := step
          exact StratumState.nodup_insertHeads stepNodup

end

end Tyr.Datalog
