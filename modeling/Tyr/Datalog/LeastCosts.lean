import Tyr.Datalog.BottomUpCorrect
import Tyr.Lib.LeastCost

/-!
The annotations are least costs.

The ground rules of a stratum are weighted clauses (`groundClauses`). Along a run
each annotation is the cost of a derivation and has a witness of that cost
(`Explanations`), and on return no ground rule undercuts an annotation. So the
annotations are the least derivation costs, the greatest solution of the
equations, whatever the schedule was.
-/

namespace Tyr.Datalog

open Tyr.Lib Tyr.Formalism Tyr.Formalism.Datalog

/-- An initial fact costs nothing. -/
def factClause (fact : Tuple) : WeightedClause Tuple Cost := ⟨fact, [], fun _ => 0⟩

/-- A ground rule adds its cost to the aggregated costs of its body. -/
def ruleClause (aggregation : Aggregation) (rule : Rule) (binding : List Nat) :
    WeightedClause Tuple Cost where
  head := groundHead rule binding
  body := witnessFacts rule binding
  value costs := aggregation.applyAll costs 0 + rule.cost

/-- The initial facts and the ground rules. -/
def groundClauses (data : ProgramData) (aggregation : Aggregation) (stratum : Stratum)
    (base : Tuple → Prop) : Set (WeightedClause Tuple Cost) :=
  {clause | (∃ fact, base fact ∧ clause = factClause fact) ∨
    ∃ cws ∈ stratum, ∃ binding, Admits data cws base binding ∧
      clause = ruleClause aggregation cws.rule binding}

section

variable {data : ProgramData} {aggregation : Aggregation} {stratum : Stratum} {base : Tuple → Prop}

theorem groundClauses_monotone : MonotoneClauses (groundClauses data aggregation stratum base) := by
  rintro clause (⟨fact, _, rfl⟩ | ⟨cws, _, binding, _, rfl⟩) costs costs' le
  · exact le_rfl
  · exact add_le_add_left (aggregation.applyAll_mono le le_rfl) _

/-- The clauses do not depend on the order of the rules. -/
theorem groundClauses_perm {stratum' : Stratum} (perm : stratum'.Perm stratum) :
    groundClauses data aggregation stratum' base = groundClauses data aggregation stratum base := by
  unfold groundClauses
  simp only [perm.mem_iff]

end

namespace StratumState

section

variable {data : ProgramData} {aggregation : Aggregation} {enumeration : CliqueEnumeration data}
  {stratum : Stratum} {st st' : StratumState stratum} {base : List Tuple} {entry : Tuple → Cost}
  {schedule : Schedule stratum}

/-- The witness of the fact is a ground rule that holds in the facts and costs
what the fact costs. -/
def HasWitness (data : ProgramData) (aggregation : Aggregation) (stratum : Stratum)
    (facts : List Tuple) (annotations : Annotations) (fact : Tuple) : Prop :=
  ∃ cws ∈ stratum, ∃ witness, annotations.andAnnot fact = some witness ∧
    witness.rule = cws.rule ∧ BodyHolds data cws facts witness.binding ∧
    groundHead cws.rule witness.binding = fact ∧
    annotations.orAnnot fact =
      groundCost aggregation annotations.orAnnot cws.rule witness.binding

/-- Each annotation has a derivation of its cost, and a witness unless its fact
is an initial one; the facts are in the order of their costs. -/
structure Explanations (data : ProgramData) (aggregation : Aggregation) (stratum : Stratum)
    (base facts : List Tuple) (annotations : Annotations) : Prop where
  derivable : ∀ fact, annotations.orAnnot fact ≠ ⊤ →
    HasCost (groundClauses data aggregation stratum (· ∈ base)) fact (annotations.orAnnot fact)
  witness : ∀ fact, annotations.orAnnot fact ≠ ⊤ → fact ∉ base →
    HasWitness data aggregation stratum facts annotations fact

theorem explanations_enter {facts : List Tuple} :
    Explanations data aggregation stratum facts facts (SolveState.initial facts).annotations := by
  have isBase : ∀ fact, (SolveState.initial facts).annotations.orAnnot fact ≠ ⊤ → fact ∈ facts := by
    intro fact finite
    by_contra notMem
    exact finite (if_neg notMem)
  constructor
  · intro fact finite
    have mem := isBase fact finite
    have free : (SolveState.initial facts).annotations.orAnnot fact = 0 := if_pos mem
    rw [free]
    exact .derive (factClause fact) (fun _ => 0) (.inl ⟨fact, mem, rfl⟩) nofun
  · exact fun fact finite notBase => absurd (isBase fact finite) notBase

/-- A ground rule that holds now derives its head at its cost. -/
theorem Explanations.hasCost (facts : st.FactInvariant data enumeration base)
    (inv : CostInvariant data aggregation base entry st)
    (explanations : Explanations data aggregation stratum base st.facts st.annotations)
    {r : Fin stratum.length} {binding : List Nat}
    (holds : BodyHolds data (stratum.get r) st.facts binding) :
    HasCost (groundClauses data aggregation stratum (· ∈ base))
      (groundHead (stratum.get r).rule binding)
      (groundCost aggregation st.annotations.orAnnot (stratum.get r).rule binding) := by
  have admits := (admits_of_bodyHolds facts.contains holds).1
  apply HasCost.derive (ruleClause aggregation (stratum.get r).rule binding) st.annotations.orAnnot
    (.inr ⟨stratum.get r, List.get_mem stratum r, binding, admits, rfl⟩)
  intro fact mem
  exact explanations.derivable fact (inv.finite fact (holds.witnessFacts fact mem))

/-- The merges of an iteration keep the explanations. -/
theorem Explanations.merged (facts : st.FactInvariant data enumeration base)
    (inv : CostInvariant data aggregation base entry st)
    (valid : st.ValidSchedule data (.annotate aggregation) enumeration schedule)
    (explanations : Explanations data aggregation stratum base st.facts st.annotations) :
    Explanations data aggregation stratum base st.facts
      (st.merged data (.annotate aggregation) schedule).2 := by
  have costs := inv.mergedCosts facts valid
  have bodyCosts : ∀ {cws : ConstRuleWorkspace} {binding},
      BodyHolds data cws st.facts binding →
        groundCost aggregation (st.merged data (.annotate aggregation) schedule).2.orAnnot
            cws.rule binding =
          groundCost aggregation st.annotations.orAnnot cws.rule binding :=
    fun holds => groundCost_congr fun fact mem => costs.settled fact (holds.witnessFacts fact mem)
  constructor
  · intro fact finite
    rcases costs.explained fact with ⟨sameOr, _⟩ | ⟨r, witness, _, _, holds, rfl, price, annotated⟩
    · rw [sameOr] at finite ⊢
      exact explanations.derivable fact finite
    · rw [annotated, price]
      exact explanations.hasCost facts inv holds
  · intro fact finite notBase
    rcases costs.explained fact with
      ⟨sameOr, sameAnd⟩ | ⟨r, witness, found, sameRule, holds, sameHead, price, annotated⟩
    · rw [sameOr] at finite
      obtain ⟨cws, mem, witness, found, sameRule, holds, sameHead, price⟩ :=
        explanations.witness fact finite notBase
      refine ⟨cws, mem, witness, sameAnd.trans found, sameRule, holds, sameHead, ?_⟩
      rw [sameOr, bodyCosts holds, price]
    · refine ⟨stratum.get r, List.get_mem stratum r, witness, found, sameRule, holds, sameHead, ?_⟩
      rw [annotated, price, bodyCosts holds]

/-- More facts keep the explanations. -/
theorem Explanations.grow {facts later : List Tuple} {annotations : Annotations}
    (explanations : Explanations data aggregation stratum base facts annotations)
    (extend : ∀ cws ∈ stratum, Extends cws.rule facts later) :
    Explanations data aggregation stratum base later annotations where
  derivable := explanations.derivable
  witness := by
    intro fact finite notBase
    obtain ⟨cws, mem, witness, found, sameRule, holds, rest⟩ :=
      explanations.witness fact finite notBase
    exact ⟨cws, mem, witness, found, sameRule, holds.extend (extend cws mem), rest⟩

/-- The new heads are appended to the facts. -/
theorem insertHeads_append (facts heads : List Tuple) :
    ∃ new, insertHeads facts heads = facts ++ new ∧ ∀ fact ∈ new, fact ∉ facts := by
  induction heads generalizing facts with
  | nil => exact ⟨[], (List.append_nil facts).symm, nofun⟩
  | cons head heads ih =>
      by_cases present : head ∈ facts
      · have skip : insertHeads facts (head :: heads) = insertHeads facts heads := by
          simp only [insertHeads, List.foldl_cons, if_pos present]
        rw [skip]
        exact ih facts
      · have step : insertHeads facts (head :: heads) = insertHeads (facts ++ [head]) heads := by
          simp only [insertHeads, List.foldl_cons, if_neg present]
        obtain ⟨new, same, isNew⟩ := ih (facts ++ [head])
        refine ⟨head :: new, ?_, fun fact mem => ?_⟩
        · rw [step, same, List.append_assoc]
          rfl
        · rcases List.mem_cons.mp mem with rfl | later
          · exact present
          · exact fun old => isNew fact later (List.mem_append_left _ old)

/-- The facts are in the order of their costs. -/
def Sorted (facts : List Tuple) (orAnnot : Tuple → Cost) : Prop :=
  facts.Pairwise fun a b => orAnnot a ≤ orAnnot b

theorem CostInvariant.sorted_next (facts : st.FactInvariant data enumeration base)
    (inv : CostInvariant data aggregation base entry st)
    (valid : st.ValidSchedule data (.annotate aggregation) enumeration schedule)
    (free : ∀ fact ∈ base, entry fact = 0) (sorted : Sorted st.facts st.annotations.orAnnot) :
    Sorted (st.next data (.annotate aggregation) schedule).facts
      (st.next data (.annotate aggregation) schedule).annotations.orAnnot := by
  obtain ⟨new, same, isNew⟩ := insertHeads_append st.facts schedule.inserted
  have nextFacts : (st.next data (.annotate aggregation) schedule).facts = st.facts ++ new := same
  have current : ∀ fact ∈ new,
      (st.next data (.annotate aggregation) schedule).annotations.orAnnot fact =
        (st.next data (.annotate aggregation) schedule).buckets.current := by
    intro fact mem
    apply inv.annot_inserted facts valid _ (isNew fact mem)
    rw [nextFacts]
    exact List.mem_append_right _ mem
  rw [nextFacts]
  refine List.pairwise_append.mpr ⟨?_, ?_, ?_⟩
  · refine List.Pairwise.imp_of_mem (fun memA memB le => ?_) sorted
    rwa [inv.annot_old facts valid memA, inv.annot_old facts valid memB]
  · exact List.pairwise_of_forall_mem_list fun a memA b memB =>
      ((current a memA).trans (current b memB).symm).le
  · intro a memA b memB
    rw [inv.annot_old facts valid memA, current b memB]
    by_cases isBase : a ∈ base
    · rw [inv.unchanged a isBase, free a isBase]
      exact zero_le
    · exact (inv.settled a memA isBase).trans (WithTop.coe_le_coe.mpr current_le_next)

/-- The invariant of a run with annotations. -/
structure AnnotationInvariant (data : ProgramData) (aggregation : Aggregation)
    (enumeration : CliqueEnumeration data) (base : List Tuple) (entry : Tuple → Cost)
    (st : StratumState stratum) : Prop where
  facts : st.FactInvariant data enumeration base
  costs : CostInvariant data aggregation base entry st
  explanations : Explanations data aggregation stratum base st.facts st.annotations
  sorted : Sorted st.facts st.annotations.orAnnot

theorem annotationInvariant_enter (enumeration : CliqueEnumeration data) (stratum : Stratum)
    (facts : List Tuple) :
    AnnotationInvariant data aggregation enumeration facts (SolveState.initial facts).annotations.orAnnot
      ((SolveState.initial facts).enter stratum) where
  facts := factInvariant_enter _
  costs := costInvariant_enter
    (entryInvariant_initial (.annotate aggregation) [stratum] facts stratum
      List.mem_cons_self)
  explanations := explanations_enter
  sorted := List.pairwise_of_forall_mem_list fun a memA b memB =>
    ((if_pos memA : (SolveState.initial facts).annotations.orAnnot a = 0).trans
      (if_pos memB : (SolveState.initial facts).annotations.orAnnot b = 0).symm).le

theorem AnnotationInvariant.iterates (negationFree : stratum.NegationFree)
    (free : ∀ fact ∈ base, entry fact = 0)
    (inv : AnnotationInvariant data aggregation enumeration base entry st)
    (iterates : st.Iterates data (.annotate aggregation) enumeration st') :
    AnnotationInvariant data aggregation enumeration base entry st' := by
  obtain ⟨schedule, valid, _, rfl⟩ := iterates
  have facts := inv.facts.next negationFree valid (inv.costs.keepsHeads inv.facts valid)
  refine ⟨facts, inv.costs.next inv.facts valid, ?_,
    inv.costs.sorted_next inv.facts valid free inv.sorted⟩
  apply (inv.explanations.merged inv.facts inv.costs valid).grow
  intro cws mem
  exact Extends.of_model negationFree mem inv.facts.contains
    (fun fact isFact => mem_insertHeads.mpr (.inl isFact)) facts.model

theorem AnnotationInvariant.run (negationFree : stratum.NegationFree)
    (free : ∀ fact ∈ base, entry fact = 0)
    (inv : AnnotationInvariant data aggregation enumeration base entry st)
    (run : Relation.ReflTransGen (Iterates data (.annotate aggregation) enumeration) st st') :
    AnnotationInvariant data aggregation enumeration base entry st' := by
  induction run with
  | refl => exact inv
  | tail _ step ih => exact ih.iterates negationFree free step

/-- The facts of a state stay in front, and their costs do not change any more. -/
theorem AnnotationInvariant.settled (negationFree : stratum.NegationFree)
    (free : ∀ fact ∈ base, entry fact = 0)
    (inv : AnnotationInvariant data aggregation enumeration base entry st)
    (run : Relation.ReflTransGen (Iterates data (.annotate aggregation) enumeration) st st') :
    st.facts <+: st'.facts ∧
      ∀ fact ∈ st.facts, st'.annotations.orAnnot fact = st.annotations.orAnnot fact := by
  induction run with
  | refl => exact ⟨List.prefix_rfl, fun _ _ => rfl⟩
  | tail before step ih =>
      have middle := inv.run negationFree free before
      obtain ⟨schedule, valid, _, rfl⟩ := step
      obtain ⟨new, same, _⟩ := insertHeads_append (StratumState.facts _) schedule.inserted
      refine ⟨ih.1.trans ⟨new, same.symm⟩, fun fact mem => ?_⟩
      rw [← ih.2 fact mem]
      exact middle.costs.annot_old middle.facts valid (ih.1.subset mem)

/-- On return, the bodies that hold are paid for. -/
theorem CostInvariant.paid_returns (facts : st.FactInvariant data enumeration base)
    (inv : CostInvariant data aggregation base entry st)
    (valid : st.ValidSchedule data (.annotate aggregation) enumeration schedule)
    {cws : ConstRuleWorkspace} (mem : cws ∈ stratum) {binding : List Nat}
    (holds : BodyHolds data cws st.facts binding) :
    (st.merged data (.annotate aggregation) schedule).2.orAnnot (groundHead cws.rule binding) ≤
      groundCost aggregation (st.merged data (.annotate aggregation) schedule).2.orAnnot cws.rule
        binding := by
  obtain ⟨r, rfl⟩ := List.get_of_mem mem
  have costs := inv.mergedCosts facts valid
  have body : groundCost aggregation (st.merged data (.annotate aggregation) schedule).2.orAnnot
      (stratum.get r).rule binding =
        groundCost aggregation st.annotations.orAnnot (stratum.get r).rule binding :=
    groundCost_congr fun fact memFact => costs.settled fact (holds.witnessFacts fact memFact)
  rw [body]
  by_cases active : r ∈ st.active
  · exact inv.paid_processed facts valid active holds
  · cases hSeen : (st.rules r).seen with
    | none => exact absurd ((facts.rules r).fresh hSeen).2 active
    | some s =>
        have before := ((facts.rules r).idle active s hSeen).bodyHolds.mpr holds
        exact (costs.improves _).trans (inv.paid r s hSeen binding before)

end

end StratumState

/-! ### The annotations on return -/

/-- What the annotations are in the end: the least derivation costs, which are
the greatest solution of the equations and the minimum over the ground rules;
the facts are in the order of their costs and have witnesses of their costs. -/
structure LeastAnnotations (data : ProgramData) (aggregation : Aggregation) (stratum : Stratum)
    (base : List Tuple) (final : SolveState) : Prop where
  least : ∀ fact ∈ final.facts,
    IsLeast {c | HasCost (groundClauses data aggregation stratum (· ∈ base)) fact c}
      (final.annotations.orAnnot fact)
  others : ∀ fact ∉ final.facts, final.annotations.orAnnot fact = ⊤ ∧
    ∀ c, ¬ HasCost (groundClauses data aggregation stratum (· ∈ base)) fact c
  fixpoint : IsGreatest {v | SolvesEquations (groundClauses data aggregation stratum (· ∈ base)) v}
    final.annotations.orAnnot
  minimum : ∀ fact ∈ final.facts, fact ∉ base →
    IsLeast {c | ∃ cws ∈ stratum, ∃ binding, BodyHolds data cws final.facts binding ∧
        groundHead cws.rule binding = fact ∧
        groundCost aggregation final.annotations.orAnnot cws.rule binding = c}
      (final.annotations.orAnnot fact)
  sorted : StratumState.Sorted final.facts final.annotations.orAnnot
  witness : ∀ fact ∈ final.facts, fact ∉ base →
    StratumState.HasWitness data aggregation stratum final.facts final.annotations fact

section

variable {data : ProgramData} {aggregation : Aggregation} {enumeration : CliqueEnumeration data}
  {stratum : Stratum} {base : List Tuple} {final : SolveState}

/-- Derivations have a cost. -/
theorem hasCost_ne_top {base : Tuple → Prop} {fact : Tuple} {c : Cost}
    (derivation : HasCost (groundClauses data aggregation stratum base) fact c) : c ≠ ⊤ := by
  induction derivation with
  | derive clause costs mem _ ih =>
      rcases mem with ⟨_, _, rfl⟩ | ⟨cws, _, binding, _, rfl⟩
      · exact WithTop.zero_ne_top
      · exact groundCost_ne_top ih

/-- What is established on return, before the costs are compared with derivations. -/
structure ReturnedCosts (data : ProgramData) (aggregation : Aggregation) (stratum : Stratum)
    (base : List Tuple) (final : SolveState) : Prop where
  contains : ∀ fact ∈ base, fact ∈ final.facts
  model : ∀ fact ∈ final.facts, StratumModel data stratum (· ∈ base) fact
  free : ∀ fact ∈ base, final.annotations.orAnnot fact = 0
  finite : ∀ fact, final.annotations.orAnnot fact ≠ ⊤ ↔ fact ∈ final.facts
  paid : ∀ cws ∈ stratum, ∀ binding, BodyHolds data cws final.facts binding →
    final.annotations.orAnnot (groundHead cws.rule binding) ≤
      groundCost aggregation final.annotations.orAnnot cws.rule binding
  explanations : StratumState.Explanations data aggregation stratum base final.facts
    final.annotations
  sorted : StratumState.Sorted final.facts final.annotations.orAnnot

/-- The costs when the loop returns. -/
theorem StratumState.AnnotationInvariant.returned {st : StratumState stratum} {entry : Tuple → Cost}
    (free : ∀ fact ∈ base, entry fact = 0)
    (inv : AnnotationInvariant data aggregation enumeration base entry st)
    (returns : st.Returns data (.annotate aggregation) enumeration final.annotations final.buckets)
    (same : final.facts = st.facts) : ReturnedCosts data aggregation stratum base final := by
  obtain ⟨schedule, valid, done, sameAnnotations, _⟩ := returns
  have costs := inv.costs.mergedCosts inv.facts valid
  constructor <;> simp only [same, sameAnnotations]
  · exact inv.facts.contains
  · exact inv.facts.model
  · intro fact mem
    rw [costs.settled fact (inv.facts.contains fact mem), inv.costs.unchanged fact mem]
    exact free fact mem
  · intro fact
    constructor
    · intro finite
      by_contra notFact
      exact finite (inv.costs.orAnnot_returns inv.facts valid done notFact)
    · intro isFact
      rw [costs.settled fact isFact]
      exact inv.costs.finite fact isFact
  · exact fun cws mem binding holds => inv.costs.paid_returns inv.facts valid mem holds
  · exact inv.explanations.merged inv.facts inv.costs valid
  · refine List.Pairwise.imp_of_mem (fun memA memB le => ?_) inv.sorted
    rwa [costs.settled _ memA, costs.settled _ memB]

/-- No clause undercuts an annotation. -/
theorem ReturnedCosts.closed (negationFree : stratum.NegationFree)
    (returned : ReturnedCosts data aggregation stratum base final) (fact : Tuple) :
    final.annotations.orAnnot fact ∈ lowerBounds
      (clauseCosts (groundClauses data aggregation stratum (· ∈ base)) final.annotations.orAnnot
        fact) := by
  rintro c ⟨clause, ⟨fact, mem, rfl⟩ | ⟨cws, mem, binding, admits, rfl⟩, rfl, rfl⟩
  · exact (returned.free fact mem).le
  · by_cases derived : ∀ body ∈ witnessFacts cws.rule binding, body ∈ final.facts
    · apply returned.paid cws mem binding
      apply bodyHolds_of_admits admits
      · intro literal memLiteral negative isFact
        rcases (returned.model _ isFact).base_or_head with isBase | ⟨cws', mem', isHead⟩
        · exact isBase
        · exact absurd isHead (negationFree cws mem cws' mem' literal memLiteral negative)
      · exact fun literal memLiteral positive =>
          derived _ (mem_witnessFacts.mpr ⟨literal, memLiteral, positive, rfl⟩)
    · push Not at derived
      obtain ⟨body, memBody, notFact⟩ := derived
      have expensive : final.annotations.orAnnot body = ⊤ :=
        not_not.mp fun finite => notFact ((returned.finite body).mp finite)
      have le : (⊤ : Cost) ≤ groundCost aggregation final.annotations.orAnnot cws.rule binding := by
        rw [← expensive]
        exact (le_bodyCost memBody).trans bodyCost_le_groundCost
      exact le_top.trans le

/-- An annotation is the cost of a clause. -/
theorem ReturnedCosts.attained (returned : ReturnedCosts data aggregation stratum base final)
    {fact : Tuple} (isFact : fact ∈ final.facts) : final.annotations.orAnnot fact ∈
      clauseCosts (groundClauses data aggregation stratum (· ∈ base)) final.annotations.orAnnot
        fact := by
  by_cases isBase : fact ∈ base
  · exact ⟨factClause fact, .inl ⟨fact, isBase, rfl⟩, rfl, (returned.free fact isBase).symm⟩
  · obtain ⟨cws, mem, witness, _, _, holds, sameHead, price⟩ :=
      returned.explanations.witness fact ((returned.finite fact).mpr isFact) isBase
    have admits := (admits_of_bodyHolds returned.contains holds).1
    exact ⟨ruleClause aggregation cws.rule witness.binding,
      .inr ⟨cws, mem, witness.binding, admits, rfl⟩, sameHead, price.symm⟩

theorem ReturnedCosts.leastAnnotations (negationFree : stratum.NegationFree)
    (returned : ReturnedCosts data aggregation stratum base final) :
    LeastAnnotations data aggregation stratum base final := by
  have closed := returned.closed negationFree
  have finite := fun fact isFact => (returned.finite fact).mpr isFact
  constructor
  · intro fact isFact
    exact ⟨returned.explanations.derivable fact (finite fact isFact),
      fun c derivation => derivation.le_of_closed groundClauses_monotone closed⟩
  · intro fact notFact
    refine ⟨not_not.mp fun annotated => notFact ((returned.finite fact).mp annotated), ?_⟩
    intro c derivation
    have le := derivation.le_of_closed groundClauses_monotone closed
    exact notFact ((returned.finite fact).mp (ne_top_of_le_ne_top (hasCost_ne_top derivation) le))
  · refine SolvesEquations.greatest groundClauses_monotone (fun fact => ⟨closed fact, ?_⟩)
      returned.explanations.derivable
    intro w lower
    by_cases isFact : fact ∈ final.facts
    · exact lower (returned.attained isFact)
    · have expensive : final.annotations.orAnnot fact = ⊤ :=
        not_not.mp fun annotated => isFact ((returned.finite fact).mp annotated)
      rw [expensive]
      exact le_top
  · intro fact isFact notBase
    constructor
    · obtain ⟨cws, mem, witness, _, _, holds, sameHead, price⟩ :=
        returned.explanations.witness fact (finite fact isFact) notBase
      exact ⟨cws, mem, witness.binding, holds, sameHead, price.symm⟩
    · rintro c ⟨cws, mem, binding, holds, rfl, rfl⟩
      exact returned.paid cws mem binding holds
  · exact returned.sorted
  · exact fun fact isFact notBase => returned.explanations.witness fact (finite fact isFact) notBase

/-- The run of a program with one stratum ends in least annotations. -/
theorem SolvesStrata.leastAnnotations (stratified : Stratified [stratum])
    (solves : SolvesStrata data (.annotate aggregation) enumeration [stratum]
      (SolveState.initial base) final) :
    LeastAnnotations data aggregation stratum base final := by
  have negationFree := stratified.negationFree stratum List.mem_cons_self
  have free : ∀ fact ∈ base, (SolveState.initial base).annotations.orAnnot fact = 0 :=
    fun _ mem => if_pos mem
  obtain _ | ⟨⟨st, run, returns, same⟩, _ | _⟩ := solves
  have inv := (StratumState.annotationInvariant_enter enumeration stratum base).run
    negationFree free run
  exact (inv.returned free returns same).leastAnnotations negationFree

/-- Least annotations do not depend on the order of the rules or on the run. -/
theorem LeastAnnotations.unique {stratum' : Stratum} {final' : SolveState}
    (least : LeastAnnotations data aggregation stratum base final)
    (least' : LeastAnnotations data aggregation stratum' base final') (perm : stratum'.Perm stratum) :
    final'.annotations.orAnnot = final.annotations.orAnnot ∧
      ∀ fact, fact ∈ final'.facts ↔ fact ∈ final.facts := by
  have fixpoint := least'.fixpoint
  rw [groundClauses_perm perm] at fixpoint
  have same := fixpoint.unique least.fixpoint
  have isFact : ∀ {stratum : Stratum} {final : SolveState},
      LeastAnnotations data aggregation stratum base final → ∀ fact,
        fact ∈ final.facts ↔ final.annotations.orAnnot fact ≠ ⊤ := by
    intro stratum final least fact
    constructor
    · exact fun mem => hasCost_ne_top (least.least fact mem).1
    · intro finite
      by_contra notFact
      exact finite (least.others fact notFact).1
  refine ⟨same, fun fact => ?_⟩
  rw [isFact least', isFact least, same]

end

end Tyr.Datalog
