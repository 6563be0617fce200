import Tyr.Lib.AssociationList
import Tyr.Lib.Fold
import Tyr.Graphs.BronKerbosch
import Tyr.Planning.Abstractions.ExplicitProjection

/-!
The canonical heuristic over a collection of projections.

Two projections are additive when no labels of state-changing transitions are
compatible. The heuristic sums the goal distances over each maximal set of
pairwise additive projections and takes the maximum.

* `labelsOverlap_iff` — the test of the labels.
* `not_changedBy_both` — no action changes the vertices of two additive projections.
* `sum_evaluate_le` — the sum over an additive set is at most the length of a plan.
-/

namespace Tyr.Planning

open Tyr.Lib Tyr.Formalism.Planning Tyr.Formalism.Unification Tyr.Graphs.BronKerbosch

/-! ### Labels -/

/-- The substitutions of the labels of each action. -/
abbrev LabelsByAction := List (Nat × List (SubstitutionFunction Nat))

def pushUniqueExact (vec : List (SubstitutionFunction Nat)) (sigma : SubstitutionFunction Nat) :
    List (SubstitutionFunction Nat) :=
  if sigma ∈ vec then vec else vec ++ [sigma]

/-- Add a substitution to the labels of an action. -/
def LabelsByAction.push (action : Nat) (sigma : SubstitutionFunction Nat) :
    LabelsByAction → LabelsByAction
  | [] => [(action, pushUniqueExact [] sigma)]
  | (other, vec) :: rest =>
      if other = action then (other, pushUniqueExact vec sigma) :: rest
      else (other, vec) :: LabelsByAction.push action sigma rest

/-- The labels of the state-changing transitions of a projection. -/
def collectLabels {State : Type*} (projection : ProjectionAbstraction State) : LabelsByAction :=
  projection.stateChangingTransitions.foldl
    (fun labels transition => labels.push transition.originalAction transition.substitution) []

/-- No parameter is bound to two objects. -/
def substitutionsCompatible (lhs rhs : SubstitutionFunction Nat) : Bool :=
  lhs.parameters.all fun p =>
    match lhs.tryGet p, rhs.tryGet p with
    | some (some object), some (some object') => object == object'
    | _, _ => true

def labelsOverlap (lhs rhs : LabelsByAction) : Bool :=
  lhs.any fun (action, lhsBindings) =>
    match rhs.lookup action with
    | none => false
    | some rhsBindings =>
        lhsBindings.any fun sigma => rhsBindings.any fun sigma' => substitutionsCompatible sigma sigma'

section

variable {State : Type*} (projections : List (ProjectionAbstraction State))

/-- The labels of the pair are tested once, the projection with the smaller index first. -/
def overlaps (i j : Fin projections.length) : Bool :=
  labelsOverlap (collectLabels (projections.get (min i j))) (collectLabels (projections.get (max i j)))

def createAdditivityGraph : Graph projections.length where
  matrix i := Finset.univ.filter fun j => i ≠ j ∧ overlaps projections i j = false
  symm := by
    intro i j mem
    rw [Finset.mem_filter] at mem ⊢
    refine ⟨Finset.mem_univ i, mem.2.1.symm, ?_⟩
    rw [overlaps, min_comm, max_comm]
    exact mem.2.2
  irrefl := fun i mem => (Finset.mem_filter.mp mem).2.1 rfl

/-- The sets of projections whose heuristics are summed. -/
def additivePartitions : List (List (Fin projections.length)) :=
  (createAdditivityGraph projections).computeMaximalCliques

/-- `CanonicalHeuristic::evaluate`. -/
def CanonicalHeuristic.evaluate (paths : ShortestPaths) (s : State) : ℕ∞ :=
  (additivePartitions projections).foldl (fun h partition =>
    let hSum := partition.foldl (fun hSum i => hSum + (projections.get i).evaluate paths s) 0
    if h < hSum then hSum else h) 0

end

/-! ### The test of the labels -/

/-- Some parameter is bound to two different objects. -/
def Clash (lhs rhs : SubstitutionFunction Nat) : Prop :=
  ∃ p object object', lhs.get p = some object ∧ rhs.get p = some object' ∧ object ≠ object'

theorem substitutionsCompatible_iff {lhs rhs : SubstitutionFunction Nat} :
    substitutionsCompatible lhs rhs = true ↔ ¬ Clash lhs rhs := by
  rw [substitutionsCompatible, List.all_eq_true]
  constructor
  · rintro agree ⟨p, object, object', left, right, different⟩
    have same := agree p (SubstitutionFunction.mem_parameters_of_get left)
    rw [SubstitutionFunction.get_eq_some.mp left, SubstitutionFunction.get_eq_some.mp right] at same
    exact different (beq_iff_eq.mp same)
  · intro noClash p _
    split
    · next object object' left right =>
        rw [beq_iff_eq]
        by_contra different
        exact noClash ⟨p, object, object', SubstitutionFunction.get_eq_some.mpr left,
          SubstitutionFunction.get_eq_some.mpr right, different⟩
    · rfl

/-- The substitution is listed for the action. -/
def LabelsByAction.Has (labels : LabelsByAction) (action : Nat) (sigma : SubstitutionFunction Nat) :
    Prop :=
  ∃ vec, labels.lookup action = some vec ∧ sigma ∈ vec

theorem mem_pushUniqueExact {vec : List (SubstitutionFunction Nat)}
    {sigma sigma' : SubstitutionFunction Nat} :
    sigma' ∈ pushUniqueExact vec sigma ↔ sigma' ∈ vec ∨ sigma' = sigma := by
  unfold pushUniqueExact
  split
  · next present =>
      refine (or_iff_left_of_imp ?_).symm
      rintro rfl
      exact present
  · rw [List.mem_append, List.mem_singleton]

theorem lookup_push {labels : LabelsByAction} {action other : Nat} {sigma : SubstitutionFunction Nat} :
    (labels.push action sigma).lookup other =
      if other = action then some (pushUniqueExact ((labels.lookup action).getD []) sigma)
      else labels.lookup other := by
  induction labels with
  | nil =>
      rw [LabelsByAction.push, List.lookup_cons]
      by_cases same : other = action
      · simp [same]
      · simp [same, beq_false_of_ne same]
  | cons entry rest ih =>
      obtain ⟨key, vec⟩ := entry
      rw [LabelsByAction.push]
      by_cases isKey : key = action
      · subst isKey
        by_cases same : other = key
        · simp [same]
        · simp [same, List.lookup_cons, beq_false_of_ne same]
      · rw [if_neg isKey, List.lookup_cons, List.lookup_cons, List.lookup_cons, ih]
        have notKey : (action == key) = false := beq_false_of_ne (Ne.symm isKey)
        by_cases same : other = action
        · subst same
          simp [notKey]
        · simp [same]

theorem has_push {labels : LabelsByAction} {action other : Nat}
    {sigma sigma' : SubstitutionFunction Nat} :
    (labels.push action sigma).Has other sigma' ↔
      labels.Has other sigma' ∨ (action = other ∧ sigma = sigma') := by
  unfold LabelsByAction.Has
  rw [lookup_push]
  by_cases same : other = action
  · subst same
    rw [if_pos rfl]
    cases labels.lookup other with
    | none => simp [mem_pushUniqueExact, eq_comm]
    | some vec => simp [mem_pushUniqueExact, eq_comm]
  · rw [if_neg same]
    exact (or_iff_left fun both => same both.1.symm).symm

variable {State : Type*} {projection other : ProjectionAbstraction State}

theorem has_collectLabels {action : Nat} {sigma : SubstitutionFunction Nat} :
    (collectLabels projection).Has action sigma ↔
      ∃ transition ∈ projection.stateChangingTransitions,
        transition.originalAction = action ∧ transition.substitution = sigma := by
  unfold collectLabels
  apply (foldl_iff (P := fun _ => True) (fun labels : LabelsByAction => labels.Has action sigma)
    (fun transition : Transition projection.numVertices =>
      transition.originalAction = action ∧ transition.substitution = sigma)
    (fun _ _ _ _ => trivial) (fun _ _ _ _ => has_push) trivial).trans
  refine or_iff_right ?_
  rintro ⟨vec, found, _⟩
  cases found

/-- The keys of the labels are different, so each entry is what is found under its key. -/
theorem nodup_push {labels : LabelsByAction} {action : Nat} {sigma : SubstitutionFunction Nat}
    (nodup : (labels.map Prod.fst).Nodup) : ((labels.push action sigma).map Prod.fst).Nodup := by
  have keys : ∀ (labels : LabelsByAction) key, key ∈ (labels.push action sigma).map Prod.fst ↔
      key ∈ labels.map Prod.fst ∨ key = action := by
    intro labels key
    induction labels with
    | nil => simp [LabelsByAction.push]
    | cons entry rest ih =>
        obtain ⟨head, vec⟩ := entry
        rw [LabelsByAction.push]
        split
        · next isKey =>
            subst isKey
            simp only [List.map_cons, List.mem_cons]
            tauto
        · simp only [List.map_cons, List.mem_cons, ih]
          tauto
  induction labels with
  | nil => exact List.nodup_singleton _
  | cons entry rest ih =>
      obtain ⟨head, vec⟩ := entry
      obtain ⟨notMem, nodupRest⟩ := List.nodup_cons.mp nodup
      rw [LabelsByAction.push]
      split
      · exact nodup
      · next isOther =>
          rw [List.map_cons, List.nodup_cons, keys]
          exact ⟨fun mem => mem.elim notMem isOther, ih nodupRest⟩

theorem nodup_collectLabels (projection : ProjectionAbstraction State) :
    ((collectLabels projection).map Prod.fst).Nodup :=
  foldl_invariant (P := fun labels : LabelsByAction => (labels.map Prod.fst).Nodup)
    (fun _ nodup _ _ => nodup_push nodup) List.nodup_nil

/-- Some labels of state-changing transitions are compatible. -/
def Overlap (projection other : ProjectionAbstraction State) : Prop :=
  ∃ transition ∈ projection.stateChangingTransitions, ∃ transition' ∈ other.stateChangingTransitions,
    transition.originalAction = transition'.originalAction ∧
      ¬ Clash transition.substitution transition'.substitution

theorem labelsOverlap_iff :
    labelsOverlap (collectLabels projection) (collectLabels other) = true ↔
      Overlap projection other := by
  have entries : labelsOverlap (collectLabels projection) (collectLabels other) = true ↔
      ∃ action sigma sigma', (collectLabels projection).Has action sigma ∧
        (collectLabels other).Has action sigma' ∧ substitutionsCompatible sigma sigma' = true := by
    rw [labelsOverlap, List.any_eq_true]
    constructor
    · rintro ⟨⟨action, vec⟩, mem, found⟩
      have here := (Lib.AssociationList.mem_iff_lookup (nodup_collectLabels projection)).mp mem
      dsimp only at found
      cases there : (collectLabels other).lookup action with
      | none =>
          rw [there] at found
          cases found
      | some vec' =>
          rw [there] at found
          obtain ⟨sigma, memSigma, rest⟩ := List.any_eq_true.mp found
          obtain ⟨sigma', memSigma', compatible⟩ := List.any_eq_true.mp rest
          exact ⟨action, sigma, sigma', ⟨vec, here, memSigma⟩, ⟨vec', there, memSigma'⟩, compatible⟩
    · rintro ⟨action, sigma, sigma', ⟨vec, here, memSigma⟩, ⟨vec', there, memSigma'⟩, compatible⟩
      refine ⟨(action, vec), (Lib.AssociationList.mem_iff_lookup (nodup_collectLabels projection)).mpr here, ?_⟩
      dsimp only
      rw [there]
      exact List.any_eq_true.mpr ⟨sigma, memSigma, List.any_eq_true.mpr ⟨sigma', memSigma', compatible⟩⟩
  rw [entries]
  simp only [has_collectLabels, substitutionsCompatible_iff]
  constructor
  · rintro ⟨action, sigma, sigma', ⟨t, mem, rfl, rfl⟩, ⟨t', mem', same, rfl⟩, compatible⟩
    exact ⟨t, mem, t', mem', same.symm, compatible⟩
  · rintro ⟨t, mem, t', mem', same, compatible⟩
    exact ⟨t.originalAction, t.substitution, t'.substitution, ⟨t, mem, rfl, rfl⟩,
      ⟨t', mem', same.symm, rfl⟩, compatible⟩

theorem Clash.symm {lhs rhs : SubstitutionFunction Nat} (clash : Clash lhs rhs) : Clash rhs lhs := by
  obtain ⟨p, object, object', left, right, different⟩ := clash
  exact ⟨p, object', object, right, left, different.symm⟩

theorem Overlap.symm (overlap : Overlap projection other) : Overlap other projection := by
  obtain ⟨t, mem, t', mem', same, compatible⟩ := overlap
  exact ⟨t', mem', t, mem, same.symm, fun clash => compatible clash.symm⟩

theorem overlaps_iff {projections : List (ProjectionAbstraction State)} {i j : Fin projections.length} :
    overlaps projections i j = true ↔ Overlap (projections.get i) (projections.get j) := by
  rw [overlaps, labelsOverlap_iff]
  rcases le_total i j with le | le
  · rw [min_eq_left le, max_eq_right le]
  · rw [min_eq_right le, max_eq_left le]
    exact ⟨Overlap.symm, Overlap.symm⟩

/-! ### Additive sets -/

/-- The projections of the set are pairwise additive. -/
def PairwiseAdditive (projections : List (ProjectionAbstraction State))
    (members : Finset (Fin projections.length)) : Prop :=
  ∀ i ∈ members, ∀ j ∈ members, i ≠ j → ¬ Overlap (projections.get i) (projections.get j)

variable {projections : List (ProjectionAbstraction State)} {space : StateSpace State}

/-- No clash between the labels of transitions of one action, so they overlap. -/
theorem not_changedBy_both (left : projection.OverApproximates space)
    (right : other.OverApproximates space) (additive : ¬ Overlap projection other)
    {s t s' t' : State} {a : ActionBinding} (step : space.step s a t) (step' : space.step s' a t')
    (changes : projection.mapState s ≠ projection.mapState t) :
    other.mapState s' = other.mapState t' := by
  by_contra changes'
  obtain ⟨transition, mem, src, dst, action, agrees⟩ := left.transition s a t step changes
  obtain ⟨transition', mem', src', dst', action', agrees'⟩ := right.transition s' a t' step' changes'
  have changing : transition ∈ projection.stateChangingTransitions := by
    rw [ProjectionAbstraction.stateChangingTransitions, List.mem_filter, bne_iff_ne, src, dst]
    exact ⟨mem, changes⟩
  have changing' : transition' ∈ other.stateChangingTransitions := by
    rw [ProjectionAbstraction.stateChangingTransitions, List.mem_filter, bne_iff_ne, src', dst']
    exact ⟨mem', changes'⟩
  refine additive ⟨transition, changing, transition', changing', action.trans action'.symm, ?_⟩
  -- Both labels name the objects of the action.
  rintro ⟨p, object, object', bound, bound', different⟩
  have same : some object = some object' := (agrees p object bound).symm.trans (agrees' p object' bound')
  exact different (Option.some.inj same)

/-- A set of projections is a clique of the graph iff it is pairwise additive. -/
theorem isClique_iff {members : Finset (Fin projections.length)} :
    (createAdditivityGraph projections).toSimpleGraph.IsClique members ↔
      PairwiseAdditive projections members := by
  constructor
  · intro clique i memI j memJ different overlap
    have edge := clique memI memJ different
    have absent := (Finset.mem_filter.mp edge).2.2
    rw [overlaps_iff.mpr overlap] at absent
    cases absent
  · intro additive i memI j memJ different
    apply Finset.mem_filter.mpr
    refine ⟨Finset.mem_univ j, different, ?_⟩
    rw [← Bool.not_eq_true, overlaps_iff]
    exact additive i memI j memJ different

/-- The sum of the heuristics of the set. -/
noncomputable def additiveSum (projections : List (ProjectionAbstraction State)) (paths : ShortestPaths)
    (members : Finset (Fin projections.length)) (s : State) : ℕ∞ :=
  ∑ i ∈ members, (projections.get i).evaluate paths s

theorem additiveSum_eq_foldl {partition : List (Fin projections.length)} (nodup : partition.Nodup)
    (paths : ShortestPaths) (s : State) :
    partition.foldl (fun hSum i => hSum + (projections.get i).evaluate paths s) 0 =
      additiveSum projections paths partition.toFinset s := by
  rw [additiveSum, List.sum_toFinset _ nodup, List.sum_eq_foldl, List.foldl_map]

/-- The loop of `std::max` computes a greatest element. -/
theorem isGreatest_foldl {α : Type*} (value : α → ℕ∞) {items : List α} {item : α} (mem : item ∈ items) :
    IsGreatest {v | ∃ item ∈ items, v = value item}
      (items.foldl (fun h item => if h < value item then value item else h) 0) := by
  have loop : ∀ (items : List α) (h : ℕ∞),
      let result := items.foldl (fun h item => if h < value item then value item else h) h
      h ≤ result ∧ (∀ item ∈ items, value item ≤ result) ∧
        (result = h ∨ ∃ item ∈ items, result = value item) := by
    intro items
    induction items with
    | nil => simp
    | cons head rest ih =>
        intro h
        obtain ⟨le, all, which⟩ := ih (if h < value head then value head else h)
        rw [List.foldl_cons]
        have both : h ≤ (if h < value head then value head else h) ∧
            value head ≤ (if h < value head then value head else h) := by
          split
          · next less => exact ⟨less.le, le_rfl⟩
          · next notLess => exact ⟨le_rfl, not_lt.mp notLess⟩
        refine ⟨both.1.trans le, ?_, ?_⟩
        · rintro item (_ | ⟨_, later⟩)
          · exact both.2.trans le
          · exact all item later
        · rcases which with same | ⟨item, later, same⟩
          · rw [same]
            split
            · exact Or.inr ⟨head, List.mem_cons_self, rfl⟩
            · exact Or.inl rfl
          · exact Or.inr ⟨item, List.mem_cons_of_mem head later, same⟩
  obtain ⟨_, all, which⟩ := loop items 0
  constructor
  · rcases which with zero | found
    · -- All values are zero.
      have least := all item mem
      rw [zero] at least ⊢
      exact ⟨item, mem, (nonpos_iff_eq_zero.mp least).symm⟩
    · exact found
  · rintro v ⟨item, mem, rfl⟩
    exact all item mem

theorem exists_maximal_pairwiseAdditive (projections : List (ProjectionAbstraction State)) :
    ∃ members, Maximal (PairwiseAdditive projections) members := by
  obtain ⟨members, _, maximal⟩ := Set.Finite.exists_le_maximal
    (Set.toFinite {members | PairwiseAdditive projections members})
    (a := ∅) (by simp [PairwiseAdditive])
  exact ⟨members, maximal⟩

theorem additivePartitions_spec (projections : List (ProjectionAbstraction State)) :
    Lists (additivePartitions projections) (Maximal (PairwiseAdditive projections)) := by
  refine (computeMaximalCliques_spec (createAdditivityGraph projections)).congr fun members => ?_
  have same : (fun members : Finset (Fin projections.length) =>
      (createAdditivityGraph projections).toSimpleGraph.IsClique members) =
      PairwiseAdditive projections := by
    ext members
    exact isClique_iff
  rw [IsMaximalClique, same]

/-- The heuristic is the maximum over the maximal additive sets. -/
theorem isGreatest_evaluate (projections : List (ProjectionAbstraction State)) (paths : ShortestPaths)
    (s : State) :
    IsGreatest {v | ∃ members, Maximal (PairwiseAdditive projections) members ∧
      v = additiveSum projections paths members s} (CanonicalHeuristic.evaluate projections paths s) := by
  have lists := additivePartitions_spec projections
  obtain ⟨members, maximal⟩ := exists_maximal_pairwiseAdditive projections
  obtain ⟨partition, mem, rfl⟩ := List.mem_map.mp ((lists.sets members).mpr maximal)
  have greatest := isGreatest_foldl (fun partition : List (Fin projections.length) =>
    partition.foldl (fun hSum i => hSum + (projections.get i).evaluate paths s) 0) mem
  have same : {v | ∃ members, Maximal (PairwiseAdditive projections) members ∧
      v = additiveSum projections paths members s} =
      {v | ∃ partition ∈ additivePartitions projections, v = partition.foldl (fun hSum i =>
        hSum + (projections.get i).evaluate paths s) 0} := by
    ext v
    constructor
    · rintro ⟨members, maximal, rfl⟩
      obtain ⟨partition, mem, rfl⟩ := List.mem_map.mp ((lists.sets members).mpr maximal)
      exact ⟨partition, mem, (additiveSum_eq_foldl (lists.nodup partition mem) paths s).symm⟩
    · rintro ⟨partition, mem, rfl⟩
      refine ⟨partition.toFinset, (lists.sets _).mp (List.mem_map_of_mem mem), ?_⟩
      exact additiveSum_eq_foldl (lists.nodup partition mem) paths s
  rw [same]
  exact greatest

/-! ### Admissibility -/

/-- A step changes the vertex of at most one projection of an additive set. -/
theorem additiveSum_step (approximates : ∀ projection ∈ projections, projection.OverApproximates space)
    {members : Finset (Fin projections.length)} (additive : PairwiseAdditive projections members)
    {paths : ShortestPaths} {s t : State} {a : ActionBinding} (step : space.step s a t) :
    additiveSum projections paths members s ≤ additiveSum projections paths members t + 1 := by
  have each : ∀ i ∈ members, (projections.get i).evaluate paths s ≤
      (projections.get i).evaluate paths t +
        if (projections.get i).mapState s = (projections.get i).mapState t then 0 else 1 :=
    fun i _ => ProjectionAbstraction.evaluate_step (approximates _ (List.get_mem _ _)) step
  have once : (∑ i ∈ members,
      if (projections.get i).mapState s = (projections.get i).mapState t then (0 : ℕ∞) else 1) ≤ 1 := by
    by_cases changed : ∃ i ∈ members, (projections.get i).mapState s ≠ (projections.get i).mapState t
    · obtain ⟨i, memI, changes⟩ := changed
      rw [Finset.sum_eq_single_of_mem i memI, if_neg changes]
      intro j memJ different
      refine if_pos (not_changedBy_both (approximates _ (List.get_mem _ _))
        (approximates _ (List.get_mem _ _)) ?_ step step changes)
      exact additive i memI j memJ different.symm
    · rw [Finset.sum_eq_zero]
      · exact zero_le_one
      · intro i memI
        refine if_pos (not_not.mp fun changes => changed ⟨i, memI, changes⟩)
  calc additiveSum projections paths members s
      ≤ ∑ i ∈ members, ((projections.get i).evaluate paths t +
          if (projections.get i).mapState s = (projections.get i).mapState t then 0 else 1) :=
        Finset.sum_le_sum each
    _ = additiveSum projections paths members t + ∑ i ∈ members,
          (if (projections.get i).mapState s = (projections.get i).mapState t then 0 else 1) :=
        Finset.sum_add_distrib
    _ ≤ additiveSum projections paths members t + 1 := by gcongr

theorem additiveSum_le_length
    (approximates : ∀ projection ∈ projections, projection.OverApproximates space)
    {members : Finset (Fin projections.length)} (additive : PairwiseAdditive projections members)
    {paths : ShortestPaths} {s t : State} {plan : List ActionBinding} (run : space.Run s plan t)
    (goal : space.goal t) : additiveSum projections paths members s ≤ plan.length := by
  induction run with
  | nil s =>
      rw [additiveSum, Finset.sum_eq_zero]
      · exact zero_le
      · intro i _
        exact ProjectionAbstraction.evaluate_goal (approximates _ (List.get_mem _ _)) goal
  | cons step _ ih =>
      rw [List.length_cons, Nat.cast_succ]
      exact (additiveSum_step approximates additive step).trans (add_le_add_left (ih goal) 1)

/-- Two projections of an additive set are not changed by one action, and the
heuristic is the greatest sum of a maximal additive set, which no plan is shorter than. -/
theorem canonicalHeuristic_admissible (paths : ShortestPaths) (space : StateSpace State)
    (projections : List (ProjectionAbstraction State))
    (approximates : ∀ projection ∈ projections, projection.OverApproximates space) :
    (∀ partition ∈ additivePartitions projections, ∀ i ∈ partition, ∀ j ∈ partition, i ≠ j →
      ∀ a, ¬ ((projections.get i).ChangedBy space a ∧ (projections.get j).ChangedBy space a)) ∧
    (∀ s, IsGreatest {v | ∃ members, Maximal (PairwiseAdditive projections) members ∧
      v = additiveSum projections paths members s} (CanonicalHeuristic.evaluate projections paths s)) ∧
    (∀ s plan, space.IsPlan s plan → CanonicalHeuristic.evaluate projections paths s ≤ plan.length) := by
  refine ⟨?_, isGreatest_evaluate projections paths, ?_⟩
  · rintro partition mem i memI j memJ different a
      ⟨⟨s, t, step, changes⟩, ⟨s', t', step', changes'⟩⟩
    have maximal := ((additivePartitions_spec projections).sets partition.toFinset).mp
      (List.mem_map_of_mem mem)
    have additive := maximal.prop i (List.mem_toFinset.mpr memI) j (List.mem_toFinset.mpr memJ) different
    exact changes' (not_changedBy_both (approximates _ (List.get_mem _ _))
      (approximates _ (List.get_mem _ _)) additive step step' changes)
  · rintro s plan ⟨t, run, goal⟩
    obtain ⟨members, maximal, same⟩ := (isGreatest_evaluate projections paths s).1
    rw [same]
    exact additiveSum_le_length approximates maximal.prop run goal

/-! Two switches, each turned on by an action of its own. -/

def switchSpace : StateSpace (Bool × Bool) where
  step s a t := (a = ⟨0, []⟩ ∧ t = (true, s.2)) ∨ (a = ⟨1, []⟩ ∧ t = (s.1, true))
  goal s := s = (true, true)

/-- The projection to the first or to the second switch. -/
def switchProjection (first : Bool) : ProjectionAbstraction (Bool × Bool) where
  numVertices := 2
  mapState s := if (if first then s.1 else s.2) then 1 else 0
  transitions := [⟨if first then 0 else 1, SubstitutionFunction.fromRange 0 0, 0, 1⟩]
  goalVertices := [1]

theorem switchProjection_overApproximates (first : Bool) :
    (switchProjection first).OverApproximates switchSpace where
  transition := by
    rintro ⟨s₁, s₂⟩ a t step changes
    have agrees : ProjectionAbstraction.Agrees (SubstitutionFunction.fromRange 0 0) a.objects := by
      intro p object bound
      cases bound
    obtain ⟨rfl, rfl⟩ | ⟨rfl, rfl⟩ := step
    · cases first with
      | false => exact absurd rfl changes
      | true =>
          cases s₁ with
          | false => exact ⟨_, List.mem_singleton_self _, rfl, rfl, rfl, agrees⟩
          | true => exact absurd rfl changes
    · cases first with
      | true => exact absurd rfl changes
      | false =>
          cases s₂ with
          | false => exact ⟨_, List.mem_singleton_self _, rfl, rfl, rfl, agrees⟩
          | true => exact absurd rfl changes
  goal := by
    rintro s rfl
    cases first <;> exact List.mem_singleton_self _

/-- The two projections are additive for the two switches, and no plan is shorter than their sum. -/
theorem canonicalHeuristic_admissible_switches :
    CanonicalHeuristic.evaluate [switchProjection true, switchProjection false] ShortestPaths.infimum
      (false, false) ≤ ([⟨0, []⟩, ⟨1, []⟩] : List ActionBinding).length := by
  have approximates : ∀ projection ∈ [switchProjection true, switchProjection false],
      projection.OverApproximates switchSpace := by
    simp [switchProjection_overApproximates]
  refine (canonicalHeuristic_admissible ShortestPaths.infimum switchSpace _ approximates).2.2
    (false, false) [⟨0, []⟩, ⟨1, []⟩] ⟨(true, true), ?_, rfl⟩
  exact .cons (t := (true, false)) (Or.inl ⟨rfl, rfl⟩)
    (.cons (t := (true, true)) (Or.inr ⟨rfl, rfl⟩) (.nil _))

end Tyr.Planning
