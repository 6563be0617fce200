import Tyr.Formalism.Planning.InvariantCandidate
import Tyr.Formalism.Planning.LiftedAction
import Tyr.Lib.AssociationList
import Tyr.Lib.Fold

/-!
Refining the candidates of invariants.

A threat is an add effect on the predicate of a part of a candidate. A refinement adds an
atom for a delete effect: its terms are the rigid variables whose arguments in the add
effect are those of the delete effect, and the counted variable where one is left over.

* `possibleMappings_spec` — a mapping has each position once, and its images are the rigid
  variables and as many omissions as positions are left over.
* `possibleMatches_perm` — the terms of a new atom are the variables, in some order.
* `wellFormed_refineCandidate` — refining keeps the shape and the atoms, and adds an atom for
  a new predicate.
-/

namespace Tyr.Formalism.Planning

open Tyr.Lib

/-! ### Permutations -/

/-- The permutations of a list, in lexicographic order when the list is sorted. -/
def lexPermutations {α : Type} : Nat → List α → List (List α)
  | 0, _ => [[]]
  | n + 1, items => items.zipIdx.flatMap fun item =>
      (lexPermutations n (items.eraseIdx item.2)).map (item.1 :: ·)

theorem perm_of_mem_lexPermutations {α : Type} {n : Nat} {items perm : List α}
    (length : items.length = n) (mem : perm ∈ lexPermutations n items) : perm.Perm items := by
  induction n generalizing items perm with
  | zero =>
      rw [List.mem_singleton.mp mem, List.eq_nil_of_length_eq_zero length]
  | succ n ih =>
      obtain ⟨⟨item, i⟩, inItems, inRest⟩ := List.mem_flatMap.mp mem
      obtain ⟨rest, isPerm, rfl⟩ := List.mem_map.mp inRest
      have position : items[i]? = some item := List.mem_zipIdx_iff_getElem?.mp inItems
      obtain ⟨inside, rfl⟩ := List.getElem?_eq_some_iff.mp position
      have shorter : (items.eraseIdx i).length = n := by
        rw [List.length_eraseIdx_of_lt inside, length]
        rfl
      exact ((ih shorter isPerm).cons _).trans (List.getElem_cons_eraseIdx_perm inside)

/-! ### Mappings -/

/-- A position of the delete effect and its rigid variable, if it is not left out. -/
abbrev PositionMapping := List (Nat × Option Nat)

/-- A rigid variable of the part, with the argument of the literal. -/
def rigidEntry (numRigid : Nat) : Term × Term → Option (Nat × Term)
  | (.parameter arg, value) => if arg < numRigid then some (arg, value) else none
  | (.object _, _) => none

/-- The map from the rigid variables, in ascending order. -/
def getParametersFromPart (part literal : Atom) (numRigid : Nat) : List (Nat × Term) :=
  (((part.terms.zip literal.terms).filterMap (rigidEntry numRigid)).foldl
    (fun result entry => AssociationList.emplace result entry.1 entry.2) []).mergeSort
      fun x y => x.1 ≤ y.1

/-- The order of the images; an omission is the last one. -/
def lessEqOptionalParameter : Option Nat → Option Nat → Bool
  | some p, some q => p ≤ q
  | some _, none => true
  | none, some _ => false
  | none, none => true

abbrev MappingGroup := List Nat × List (Option Nat)

def instantiateFactoredMapping : List MappingGroup → List PositionMapping
  | [] => [[]]
  | (positions, images) :: groups =>
      (lexPermutations images.length (images.mergeSort lessEqOptionalParameter)).flatMap fun perm =>
        (instantiateFactoredMapping groups).map (positions.zip perm ++ ·)

/-- The rigid variables whose argument is the term. -/
def invariantParameters (ownParameters : List (Nat × Term)) (term : Term) : List Nat :=
  (ownParameters.filter fun entry => entry.2 == term).map Prod.fst

/-- The positions of a term. -/
def positionsOf (terms : List Term) (term : Term) : List Nat :=
  (terms.zipIdx.filter fun entry => entry.1 == term).map Prod.snd

/-- One argument of the delete effect. -/
def factorStep (ownParameters : List (Nat × Term)) (otherTerms : List Term)
    (state : Nat × List MappingGroup) (term : Term) : Option (Nat × List MappingGroup) :=
  let otherPositions := positionsOf otherTerms term
  let invParams := invariantParameters ownParameters term
  let lenDiff : Int := (invParams.length : Int) - (otherPositions.length : Int)
  if 1 ≤ lenDiff ∨ lenDiff ≤ -2 ∨ (lenDiff = -1 ∧ state.1 = 0) then none
  else if lenDiff ≠ 0 then some (0, state.2 ++ [(otherPositions, invParams.map some ++ [none])])
  else some (state.1, state.2 ++ [(otherPositions, invParams.map some)])

/-- `possible_mappings`; the omissions are a difference of type `size_t`. -/
def possibleMappings (part ownLiteral otherLiteral : Atom) (numRigid : Nat) : List PositionMapping :=
  let allowedOmissions :=
    (otherLiteral.terms.length + 2 ^ 64 - partArity part numRigid) % 2 ^ 64
  if 1 < allowedOmissions then []
  else
    let ownParameters := getParametersFromPart part ownLiteral numRigid
    let arguments := otherLiteral.terms.dedup.mergeSort lessEqTerm
    match arguments.foldlM (factorStep ownParameters otherLiteral.terms) (allowedOmissions, []) with
    | none => []
    | some (_, factoredMapping) => instantiateFactoredMapping factoredMapping

def possibleMatches (part ownLiteral otherLiteral : Atom) (numRigid : Nat) : List Atom :=
  (possibleMappings part ownLiteral otherLiteral numRigid).map fun mapping =>
    ⟨otherLiteral.predicate, mapping.foldl
      (fun args entry => args.set entry.1 (.parameter (entry.2.getD numRigid)))
      (List.replicate otherLiteral.terms.length (.parameter numRigid))⟩

/-! ### The images of a mapping -/

/-- A mapping has the positions of its groups, and their images in some order. -/
theorem instantiateFactoredMapping_spec {groups : List MappingGroup} {mapping : PositionMapping}
    (sized : ∀ group ∈ groups, group.2.length = group.1.length)
    (mem : mapping ∈ instantiateFactoredMapping groups) :
    mapping.map Prod.fst = groups.flatMap Prod.fst ∧
      (mapping.map Prod.snd).Perm (groups.flatMap Prod.snd) := by
  induction groups generalizing mapping with
  | nil =>
      rw [instantiateFactoredMapping, List.mem_singleton] at mem
      subst mem
      exact ⟨rfl, .refl _⟩
  | cons group groups ih =>
      obtain ⟨positions, images⟩ := group
      obtain ⟨perm, isPerm, inRest⟩ := List.mem_flatMap.mp mem
      obtain ⟨rest, memRest, rfl⟩ := List.mem_map.mp inRest
      obtain ⟨restPositions, restImages⟩ := ih
        (fun other later => sized other (List.mem_cons_of_mem _ later)) memRest
      have sorted := List.mergeSort_perm images lessEqOptionalParameter
      have permuted := (perm_of_mem_lexPermutations sorted.length_eq isPerm).trans sorted
      have length : perm.length = positions.length :=
        permuted.length_eq.trans (sized _ List.mem_cons_self)
      rw [List.map_append, List.map_append, List.map_fst_zip length.ge, List.map_snd_zip length.le,
        restPositions, List.flatMap_cons, List.flatMap_cons]
      exact ⟨rfl, permuted.append restImages⟩

section

variable {numRigid : Nat} {terms : List Term}

/-- What the loop over the arguments has built. -/
structure Factored (ownParameters : List (Nat × Term)) (otherTerms : List Term) (allowed : Nat)
    (arguments : List Term) (state : Nat × List MappingGroup) : Prop where
  left_le : state.1 ≤ allowed
  positions : state.2.flatMap Prod.fst = arguments.flatMap (positionsOf otherTerms)
  images : (state.2.flatMap Prod.snd).Perm
    ((arguments.flatMap (invariantParameters ownParameters)).map some ++
      List.replicate (allowed - state.1) none)
  sized : ∀ group ∈ state.2, group.2.length = group.1.length

theorem factorStep_spec {ownParameters : List (Nat × Term)} {otherTerms : List Term} {allowed : Nat}
    {arguments : List Term} {state next : Nat × List MappingGroup} {term : Term}
    (allowed_le_one : allowed ≤ 1)
    (factored : Factored ownParameters otherTerms allowed arguments state)
    (one : factorStep ownParameters otherTerms state term = some next) :
    Factored ownParameters otherTerms allowed (arguments ++ [term]) next := by
  have left_le := factored.left_le
  have length : state.2.flatMap Prod.fst ++ positionsOf otherTerms term =
      (arguments ++ [term]).flatMap (positionsOf otherTerms) := by
    rw [factored.positions, List.flatMap_append, List.flatMap_singleton]
  have images := factored.images.append_right ((invariantParameters ownParameters term).map some)
  unfold factorStep at one
  dsimp only at one
  split at one
  · cases one
  · next within =>
      split at one
      · next differs =>
          cases one
          have one : allowed = 1 := by omega
          have all : state.1 = allowed := by omega
          refine ⟨Nat.zero_le _, ?_, ?_, ?_⟩
          · rw [List.flatMap_append, List.flatMap_singleton, length]
          · rw [all, Nat.sub_self, List.replicate_zero, List.append_nil] at images
            rw [one, List.flatMap_append, List.flatMap_singleton, List.flatMap_append,
              List.flatMap_singleton, List.map_append, ← List.append_assoc]
            exact images.append_right [none]
          · intro group mem
            rcases List.mem_append.mp mem with before | last
            · exact factored.sized group before
            · cases List.mem_singleton.mp last
              simp only [List.length_append, List.length_map, List.length_singleton]
              omega
      · next same =>
          cases one
          refine ⟨left_le, ?_, ?_, ?_⟩
          · rw [List.flatMap_append, List.flatMap_singleton, length]
          · rw [List.flatMap_append, List.flatMap_singleton, List.flatMap_append,
              List.flatMap_singleton, List.map_append]
            refine images.trans ?_
            rw [List.append_assoc, List.append_assoc]
            exact List.perm_append_comm.append_left _
          · intro group mem
            rcases List.mem_append.mp mem with before | last
            · exact factored.sized group before
            · cases List.mem_singleton.mp last
              simp only [List.length_map]
              omega

theorem factorSteps_spec {ownParameters : List (Nat × Term)} {otherTerms : List Term} {allowed : Nat}
    (allowed_le_one : allowed ≤ 1) {before arguments : List Term} {state next : Nat × List MappingGroup}
    (factored : Factored ownParameters otherTerms allowed before state)
    (loop : arguments.foldlM (factorStep ownParameters otherTerms) state = some next) :
    Factored ownParameters otherTerms allowed (before ++ arguments) next := by
  induction arguments generalizing before state with
  | nil =>
      cases loop
      rwa [List.append_nil]
  | cons term rest ih =>
      obtain ⟨mid, one, later⟩ := Option.bind_eq_some_iff.mp loop
      rw [List.append_cons]
      exact ih (factorStep_spec allowed_le_one factored one) later

/-- The positions of all arguments are the positions of the literal. -/
theorem positions_perm (otherTerms arguments : List Term) (perm : arguments.Perm otherTerms.dedup) :
    (arguments.flatMap (positionsOf otherTerms)).Perm (List.range otherTerms.length) := by
  have mem_positionsOf : ∀ term pos, pos ∈ positionsOf otherTerms term ↔
      otherTerms[pos]? = some term := by
    intro term pos
    rw [positionsOf, List.mem_map]
    constructor
    · rintro ⟨⟨stored, _⟩, mem, rfl⟩
      obtain ⟨inZip, same⟩ := List.mem_filter.mp mem
      rw [← eq_of_beq same]
      exact List.mem_zipIdx_iff_getElem?.mp inZip
    · intro found
      exact ⟨(term, pos), List.mem_filter.mpr ⟨List.mem_zipIdx_iff_getElem?.mpr found, BEq.rfl⟩, rfl⟩
  have nodup : (arguments.flatMap (positionsOf otherTerms)).Nodup := by
    refine nodup_flatMap_of_unique (perm.nodup_iff.mpr (List.nodup_dedup _)) (fun term _ => ?_) ?_
    · have indices : (otherTerms.zipIdx.map Prod.snd).Nodup := by
        rw [List.zipIdx_map_snd]
        exact List.nodup_range'
      exact indices.sublist (List.filter_sublist.map _)
    · intro term _ term' _ pos inFirst inSecond
      have found := (mem_positionsOf term pos).mp inFirst
      rw [(mem_positionsOf term' pos).mp inSecond] at found
      exact (Option.some.inj found).symm
  rw [List.perm_ext_iff_of_nodup nodup List.nodup_range]
  intro pos
  rw [List.mem_flatMap, List.mem_range]
  constructor
  · rintro ⟨term, _, inside⟩
    exact (List.getElem?_eq_some_iff.mp ((mem_positionsOf term pos).mp inside)).1
  · intro less
    refine ⟨otherTerms[pos], perm.mem_iff.mpr (List.mem_dedup.mpr (List.getElem_mem less)), ?_⟩
    exact (mem_positionsOf _ pos).mpr (List.getElem?_eq_getElem less)

/-- The index of a rigid variable. -/
def rigidIndex (numRigid : Nat) : Term → Option Nat
  | .parameter arg => if arg < numRigid then some arg else none
  | .object _ => none

theorem map_fst_rigidEntry (pair : Term × Term) :
    (rigidEntry numRigid pair).map Prod.fst = rigidIndex numRigid pair.1 := by
  obtain ⟨term, value⟩ := pair
  cases term with
  | object _ => rfl
  | parameter arg =>
      rw [rigidEntry, rigidIndex]
      split <;> rfl

theorem filterMap_rigidIndex (numRigid m : Nat) :
    ((List.range (numRigid + m)).map Term.parameter).filterMap (rigidIndex numRigid) =
      List.range numRigid := by
  have below : (List.range numRigid).filterMap (rigidIndex numRigid ∘ Term.parameter) =
      List.range numRigid := by
    refine (List.filterMap_congr fun p mem => ?_).trans List.filterMap_some
    exact if_pos (List.mem_range.mp mem)
  have beyond : ((List.range m).map (numRigid + ·)).filterMap (rigidIndex numRigid ∘ Term.parameter) =
      [] := by
    rw [List.filterMap_eq_nil_iff]
    intro p mem
    obtain ⟨i, _, rfl⟩ := List.mem_map.mp mem
    exact if_neg (Nat.not_lt_of_le (Nat.le_add_right _ _))
  rw [List.filterMap_map, List.range_add, List.filterMap_append, below, beyond, List.append_nil]

/-- The map from the rigid variables has each of them once. -/
theorem getParametersFromPart_perm {part literal : Atom} {numCounted : Nat}
    (counted_le_one : numCounted ≤ 1) (shaped : WellShaped numRigid numCounted part.terms)
    (sized : part.terms.length = literal.terms.length) :
    ((getParametersFromPart part literal numRigid).map Prod.fst).Perm (List.range numRigid) := by
  obtain ⟨m, _, perm⟩ := (wellShaped_iff_perm counted_le_one).mp shaped
  have keys : ((part.terms.zip literal.terms).filterMap (rigidEntry numRigid)).map Prod.fst =
      part.terms.filterMap (rigidIndex numRigid) := by
    calc ((part.terms.zip literal.terms).filterMap (rigidEntry numRigid)).map Prod.fst
        = (part.terms.zip literal.terms).filterMap (rigidIndex numRigid ∘ Prod.fst) := by
          rw [List.map_filterMap]
          exact List.filterMap_congr fun pair _ => map_fst_rigidEntry pair
      _ = ((part.terms.zip literal.terms).map Prod.fst).filterMap (rigidIndex numRigid) :=
          List.filterMap_map.symm
      _ = part.terms.filterMap (rigidIndex numRigid) := by rw [List.map_fst_zip sized.le]
  have rigid : (part.terms.filterMap (rigidIndex numRigid)).Perm (List.range numRigid) :=
    (perm.filterMap _).trans (.of_eq (filterMap_rigidIndex numRigid m))
  have nodup : (([] ++ (part.terms.zip literal.terms).filterMap (rigidEntry numRigid)).map
      Prod.fst).Nodup := by
    rw [List.nil_append, keys]
    exact rigid.nodup_iff.mpr List.nodup_range
  have entries := AssociationList.foldl_emplace nodup
  unfold getParametersFromPart
  rw [entries, List.nil_append]
  exact ((List.mergeSort_perm _ _).map Prod.fst).trans (keys ▸ rigid)

/-- The images of the arguments are rigid variables, each at most once. -/
theorem invariantParameters_subperm {ownParameters : List (Nat × Term)} {arguments : List Term}
    (perm : (ownParameters.map Prod.fst).Perm (List.range numRigid)) (nodup : arguments.Nodup) :
    (arguments.flatMap (invariantParameters ownParameters)).Subperm (List.range numRigid) := by
  have keys : (ownParameters.map Prod.fst).Nodup := perm.nodup_iff.mpr List.nodup_range
  have mem_iff : ∀ term p, p ∈ invariantParameters ownParameters term ↔ (p, term) ∈ ownParameters := by
    intro term p
    simp [invariantParameters]
  refine List.subperm_of_subset (nodup_flatMap_of_unique nodup (fun term _ => ?_) ?_) ?_
  · exact keys.sublist (List.filter_sublist.map _)
  · intro term _ term' _ p inFirst inSecond
    have first := (AssociationList.mem_iff_lookup keys).mp ((mem_iff term p).mp inFirst)
    rw [(AssociationList.mem_iff_lookup keys).mp ((mem_iff term' p).mp inSecond)] at first
    exact (Option.some.inj first).symm
  · intro p mem
    obtain ⟨term, _, inside⟩ := List.mem_flatMap.mp mem
    exact perm.mem_iff.mp (List.mem_map_of_mem ((mem_iff term p).mp inside))

/-- A mapping has every position once, and its images are the rigid variables and as many
omissions as positions are left over. -/
theorem possibleMappings_spec {part ownLiteral otherLiteral : Atom} {numCounted : Nat}
    (counted_le_one : numCounted ≤ 1) (shaped : WellShaped numRigid numCounted part.terms)
    (sized : part.terms.length = ownLiteral.terms.length) (partSmall : part.terms.length < 2 ^ 32)
    (otherSmall : otherLiteral.terms.length < 2 ^ 32) {mapping : PositionMapping}
    (mem : mapping ∈ possibleMappings part ownLiteral otherLiteral numRigid) :
    (mapping.map Prod.fst).Perm (List.range otherLiteral.terms.length) ∧ ∃ omissions ≤ 1,
      (mapping.map Prod.snd).Perm
        ((List.range numRigid).map some ++ List.replicate omissions none) := by
  have rigidSmall : numRigid ≤ part.terms.length := by
    obtain ⟨m, _, perm⟩ := (wellShaped_iff_perm counted_le_one).mp shaped
    have length : part.terms.length = numRigid + m := by simpa using perm.length_eq
    omega
  have own := getParametersFromPart_perm counted_le_one shaped sized
  unfold possibleMappings at mem
  rw [partArity_eq counted_le_one shaped] at mem
  dsimp only at mem
  split at mem
  · cases mem
  · next few =>
      have arguments := List.mergeSort_perm otherLiteral.terms.dedup lessEqTerm
      generalize otherLiteral.terms.dedup.mergeSort lessEqTerm = args at mem arguments
      -- The difference does not wrap: with fewer arguments than rigid variables it is too large.
      obtain ⟨allowed, allowed_eq, allowed_le_one, length⟩ : ∃ allowed,
          (otherLiteral.terms.length + 2 ^ 64 - numRigid) % 2 ^ 64 = allowed ∧ allowed ≤ 1 ∧
            otherLiteral.terms.length = numRigid + allowed :=
        ⟨_, rfl, by omega, by omega⟩
      rw [allowed_eq] at mem
      cases loop : args.foldlM (factorStep (getParametersFromPart part ownLiteral numRigid)
          otherLiteral.terms) (allowed, []) with
      | none =>
          rw [loop] at mem
          cases mem
      | some state =>
          rw [loop] at mem
          have start : Factored (getParametersFromPart part ownLiteral numRigid) otherLiteral.terms
              allowed [] (allowed, []) := ⟨Nat.le_refl _, rfl, by simp, by simp⟩
          have factored := factorSteps_spec allowed_le_one start loop
          rw [List.nil_append] at factored
          obtain ⟨fst, snd⟩ := instantiateFactoredMapping_spec factored.sized mem
          have positions := positions_perm otherLiteral.terms args arguments
          have subperm := invariantParameters_subperm own
            (arguments.nodup_iff.mpr (List.nodup_dedup otherLiteral.terms))
          have images := snd.trans factored.images
          rw [fst, factored.positions]
          have count := images.length_eq
          have left_le := factored.left_le
          have few := subperm.length_le
          simp only [List.length_map, List.length_append, List.length_replicate] at count few
          have total : mapping.length = otherLiteral.terms.length := by
            rw [← List.length_map Prod.fst, fst, factored.positions, positions.length_eq,
              List.length_range]
          rw [List.length_range] at few
          refine ⟨positions, allowed - state.1, by omega, images.trans ?_⟩
          exact ((subperm.perm_of_length_le (by rw [List.length_range]; omega)).map _).append_right _

end

/-! ### The new atoms -/

section

variable {α : Type}

theorem getElem?_foldl_set_of_not_mem {entries : List (Nat × α)} {args : List α} {i : Nat}
    (absent : i ∉ entries.map Prod.fst) :
    (entries.foldl (fun args entry => args.set entry.1 entry.2) args)[i]? = args[i]? := by
  induction entries generalizing args with
  | nil => rfl
  | cons entry rest ih =>
      rw [List.map_cons, List.mem_cons, not_or] at absent
      rw [List.foldl_cons, ih absent.2, List.getElem?_set_ne (Ne.symm absent.1)]

theorem length_foldl_set (entries : List (Nat × α)) (args : List α) :
    (entries.foldl (fun args entry => args.set entry.1 entry.2) args).length = args.length :=
  foldl_unchanged List.length (fun _ _ _ => List.length_set) args

theorem getElem?_foldl_set {entries : List (Nat × α)} {args : List α}
    (nodup : (entries.map Prod.fst).Nodup) {i : Nat} {value : α} (mem : (i, value) ∈ entries)
    (inside : i < args.length) :
    (entries.foldl (fun args entry => args.set entry.1 entry.2) args)[i]? = some value := by
  induction entries generalizing args with
  | nil => cases mem
  | cons entry rest ih =>
      obtain ⟨fresh, nodup⟩ := List.nodup_cons.mp nodup
      rcases List.mem_cons.mp mem with rfl | later
      · rw [List.foldl_cons, getElem?_foldl_set_of_not_mem fresh, List.getElem?_set_self inside]
      · exact ih nodup later (by simpa using inside)

/-- When every position is written once, what is written is there, in some order. -/
theorem foldl_set_perm {entries : List (Nat × α)} {args : List α}
    (perm : (entries.map Prod.fst).Perm (List.range args.length)) :
    (entries.foldl (fun args entry => args.set entry.1 entry.2) args).Perm (entries.map Prod.snd) := by
  have nodup := perm.nodup_iff.mpr List.nodup_range
  have length := length_foldl_set entries args
  have written := fun i value mem inside => @getElem?_foldl_set α entries args nodup i value mem inside
  generalize entries.foldl (fun args entry => args.set entry.1 entry.2) args = result at length written
  have all : result.map some = (List.range args.length).map (result[·]?) := by
    apply List.ext_getElem?
    intro i
    by_cases inside : i < result.length
    · simp [inside, length ▸ inside]
    · simp [inside, length ▸ inside]
  have values : (entries.map Prod.snd).map some = (entries.map Prod.fst).map (result[·]?) := by
    rw [List.map_map, List.map_map]
    refine List.map_congr_left fun entry mem => ?_
    have inside := List.mem_range.mp (perm.mem_iff.mp (List.mem_map_of_mem mem))
    exact (written entry.1 entry.2 mem inside).symm
  rw [← List.map_perm_map_iff (fun _ _ => Option.some.inj), all, values]
  exact (perm.map _).symm

end

section

variable {numRigid : Nat}

/-- The terms of a new atom are the rigid variables, and perhaps the counted one. -/
theorem possibleMatches_perm {part ownLiteral otherLiteral : Atom} {numCounted : Nat}
    (counted_le_one : numCounted ≤ 1) (shaped : WellShaped numRigid numCounted part.terms)
    (sized : part.terms.length = ownLiteral.terms.length) (partSmall : part.terms.length < 2 ^ 32)
    (otherSmall : otherLiteral.terms.length < 2 ^ 32) {atom : Atom}
    (mem : atom ∈ possibleMatches part ownLiteral otherLiteral numRigid) :
    atom.predicate = otherLiteral.predicate ∧
      atom.terms.length = otherLiteral.terms.length ∧ ∃ m ≤ 1,
        atom.terms.Perm ((List.range (numRigid + m)).map Term.parameter) := by
  obtain ⟨mapping, isMapping, rfl⟩ := List.mem_map.mp mem
  obtain ⟨positions, omissions, omissions_le, images⟩ :=
    possibleMappings_spec counted_le_one shaped sized partSmall otherSmall isMapping
  let entries : List (Nat × Term) := mapping.map fun entry =>
    (entry.1, .parameter (entry.2.getD numRigid))
  have fst : entries.map Prod.fst = mapping.map Prod.fst := by
    rw [List.map_map]
    rfl
  have loop : mapping.foldl (fun args entry => args.set entry.1 (.parameter (entry.2.getD numRigid)))
      (List.replicate otherLiteral.terms.length (.parameter numRigid)) =
        entries.foldl (fun args entry => args.set entry.1 entry.2)
          (List.replicate otherLiteral.terms.length (.parameter numRigid)) := by
    rw [List.foldl_map]
  have written := @foldl_set_perm Term entries
    (List.replicate otherLiteral.terms.length (.parameter numRigid))
    (by rw [fst, List.length_replicate]; exact positions)
  have snd : entries.map Prod.snd = (mapping.map Prod.snd).map fun image =>
      Term.parameter (image.getD numRigid) := by
    rw [List.map_map, List.map_map]
    rfl
  dsimp only
  rw [loop]
  refine ⟨rfl, ?_, omissions, omissions_le, written.trans ?_⟩
  · rw [length_foldl_set, List.length_replicate]
  · rw [snd]
    refine (images.map _).trans (.of_eq ?_)
    rw [List.map_append, List.map_map, List.range_add, List.map_append, List.map_map]
    congr 1
    have zero : omissions = 0 ∨ omissions = 1 := by omega
    rcases zero with rfl | rfl <;> rfl

end

/-! ### Refinements -/

/-- The fluent predicates and the actions of a domain. The source copies the actions without
their numeric parts; the literals have the arities of their predicates, which are `uint_t`. -/
structure Domain where
  predicates : List Nat
  arity : Nat → Nat
  actions : List Action
  arity_lt : ∀ predicate, arity predicate < 2 ^ 32
  sized : ∀ op ∈ actions, ∀ effect ∈ op.effects, ∀ literal ∈ effect.effect.literals,
    literal.atom.terms.length = arity literal.atom.predicate

structure Threat where
  opIndex : Nat
  effectIndex : Nat
  addIndex : Nat

section

variable (isAddEffectUnbalanced : Action → ConditionalEffect → Atom → InvariantCandidate → Bool)

/-- The candidate with one more atom. -/
def refineWith (inv : InvariantCandidate) (atom : Atom) : InvariantCandidate :=
  normalizeInvariant (.create inv.numRigidVariables
    (max inv.numCountedVariables (if atomUsesCounted atom inv.numRigidVariables then 1 else 0))
    (inv.atoms ++ [atom]))

/-- One literal of an effect of the action. -/
def refineLiteral (inv : InvariantCandidate) (op : Action) (effect : ConditionalEffect)
    (addAtom part : Atom) (literal : Literal) : List InvariantCandidate :=
  if literal.polarity then []
  else if literal.atom.predicate ∈ inv.predicates then []
  else
    (possibleMatches part addAtom literal.atom inv.numRigidVariables).filterMap fun atom =>
      if inv.covers atom then none
      else
        let refined := refineWith inv atom
        if isAddEffectUnbalanced op effect addAtom refined then none else some refined

/-- `refine_candidate`; the indices of a threat are those of an add effect of the actions. -/
def refineCandidate (inv : InvariantCandidate) (threat : Threat) (ops : List Action) :
    List InvariantCandidate :=
  match ops[threat.opIndex]? with
  | none => []
  | some op =>
      match op.effects[threat.effectIndex]? with
      | none => []
      | some effect =>
          match effect.effect.literals[threat.addIndex]? with
          | none => []
          | some addLiteral =>
              match inv.findPart addLiteral.atom.predicate with
              | none => []
              | some part => op.effects.flatMap fun conjEffect => conjEffect.effect.literals.flatMap
                  (refineLiteral isAddEffectUnbalanced inv op effect addLiteral.atom part)

end

/-- The predicates of the delete effects. -/
def deletedPredicates (ops : List Action) : List Nat :=
  ops.flatMap fun op => op.effects.flatMap fun effect =>
    (effect.effect.literals.filter fun literal => !literal.polarity).map fun literal =>
      literal.atom.predicate

section

variable {domain : Domain} {inv : InvariantCandidate}

/-- An atom over a new predicate, with the variables in some order, keeps the shape. -/
theorem wellFormed_refineWith (wf : inv.WellFormed domain.arity) {atom : Atom}
    (new : atom.predicate ∉ inv.predicates) (sized : atom.terms.length = domain.arity atom.predicate)
    {m : Nat} (m_le : m ≤ 1)
    (perm : atom.terms.Perm ((List.range (inv.numRigidVariables + m)).map Term.parameter)) :
    (refineWith inv atom).WellFormed domain.arity ∧
      (refineWith inv atom).atoms.Perm (atom :: inv.atoms) := by
  have uses : atomUsesCounted atom inv.numRigidVariables = decide (m = 1) := any_isCounted m_le perm
  let counted := max inv.numCountedVariables (if atomUsesCounted atom inv.numRigidVariables then 1 else 0)
  have counted_le : counted ≤ 1 := by
    have one := wf.counted_le_one
    simp only [counted]
    split <;> omega
  have m_le_counted : m ≤ counted := by
    simp only [counted, uses, decide_eq_true_eq]
    split <;> omega
  have predicates : (inv.atoms ++ [atom]).map Atom.predicate = inv.predicates ++ [atom.predicate] := by
    rw [List.map_append, InvariantCandidate.predicates]
    rfl
  have built : InvariantCandidate.WellFormed domain.arity
      ⟨inv.numRigidVariables, counted, inv.atoms ++ [atom]⟩ := by
    refine ⟨by simp, ?_, counted_le, ?_, ?_⟩
    · rw [InvariantCandidate.predicates, predicates, ← List.concat_eq_append]
      exact wf.onePerPredicate.concat new
    · intro other mem
      rcases List.mem_append.mp mem with old | added
      · exact (wf.shaped other old).mono (Nat.le_max_left _ _)
      · rw [List.mem_singleton.mp added]
        exact (wellShaped_iff_perm counted_le).mpr ⟨m, m_le_counted, perm⟩
    · intro other mem
      rcases List.mem_append.mp mem with old | added
      · exact wf.sized other old
      · rw [List.mem_singleton.mp added]
        exact sized
  obtain ⟨sorted, sortedAtoms⟩ := built.canonicalize
  obtain ⟨normal, normalAtoms⟩ := sorted.normalizeInvariant
  exact ⟨normal, normalAtoms.trans (sortedAtoms.trans (List.perm_append_singleton _ _))⟩

/-- The refinements for one delete effect. -/
theorem wellFormed_refineLiteral
    {isAddEffectUnbalanced : Action → ConditionalEffect → Atom → InvariantCandidate → Bool}
    (wf : inv.WellFormed domain.arity) {op : Action} {effect : ConditionalEffect} {addAtom part : Atom}
    (found : inv.findPart addAtom.predicate = some part)
    (sizedAdd : addAtom.terms.length = domain.arity addAtom.predicate) {literal : Literal}
    (sizedDel : literal.atom.terms.length = domain.arity literal.atom.predicate)
    {refined : InvariantCandidate}
    (mem : refined ∈ refineLiteral isAddEffectUnbalanced inv op effect addAtom part literal) :
    literal.polarity = false ∧ refined.WellFormed domain.arity ∧
      ∃ atom, atom.predicate = literal.atom.predicate ∧ atom.predicate ∉ inv.predicates ∧
        refined.atoms.Perm (atom :: inv.atoms) := by
  have isPart : part ∈ inv.atoms := List.mem_of_find?_eq_some found
  have samePredicate : part.predicate = addAtom.predicate := by
    simpa using List.find?_some found
  have sizedPart := wf.sized part isPart
  have small := domain.arity_lt
  unfold refineLiteral at mem
  split at mem
  · cases mem
  · next negative =>
      split at mem
      · cases mem
      · next new =>
          obtain ⟨atom, isMatch, result⟩ := List.mem_filterMap.mp mem
          obtain ⟨predicate, length, m, m_le, perm⟩ := possibleMatches_perm wf.counted_le_one
            (wf.shaped part isPart) (by rw [sizedPart, samePredicate, sizedAdd])
            (by rw [sizedPart]; exact small _) (by rw [sizedDel]; exact small _) isMatch
          have notYet : atom.predicate ∉ inv.predicates := by
            rw [predicate]
            exact new
          obtain ⟨refines, atoms⟩ := wellFormed_refineWith wf notYet
            (by rw [length, sizedDel, predicate]) m_le perm
          split at result
          · cases result
          · dsimp only at result
            split at result
            · cases result
            · cases result
              exact ⟨by simpa using negative, refines, atom, predicate, notYet, atoms⟩

/-- A refinement keeps the shape and the atoms, and adds one for a deleted predicate that the
candidate does not have. -/
theorem wellFormed_refineCandidate
    {isAddEffectUnbalanced : Action → ConditionalEffect → Atom → InvariantCandidate → Bool}
    (wf : inv.WellFormed domain.arity) {threat : Threat} {refined : InvariantCandidate}
    (mem : refined ∈ refineCandidate isAddEffectUnbalanced inv threat domain.actions) :
    refined.WellFormed domain.arity ∧ ∃ atom : Atom,
      atom.predicate ∈ deletedPredicates domain.actions ∧ atom.predicate ∉ inv.predicates ∧
        refined.atoms.Perm (atom :: inv.atoms) := by
  unfold refineCandidate at mem
  cases foundOp : domain.actions[threat.opIndex]? with
  | none =>
      rw [foundOp] at mem
      cases mem
  | some op =>
      simp only [foundOp] at mem
      cases foundEffect : op.effects[threat.effectIndex]? with
      | none =>
          rw [foundEffect] at mem
          cases mem
      | some effect =>
          simp only [foundEffect] at mem
          cases foundLiteral : effect.effect.literals[threat.addIndex]? with
          | none =>
              rw [foundLiteral] at mem
              cases mem
          | some addLiteral =>
              simp only [foundLiteral] at mem
              cases foundPart : inv.findPart addLiteral.atom.predicate with
              | none =>
                  rw [foundPart] at mem
                  cases mem
              | some part =>
                  simp only [foundPart] at mem
                  obtain ⟨conjEffect, inOp, mem⟩ := List.mem_flatMap.mp mem
                  obtain ⟨literal, inEffect, mem⟩ := List.mem_flatMap.mp mem
                  have isOp := List.mem_of_getElem? foundOp
                  have sizedAdd := domain.sized op isOp effect (List.mem_of_getElem? foundEffect)
                    addLiteral (List.mem_of_getElem? foundLiteral)
                  obtain ⟨negative, refines, atom, predicate, new, atoms⟩ := wellFormed_refineLiteral wf
                    foundPart sizedAdd (domain.sized op isOp conjEffect inOp literal inEffect) mem
                  refine ⟨refines, atom, ?_, new, atoms⟩
                  rw [predicate]
                  refine List.mem_flatMap.mpr ⟨op, isOp, List.mem_flatMap.mpr ⟨conjEffect, inOp, ?_⟩⟩
                  exact List.mem_map.mpr
                    ⟨literal, List.mem_filter.mpr ⟨inEffect, by simp [negative]⟩, rfl⟩

end

end Tyr.Formalism.Planning
