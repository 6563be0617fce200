import Tyr.Formalism.Planning.InvariantCandidate
import Tyr.Formalism.Planning.Mutexes
import Tyr.Lib.AssociationList
import Tyr.Lib.DynamicBitset
import Tyr.Lib.Fold

/-!
The index of the instances of invariants.

For every rigid parameter and every object the index has a bitset of the bindings
that bind the object to the parameter. A query matches the patterns against an atom
and intersects the bitsets of the objects that a match has found.

* `buildPostings_spec` — the bits of the index.
* `intersectMatchingBindings_spec` — the bindings that agree with a match.
* `matchInvariant_iff` — a pattern covers an atom iff it matches and the binding agrees.
* `query_eq` — a query finds the covering instances, whatever the workspace has held.
-/

namespace Tyr.Formalism.Planning

open Tyr.Formalism.Unification Tyr.Lib StructureTraits

namespace InvariantCandidate

/-- A match of the pattern binds the parameters of the invariant. -/
def matchInvariantAgainstGroundAtom (inv : InvariantCandidate) (pattern groundAtom : Atom) :
    Option (SubstitutionFunction Term) :=
  matchStructure pattern groundAtom (.fromRange 0 (inv.numRigidVariables + inv.numCountedVariables))

/-- The term with an object for each parameter of the invariant. -/
def replaceTerm (inv : InvariantCandidate) (value : Nat → Nat) : Term → Term
  | .object object => .object object
  | .parameter p =>
      if p < inv.numRigidVariables + inv.numCountedVariables then .object (value p) else .parameter p

/-- The pattern, with the objects of the binding for the rigid parameters and any objects
for the counted ones, is the atom. -/
def PatternCovers (inv : InvariantCandidate) (pattern : Atom) (binding : SubstitutionFunction Nat)
    (atom : Tuple) : Prop :=
  ∃ value : Nat → Nat, (∀ p < inv.numRigidVariables, binding.get p = some (value p)) ∧
    transformTerms (inv.replaceTerm value) pattern = Invariant.groundAtom atom

/-- The naive test. -/
def Covers (inv : InvariantCandidate) (binding : SubstitutionFunction Nat) (atom : Tuple) : Prop :=
  ∃ pattern ∈ inv.atoms, inv.PatternCovers pattern binding atom

end InvariantCandidate

/-! ### The index -/

/-- The bitsets of the objects, for one parameter. -/
abbrev Postings := List (Nat × List Bool)

/-- The parameter `p` of binding number `b`. -/
def postParameter (numBindings b : Nat) (binding : SubstitutionFunction Nat) (postings : List Postings)
    (p : Nat) : List Postings :=
  match binding.get p with
  | none => postings
  | some object =>
      postings.modify p (AssociationList.modify object [] fun bitset =>
        DynamicBitset.set
          (if bitset.length = 0 then DynamicBitset.resize bitset numBindings else bitset) b)

def buildPostings (numRigid : Nat) (rigidVariableBindings : List (SubstitutionFunction Nat)) :
    List Postings :=
  rigidVariableBindings.zipIdx.foldl (fun postings binding =>
    (List.range numRigid).foldl
      (postParameter rigidVariableBindings.length binding.2 binding.1) postings)
    (List.replicate numRigid [])

structure InvariantMatchData where
  inv : InvariantCandidate
  rigidVariableBindings : List (SubstitutionFunction Nat)
  postings : List Postings
  built : postings = buildPostings inv.numRigidVariables rigidVariableBindings

def InvariantMatchData.create (inv : InvariantCandidate)
    (rigidVariableBindings : List (SubstitutionFunction Nat)) : InvariantMatchData :=
  ⟨inv, rigidVariableBindings, buildPostings inv.numRigidVariables rigidVariableBindings, rfl⟩

/-- `get_object`; it throws on a parameter. -/
def getObject : Term → Option Nat
  | .object object => some object
  | .parameter _ => none

/-- The loop of `intersect_matching_bindings` over the parameters. -/
def intersectLoop (postings : List Postings) (sigma : SubstitutionFunction Term) :
    List Nat → List Bool → Option (Bool × List Bool)
  | [], candidates => some (!DynamicBitset.none candidates, candidates)
  | p :: rest, candidates =>
      match sigma.get p with
      | none => intersectLoop postings sigma rest candidates
      | some value => do
          let object ← getObject value
          match (postings.getD p []).lookup object with
          | none => some (false, DynamicBitset.resetAll candidates)
          | some bitset =>
              let candidates := DynamicBitset.and candidates bitset
              if DynamicBitset.none candidates then some (false, candidates)
              else intersectLoop postings sigma rest candidates

def intersectMatchingBindings (data : InvariantMatchData) (sigma : SubstitutionFunction Term)
    (candidates : List Bool) : Option (Bool × List Bool) :=
  intersectLoop data.postings sigma (List.range data.inv.numRigidVariables)
    (DynamicBitset.setAll (DynamicBitset.resize candidates data.rigidVariableBindings.length))

/-! ### Queries -/

structure QueryMatch where
  invariantIndex : Nat
  bindingIndex : Nat
deriving DecidableEq

structure QueryWorkspace where
  candidates : List Bool
  matched : List Bool

/-- One pattern of an invariant. -/
def queryPattern (data : InvariantMatchData) (atom : Atom) (ws : QueryWorkspace) (pattern : Atom) :
    Option QueryWorkspace :=
  if pattern.predicate ≠ atom.predicate then some ws
  else if pattern.terms.length ≠ atom.terms.length then some ws
  else
    match data.inv.matchInvariantAgainstGroundAtom pattern atom with
    | none => some ws
    | some sigma => do
        let (found, candidates) ← intersectMatchingBindings data sigma ws.candidates
        if found then some ⟨candidates, DynamicBitset.or ws.matched candidates⟩
        else some { ws with candidates := candidates }

/-- One invariant. -/
def queryInvariant (atom : Atom) (state : List QueryMatch × QueryWorkspace)
    (data : InvariantMatchData × Nat) : Option (List QueryMatch × QueryWorkspace) :=
  let (result, ws) := state
  let numBindings := data.1.rigidVariableBindings.length
  if numBindings = 0 then some state
  else do
    let cleared := DynamicBitset.resetAll (DynamicBitset.resize ws.matched numBindings)
    let ws ← data.1.inv.atoms.foldlM (queryPattern data.1 atom) { ws with matched := cleared }
    some (result ++ (DynamicBitset.indices ws.matched).map (⟨data.2, ·⟩), ws)

/-- `Matcher::query`. -/
def query (invariantMatchData : List InvariantMatchData) (atom : Atom) (ws : QueryWorkspace) :
    Option (List QueryMatch × QueryWorkspace) :=
  invariantMatchData.zipIdx.foldlM (queryInvariant atom) ([], ws)

/-! ### The bits of the index -/

/-- The bit of a binding in the bitset of an object. -/
def IsPosted (postings : List Postings) (p object b : Nat) : Prop :=
  ∃ bitset, (postings.getD p []).lookup object = some bitset ∧ DynamicBitset.test bitset b = true

/-- Every bitset has a bit for each binding. -/
structure PostingsSized (numRigid numBindings : Nat) (postings : List Postings) : Prop where
  length_eq : postings.length = numRigid
  bitset_length : ∀ p object bitset, (postings.getD p []).lookup object = some bitset →
    bitset.length = numBindings

section

variable {numRigid numBindings b p q : Nat} {binding : SubstitutionFunction Nat}
  {postings : List Postings}

theorem lookup_postParameter {object other : Nat} (bound : binding.get p = some object)
    (inside : p < postings.length) :
    ((postParameter numBindings b binding postings p).getD q []).lookup other =
      if q = p ∧ other = object then
        let bitset := ((postings.getD p []).lookup object).getD []
        some (DynamicBitset.set
          (if bitset.length = 0 then DynamicBitset.resize bitset numBindings else bitset) b)
      else (postings.getD q []).lookup other := by
  rw [postParameter, bound]
  dsimp only
  rw [List.getD_eq_getElem?_getD, List.getElem?_modify]
  by_cases same : q = p
  · subst same
    rw [List.getD_eq_getElem _ _ inside, List.getElem?_eq_getElem inside]
    simp [AssociationList.lookup_modify]
  · rw [if_neg (fun both => same both.1), List.getD_eq_getElem?_getD]
    simp [Ne.symm same]

theorem sized_postParameter (sized : PostingsSized numRigid numBindings postings) (inside : p < numRigid) :
    PostingsSized numRigid numBindings (postParameter numBindings b binding postings p) := by
  cases bound : binding.get p with
  | none =>
      rw [postParameter, bound]
      exact sized
  | some object =>
      refine ⟨?_, ?_⟩
      · rw [postParameter, bound]
        exact (List.length_modify _ _ _).trans sized.length_eq
      · intro q other bitset found
        rw [lookup_postParameter bound (sized.length_eq.symm ▸ inside)] at found
        by_cases here : q = p ∧ other = object
        · rw [if_pos here, Option.some.injEq] at found
          rw [← found, DynamicBitset.length_set]
          cases old : (postings.getD p []).lookup object with
          | none => simp
          | some bitset' =>
              have length := sized.bitset_length p object bitset' old
              simp only [Option.getD_some]
              split
              · exact DynamicBitset.length_resize _ _
              · exact length
        · rw [if_neg here] at found
          exact sized.bitset_length q other bitset found

theorem isPosted_postParameter (sized : PostingsSized numRigid numBindings postings) (inside : p < numRigid)
    (less : b < numBindings) (q object b' : Nat) :
    IsPosted (postParameter numBindings b binding postings p) q object b' ↔
      IsPosted postings q object b' ∨ (q = p ∧ b' = b ∧ binding.get p = some object) := by
  cases bound : binding.get p with
  | none => simp [postParameter, bound]
  | some value =>
      unfold IsPosted
      rw [lookup_postParameter bound (sized.length_eq.symm ▸ inside)]
      by_cases here : q = p ∧ object = value
      · obtain ⟨rfl, rfl⟩ := here
        simp only [and_self, if_true, Option.some.injEq, exists_eq_left', true_and]
        cases old : (postings.getD q []).lookup object with
        | none =>
            have fresh : b < (List.replicate numBindings false).length := by simpa using less
            simp [DynamicBitset.resize, DynamicBitset.test_set fresh]
        | some bitset =>
            have length := sized.bitset_length q object bitset old
            have nonempty : bitset.length ≠ 0 := by omega
            simp [nonempty, DynamicBitset.test_set (length ▸ less), or_comm]
      · have apart : ¬ (q = p ∧ b' = b ∧ value = object) := fun both => here ⟨both.1, both.2.2.symm⟩
        simp [here, apart]

/-- The parameters of one binding. -/
theorem postBinding_spec (sized : PostingsSized numRigid numBindings postings) (less : b < numBindings) :
    PostingsSized numRigid numBindings
        ((List.range numRigid).foldl (postParameter numBindings b binding) postings) ∧
      ∀ q object b', IsPosted ((List.range numRigid).foldl (postParameter numBindings b binding) postings)
        q object b' ↔
          IsPosted postings q object b' ∨ (q < numRigid ∧ b' = b ∧ binding.get q = some object) := by
  have keeps : ∀ state, PostingsSized numRigid numBindings state → ∀ p ∈ List.range numRigid,
      PostingsSized numRigid numBindings (postParameter numBindings b binding state p) :=
    fun state sized p mem => sized_postParameter sized (List.mem_range.mp mem)
  refine ⟨foldl_invariant keeps sized, fun q object b' => ?_⟩
  rw [foldl_iff (P := PostingsSized numRigid numBindings) (fun state => IsPosted state q object b')
    (fun p => q = p ∧ b' = b ∧ binding.get p = some object) keeps
    (fun state sized p mem => isPosted_postParameter sized (List.mem_range.mp mem) less q object b') sized]
  refine or_congr_right ?_
  constructor
  · rintro ⟨p, mem, rfl, rest⟩
    exact ⟨List.mem_range.mp mem, rest⟩
  · rintro ⟨inside, rest⟩
    exact ⟨q, List.mem_range.mpr inside, rfl, rest⟩

/-- The index after all bindings. -/
theorem buildPostings_spec (numRigid : Nat) (bindings : List (SubstitutionFunction Nat)) :
    PostingsSized numRigid bindings.length (buildPostings numRigid bindings) ∧
      ∀ p object b, IsPosted (buildPostings numRigid bindings) p object b ↔
        p < numRigid ∧ ∃ binding, bindings[b]? = some binding ∧ binding.get p = some object := by
  have start : PostingsSized numRigid bindings.length (List.replicate numRigid []) := by
    refine ⟨List.length_replicate, fun p object bitset found => ?_⟩
    rw [List.getD_eq_getElem?_getD, List.getElem?_replicate] at found
    by_cases inside : p < numRigid
    · simp [inside] at found
    · simp [inside] at found
  have bound : ∀ entry ∈ bindings.zipIdx, entry.2 < bindings.length := fun entry mem =>
    (List.getElem?_eq_some_iff.mp (List.mem_zipIdx_iff_getElem?.mp mem)).1
  have keeps : ∀ state, PostingsSized numRigid bindings.length state → ∀ entry ∈ bindings.zipIdx,
      PostingsSized numRigid bindings.length
        ((List.range numRigid).foldl (postParameter bindings.length entry.2 entry.1) state) :=
    fun state sized entry mem => (postBinding_spec sized (bound entry mem)).1
  refine ⟨foldl_invariant keeps start, fun p object b => ?_⟩
  rw [buildPostings, foldl_iff (P := PostingsSized numRigid bindings.length)
    (fun state => IsPosted state p object b)
    (fun entry => p < numRigid ∧ b = entry.2 ∧ entry.1.get p = some object) keeps
    (fun state sized entry mem => (postBinding_spec sized (bound entry mem)).2 p object b) start]
  constructor
  · rintro (⟨bitset, found, isSet⟩ | ⟨⟨binding, b'⟩, mem, inside, rfl, holds⟩)
    · rw [List.getD_eq_getElem?_getD, List.getElem?_replicate] at found
      by_cases inside : p < numRigid
      · simp [inside] at found
      · simp [inside] at found
    · exact ⟨inside, binding, List.mem_zipIdx_iff_getElem?.mp mem, holds⟩
  · rintro ⟨inside, binding, found, holds⟩
    exact .inr ⟨(binding, b), List.mem_zipIdx_iff_getElem?.mpr found, inside, rfl, holds⟩

end

/-! ### Intersections -/

section

variable {data : InvariantMatchData} {sigma : SubstitutionFunction Term}

/-- The values of the match are objects, and the binding has them for the rigid parameters. -/
def Agrees (numRigid : Nat) (sigma : SubstitutionFunction Term) (binding : SubstitutionFunction Nat) :
    Prop :=
  ∀ p < numRigid, ∀ value, sigma.get p = some value → ∃ object, value = .object object ∧
    binding.get p = some object

/-- The bitset of an object is that of the bindings that have it. -/
theorem test_and_postings (candidates : List Bool) {bitset : List Bool} {p object : Nat}
    (inside : p < data.inv.numRigidVariables)
    (found : (data.postings.getD p []).lookup object = some bitset) (b : Nat) :
    DynamicBitset.test (DynamicBitset.and candidates bitset) b = true ↔
      DynamicBitset.test candidates b = true ∧ ∃ binding, data.rigidVariableBindings[b]? = some binding ∧
        binding.get p = some object := by
  rw [DynamicBitset.test_and]
  refine and_congr_right fun _ => ?_
  have posted := (buildPostings_spec data.inv.numRigidVariables
    data.rigidVariableBindings).2 p object b
  rw [← data.built, and_iff_right inside] at posted
  rw [← posted]
  constructor
  · intro isSet
    exact ⟨bitset, found, isSet⟩
  · rintro ⟨bitset', found', isSet⟩
    rw [found, Option.some.injEq] at found'
    exact found' ▸ isSet

/-- The loop keeps the candidates that have the objects of the match. -/
theorem intersectLoop_spec {ps : List Nat} (within : ∀ p ∈ ps, p < data.inv.numRigidVariables)
    (objects : ∀ p value, sigma.get p = some value → ∃ object, value = .object object)
    {candidates : List Bool} (sized : candidates.length = data.rigidVariableBindings.length) :
    ∃ found bits, intersectLoop data.postings sigma ps candidates = some (found, bits) ∧
      (found = true → bits.length = data.rigidVariableBindings.length) ∧
      ∀ b, found = true ∧ DynamicBitset.test bits b = true ↔
        DynamicBitset.test candidates b = true ∧ ∀ p ∈ ps, ∀ object, sigma.get p = some (.object object) →
          ∃ binding, data.rigidVariableBindings[b]? = some binding ∧ binding.get p = some object := by
  induction ps generalizing candidates with
  | nil =>
      refine ⟨_, _, rfl, fun _ => sized, fun b => ?_⟩
      simp only [List.not_mem_nil, false_implies, implies_true, and_true]
      refine and_iff_right_of_imp fun isSet => ?_
      rw [Bool.not_eq_true', ← Bool.not_eq_true, DynamicBitset.none_iff]
      intro empty
      rw [empty b] at isSet
      cases isSet
  | cons p rest ih =>
      have inside := within p List.mem_cons_self
      have withinRest := fun q mem => within q (List.mem_cons_of_mem p mem)
      simp only [List.forall_mem_cons]
      rw [intersectLoop]
      cases bound : sigma.get p with
      | none =>
          obtain ⟨found, bits, loop, length, spec⟩ := ih withinRest sized
          exact ⟨found, bits, loop, length, by simpa using spec⟩
      | some value =>
          obtain ⟨object, rfl⟩ := objects p value bound
          simp only [getObject, Option.bind_eq_bind, Option.bind_some, Option.some.injEq, Term.object.injEq,
            forall_eq']
          cases listed : (data.postings.getD p []).lookup object with
          | none =>
              refine ⟨_, _, rfl, nofun, fun b => ?_⟩
              refine iff_of_false (fun both => Bool.false_ne_true both.1) ?_
              rintro ⟨_, ⟨binding, position, holds⟩, _⟩
              have posted := ((buildPostings_spec data.inv.numRigidVariables
                data.rigidVariableBindings).2 p object b).mpr ⟨inside, binding, position, holds⟩
              obtain ⟨bitset, listed', _⟩ := posted
              rw [← data.built, listed] at listed'
              cases listed'
          | some bitset =>
              have next := test_and_postings candidates inside listed
              have length : bitset.length = data.rigidVariableBindings.length := by
                rw [data.built] at listed
                exact (buildPostings_spec _ _).1.bitset_length p object bitset listed
              dsimp only
              by_cases empty : DynamicBitset.none (DynamicBitset.and candidates bitset) = true
              · rw [if_pos empty]
                refine ⟨_, _, rfl, nofun, fun b => ?_⟩
                refine iff_of_false (fun both => Bool.false_ne_true both.1) ?_
                rintro ⟨isSet, holds, _⟩
                have isSet := (next b).mpr ⟨isSet, holds⟩
                rw [DynamicBitset.none_iff.mp empty b] at isSet
                cases isSet
              · rw [if_neg empty]
                obtain ⟨found, bits, loop, lengthBits, spec⟩ :=
                  ih withinRest (DynamicBitset.length_and sized length)
                refine ⟨found, bits, loop, lengthBits, fun b => ?_⟩
                rw [spec, next, and_assoc]

/-- The bindings that agree with the match, whatever the candidates were before. -/
theorem intersectMatchingBindings_spec (data : InvariantMatchData) (candidates : List Bool)
    (objects : ∀ p value, sigma.get p = some value → ∃ object, value = .object object) :
    ∃ found bits, intersectMatchingBindings data sigma candidates = some (found, bits) ∧
      (found = true → bits.length = data.rigidVariableBindings.length) ∧
      ∀ b, found = true ∧ DynamicBitset.test bits b = true ↔
        ∃ binding, data.rigidVariableBindings[b]? = some binding ∧
          Agrees data.inv.numRigidVariables sigma binding := by
  have all := DynamicBitset.setAll_resize candidates data.rigidVariableBindings.length
  have within : ∀ p ∈ List.range data.inv.numRigidVariables, p < data.inv.numRigidVariables :=
    fun p mem => List.mem_range.mp mem
  have sized : (List.replicate data.rigidVariableBindings.length true).length =
      data.rigidVariableBindings.length := List.length_replicate
  obtain ⟨found, bits, loop, length, spec⟩ := intersectLoop_spec within objects sized
  refine ⟨found, bits, by rw [intersectMatchingBindings, all, loop], length, fun b => ?_⟩
  rw [spec, DynamicBitset.test_replicate]
  constructor
  · rintro ⟨less, agrees⟩
    refine ⟨data.rigidVariableBindings[b], List.getElem?_eq_getElem less, ?_⟩
    intro p inside value bound
    obtain ⟨object, rfl⟩ := objects p value bound
    obtain ⟨binding, position, holds⟩ := agrees p (List.mem_range.mpr inside) object bound
    rw [List.getElem?_eq_getElem less, Option.some.injEq] at position
    exact ⟨object, rfl, position ▸ holds⟩
  · rintro ⟨binding, position, agrees⟩
    refine ⟨(List.getElem?_eq_some_iff.mp position).1, ?_⟩
    intro p mem object bound
    obtain ⟨object', same, holds⟩ := agrees p (List.mem_range.mp mem) _ bound
    cases same
    exact ⟨binding, position, holds⟩

end

/-! ### Patterns -/

section

variable {inv : InvariantCandidate} {pattern : Atom} {atom : Tuple}

/-- A substitution with an object for each parameter of the invariant. -/
theorem exists_values (inv : InvariantCandidate) (value : Nat → Nat) :
    ∃ rho : SubstitutionFunction Term,
      rho.Extends (.fromRange 0 (inv.numRigidVariables + inv.numCountedVariables)) ∧
      (∀ p < inv.numRigidVariables + inv.numCountedVariables, rho.get p = some (.object (value p))) ∧
      applyOnceTerm rho = inv.replaceTerm value := by
  let n := inv.numRigidVariables + inv.numCountedVariables
  have free : ∀ p, (SubstitutionFunction.fromRange 0 n : SubstitutionFunction Term).get p = none :=
    fun p => SubstitutionFunction.get_unbound p
  obtain ⟨rho, _, domain, bound, _⟩ : ∃ rho : SubstitutionFunction Term,
      (List.range n).foldlM (fun result p => (result.assign p (.object (value p))).map Prod.snd)
        (.fromRange 0 n) = some rho ∧
      rho.parameters = (SubstitutionFunction.fromRange 0 n : SubstitutionFunction Term).parameters ∧
      (∀ p < n, rho.get (id p) = some (.object (value p))) ∧
      ∀ p, (∀ i < n, id i ≠ p) →
        rho.get p = (SubstitutionFunction.fromRange 0 n : SubstitutionFunction Term).get p :=
    SubstitutionFunction.foldlM_assign
    (fun _ _ none => nomatch none) (fun _ _ _ same _ => by cases same; rfl)
    (fun p less _ _ => SubstitutionFunction.mem_parameters_fromRange.mpr less)
    (fun _ _ _ _ same => same) (fun p _ => free p)
  refine ⟨rho, ⟨domain, fun p _ isBound => ?_⟩, bound, funext fun term => ?_⟩
  · rw [free p] at isBound
    cases isBound
  · cases term with
    | object object => rfl
    | parameter p =>
        rw [applyOnceTerm, InvariantCandidate.replaceTerm]
        by_cases less : p < n
        · have isBound : rho.get p = some (.object (value p)) := bound p less
          rw [isBound, if_pos less]
        · rw [if_neg less]
          cases isBound : rho.get p with
          | none => rfl
          | some value =>
              have inside := SubstitutionFunction.mem_parameters_of_get isBound
              rw [domain] at inside
              exact absurd (SubstitutionFunction.mem_parameters_fromRange.mp inside) less

theorem isGround_groundAtom (atom : Tuple) : IsGround (Invariant.groundAtom atom) := by
  intro term mem
  obtain ⟨object, _, same⟩ := List.mem_map.mp mem
  exact ⟨object, same.symm⟩

/-- What a match has found: every parameter that it binds is an object. -/
theorem matchInvariant_spec {sigma : SubstitutionFunction Term}
    (isMatch : inv.matchInvariantAgainstGroundAtom pattern (Invariant.groundAtom atom) = some sigma) :
    applySubstitutionOnce sigma pattern = Invariant.groundAtom atom ∧
      ∀ p value, sigma.get p = some value →
        p < inv.numRigidVariables + inv.numCountedVariables ∧ ∃ object, value = .object object := by
  obtain ⟨shape, solved⟩ := (matchStructure_decides pattern (isGround_groundAtom atom) _).1 sigma isMatch
  obtain ⟨ext, solves⟩ := (solved.extends_iff sigma).mp (.refl sigma)
  refine ⟨applySubstitutionOnce_eq_iff.mpr ⟨shape, solves⟩, fun p value bound => ⟨?_, ?_⟩⟩
  · have inside := SubstitutionFunction.mem_parameters_of_get bound
    rw [ext.parameters_eq] at inside
    exact SubstitutionFunction.mem_parameters_fromRange.mp inside
  · obtain ⟨pair, mem, occurs⟩ := solved.fresh p (SubstitutionFunction.get_unbound p) (by simp [bound])
    obtain ⟨object, isObject⟩ := isGround_groundAtom atom pair.2 (List.of_mem_zip mem).2
    have same := solves pair mem
    rw [occurs, isObject, applyOnceTerm_eq_object, bound, Option.some.injEq] at same
    exact ⟨object, same⟩

/-- A pattern covers an atom iff it matches, and the binding agrees with the match. -/
theorem matchInvariant_iff {binding : SubstitutionFunction Nat}
    (full : ∀ p < inv.numRigidVariables, binding.isBound p = true) :
    inv.PatternCovers pattern binding atom ↔ ∃ sigma,
      inv.matchInvariantAgainstGroundAtom pattern (Invariant.groundAtom atom) = some sigma ∧
        Agrees inv.numRigidVariables sigma binding := by
  constructor
  · rintro ⟨value, rigid, same⟩
    obtain ⟨rho, ext, bound, applied⟩ := exists_values inv value
    have solution : applySubstitutionOnce rho pattern = Invariant.groundAtom atom := by
      rw [applySubstitutionOnce, applied, same]
    obtain ⟨shape, solves⟩ := applySubstitutionOnce_eq_iff.mp solution
    have decides := matchStructure_decides pattern (isGround_groundAtom atom)
      (.fromRange 0 (inv.numRigidVariables + inv.numCountedVariables))
    cases isMatch : inv.matchInvariantAgainstGroundAtom pattern (Invariant.groundAtom atom) with
    | none => exact absurd solves (decides.2 isMatch shape rho ext)
    | some sigma =>
        refine ⟨sigma, rfl, fun p less value' isBound => ⟨value p, ?_, rigid p less⟩⟩
        have extends' := ((decides.1 sigma isMatch).2.extends_iff rho).mpr ⟨ext, solves⟩
        have same := extends'.keeps p value' isBound
        rw [bound p (Nat.lt_add_right _ less), Option.some.injEq] at same
        exact same.symm
  · rintro ⟨sigma, isMatch, agrees⟩
    obtain ⟨applied, objects⟩ := matchInvariant_spec isMatch
    -- The rigid parameters have the objects of the binding, the counted ones those of the match.
    let value : Nat → Nat := fun p =>
      if p < inv.numRigidVariables then (binding.get p).getD 0
      else (((sigma.get p).bind getObject).getD 0)
    refine ⟨value, fun p less => ?_, ?_⟩
    · obtain ⟨object, isBound⟩ := SubstitutionFunction.isBound_iff.mp (full p less)
      simp [value, less, isBound]
    · rw [← applied]
      refine transform_congr_iff.mpr fun term mem => ?_
      cases term with
      | object object => rfl
      | parameter p =>
          rw [applyOnceTerm, InvariantCandidate.replaceTerm]
          cases isBound : sigma.get p with
          | none =>
              have inTarget : applyOnceTerm sigma (.parameter p) ∈ terms (Invariant.groundAtom atom) := by
                rw [← applied, applySubstitutionOnce, terms_transform]
                exact List.mem_map_of_mem mem
              obtain ⟨object, same⟩ := isGround_groundAtom atom _ inTarget
              rw [applyOnceTerm_eq_object, isBound] at same
              cases same
          | some term =>
              obtain ⟨inside, object, rfl⟩ := objects p term isBound
              rw [if_pos inside]
              by_cases rigid : p < inv.numRigidVariables
              · obtain ⟨object', same, holds⟩ := agrees p rigid _ isBound
                cases same
                simp [value, rigid, holds]
              · simp [value, rigid, isBound, getObject]

end

/-! ### The result of a query -/

/-- The rigid parameters are bound in every binding. -/
def InvariantMatchData.FullyBound (data : InvariantMatchData) : Prop :=
  ∀ binding ∈ data.rigidVariableBindings, ∀ p < data.inv.numRigidVariables, binding.isBound p = true

/-- Some of the patterns cover the atom, under the binding of that number. -/
def CoveredBy (data : InvariantMatchData) (patterns : List Atom) (atom : Tuple) (b : Nat) : Prop :=
  ∃ binding, data.rigidVariableBindings[b]? = some binding ∧
    ∃ pattern ∈ patterns, data.inv.PatternCovers pattern binding atom

section

variable {data : InvariantMatchData} {atom : Tuple}

/-- One pattern adds the bindings under which it covers the atom. -/
theorem queryPattern_spec (atom : Tuple) (full : data.FullyBound) (pattern : Atom) {ws : QueryWorkspace}
    (sized : ws.matched.length = data.rigidVariableBindings.length) :
    ∃ ws', queryPattern data (Invariant.groundAtom atom) ws pattern = some ws' ∧
      ws'.matched.length = data.rigidVariableBindings.length ∧
      ∀ b, DynamicBitset.test ws'.matched b = true ↔
        DynamicBitset.test ws.matched b = true ∨ CoveredBy data [pattern] atom b := by
  have covered : ∀ b, CoveredBy data [pattern] atom b ↔ ∃ binding,
      data.rigidVariableBindings[b]? = some binding ∧ ∃ sigma,
        data.inv.matchInvariantAgainstGroundAtom pattern (Invariant.groundAtom atom) = some sigma ∧
          Agrees data.inv.numRigidVariables sigma binding := by
    intro b
    refine exists_congr fun binding => and_congr_right fun position => ?_
    rw [← matchInvariant_iff (full binding (List.mem_of_getElem? position))]
    simp
  have unmatched : data.inv.matchInvariantAgainstGroundAtom pattern (Invariant.groundAtom atom) = none →
      ∀ b, ¬ CoveredBy data [pattern] atom b := by
    intro none b isCovered
    obtain ⟨_, _, sigma, isMatch, _⟩ := (covered b).mp isCovered
    rw [none] at isMatch
    cases isMatch
  have other : ¬ SameShape pattern (Invariant.groundAtom atom) →
      ∀ b, ¬ CoveredBy data [pattern] atom b := by
    intro different
    refine unmatched (Option.eq_none_iff_forall_ne_some.mpr fun sigma isMatch => ?_)
    exact different (matchStructure_eq_some isMatch)
  unfold queryPattern
  by_cases predicate : pattern.predicate ≠ (Invariant.groundAtom atom).predicate
  · rw [if_pos predicate]
    exact ⟨ws, rfl, sized, fun b => (or_iff_left (other (fun shape => predicate shape.1) b)).symm⟩
  · rw [if_neg predicate]
    by_cases length : pattern.terms.length ≠ (Invariant.groundAtom atom).terms.length
    · rw [if_pos length]
      exact ⟨ws, rfl, sized, fun b => (or_iff_left (other (fun shape => length shape.2) b)).symm⟩
    · rw [if_neg length]
      cases isMatch : data.inv.matchInvariantAgainstGroundAtom pattern (Invariant.groundAtom atom) with
      | none => exact ⟨ws, rfl, sized, fun b => (or_iff_left (unmatched isMatch b)).symm⟩
      | some sigma =>
          obtain ⟨found, bits, intersected, lengthBits, spec⟩ := intersectMatchingBindings_spec
            data ws.candidates fun p value bound => ((matchInvariant_spec isMatch).2 p value bound).2
          have agree : ∀ b, CoveredBy data [pattern] atom b ↔
              found = true ∧ DynamicBitset.test bits b = true := by
            intro b
            rw [covered, spec]
            simp [isMatch]
          simp only [intersected, Option.bind_eq_bind, Option.bind_some]
          cases found with
          | true =>
              have lengthBits := lengthBits rfl
              refine ⟨_, rfl, DynamicBitset.length_or sized lengthBits, fun b => ?_⟩
              rw [DynamicBitset.test_or (sized.trans lengthBits.symm), agree]
              simp
          | false =>
              refine ⟨_, rfl, sized, fun b => ?_⟩
              rw [agree]
              simp

theorem queryPatterns_spec (atom : Tuple) (full : data.FullyBound) (patterns : List Atom) {ws : QueryWorkspace}
    (sized : ws.matched.length = data.rigidVariableBindings.length) :
    ∃ ws', patterns.foldlM (queryPattern data (Invariant.groundAtom atom)) ws = some ws' ∧
      ws'.matched.length = data.rigidVariableBindings.length ∧
      ∀ b, DynamicBitset.test ws'.matched b = true ↔
        DynamicBitset.test ws.matched b = true ∨ CoveredBy data patterns atom b := by
  induction patterns generalizing ws with
  | nil => exact ⟨ws, rfl, sized, fun b => by simp [CoveredBy]⟩
  | cons pattern rest ih =>
      obtain ⟨ws', first, sized', bits⟩ := queryPattern_spec atom full pattern sized
      obtain ⟨ws'', later, sized'', bits'⟩ := ih sized'
      refine ⟨ws'', by rw [List.foldlM_cons, first]; exact later, sized'', fun b => ?_⟩
      rw [bits', bits, or_assoc]
      refine or_congr_right ?_
      simp only [CoveredBy, List.mem_cons, List.not_mem_nil, or_false, exists_eq_left,
        exists_eq_or_imp, ← exists_or, ← and_or_left]

open Classical in
/-- The instances whose patterns cover the atom, one test after another. -/
noncomputable def naiveQuery (invariantMatchData : List InvariantMatchData) (atom : Tuple) :
    List QueryMatch :=
  invariantMatchData.zipIdx.flatMap fun data =>
    ((List.range data.1.rigidVariableBindings.length).filter fun b =>
      decide (CoveredBy data.1 data.1.inv.atoms atom b)).map (⟨data.2, ·⟩)

open Classical in
/-- One invariant, whatever the workspace has held. -/
theorem queryInvariant_spec (atom : Tuple) (full : data.FullyBound) (index : Nat) (result : List QueryMatch)
    (ws : QueryWorkspace) :
    ∃ ws', queryInvariant (Invariant.groundAtom atom) (result, ws) (data, index) =
      some (result ++ ((List.range data.rigidVariableBindings.length).filter fun b =>
        decide (CoveredBy data data.inv.atoms atom b)).map (⟨index, ·⟩), ws') := by
  by_cases empty : data.rigidVariableBindings.length = 0
  · exact ⟨ws, by simp [queryInvariant, empty]⟩
  · have cleared := DynamicBitset.resetAll_resize ws.matched data.rigidVariableBindings.length
    have start : ({ ws with matched := List.replicate data.rigidVariableBindings.length false } :
        QueryWorkspace).matched.length = data.rigidVariableBindings.length := List.length_replicate
    obtain ⟨ws', loop, sized, bits⟩ := queryPatterns_spec atom full data.inv.atoms start
    have indices := DynamicBitset.indices_eq (P := CoveredBy data data.inv.atoms atom) sized
      fun b _ => by simpa using bits b
    refine ⟨ws', ?_⟩
    simp only [queryInvariant, if_neg empty, cleared, loop, Option.bind_eq_bind, Option.bind_some, indices]

open Classical in
theorem queryLoop_spec (entries : List (InvariantMatchData × Nat))
    (full : ∀ entry ∈ entries, entry.1.FullyBound) (result : List QueryMatch) (ws : QueryWorkspace) :
    ∃ ws', entries.foldlM (queryInvariant (Invariant.groundAtom atom)) (result, ws) =
      some (result ++ entries.flatMap fun data =>
        ((List.range data.1.rigidVariableBindings.length).filter fun b =>
          decide (CoveredBy data.1 data.1.inv.atoms atom b)).map (⟨data.2, ·⟩), ws') := by
  induction entries generalizing result ws with
  | nil => exact ⟨ws, by simp⟩
  | cons entry rest ih =>
      obtain ⟨ws', first⟩ := queryInvariant_spec atom (full entry List.mem_cons_self) entry.2
        result ws
      obtain ⟨ws'', later⟩ := ih (fun other mem => full other (List.mem_cons_of_mem _ mem)) _ ws'
      refine ⟨ws'', ?_⟩
      rw [List.foldlM_cons, first, List.flatMap_cons, ← List.append_assoc]
      exact later

theorem mem_naiveQuery {invariantMatchData : List InvariantMatchData} {i b : Nat} :
    ⟨i, b⟩ ∈ naiveQuery invariantMatchData atom ↔ ∃ data binding, invariantMatchData[i]? = some data ∧
      data.rigidVariableBindings[b]? = some binding ∧ data.inv.Covers binding atom := by
  simp only [naiveQuery, List.mem_flatMap, List.mem_map, List.mem_filter, decide_eq_true_eq]
  constructor
  · rintro ⟨⟨data, _⟩, mem, _, ⟨_, binding, position, covers⟩, same⟩
    cases same
    exact ⟨data, binding, List.mem_zipIdx_iff_getElem?.mp mem, position, covers⟩
  · rintro ⟨data, binding, found, position, covers⟩
    have less := (List.getElem?_eq_some_iff.mp position).1
    exact ⟨(data, i), List.mem_zipIdx_iff_getElem?.mpr found, b,
      ⟨List.mem_range.mpr less, binding, position, covers⟩, rfl⟩

theorem nodup_naiveQuery (invariantMatchData : List InvariantMatchData) :
    (naiveQuery invariantMatchData atom).Nodup := by
  have indices : (invariantMatchData.zipIdx.map Prod.snd).Nodup := by
    rw [List.zipIdx_map_snd]
    exact List.nodup_range'
  refine nodup_flatMap_of_unique (indices.of_map _) ?_ ?_
  · intro data _
    exact (List.nodup_range.filter _).map fun b b' same => by simpa using same
  · rintro ⟨data, i⟩ mem ⟨data', i'⟩ mem' result inFirst inSecond
    obtain ⟨b, _, rfl⟩ := List.mem_map.mp inFirst
    obtain ⟨b', _, same⟩ := List.mem_map.mp inSecond
    cases same
    have found := List.mem_zipIdx_iff_getElem?.mp mem
    rw [List.mem_zipIdx_iff_getElem?.mp mem', Option.some.injEq] at found
    exact Prod.ext found.symm rfl

end

/-- A query lists every instance that covers the atom once, and nothing else. What the
workspace has held before is irrelevant. -/
theorem query_eq (invariantMatchData : List InvariantMatchData)
    (full : ∀ data ∈ invariantMatchData, data.FullyBound) (atom : Tuple) :
    ∃ result, (∀ ws, ∃ ws', query invariantMatchData (Invariant.groundAtom atom) ws = some (result, ws')) ∧
      result.Nodup ∧
      ∀ i b, ⟨i, b⟩ ∈ result ↔ ∃ data binding, invariantMatchData[i]? = some data ∧
        data.rigidVariableBindings[b]? = some binding ∧ data.inv.Covers binding atom := by
  refine ⟨naiveQuery invariantMatchData atom, fun ws => ?_, nodup_naiveQuery _, fun _ _ => mem_naiveQuery⟩
  exact queryLoop_spec invariantMatchData.zipIdx
    (fun entry mem => full entry.1 (List.fst_mem_of_mem_zipIdx mem)) [] ws

/-! ### Well-formed invariants -/

/-- `at(x0, x1)` and `carrying(x1)`, for one object with the counted place. -/
def carryData : InvariantMatchData :=
  .create ⟨1, 1, [⟨0, [.parameter 0, .parameter 1]⟩, ⟨1, [.parameter 0]⟩]⟩
    [(SubstitutionFunction.fromRange 0 1).bind 0 7, (SubstitutionFunction.fromRange 0 1).bind 0 8]

theorem query_carryData :
    (query [carryData] (Invariant.groundAtom ⟨0, [8, 3]⟩) ⟨[true], []⟩).map Prod.fst = some [⟨0, 1⟩] ∧
      ∃ result, (∀ ws, ∃ ws',
        query [carryData] (Invariant.groundAtom ⟨0, [8, 3]⟩) ws = some (result, ws')) ∧ result.Nodup ∧
        ∀ i b, ⟨i, b⟩ ∈ result ↔ ∃ data binding, [carryData][i]? = some data ∧
          data.rigidVariableBindings[b]? = some binding ∧ data.inv.Covers binding ⟨0, [8, 3]⟩ := by
  refine ⟨by decide, query_eq [carryData] ?_ ⟨0, [8, 3]⟩⟩
  intro data isData binding mem p less
  cases List.mem_singleton.mp isData
  have zero : p = 0 := Nat.lt_one_iff.mp less
  subst zero
  rcases List.mem_cons.mp mem with rfl | mem
  · decide
  · cases List.mem_singleton.mp mem
    decide

end Tyr.Formalism.Planning
