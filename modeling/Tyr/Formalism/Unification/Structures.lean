import Mathlib.Data.List.Forall2
import Tyr.Formalism.Unification.Matching

/-!
Structures of terms.

Matching and applying are generic: a structure has a walk over the terms of two
structures, `zipTerms`, and a map on the terms, `transformTerms`. The laws say
that both of them see the same terms, in one order, and nothing else.

* `StructureTraits` — the operations and their laws, for terms, lists, atoms and literals.
* `matchEx`, `matchStructure` — match two structures under the default policy.
* `applySubstitutionOnce`, `applyFixpoint` — apply a substitution to a structure.
-/

namespace Tyr.Formalism.Unification

/-- A step on each pair of terms, until one fails. -/
def zipPairs {σ : Type} (f : Term → Term → σ → Option σ) (pairs : List (Term × Term)) (state : σ) :
    Option σ :=
  pairs.foldlM (fun state pair => f pair.1 pair.2 state) state

/-- What matching and applying need to know of the operations of a structure. -/
structure TraitLaws {S : Type}
    (zipTerms : {σ : Type} → (Term → Term → σ → Option σ) → S → S → σ → Option σ)
    (transformTerms : (Term → Term) → S → S) (terms : S → List Term) (SameShape : S → S → Prop) :
    Prop where
  length_terms : ∀ {x y}, SameShape x y → (terms x).length = (terms y).length
  zip_eq_some : ∀ {σ : Type} {f : Term → Term → σ → Option σ} {x y state next},
    zipTerms f x y state = some next ↔
      SameShape x y ∧ zipPairs f ((terms x).zip (terms y)) state = some next
  transform_eq : ∀ {f x y}, transformTerms f x = y ↔ SameShape x y ∧ (terms x).map f = terms y
  transform_transform : ∀ f g x, transformTerms g (transformTerms f x) = transformTerms (g ∘ f) x

/-- `structure_traits`, with the terms that the operations see. -/
class StructureTraits (S : Type) where
  zipTerms : {σ : Type} → (Term → Term → σ → Option σ) → S → S → σ → Option σ
  transformTerms : (Term → Term) → S → S
  terms : S → List Term
  SameShape : S → S → Prop
  laws : TraitLaws zipTerms transformTerms terms SameShape

open StructureTraits

/-! ### Terms -/

theorem traitLaws_term : TraitLaws (fun f lhs rhs => f lhs rhs) (fun f term => f term)
    (fun term => [term]) (fun _ _ => True) where
  length_terms _ := rfl
  zip_eq_some := by simp [zipPairs]
  transform_eq := by simp
  transform_transform _ _ _ := rfl

instance : StructureTraits Term where
  zipTerms f lhs rhs := f lhs rhs
  transformTerms f term := f term
  terms term := [term]
  SameShape _ _ := True
  laws := traitLaws_term

/-! ### Lists -/

section

variable {S : Type} [StructureTraits S]

/-- The lists have the same length, and their elements match one after another. -/
def zipList {σ : Type} (f : Term → Term → σ → Option σ) (lhs rhs : List S) (state : σ) : Option σ :=
  if lhs.length ≠ rhs.length then none
  else (lhs.zip rhs).foldlM (fun state pair => zipTerms f pair.1 pair.2 state) state

theorem zipList_cons {σ : Type} {f : Term → Term → σ → Option σ} {x y : S} {xs ys : List S}
    {state : σ} : zipList f (x :: xs) (y :: ys) state = (zipTerms f x y state).bind (zipList f xs ys) := by
  unfold zipList
  by_cases same : xs.length = ys.length
  · simp [same]
  · simp [same]

theorem zipList_eq_some {σ : Type} {f : Term → Term → σ → Option σ} {xs ys : List S}
    {state next : σ} : zipList f xs ys state = some next ↔ List.Forall₂ SameShape xs ys ∧
      zipPairs f ((xs.flatMap terms).zip (ys.flatMap terms)) state = some next := by
  induction xs generalizing ys state with
  | nil =>
      cases ys with
      | nil => simp [zipList, zipPairs]
      | cons y ys => simp [zipList]
  | cons x xs ih =>
      cases ys with
      | nil => simp [zipList]
      | cons y ys =>
          rw [zipList_cons, Option.bind_eq_some_iff, List.forall₂_cons, and_assoc]
          simp only [laws.zip_eq_some, ih]
          constructor
          · rintro ⟨mid, ⟨shape, first⟩, shapes, rest⟩
            refine ⟨shape, shapes, ?_⟩
            rw [List.flatMap_cons, List.flatMap_cons, List.zip_append (laws.length_terms shape),
              zipPairs, List.foldlM_append, ← zipPairs, first]
            exact rest
          · rintro ⟨shape, shapes, walk⟩
            rw [List.flatMap_cons, List.flatMap_cons, List.zip_append (laws.length_terms shape),
              zipPairs, List.foldlM_append] at walk
            obtain ⟨mid, first, rest⟩ := Option.bind_eq_some_iff.mp walk
            exact ⟨mid, ⟨shape, first⟩, shapes, rest⟩

theorem transformList_eq {f : Term → Term} {xs ys : List S} :
    xs.map (transformTerms f) = ys ↔
      List.Forall₂ SameShape xs ys ∧ (xs.flatMap terms).map f = ys.flatMap terms := by
  induction xs generalizing ys with
  | nil => cases ys <;> simp
  | cons x xs ih =>
      cases ys with
      | nil => simp
      | cons y ys =>
          rw [List.map_cons, List.cons.injEq, laws.transform_eq, ih, List.forall₂_cons,
            List.flatMap_cons, List.flatMap_cons, List.map_append]
          constructor
          · rintro ⟨⟨shape, first⟩, shapes, rest⟩
            exact ⟨⟨shape, shapes⟩, by rw [first, rest]⟩
          · rintro ⟨⟨shape, shapes⟩, all⟩
            have sized : ((terms x).map f).length = (terms y).length := by
              rw [List.length_map, laws.length_terms shape]
            obtain ⟨first, rest⟩ := List.append_inj all sized
            exact ⟨⟨shape, first⟩, shapes, rest⟩

theorem length_flatMap_terms {xs ys : List S} (shapes : List.Forall₂ SameShape xs ys) :
    (xs.flatMap terms).length = (ys.flatMap terms).length := by
  induction shapes with
  | nil => rfl
  | cons shape _ ih =>
      rw [List.flatMap_cons, List.flatMap_cons, List.length_append, List.length_append, ih,
        laws.length_terms shape]

theorem traitLaws_list : TraitLaws (S := List S) zipList (fun f => List.map (transformTerms f))
    (fun xs => xs.flatMap terms) (List.Forall₂ SameShape) where
  length_terms := length_flatMap_terms
  zip_eq_some := zipList_eq_some
  transform_eq := transformList_eq
  transform_transform f g xs := by
    rw [List.map_map]
    exact List.map_congr_left fun x _ => laws.transform_transform f g x

instance : StructureTraits (List S) where
  zipTerms := zipList
  transformTerms f := List.map (transformTerms f)
  terms xs := xs.flatMap terms
  SameShape := List.Forall₂ SameShape
  laws := traitLaws_list

end

@[simp] theorem terms_list_term (ts : List Term) : terms ts = ts := List.flatMap_singleton' ts

theorem sameShape_list_term {lhs rhs : List Term} :
    SameShape lhs rhs ↔ lhs.length = rhs.length := by
  constructor
  · exact List.Forall₂.length_eq
  · intro sized
    exact List.forall₂_iff_zip.mpr ⟨sized, fun _ => trivial⟩

/-! ### Atoms and literals -/

def zipAtom {σ : Type} (f : Term → Term → σ → Option σ) (lhs rhs : Atom) (state : σ) : Option σ :=
  if lhs.predicate ≠ rhs.predicate then none
  else if lhs.terms.length ≠ rhs.terms.length then none
  else zipTerms f lhs.terms rhs.terms state

theorem traitLaws_atom : TraitLaws zipAtom (fun f atom => ⟨atom.predicate, transformTerms f atom.terms⟩)
    Atom.terms (fun lhs rhs => lhs.predicate = rhs.predicate ∧ lhs.terms.length = rhs.terms.length) where
  length_terms shape := shape.2
  zip_eq_some := by
    intro σ f x y state next
    have list : zipTerms f x.terms y.terms state = some next ↔ SameShape x.terms y.terms ∧
        zipPairs f ((terms x.terms).zip (terms y.terms)) state = some next := laws.zip_eq_some
    rw [sameShape_list_term, terms_list_term, terms_list_term] at list
    unfold zipAtom
    by_cases predicate : x.predicate = y.predicate
    · by_cases sized : x.terms.length = y.terms.length
      · simp [predicate, sized, list]
      · simp [sized]
    · simp [predicate]
  transform_eq := by
    intro f x y
    have list := laws.transform_eq (S := List Term) (f := f) (x := x.terms) (y := y.terms)
    rw [sameShape_list_term, terms_list_term, terms_list_term] at list
    cases y
    rw [Atom.mk.injEq, list, and_assoc]
  transform_transform f g atom := by
    rw [laws.transform_transform]

instance : StructureTraits Atom where
  zipTerms := zipAtom
  transformTerms f atom := ⟨atom.predicate, transformTerms f atom.terms⟩
  terms := Atom.terms
  SameShape lhs rhs := lhs.predicate = rhs.predicate ∧ lhs.terms.length = rhs.terms.length
  laws := traitLaws_atom

def zipLiteral {σ : Type} (f : Term → Term → σ → Option σ) (lhs rhs : Literal) (state : σ) :
    Option σ :=
  if lhs.polarity ≠ rhs.polarity then none else zipTerms f lhs.atom rhs.atom state

theorem traitLaws_literal : TraitLaws zipLiteral
    (fun f literal => ⟨transformTerms f literal.atom, literal.polarity⟩)
    (fun literal => literal.atom.terms)
    (fun lhs rhs => lhs.polarity = rhs.polarity ∧ SameShape lhs.atom rhs.atom) where
  length_terms shape := shape.2.2
  zip_eq_some := by
    intro σ f x y state next
    unfold zipLiteral
    by_cases polarity : x.polarity = y.polarity
    · simp only [polarity, ne_eq, not_true_eq_false, if_false, true_and]
      exact laws.zip_eq_some
    · simp [polarity]
  transform_eq := by
    intro f x y
    cases y
    rw [Literal.mk.injEq, laws.transform_eq, and_comm, and_assoc]
    rfl
  transform_transform f g literal := by
    rw [laws.transform_transform]

instance : StructureTraits Literal where
  zipTerms := zipLiteral
  transformTerms f literal := ⟨transformTerms f literal.atom, literal.polarity⟩
  terms literal := literal.atom.terms
  SameShape lhs rhs := lhs.polarity = rhs.polarity ∧ SameShape lhs.atom rhs.atom
  laws := traitLaws_literal

/-! ### The operations -/

section

variable {S : Type} [StructureTraits S]

inductive MatchFailure where
  | none
  | structureMismatch
deriving DecidableEq, Repr

structure MatchResult where
  state : Option MatchState
  failure : MatchFailure

/-- `match_ex`. -/
def matchEx (pattern element : S) (state : MatchState) : MatchResult :=
  match zipTerms matchTerm pattern element state with
  | none => ⟨none, .structureMismatch⟩
  | some next => ⟨some next, .none⟩

/-- `match`, with a substitution only. -/
def matchStructure (pattern element : S) (sigma : SubstitutionFunction Term) :
    Option (SubstitutionFunction Term) :=
  (matchEx pattern element ⟨sigma, SubstitutionFunction.fromRange 0 0⟩).state.map MatchState.sigma

def applyOnceTerm (rho : SubstitutionFunction Term) : Term → Term
  | .object object => .object object
  | .parameter p =>
      match rho.get p with
      | none => .parameter p
      | some value => value

def applySubstitutionOnce (rho : SubstitutionFunction Term) (value : S) : S :=
  transformTerms (applyOnceTerm rho) value

/-- `apply_substitution_fixpoint` of a structure. -/
def applyFixpoint (rho : SubstitutionFunction Term) (value : S) : S :=
  transformTerms (applySubstitutionFixpoint rho) value

/-- The structure has no parameters. -/
def IsGround (value : S) : Prop := ∀ term ∈ terms value, ∃ object, term = .object object

theorem terms_transform (f : Term → Term) (value : S) :
    terms (transformTerms f value) = (terms value).map f :=
  ((laws.transform_eq (y := transformTerms f value)).mp rfl).2.symm

theorem transform_congr_iff {f g : Term → Term} {value : S} :
    transformTerms f value = transformTerms g value ↔ ∀ term ∈ terms value, f term = g term := by
  obtain ⟨shape, same⟩ := (laws.transform_eq (f := g) (y := transformTerms g value)).mp rfl
  rw [laws.transform_eq, ← same, List.map_inj_left]
  exact and_iff_right shape

theorem matchEx_state (pattern element : S) (state : MatchState) :
    (matchEx pattern element state).state = zipTerms matchTerm pattern element state := by
  unfold matchEx
  cases zipTerms matchTerm pattern element state <;> rfl

end

/-! ### The instances of the other modules -/

theorem zipList_matchTerm (patterns elements : List Term) (state : MatchState) :
    zipTerms matchTerm patterns elements state = matchTerms patterns elements state := by
  induction patterns generalizing elements state with
  | nil => cases elements <;> simp [zipTerms, zipList, matchTerms]
  | cons pattern patterns ih =>
      cases elements with
      | nil => simp [zipTerms, zipList, matchTerms]
      | cons element elements =>
          refine zipList_cons.trans ?_
          rw [matchTerms]
          exact congrArg _ (funext (ih elements))

theorem zipAtom_matchTerm (pattern element : Atom) (state : MatchState) :
    zipTerms matchTerm pattern element state = matchAtom pattern element state := by
  have list := zipList_matchTerm pattern.terms element.terms state
  change zipAtom matchTerm pattern element state = _
  unfold zipAtom matchAtom
  by_cases sized : pattern.terms.length = element.terms.length
  · simp [sized, list]
  · have none : matchTerms pattern.terms element.terms state = none := by
      rw [← list]
      simp [zipTerms, zipList, sized]
    simp [sized, none]

theorem matchStructure_literal (pattern element : Literal) (sigma : SubstitutionFunction Term) :
    matchStructure pattern element sigma = matchSigma pattern element sigma := by
  rw [matchStructure, matchSigma, matchEx_state]
  change (zipLiteral matchTerm pattern element _).map _ = _
  unfold zipLiteral matchLiteral
  rw [zipAtom_matchTerm]
  by_cases polarity : pattern.polarity = element.polarity
  · simp [polarity]
  · simp [polarity]

theorem applyFixpoint_literal (rho : SubstitutionFunction Term) (literal : Literal) :
    applyFixpoint rho literal = applyLiteral rho literal := rfl

end Tyr.Formalism.Unification
