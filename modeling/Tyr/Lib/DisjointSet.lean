import Mathlib.Logic.Function.Basic
import Mathlib.Logic.Relation

/-!
Disjoint sets by parents and ranks, with path compression.

The ranks grow along the parents and are bounded, so that every element has a root.

* `find_snd`, `root_find` — a search returns the root and keeps all roots.
* `root_unite_iff` — the classes after one union.
* `root_uniteAll_iff` — after several unions they are those of the generated equivalence.
-/

namespace Tyr.Lib

/-- The elements are the natural numbers; one that was never united is its own root. -/
structure DisjointSet where
  parent : Nat → Nat
  rank : Nat → Nat
  bound : Nat
  rank_le : ∀ i, rank i ≤ bound
  rank_lt : ∀ i, parent i ≠ i → rank i < rank (parent i)

namespace DisjointSet

theorem discrete_rank_lt (i : Nat) (ne : id i ≠ i) : 0 < 0 := absurd rfl ne

/-- Every element is alone. -/
def discrete : DisjointSet where
  parent := id
  rank := fun _ => 0
  bound := 0
  rank_le := fun _ => Nat.le_refl 0
  rank_lt := discrete_rank_lt

variable (sets : DisjointSet)

theorem bound_sub_rank_lt {x : Nat} (ne : sets.parent x ≠ x) :
    sets.bound - sets.rank (sets.parent x) < sets.bound - sets.rank x := by
  have grows := sets.rank_lt x ne
  have bounded := sets.rank_le (sets.parent x)
  omega

def root (x : Nat) : Nat :=
  if _ : sets.parent x = x then x else root (sets.parent x)
termination_by sets.bound - sets.rank x
decreasing_by exact bound_sub_rank_lt sets ‹_›

variable {sets} {x i j : Nat}

theorem root_of_root (isRoot : sets.parent x = x) : sets.root x = x := by
  rw [root, dif_pos isRoot]

theorem root_parent : sets.root (sets.parent x) = sets.root x := by
  by_cases isRoot : sets.parent x = x
  · rw [isRoot]
  · conv => rhs; rw [root, dif_neg isRoot]

theorem parent_root : sets.parent (sets.root x) = sets.root x := by
  induction x using root.induct sets with
  | case1 x isRoot => rw [root_of_root isRoot, isRoot]
  | case2 x notRoot ih => rw [← root_parent, ih]

theorem root_root : sets.root (sets.root x) = sets.root x := root_of_root parent_root

theorem rank_lt_root (ne : sets.root x ≠ x) : sets.rank x < sets.rank (sets.root x) := by
  induction x using root.induct sets with
  | case1 x isRoot => exact absurd (root_of_root isRoot) ne
  | case2 x notRoot ih =>
      have grows := sets.rank_lt x notRoot
      rw [← root_parent]
      by_cases reached : sets.root (sets.parent x) = sets.parent x
      · rw [reached]
        exact grows
      · exact Nat.lt_trans grows (ih reached)

/-! ### Searching -/

variable (sets)

/-- The parents are redirected to the root when the recursion returns. -/
def findAux (x : Nat) : (Nat → Nat) × Nat :=
  if _ : sets.parent x = x then (sets.parent, x)
  else
    let result := findAux (sets.parent x)
    (Function.update result.1 x result.2, result.2)
termination_by sets.bound - sets.rank x
decreasing_by exact bound_sub_rank_lt sets ‹_›

variable {sets}

theorem findAux_snd : (sets.findAux x).2 = sets.root x := by
  induction x using root.induct sets with
  | case1 x isRoot => rw [findAux, dif_pos isRoot, root_of_root isRoot]
  | case2 x notRoot ih =>
      rw [findAux, dif_neg notRoot, ← root_parent]
      exact ih

theorem findAux_fst (i : Nat) :
    (sets.findAux x).1 i = sets.parent i ∨ (sets.findAux x).1 i = sets.root i := by
  induction x using root.induct sets with
  | case1 x isRoot =>
      rw [findAux, dif_pos isRoot]
      exact Or.inl rfl
  | case2 x notRoot ih =>
      rw [findAux, dif_neg notRoot]
      dsimp only
      by_cases same : i = x
      · subst same
        rw [Function.update_self, findAux_snd, root_parent]
        exact Or.inr rfl
      · rw [Function.update_of_ne same]
        exact ih

theorem find_rank_lt (i : Nat) (ne : (sets.findAux x).1 i ≠ i) :
    sets.rank i < sets.rank ((sets.findAux x).1 i) := by
  obtain kept | compressed := @findAux_fst sets x i
  · rw [kept] at ne ⊢
    exact sets.rank_lt i ne
  · rw [compressed] at ne ⊢
    exact rank_lt_root ne

variable (sets)

def find (x : Nat) : DisjointSet × Nat :=
  ({ parent := (sets.findAux x).1
     rank := sets.rank
     bound := sets.bound
     rank_le := sets.rank_le
     rank_lt := find_rank_lt }, (sets.findAux x).2)

variable {sets}

theorem find_snd : (sets.find x).2 = sets.root x := findAux_snd

theorem root_find (i : Nat) : (sets.find x).1.root i = sets.root i := by
  induction i using root.induct (sets.find x).1 with
  | case1 i isRoot =>
      rw [root_of_root isRoot]
      obtain kept | compressed := @findAux_fst sets x i
      · exact (root_of_root (kept.symm.trans isRoot)).symm
      · exact isRoot.symm.trans compressed
  | case2 i notRoot ih =>
      rw [← root_parent, ih]
      obtain kept | compressed := @findAux_fst sets x i
      · exact (congrArg sets.root kept).trans root_parent
      · exact (congrArg sets.root compressed).trans root_root

theorem find_isRoot {a b : Nat} :
    ((sets.find a).1.find b).1.parent ((sets.find a).1.find b).2 = ((sets.find a).1.find b).2 := by
  have isRoot := @parent_root ((sets.find a).1.find b).1 b
  rw [root_find, ← find_snd] at isRoot
  exact isRoot

theorem find_find_isRoot {a b : Nat} :
    ((sets.find a).1.find b).1.parent (sets.find a).2 = (sets.find a).2 := by
  have isRoot := @parent_root ((sets.find a).1.find b).1 a
  rw [root_find, root_find, ← find_snd] at isRoot
  exact isRoot

/-! ### Uniting -/

/-- The root `b` becomes a child of the root `a`. -/
theorem attach_rank_lt {a b : Nat} (isRoot : sets.parent a = a) (ne : a ≠ b)
    (le : sets.rank b ≤ sets.rank a) (i : Nat)
    (notRoot : Function.update sets.parent b a i ≠ i) :
    Function.update sets.rank a (if sets.rank a = sets.rank b then sets.rank a + 1 else sets.rank a) i <
      Function.update sets.rank a (if sets.rank a = sets.rank b then sets.rank a + 1 else sets.rank a)
        (Function.update sets.parent b a i) := by
  by_cases same : i = b
  · subst same
    rw [Function.update_self, Function.update_self, Function.update_of_ne ne.symm]
    split <;> omega
  · rw [Function.update_of_ne same] at notRoot ⊢
    have notA : i ≠ a := fun eq => notRoot (eq ▸ isRoot)
    have grows := sets.rank_lt i notRoot
    rw [Function.update_of_ne notA]
    by_cases parentA : sets.parent i = a
    · rw [parentA, Function.update_self]
      rw [parentA] at grows
      split <;> omega
    · rw [Function.update_of_ne parentA]
      exact grows

theorem attach_rank_le {a b : Nat} (i : Nat) :
    Function.update sets.rank a (if sets.rank a = sets.rank b then sets.rank a + 1 else sets.rank a) i ≤
      sets.bound + 1 := by
  by_cases same : i = a
  · subst same
    have bounded := sets.rank_le i
    rw [Function.update_self]
    split <;> omega
  · rw [Function.update_of_ne same]
    exact Nat.le_succ_of_le (sets.rank_le i)

variable (sets)

def attach (a b : Nat) (isRoot : sets.parent a = a) (ne : a ≠ b)
    (le : sets.rank b ≤ sets.rank a) : DisjointSet where
  parent := Function.update sets.parent b a
  rank := Function.update sets.rank a
    (if sets.rank a = sets.rank b then sets.rank a + 1 else sets.rank a)
  bound := sets.bound + 1
  rank_le := attach_rank_le
  rank_lt := attach_rank_lt isRoot ne le

variable {sets}

section

variable {a b : Nat} {isRoot : sets.parent a = a} {ne : a ≠ b} {le : sets.rank b ≤ sets.rank a}

theorem attach_parent_self : (sets.attach a b isRoot ne le).parent b = a := by
  unfold attach
  exact Function.update_self b a sets.parent

theorem attach_parent_of_ne (notB : i ≠ b) :
    (sets.attach a b isRoot ne le).parent i = sets.parent i := by
  unfold attach
  exact Function.update_of_ne notB a sets.parent

theorem root_attach (isRootB : sets.parent b = b) (i : Nat) :
    (sets.attach a b isRoot ne le).root i = if sets.root i = b then a else sets.root i := by
  induction i using root.induct sets with
  | case1 i isRootI =>
      rw [root_of_root isRootI]
      by_cases same : i = b
      · have keptA : (sets.attach a b isRoot ne le).parent a = a := by
          rw [attach_parent_of_ne ne, isRoot]
        rw [if_pos same, same, ← root_parent, attach_parent_self, root_of_root keptA]
      · have kept : (sets.attach a b isRoot ne le).parent i = i := by
          rw [attach_parent_of_ne same, isRootI]
        rw [if_neg same, root_of_root kept]
  | case2 i notRoot ih =>
      have notB : i ≠ b := fun eq => notRoot (eq ▸ isRootB)
      rw [← root_parent, attach_parent_of_ne notB, ih, root_parent]

end

variable (sets)

/-- The root of the smaller rank becomes a child of the other; `a` wins a tie. -/
def unite (a b : Nat) : DisjointSet :=
  let foundA := sets.find a
  let foundB := foundA.1.find b
  if ne : foundA.2 = foundB.2 then foundB.1
  else if lt : foundB.1.rank foundA.2 < foundB.1.rank foundB.2 then
    foundB.1.attach foundB.2 foundA.2 find_isRoot (Ne.symm ne) (Nat.le_of_lt lt)
  else
    foundB.1.attach foundA.2 foundB.2 find_find_isRoot ne (Nat.le_of_not_lt lt)

variable {sets}

/-- One of the two roots takes over the class of the other. -/
theorem root_unite {a b : Nat} :
    (∀ i, (sets.unite a b).root i =
      if sets.root i = sets.root a then sets.root b else sets.root i) ∨
    (∀ i, (sets.unite a b).root i =
      if sets.root i = sets.root b then sets.root a else sets.root i) := by
  have sameRoots (i : Nat) : ((sets.find a).1.find b).1.root i = sets.root i := by
    rw [root_find, root_find]
  have rootA : (sets.find a).2 = sets.root a := find_snd
  have rootB : ((sets.find a).1.find b).2 = sets.root b := by rw [find_snd, root_find]
  unfold unite
  dsimp only
  split
  · rename_i same
    left
    intro i
    rw [sameRoots]
    split
    · rename_i atA
      rw [atA, ← rootA, same, rootB]
    · rfl
  · split
    · left
      intro i
      rw [root_attach find_find_isRoot, sameRoots, rootA, rootB]
    · right
      intro i
      rw [root_attach find_isRoot, sameRoots, rootA, rootB]

/-- A union joins the two classes and no others. -/
theorem root_unite_iff {a b : Nat} :
    (sets.unite a b).root i = (sets.unite a b).root j ↔
      sets.root i = sets.root j ∨ (sets.root i = sets.root a ∧ sets.root b = sets.root j) ∨
        (sets.root i = sets.root b ∧ sets.root a = sets.root j) := by
  obtain moved | moved := @root_unite sets a b
  · rw [moved, moved]
    grind
  · rw [moved, moved]
    grind

/-- The loop over the pairs to unite. -/
def uniteAll (pairs : List (Nat × Nat)) : DisjointSet :=
  pairs.foldl (fun sets pair => sets.unite pair.1 pair.2) sets

theorem root_discrete (i : Nat) : discrete.root i = i := root_of_root rfl

theorem uniteAll_cons {pair : Nat × Nat} {pairs : List (Nat × Nat)} :
    sets.uniteAll (pair :: pairs) = (sets.unite pair.1 pair.2).uniteAll pairs := rfl

/-- The classes are the equivalence generated by the earlier ones and the pairs. -/
theorem root_uniteAll_iff {pairs : List (Nat × Nat)} :
    (sets.uniteAll pairs).root i = (sets.uniteAll pairs).root j ↔
      Relation.EqvGen (fun a b => sets.root a = sets.root b ∨ (a, b) ∈ pairs) i j := by
  induction pairs generalizing sets with
  | nil =>
      have classes : Equivalence fun a b => sets.root a = sets.root b ∨ (a, b) ∈ ([] : List (Nat × Nat)) := by
        simp only [List.not_mem_nil, or_false]
        exact (InvImage.equivalence Eq sets.root eq_equivalence)
      rw [classes.eqvGen_iff, or_iff_left List.not_mem_nil]
      exact Iff.rfl
  | cons pair pairs ih =>
      obtain ⟨x, y⟩ := pair
      rw [uniteAll_cons, ih]
      constructor
      · intro generated
        apply (Relation.EqvGen.is_equivalence _).eqvGen_iff.mp
        refine generated.mono ?_
        rintro a b (same | mem)
        · obtain same | ⟨first, second⟩ | ⟨first, second⟩ := root_unite_iff.mp same
          · exact .rel _ _ (Or.inl same)
          · exact .trans _ _ _ (.rel _ _ (Or.inl first))
              (.trans _ _ _ (.rel _ _ (Or.inr List.mem_cons_self)) (.rel _ _ (Or.inl second)))
          · exact .trans _ _ _ (.rel _ _ (Or.inl first))
              (.trans _ _ _ (.symm _ _ (.rel _ _ (Or.inr List.mem_cons_self)))
                (.rel _ _ (Or.inl second)))
        · exact .rel _ _ (Or.inr (List.mem_cons_of_mem _ mem))
      · intro generated
        refine generated.mono ?_
        rintro a b (same | mem)
        · exact Or.inl (root_unite_iff.mpr (Or.inl same))
        · obtain eq | mem := List.mem_cons.mp mem
          · obtain ⟨rfl, rfl⟩ := Prod.mk.inj eq
            exact Or.inl (root_unite_iff.mpr (Or.inr (Or.inl ⟨rfl, rfl⟩)))
          · exact Or.inr mem

theorem root_uniteAll_discrete_iff {pairs : List (Nat × Nat)} :
    (discrete.uniteAll pairs).root i = (discrete.uniteAll pairs).root j ↔
      Relation.EqvGen (fun a b => (a, b) ∈ pairs) i j := by
  rw [root_uniteAll_iff]
  simp only [root_discrete]
  constructor
  · intro generated
    apply (Relation.EqvGen.is_equivalence _).eqvGen_iff.mp
    refine generated.mono ?_
    rintro a b (rfl | mem)
    · exact .refl a
    · exact .rel a b mem
  · intro generated
    exact generated.mono fun a b mem => Or.inr mem

end DisjointSet

end Tyr.Lib
