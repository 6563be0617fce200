import Mathlib.Combinatorics.SimpleGraph.Clique
import Mathlib.Data.Fintype.Basic
import Mathlib.Data.List.FinRange
import Mathlib.Order.Minimal

/-!
Maximal cliques by Bron and Kerbosch with pivoting.

A call has a clique, the candidates that can extend it and the excluded vertices
that can extend it but whose cliques have been listed. Together the candidates
and the excluded vertices are the common neighbours of the clique (`Frontier`).
The call lists the maximal cliques that extend the clique by candidates, each
exactly once (`bronKerboschPivot_spec`).
-/

namespace Tyr.Graphs.BronKerbosch

/-- A symmetric and irreflexive graph as adjacency bitsets. -/
structure Graph (n : Nat) where
  matrix : Fin n → Finset (Fin n)
  symm : ∀ u v, v ∈ matrix u → u ∈ matrix v
  irrefl : ∀ u, u ∉ matrix u

variable {n : Nat}

/-- The bits of a bitset, ascending. -/
def toList (s : Finset (Fin n)) : List (Fin n) := (List.finRange n).filter (· ∈ s)

namespace Graph

variable (g : Graph n)

def toSimpleGraph : SimpleGraph (Fin n) where
  Adj u v := v ∈ g.matrix u
  symm := ⟨fun u v => g.symm u v⟩
  loopless := ⟨g.irrefl⟩

/-- The number of candidates that are neighbours of `u`. -/
def score (candidates : Finset (Fin n)) (u : Fin n) : Nat := (candidates ∩ g.matrix u).card

/-- The first of the candidates and the excluded vertices with the most
neighbours among the candidates. -/
def choosePivot (candidates excluded : Finset (Fin n)) : Option (Fin n) :=
  match toList (candidates ∪ excluded) with
  | [] => none
  | first :: rest => some (rest.foldl
      (fun best u => if g.score candidates best < g.score candidates u then u else best) first)

/-- The loop over the extension: a vertex that has been branched on moves from
the candidates to the excluded vertices. -/
def branch (recurse : List (Fin n) → Finset (Fin n) → Finset (Fin n) → List (List (Fin n)))
    (clique : List (Fin n)) :
    List (Fin n) → Finset (Fin n) → Finset (Fin n) → List (List (Fin n))
  | [], _, _ => []
  | v :: rest, candidates, excluded =>
      recurse (clique ++ [v]) (candidates ∩ g.matrix v) (excluded ∩ g.matrix v) ++
        branch recurse clique rest (candidates.erase v) (insert v excluded)

/-- `bron_kerbosch_pivot` with the depth of the recursion. The source throws
where there is no pivot. -/
def bronKerboschPivot : Nat → List (Fin n) → Finset (Fin n) → Finset (Fin n) → List (List (Fin n))
  | 0, _, _, _ => []
  | depth + 1, clique, candidates, excluded =>
      if candidates = ∅ ∧ excluded = ∅ then [clique]
      else
        match g.choosePivot candidates excluded with
        | none => []
        | some pivot => g.branch (bronKerboschPivot depth) clique
            (toList (candidates \ g.matrix pivot)) candidates excluded

/-- `compute_maximal_cliques`; a graph without vertices has the empty clique. -/
def computeMaximalCliques : List (List (Fin n)) :=
  if n = 0 then [[]] else g.bronKerboschPivot (n + 1) [] Finset.univ ∅

end Graph

/-! ### The pivot -/

theorem mem_toList {s : Finset (Fin n)} {v : Fin n} : v ∈ toList s ↔ v ∈ s := by
  simp [toList]

theorem nodup_toList (s : Finset (Fin n)) : (toList s).Nodup := (List.nodup_finRange n).filter _

variable {g : Graph n} {clique : List (Fin n)} {candidates excluded : Finset (Fin n)}

/-- There is a pivot among the candidates and the excluded vertices, if there are any. -/
theorem choosePivot_spec (nonempty : ¬ (candidates = ∅ ∧ excluded = ∅)) :
    ∃ pivot ∈ candidates ∪ excluded, g.choosePivot candidates excluded = some pivot := by
  unfold Graph.choosePivot
  cases listed : toList (candidates ∪ excluded) with
  | nil =>
      have empty : candidates ∪ excluded = ∅ := by
        apply Finset.eq_empty_of_forall_notMem
        intro v mem
        rw [← mem_toList, listed] at mem
        exact List.not_mem_nil mem
      exact absurd (Finset.union_eq_empty.mp empty) nonempty
  | cons first rest =>
      have fromList : ∀ (rest : List (Fin n)) (best : Fin n),
          rest.foldl (fun best u =>
            if g.score candidates best < g.score candidates u then u else best) best ∈ best :: rest := by
        intro rest
        induction rest with
        | nil => exact fun best => List.mem_cons_self
        | cons u rest ih =>
            intro best
            rw [List.foldl_cons]
            split
            · exact List.mem_cons_of_mem _ (ih u)
            · rcases List.mem_cons.mp (ih best) with same | later
              · rw [same]
                exact List.mem_cons_self
              · exact List.mem_cons_of_mem _ (List.mem_cons_of_mem _ later)
      have mem := fromList rest first
      rw [← listed, mem_toList] at mem
      exact ⟨_, mem, rfl⟩

/-! ### What a call lists -/

/-- A maximal clique of the graph. -/
def IsMaximalClique (g : Graph n) (s : Finset (Fin n)) : Prop :=
  Maximal (fun s : Finset (Fin n) => g.toSimpleGraph.IsClique s) s

/-- The state of a call: a clique whose common neighbours are split into
candidates and excluded vertices. -/
structure Frontier (g : Graph n) (clique : List (Fin n)) (candidates excluded : Finset (Fin n)) :
    Prop where
  nodup : clique.Nodup
  isClique : g.toSimpleGraph.IsClique (clique.toFinset : Set (Fin n))
  common : ∀ u, u ∈ candidates ∪ excluded ↔ ∀ w ∈ clique, u ∈ g.matrix w
  disjoint : Disjoint candidates excluded

/-- The maximal cliques that extend `clique` by candidates and satisfy `P`. -/
def Extensions (g : Graph n) (clique : List (Fin n)) (candidates : Finset (Fin n))
    (P : Finset (Fin n) → Prop) (s : Finset (Fin n)) : Prop :=
  IsMaximalClique g s ∧ clique.toFinset ⊆ s ∧ s ⊆ clique.toFinset ∪ candidates ∧ P s

/-- The lists are the sets that satisfy `P`, each once and without repeated vertices. -/
structure Lists (cliques : List (List (Fin n))) (P : Finset (Fin n) → Prop) : Prop where
  nodup : ∀ c ∈ cliques, c.Nodup
  once : (cliques.map List.toFinset).Nodup
  sets : ∀ s, s ∈ cliques.map List.toFinset ↔ P s

theorem Lists.congr {cliques : List (List (Fin n))} {P Q : Finset (Fin n) → Prop}
    (lists : Lists cliques P) (same : ∀ s, P s ↔ Q s) : Lists cliques Q where
  nodup := lists.nodup
  once := lists.once
  sets := fun s => (lists.sets s).trans (same s)

theorem Lists.append {first second : List (List (Fin n))} {P Q : Finset (Fin n) → Prop}
    (listsP : Lists first P) (listsQ : Lists second Q) (apart : ∀ s, P s → ¬ Q s) :
    Lists (first ++ second) fun s => P s ∨ Q s where
  nodup := by
    intro c mem
    rcases List.mem_append.mp mem with inFirst | inSecond
    · exact listsP.nodup c inFirst
    · exact listsQ.nodup c inSecond
  once := by
    rw [List.map_append]
    refine List.Nodup.append listsP.once listsQ.once fun s memP memQ => ?_
    exact apart s ((listsP.sets s).mp memP) ((listsQ.sets s).mp memQ)
  sets := by
    intro s
    rw [List.map_append, List.mem_append, listsP.sets, listsQ.sets]

theorem Frontier.notMem_clique (frontier : Frontier g clique candidates excluded) {v : Fin n}
    (mem : v ∈ candidates ∪ excluded) : v ∉ clique :=
  fun inClique => g.irrefl v ((frontier.common v).mp mem v inClique)

/-- Branching on a candidate. -/
theorem Frontier.branch (frontier : Frontier g clique candidates excluded) {v : Fin n}
    (mem : v ∈ candidates) :
    Frontier g (clique ++ [v]) (candidates ∩ g.matrix v) (excluded ∩ g.matrix v) where
  nodup := by
    refine List.Nodup.append frontier.nodup (List.nodup_singleton v) fun w memClique memV => ?_
    rw [List.mem_singleton.mp memV] at memClique
    exact frontier.notMem_clique (Finset.mem_union_left _ mem) memClique
  isClique := by
    have adjacent := (frontier.common v).mp (Finset.mem_union_left _ mem)
    have same : ((clique ++ [v]).toFinset : Set (Fin n)) = insert v (clique.toFinset : Set (Fin n)) := by
      ext w
      simp
    rw [same, SimpleGraph.isClique_insert]
    refine ⟨frontier.isClique, fun w memClique _ => ?_⟩
    exact g.symm w v (adjacent w (List.mem_toFinset.mp memClique))
  common := by
    intro u
    rw [← Finset.union_inter_distrib_right, Finset.mem_inter, frontier.common]
    simp only [List.mem_append, List.mem_singleton, or_imp, forall_and, forall_eq]
  disjoint := frontier.disjoint.mono Finset.inter_subset_left Finset.inter_subset_left

/-- After branching on a candidate. -/
theorem Frontier.move (frontier : Frontier g clique candidates excluded) {v : Fin n}
    (mem : v ∈ candidates) : Frontier g clique (candidates.erase v) (insert v excluded) where
  nodup := frontier.nodup
  isClique := frontier.isClique
  common := by
    intro u
    rw [← frontier.common]
    by_cases same : u = v
    · subst same
      simp [mem]
    · simp [same]
  disjoint := by
    rw [Finset.disjoint_insert_right]
    exact ⟨Finset.notMem_erase v candidates,
      frontier.disjoint.mono_left (Finset.erase_subset v candidates)⟩

/-- The extensions through `v` are the extensions of the clique with `v`. -/
theorem extensions_branch (frontier : Frontier g clique candidates excluded) {v : Fin n}
    (mem : v ∈ candidates) (s : Finset (Fin n)) :
    Extensions g (clique ++ [v]) (candidates ∩ g.matrix v) (fun _ => True) s ↔
      Extensions g clique candidates (v ∈ ·) s := by
  have apart : v ∉ clique := frontier.notMem_clique (Finset.mem_union_left _ mem)
  constructor
  · rintro ⟨maximal, sub, super, _⟩
    have inS : v ∈ s := sub (by simp)
    refine ⟨maximal, fun w inClique => sub (by simp_all), fun w inS' => ?_, inS⟩
    have := super inS'
    simp only [List.toFinset_append, Finset.mem_union, List.mem_toFinset, Finset.mem_inter,
      List.toFinset_cons, List.toFinset_nil, insert_empty_eq,
      Finset.mem_singleton] at this ⊢
    rcases this with (inClique | rfl) | both
    · exact .inl inClique
    · exact .inr mem
    · exact .inr both.1
  · rintro ⟨maximal, sub, super, inS⟩
    refine ⟨maximal, fun w inClique => ?_, fun w inS' => ?_, trivial⟩
    · simp only [List.toFinset_append, Finset.mem_union, List.mem_toFinset, List.toFinset_cons,
        List.toFinset_nil, insert_empty_eq, Finset.mem_singleton] at inClique
      rcases inClique with inClique | rfl
      · exact sub (List.mem_toFinset.mpr inClique)
      · exact inS
    · by_cases same : w = v
      · simp [same]
      · have adjacent : w ∈ g.matrix v :=
          maximal.prop (Finset.mem_coe.mpr inS) (Finset.mem_coe.mpr inS') (Ne.symm same)
        rcases Finset.mem_union.mp (super inS') with inClique | candidate
        · exact Finset.mem_union_left _ (by simp_all)
        · exact Finset.mem_union_right _ (Finset.mem_inter.mpr ⟨candidate, adjacent⟩)

/-- What the loop lists: the extensions that meet the listed candidates. -/
theorem branch_spec
    {recurse : List (Fin n) → Finset (Fin n) → Finset (Fin n) → List (List (Fin n))}
    {extension : List (Fin n)} (frontier : Frontier g clique candidates excluded)
    (nodup : extension.Nodup) (sub : ∀ v ∈ extension, v ∈ candidates)
    (recurse_spec : ∀ v ∈ extension, ∀ candidates' ⊆ candidates, ∀ excluded',
      Frontier g (clique ++ [v]) (candidates' ∩ g.matrix v) excluded' →
        Lists (recurse (clique ++ [v]) (candidates' ∩ g.matrix v) excluded')
          (Extensions g (clique ++ [v]) (candidates' ∩ g.matrix v) fun _ => True)) :
    Lists (g.branch recurse clique extension candidates excluded)
      (Extensions g clique candidates fun s => ∃ v ∈ extension, v ∈ s) := by
  induction extension generalizing candidates excluded with
  | nil => exact ⟨nofun, List.nodup_nil, fun s => by simp [Graph.branch, Extensions]⟩
  | cons v rest ih =>
      obtain ⟨notMem, nodupRest⟩ := List.nodup_cons.mp nodup
      have candidate := sub v List.mem_cons_self
      have first := (recurse_spec v List.mem_cons_self candidates (Finset.Subset.refl _) _
        (frontier.branch candidate)).congr (extensions_branch frontier candidate)
      have others := ih (frontier.move candidate) nodupRest
        (fun w mem => Finset.mem_erase.mpr ⟨fun same => notMem (same ▸ mem),
          sub w (List.mem_cons_of_mem v mem)⟩)
        (fun w mem candidates' smaller => recurse_spec w (List.mem_cons_of_mem v mem) candidates'
          (smaller.trans (Finset.erase_subset v candidates)))
      have apart : v ∉ clique := frontier.notMem_clique (Finset.mem_union_left _ candidate)
      have avoids : ∀ s, s ⊆ clique.toFinset ∪ candidates.erase v ↔
          s ⊆ clique.toFinset ∪ candidates ∧ v ∉ s := by
        intro s
        have same : clique.toFinset ∪ candidates.erase v = (clique.toFinset ∪ candidates).erase v := by
          have kept : clique.toFinset.erase v = clique.toFinset :=
            Finset.erase_eq_of_notMem (by simpa using apart)
          rw [Finset.erase_union_distrib, kept]
        rw [same, Finset.subset_erase]
      refine (first.append others fun s inFirst inOthers => ?_).congr fun s => ?_
      · exact ((avoids s).mp inOthers.2.2.1).2 inFirst.2.2.2
      · simp only [Extensions, avoids, List.mem_cons, exists_eq_or_imp]
        tauto

/-- Every extension meets the candidates that are no neighbours of the pivot. -/
theorem exists_mem_extension (frontier : Frontier g clique candidates excluded) {pivot : Fin n}
    (mem : pivot ∈ candidates ∪ excluded) {s : Finset (Fin n)}
    (isExtension : Extensions g clique candidates (fun _ => True) s) :
    ∃ v ∈ toList (candidates \ g.matrix pivot), v ∈ s := by
  obtain ⟨maximal, sub, super, _⟩ := isExtension
  by_contra none
  -- Then the pivot is adjacent to the whole set, so it belongs to it.
  have adjacent : ∀ w ∈ s, w ∈ g.matrix pivot := by
    intro w inS
    rcases Finset.mem_union.mp (super inS) with inClique | candidate
    · exact g.symm w pivot ((frontier.common pivot).mp mem w (List.mem_toFinset.mp inClique))
    · by_contra apart
      exact none ⟨w, mem_toList.mpr (Finset.mem_sdiff.mpr ⟨candidate, apart⟩), inS⟩
  have larger : g.toSimpleGraph.IsClique ((insert pivot s : Finset (Fin n)) : Set (Fin n)) := by
    rw [Finset.coe_insert, SimpleGraph.isClique_insert]
    exact ⟨maximal.prop, fun w inS _ => adjacent w inS⟩
  have inS : pivot ∈ s := maximal.le_of_ge larger (Finset.subset_insert pivot s)
    (Finset.mem_insert_self pivot s)
  exact g.irrefl pivot (adjacent pivot inS)

/-- The only extension without candidates and excluded vertices is the clique. -/
theorem extensions_of_no_frontier (frontier : Frontier g clique ∅ ∅) (s : Finset (Fin n)) :
    s = clique.toFinset ↔ Extensions g clique ∅ (fun _ => True) s := by
  constructor
  · rintro rfl
    refine ⟨⟨frontier.isClique, fun s isClique sub v inS => ?_⟩, Finset.Subset.refl _,
      Finset.subset_union_left, trivial⟩
    by_contra apart
    have noNeighbour := (frontier.common v).not.mp (by simp)
    apply noNeighbour
    intro w inClique
    refine isClique (sub (List.mem_toFinset.mpr inClique)) inS fun same => ?_
    exact apart (same ▸ List.mem_toFinset.mpr inClique)
  · rintro ⟨_, sub, super, _⟩
    exact Finset.Subset.antisymm (by simpa using super) sub

/-- A branch has fewer candidates than its call, since a vertex is no neighbour of itself. -/
theorem card_branch_lt {candidates' : Finset (Fin n)} {v : Fin n} (candidate : v ∈ candidates)
    (smaller : candidates' ⊆ candidates) : (candidates' ∩ g.matrix v).card < candidates.card := by
  apply Finset.card_lt_card
  rw [Finset.ssubset_iff_of_subset (Finset.inter_subset_left.trans smaller)]
  exact ⟨v, candidate, fun both => g.irrefl v (Finset.mem_inter.mp both).2⟩

/-- A call lists the maximal cliques that extend its clique by candidates. -/
theorem bronKerboschPivot_spec {depth : Nat} (frontier : Frontier g clique candidates excluded)
    (deep : candidates.card < depth) :
    Lists (g.bronKerboschPivot depth clique candidates excluded)
      (Extensions g clique candidates fun _ => True) := by
  induction depth generalizing clique candidates excluded with
  | zero => exact absurd deep (Nat.not_lt_zero _)
  | succ depth ih =>
      rw [Graph.bronKerboschPivot]
      by_cases done : candidates = ∅ ∧ excluded = ∅
      · obtain ⟨rfl, rfl⟩ := done
        rw [if_pos ⟨rfl, rfl⟩]
        refine ⟨fun c mem => ?_, List.nodup_singleton _, fun s => ?_⟩
        · rw [List.mem_singleton.mp mem]
          exact frontier.nodup
        · rw [← extensions_of_no_frontier frontier]
          exact List.mem_singleton
      · rw [if_neg done]
        obtain ⟨pivot, mem, chosen⟩ := choosePivot_spec (g := g) done
        rw [chosen]
        have candidatesOnly : ∀ v ∈ toList (candidates \ g.matrix pivot), v ∈ candidates :=
          fun v listed => (Finset.mem_sdiff.mp (mem_toList.mp listed)).1
        refine (branch_spec frontier (nodup_toList _) candidatesOnly ?_).congr fun s => ?_
        · intro v listed candidates' smaller excluded' frontier'
          apply ih frontier'
          have fewer := card_branch_lt (g := g) (candidatesOnly v listed) smaller
          omega
        · constructor
          · rintro ⟨maximal, sub, super, _⟩
            exact ⟨maximal, sub, super, trivial⟩
          · intro isExtension
            exact ⟨isExtension.1, isExtension.2.1, isExtension.2.2.1,
              exists_mem_extension frontier mem isExtension⟩

/-- `compute_maximal_cliques` lists the maximal cliques. -/
theorem computeMaximalCliques_spec (g : Graph n) :
    Lists g.computeMaximalCliques (IsMaximalClique g) := by
  have start : Frontier g [] Finset.univ ∅ :=
    ⟨List.nodup_nil, by simp, by simp, Finset.disjoint_empty_right _⟩
  unfold Graph.computeMaximalCliques
  split
  · next noVertices =>
      subst noVertices
      refine ⟨by simp, by simp, fun s => ?_⟩
      have only : s = ∅ := Finset.eq_empty_of_isEmpty s
      subst only
      refine iff_of_true (by simp) ⟨by simp, fun s _ _ => ?_⟩
      exact (Finset.eq_empty_of_isEmpty s).le
  · refine (bronKerboschPivot_spec start (by simp)).congr fun s => ?_
    simp [Extensions]

/-! ### Termination -/

namespace Graph

variable (g : Graph n)

/-- The loop over the extension, when a call may fail. -/
def tryBranch
    (recurse : List (Fin n) → Finset (Fin n) → Finset (Fin n) → Option (List (List (Fin n))))
    (clique : List (Fin n)) :
    List (Fin n) → Finset (Fin n) → Finset (Fin n) → Option (List (List (Fin n)))
  | [], _, _ => some []
  | v :: rest, candidates, excluded => do
      let first ← recurse (clique ++ [v]) (candidates ∩ g.matrix v) (excluded ∩ g.matrix v)
      let others ← tryBranch recurse clique rest (candidates.erase v) (insert v excluded)
      return first ++ others

/-- A call that fails when the recursion exceeds the depth and when `choose_pivot`
throws. -/
def tryBronKerboschPivot :
    Nat → List (Fin n) → Finset (Fin n) → Finset (Fin n) → Option (List (List (Fin n)))
  | 0, _, _, _ => none
  | depth + 1, clique, candidates, excluded =>
      if candidates = ∅ ∧ excluded = ∅ then some [clique]
      else do
        let pivot ← g.choosePivot candidates excluded
        g.tryBranch (tryBronKerboschPivot depth) clique (toList (candidates \ g.matrix pivot))
          candidates excluded

def tryMaximalCliques : Option (List (List (Fin n))) :=
  if n = 0 then some [[]] else g.tryBronKerboschPivot (n + 1) [] Finset.univ ∅

end Graph

/-- The loop succeeds when its calls do. -/
theorem tryBranch_eq
    {recurse : List (Fin n) → Finset (Fin n) → Finset (Fin n) → List (List (Fin n))}
    {tryRecurse : List (Fin n) → Finset (Fin n) → Finset (Fin n) → Option (List (List (Fin n)))}
    {extension : List (Fin n)}
    (succeeds : ∀ v ∈ extension, ∀ candidates' ⊆ candidates, ∀ excluded',
      tryRecurse (clique ++ [v]) (candidates' ∩ g.matrix v) excluded' =
        some (recurse (clique ++ [v]) (candidates' ∩ g.matrix v) excluded')) :
    g.tryBranch tryRecurse clique extension candidates excluded =
      some (g.branch recurse clique extension candidates excluded) := by
  induction extension generalizing candidates excluded with
  | nil => rfl
  | cons v rest ih =>
      have first := succeeds v List.mem_cons_self candidates (Finset.Subset.refl _)
        (excluded ∩ g.matrix v)
      have others : g.tryBranch tryRecurse clique rest (candidates.erase v) (insert v excluded) =
          some (g.branch recurse clique rest (candidates.erase v) (insert v excluded)) :=
        ih fun w mem candidates' smaller => succeeds w (List.mem_cons_of_mem v mem) candidates'
          (smaller.trans (Finset.erase_subset v candidates))
      rw [Graph.tryBranch, first, others]
      rfl

/-- A call with fewer candidates than the depth succeeds. -/
theorem tryBronKerboschPivot_eq {depth : Nat} (deep : candidates.card < depth) :
    g.tryBronKerboschPivot depth clique candidates excluded =
      some (g.bronKerboschPivot depth clique candidates excluded) := by
  induction depth generalizing clique candidates excluded with
  | zero => exact absurd deep (Nat.not_lt_zero _)
  | succ depth ih =>
      rw [Graph.tryBronKerboschPivot, Graph.bronKerboschPivot]
      by_cases done : candidates = ∅ ∧ excluded = ∅
      · rw [if_pos done, if_pos done]
      · rw [if_neg done, if_neg done]
        obtain ⟨pivot, _, chosen⟩ := choosePivot_spec (g := g) done
        rw [chosen]
        apply tryBranch_eq
        intro v listed candidates' smaller excluded'
        apply ih
        have candidate : v ∈ candidates := (Finset.mem_sdiff.mp (mem_toList.mp listed)).1
        have fewer := card_branch_lt (g := g) candidate smaller
        omega

/-- No call throws or recurses deeper than there are vertices. -/
theorem tryMaximalCliques_eq (g : Graph n) :
    g.tryMaximalCliques = some g.computeMaximalCliques := by
  unfold Graph.tryMaximalCliques Graph.computeMaximalCliques
  split
  · rfl
  · exact tryBronKerboschPivot_eq (by simp)

/-- The enumeration returns every maximal clique exactly once, and nothing else. -/
theorem maximalCliques_exact (g : Graph n) :
    ∃ cliques, g.tryMaximalCliques = some cliques ∧ g.computeMaximalCliques = cliques ∧
      (∀ clique ∈ cliques, clique.Nodup) ∧
      ∀ s : Finset (Fin n), (IsMaximalClique g s → (cliques.map List.toFinset).count s = 1) ∧
        (¬ IsMaximalClique g s → s ∉ cliques.map List.toFinset) := by
  have lists := computeMaximalCliques_spec g
  refine ⟨g.computeMaximalCliques, tryMaximalCliques_eq g, rfl, lists.nodup, fun s => ?_⟩
  constructor
  · intro maximal
    exact List.count_eq_one_of_mem lists.once ((lists.sets s).mpr maximal)
  · intro notMaximal listed
    exact notMaximal ((lists.sets s).mp listed)

end Tyr.Graphs.BronKerbosch
