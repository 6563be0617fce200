import Tyr.Lib.StratifiedModel
import Mathlib.Order.SetNotation

/-!
Stable models of ground rules.

A set of atoms is stable if it is what the clauses derive when their negative atoms are
tested in the set itself. The definition names no layers; if some numbering of the atoms
puts the negative atoms of each clause below its head and the positive ones not above it,
then there is at most one stable model, and the layers of any such numbering compute it.

* `IsStable.unique` — there is at most one.
* `isStable_perfectModel` — the perfect model of the layers is stable.
* `IsResidual.isStable_iff` — the stable models after the given atoms are evaluated.
-/

namespace Tyr.Lib

variable {α : Type*}

/-- What the clauses derive if the negative atoms are tested in the given set. -/
inductive Derives (clauses : Set (Clause α)) (model : Set α) : α → Prop where
  | clause {clause : Clause α} : clause ∈ clauses → (∀ atom ∈ clause.negative, atom ∉ model) →
      (∀ atom ∈ clause.positive, Derives clauses model atom) → Derives clauses model clause.head

/-- The set is what the clauses derive from it. -/
def IsStable (clauses : Set (Clause α)) (model : Set α) : Prop :=
  ∀ atom, atom ∈ model ↔ Derives clauses model atom

/-- The numbering respects the uses of atoms in bodies. -/
structure Leveled (clauses : Set (Clause α)) (level : α → Nat) : Prop where
  positive : ∀ clause ∈ clauses, ∀ atom ∈ clause.positive, level atom ≤ level clause.head
  negative : ∀ clause ∈ clauses, ∀ atom ∈ clause.negative, level atom < level clause.head

section

variable {clauses others : Set (Clause α)} {model other : Set α} {level : α → Nat}

/-- A derivation does not look above the level of its atom. -/
theorem Derives.congr (leveled : Leveled clauses level) {atom : α}
    (derives : Derives clauses model atom)
    (same : ∀ below, level below < level atom → (below ∈ model ↔ below ∈ other)) :
    Derives clauses other atom := by
  induction derives with
  | @clause clause mem absent _ ih =>
      refine .clause mem (fun below isNegative inOther => ?_) fun below isPositive => ?_
      · have lower := leveled.negative clause mem below isNegative
        exact absent below isNegative ((same below lower).mpr inOther)
      · have notHigher := leveled.positive clause mem below isPositive
        exact ih below isPositive fun further lower => same further (lower.trans_le notHigher)

/-- Stable models agree level by level. -/
theorem IsStable.unique (leveled : Leveled clauses level) (stable : IsStable clauses model)
    (otherStable : IsStable clauses other) : model = other := by
  suffices agree : ∀ n atom, level atom = n → (atom ∈ model ↔ atom ∈ other) from
    Set.ext fun atom => agree _ atom rfl
  intro n
  induction n using Nat.strong_induction_on with
  | h n ih =>
      intro atom isLevel
      have same : ∀ below, level below < level atom → (below ∈ model ↔ below ∈ other) :=
        fun below lower => ih (level below) (isLevel ▸ lower) below rfl
      rw [stable atom, otherStable atom]
      exact ⟨fun derives => derives.congr leveled same,
        fun derives => derives.congr leveled fun below lower => (same below lower).symm⟩

theorem Derives.mono (sub : clauses ⊆ others) {atom : α} (derives : Derives clauses model atom) :
    Derives others model atom := by
  induction derives with
  | clause mem absent _ ih => exact .clause (sub mem) absent ih

/-- What is derived is the head of a clause. -/
theorem Derives.head {atom : α} (derives : Derives clauses model atom) :
    ∃ clause ∈ clauses, clause.head = atom := by
  cases derives with
  | clause mem _ _ => exact ⟨_, mem, rfl⟩

end

/-! ### Layers -/

section

variable {earlier layer : Set (Clause α)} {base : Set α} {level : α → Nat} {n : Nat}

/-- The model of the next layer on top of a stable model of the earlier ones. -/
theorem isStable_layerModel (leveled : Leveled (earlier ∪ layer) level)
    (below : ∀ clause ∈ earlier, level clause.head < n) (heads : ∀ clause ∈ layer, level clause.head = n)
    (stable : IsStable earlier base) :
    IsStable (earlier ∪ layer) {atom | LayerModel layer base atom} := by
  have baseBelow : ∀ atom ∈ base, level atom < n := by
    intro atom mem
    obtain ⟨clause, isEarlier, rfl⟩ := ((stable atom).mp mem).head
    exact below clause isEarlier
  -- Below the level of the layer, its model adds nothing.
  have same : ∀ atom, level atom < n → (atom ∈ base ↔ LayerModel layer base atom) := by
    intro atom lower
    refine ⟨.base, fun derived => ?_⟩
    cases derived with
    | base mem => exact mem
    | clause mem _ _ => exact absurd (heads _ mem) lower.ne
  intro atom
  constructor
  · intro derived
    induction derived with
    | base mem =>
        have derives := ((stable _).mp mem).mono (Set.subset_union_left (t := layer))
        exact derives.congr leveled fun further lower =>
          same further (lower.trans (baseBelow _ mem))
    | @clause clause mem absent _ ih =>
        refine .clause (.inr mem) (fun other isNegative derived => ?_) ih
        have lower := leveled.negative clause (.inr mem) other isNegative
        rw [heads clause mem] at lower
        exact absent other isNegative ((same other lower).mpr derived)
  · intro derives
    induction derives with
    | @clause clause mem absent _ ih =>
        rcases mem with isEarlier | inLayer
        · refine .base ((stable _).mpr (.clause isEarlier (fun other isNegative isBase => ?_)
            fun other isPositive => ?_))
          · exact absent other isNegative (.base isBase)
          · have notHigher := leveled.positive clause (.inl isEarlier) other isPositive
            have lower := notHigher.trans_lt (below clause isEarlier)
            exact (stable other).mp ((same other lower).mpr (ih other isPositive))
        · exact .clause inLayer (fun other isNegative isBase => absent other isNegative (.base isBase)) ih

/-- The perfect model of layers whose heads are on consecutive levels. -/
theorem isStable_perfectModel {layers : List (Set (Clause α))}
    (leveled : Leveled (earlier ∪ {clause | ∃ layer ∈ layers, clause ∈ layer}) level)
    (below : ∀ clause ∈ earlier, level clause.head < n)
    (heads : ∀ i layer, layers[i]? = some layer → ∀ clause ∈ layer, level clause.head = n + i)
    (stable : IsStable earlier base) :
    IsStable (earlier ∪ {clause | ∃ layer ∈ layers, clause ∈ layer}) (perfectModel layers base) := by
  induction layers generalizing earlier base n with
  | nil => simpa [perfectModel] using stable
  | cons layer layers ih =>
      have split : earlier ∪ {clause | ∃ other ∈ layer :: layers, clause ∈ other} =
          (earlier ∪ layer) ∪ {clause | ∃ other ∈ layers, clause ∈ other} := by
        ext clause
        simp [or_assoc]
      rw [split] at leveled ⊢
      have ofLayer : ∀ clause ∈ layer, level clause.head = n := heads 0 layer rfl
      have leveledHere : Leveled (earlier ∪ layer) level :=
        ⟨fun clause mem => leveled.positive clause (.inl mem),
          fun clause mem => leveled.negative clause (.inl mem)⟩
      apply ih leveled
      · rintro clause (isEarlier | inLayer)
        · exact (below clause isEarlier).trans (Nat.lt_succ_self n)
        · exact (ofLayer clause inLayer).trans_lt (Nat.lt_succ_self n)
      · intro i other isOther clause mem
        rw [heads (i + 1) other isOther clause mem]
        omega
      · exact isStable_layerModel leveledHere below ofLayer stable

end

/-! ### Residual clauses -/

section

variable {β : Type*}

/-- The atoms of the clause that can be read are those of the other clause. -/
structure ReadsAs (read : β → Option α) (clause : Clause β) (other : Clause α) : Prop where
  head : read clause.head = some other.head
  positive : ∀ atom, atom ∈ other.positive ↔ ∃ source ∈ clause.positive, read source = some atom
  negative : ∀ atom, atom ∈ other.negative ↔ ∃ source ∈ clause.negative, read source = some atom

/-- The other clauses are what is left when the atoms that cannot be read are evaluated:
the given ones hold. -/
structure IsResidual (clauses : Set (Clause β)) (given : Set β) (read : β → Option α)
    (others : Set (Clause α)) : Prop where
  read_injective : ∀ {source source' atom}, read source = some atom → read source' = some atom →
    source = source'
  given_unread : ∀ source ∈ given, read source = none
  given_clause : ∀ source ∈ given, (⟨source, [], []⟩ : Clause β) ∈ clauses
  of_clause : ∀ clause ∈ clauses, clause.head ∈ given ∨
    ((∀ source ∈ clause.positive, read source = none → source ∈ given) →
      (∀ source ∈ clause.negative, source ∉ given) → ∃ other ∈ others, ReadsAs read clause other)
  to_clause : ∀ other ∈ others, ∃ clause ∈ clauses, ReadsAs read clause other ∧
    (∀ source ∈ clause.positive, read source = none → source ∈ given) ∧
    ∀ source ∈ clause.negative, source ∉ given

variable {clauses : Set (Clause β)} {others : Set (Clause α)} {given model : Set β}
  {read : β → Option α} {level : β → Nat}

/-- What can be read of a model. -/
def readModel (read : β → Option α) (model : Set β) : Set α :=
  {atom | ∃ source ∈ model, read source = some atom}

theorem IsResidual.given_or_derives (residual : IsResidual clauses given read others)
    (stable : IsStable clauses model) {source : β} (derives : Derives clauses model source) :
    source ∈ given ∨ ∃ atom, read source = some atom ∧ Derives others (readModel read model) atom := by
  induction derives with
  | @clause clause mem absent _ ih =>
      rcases residual.of_clause clause mem with isGiven | reads
      · exact .inl isGiven
      · obtain ⟨other, memOther, readsAs⟩ := reads
          (fun source isPositive unread => (ih source isPositive).resolve_right (by simp [unread]))
          fun source isNegative isGiven => absent source isNegative
            ((stable source).mpr (.clause (residual.given_clause source isGiven) nofun nofun))
        refine .inr ⟨other.head, readsAs.head, .clause memOther ?_ ?_⟩
        · rintro atom isNegative ⟨source, inModel, isRead⟩
          obtain ⟨source', isNegative', isRead'⟩ := (readsAs.negative atom).mp isNegative
          obtain rfl := residual.read_injective isRead isRead'
          exact absent source isNegative' inModel
        · intro atom isPositive
          obtain ⟨source, isPositive', isRead⟩ := (readsAs.positive atom).mp isPositive
          rcases ih source isPositive' with isGiven | ⟨atom', isRead', derives⟩
          · rw [residual.given_unread source isGiven] at isRead
            cases isRead
          · obtain rfl := Option.some.inj (isRead.symm.trans isRead')
            exact derives

theorem IsResidual.isStable (residual : IsResidual clauses given read others)
    (stable : IsStable clauses model) : IsStable others (readModel read model) := by
  have covered := fun source inModel =>
    residual.given_or_derives stable ((stable source).mp inModel)
  intro atom
  constructor
  · rintro ⟨source, inModel, isRead⟩
    rcases covered source inModel with isGiven | ⟨atom', isRead', derives⟩
    · rw [residual.given_unread source isGiven] at isRead
      cases isRead
    · obtain rfl := Option.some.inj (isRead.symm.trans isRead')
      exact derives
  · intro derives
    induction derives with
    | @clause other mem absent _ ih =>
        obtain ⟨clause, memClause, readsAs, positive, negative⟩ := residual.to_clause other mem
        refine ⟨clause.head, (stable _).mpr (.clause memClause ?_ ?_), readsAs.head⟩
        · intro source isNegative inModel
          rcases covered source inModel with isGiven | ⟨atom, isRead, _⟩
          · exact negative source isNegative isGiven
          · exact absent atom ((readsAs.negative atom).mpr ⟨source, isNegative, isRead⟩)
              ⟨source, inModel, isRead⟩
        · intro source isPositive
          cases isRead : read source with
          | none =>
              have isGiven := positive source isPositive isRead
              exact .clause (residual.given_clause source isGiven) nofun nofun
          | some atom =>
              obtain ⟨source', inModel, isRead'⟩ :=
                ih atom ((readsAs.positive atom).mpr ⟨source, isPositive, isRead⟩)
              obtain rfl := residual.read_injective isRead isRead'
              exact (stable source).mp inModel

theorem IsResidual.leveled (residual : IsResidual clauses given read others)
    (leveled : Leveled clauses level) : ∃ level', Leveled others level' := by
  classical
  let level' : α → Nat := fun atom =>
    if isRead : ∃ source, read source = some atom then level isRead.choose else 0
  have level_eq : ∀ {source atom}, read source = some atom → level' atom = level source := by
    intro source atom isRead
    have some : ∃ source, read source = .some atom := ⟨source, isRead⟩
    have same := residual.read_injective some.choose_spec isRead
    simp only [level', dif_pos some, same]
  refine ⟨level', fun other mem atom isPositive => ?_, fun other mem atom isNegative => ?_⟩
  · obtain ⟨clause, memClause, readsAs, _⟩ := residual.to_clause other mem
    obtain ⟨source, isPositive', isRead⟩ := (readsAs.positive atom).mp isPositive
    rw [level_eq isRead, level_eq readsAs.head]
    exact leveled.positive clause memClause source isPositive'
  · obtain ⟨clause, memClause, readsAs, _⟩ := residual.to_clause other mem
    obtain ⟨source, isNegative', isRead⟩ := (readsAs.negative atom).mp isNegative
    rw [level_eq isRead, level_eq readsAs.head]
    exact leveled.negative clause memClause source isNegative'

/-- What can be read of the stable model is the only stable model of what is left. -/
theorem IsResidual.isStable_iff (residual : IsResidual clauses given read others)
    (leveled : Leveled clauses level) (stable : IsStable clauses model) (other : Set α) :
    IsStable others other ↔ other = readModel read model := by
  obtain ⟨level', leveled'⟩ := residual.leveled leveled
  constructor
  · exact fun otherStable => otherStable.unique leveled' (residual.isStable stable)
  · rintro rfl
    exact residual.isStable stable

end

end Tyr.Lib
