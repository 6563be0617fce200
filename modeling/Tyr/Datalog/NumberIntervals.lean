import Tyr.Datalog.FunctionViews

/-!
Intervals as pairs of numbers.

A pair whose bounds are not in order is an empty interval. Sums and differences are
exact; products and quotients are exact on points, and otherwise bounded by the
largest absolute values.
-/

namespace Tyr.Datalog

open Tyr.Formalism Number

namespace NumberInterval

def isEmpty (a : Number × Number) : Bool := !a.1.le a.2

def empty : Number × Number := (nan, nan)

/-- An operation on two intervals that are not empty. -/
def combine (op : Number × Number → Number × Number → Number × Number)
    (a b : Number × Number) : Number × Number :=
  if isEmpty a || isEmpty b then empty else op a b

def hull (a b : Number × Number) : Number × Number :=
  if isEmpty a then b else if isEmpty b then a
  else (if b.1.lt a.1 then b.1 else a.1, if a.2.lt b.2 then b.2 else a.2)

def intersectBounds (a b : Number × Number) : Number × Number :=
  (if a.1.lt b.1 then b.1 else a.1, if b.2.lt a.2 then b.2 else a.2)

def neg (a : Number × Number) : Number × Number :=
  if isEmpty a then empty else (-a.2, -a.1)

def addBounds (a b : Number × Number) : Number × Number := (a.1 + b.1, a.2 + b.2)

def subBounds (a b : Number × Number) : Number × Number := (a.1 - b.2, a.2 - b.1)

/-- The largest absolute value between the bounds. -/
def magnitude (l u : ℚ) : ℚ := Max.max |l| |u|

def mulBounds : Number × Number → Number × Number → Number × Number
  | (finite l, finite u), (finite l', finite u') =>
      if l = u ∧ l' = u' then (finite (l * l'), finite (l * l'))
      else (finite (-(magnitude l u * magnitude l' u')), finite (magnitude l u * magnitude l' u'))
  | _, _ => (negInf, posInf)

def divBounds : Number × Number → Number × Number → Number × Number
  | (finite l, finite u), (finite l', finite u') =>
      if 0 < l' ∨ u' < 0 then
        if l = u ∧ l' = u' then (finite (l / l'), finite (l / l'))
        else (finite (-(magnitude l u / min |l'| |u'|)), finite (magnitude l u / min |l'| |u'|))
      else (negInf, posInf)
  | _, _ => (negInf, posInf)

def Contains (a : Number × Number) (v : ℚ) : Prop :=
  a.1.le (finite v) = true ∧ (finite v).le a.2 = true

end NumberInterval

open NumberInterval

/-- Intervals as pairs of numbers. -/
def numberIntervals : IntervalLibrary where
  Interval := Number × Number
  empty := NumberInterval.empty
  closed lower upper := (lower, upper)
  isEmpty := NumberInterval.isEmpty
  lower := Prod.fst
  upper := Prod.snd
  hull := NumberInterval.hull
  intersect := combine intersectBounds
  neg := NumberInterval.neg
  add := combine addBounds
  sub := combine subBounds
  mul := combine mulBounds
  div := combine divBounds

namespace NumberInterval

variable {a b : Number × Number} {v w l u l' u' : ℚ}

theorem isEmpty_false : isEmpty a = false ↔ a.1.le a.2 = true := by
  rw [isEmpty, Bool.not_eq_false']

theorem Contains.nonempty (contains : Contains a v) : isEmpty a = false :=
  isEmpty_false.mpr (Number.le_trans contains.1 contains.2)

theorem combine_of_nonempty {op : Number × Number → Number × Number → Number × Number}
    (left : isEmpty a = false) (right : isEmpty b = false) : combine op a b = op a b := by
  rw [combine, left, right]
  exact if_neg Bool.false_ne_true

theorem isEmpty_combine {op : Number × Number → Number × Number → Number × Number}
    (empty : isEmpty a = true ∨ isEmpty b = true) : isEmpty (combine op a b) = true := by
  have either : (isEmpty a || isEmpty b) = true := Bool.or_eq_true_iff.mpr empty
  rw [combine, if_pos either]
  rfl

/-- A lower bound of a rational is a rational or the negative infinity. -/
theorem lower_cases {bound : Number} (below : bound.le (finite v) = true) :
    bound = negInf ∨ ∃ l, bound = finite l ∧ l ≤ v := by
  cases bound with
  | nan => cases below
  | negInf => exact .inl rfl
  | posInf => cases below
  | finite l => exact .inr ⟨l, rfl, (finite_le l v).mp below⟩

theorem upper_cases {bound : Number} (above : (finite v).le bound = true) :
    bound = posInf ∨ ∃ u, bound = finite u ∧ v ≤ u := by
  cases bound with
  | nan => cases above
  | negInf => cases above
  | posInf => exact .inl rfl
  | finite u => exact .inr ⟨u, rfl, (finite_le v u).mp above⟩

theorem abs_le_magnitude (lower : l ≤ v) (upper : v ≤ u) : |v| ≤ magnitude l u := by
  rw [abs_le', magnitude]
  constructor
  · exact (upper.trans (le_abs_self u)).trans (le_max_right _ _)
  · exact ((neg_le_neg lower).trans (neg_le_abs l)).trans (le_max_left _ _)

theorem magnitude_nonneg (l u : ℚ) : 0 ≤ magnitude l u := (abs_nonneg l).trans (le_max_left _ _)

theorem contains_add (left : Contains a v) (right : Contains b w) :
    Contains (combine addBounds a b) (v + w) := by
  rw [combine_of_nonempty left.nonempty right.nonempty, addBounds]
  constructor
  · rcases lower_cases left.1 with inf | ⟨l, isLower, below⟩
    · rcases lower_cases right.1 with inf' | ⟨l', isLower', _⟩
      · simp only [inf, inf']
        rfl
      · simp only [inf, isLower']
        rfl
    · rcases lower_cases right.1 with inf' | ⟨l', isLower', below'⟩
      · simp only [isLower, inf']
        rfl
      · simp only [isLower, isLower', finite_add, finite_le]
        exact add_le_add below below'
  · rcases upper_cases left.2 with inf | ⟨u, isUpper, above⟩
    · rcases upper_cases right.2 with inf' | ⟨u', isUpper', _⟩
      · simp only [inf, inf']
        rfl
      · simp only [inf, isUpper']
        rfl
    · rcases upper_cases right.2 with inf' | ⟨u', isUpper', above'⟩
      · simp only [isUpper, inf']
        rfl
      · simp only [isUpper, isUpper', finite_add, finite_le]
        exact add_le_add above above'

theorem contains_neg (contains : Contains a v) : Contains (neg a) (-v) := by
  rw [neg, contains.nonempty, if_neg Bool.false_ne_true]
  constructor
  · rcases upper_cases contains.2 with inf | ⟨u, isUpper, above⟩
    · simp only [inf]
      rfl
    · simp only [isUpper, neg_finite, finite_le]
      exact neg_le_neg above
  · rcases lower_cases contains.1 with inf | ⟨l, isLower, below⟩
    · simp only [inf]
      rfl
    · simp only [isLower, neg_finite, finite_le]
      exact neg_le_neg below

theorem neg_of_nonempty (nonempty : isEmpty a = false) : neg a = (-a.2, -a.1) := by
  rw [neg, nonempty, if_neg Bool.false_ne_true]

theorem contains_sub (left : Contains a v) (right : Contains b w) :
    Contains (combine subBounds a b) (v - w) := by
  have negated := contains_neg right
  have same : combine subBounds a b = combine addBounds a (neg b) := by
    rw [combine_of_nonempty left.nonempty right.nonempty,
      combine_of_nonempty left.nonempty negated.nonempty, neg_of_nonempty right.nonempty]
    rfl
  rw [same, Rat.sub_eq_add_neg]
  exact contains_add left negated

theorem contains_mul (left : Contains a v) (right : Contains b w) :
    Contains (combine mulBounds a b) (v * w) := by
  rw [combine_of_nonempty left.nonempty right.nonempty]
  obtain ⟨lower, upper⟩ := a
  obtain ⟨lower', upper'⟩ := b
  have whole : Contains (negInf, posInf) (v * w) := ⟨rfl, rfl⟩
  rcases lower_cases left.1 with rfl | ⟨l, rfl, below⟩
  · exact whole
  rcases upper_cases left.2 with rfl | ⟨u, rfl, above⟩
  · exact whole
  rcases lower_cases right.1 with rfl | ⟨l', rfl, below'⟩
  · exact whole
  rcases upper_cases right.2 with rfl | ⟨u', rfl, above'⟩
  · exact whole
  rw [mulBounds]
  split
  · next points =>
      obtain ⟨rfl, rfl⟩ := points
      rw [le_antisymm above below, le_antisymm above' below']
      exact ⟨(finite_le _ _).mpr le_rfl, (finite_le _ _).mpr le_rfl⟩
  · have bound : |v * w| ≤ magnitude l u * magnitude l' u' := by
      rw [abs_mul]
      exact mul_le_mul (abs_le_magnitude below above) (abs_le_magnitude below' above')
        (abs_nonneg w) (magnitude_nonneg l u)
    obtain ⟨lowerBound, upperBound⟩ := abs_le.mp bound
    exact ⟨(finite_le _ _).mpr lowerBound, (finite_le _ _).mpr upperBound⟩

/-- Numbers between bounds of one sign are away from zero. -/
theorem min_abs_le (apart : 0 < l ∨ u < 0) (lower : l ≤ v) (upper : v ≤ u) :
    0 < min |l| |u| ∧ min |l| |u| ≤ |v| := by
  rcases apart with positive | negative
  · have positiveV := positive.trans_le lower
    have positiveU := positiveV.trans_le upper
    rw [abs_of_pos positive, abs_of_pos positiveU, abs_of_pos positiveV]
    exact ⟨lt_min positive positiveU, (min_le_left _ _).trans lower⟩
  · have negativeV := upper.trans_lt negative
    have negativeL := lower.trans_lt negativeV
    rw [abs_of_neg negative, abs_of_neg negativeL, abs_of_neg negativeV]
    exact ⟨lt_min (neg_pos.mpr negativeL) (neg_pos.mpr negative),
      (min_le_right _ _).trans (neg_le_neg upper)⟩

theorem contains_div (left : Contains a v) (right : Contains b w) :
    Contains (combine divBounds a b) (v / w) := by
  rw [combine_of_nonempty left.nonempty right.nonempty]
  obtain ⟨lower, upper⟩ := a
  obtain ⟨lower', upper'⟩ := b
  have whole : Contains (negInf, posInf) (v / w) := ⟨rfl, rfl⟩
  rcases lower_cases left.1 with rfl | ⟨l, rfl, below⟩
  · exact whole
  rcases upper_cases left.2 with rfl | ⟨u, rfl, above⟩
  · exact whole
  rcases lower_cases right.1 with rfl | ⟨l', rfl, below'⟩
  · exact whole
  rcases upper_cases right.2 with rfl | ⟨u', rfl, above'⟩
  · exact whole
  rw [divBounds]
  split
  · next apart =>
      split
      · next points =>
          obtain ⟨rfl, rfl⟩ := points
          rw [le_antisymm above below, le_antisymm above' below']
          exact ⟨(finite_le _ _).mpr le_rfl, (finite_le _ _).mpr le_rfl⟩
      · obtain ⟨positive, away⟩ := min_abs_le apart below' above'
        have bound : |v / w| ≤ magnitude l u / min |l'| |u'| := by
          rw [abs_div]
          exact div_le_div₀ (magnitude_nonneg l u) (abs_le_magnitude below above) positive away
        obtain ⟨lowerBound, upperBound⟩ := abs_le.mp bound
        exact ⟨(finite_le _ _).mpr lowerBound, (finite_le _ _).mpr upperBound⟩
  · exact whole

theorem isNumber_of_nonempty (nonempty : isEmpty a = false) : a.1 ≠ nan ∧ a.2 ≠ nan := by
  have inOrder := isEmpty_false.mp nonempty
  constructor
  · intro isNan
    rw [isNan, nan_le] at inOrder
    cases inOrder
  · intro isNan
    rw [isNan, le_nan] at inOrder
    cases inOrder

theorem hull_of_nonempty (left : isEmpty a = false) (right : isEmpty b = false) :
    hull a b = (if b.1.lt a.1 then b.1 else a.1, if a.2.lt b.2 then b.2 else a.2) := by
  rw [hull, left, right, if_neg Bool.false_ne_true, if_neg Bool.false_ne_true]

/-- The hull of two intervals contains both of them. -/
theorem contains_hull (left : isEmpty a = false) (right : isEmpty b = false)
    (contains : Contains a v ∨ Contains b v) : Contains (hull a b) v := by
  obtain ⟨lowerA, upperA⟩ := isNumber_of_nonempty left
  obtain ⟨lowerB, upperB⟩ := isNumber_of_nonempty right
  have of_lt : ∀ {x y : Number}, x.lt y = true → x.le y = true := by
    intro x y less
    rw [Number.le, less, Bool.true_or]
  rw [hull_of_nonempty left right]
  constructor
  · simp only
    split
    · next less =>
        exact contains.elim (fun inA => Number.le_trans (of_lt less) inA.1) fun inB => inB.1
    · next notLess =>
        have inOrder := Number.le_of_not_lt lowerA lowerB (Bool.eq_false_iff.mpr notLess)
        exact contains.elim (fun inA => inA.1) fun inB => Number.le_trans inOrder inB.1
  · simp only
    split
    · next less =>
        exact contains.elim (fun inA => Number.le_trans inA.2 (of_lt less)) fun inB => inB.2
    · next notLess =>
        have inOrder := Number.le_of_not_lt upperB upperA (Bool.eq_false_iff.mpr notLess)
        exact contains.elim (fun inA => inA.2) fun inB => Number.le_trans inB.2 inOrder

theorem hull_of_isEmpty_left (empty : isEmpty a = true) : hull a b = b := by
  rw [hull, if_pos empty]

theorem hull_of_isEmpty_right (left : isEmpty a = false) (empty : isEmpty b = true) :
    hull a b = a := by
  rw [hull, left, if_neg Bool.false_ne_true, if_pos empty]

theorem contains_intersect (left : Contains a v) (right : Contains b v) :
    Contains (combine intersectBounds a b) v := by
  rw [combine_of_nonempty left.nonempty right.nonempty, intersectBounds]
  constructor
  · simp only
    split
    · exact right.1
    · exact left.1
  · simp only
    split
    · exact right.2
    · exact left.2

theorem contains_hull_left (contains : Contains a v) : Contains (hull a b) v := by
  cases empty : isEmpty b with
  | true =>
      rw [hull_of_isEmpty_right contains.nonempty empty]
      exact contains
  | false => exact contains_hull contains.nonempty empty (.inl contains)

theorem contains_hull_right (contains : Contains b v) : Contains (hull a b) v := by
  cases empty : isEmpty a with
  | true =>
      rw [hull_of_isEmpty_left empty]
      exact contains
  | false => exact contains_hull empty contains.nonempty (.inr contains)

theorem nonempty_hull (left : isEmpty a = false) (right : isEmpty b = false) :
    isEmpty (hull a b) = false := by
  obtain ⟨lowerA, upperA⟩ := isNumber_of_nonempty left
  have inOrder := isEmpty_false.mp left
  have below : (if b.1.lt a.1 then b.1 else a.1).le a.1 = true := by
    split
    · next less => rw [Number.le, less, Bool.true_or]
    · exact le_refl lowerA
  have above : a.2.le (if a.2.lt b.2 then b.2 else a.2) = true := by
    split
    · next less => rw [Number.le, less, Bool.true_or]
    · exact le_refl upperA
  rw [hull_of_nonempty left right]
  exact isEmpty_false.mpr (Number.le_trans below (Number.le_trans inOrder above))

theorem isEmpty_hull (left : isEmpty a = true) (right : isEmpty b = true) :
    isEmpty (hull a b) = true := by
  rw [hull_of_isEmpty_left left]
  exact right

theorem isEmpty_neg (empty : isEmpty a = true) : isEmpty (neg a) = true := by
  rw [neg, if_pos empty]
  rfl

/-! ### Rational bounds -/

theorem isEmpty_finite (inOrder : l ≤ u) : isEmpty (finite l, finite u) = false :=
  isEmpty_false.mpr ((finite_le l u).mpr inOrder)

theorem combine_finite {op : Number × Number → Number × Number → Number × Number}
    (left : l ≤ u) (right : l' ≤ u') :
    combine op (finite l, finite u) (finite l', finite u') =
      op (finite l, finite u) (finite l', finite u') :=
  combine_of_nonempty (isEmpty_finite left) (isEmpty_finite right)

theorem intersectBounds_finite (l u l' u' : ℚ) :
    intersectBounds (finite l, finite u) (finite l', finite u') =
      (finite (Max.max l l'), finite (min u u')) := by
  have lower : (if (finite l).lt (finite l') then finite l' else finite l) =
      finite (Max.max l l') := by
    split
    · next less => rw [max_eq_right ((finite_lt l l').mp less).le]
    · next notLess => rw [max_eq_left (not_lt.mp (mt (finite_lt l l').mpr notLess))]
  have upper : (if (finite u').lt (finite u) then finite u' else finite u) =
      finite (min u u') := by
    split
    · next less => rw [min_eq_right ((finite_lt u' u).mp less).le]
    · next notLess => rw [min_eq_left (not_lt.mp (mt (finite_lt u' u).mpr notLess))]
  exact Prod.ext lower upper

/-- A product of rational bounds. -/
theorem mulBounds_finite (l u l' u' : ℚ) :
    ∃ lower upper, mulBounds (finite l, finite u) (finite l', finite u') =
      (finite lower, finite upper) ∧ lower ≤ upper := by
  rw [mulBounds]
  split
  · exact ⟨_, _, rfl, le_rfl⟩
  · exact ⟨_, _, rfl, neg_le_self (mul_nonneg (magnitude_nonneg l u) (magnitude_nonneg l' u'))⟩

/-- A quotient of rational bounds, those of the divisor of one sign. -/
theorem divBounds_finite (l u : ℚ) {l' u' : ℚ} (apart : 0 < l' ∨ u' < 0) :
    ∃ lower upper, divBounds (finite l, finite u) (finite l', finite u') =
      (finite lower, finite upper) ∧ lower ≤ upper := by
  rw [divBounds, if_pos apart]
  split
  · exact ⟨_, _, rfl, le_rfl⟩
  · exact ⟨_, _, rfl, neg_le_self
      (div_nonneg (magnitude_nonneg l u) (le_min (abs_nonneg l') (abs_nonneg u')))⟩

end NumberInterval

/-- Membership, and the enclosures. -/
def numberEnclosure : numberIntervals.Enclosure where
  Contains := NumberInterval.Contains
  closed v := ⟨(finite_le v v).mpr le_rfl, (finite_le v v).mpr le_rfl⟩
  hull_left contains := contains_hull_left contains
  hull_right contains := contains_hull_right contains
  intersect left right := contains_intersect left right
  neg contains := contains_neg contains
  add left right := contains_add left right
  sub left right := contains_sub left right
  mul left right := contains_mul left right
  div left right _ := contains_div left right
  nonempty contains := contains.nonempty
  lower_le contains := contains.1
  le_upper contains := contains.2

theorem numberIntervals_hullSpec : numberIntervals.HullSpec where
  empty := rfl
  closed_nan := rfl
  closed _ isNumber := ⟨isEmpty_false.mpr (le_refl isNumber), rfl, rfl⟩
  hull_empty _ _ left right := isEmpty_hull left right
  hull_left _ _ left right := hull_of_isEmpty_right left right
  hull_right _ _ left _ := hull_of_isEmpty_left left
  hull _ _ left right := ⟨nonempty_hull left right,
    congrArg Prod.fst (hull_of_nonempty left right), congrArg Prod.snd (hull_of_nonempty left right)⟩

theorem numberIntervals_propagatesEmpty : numberIntervals.PropagatesEmpty where
  empty := rfl
  neg empty := isEmpty_neg empty
  apply op a b empty := by
    cases op with
    | add => exact (isEmpty_combine empty : NumberInterval.isEmpty (combine addBounds a b) = true)
    | sub => exact (isEmpty_combine empty : NumberInterval.isEmpty (combine subBounds a b) = true)
    | mul => exact (isEmpty_combine empty : NumberInterval.isEmpty (combine mulBounds a b) = true)
    | div => exact (isEmpty_combine empty : NumberInterval.isEmpty (combine divBounds a b) = true)

section

open IntervalLibrary

variable {a b : numberIntervals.Interval} {l u l' u' : ℚ}

theorem between_iff : Between a l u ↔ a = (finite l, finite u) ∧ l ≤ u := by
  constructor
  · rintro ⟨nonempty, lower, upper⟩
    have inOrder := isEmpty_false.mp nonempty
    have isLower : a.1 = finite l := lower
    have isUpper : a.2 = finite u := upper
    rw [isLower, isUpper, finite_le] at inOrder
    exact ⟨Prod.ext isLower isUpper, inOrder⟩
  · rintro ⟨rfl, inOrder⟩
    exact ⟨isEmpty_finite inOrder, rfl, rfl⟩

theorem numberIntervals_boundsSpec : numberIntervals.BoundsSpec where
  intersect {a b l u l' u'} left right overlap := by
    obtain ⟨rfl, inOrder⟩ := between_iff.mp left
    obtain ⟨rfl, inOrder'⟩ := between_iff.mp right
    exact between_iff.mpr
      ⟨(combine_finite inOrder inOrder').trans (intersectBounds_finite l u l' u'), overlap⟩
  intersect_empty empty := isEmpty_combine empty
  neg {a l u} between := by
    obtain ⟨rfl, inOrder⟩ := between_iff.mp between
    exact between_iff.mpr ⟨neg_of_nonempty (isEmpty_finite inOrder), neg_le_neg inOrder⟩
  add {a b l u l' u'} left right := by
    obtain ⟨rfl, inOrder⟩ := between_iff.mp left
    obtain ⟨rfl, inOrder'⟩ := between_iff.mp right
    exact between_iff.mpr ⟨combine_finite inOrder inOrder', add_le_add inOrder inOrder'⟩
  sub {a b l u l' u'} left right := by
    obtain ⟨rfl, inOrder⟩ := between_iff.mp left
    obtain ⟨rfl, inOrder'⟩ := between_iff.mp right
    have difference : subBounds (finite l, finite u) (finite l', finite u') =
        (finite (l - u'), finite (u - l')) :=
      Prod.ext (finite_sub l u') (finite_sub u l')
    exact between_iff.mpr
      ⟨(combine_finite inOrder inOrder').trans difference, sub_le_sub inOrder inOrder'⟩
  mul_point {a b x y} left right := by
    obtain ⟨rfl, inOrder⟩ := between_iff.mp left
    obtain ⟨rfl, inOrder'⟩ := between_iff.mp right
    exact between_iff.mpr
      ⟨(combine_finite inOrder inOrder').trans (if_pos ⟨rfl, rfl⟩), le_rfl⟩
  mul {a b l u l' u'} left right := by
    obtain ⟨rfl, inOrder⟩ := between_iff.mp left
    obtain ⟨rfl, inOrder'⟩ := between_iff.mp right
    obtain ⟨lower, upper, product, ordered⟩ := mulBounds_finite l u l' u'
    exact ⟨lower, upper,
      between_iff.mpr ⟨(combine_finite inOrder inOrder').trans product, ordered⟩⟩
  div_point {a b x y} left right nonzero := by
    obtain ⟨rfl, inOrder⟩ := between_iff.mp left
    obtain ⟨rfl, inOrder'⟩ := between_iff.mp right
    have quotient : divBounds (finite x, finite x) (finite y, finite y) =
        (finite (x / y), finite (x / y)) := by
      rw [divBounds, if_pos (lt_or_gt_of_ne nonzero).symm, if_pos ⟨rfl, rfl⟩]
    exact between_iff.mpr ⟨(combine_finite inOrder inOrder').trans quotient, le_rfl⟩
  div {a b l u l' u'} left right apart := by
    obtain ⟨rfl, inOrder⟩ := between_iff.mp left
    obtain ⟨rfl, inOrder'⟩ := between_iff.mp right
    obtain ⟨lower, upper, quotient, ordered⟩ := divBounds_finite l u apart
    exact ⟨lower, upper,
      between_iff.mpr ⟨(combine_finite inOrder inOrder').trans quotient, ordered⟩⟩

end

end Tyr.Datalog
