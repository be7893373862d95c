import Mathlib.Tactic
import Mathlib.Order.WithBot
import Grove.Proofs.Position.Neighbours
/-!
# The comparison of fractions as a loop

Two fractions are compared by expanding both at once. As long as their whole parts agree and both leave a remainder,
they turn into the reciprocals of their remainders, and the sense of the comparison flips. The loop is given here
with every division checked and with a bound on its rounds. It never divides by zero, and the product of a
denominator and its remainder at least halves in each round, so that words are compared within 257 rounds. What it
finds is the order of the points that the fractions denote on a line with one end.
-/

set_option autoImplicit false

namespace Grove.Fraction

/-- The point that a fraction denotes. The point at infinity is above all others. -/
def point (a : Fraction) : WithTop ℚ := if a.denominator = 0 then ⊤ else a.value

theorem point_of_infinite {a : Fraction} (ha : a.denominator = 0) : a.point = ⊤ := if_pos ha

theorem point_of_finite {a : Fraction} (ha : a.denominator ≠ 0) : a.point = a.value := if_neg ha

section
variable {a b : Fraction}

theorem order_infinite (ha : a.denominator = 0) (hb : b.denominator = 0) : a.order b = .eq := by
  rw [order, dif_pos ha, if_pos hb]

theorem order_infinite_finite (ha : a.denominator = 0) (hb : b.denominator ≠ 0) : a.order b = .gt := by
  rw [order, dif_pos ha, if_neg hb]

theorem order_finite_infinite (ha : a.denominator ≠ 0) (hb : b.denominator = 0) : a.order b = .lt := by
  rw [order, dif_neg ha, dif_pos hb]

end

theorem order_eq_compare_point (a b : Fraction) : a.order b = compare a.point b.point := by
  by_cases ha : a.denominator = 0
  · by_cases hb : b.denominator = 0
    · rw [order_infinite ha hb, point_of_infinite ha, point_of_infinite hb, eq_comm, compare_eq_iff_eq]
    · rw [order_infinite_finite ha hb, point_of_infinite ha, point_of_finite hb, eq_comm, compare_gt_iff_gt]
      exact WithTop.coe_lt_top _
  · by_cases hb : b.denominator = 0
    · rw [order_finite_infinite ha hb, point_of_finite ha, point_of_infinite hb, eq_comm, compare_lt_iff_lt]
      exact WithTop.coe_lt_top _
    · rw [order_eq_compare_value ha hb, point_of_finite ha, point_of_finite hb, ← cmp_eq_compare, ← cmp_eq_compare]
      exact (WithTop.coe_strictMono.cmp_map_eq a.value b.value).symm

instance : Std.TransCmp order where
  eq_swap := by
    intro a b
    rw [order_eq_compare_point, order_eq_compare_point]
    exact Std.OrientedOrd.eq_swap
  isLE_trans := by
    intro a b c
    rw [order_eq_compare_point, order_eq_compare_point, order_eq_compare_point]
    exact Std.TransCmp.isLE_trans

theorem order_swap (a b : Fraction) : (a.order b).swap = b.order a := Std.OrientedCmp.eq_swap.symm

/-- What the whole parts and the remainders of two fractions tell of their order. -/
def settled? (whole rest whole' rest' : Word) : Option Ordering :=
  if whole < whole' then some .lt
  else if whole' < whole then some .gt
  else if rest = 0 then some (if rest' = 0 then .eq else .lt)
  else if rest' = 0 then some .gt
  else none

def orderRounds? : ℕ → Bool → Fraction → Fraction → Option Ordering
  | 0, _, _, _ => none
  | rounds + 1, flipped, a, b => do
    let whole ← Word.div? a.numerator a.denominator
    let rest ← Word.mod? a.numerator a.denominator
    let whole' ← Word.div? b.numerator b.denominator
    let rest' ← Word.mod? b.numerator b.denominator
    match settled? whole rest whole' rest' with
    | some found => some (if flipped then found.swap else found)
    | none => orderRounds? rounds (!flipped) ⟨a.denominator, rest⟩ ⟨b.denominator, rest'⟩

/-- The comparison by checked divisions; none if it divides by zero, or is not done after the rounds. -/
def orderChecked? (rounds : ℕ) (a b : Fraction) : Option Ordering :=
  if a.isInfinite then some (if b.isInfinite then .eq else .gt)
  else if b.isInfinite then some .lt
  else orderRounds? rounds false a b

section
variable {a b : Fraction}

def round? (a b : Fraction) : Option Ordering :=
  settled? (a.numerator / a.denominator) (a.numerator % a.denominator) (b.numerator / b.denominator)
    (b.numerator % b.denominator)

def next (a : Fraction) : Fraction := ⟨a.denominator, a.numerator % a.denominator⟩

theorem order_of_round {found : Ordering} (ha : a.denominator ≠ 0) (hb : b.denominator ≠ 0)
    (h : round? a b = some found) : a.order b = found := by
  rw [order, dif_neg ha, dif_neg hb]
  unfold round? settled? at h
  split_ifs at h ⊢ <;> exact Option.some.inj h

/-- A round that finds nothing leaves two remainders, whose reciprocals have the opposite order. -/
theorem order_next (ha : a.denominator ≠ 0) (hb : b.denominator ≠ 0) (h : round? a b = none) :
    a.next.denominator ≠ 0 ∧ b.next.denominator ≠ 0 ∧ (a.next.order b.next).swap = a.order b := by
  rw [order_swap, order.eq_def a, dif_neg ha, dif_neg hb]
  unfold round? settled? at h
  split_ifs at h ⊢ with hlt hgt hra hrb
  exact ⟨hra, hrb, rfl⟩

theorem orderRounds?_succ {rounds : ℕ} {flipped : Bool} (ha : a.denominator ≠ 0) (hb : b.denominator ≠ 0) :
    orderRounds? (rounds + 1) flipped a b =
      match round? a b with
      | some found => some (if flipped then found.swap else found)
      | none => orderRounds? rounds (!flipped) a.next b.next := by
  simp only [orderRounds?, Word.div?_of_ne ha, Word.mod?_of_ne ha, Word.div?_of_ne hb, Word.mod?_of_ne hb, bind,
    Option.bind]
  rfl

def weight (a : Fraction) : ℕ := a.denominator.toNat * a.next.denominator.toNat

theorem two_mul_mul_mod_lt {m r : ℕ} (hr : 0 < r) (hlt : r < m) : 2 * (r * (m % r)) < m * r := by
  have hmod : m % r < r := Nat.mod_lt m hr
  have hsplit : r + m % r ≤ m :=
    calc
      r + m % r ≤ r * (m / r) + m % r := Nat.add_le_add_right (Nat.le_mul_of_pos_right r (Nat.div_pos hlt.le hr)) _
      _ = m := Nat.div_add_mod m r
  calc
    2 * (r * (m % r)) = 2 * (m % r) * r := by ring
    _ < m * r := Nat.mul_lt_mul_of_pos_right (by omega) hr

/-- From one round to the next the product of the denominator and the remainder at least halves. -/
theorem two_mul_weight_next_lt (ha : a.denominator ≠ 0) (hnext : a.next.denominator ≠ 0) :
    2 * a.next.weight < a.weight := by
  have hmod : a.next.next.denominator.toNat = a.denominator.toNat % a.next.denominator.toNat := BitVec.toNat_umod ..
  unfold weight
  rw [hmod]
  exact two_mul_mul_mod_lt (toNat_pos_of_ne_zero hnext) (umod_toNat_lt ha)

theorem orderRounds?_eq {rounds : ℕ} {flipped : Bool} (ha : a.denominator ≠ 0) (hb : b.denominator ≠ 0)
    (hweight : a.weight < 2 ^ rounds) :
    orderRounds? (rounds + 1) flipped a b = some (if flipped then (a.order b).swap else a.order b) := by
  -- the weight bounds the rounds that are left; a round that finds nothing has two remainders, so some weight
  induction rounds generalizing a b flipped with
  | zero =>
    rw [orderRounds?_succ ha hb]
    cases hround : round? a b with
    | some found => rw [order_of_round ha hb hround]
    | none =>
      have hpos := Nat.mul_pos (toNat_pos_of_ne_zero ha) (toNat_pos_of_ne_zero (order_next ha hb hround).1)
      exact absurd hweight (not_lt.2 hpos)
  | succ rounds ih =>
    rw [orderRounds?_succ ha hb]
    cases hround : round? a b with
    | some found => rw [order_of_round ha hb hround]
    | none =>
      obtain ⟨ha', hb', hswap⟩ := order_next ha hb hround
      have hhalf := two_mul_weight_next_lt ha ha'
      rw [pow_succ] at hweight
      dsimp only
      rw [ih ha' hb' (by omega), ← hswap]
      cases flipped <;> simp

theorem weight_lt (ha : a.denominator ≠ 0) : a.weight < 2 ^ 256 :=
  calc
    a.weight ≤ a.denominator.toNat * a.denominator.toNat := Nat.mul_le_mul_left _ (umod_toNat_lt ha).le
    _ < 2 ^ 128 * 2 ^ 128 := Nat.mul_self_lt_mul_self a.denominator.isLt
    _ = 2 ^ 256 := by rw [← pow_add]

theorem orderChecked?_eq {rounds : ℕ} (h : 256 < rounds) : orderChecked? rounds a b = some (a.order b) := by
  obtain ⟨rounds, rfl⟩ := Nat.exists_eq_succ_of_ne_zero (Nat.ne_zero_of_lt h)
  unfold orderChecked?
  by_cases ha : a.denominator = 0
  · rw [if_pos (isInfinite_iff.2 ha)]
    by_cases hb : b.denominator = 0
    · rw [if_pos (isInfinite_iff.2 hb), order_infinite ha hb]
    · rw [if_neg (mt isInfinite_iff.1 hb), order_infinite_finite ha hb]
  · rw [if_neg (mt isInfinite_iff.1 ha)]
    by_cases hb : b.denominator = 0
    · rw [if_pos (isInfinite_iff.2 hb), order_finite_infinite ha hb]
    · rw [if_neg (mt isInfinite_iff.1 hb)]
      exact orderRounds?_eq ha hb ((weight_lt ha).trans_le (Nat.pow_le_pow_right (by decide) (Nat.le_of_lt_succ h)))

end

/-- The comparison ends within 257 rounds and divides by zero in none. It gives the order of the cross products over
unbounded numbers, and puts the point at infinity above all others; so it is the total order of the points, which the
tests for equality and order share. -/
theorem order_is_exact (a b : Fraction) :
    (∀ rounds, 256 < rounds → orderChecked? rounds a b = some (a.order b)) ∧
    (a.denominator ≠ 0 → b.denominator ≠ 0 →
      a.order b = compare (a.numerator.toNat * b.denominator.toNat) (b.numerator.toNat * a.denominator.toNat)) ∧
    (a.denominator = 0 → b.denominator = 0 → a.order b = .eq) ∧
    (a.denominator = 0 → b.denominator ≠ 0 → a.order b = .gt ∧ b.order a = .lt) ∧
    a.order b = compare a.point b.point ∧ Std.TransCmp order ∧
    (a.agrees b = true ↔ a.order b = .eq) ∧ (a.agrees b = true ↔ a.point = b.point) ∧
    a.partialOrder? b = some (a.order b) ∧ (a.less b = true ↔ a.partialOrder? b = some .lt) := by
  refine ⟨fun rounds h => orderChecked?_eq h, order_eq_compare_cross a b, order_infinite,
    fun ha hb => ⟨order_infinite_finite ha hb, order_finite_infinite hb ha⟩, order_eq_compare_point a b, inferInstance,
    beq_iff_eq, ?_, rfl, ?_⟩
  · unfold agrees
    rw [beq_iff_eq, order_eq_compare_point, compare_eq_iff_eq]
  · unfold less partialOrder?
    rw [beq_iff_eq, Option.some_inj]

/-- Cross products of these two take twice as many bits as a word has. -/
theorem order_is_exact_large :
    (⟨113427455640312821154458202477256070485, 113427455640312821154458202477256070484⟩ : Fraction).order
      ⟨113427455640312821154458202477256070484, 113427455640312821154458202477256070483⟩ = .lt ∧
    (⟨0, 0⟩ : Fraction).order ⟨3, 0⟩ = .eq ∧ (⟨3, 1⟩ : Fraction).order infinity = .lt := by
  refine ⟨?_, ?_, ?_⟩
  · rw [(order_is_exact _ _).2.1 (by decide) (by decide)]
    decide
  · exact (order_is_exact _ _).2.2.1 rfl rfl
  · exact ((order_is_exact infinity ⟨3, 1⟩).2.2.2.1 rfl (by decide)).2

end Grove.Fraction
