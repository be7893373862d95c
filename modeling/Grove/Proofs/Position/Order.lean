import Mathlib.Data.Rat.Floor
import Mathlib.Tactic
import Grove.Position.Span
/-!
# The order of fractions is the order of their values

The comparison by continued fractions never multiplies. It gives the order of the two cross products
over the natural numbers, and so of the rational values, for all fractions but the point at infinity.
-/

set_option autoImplicit false

namespace Grove.Fraction

/-- The rational number that a fraction denotes; the point at infinity denotes none. -/
def value (a : Fraction) : ℚ := a.numerator.toNat / a.denominator.toNat

def cross (a b : Fraction) : ℕ := a.numerator.toNat * b.denominator.toNat

theorem toNat_pos_of_ne_zero {w : Word} (h : w ≠ 0) : 0 < w.toNat :=
  Nat.pos_of_ne_zero fun e => h (BitVec.eq_of_toNat_eq e)

theorem numerator_eq (a : Fraction) :
    a.numerator.toNat = a.denominator.toNat * (a.numerator / a.denominator).toNat
      + (a.numerator % a.denominator).toNat := by
  rw [BitVec.toNat_udiv, BitVec.toNat_umod]
  exact (Nat.div_add_mod ..).symm

theorem cross_lt_of_quotient_lt {a b : Fraction} (ha : a.denominator ≠ 0) (hb : b.denominator ≠ 0)
    (h : a.numerator / a.denominator < b.numerator / b.denominator) : cross a b < cross b a := by
  have hr := umod_toNat_lt (a := a.numerator) ha
  have hq : (a.numerator / a.denominator).toNat + 1 ≤ (b.numerator / b.denominator).toNat :=
    BitVec.lt_def.1 h
  have hd := toNat_pos_of_ne_zero hb
  calc
    a.numerator.toNat * b.denominator.toNat
      < a.denominator.toNat * ((a.numerator / a.denominator).toNat + 1) * b.denominator.toNat := by
        apply Nat.mul_lt_mul_of_pos_right _ hd
        rw [a.numerator_eq, Nat.mul_add_one]
        omega
    _ ≤ a.denominator.toNat * (b.numerator / b.denominator).toNat * b.denominator.toNat :=
        Nat.mul_le_mul_right _ (Nat.mul_le_mul_left _ hq)
    _ = b.denominator.toNat * (b.numerator / b.denominator).toNat * a.denominator.toNat := by ring
    _ ≤ b.numerator.toNat * a.denominator.toNat := by
        apply Nat.mul_le_mul_right
        rw [b.numerator_eq]
        omega

theorem compare_add_left (k m n : ℕ) : compare (k + m) (k + n) = compare m n := by
  rcases lt_trichotomy m n with hlt | rfl | hgt
  · rw [compare_lt_iff_lt.2 hlt, compare_lt_iff_lt]
    exact Nat.add_lt_add_left hlt k
  · rw [compare_eq_iff_eq.2 rfl, compare_eq_iff_eq.2 rfl]
  · rw [compare_gt_iff_gt.2 hgt, compare_gt_iff_gt]
    exact Nat.add_lt_add_left hgt k

theorem compare_cross_of_quotient_eq {a b : Fraction}
    (h₁ : ¬ a.numerator / a.denominator < b.numerator / b.denominator)
    (h₂ : ¬ b.numerator / b.denominator < a.numerator / a.denominator) :
    compare (cross a b) (cross b a) =
      compare ((a.numerator % a.denominator).toNat * b.denominator.toNat)
        ((b.numerator % b.denominator).toNat * a.denominator.toNat) := by
  have hq : (a.numerator / a.denominator).toNat = (b.numerator / b.denominator).toNat := by
    rw [BitVec.lt_def] at h₁ h₂
    omega
  have hc : a.denominator.toNat * (b.numerator / b.denominator).toNat * b.denominator.toNat =
      b.denominator.toNat * (b.numerator / b.denominator).toNat * a.denominator.toNat := by ring
  unfold cross
  rw [a.numerator_eq, b.numerator_eq, hq, Nat.add_mul, Nat.add_mul, hc]
  exact compare_add_left ..

theorem order_eq_compare_cross (a b : Fraction) (ha : a.denominator ≠ 0) (hb : b.denominator ≠ 0) :
    a.order b = compare (cross a b) (cross b a) := by
  fun_induction order a b with
  | case1 => contradiction
  | case2 => contradiction
  | case3 => contradiction
  | case4 a b _ _ hlt => exact (compare_lt_iff_lt.2 (cross_lt_of_quotient_lt ha hb hlt)).symm
  | case5 a b _ _ _ hlt => exact (compare_gt_iff_gt.2 (cross_lt_of_quotient_lt hb ha hlt)).symm
  | case6 a b _ _ hlt hgt hra hrb =>
    rw [compare_cross_of_quotient_eq hlt hgt, hra, hrb]
    simp
  | case7 a b _ _ hlt hgt hra hrb =>
    rw [compare_cross_of_quotient_eq hlt hgt, hra, eq_comm, compare_lt_iff_lt]
    simpa using Nat.mul_pos (toNat_pos_of_ne_zero hrb) (toNat_pos_of_ne_zero ha)
  | case8 a b _ _ hlt hgt hra hrb =>
    rw [compare_cross_of_quotient_eq hlt hgt, hrb, eq_comm, compare_gt_iff_gt]
    simpa using Nat.mul_pos (toNat_pos_of_ne_zero hra) (toNat_pos_of_ne_zero hb)
  | case9 a b _ _ hlt hgt hra hrb ih =>
    -- the reciprocals of the remainders, exchanged, have the same cross products
    rw [compare_cross_of_quotient_eq hlt hgt, ih hrb hra]
    unfold cross
    rw [Nat.mul_comm b.denominator.toNat, Nat.mul_comm a.denominator.toNat]

theorem cross_lt_iff_value_lt {a b : Fraction} (ha : a.denominator ≠ 0) (hb : b.denominator ≠ 0) :
    cross a b < cross b a ↔ a.value < b.value := by
  have hda : (0 : ℚ) < a.denominator.toNat := Nat.cast_pos.2 (toNat_pos_of_ne_zero ha)
  have hdb : (0 : ℚ) < b.denominator.toNat := Nat.cast_pos.2 (toNat_pos_of_ne_zero hb)
  unfold value cross
  rw [div_lt_div_iff₀ hda hdb]
  exact_mod_cast Iff.rfl

theorem cross_le_iff_value_le {a b : Fraction} (ha : a.denominator ≠ 0) (hb : b.denominator ≠ 0) :
    cross a b ≤ cross b a ↔ a.value ≤ b.value := by
  rw [← not_lt, ← not_lt, cross_lt_iff_value_lt hb ha]

theorem order_eq_compare_value {a b : Fraction} (ha : a.denominator ≠ 0) (hb : b.denominator ≠ 0) :
    a.order b = compare a.value b.value := by
  rw [order_eq_compare_cross a b ha hb]
  rcases lt_trichotomy (cross a b) (cross b a) with hlt | heq | hgt
  · rw [compare_lt_iff_lt.2 hlt, compare_lt_iff_lt.2 ((cross_lt_iff_value_lt ha hb).1 hlt)]
  · have hle : ¬ a.value < b.value := fun h => heq.not_lt ((cross_lt_iff_value_lt ha hb).2 h)
    have hge : ¬ b.value < a.value := fun h => heq.not_gt ((cross_lt_iff_value_lt hb ha).2 h)
    rw [compare_eq_iff_eq.2 heq, compare_eq_iff_eq.2 (le_antisymm (not_lt.1 hge) (not_lt.1 hle))]
  · rw [compare_gt_iff_gt.2 hgt, compare_gt_iff_gt.2 ((cross_lt_iff_value_lt hb ha).1 hgt)]

theorem less_iff {a b : Fraction} (ha : a.denominator ≠ 0) (hb : b.denominator ≠ 0) :
    a.less b = true ↔ a.value < b.value := by
  unfold less
  rw [order_eq_compare_value ha hb, beq_iff_eq, compare_lt_iff_lt]

end Grove.Fraction
