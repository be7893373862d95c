import Mathlib.Data.Rat.Floor
import Mathlib.Tactic
import Grove.Position.Span
import Grove.Proofs.Position.Expansion
/-!
# Rendered boundaries

A rendered boundary carries the digits of its own fraction. Between boundaries rendered in one format the
digits never show an order that the values do not have.
-/

set_option autoImplicit false

namespace Grove

namespace Fraction

theorem toNat_ofNat_div (w : Word) (k : ℕ) : (BitVec.ofNat 128 (w.toNat / k)).toNat = w.toNat / k := by
  rw [BitVec.toNat_ofNat]
  exact Nat.mod_eq_of_lt ((Nat.div_le_self ..).trans_lt (Word.toNat_lt_size w))

theorem reduced_value {a : Fraction} (ha : a.denominator ≠ 0) :
    a.reduced.denominator ≠ 0 ∧ a.reduced.value = a.value := by
  have hinf : a.isInfinite = false := by simpa [isInfinite] using ha
  unfold reduced
  rw [hinf, if_neg (by decide)]
  split
  · exact ⟨ha, rfl⟩
  · next hg =>
    have hg₀ : (a.divisor : ℚ) ≠ 0 := by
      rw [Nat.cast_ne_zero]
      omega
    have hpos : 0 < a.denominator.toNat / a.divisor :=
      Nat.div_pos (Nat.gcd_le_right _ (toNat_pos_of_ne_zero ha)) (by omega)
    constructor
    · intro h
      have h₀ := congrArg BitVec.toNat h
      rw [toNat_ofNat_div] at h₀
      exact hpos.ne' h₀
    · have hnum : a.divisor ∣ a.numerator.toNat := Nat.gcd_dvd_left ..
      have hden : a.divisor ∣ a.denominator.toNat := Nat.gcd_dvd_right ..
      unfold value
      rw [toNat_ofNat_div, toNat_ofNat_div, Nat.cast_div hnum hg₀, Nat.cast_div hden hg₀,
        div_div_div_cancel_right₀ hg₀]

end Fraction

namespace Position

/-- The digits of a boundary are those of its fraction in a format. -/
def Rendered (format : Format) (p : Position) : Prop :=
  p.fraction.toDecimal? format.integerDigits.toNat format.fractionDigits.toNat = some p.encoding.toList

def value (p : Position) : ℚ := p.fraction.value

theorem render_eq_ok {a : Fraction} {format : Format} {p : Position} (h : render a format = .ok p) :
    p.Rendered format ∧ p.fraction = a.reduced := by
  unfold render at h
  dsimp only at h
  split at h
  · next digits hd =>
    cases h
    exact ⟨by simpa [Rendered, fraction] using hd, rfl⟩
  · cases h

theorem render_value {a : Fraction} {format : Format} {p : Position} (ha : a.denominator ≠ 0)
    (h : render a format = .ok p) : p.value = a.value := by
  unfold value
  rw [(render_eq_ok h).2, (Fraction.reduced_value ha).2]

section
variable {format : Format} {p q r : Position}

theorem Rendered.finite (hp : p.Rendered format) : p.fraction.denominator ≠ 0 :=
  (Fraction.toDecimal?_eq_some hp).1

theorem Rendered.less_iff (hp : p.Rendered format) (hq : q.Rendered format) :
    p.less q = true ↔ p.value < q.value := Fraction.less_iff hp.finite hq.finite

theorem Rendered.order_eq (hp : p.Rendered format) (hq : q.Rendered format) :
    p.order q = compare p.value q.value := Fraction.order_eq_compare_value hp.finite hq.finite

theorem Rendered.order_isLE (hp : p.Rendered format) (hq : q.Rendered format) :
    (p.order q).isLE = true ↔ p.value ≤ q.value := by
  rw [hp.order_eq hq, ← Ordering.ne_gt_iff_isLE]
  exact compare_le_iff_le

theorem Rendered.encoding_lt_iff (hp : p.Rendered format) (hq : q.Rendered format) :
    p.encoding < q.encoding ↔ p.fraction.truncation format.fractionDigits.toNat <
      q.fraction.truncation format.fractionDigits.toNat := by
  rw [String.lt_iff]
  exact Fraction.toDecimal?_lt_iff hp hq

/-- Digits cut off never turn an order around. -/
theorem Rendered.not_encoding_lt (hp : p.Rendered format) (hq : q.Rendered format)
    (h : p.value ≤ q.value) : ¬ q.encoding < p.encoding := by
  rw [hq.encoding_lt_iff hp, not_lt]
  exact Fraction.truncation_mono h _

theorem Rendered.encoding_lt_of_value_le (hp : p.Rendered format) (hq : q.Rendered format)
    (hr : r.Rendered format) (hpq : p.encoding < q.encoding) (hqr : q.value ≤ r.value) :
    p.encoding < r.encoding := by
  rw [hp.encoding_lt_iff hq] at hpq
  rw [hp.encoding_lt_iff hr]
  exact hpq.trans_le (Fraction.truncation_mono hqr _)

theorem Rendered.value_lt (hp : p.Rendered format) (hq : q.Rendered format)
    (h : p.encoding < q.encoding) : p.value < q.value := by
  by_contra hle
  exact hq.not_encoding_lt hp (not_lt.1 hle) h

theorem Rendered.kept_iff (hp : p.Rendered format) (hq : q.Rendered format) :
    Span.kept p q = true ↔ (p.value < q.value → p.encoding < q.encoding) := by
  unfold Span.kept
  rw [Bool.or_eq_true, Bool.not_eq_true', ← Bool.not_eq_true, hp.less_iff hq, decide_eq_true_eq]
  exact imp_iff_not_or.symm

end

end Position

end Grove
