import Mathlib.Data.Rat.Floor
import Mathlib.Tactic
import Grove.Position.Expansion
import Grove.Proofs.Number.Digits
import Grove.Proofs.Position.Order
/-!
# Decimal expansions follow the order of the values

The digits of a fraction in a fixed format are those of its value times a power of ten, cut off to a whole
number. Digit strings of one length are ordered as texts as their numbers are, so the expansions of two
fractions are never ordered against the fractions.
-/

set_option autoImplicit false

namespace Grove.Fraction

/-- A state of repeated addition modulo `d` after `n` additions of `r`. -/
structure Accumulated (r d : Word) (n : ℕ) (state : Word × Word) : Prop where
  lt_divisor : state.2.toNat < d.toNat
  carries_le : state.1.toNat ≤ n
  sum_eq : state.1.toNat * d.toNat + state.2.toNat = n * r.toNat

theorem accumulated_zero {r d : Word} (hr : r.toNat < d.toNat) : Accumulated r d 0 (0, 0) :=
  ⟨by simpa using Nat.zero_lt_of_lt hr, by simp, by simp⟩

theorem accumulated_carry {r d carries acc : Word} {n : ℕ} (hr : r.toNat < d.toNat) (hn : n < 10)
    (h : Accumulated r d n (carries, acc)) (hle : d.toNat - acc.toNat ≤ r.toNat) :
    Accumulated r d (n + 1) (carries + 1, r - (d - acc)) := by
  obtain ⟨hacc, hcarries, hsum⟩ := h
  dsimp only at hacc hcarries hsum
  have hgap : (d - acc).toNat = d.toNat - acc.toNat :=
    BitVec.toNat_sub_of_le (BitVec.le_def.2 hacc.le)
  have hrest : (r - (d - acc)).toNat = r.toNat - (d.toNat - acc.toNat) := by
    rw [BitVec.toNat_sub_of_le (BitVec.le_def.2 (hgap ▸ hle)), hgap]
  have hone : (1 : Word).toNat = 1 := rfl
  have hsize : 11 < Word.size := by decide
  have hnext : (carries + 1).toNat = carries.toNat + 1 := by
    rw [Word.toNat_add_of_lt (by omega), hone]
  refine ⟨?_, ?_, ?_⟩
  · dsimp only
    omega
  · dsimp only
    omega
  · dsimp only
    rw [hrest, hnext, Nat.add_mul, Nat.add_mul]
    omega

theorem accumulated_plain {r d carries acc : Word} {n : ℕ} (h : Accumulated r d n (carries, acc))
    (hlt : r.toNat < d.toNat - acc.toNat) : Accumulated r d (n + 1) (carries, acc + r) := by
  obtain ⟨hacc, hcarries, hsum⟩ := h
  dsimp only at hacc hcarries hsum
  have hd := Word.toNat_lt_size d
  have hadd : (acc + r).toNat = acc.toNat + r.toNat := Word.toNat_add_of_lt (by omega)
  refine ⟨?_, ?_, ?_⟩
  · dsimp only
    omega
  · dsimp only
    omega
  · dsimp only
    rw [hadd, Nat.add_mul]
    omega

theorem accumulated_addModulo {r d : Word} {n : ℕ} {state : Word × Word} (hr : r.toNat < d.toNat)
    (hn : n < 10) (h : Accumulated r d n state) : Accumulated r d (n + 1) (addModulo r d state) := by
  obtain ⟨carries, acc⟩ := state
  have hgap : (d - acc).toNat = d.toNat - acc.toNat :=
    BitVec.toNat_sub_of_le (BitVec.le_def.2 h.lt_divisor.le)
  unfold addModulo
  dsimp only
  split
  · next hle =>
    rw [BitVec.le_def, hgap] at hle
    exact accumulated_carry hr hn h hle
  · next hlt =>
    rw [BitVec.le_def, hgap, not_le] at hlt
    exact accumulated_plain h hlt

theorem accumulated_repeat {r d : Word} (hr : r.toNat < d.toNat) (n : ℕ) (hn : n ≤ 10) :
    Accumulated r d n (Nat.repeat (addModulo r d) n (0, 0)) := by
  induction n with
  | zero => exact accumulated_zero hr
  | succ n ih => exact accumulated_addModulo hr (by omega) (ih (by omega))

theorem timesTen_toNat {r d : Word} (hr : r.toNat < d.toNat) :
    (timesTen r d).1.toNat = r.toNat * 10 / d.toNat ∧
      (timesTen r d).2.toNat = r.toNat * 10 % d.toNat := by
  unfold timesTen
  split
  · next scaled h =>
    have hs : scaled.toNat = r.toNat * 10 := Word.mul?_eq_some_iff.1 h
    rw [BitVec.toNat_udiv, BitVec.toNat_umod, hs]
    exact ⟨rfl, rfl⟩
  · obtain ⟨hlt, -, hsum⟩ := accumulated_repeat hr 10 le_rfl
    have hd : 0 < d.toNat := Nat.zero_lt_of_lt hr
    rw [Nat.mul_comm r.toNat, ← hsum, Nat.mul_comm _ d.toNat]
    constructor
    · rw [Nat.mul_add_div hd, Nat.div_eq_of_lt hlt, Nat.add_zero]
    · rw [Nat.mul_add_mod, Nat.mod_eq_of_lt hlt]

theorem isDigit_ofNat {n : ℕ} (hn : n < 10) : (Char.ofNat ('0'.toNat + n)).isDigit = true := by
  interval_cases n <;> rfl

theorem toNat_ofNat_digit {n : ℕ} (hn : n < 10) : (Char.ofNat ('0'.toNat + n)).toNat - '0'.toNat = n := by
  interval_cases n <;> rfl

theorem timesTen_lt {r d : Word} (hr : r.toNat < d.toNat) :
    (timesTen r d).1.toNat < 10 ∧ (timesTen r d).2.toNat < d.toNat := by
  obtain ⟨hq, hm⟩ := timesTen_toNat hr
  have hd : 0 < d.toNat := Nat.zero_lt_of_lt hr
  rw [hq, hm]
  exact ⟨Nat.div_lt_of_lt_mul (Nat.mul_lt_mul_of_pos_right hr (by decide)), Nat.mod_lt _ hd⟩

theorem length_fractionDigits (d : Word) (n : ℕ) (r : Word) : (fractionDigits d n r).length = n := by
  induction n generalizing r with
  | zero => rfl
  | succ n ih => simp [fractionDigits, ih]

theorem isDigit_of_mem_fractionDigits {d : Word} {n : ℕ} {r : Word} (hr : r.toNat < d.toNat) {c : Char}
    (hc : c ∈ fractionDigits d n r) : c.isDigit = true := by
  induction n generalizing r with
  | zero => simp [fractionDigits] at hc
  | succ n ih =>
    obtain ⟨hdigit, hnext⟩ := timesTen_lt hr
    rcases List.mem_cons.1 hc with rfl | hc
    · exact isDigit_ofNat hdigit
    · exact ih hnext hc

end Grove.Fraction

namespace Grove.Fraction
open Decimal

theorem digitsValue_fractionDigits {d : Word} (n : ℕ) {r : Word} (hr : r.toNat < d.toNat) :
    digitsValue (fractionDigits d n r) = r.toNat * 10 ^ n / d.toNat := by
  induction n generalizing r with
  | zero => simp [fractionDigits, digitsValue, Nat.div_eq_of_lt hr]
  | succ n ih =>
    obtain ⟨hq, hm⟩ := timesTen_toNat hr
    obtain ⟨hdigit, hnext⟩ := timesTen_lt hr
    have hd : 0 < d.toNat := Nat.zero_lt_of_lt hr
    have hsplit := Nat.div_add_mod (r.toNat * 10) d.toNat
    calc
      digitsValue (fractionDigits d (n + 1) r)
        = 10 ^ n * (timesTen r d).1.toNat + digitsValue (fractionDigits d n (timesTen r d).2) := by
          rw [fractionDigits, digitsValue_cons, length_fractionDigits, toNat_ofNat_digit hdigit]
      _ = 10 ^ n * (r.toNat * 10 / d.toNat) + r.toNat * 10 % d.toNat * 10 ^ n / d.toNat := by
          rw [ih hnext, hq, hm]
      _ = (d.toNat * (10 ^ n * (r.toNat * 10 / d.toNat)) + r.toNat * 10 % d.toNat * 10 ^ n)
            / d.toNat := by rw [Nat.mul_add_div hd]
      _ = r.toNat * 10 * 10 ^ n / d.toNat := by
          congr 1
          conv_rhs => rw [← hsplit]
          ring
      _ = r.toNat * 10 ^ (n + 1) / d.toNat := by
          congr 1
          ring

/-- The number that the digits of a value in a format show. -/
def truncation (a : Fraction) (places : ℕ) : ℕ := ⌊a.value * 10 ^ places⌋₊

theorem truncation_eq (a : Fraction) (places : ℕ) :
    a.truncation places = a.numerator.toNat * 10 ^ places / a.denominator.toNat := by
  unfold truncation value
  rw [div_mul_eq_mul_div, ← Rat.natFloor_natCast_div_natCast]
  push_cast
  rfl

theorem truncation_mono {a b : Fraction} (h : a.value ≤ b.value) (places : ℕ) :
    a.truncation places ≤ b.truncation places :=
  Nat.floor_mono (mul_le_mul_of_nonneg_right h (by positivity))

/-- What a rendering in a format is: digits in the width of the format, for the value cut off. -/
theorem toDecimal?_eq_some {a : Fraction} {whole places : ℕ} {digits : List Char}
    (h : a.toDecimal? whole places = some digits) :
    a.denominator ≠ 0 ∧ digits.length = whole + places ∧ (∀ c ∈ digits, c.isDigit = true) ∧
      digitsValue digits = a.truncation places := by
  unfold toDecimal? at h
  split at h
  · cases h
  · next hinf =>
    have hden : a.denominator ≠ 0 := by simpa [isInfinite] using hinf
    split at h
    · cases h
    · next hlen =>
      have hr := umod_toNat_lt (a := a.numerator) hden
      cases h
      refine ⟨hden, ?_, ?_, ?_⟩
      · simp only [List.length_append, List.length_replicate, length_fractionDigits]
        omega
      · intro c hc
        simp only [List.mem_append, List.mem_replicate] at hc
        rcases hc with (⟨-, rfl⟩ | hc) | hc
        · rfl
        · exact isDigit_of_mem_natDigits hc
        · exact isDigit_of_mem_fractionDigits hr hc
      · rw [digitsValue_append, digitsValue_zeros_append, length_fractionDigits,
          digitsValue_fractionDigits places hr, wholeDigits, digitsValue_natDigits, truncation_eq]
        conv_rhs => rw [a.numerator_eq]
        rw [Nat.add_mul, Nat.mul_assoc, Nat.mul_add_div (toNat_pos_of_ne_zero hden), Nat.mul_comm (10 ^ places)]

theorem toDecimal?_lt_iff {a b : Fraction} {whole places : ℕ} {xs ys : List Char}
    (ha : a.toDecimal? whole places = some xs) (hb : b.toDecimal? whole places = some ys) :
    xs < ys ↔ a.truncation places < b.truncation places := by
  obtain ⟨-, hlx, hdx, hvx⟩ := toDecimal?_eq_some ha
  obtain ⟨-, hly, hdy, hvy⟩ := toDecimal?_eq_some hb
  rw [lt_iff_digitsValue_lt (hlx.trans hly.symm) hdx hdy, hvx, hvy]

end Grove.Fraction
