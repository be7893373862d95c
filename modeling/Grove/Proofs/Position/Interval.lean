import Mathlib.Data.Rat.Floor
import Mathlib.Tactic
import Grove.Position.Interval
import Grove.Proofs.Position.Order
/-!
# How intervals of paths lie

Every interval of the walk has determinant one. From that, an index moves the lower end up unless it is
zero, the upper end always moves down, and the intervals of two siblings at most touch. The walk starts
below the point at infinity, so the lemmas about one step allow an infinite upper end.
-/

set_option autoImplicit false

namespace Grove

open Fraction (cross)

/-- The cross product of an upper end is one more than that of its lower end. -/
def Unimodular (lo hi : Fraction) : Prop := cross hi lo = cross lo hi + 1

theorem unimodular_start : Unimodular .zero .infinity := rfl

theorem Unimodular.lower_finite {lo hi : Fraction} (h : Unimodular lo hi) : lo.denominator ≠ 0 := by
  intro h₀
  unfold Unimodular cross at h
  rw [h₀] at h
  simp at h

theorem Unimodular.value_lt {lo hi : Fraction} (h : Unimodular lo hi) (hhi : hi.denominator ≠ 0) :
    lo.value < hi.value := by
  rw [← Fraction.cross_lt_iff_value_lt h.lower_finite hhi, h]
  exact Nat.lt_succ_self _

section
variable {lo hi lo' hi' : Fraction} {depth : ℕ} {index : UInt64}

/-- All that one index does, in natural numbers. -/
theorem refine_eq_ok (h : refine lo hi depth index = .ok (lo', hi')) :
    lo'.numerator.toNat = lo.numerator.toNat + index.toNat * hi.numerator.toNat ∧
    lo'.denominator.toNat = lo.denominator.toNat + index.toNat * hi.denominator.toNat ∧
    hi'.numerator.toNat = lo'.numerator.toNat + hi.numerator.toNat ∧
    hi'.denominator.toNat = lo'.denominator.toNat + hi.denominator.toNat := by
  unfold refine at h
  split at h
  · cases h
  · next lo₁ hlo =>
    split at h
    · cases h
    · next hi₁ hhi =>
      cases h
      simp only [Fraction.mediantSteps?, Fraction.mediant?, bind, Option.bind_eq_some_iff, pure,
        Option.some_inj, Word.add?_eq_some_iff, Word.mul?_eq_some_iff, Word.toNat_ofIndex] at hlo hhi
      obtain ⟨n, hn, num, hnum, d, hd, den, hden, rfl⟩ := hlo
      obtain ⟨num', hnum', den', hden', rfl⟩ := hhi
      refine ⟨?_, ?_, hnum', hden'⟩
      · rw [hnum, hn]
      · rw [hden, hd]

theorem refine_unimodular (hu : Unimodular lo hi) (h : refine lo hi depth index = .ok (lo', hi')) :
    Unimodular lo' hi' := by
  obtain ⟨hln, hld, hhn, hhd⟩ := refine_eq_ok h
  unfold Unimodular cross at hu ⊢
  rw [hhn, hhd, hln, hld]
  zify at hu ⊢
  linear_combination hu

theorem refine_upper_finite (hu : Unimodular lo hi) (h : refine lo hi depth index = .ok (lo', hi')) :
    hi'.denominator ≠ 0 := by
  obtain ⟨-, -, -, hhd⟩ := refine_eq_ok h
  have hpos := Fraction.toNat_pos_of_ne_zero (refine_unimodular hu h).lower_finite
  intro h₀
  rw [h₀] at hhd
  simp at hhd
  omega

theorem refine_cross_lower (hu : Unimodular lo hi) (h : refine lo hi depth index = .ok (lo', hi')) :
    cross lo' lo = cross lo lo' + index.toNat := by
  obtain ⟨hln, hld, -, -⟩ := refine_eq_ok h
  unfold Unimodular at hu
  unfold cross at hu ⊢
  rw [hln, hld]
  zify at hu ⊢
  linear_combination (index.toNat : ℤ) * hu

theorem refine_lower_le (hu : Unimodular lo hi) (h : refine lo hi depth index = .ok (lo', hi')) :
    lo.value ≤ lo'.value := by
  rw [← Fraction.cross_le_iff_value_le hu.lower_finite (refine_unimodular hu h).lower_finite,
    refine_cross_lower hu h]
  exact Nat.le_add_right ..

theorem refine_lower_lt_iff (hu : Unimodular lo hi) (h : refine lo hi depth index = .ok (lo', hi')) :
    lo.value < lo'.value ↔ index ≠ 0 := by
  rw [← Fraction.cross_lt_iff_value_lt hu.lower_finite (refine_unimodular hu h).lower_finite,
    refine_cross_lower hu h, Nat.lt_add_right_iff_pos, Nat.pos_iff_ne_zero]
  exact not_congr (UInt64.toNat_inj (b := 0))

theorem refine_upper_lt (hu : Unimodular lo hi) (hhi : hi.denominator ≠ 0)
    (h : refine lo hi depth index = .ok (lo', hi')) : hi'.value < hi.value := by
  obtain ⟨hln, hld, hhn, hhd⟩ := refine_eq_ok h
  have hcross : cross hi hi' = cross hi' hi + 1 := by
    unfold Unimodular at hu
    unfold cross at hu ⊢
    rw [hhn, hhd, hln, hld]
    zify at hu ⊢
    linear_combination hu
  rw [← Fraction.cross_lt_iff_value_lt (refine_upper_finite hu h) hhi, hcross]
  exact Nat.lt_succ_self _

/-- The interval of a sibling ends where that of the next one begins, or before. -/
theorem refine_upper_le_lower {lo₁ hi₁ lo₂ hi₂ : Fraction} {depth₁ depth₂ : ℕ} {i j : UInt64}
    (hu : Unimodular lo hi) (h₁ : refine lo hi depth₁ i = .ok (lo₁, hi₁))
    (h₂ : refine lo hi depth₂ j = .ok (lo₂, hi₂)) (hij : i < j) : hi₁.value ≤ lo₂.value := by
  obtain ⟨hln₁, hld₁, hhn₁, hhd₁⟩ := refine_eq_ok h₁
  obtain ⟨hln₂, hld₂, -, -⟩ := refine_eq_ok h₂
  obtain ⟨gap, hgap⟩ := Nat.exists_eq_add_of_lt (UInt64.lt_iff_toNat_lt.1 hij)
  have hcross : cross lo₂ hi₁ = cross hi₁ lo₂ + gap := by
    unfold Unimodular at hu
    unfold cross at hu ⊢
    rw [hhn₁, hhd₁, hln₁, hld₁, hln₂, hld₂, hgap]
    zify at hu ⊢
    linear_combination (gap : ℤ) * hu
  rw [← Fraction.cross_le_iff_value_le (refine_upper_finite hu h₁)
    (refine_unimodular hu h₂).lower_finite, hcross]
  exact Nat.le_add_right ..

end

section
variable {lo hi lo' hi' : Fraction} {depth : ℕ} {rest : List UInt64}

theorem refineAll_cons_eq_ok {index : UInt64} :
    refineAll lo hi depth (index :: rest) = .ok (lo', hi') ↔
      ∃ lo₁ hi₁, refine lo hi depth index = .ok (lo₁, hi₁) ∧
        refineAll lo₁ hi₁ (depth + 1) rest = .ok (lo', hi') := by
  rw [refineAll]
  cases refine lo hi depth index with
  | error e => simp
  | ok ends =>
    obtain ⟨lo₁, hi₁⟩ := ends
    constructor
    · exact fun h => ⟨lo₁, hi₁, rfl, h⟩
    · rintro ⟨_, _, hends, h⟩
      cases hends
      exact h

theorem refineAll_append_eq_ok {first : List UInt64} :
    refineAll lo hi depth (first ++ rest) = .ok (lo', hi') ↔
      ∃ lo₁ hi₁, refineAll lo hi depth first = .ok (lo₁, hi₁) ∧
        refineAll lo₁ hi₁ (depth + first.length) rest = .ok (lo', hi') := by
  induction first generalizing lo hi depth with
  | nil => simp [refineAll]
  | cons index first ih =>
    simp only [List.cons_append, refineAll_cons_eq_ok, ih, List.length_cons, Nat.add_assoc,
      Nat.add_comm 1]
    constructor
    · rintro ⟨lo₁, hi₁, h₁, lo₂, hi₂, h₂, h₃⟩
      exact ⟨lo₂, hi₂, ⟨lo₁, hi₁, h₁, h₂⟩, h₃⟩
    · rintro ⟨lo₂, hi₂, ⟨lo₁, hi₁, h₁, h₂⟩, h₃⟩
      exact ⟨lo₁, hi₁, h₁, lo₂, hi₂, h₂, h₃⟩

theorem refineAll_unimodular (hu : Unimodular lo hi) (h : refineAll lo hi depth rest = .ok (lo', hi')) :
    Unimodular lo' hi' := by
  induction rest generalizing lo hi depth with
  | nil => cases h; exact hu
  | cons index rest ih =>
    obtain ⟨lo₁, hi₁, h₁, h₂⟩ := refineAll_cons_eq_ok.1 h
    exact ih (refine_unimodular hu h₁) h₂

theorem refineAll_upper_finite (hu : Unimodular lo hi) (hhi : hi.denominator ≠ 0)
    (h : refineAll lo hi depth rest = .ok (lo', hi')) : hi'.denominator ≠ 0 := by
  induction rest generalizing lo hi depth with
  | nil => cases h; exact hhi
  | cons index rest ih =>
    obtain ⟨lo₁, hi₁, h₁, h₂⟩ := refineAll_cons_eq_ok.1 h
    exact ih (refine_unimodular hu h₁) (refine_upper_finite hu h₁) h₂

theorem refineAll_lower_le (hu : Unimodular lo hi) (h : refineAll lo hi depth rest = .ok (lo', hi')) :
    lo.value ≤ lo'.value := by
  induction rest generalizing lo hi depth with
  | nil => cases h; exact le_rfl
  | cons index rest ih =>
    obtain ⟨lo₁, hi₁, h₁, h₂⟩ := refineAll_cons_eq_ok.1 h
    exact (refine_lower_le hu h₁).trans (ih (refine_unimodular hu h₁) h₂)

theorem refineAll_lower_lt_iff (hu : Unimodular lo hi)
    (h : refineAll lo hi depth rest = .ok (lo', hi')) :
    lo.value < lo'.value ↔ ∃ i ∈ rest, i ≠ 0 := by
  induction rest generalizing lo hi depth with
  | nil => cases h; simp
  | cons index rest ih =>
    obtain ⟨lo₁, hi₁, h₁, h₂⟩ := refineAll_cons_eq_ok.1 h
    have hu₁ := refine_unimodular hu h₁
    have hle₁ := refine_lower_le hu h₁
    have hle₂ := refineAll_lower_le hu₁ h₂
    have hsplit : lo.value < lo'.value ↔ lo.value < lo₁.value ∨ lo₁.value < lo'.value := by
      constructor
      · intro hlt
        by_contra hno
        rw [not_or, not_lt, not_lt] at hno
        exact absurd (hno.2.trans hno.1) (not_le.2 hlt)
      · rintro (hlt | hlt)
        · exact hlt.trans_le hle₂
        · exact hle₁.trans_lt hlt
    rw [hsplit, refine_lower_lt_iff hu h₁, ih hu₁ h₂]
    simp

theorem refineAll_upper_le (hu : Unimodular lo hi) (hhi : hi.denominator ≠ 0)
    (h : refineAll lo hi depth rest = .ok (lo', hi')) : hi'.value ≤ hi.value := by
  induction rest generalizing lo hi depth with
  | nil => cases h; exact le_rfl
  | cons index rest ih =>
    obtain ⟨lo₁, hi₁, h₁, h₂⟩ := refineAll_cons_eq_ok.1 h
    have hle := ih (refine_unimodular hu h₁) (refine_upper_finite hu h₁) h₂
    exact hle.trans (refine_upper_lt hu hhi h₁).le

theorem refineAll_upper_lt (hu : Unimodular lo hi) (hhi : hi.denominator ≠ 0) (hrest : rest ≠ [])
    (h : refineAll lo hi depth rest = .ok (lo', hi')) : hi'.value < hi.value := by
  cases rest with
  | nil => contradiction
  | cons index rest =>
    obtain ⟨lo₁, hi₁, h₁, h₂⟩ := refineAll_cons_eq_ok.1 h
    have hle := refineAll_upper_le (refine_unimodular hu h₁) (refine_upper_finite hu h₁) h₂
    exact hle.trans_lt (refine_upper_lt hu hhi h₁)

theorem refineAll_upper_le_lower {lo₁ hi₁ lo₂ hi₂ : Fraction} {i j : UInt64} {rest₁ rest₂ : List UInt64}
    (hu : Unimodular lo hi) (h₁ : refineAll lo hi depth (i :: rest₁) = .ok (lo₁, hi₁))
    (h₂ : refineAll lo hi depth (j :: rest₂) = .ok (lo₂, hi₂)) (hij : i < j) : hi₁.value ≤ lo₂.value := by
  obtain ⟨lo₁', hi₁', hi, h₁⟩ := refineAll_cons_eq_ok.1 h₁
  obtain ⟨lo₂', hi₂', hj, h₂⟩ := refineAll_cons_eq_ok.1 h₂
  calc
    hi₁.value ≤ hi₁'.value := refineAll_upper_le (refine_unimodular hu hi) (refine_upper_finite hu hi) h₁
    _ ≤ lo₂'.value := refine_upper_le_lower hu hi hj hij
    _ ≤ lo₂.value := refineAll_lower_le (refine_unimodular hu hj) h₂

end

section
variable {path : List UInt64} {lo hi : Fraction}

theorem interval_eq_ok : interval path = .ok (lo, hi) ↔
    path ≠ [] ∧ refineAll .zero .infinity 0 path = .ok (lo, hi) := by
  cases path with
  | nil => simp [interval]
  | cons index rest => simp [interval]

theorem interval_unimodular (h : interval path = .ok (lo, hi)) : Unimodular lo hi :=
  refineAll_unimodular unimodular_start (interval_eq_ok.1 h).2

theorem interval_upper_finite (h : interval path = .ok (lo, hi)) : hi.denominator ≠ 0 := by
  obtain ⟨hne, hall⟩ := interval_eq_ok.1 h
  obtain ⟨index, rest, rfl⟩ := List.exists_cons_of_ne_nil hne
  obtain ⟨lo₁, hi₁, h₁, h₂⟩ := refineAll_cons_eq_ok.1 hall
  exact refineAll_upper_finite (refine_unimodular unimodular_start h₁)
    (refine_upper_finite unimodular_start h₁) h₂

/-- The interval of a longer path is reached from that of its beginning. -/
theorem interval_append {rest : List UInt64} {lo' hi' : Fraction} (h : interval path = .ok (lo, hi))
    (h' : interval (path ++ rest) = .ok (lo', hi')) :
    refineAll lo hi path.length rest = .ok (lo', hi') := by
  obtain ⟨lo₁, hi₁, h₁, h₂⟩ := refineAll_append_eq_ok.1 (interval_eq_ok.1 h').2
  rw [(interval_eq_ok.1 h).2] at h₁
  cases h₁
  simpa using h₂

theorem interval_upper_le_lower {common p' q' : List UInt64} {i j : UInt64} {lo₁ hi₁ lo₂ hi₂ : Fraction}
    (h₁ : interval (common ++ i :: p') = .ok (lo₁, hi₁)) (h₂ : interval (common ++ j :: q') = .ok (lo₂, hi₂))
    (hij : i < j) : hi₁.value ≤ lo₂.value := by
  -- the common beginning may be empty, so its end is taken from the walk and not from an interval
  obtain ⟨lo, hi, hcommon, hall₁⟩ := refineAll_append_eq_ok.1 (interval_eq_ok.1 h₁).2
  obtain ⟨lo', hi', hcommon', hall₂⟩ := refineAll_append_eq_ok.1 (interval_eq_ok.1 h₂).2
  rw [hcommon] at hcommon'
  cases hcommon'
  exact refineAll_upper_le_lower (refineAll_unimodular unimodular_start hcommon) hall₁ hall₂ hij

end

end Grove
