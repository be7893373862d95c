import Mathlib.Tactic
import Grove.Proofs.Position.Containment
/-!
# What the digits of a span tell

A span is handed out only if its digits tell its boundaries apart. The span of a child gets narrower as the index
grows, and at the largest index there is none but it needs more than 36 digits after the point.
-/

set_option autoImplicit false

namespace Grove

theorem interval_denominator_le {path : List UInt64} {lo hi : Fraction} (h : interval path = .ok (lo, hi)) :
    lo.denominator.toNat ≤ hi.denominator.toNat := by
  obtain ⟨hne, hall⟩ := interval_eq_ok.1 h
  rcases List.eq_nil_or_concat' path with rfl | ⟨front, i, rfl⟩
  · exact absurd rfl hne
  · obtain ⟨lo₁, hi₁, -, hlast⟩ := refineAll_append_eq_ok.1 hall
    obtain ⟨lo₂, hi₂, hstep, hnil⟩ := refineAll_cons_eq_ok.1 hlast
    cases hnil
    obtain ⟨-, -, -, hhd⟩ := refine_eq_ok hstep
    rw [hhd]
    exact Nat.le_add_right ..

/-- How far `z / t` lies below the upper end `m / e` and below a child with the denominator `d + j * e`, all times
the denominators: the two differ by `t`, as the child and the upper end are neighbours. -/
theorem gap_mul_eq {n d m e z t : ℤ} (j : ℤ) (hu : m * d = n * e + 1) :
    (m * t - z * e) * (d + j * e) = t + e * ((n + j * m) * t - z * (d + j * e)) := by
  linear_combination t * hu

/-- A child whose boundaries are on either side of a multiple of `1 / t` is wide enough for one: some multiple of
`k` is below `t`, and the same multiple of `k + 2` is not. The child at index `k` of the interval from `n / d` to
`m / e` lies between `n + k * m` over `d + k * e` and the next mediant. -/
theorem exists_between_of_div_lt {n d m e k t : ℕ} (hu : m * d = n * e + 1) (hde : d ≤ e)
    (h : (n + k * m) * t / (d + k * e) < (n + (k + 1) * m) * t / (d + (k + 1) * e)) :
    ∃ r, k * r < t ∧ t ≤ (k + 2) * r := by
  have hd : 0 < d := by
    rcases Nat.eq_zero_or_pos d with rfl | hd
    · omega
    · exact hd
  have he : 0 < e := hd.trans_le hde
  obtain ⟨z, hz⟩ : ∃ z, z = (n + (k + 1) * m) * t / (d + (k + 1) * e) := ⟨_, rfl⟩
  have hlow : (n + k * m) * t < z * (d + k * e) := by
    rw [← hz] at h
    exact (Nat.div_lt_iff_lt_mul (Nat.add_pos_left hd _)).1 h
  have hhigh : z * (d + (k + 1) * e) ≤ (n + (k + 1) * m) * t := by
    rw [hz]
    exact Nat.div_mul_le_self ..
  -- `g` says how far the multiple `z` of `1 / t` lies below the upper end
  obtain ⟨g, hg⟩ : ∃ g : ℤ, g = m * t - z * e := ⟨_, rfl⟩
  zify at hu hlow hhigh he
  have hbelow : g * (d + k * e) < t := by
    rw [hg, gap_mul_eq k hu]
    exact add_lt_of_neg_right _ (mul_neg_of_pos_of_neg he (sub_neg.2 hlow))
  have habove : (t : ℤ) ≤ g * (d + (k + 1) * e) := by
    rw [hg, gap_mul_eq (k + 1) hu]
    exact le_add_of_nonneg_right (mul_nonneg he.le (sub_nonneg.2 hhigh))
  have hpos : 0 ≤ g := by
    by_contra hneg
    have hwide : (0 : ℤ) < d + (k + 1) * e := by positivity
    have hnegative : g * (d + (k + 1) * e) < 0 := mul_neg_of_neg_of_pos (not_le.1 hneg) hwide
    omega
  lift g to ℕ using hpos
  norm_cast at hbelow habove
  refine ⟨g * e, ?_, ?_⟩
  · calc
      k * (g * e) = g * (k * e) := by ring
      _ ≤ g * (d + k * e) := Nat.mul_le_mul_left _ (Nat.le_add_left ..)
      _ < t := hbelow
  · calc
      t ≤ g * (d + (k + 1) * e) := habove
      _ ≤ g * (e + (k + 1) * e) := Nat.mul_le_mul_left _ (Nat.add_le_add_right hde _)
      _ = (k + 2) * (g * e) := by ring

/-- The powers of ten up to the 36th are far from the multiples of the largest index. -/
theorem not_between_power {f r : ℕ} (hf : f ≤ 36) (hlow : (2 ^ 64 - 1) * r < 10 ^ f) :
    (2 ^ 64 - 1 + 2) * r < 10 ^ f := by
  interval_cases f <;> omega

namespace Span

section
variable {format : Format} {base : List UInt64} {i : UInt64} {s : Span} {above : Option Span}

theorem isResolved_iff : s.isResolved above = true ↔ kept s.left s.right = true ∧
    ∀ p ∈ above, kept p.left s.left = true ∧ kept s.right p.right = true := by
  unfold isResolved
  rw [Bool.and_eq_true_iff]
  cases above with
  | none => simp
  | some p => simp

theorem encoding_left_lt_right {path : List UInt64} (hs : ofIndices path format = .ok s)
    (hres : s.isResolved above = true) : s.left.encoding < s.right.encoding :=
  ((rendered_ofIndices hs).left.kept_iff (rendered_ofIndices hs).right).1 (isResolved_iff.1 hres).1
    (left_lt_right hs)

/-- Where paths part, the digits of the left boundaries follow the indices, if those of the earlier span show it. -/
theorem encoding_left_lt_left {common p q : List UInt64} {j : UInt64} {t : Span}
    (hs : ofIndices (common ++ i :: p) format = .ok s) (ht : ofIndices (common ++ j :: q) format = .ok t)
    (hij : i < j) (hshown : s.left.encoding < s.right.encoding) : s.left.encoding < t.left.encoding :=
  have hrs := rendered_ofIndices hs
  have hrt := rendered_ofIndices ht
  hrs.left.encoding_lt_of_value_le hrs.right hrt.left hshown (right_le_left hs ht hij)

theorem truncation_ofIndices {path : List UInt64} {lo hi : Fraction} (hs : ofIndices path format = .ok s)
    (hint : interval path = .ok (lo, hi)) (places : ℕ) :
    s.left.fraction.truncation places = lo.truncation places ∧
      s.right.fraction.truncation places = hi.truncation places := by
  have hvalue := value_ofIndices hs hint
  unfold Position.value at hvalue
  unfold Fraction.truncation
  rw [hvalue.1, hvalue.2]
  exact ⟨rfl, rfl⟩

/-- At the largest index a child shows its boundaries only with more than 36 digits after the point. -/
theorem fractionDigits_of_largest_index (hbase : base ≠ []) (hi : i.toNat = 2 ^ 64 - 1)
    (hs : ofIndices (base ++ [i]) format = .ok s) (hlt : s.left.encoding < s.right.encoding) :
    36 < format.fractionDigits.toNat := by
  obtain ⟨lo', hi', hint, -, -⟩ := ofIndices_eq_ok hs
  obtain ⟨lo, hi₀, hall, hlast⟩ := refineAll_append_eq_ok.1 (interval_eq_ok.1 hint).2
  have hparent : interval base = .ok (lo, hi₀) := interval_eq_ok.2 ⟨hbase, hall⟩
  obtain ⟨lo₁, hi₁, hstep, hnil⟩ := refineAll_cons_eq_ok.1 hlast
  cases hnil
  obtain ⟨hln, hld, hhn, hhd⟩ := refine_eq_ok hstep
  have hrendered := rendered_ofIndices hs
  rw [hrendered.left.encoding_lt_iff hrendered.right, (truncation_ofIndices hs hint _).1,
    (truncation_ofIndices hs hint _).2, Fraction.truncation_eq, Fraction.truncation_eq, hhn, hhd, hln, hld,
    Nat.add_assoc, Nat.add_assoc, ← Nat.succ_mul, ← Nat.succ_mul] at hlt
  by_contra hdigits
  obtain ⟨r, hlow, hhigh⟩ := exists_between_of_div_lt (interval_unimodular hparent)
    (interval_denominator_le hparent) hlt
  rw [hi] at hlow hhigh
  exact absurd hhigh (not_le.2 (not_between_power (not_lt.1 hdigits) hlow))

end

end Span

end Grove
