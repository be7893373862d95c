import Mathlib.Tactic
import Grove.Proofs.Position.Interval
/-!
# Boundaries as continued fractions

A path `[a, b, .., c]` denotes the continued fraction `[a; 1, b, 1, .., 1, c]`: it is the left boundary of the
interval of the path, and with `c + 1` for `c` it is the right one. The walk goes from the root to the leaf and keeps
an interval; the continued fraction nests from the leaf outward. They meet in the points of an interval: a number
`x` stands for the point `(n + x m) / (d + x e)` between the ends `n / d` and `m / e`, and the point for `x` after
one more index is the one before it for the two levels of the fraction that the index adds around `x`.
-/

set_option autoImplicit false

namespace Grove

/-- The value of the continued fraction `[a; b, c, ..]`, unless it divides by zero somewhere. -/
def continuedFraction? : List ℕ → Option ℚ
  | [] => none
  | [a] => some a
  | a :: b :: rest => do
    let below ← continuedFraction? (b :: rest)
    if below = 0 then none else some (a + 1 / below)

/-- The partial quotients of a path that ends with a last index: its indices with ones between them. The last one is
no word, as it may be one more than the largest word. -/
def quotients (base : List UInt64) (last : ℕ) : List ℕ := (base.map UInt64.toNat ++ [last]).intersperse 1

def nest (index : UInt64) (x : ℚ) : ℚ := index.toNat + 1 / (1 + 1 / x)

theorem nest_pos (index : UInt64) {x : ℚ} (hx : 0 < x) : 0 < nest index x := by
  unfold nest
  positivity

theorem foldr_nest_pos (base : List UInt64) {x : ℚ} (hx : 0 < x) : 0 < base.foldr nest x := by
  induction base with
  | nil => exact hx
  | cons index base ih => exact nest_pos index ih

theorem quotients_cons (index : UInt64) (base : List UInt64) (last : ℕ) :
    quotients (index :: base) last = index.toNat :: 1 :: quotients base last := by
  cases base <;> rfl

theorem continuedFraction?_cons {a : ℕ} {rest : List ℕ} {x : ℚ} (h : continuedFraction? rest = some x)
    (hx : 0 < x) : continuedFraction? (a :: rest) = some (a + 1 / x) := by
  cases rest with
  | nil => cases h
  | cons b rest => simp [continuedFraction?, h, hx.ne']

/-- Only a zero at the end divides by zero. -/
theorem continuedFraction?_quotients {base : List UInt64} {last : ℕ} (hlast : base ≠ [] → 0 < last) :
    continuedFraction? (quotients base last) = some (base.foldr nest last) := by
  induction base with
  | nil => rfl
  | cons index base ih =>
    have hpos : 0 < last := hlast (List.cons_ne_nil _ _)
    have hbelow := foldr_nest_pos base (Nat.cast_pos.2 hpos : (0 : ℚ) < last)
    have hone := continuedFraction?_cons (a := 1) (ih fun _ => hpos) hbelow
    rw [Nat.cast_one] at hone
    rw [quotients_cons, continuedFraction?_cons hone (by positivity)]
    rfl

/-- The point of an interval for a number: the lower end for zero, and nearer to the upper end for larger numbers. -/
def pointAt (lo hi : Fraction) (x : ℚ) : ℚ :=
  (lo.numerator.toNat + x * hi.numerator.toNat) / (lo.denominator.toNat + x * hi.denominator.toNat)

theorem pointAt_start (x : ℚ) : pointAt .zero .infinity x = x := by
  simp [pointAt, Fraction.zero, Fraction.infinity]

section
variable {lo hi lo' hi' : Fraction} {depth : ℕ}

theorem value_of_refine {index : UInt64} (h : refine lo hi depth index = .ok (lo', hi')) :
    lo'.value = pointAt lo hi index.toNat ∧ hi'.value = pointAt lo hi (index.toNat + 1 : ℕ) := by
  obtain ⟨hln, hld, hhn, hhd⟩ := refine_eq_ok h
  unfold Fraction.value pointAt
  rw [hhn, hhd, hln, hld]
  push_cast
  constructor
  · rfl
  · congr 1 <;> ring

theorem pointAt_of_refine {index : UInt64} (h : refine lo hi depth index = .ok (lo', hi')) {x : ℚ} (hx : 0 < x) :
    pointAt lo' hi' x = pointAt lo hi (nest index x) := by
  obtain ⟨hln, hld, hhn, hhd⟩ := refine_eq_ok h
  have hscale : ∀ n m : ℚ, n + index.toNat * m + x * (n + index.toNat * m + m) = (1 + x) * (n + nest index x * m) := by
    intro n m
    unfold nest
    field_simp
    ring
  have hne : 1 + x ≠ 0 := by positivity
  unfold pointAt
  rw [hhn, hhd, hln, hld]
  push_cast
  rw [hscale, hscale, mul_div_mul_left _ _ hne]

/-- The walk from some interval on ends at the points for what the indices nest. -/
theorem value_of_refineAll {base : List UInt64} {last : UInt64}
    (h : refineAll lo hi depth (base ++ [last]) = .ok (lo', hi')) :
    ((base ≠ [] → 0 < last.toNat) → lo'.value = pointAt lo hi (base.foldr nest last.toNat)) ∧
      hi'.value = pointAt lo hi (base.foldr nest (last.toNat + 1 : ℕ)) := by
  induction base generalizing lo hi depth with
  | nil =>
    obtain ⟨lo₁, hi₁, hstep, hnil⟩ := refineAll_cons_eq_ok.1 h
    cases hnil
    exact ⟨fun _ => (value_of_refine hstep).1, (value_of_refine hstep).2⟩
  | cons index base ih =>
    obtain ⟨lo₁, hi₁, hstep, hrest⟩ := refineAll_cons_eq_ok.1 h
    obtain ⟨hlower, hupper⟩ := ih hrest
    constructor
    · intro hlast
      have hpos : 0 < last.toNat := hlast (List.cons_ne_nil _ _)
      exact (hlower fun _ => hpos).trans (pointAt_of_refine hstep (foldr_nest_pos base (Nat.cast_pos.2 hpos)))
    · exact hupper.trans (pointAt_of_refine hstep (foldr_nest_pos base (Nat.cast_pos.2 (Nat.succ_pos _))))

end

/-- The boundaries of a path are finite, and are the values of its continued fraction and of the one whose last
quotient is one more. Of the indices below the root only the last one must not be zero for that, and it matters to
the left boundary alone. -/
theorem interval_eq_continuedFraction {base : List UInt64} {last : UInt64} {lo hi : Fraction}
    (h : interval (base ++ [last]) = .ok (lo, hi)) :
    lo.denominator ≠ 0 ∧ hi.denominator ≠ 0 ∧
      ((base ≠ [] → 1 ≤ last) → continuedFraction? (quotients base last.toNat) = some lo.value) ∧
      continuedFraction? (quotients base (last.toNat + 1)) = some hi.value := by
  obtain ⟨hlower, hupper⟩ := value_of_refineAll (interval_eq_ok.1 h).2
  rw [pointAt_start] at hlower hupper
  refine ⟨(interval_unimodular h).lower_finite, interval_upper_finite h, fun hlast => ?_, ?_⟩
  · have hpos : base ≠ [] → 0 < last.toNat := fun hbase => UInt64.le_iff_toNat_le.1 (hlast hbase)
    rw [hlower hpos, continuedFraction?_quotients hpos]
  · rw [hupper, continuedFraction?_quotients fun _ => Nat.succ_pos _]

theorem interval_eq_continuedFraction_fourth :
    interval ([45, 3, 4] ++ [5]) = .ok (⟨7739, 169⟩, ⟨9067, 198⟩) ∧
      continuedFraction? [45, 1, 3, 1, 4, 1, 5] = some (7739 / 169) ∧
      continuedFraction? [45, 1, 3, 1, 4, 1, 6] = some (9067 / 198) := by
  have h : interval ([45, 3, 4] ++ [5]) = .ok (⟨7739, 169⟩, ⟨9067, 198⟩) := by decide
  obtain ⟨-, -, hleft, hright⟩ := interval_eq_continuedFraction h
  exact ⟨h, hleft fun _ => by decide, hright⟩

end Grove
