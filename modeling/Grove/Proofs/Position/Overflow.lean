import Mathlib.Tactic
import Grove.Proofs.Position.Containment
import Grove.Proofs.Position.FixedWidth
/-!
# When a child has no span

The boundaries of a child lie within those of its parent, so where the digits before the point suffice for the parent
they suffice for the child. Below a path that has a span, another index is refused only because a fraction of the
walk needs longer words.
-/

set_option autoImplicit false

namespace Grove

theorem Decimal.length_natDigits_mono {m n : ℕ} (h : m ≤ n) : (natDigits m).length ≤ (natDigits n).length := by
  have hpos : 0 < (natDigits n).length := List.length_pos_iff.2 (natDigits_ne_nil n)
  exact (length_natDigits_le_iff hpos).2 (h.trans_lt ((length_natDigits_le_iff hpos).1 (Nat.le_refl _)))

namespace Fraction

section
variable {a b : Fraction} {whole places : ℕ}

theorem length_wholeDigits_mono (h : a.value ≤ b.value) : a.wholeDigits.length ≤ b.wholeDigits.length := by
  have htruncation := truncation_mono h 0
  simp only [truncation_eq, pow_zero, mul_one] at htruncation
  rw [wholeDigits_eq, wholeDigits_eq]
  exact Decimal.length_natDigits_mono htruncation

theorem exists_toDecimal?_of_le {digits : List Char} (ha : a.denominator ≠ 0) (hle : a.value ≤ b.value)
    (hb : b.toDecimal? whole places = some digits) : ∃ digits, a.toDecimal? whole places = some digits := by
  refine Option.ne_none_iff_exists'.1 fun hnone => ?_
  have hlong := ((toDecimal?_eq_none_iff ha).1 hnone).trans_le (length_wholeDigits_mono hle)
  rw [(toDecimal?_eq_none_iff (toDecimal?_eq_some hb).1).2 hlong] at hb
  cases hb

end

end Fraction

namespace Position

theorem render_eq_error {a : Fraction} {format : Format} {e : EncodeError} (h : render a format = .error e) :
    ∃ digits width, e = .integerPartTooWide digits width := by
  unfold render at h
  dsimp only at h
  split at h
  · cases h
  · cases h
    exact ⟨_, _, rfl⟩

theorem exists_render_of_le {a b : Fraction} {format : Format} {q : Position} (ha : a.denominator ≠ 0)
    (hb : b.denominator ≠ 0) (hle : a.value ≤ b.value) (hq : render b format = .ok q) :
    ∃ p, render a format = .ok p := by
  obtain ⟨hrendered, hfraction⟩ := render_eq_ok hq
  obtain ⟨hfinite, hvalue⟩ := Fraction.reduced_value ha
  unfold Rendered at hrendered
  rw [hfraction] at hrendered
  obtain ⟨digits, hdigits⟩ : ∃ digits, a.reduced.toDecimal? _ _ = some digits :=
    Fraction.exists_toDecimal?_of_le hfinite (by rwa [hvalue, (Fraction.reduced_value hb).2]) hrendered
  unfold render
  dsimp only
  rw [hdigits]
  exact ⟨_, rfl⟩

end Position

section
variable {lo hi lo' hi' : Fraction} {depth : ℕ} {index i : UInt64} {base : List UInt64} {format : Format}
  {e : EncodeError} {s : Span}

theorem refine_eq_error (h : refine lo hi depth index = .error e) : e = .overflow depth := by
  unfold refine at h
  split at h
  · cases h
    rfl
  · split at h
    · cases h
      rfl
    · cases h

theorem refineAll_concat (h : refineAll lo hi depth base = .ok (lo', hi')) (i : UInt64) :
    refineAll lo hi depth (base ++ [i]) = refine lo' hi' (depth + base.length) i := by
  induction base generalizing lo hi depth with
  | nil =>
    cases h
    rw [List.nil_append, refineAll]
    simp only [refineAll, List.length_nil, Nat.add_zero]
    cases refine lo' hi' depth i <;> rfl
  | cons index base ih =>
    obtain ⟨lo₁, hi₁, h₁, h₂⟩ := refineAll_cons_eq_ok.1 h
    rw [List.cons_append, refineAll, h₁]
    dsimp only
    rw [ih h₂, List.length_cons, Nat.add_assoc, Nat.add_comm 1]

theorem interval_concat (h : refineAll .zero .infinity 0 base = .ok (lo, hi)) (i : UInt64) :
    interval (base ++ [i]) = refine lo hi base.length i := by
  have hconcat := refineAll_concat h i
  rw [Nat.zero_add] at hconcat
  rw [← hconcat]
  cases base <;> rfl

namespace Span

theorem ofIndices_eq_error {path : List UInt64} (h : ofIndices path format = .error e) : interval path = .error e ∨
    ∃ lo hi, interval path = .ok (lo, hi) ∧
      (Position.render lo format = .error e ∨ Position.render hi format = .error e) := by
  unfold ofIndices at h
  split at h
  · next hint =>
    cases h
    exact Or.inl hint
  · next lo hi hint =>
    refine Or.inr ⟨lo, hi, hint, ?_⟩
    split at h
    · next hleft =>
      cases h
      exact Or.inl hleft
    · split at h
      · next hright =>
        cases h
        exact Or.inr hright
      · cases h

theorem exists_render_of_refine {q : Position} (hu : Unimodular lo hi) (hhi : hi.denominator ≠ 0)
    (hq : Position.render hi format = .ok q) (h : refine lo hi depth index = .ok (lo', hi')) :
    (∃ p, Position.render lo' format = .ok p) ∧ ∃ p, Position.render hi' format = .ok p := by
  have hu' := refine_unimodular hu h
  have hfinite := refine_upper_finite hu h
  have hle := (refine_upper_lt hu hhi h).le
  exact ⟨Position.exists_render_of_le hu'.lower_finite hhi ((hu'.value_lt hfinite).le.trans hle) hq,
    Position.exists_render_of_le hfinite hhi hle hq⟩

/-- A root has no span if it needs more digits before the point than there are; a child of a node that has one, only
if the words are too short for it. -/
theorem ofIndices_concat_eq_error (hbase : base = [] ∨ ∃ s, ofIndices base format = .ok s)
    (h : ofIndices (base ++ [i]) format = .error e) :
    e = .overflow base.length ∨ base = [] ∧ ∃ digits width, e = .integerPartTooWide digits width := by
  obtain ⟨lo, hi, hall⟩ : ∃ lo hi, refineAll .zero .infinity 0 base = .ok (lo, hi) := by
    rcases hbase with rfl | ⟨s, hs⟩
    · exact ⟨_, _, rfl⟩
    · obtain ⟨lo, hi, hint, -, -⟩ := ofIndices_eq_ok hs
      exact ⟨lo, hi, (interval_eq_ok.1 hint).2⟩
  have hconcat := interval_concat hall i
  rcases ofIndices_eq_error h with herror | ⟨lo', hi', hint, hrender⟩
  · exact Or.inl (refine_eq_error (hconcat.symm.trans herror))
  · rcases hbase with rfl | ⟨s, hs⟩
    · exact Or.inr ⟨rfl, hrender.elim Position.render_eq_error Position.render_eq_error⟩
    · -- the boundaries lie below one that has been rendered
      obtain ⟨lo₁, hi₁, hparent, -, hright⟩ := ofIndices_eq_ok hs
      rw [(interval_eq_ok.1 hparent).2] at hall
      cases hall
      obtain ⟨⟨p, hp⟩, ⟨q, hq⟩⟩ := exists_render_of_refine (interval_unimodular hparent)
        (interval_upper_finite hparent) hright (hconcat.symm.trans hint)
      rcases hrender with herror | herror
      · cases hp.symm.trans herror
      · cases hq.symm.trans herror

end Span

end

end Grove
