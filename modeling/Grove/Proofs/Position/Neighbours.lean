import Mathlib.Tactic
import Grove.Proofs.Position.Containment
import Grove.Proofs.Position.Mediants
/-!
# The ends of an interval are neighbours

The cross products of the two ends of an interval differ by one. So both are in lowest terms, the lower one is the
smaller, and rendering them changes neither. The rendering is also given with every division checked, to say that
none is by zero.
-/

set_option autoImplicit false

namespace Grove

def Word.div? (a b : Word) : Option Word := if b = 0 then none else some (a / b)

def Word.mod? (a b : Word) : Option Word := if b = 0 then none else some (a % b)

def divide? (a b : ℕ) : Option ℕ := if b = 0 then none else some (a / b)

theorem Word.div?_of_ne {a b : Word} (hb : b ≠ 0) : Word.div? a b = some (a / b) := if_neg hb

theorem Word.mod?_of_ne {a b : Word} (hb : b ≠ 0) : Word.mod? a b = some (a % b) := if_neg hb

namespace Fraction

def reducedChecked? (a : Fraction) : Option Fraction :=
  if a.isInfinite then some infinity
  else if a.divisor ≤ 1 then some a
  else do
    let numerator ← divide? a.numerator.toNat a.divisor
    let denominator ← divide? a.denominator.toNat a.divisor
    pure ⟨BitVec.ofNat 128 numerator, BitVec.ofNat 128 denominator⟩

def timesTenChecked? (r d : Word) : Option (Word × Word) :=
  match Word.mul? r 10 with
  | some scaled => do
    let digit ← Word.div? scaled d
    let next ← Word.mod? scaled d
    pure (digit, next)
  | none => some (Nat.repeat (addModulo r d) 10 (0, 0))

def fractionDigitsChecked? (d : Word) : ℕ → Word → Option (List Char)
  | 0, _ => some []
  | n + 1, r => do
    let (digit, next) ← timesTenChecked? r d
    let rest ← fractionDigitsChecked? d n next
    pure (Char.ofNat ('0'.toNat + digit.toNat) :: rest)

def wholeDigitsChecked? (a : Fraction) : Option (List Char) := do
  let whole ← Word.div? a.numerator a.denominator
  pure (Decimal.natDigits whole.toNat)

/-- The expansion by checked divisions; what the inner option says is whether the whole part fits. -/
def toDecimalChecked? (a : Fraction) (whole fraction : ℕ) : Option (Option (List Char)) :=
  if a.isInfinite then some none
  else do
    let digits ← a.wholeDigitsChecked?
    if whole < digits.length then pure none
    else
      let remainder ← Word.mod? a.numerator a.denominator
      let places ← fractionDigitsChecked? a.denominator fraction remainder
      pure (some (List.replicate (whole - digits.length) '0' ++ digits ++ places))

end Fraction

namespace Position

def integerDigitsChecked? (a : Fraction) : Option ℕ :=
  if a.isInfinite then some (UInt64.size - 1)
  else do
    let digits ← a.wholeDigitsChecked?
    pure digits.length

def renderChecked? (a : Fraction) (format : Format) : Option (Except EncodeError Position) := do
  let a ← a.reducedChecked?
  match ← a.toDecimalChecked? format.integerDigits.toNat format.fractionDigits.toNat with
  | some digits => pure (.ok ⟨a.numerator, a.denominator, String.ofList digits⟩)
  | none =>
    let needed ← integerDigitsChecked? a
    pure (.error (.integerPartTooWide needed format.integerDigits.toNat))

end Position

namespace Fraction

theorem isInfinite_iff {a : Fraction} : a.isInfinite = true ↔ a.denominator = 0 := beq_iff_eq

theorem reducedChecked?_eq (a : Fraction) : a.reducedChecked? = some a.reduced := by
  unfold reducedChecked? reduced
  split
  · rfl
  · split
    · rfl
    · next hg =>
      have hne : a.divisor ≠ 0 := by omega
      simp [divide?, hne]

theorem timesTenChecked?_eq (r : Word) {d : Word} (hd : d ≠ 0) : timesTenChecked? r d = some (timesTen r d) := by
  unfold timesTenChecked? timesTen
  cases Word.mul? r 10 with
  | none => rfl
  | some scaled =>
    dsimp only
    rw [Word.div?_of_ne hd, Word.mod?_of_ne hd]
    rfl

theorem fractionDigitsChecked?_eq {d : Word} (hd : d ≠ 0) (n : ℕ) (r : Word) :
    fractionDigitsChecked? d n r = some (fractionDigits d n r) := by
  induction n generalizing r with
  | zero => rfl
  | succ n ih => simp [fractionDigitsChecked?, fractionDigits, timesTenChecked?_eq r hd, ih]

theorem wholeDigitsChecked?_eq {a : Fraction} (ha : a.denominator ≠ 0) :
    a.wholeDigitsChecked? = some a.wholeDigits := by
  unfold wholeDigitsChecked?
  rw [Word.div?_of_ne ha]
  rfl

theorem toDecimalChecked?_eq (a : Fraction) (whole fraction : ℕ) :
    a.toDecimalChecked? whole fraction = some (a.toDecimal? whole fraction) := by
  unfold toDecimalChecked? toDecimal?
  split
  · rfl
  · next hinf =>
    have ha := mt isInfinite_iff.2 hinf
    simp only [wholeDigitsChecked?_eq ha, Word.mod?_of_ne ha, fractionDigitsChecked?_eq ha, bind, Option.bind, pure]
    split <;> rfl

end Fraction

theorem Position.integerDigitsChecked?_eq (a : Fraction) : integerDigitsChecked? a = some (integerDigitsOf a) := by
  unfold integerDigitsChecked? integerDigitsOf
  split
  · rfl
  · next hinf =>
    rw [Fraction.wholeDigitsChecked?_eq (mt Fraction.isInfinite_iff.2 hinf)]
    rfl

/-- No division of the rendering is by zero. -/
theorem Position.renderChecked?_eq (a : Fraction) (format : Format) :
    renderChecked? a format = some (render a format) := by
  unfold renderChecked? render
  simp only [Fraction.reducedChecked?_eq, Fraction.toDecimalChecked?_eq, integerDigitsChecked?_eq, bind, Option.bind,
    pure]
  cases a.reduced.toDecimal? format.integerDigits.toNat format.fractionDigits.toNat with
  | some digits => rfl
  | none => rfl

theorem Fraction.ratio_injective : Function.Injective Fraction.ratio := by
  rintro ⟨n, d⟩ ⟨n', d'⟩ h
  obtain ⟨hn, hd⟩ := Prod.mk.inj h
  rw [Fraction.mk.injEq]
  exact ⟨BitVec.eq_of_toNat_eq hn, BitVec.eq_of_toNat_eq hd⟩

theorem Fraction.reduced_of_isReduced {a : Fraction} (ha : a.denominator ≠ 0) (h : a.isReduced = true) :
    a.reduced = a := by
  unfold reduced
  rw [if_neg (mt isInfinite_iff.1 ha), if_pos (beq_iff_eq.1 h).le]

namespace Unimodular

section
variable {lo hi : Fraction}

theorem determinant (h : Unimodular lo hi) :
    (hi.numerator.toNat * lo.denominator.toNat - lo.numerator.toNat * hi.denominator.toNat : ℤ) = 1 := by
  unfold Unimodular Fraction.cross at h
  zify at h
  linarith

theorem eq_one_of_dvd (h : Unimodular lo hi) {g : ℕ} (hlo : g ∣ Fraction.cross lo hi)
    (hhi : g ∣ Fraction.cross hi lo) : g = 1 := by
  unfold Unimodular at h
  rw [h] at hhi
  exact Nat.dvd_one.1 ((Nat.dvd_add_right hlo).1 hhi)

theorem lower_isReduced (h : Unimodular lo hi) : lo.isReduced = true :=
  beq_iff_eq.2 (h.eq_one_of_dvd ((Nat.gcd_dvd_left ..).mul_right _) ((Nat.gcd_dvd_right ..).mul_left _))

theorem upper_isReduced (h : Unimodular lo hi) : hi.isReduced = true :=
  beq_iff_eq.2 (h.eq_one_of_dvd ((Nat.gcd_dvd_right ..).mul_left _) ((Nat.gcd_dvd_left ..).mul_right _))

end

end Unimodular

/-- What one index makes the upper end is what the next one makes the lower end. -/
theorem Ends.upper_descend (e : Ends) (k : ℕ) : (e.descend k).upper = (e.descend (k + 1)).lower := by
  rw [descend_eq, descend_eq]
  simp only [sink, Ratio.mediant, Nat.succ_mul, Nat.add_assoc]

theorem Ends.inWords_descend_of_succ {e : Ends} {k : ℕ} (h : (e.descend (k + 1)).InWords) : (e.descend k).InWords := by
  have hupper : (e.descend k).upper.InWords := by
    rw [upper_descend]
    exact h.1
  refine ⟨hupper.of_le ?_, hupper⟩
  rw [descend_eq]
  exact ⟨Nat.le_add_right .., Nat.le_add_right ..⟩

theorem exists_interval_of_next {base : List UInt64} {k k' : UInt64} {lo hi : Fraction}
    (h : interval (base ++ [k']) = .ok (lo, hi)) (hk : k'.toNat = k.toNat + 1) :
    ∃ lo', interval (base ++ [k]) = .ok (lo', lo) := by
  obtain ⟨lo₁, hi₁, hbase, hlast⟩ := refineAll_append_eq_ok.1 (interval_eq_ok.1 h).2
  obtain ⟨_, _, hstep, hnil⟩ := refineAll_cons_eq_ok.1 hlast
  cases hnil
  have hends := ofFractions_of_refine hstep
  have hfit := Ends.inWords_ofFractions lo hi
  rw [hends, hk] at hfit
  obtain ⟨lo', hi', hstep'⟩ := exists_refine (0 + base.length) (Ends.inWords_descend_of_succ hfit)
  have htouch : hi'.ratio = lo.ratio :=
    calc
      hi'.ratio = ((Ends.ofFractions lo₁ hi₁).descend k.toNat).upper :=
        congrArg Ends.upper (ofFractions_of_refine hstep')
      _ = ((Ends.ofFractions lo₁ hi₁).descend (k.toNat + 1)).lower := Ends.upper_descend ..
      _ = lo.ratio := by rw [← hk, ← hends]; rfl
  rw [Fraction.ratio_injective htouch] at hstep'
  refine ⟨lo', interval_eq_ok.2 ⟨by simp, ?_⟩⟩
  exact refineAll_append_eq_ok.2 ⟨lo₁, hi₁, hbase, refineAll_cons_eq_ok.2 ⟨lo', lo, hstep', rfl⟩⟩

/-- A finite fraction in lowest terms, which the rendering keeps as it is, with no division by zero. -/
structure Fraction.Proper (a : Fraction) : Prop where
  denominator_pos : 1 ≤ a.denominator.toNat
  isReduced : a.isReduced = true
  reduced : a.reduced = a
  kept : ∀ {format p}, Position.render a format = .ok p → p.fraction = a
  checked : ∀ format, Position.renderChecked? a format = some (Position.render a format)

theorem Fraction.proper {a : Fraction} (ha : a.denominator ≠ 0) (hreduced : a.isReduced = true) : a.Proper where
  denominator_pos := toNat_pos_of_ne_zero ha
  isReduced := hreduced
  reduced := reduced_of_isReduced ha hreduced
  kept hp := (Position.render_eq_ok hp).2.trans (reduced_of_isReduced ha hreduced)
  checked := Position.renderChecked?_eq a

theorem Span.right_eq_left {p q : List UInt64} {format : Format} {s t : Span} {lo' lo hi : Fraction}
    (hs : ofIndices p format = .ok s) (ht : ofIndices q format = .ok t) (hp : interval p = .ok (lo', lo))
    (hq : interval q = .ok (lo, hi)) : s.right = t.left := by
  obtain ⟨_, _, hp', -, hright⟩ := ofIndices_eq_ok hs
  obtain ⟨_, _, hq', hleft, -⟩ := ofIndices_eq_ok ht
  cases hp.symm.trans hp'
  cases hq.symm.trans hq'
  exact Except.ok.inj (hright.symm.trans hleft)

/-- The ends of an interval have determinant one. So they are finite, in order and in lowest terms, the rendering
keeps them as they are and never divides by zero, and the interval of the sibling before ends where this one begins. -/
theorem neighbours_of_interval {path : List UInt64} {lo hi : Fraction} (h : interval path = .ok (lo, hi)) :
    (hi.numerator.toNat * lo.denominator.toNat - lo.numerator.toNat * hi.denominator.toNat : ℤ) = 1 ∧
    lo.order hi = .lt ∧ lo.Proper ∧ hi.Proper ∧
    ∀ base k k', path = base ++ [k'] → k'.toNat = k.toNat + 1 →
      ∃ lo', interval (base ++ [k]) = .ok (lo', lo) ∧
        ∀ format s t, Span.ofIndices (base ++ [k]) format = .ok s → Span.ofIndices path format = .ok t →
          s.right = t.left := by
  have hu := interval_unimodular h
  have hfinite := interval_upper_finite h
  refine ⟨hu.determinant, ?_, Fraction.proper hu.lower_finite hu.lower_isReduced,
    Fraction.proper hfinite hu.upper_isReduced, ?_⟩
  · exact beq_iff_eq.1 ((Fraction.less_iff hu.lower_finite hfinite).2 (hu.value_lt hfinite))
  · rintro base k k' rfl hk
    obtain ⟨lo', hbefore⟩ := exists_interval_of_next h hk
    exact ⟨lo', hbefore, fun format s t hs ht => Span.right_eq_left hs ht hbefore h⟩

theorem neighbours_of_interval_fifth :
    interval [45, 3, 4, 5] = .ok (⟨7739, 169⟩, ⟨9067, 198⟩) ∧ (9067 * 169 - 7739 * 198 : ℤ) = 1 ∧
      (⟨7739, 169⟩ : Fraction).Proper ∧ (⟨9067, 198⟩ : Fraction).Proper ∧
      ∃ lo', interval [45, 3, 4, 4] = .ok (lo', ⟨7739, 169⟩) := by
  have h : interval [45, 3, 4, 5] = .ok (⟨7739, 169⟩, ⟨9067, 198⟩) := by decide
  obtain ⟨hdet, -, hlo, hhi, hbefore⟩ := neighbours_of_interval h
  obtain ⟨lo', hsibling, -⟩ := hbefore [45, 3, 4] 4 5 rfl rfl
  exact ⟨h, hdet, hlo, hhi, lo', hsibling⟩

end Grove
