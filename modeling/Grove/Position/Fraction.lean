import Grove.Position.Word
/-!
# Fractions

Non-negative fractions of two words. A zero denominator stands for the one point at infinity. The order
is found by expanding both sides as continued fractions, so that nothing is ever multiplied.
-/

set_option autoImplicit false

namespace Grove

structure Fraction where
  numerator : Word
  denominator : Word
  deriving DecidableEq

namespace Fraction

def zero : Fraction := ⟨0, 1⟩

def infinity : Fraction := ⟨1, 0⟩

def isInfinite (a : Fraction) : Bool := a.denominator == 0

def mediant? (a b : Fraction) : Option Fraction := do
  let numerator ← a.numerator.add? b.numerator
  let denominator ← a.denominator.add? b.denominator
  pure ⟨numerator, denominator⟩

/-- The end of `k` mediants, each of the last one and `toward`. -/
def mediantSteps? (a toward : Fraction) (k : UInt64) : Option Fraction := do
  let n ← (Word.ofIndex k).mul? toward.numerator
  let numerator ← a.numerator.add? n
  let d ← (Word.ofIndex k).mul? toward.denominator
  let denominator ← a.denominator.add? d
  pure ⟨numerator, denominator⟩

def divisor (a : Fraction) : Nat := Nat.gcd a.numerator.toNat a.denominator.toNat

def isReduced (a : Fraction) : Bool := a.divisor == 1

def reduced (a : Fraction) : Fraction :=
  if a.isInfinite then infinity
  else if a.divisor ≤ 1 then a
  else
    ⟨BitVec.ofNat 128 (a.numerator.toNat / a.divisor),
      BitVec.ofNat 128 (a.denominator.toNat / a.divisor)⟩

theorem umod_toNat_lt {a b : Word} (h : b ≠ 0) : (a % b).toNat < b.toNat := by
  rw [BitVec.toNat_umod]
  apply Nat.mod_lt
  exact Nat.pos_of_ne_zero fun e => h (BitVec.eq_of_toNat_eq e)

/-- The order of the values. Whole parts decide first; where they agree the remainders `r / d` are
compared by their reciprocals, whose order is the opposite one. -/
def order (a b : Fraction) : Ordering :=
  if _ha : a.denominator = 0 then (if b.denominator = 0 then .eq else .gt)
  else if _hb : b.denominator = 0 then .lt
  else if a.numerator / a.denominator < b.numerator / b.denominator then .lt
  else if b.numerator / b.denominator < a.numerator / a.denominator then .gt
  else if a.numerator % a.denominator = 0 then
    (if b.numerator % b.denominator = 0 then .eq else .lt)
  else if b.numerator % b.denominator = 0 then .gt
  else
    order ⟨b.denominator, b.numerator % b.denominator⟩ ⟨a.denominator, a.numerator % a.denominator⟩
termination_by a.denominator.toNat + b.denominator.toNat
decreasing_by
  have := umod_toNat_lt (a := a.numerator) _ha
  have := umod_toNat_lt (a := b.numerator) _hb
  omega

def partialOrder? (a b : Fraction) : Option Ordering := some (a.order b)

def agrees (a b : Fraction) : Bool := a.order b == .eq

def less (a b : Fraction) : Bool := a.order b == .lt

end Fraction

end Grove
