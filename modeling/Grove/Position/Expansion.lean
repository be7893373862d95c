import Grove.Number.Decimal
import Grove.Position.Fraction
/-!
# Decimal expansion by long division

The whole part, padded with zeros to a fixed width, and after it a fixed number of digits of the
fractional part, cut off. Ten times a remainder may exceed a word; its digit is then found by adding the
remainder ten times modulo the divisor and counting how often that wraps.
-/

set_option autoImplicit false

namespace Grove.Fraction

/-- One addition of `r` modulo `d`: the sum so far, and how often it has passed `d`. -/
def addModulo (r d : Word) (state : Word × Word) : Word × Word :=
  let (carries, acc) := state
  let gap := d - acc
  if gap ≤ r then (carries + 1, r - gap) else (carries, acc + r)

/-- The next digit and the next remainder, for a remainder `r` below the divisor `d`. -/
def timesTen (r d : Word) : Word × Word :=
  match Word.mul? r 10 with
  | some scaled => (scaled / d, scaled % d)
  | none => Nat.repeat (addModulo r d) 10 (0, 0)

def fractionDigits (d : Word) : Nat → Word → List Char
  | 0, _ => []
  | n + 1, r =>
    let (digit, next) := timesTen r d
    Char.ofNat ('0'.toNat + digit.toNat) :: fractionDigits d n next

def wholeDigits (a : Fraction) : List Char :=
  Decimal.natDigits (a.numerator / a.denominator).toNat

def toDecimal? (a : Fraction) (whole fraction : Nat) : Option (List Char) :=
  if a.isInfinite then none
  else if whole < a.wholeDigits.length then none
  else
    some (List.replicate (whole - a.wholeDigits.length) '0' ++ a.wholeDigits
      ++ fractionDigits a.denominator fraction (a.numerator % a.denominator))

end Grove.Fraction
