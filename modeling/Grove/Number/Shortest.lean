import Grove.Number.Decimal
/-!
# The shortest decimal text that reads back

Among the decimals with the fewest significant digits that read back as a given number the nearest is
taken, a tie going up. It is written positionally, without an exponent and without trailing zeros after
the point.
-/

set_option autoImplicit false

namespace Grove.Decimal

/-- The least `p` with `units / 2 ^ 1074 < 10 ^ p`, for a positive magnitude. -/
def decimalExponent (units : Nat) : Int :=
  if Binary64.unitsPerOne ≤ units then (natDigits (units / Binary64.unitsPerOne)).length
  else
    let inverse := (Binary64.unitsPerOne - 1) / units
    -- `10 ^ (k - 1) ≤ 1 / magnitude` decides the number of zeros after the point
    1 - (natDigits inverse).length

/-- Two multiples of `10 ^ scale` around a magnitude, the lower one first, and how the magnitude's
distance from the lower compares with half of the step. -/
def gridNeighbours (units : Nat) (scale : Int) : Nat × Ordering :=
  let (numerator, denominator) :=
    if 0 ≤ scale then (units, Binary64.unitsPerOne * Nat.pow 10 scale.toNat)
    else (units * Nat.pow 10 (-scale).toNat, Binary64.unitsPerOne)
  (numerator / denominator, compare (2 * (numerator % denominator)) denominator)

def readsBack (digits : Nat) (scale : Int) (mantissa exponent : Nat) : Bool :=
  match scaled false digits (natDigits digits).length scale with
  | .finite _ m e _ => m == mantissa && e == exponent
  | _ => false

def candidate? (mantissa exponent : Nat) (places : Nat) : Option (Nat × Int) :=
  let units := Binary64.units mantissa exponent
  let scale := decimalExponent units - places
  let (low, nearer) := gridNeighbours units scale
  match readsBack low scale mantissa exponent, readsBack (low + 1) scale mantissa exponent with
  | true, true => some (if nearer = .lt then low else low + 1, scale)
  | true, false => some (low, scale)
  | false, true => some (low + 1, scale)
  | false, false => none

/-- All digits of a magnitude: `2 ^ (-1074)` is `5 ^ 1074` steps of `10 ^ (-1074)`. -/
def exactDigits (mantissa exponent : Nat) : Nat × Int :=
  (Binary64.units mantissa exponent * Nat.pow 5 1074, -1074)

/-- The shortest decimal `digits · 10 ^ scale` that reads back as a positive magnitude. -/
def shortest (mantissa exponent : Nat) : Nat × Int :=
  ((List.range' 1 17).findSome? (candidate? mantissa exponent)).getD (exactDigits mantissa exponent)

def dropTrailingZeros (digits : List Char) : List Char :=
  (digits.reverse.dropWhile (· = '0')).reverse

def positional (digits : Nat) (scale : Int) : List Char :=
  if 0 ≤ scale then natDigits (digits * Nat.pow 10 scale.toNat)
  else
    let places := (-scale).toNat
    let step := Nat.pow 10 places
    let below := natDigits (digits % step)
    let fraction := dropTrailingZeros (List.replicate (places - below.length) '0' ++ below)
    natDigits (digits / step) ++ (if fraction.isEmpty then [] else '.' :: fraction)

def text : Binary64 → List Char
  | .nan => ['N', 'a', 'N']
  | .infinite s => (if s then ['-'] else []) ++ ['i', 'n', 'f']
  | .finite s m e _ =>
    (if s then ['-'] else []) ++
      (if m = 0 then ['0'] else let (digits, scale) := shortest m e; positional digits scale)

def ofText? (cs : List Char) : Option Binary64 :=
  if cs = ['N', 'a', 'N'] then some .nan
  else if cs = ['i', 'n', 'f'] then some (.infinite false)
  else if cs = ['-', 'i', 'n', 'f'] then some (.infinite true)
  else read? cs

/-- The text of a number in selectors and attribute values: an integer below `10 ^ 15` is written as
one, so that a negative zero loses its sign; any other number has its shortest text. -/
def plainText (x : Binary64) : List Char :=
  match x.toInt? with
  | some i => if i.natAbs < Nat.pow 10 15 then intDigits i else text x
  | none => text x

end Grove.Decimal
