/-!
# Binary64 numbers

A number is a nan, a signed infinity, or a signed multiple `mantissa · 2 ^ exponent` of the smallest
magnitude `2 ^ (-1074)`. The pair is canonical: the mantissa has 53 bits unless the exponent is zero.
Every operation here works on exact natural numbers and rounds once, to nearest with ties to even.
-/

set_option autoImplicit false

namespace Grove

/-- Mantissas of 53 bits, the top one set unless the exponent is the lowest, below the overflow bound. -/
def CanonicalPair (mantissa exponent : Nat) : Prop :=
  mantissa < Nat.pow 2 53 ∧ exponent ≤ 2045 ∧ (exponent = 0 ∨ Nat.pow 2 52 ≤ mantissa)

instance (mantissa exponent : Nat) : Decidable (CanonicalPair mantissa exponent) := by
  unfold CanonicalPair; infer_instance

theorem canonicalPair_zero : CanonicalPair 0 0 := by decide

/-- A binary64 datum; the two zeros are different data. -/
inductive Binary64 where
  | nan
  | infinite (negative : Bool)
  | finite (negative : Bool) (mantissa exponent : Nat) (canonical : CanonicalPair mantissa exponent)
  deriving DecidableEq

namespace Binary64

/-- How many of the smallest magnitude make up one. -/
def unitsPerOne : Nat := Nat.pow 2 1074

def zero : Binary64 := .finite false 0 0 canonicalPair_zero

instance : Inhabited Binary64 := ⟨zero⟩

/-- The canonical pair as a finite number; any other pair lies beyond the largest one. -/
def ofPair (negative : Bool) (mantissa exponent : Nat) : Binary64 :=
  if h : CanonicalPair mantissa exponent then .finite negative mantissa exponent h
  else .infinite negative

/-- `numerator / denominator` to the nearest natural number, a half going to the even one. -/
def divideToEven (numerator denominator : Nat) : Nat :=
  let floor := numerator / denominator
  let twice := 2 * (numerator % denominator)
  if twice < denominator then floor
  else if denominator < twice then floor + 1
  else floor + floor % 2

/-- The number nearest to `numerator / denominator` of the smallest magnitude. -/
def ofUnits (negative : Bool) (numerator denominator : Nat) : Binary64 :=
  let exponent := (numerator / denominator).log2 + 1 - 53
  let mantissa := divideToEven numerator (denominator * Nat.pow 2 exponent)
  if mantissa = Nat.pow 2 53 then ofPair negative (Nat.pow 2 52) (exponent + 1)
  else ofPair negative mantissa exponent

def ofRatio (negative : Bool) (numerator denominator : Nat) : Binary64 :=
  ofUnits negative (numerator * unitsPerOne) denominator

def ofNat (n : Nat) : Binary64 := ofRatio false n 1

def ofInt (i : Int) : Binary64 := ofRatio (decide (i < 0)) i.natAbs 1

def units (mantissa exponent : Nat) : Nat := mantissa * Nat.pow 2 exponent

def signedUnits (negative : Bool) (mantissa exponent : Nat) : Int :=
  if negative then -(units mantissa exponent : Int) else (units mantissa exponent : Int)

/-- Numeric order; a nan has none, and the two zeros are equal. -/
def compare? : Binary64 → Binary64 → Option Ordering
  | .nan, _ => none
  | _, .nan => none
  | .infinite s, .infinite t => some (compare (!s) (!t))
  | .infinite s, .finite .. => some (if s then .lt else .gt)
  | .finite .., .infinite t => some (if t then .gt else .lt)
  | .finite s m e _, .finite t n f _ => some (compare (signedUnits s m e) (signedUnits t n f))

def equal (x y : Binary64) : Bool := x.compare? y == some .eq

def less (x y : Binary64) : Bool := x.compare? y == some .lt

def isFinite : Binary64 → Bool
  | .finite .. => true
  | _ => false

def toInt? : Binary64 → Option Int
  | .finite s m e _ =>
    if units m e % unitsPerOne = 0 then
      let n := units m e / unitsPerOne
      some (if s then -(n : Int) else (n : Int))
    else none
  | _ => none

/-- The quotient of two natural numbers, each first rounded; a zero divisor gives an infinity or a nan. -/
def quotient (numerator denominator : Nat) : Binary64 :=
  match ofNat numerator, ofNat denominator with
  | .finite _ m e _, .finite _ n f _ =>
    if n = 0 then (if m = 0 then .nan else .infinite false)
    else ofRatio false (units m e) (units n f)
  | .infinite _, .infinite _ => .nan
  | .infinite _, _ => .infinite false
  | _, _ => zero

theorem compare?_nan_left (x : Binary64) : compare? .nan x = none := rfl

theorem compare?_nan_right (x : Binary64) : compare? x .nan = none := by cases x <;> rfl

theorem equal_nan (x : Binary64) : equal x .nan = false := by simp [equal, compare?_nan_right]

theorem equal_refl {x : Binary64} (h : x ≠ .nan) : equal x x = true := by
  cases x with
  | nan => exact absurd rfl h
  | infinite s => cases s <;> rfl
  | finite s m e c => simp [equal, compare?]

end Binary64

end Grove
