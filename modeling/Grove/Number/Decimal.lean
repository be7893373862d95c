import Grove.Number.Binary64
/-!
# Decimal texts of numbers

Reading: an optional sign, digits with at most one point among or around them, and an optional
exponent. The value of the whole text is rounded once.
-/

set_option autoImplicit false

namespace Grove.Decimal

def digitsValue (digits : List Char) : Nat := Nat.ofDigitChars 10 digits 0

/-- The ASCII digits of a natural number, most significant first; zero has one digit. -/
def natDigits (n : Nat) : List Char := Nat.toDigits 10 n

theorem digitsValue_natDigits (n : Nat) : digitsValue (natDigits n) = n :=
  Nat.ofDigitChars_toDigits (by decide) (by decide)

theorem isDigit_of_mem_natDigits {n : Nat} {c : Char} (h : c ∈ natDigits n) : c.isDigit = true :=
  Nat.isDigit_of_mem_toDigits (by decide) (by decide) h

theorem digitsValue_zeros_append (k : Nat) (digits : List Char) :
    digitsValue (List.replicate k '0' ++ digits) = digitsValue digits := by
  induction k with
  | zero => rfl
  | succ k ih => simpa [digitsValue, List.replicate_succ, Nat.ofDigitChars] using ih

def intDigits (i : Int) : List Char :=
  if i < 0 then '-' :: natDigits i.natAbs else natDigits i.natAbs

def takeSign : List Char → Bool × List Char
  | '-' :: rest => (true, rest)
  | '+' :: rest => (false, rest)
  | text => (false, text)

/-- The exponent that ends a number text: nothing, or an `e`, a sign and at least one digit. -/
def exponent? : List Char → Option Int
  | [] => some 0
  | c :: rest =>
    if c = 'e' ∨ c = 'E' then
      let (negative, digits) := takeSign rest
      if digits.isEmpty || !digits.all Char.isDigit then none
      else some (if negative then -(digitsValue digits : Int) else (digitsValue digits : Int))
    else none

/-- `digits · 10 ^ scale` as a number. Beyond 310 places before the point the result is infinite and
beyond 330 after it zero, so no large power is formed there. -/
def scaled (negative : Bool) (digits : Nat) (places : Nat) (scale : Int) : Binary64 :=
  if digits = 0 then Binary64.ofUnits negative 0 1
  else if 310 < scale + places then .infinite negative
  else if scale + places < -330 then Binary64.ofUnits negative 0 1
  else if 0 ≤ scale then Binary64.ofRatio negative (digits * Nat.pow 10 scale.toNat) 1
  else Binary64.ofRatio negative digits (Nat.pow 10 (-scale).toNat)

def read? (text : List Char) : Option Binary64 :=
  let (negative, body) := takeSign text
  let whole := body.takeWhile Char.isDigit
  let afterWhole := body.dropWhile Char.isDigit
  let (fraction, tail) := match afterWhole with
    | '.' :: rest => (rest.takeWhile Char.isDigit, rest.dropWhile Char.isDigit)
    | rest => ([], rest)
  if whole.isEmpty && fraction.isEmpty then none
  else
    (exponent? tail).map fun e =>
      let digits := (whole ++ fraction).dropWhile (· = '0')
      scaled negative (digitsValue digits) digits.length (e - fraction.length)

end Grove.Decimal
