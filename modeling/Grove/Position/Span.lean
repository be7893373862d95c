import Grove.Position.Expansion
import Grove.Position.Interval
/-!
# Positions and spans

A position is a fraction with its digits in a fixed format; the order of the digits as texts follows the
order of the values as far as the format resolves it. A span is a pair of positions.
-/

set_option autoImplicit false

namespace Grove

structure Format where
  integerDigits : UInt64
  fractionDigits : UInt64
  deriving DecidableEq

namespace Format

def standard : Format := ⟨4, 32⟩

instance : Inhabited Format := ⟨standard⟩

def width (f : Format) : UInt64 := f.integerDigits + f.fractionDigits

end Format

structure Position where
  numerator : Word
  denominator : Word
  encoding : String
  deriving DecidableEq

namespace Position

def fraction (p : Position) : Fraction := ⟨p.numerator, p.denominator⟩

def order (p q : Position) : Ordering := p.fraction.order q.fraction

def agrees (p q : Position) : Bool := p.order q == .eq

def less (p q : Position) : Bool := p.order q == .lt

def integerDigitsOf (a : Fraction) : Nat :=
  if a.isInfinite then UInt64.size - 1 else a.wholeDigits.length

/-- A fraction in lowest terms with its digits. -/
def render (a : Fraction) (format : Format) : Except EncodeError Position :=
  let a := a.reduced
  match a.toDecimal? format.integerDigits.toNat format.fractionDigits.toNat with
  | some digits => .ok ⟨a.numerator, a.denominator, String.ofList digits⟩
  | none => .error (.integerPartTooWide (integerDigitsOf a) format.integerDigits.toNat)

def spell (p : Position) : List Char :=
  Decimal.natDigits p.numerator.toNat ++ '/' :: Decimal.natDigits p.denominator.toNat

end Position

structure Span where
  left : Position
  right : Position
  deriving DecidableEq

namespace Span

def agrees (s t : Span) : Bool := s.left.agrees t.left && s.right.agrees t.right

/-- The first span strictly encloses the second. -/
def contains (s t : Span) : Bool := s.left.less t.left && t.right.less s.right

def containsEncoded (s t : Span) : Bool :=
  decide (s.left.encoding < t.left.encoding) && decide (t.right.encoding < s.right.encoding)

/-- A strict order of two values that their digits show. -/
def kept (p q : Position) : Bool := !p.less q || decide (p.encoding < q.encoding)

/-- The digits of a span tell its own boundaries apart, and from those of its parent. -/
def isResolved (s : Span) (parent : Option Span) : Bool :=
  kept s.left s.right &&
    (match parent with
      | none => true
      | some p => kept p.left s.left && kept s.right p.right)

def checkResolved (s : Span) (parent : Option Span) (depth : Nat) : Except EncodeError Unit :=
  if s.isResolved parent then .ok () else .error (.precisionExhausted depth)

def ofIndices (path : List UInt64) (format : Format) : Except EncodeError Span :=
  match interval path with
  | .error e => .error e
  | .ok (lo, hi) =>
    match Position.render lo format with
    | .error e => .error e
    | .ok left =>
      match Position.render hi format with
      | .error e => .error e
      | .ok right => .ok ⟨left, right⟩

end Span

end Grove
