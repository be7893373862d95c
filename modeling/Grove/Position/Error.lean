import Grove.Number.Shortest
/-!
# Why a path has no position
-/

set_option autoImplicit false

namespace Grove

inductive EncodeError where
  | emptyPath
  | negativeIndex (depth : Nat) (value : Int)
  | fractionalIndex (depth : Nat) (value : Binary64)
  | overflow (depth : Nat)
  | integerPartTooWide (digits width : Nat)
  | precisionExhausted (depth : Nat)
  deriving DecidableEq

namespace EncodeError

def messageChars : EncodeError → List Char
  | emptyPath => "path is empty; every node has at least its root-level index".toList
  | negativeIndex depth value =>
    "negative index ".toList ++ Decimal.intDigits value ++ " at depth ".toList
      ++ Decimal.natDigits depth
  | fractionalIndex depth value =>
    "non-integer index ".toList ++ Decimal.text value ++ " at depth ".toList ++ Decimal.natDigits depth
  | overflow depth => "position arithmetic overflowed at depth ".toList ++ Decimal.natDigits depth
  | integerPartTooWide digits width =>
    "integer part has ".toList ++ Decimal.natDigits digits
      ++ " digits but the encoding allows ".toList ++ Decimal.natDigits width
  | precisionExhausted depth =>
    "encoding precision exhausted at depth ".toList ++ Decimal.natDigits depth
      ++ ": boundaries no longer separate".toList

def message (e : EncodeError) : String := String.ofList e.messageChars

end EncodeError

end Grove
