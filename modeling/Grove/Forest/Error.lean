import Grove.Attr.Path
import Grove.Position.Error
import Grove.Text.Escaped
/-!
# Why an update of a forest is refused
-/

set_option autoImplicit false

namespace Grove

inductive StoreError where
  | closed
  | unknownModel
  | unknownUid
  | listOverrun (path : String) (overrun : ListOverrun)
  | encode (cause : EncodeError)
  | capacityExceeded
  deriving DecidableEq

namespace StoreError

def messageChars : StoreError → List Char
  | closed => "store is closed".toList
  | unknownModel => "no such model".toList
  | unknownUid => "no model with that diggerid".toList
  | listOverrun path overrun =>
    "list index ".toList ++ Decimal.natDigits overrun.index ++ " in attribute path ".toList
      ++ Text.quotedText path.toList ++ " is too far past the end (".toList
      ++ Decimal.natDigits overrun.length ++ " items)".toList
  | encode cause => cause.messageChars
  | capacityExceeded => "store holds the maximum number of models".toList

def message (e : StoreError) : String := String.ofList e.messageChars

end StoreError

/-- Why drafts are not appended. Refusals are errors that the caller gets; a sibling counter that cannot be
raised any more ends the whole program, in the middle of what it is doing. -/
inductive Failure (ε : Type) where
  | refused (cause : ε)
  | overflow
  deriving DecidableEq

namespace Failure

def map {ε ε' : Type} (f : ε → ε') : Failure ε → Failure ε'
  | refused cause => refused (f cause)
  | overflow => overflow

end Failure

end Grove
