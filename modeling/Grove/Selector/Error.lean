import Grove.Number.Decimal
import Grove.Text.Escaped
/-!
# Why a text is no selector
-/

set_option autoImplicit false

namespace Grove

inductive SyntaxCause where
  | emptyPhase
  | expectedName
  | unterminatedBracket
  | unknownOperator (token : List Char)
  | unknownModifier (name : List Char)
  | repeatedModifier
  | invalidLimit
  | unexpected (found : Char)
  deriving DecidableEq

/-- A blank text, or a fault at an offset in bytes. -/
inductive SyntaxError where
  | empty
  | at (offset : Nat) (cause : SyntaxCause)
  deriving DecidableEq

namespace SyntaxError

def offset? : SyntaxError → Option Nat
  | empty => none
  | .at offset _ => some offset

def messageChars : SyntaxError → List Char
  | empty => "empty selector".toList
  | .at offset cause =>
    let place := Decimal.natDigits offset
    match cause with
    | .emptyPhase => "empty phase at offset ".toList ++ place
    | .expectedName => "expected a name at offset ".toList ++ place
    | .unterminatedBracket => "unterminated '[' at offset ".toList ++ place
    | .unknownOperator token =>
      "unrecognized operator ".toList ++ Text.quotedText token ++ " at offset ".toList ++ place
    | .unknownModifier name =>
      "unrecognized pseudo-modifier ':".toList ++ name ++ "' at offset ".toList ++ place
    | .repeatedModifier => "a phase may carry only one pseudo-modifier (offset ".toList ++ place ++ [')']
    | .invalidLimit => "invalid :limit() argument at offset ".toList ++ place
    | .unexpected found =>
      "unexpected ".toList ++ Text.quotedChar found ++ " at offset ".toList ++ place

def message (e : SyntaxError) : String := String.ofList e.messageChars

end SyntaxError

end Grove
