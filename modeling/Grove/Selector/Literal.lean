import Grove.Number.Shortest
import Grove.Text.Blank
/-!
# Literals

The scalar on the right of an attribute test: a number or a text. A bare token is a number when it
reads as a finite one; a text that would read as something else is written between quotes.
-/

set_option autoImplicit false

namespace Grove

inductive Literal where
  | number (value : Binary64)
  | text (value : String)
  deriving DecidableEq

namespace Literal

def isNumberChar (c : Char) : Bool :=
  c.isDigit || c == '.' || c == '-' || c == '+' || c == 'e' || c == 'E'

def numeric? (token : List Char) : Option Binary64 :=
  if token.any Char.isDigit && token.all isNumberChar then
    (Decimal.read? token).filter Binary64.isFinite
  else none

/-- A bare token is a number where it can be, else a text. -/
def ofToken (token : List Char) : Literal :=
  match numeric? token with
  | some n => .number n
  | none => .text (String.ofList token)

def number? : Literal → Option Binary64
  | .number n => some n
  | .text _ => none

def text? : Literal → Option String
  | .number _ => none
  | .text s => some s

/-- The text that a test for a beginning compares with. -/
def plain : Literal → List Char
  | .number n => Decimal.plainText n
  | .text s => s.toList

/-- Characters that a text shows only between quotes. -/
def needsQuotes (c : Char) : Bool :=
  Text.isBlank c || c == ']' || c == '\"' || c == '\'' || c == '/' || c == '\\'

/-- The quote with which a text is written: the apostrophe only where that saves an escape. -/
def quoteFor (text : List Char) : Char :=
  if text.contains '\"' && !text.contains '\'' then '\'' else '\"'

def quoted (quote : Char) (text : List Char) : List Char :=
  quote :: text.flatMap (fun c => if c = quote ∨ c = '\\' then ['\\', c] else [c]) ++ [quote]

def spell : Literal → List Char
  | .number n => Decimal.plainText n
  | .text s =>
    let text := s.toList
    if text.isEmpty || (numeric? text).isSome || text.any needsQuotes then quoted (quoteFor text) text
    else text

def unescape : List Char → List Char
  | [] => []
  | ['\\'] => []
  | '\\' :: c :: rest => c :: unescape rest
  | c :: rest => c :: unescape rest

def unquote? : List Char → Option (List Char)
  | [] => none
  | quote :: rest =>
    if (quote = '\"' ∨ quote = '\'') ∧ rest.getLast? = some quote then some (unescape rest.dropLast)
    else none

/-- The literal that the right side of a test denotes. -/
def ofSpelling (text : List Char) : Literal :=
  match unquote? text with
  | some inner => .text (String.ofList inner)
  | none => ofToken text

def agrees : Literal → Literal → Bool
  | .number a, .number b => a.equal b
  | .text a, .text b => a == b
  | _, _ => false

end Literal

end Grove
