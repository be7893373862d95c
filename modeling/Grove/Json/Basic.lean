import Grove.Number.Shortest
import Grove.Text.Escaped
/-!
# JSON trees

Objects keep their entries in order, repeats included. Integers of 128 bits are kept apart from other
numbers, whose texts have a point. A well-formed piece of text that has no value here stands in the tree as `unreadable`: a
number beyond all finite ones, half of a surrogate pair, or a container nested too deep.
-/

set_option autoImplicit false

namespace Grove

inductive Json where
  | null
  | bool (value : Bool)
  | integer (value : Int)
  | real (value : Binary64)
  | string (value : String)
  | array (items : List Json)
  | object (entries : List (String × Json))
  | unreadable

namespace Json

instance : Inhabited Json := ⟨null⟩

/-- An integer of 64 bits, with or without a sign. -/
def isWord (i : Int) : Bool := Int64.minValue.toInt ≤ i && i < (UInt64.size : Int)

/-- The integers that keep their own kind: 128 bits, with or without a sign. -/
def isLong (i : Int) : Bool :=
  -0x80000000000000000000000000000000 ≤ i && i < 0x100000000000000000000000000000000

def field? (key : String) : Json → Option Json
  | object entries => (entries.find? (fun e => e.1 == key)).map Prod.snd
  | _ => none

def isNull : Json → Bool
  | null => true
  | _ => false

def unitDigits (n : Nat) : List Char :=
  let digits := Nat.toDigits 16 n
  List.replicate (4 - digits.length) '0' ++ digits

def escape (c : Char) : List Char :=
  if c = '\"' then ['\\', '\"']
  else if c = '\\' then ['\\', '\\']
  else if c = '\n' then ['\\', 'n']
  else if c = '\r' then ['\\', 'r']
  else if c = '\t' then ['\\', 't']
  else if c.toNat < 0x20 ∨ c = '\u0085' ∨ c = '\u2028' ∨ c = '\u2029' then
    '\\' :: 'u' :: unitDigits c.toNat
  else [c]

def writeString (s : String) : String := String.ofList ('\"' :: (s.toList.flatMap escape ++ ['\"']))

/-- A number text with a point, so that it is not taken for an integer. -/
def pointed (text : List Char) : List Char := if '.' ∈ text then text else text ++ ['.', '0']

/-- The text of a number; only finite ones have one. -/
def writeReal (x : Binary64) : String :=
  if x.isFinite then String.ofList (pointed (Decimal.text x)) else "null"

mutual

def write : Json → String
  | null => "null"
  | bool b => if b then "true" else "false"
  | integer i => String.ofList (Decimal.intDigits i)
  | real x => writeReal x
  | string s => writeString s
  | array items => "[" ++ writeItems items ++ "]"
  | object entries => "\x7b" ++ writeEntries entries ++ "\x7d"
  | unreadable => "null"

def writeItems : List Json → String
  | [] => ""
  | [item] => write item
  | item :: rest => write item ++ "," ++ writeItems rest

def writeEntries : List (String × Json) → String
  | [] => ""
  | [(key, item)] => writeString key ++ ":" ++ write item
  | (key, item) :: rest => writeString key ++ ":" ++ write item ++ "," ++ writeEntries rest

end

end Json

end Grove
