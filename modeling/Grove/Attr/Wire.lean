import Grove.Attr.Basic
import Grove.Json.Fields
/-!
# Attribute trees as JSON trees

A key that comes twice keeps its first place and its last value.
-/

set_option autoImplicit false

namespace Grove.Attr

mutual

def toJson : Attr → Json
  | null => .null
  | bool b => .bool b
  | number n => Json.ofNumber n
  | text s => .string s
  | list items => .array (itemsToJson items)
  | map entries => .object (entriesToJson entries)

def itemsToJson : List Attr → List Json
  | [] => []
  | item :: rest => toJson item :: itemsToJson rest

def entriesToJson : List (String × Attr) → List (String × Json)
  | [] => []
  | (key, item) :: rest => (key, toJson item) :: entriesToJson rest

end

mutual

def ofJson? : Json → Option Attr
  | .null => some null
  | .bool b => some (bool b)
  | .integer i => some (number (Binary64.ofInt i))
  | .real x => some (number x)
  | .string s => some (text s)
  | .array items => (itemsOfJson? items).map list
  | .object entries => (entriesOfJson? [] entries).map map
  | .unreadable => none

def itemsOfJson? : List Json → Option (List Attr)
  | [] => some []
  | item :: rest => do
    let item ← ofJson? item
    let rest ← itemsOfJson? rest
    pure (item :: rest)

def entriesOfJson? (read : List (String × Attr)) : List (String × Json) → Option (List (String × Attr))
  | [] => some read
  | (key, item) :: rest => do
    let item ← ofJson? item
    entriesOfJson? (put key item read) rest

end

end Grove.Attr
