import Grove.Json.Basic
/-!
# Reading typed values from trees

A record is written as an object by field name or as an array in field order. Unknown names are
ignored, a known one may come once. An array may end early only before fields that have a default.
-/

set_option autoImplicit false

namespace Grove.Json

/-- The fields of a record as they were found. -/
structure Fields where
  get? : String → Option Json
  /-- given by place, so that even an optional field has to be there -/
  byPlace : Bool

/-- The fields of a record with these names in this order. -/
def fields? (names : List String) : Json → Option Fields
  | object entries =>
    if names.all fun name => (entries.filter fun e => e.1 == name).length ≤ 1 then
      some ⟨fun name => (entries.find? fun e => e.1 == name).map Prod.snd, false⟩
    else none
  | array items =>
    if items.length ≤ names.length then
      some ⟨fun name => (names.zip items).lookup name, true⟩
    else none
  | _ => none

namespace Fields

variable {α : Type}

def required (fields : Fields) (name : String) (read? : Json → Option α) : Option α :=
  (fields.get? name).bind read?

def withDefault (fields : Fields) (name : String) (default : α) (read? : Json → Option α) : Option α :=
  match fields.get? name with
  | some tree => read? tree
  | none => some default

end Fields

def option? {α : Type} (read? : Json → Option α) : Json → Option (Option α)
  | null => some none
  | tree => (read? tree).map some

/-- An optional field: absent from an object, or null, it is nothing. -/
def Fields.optional {α : Type} (fields : Fields) (name : String) (read? : Json → Option α) :
    Option (Option α) :=
  match fields.get? name with
  | some tree => option? read? tree
  | none => if fields.byPlace then none else some none

def bool? : Json → Option Bool
  | bool b => some b
  | _ => none

def string? : Json → Option String
  | string s => some s
  | _ => none

def word? : Json → Option UInt64
  | integer i => if 0 ≤ i ∧ i < UInt64.size then some (UInt64.ofNat i.toNat) else none
  | _ => none

def number? : Json → Option Binary64
  | integer i => some (Binary64.ofInt i)
  | real x => some x
  | _ => none

def list? {α : Type} (read? : Json → Option α) : Json → Option (List α)
  | array items => items.mapM read?
  | _ => none

/-- A value given by its name alone, or by an object of one entry from the name to its content. -/
def variant? : Json → Option (String × Option Json)
  | string name => some (name, none)
  | object [(name, content)] => some (name, some content)
  | _ => none

def isPlain : Option Json → Bool
  | none => true
  | some content => content.isNull

def ofOption (s : Option String) : Json :=
  match s with
  | some s => string s
  | none => null

def ofWord (n : UInt64) : Json := integer n.toNat

/-- A number; one that is not finite has no JSON form and is written as null. -/
def ofNumber (x : Binary64) : Json := if x.isFinite then real x else null

end Grove.Json
