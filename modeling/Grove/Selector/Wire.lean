import Grove.Json.Fields
import Grove.Selector.Basic
/-!
# Selectors as JSON trees

A phase lists all its fields and reads each absent one as its default; a test, a leg and a selector
need every field. A literal is a bare number or string.
-/

set_option autoImplicit false

namespace Grove

namespace Literal

def toJson : Literal → Json
  | number n => Json.ofNumber n
  | text s => .string s

def ofJson? (tree : Json) : Option Literal :=
  match Json.number? tree with
  | some n => some (number n)
  | none => (Json.string? tree).map text

end Literal

namespace Operator

def toJson (o : Operator) : Json := .string (String.ofList o.spell)

def ofJson? (tree : Json) : Option Operator := do
  let (name, content) ← Json.variant? tree
  if Json.isPlain content then ofToken? name.toList else none

end Operator

namespace Predicate

def toJson (p : Predicate) : Json :=
  .object [("field", .string p.field), ("operator", p.operator.toJson), ("value", p.value.toJson)]

def ofJson? (tree : Json) : Option Predicate := do
  let fields ← Json.fields? ["field", "operator", "value"] tree
  let field ← fields.required "field" Json.string?
  let operator ← fields.required "operator" Operator.ofJson?
  let value ← fields.required "value" Literal.ofJson?
  pure ⟨field, operator, value⟩

end Predicate

namespace Modifier

def toJson : Modifier → Json
  | first => .string "first"
  | last => .string "last"
  | limit count => .object [("limit", Json.ofWord count)]

def ofJson? (tree : Json) : Option Modifier :=
  match Json.variant? tree with
  | some ("first", content) => if Json.isPlain content then some first else none
  | some ("last", content) => if Json.isPlain content then some last else none
  | some ("limit", some content) => (Json.word? content).map limit
  | _ => none

end Modifier

namespace Combinator

def name : Combinator → String
  | descendant => "descendant"
  | child => "child"

def toJson (c : Combinator) : Json := .string c.name

def ofJson? (tree : Json) : Option Combinator :=
  match Json.variant? tree with
  | some ("descendant", content) => if Json.isPlain content then some descendant else none
  | some ("child", content) => if Json.isPlain content then some child else none
  | _ => none

end Combinator

namespace ClassSet

def toJson (s : ClassSet) : Json := .array (s.names.map Json.string)

def ofJson? (tree : Json) : Option ClassSet := (Json.list? Json.string? tree).map ofList

end ClassSet

namespace Phase

def toJson (p : Phase) : Json :=
  .object
    [("tag", Json.ofOption p.tag), ("id", Json.ofOption p.id), ("diggerid", Json.ofOption p.uid),
      ("class", p.classes.toJson), ("attr", .array (p.tests.map Predicate.toJson)),
      ("modifier", (p.modifier.map Modifier.toJson).getD .null)]

def ofJson? (tree : Json) : Option Phase := do
  let fields ← Json.fields? ["tag", "id", "diggerid", "class", "attr", "modifier"] tree
  let tag ← fields.withDefault "tag" none (Json.option? Json.string?)
  let id ← fields.withDefault "id" none (Json.option? Json.string?)
  let uid ← fields.withDefault "diggerid" none (Json.option? Json.string?)
  let classes ← fields.withDefault "class" .empty ClassSet.ofJson?
  let tests ← fields.withDefault "attr" [] (Json.list? Predicate.ofJson?)
  let modifier ← fields.withDefault "modifier" none (Json.option? Modifier.ofJson?)
  pure ⟨tag, id, uid, classes, tests, modifier⟩

end Phase

def stepToJson (step : Combinator × Phase) : Json := .array [step.1.toJson, step.2.toJson]

def stepOfJson? : Json → Option (Combinator × Phase)
  | .array [combinator, phase] => do
    let combinator ← Combinator.ofJson? combinator
    let phase ← Phase.ofJson? phase
    pure (combinator, phase)
  | _ => none

namespace Leg

def toJson (leg : Leg) : Json :=
  .object [("head", leg.head.toJson), ("tail", .array (leg.tail.map stepToJson))]

def ofJson? (tree : Json) : Option Leg := do
  let fields ← Json.fields? ["head", "tail"] tree
  let head ← fields.required "head" Phase.ofJson?
  let tail ← fields.required "tail" (Json.list? stepOfJson?)
  pure ⟨head, tail⟩

end Leg

namespace Selector

def toJson (s : Selector) : Json := .object [("legs", .array (s.legs.map Leg.toJson))]

def ofJson? (tree : Json) : Option Selector := do
  let fields ← Json.fields? ["legs"] tree
  let legs ← fields.required "legs" (Json.list? Leg.ofJson?)
  pure ⟨legs⟩

end Selector

end Grove
