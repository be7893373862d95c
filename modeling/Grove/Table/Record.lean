import Grove.Attr.Path
import Grove.Attr.Wire
import Grove.Position.Wire
import Grove.Query.Basic
/-!
# Records

A row of a flat table of models: identity, place and attributes, without links to children.
-/

set_option autoImplicit false

namespace Grove

structure Record where
  uid : String
  parent : Option String
  tag : String
  id : Option String
  classes : List String
  path : SiblingPath
  left : Position
  right : Position
  attrs : Attr

namespace Record

def span (r : Record) : Span := ⟨r.left, r.right⟩

def skeleton (r : Record) : Skeleton := .ofSpan r.uid r.tag r.span r.classes

def textSatisfies (text : String) (operator : Operator) (value : Literal) : Bool :=
  (Attr.text text).satisfies operator value

/-- The order of a boundary and a literal: its digits against a text, its value against a number. -/
def orderWith (p : Position) : Literal → Option Ordering
  | .text encoding => some (compare p.encoding encoding)
  | .number n => (Binary64.quotient p.numerator.toNat p.denominator.toNat).compare? n

/-- A boundary against a literal; nothing holds of a number without an order to it. -/
def positionSatisfies (p : Position) (operator : Operator) (value : Literal) : Bool :=
  match orderWith p value with
  | none => false
  | some order =>
    match operator with
    | .equals => order == .eq
    | .less => order == .lt
    | .greater => order == .gt
    | .begins => value.plain.isPrefixOf p.encoding.toList

/-- A column against a literal. A class predicate holds if it does of one class. -/
def columnSatisfies (r : Record) (column : Column) (operator : Operator) (value : Literal) : Bool :=
  match column with
  | .tag => textSatisfies r.tag operator value
  | .id => r.id.any (textSatisfies · operator value)
  | .uid => textSatisfies r.uid operator value
  | .parent => r.parent.any (textSatisfies · operator value)
  | .classes => r.classes.any (textSatisfies · operator value)
  | .left => positionSatisfies r.left operator value
  | .right => positionSatisfies r.right operator value

def satisfies (r : Record) (p : Predicate) : Bool :=
  match Column.ofField? p.field with
  | some column => r.columnSatisfies column p.operator p.value
  | none => (r.attrs.get? p.field).any (·.satisfies p.operator p.value)

/-- All of the search conditions and, if there are groups, one of them. -/
def satisfiesQuery (r : Record) (q : Query) : Bool :=
  q.search.all r.satisfies && (!q.isScoped || q.groups.any (·.all r.satisfies))

def toJson (r : Record) : Json :=
  .object [("diggerid", .string r.uid), ("parentid", Json.ofOption r.parent), ("tag", .string r.tag),
    ("id", Json.ofOption r.id), ("class", .array (r.classes.map .string)), ("path", r.path.toJson),
    ("left", r.left.toJson), ("right", r.right.toJson), ("attrs", r.attrs.toJson)]

def ofJson? (tree : Json) : Option Record := do
  let fields ← Json.fields?
    ["diggerid", "parentid", "tag", "id", "class", "path", "left", "right", "attrs"] tree
  let uid ← fields.required "diggerid" Json.string?
  let parent ← fields.optional "parentid" Json.string?
  let tag ← fields.required "tag" Json.string?
  let id ← fields.optional "id" Json.string?
  let classes ← fields.required "class" (Json.list? Json.string?)
  let path ← fields.required "path" SiblingPath.ofJson?
  let left ← fields.required "left" Position.ofJson?
  let right ← fields.required "right" Position.ofJson?
  let attrs ← fields.required "attrs" Attr.ofJson?
  pure ⟨uid, parent, tag, id, classes, path, left, right, attrs⟩

end Record

end Grove
