import Grove.Query.Basic
import Grove.Selector.Wire
/-!
# Skeletons, queries and requests as JSON trees

A number that stands where a unique identifier belongs is read as its text, an integer beyond 64 bits being
rounded first.
-/

set_option autoImplicit false

namespace Grove

/-- A unique identifier, given as a text or a number. -/
def uidOfJson? : Json → Option String
  | .string s => some s
  | .integer i =>
    some (String.ofList (if Json.isWord i then Decimal.intDigits i else Decimal.plainText (Binary64.ofInt i)))
  | .real x => some (String.ofList (Decimal.plainText x))
  | _ => none

namespace Skeleton

def toJson (s : Skeleton) : Json :=
  .object [("diggerid", .string s.uid), ("tag", .string s.tag), ("left", s.left.toJson),
    ("right", s.right.toJson), ("class", .array (s.classes.map .string))]

def ofJson? (tree : Json) : Option Skeleton := do
  let fields ← Json.fields? ["diggerid", "tag", "left", "right", "class"] tree
  let uid ← fields.required "diggerid" uidOfJson?
  let tag ← fields.withDefault "tag" "" Json.string?
  let left ← fields.required "left" Literal.ofJson?
  let right ← fields.required "right" Literal.ofJson?
  let classes ← fields.withDefault "class" [] (Json.list? Json.string?)
  pure ⟨uid, tag, left, right, classes⟩

end Skeleton

namespace Query

def toJson (q : Query) : Json :=
  .object ([("search", .array (q.search.map Predicate.toJson)),
      ("skeleton", .array (q.groups.map fun group => .array (group.map Predicate.toJson)))]
    ++ (q.modifier.map fun m => ("modifier", m.toJson)).toList)

def ofJson? (tree : Json) : Option Query := do
  let fields ← Json.fields? ["search", "skeleton", "modifier"] tree
  let search ← fields.required "search" (Json.list? Predicate.ofJson?)
  let groups ← fields.required "skeleton" (Json.list? (Json.list? Predicate.ofJson?))
  let modifier ← fields.withDefault "modifier" none (Json.option? Modifier.ofJson?)
  pure ⟨search, groups, modifier⟩

end Query

namespace Request

def toJson (r : Request) : Json :=
  .object [("phase", r.phase.toJson), ("combinator", r.combinator.toJson),
    ("context", .array (r.context.map Skeleton.toJson))]

def ofJson? (tree : Json) : Option Request := do
  let fields ← Json.fields? ["phase", "combinator", "context"] tree
  let phase ← fields.required "phase" Phase.ofJson?
  let combinator ← fields.withDefault "combinator" .descendant Combinator.ofJson?
  let context ← fields.withDefault "context" [] (Json.list? Skeleton.ofJson?)
  pure ⟨phase, combinator, context⟩

end Request

end Grove
