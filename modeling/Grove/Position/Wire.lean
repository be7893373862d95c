import Grove.Json.Fields
import Grove.Position.Path
/-!
# Positions and paths as JSON trees

A path is an array of signed words.
-/

set_option autoImplicit false

namespace Grove

def Json.signed? : Json → Option Int64
  | .integer i =>
    if Int64.minValue.toInt ≤ i ∧ i ≤ Int64.maxValue.toInt then some (Int64.ofInt i) else none
  | _ => none

def Json.long? : Json → Option Word
  | .integer i => if 0 ≤ i ∧ i < (Word.size : Int) then some (BitVec.ofNat 128 i.toNat) else none
  | _ => none

namespace Position

def toJson (p : Position) : Json :=
  .object
    [("numerator", .integer p.numerator.toNat), ("denominator", .integer p.denominator.toNat),
      ("encoding", .string p.encoding)]

def ofJson? (tree : Json) : Option Position := do
  let fields ← Json.fields? ["numerator", "denominator", "encoding"] tree
  let numerator ← fields.required "numerator" Json.long?
  let denominator ← fields.required "denominator" Json.long?
  let encoding ← fields.required "encoding" Json.string?
  pure ⟨numerator, denominator, encoding⟩

end Position

namespace SiblingPath

def toJson (path : SiblingPath) : Json := .array (path.toSigned.map fun i => .integer i.toInt)

def ofJson? (tree : Json) : Option SiblingPath := do
  let values ← Json.list? Json.signed? tree
  (ofSigned values).toOption

end SiblingPath

end Grove
