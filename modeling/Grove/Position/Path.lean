import Grove.Position.Span
/-!
# Sibling paths

The indices from a root of the forest down to a node, of which there is at least one.
-/

set_option autoImplicit false

namespace Grove

structure SiblingPath where
  indices : List UInt64
  nonempty : indices ≠ []
  deriving DecidableEq

namespace SiblingPath

def ofIndices (indices : List UInt64) : Except EncodeError SiblingPath :=
  if h : indices = [] then .error .emptyPath else .ok ⟨indices, h⟩

def root (index : UInt64) : SiblingPath := ⟨[index], by simp⟩

def child (path : SiblingPath) (index : UInt64) : SiblingPath := ⟨path.indices ++ [index], by simp⟩

/-- The index after another. There is none after the largest word. -/
def nextIndex? (index : UInt64) : Option UInt64 :=
  if index.toNat + 1 < UInt64.size then some (index + 1) else none

def depth (path : SiblingPath) : Nat := path.indices.length

def span (path : SiblingPath) (format : Format) : Except EncodeError Span :=
  Span.ofIndices path.indices format

def checkSigned (depth : Nat) : List Int64 → Except EncodeError (List UInt64)
  | [] => .ok []
  | value :: rest =>
    if value < 0 then .error (.negativeIndex depth value.toInt)
    else
      match checkSigned (depth + 1) rest with
      | .error e => .error e
      | .ok indices => .ok (value.toUInt64 :: indices)

def ofSigned (values : List Int64) : Except EncodeError SiblingPath :=
  match checkSigned 0 values with
  | .error e => .error e
  | .ok indices => ofIndices indices

/-- The signed words with the bits of the indices. -/
def toSigned (path : SiblingPath) : List Int64 := path.indices.map UInt64.toInt64

/-- The signed word nearest to a negative integer. -/
def nearestSigned (i : Int) : Int := if i < Int64.minValue.toInt then Int64.minValue.toInt else i

/-- The index that a number denotes. A negative one is reported as the nearest signed word. -/
def checkNumber (depth : Nat) (value : Binary64) : Except EncodeError UInt64 :=
  match value.toInt? with
  | none => .error (.fractionalIndex depth value)
  | some i =>
    if i < 0 then .error (.negativeIndex depth (nearestSigned i))
    else if UInt64.size ≤ i then .error (.overflow depth)
    else .ok (UInt64.ofNat i.toNat)

def checkNumbers (depth : Nat) : List Binary64 → Except EncodeError (List UInt64)
  | [] => .ok []
  | value :: rest =>
    match checkNumber depth value with
    | .error e => .error e
    | .ok index =>
      match checkNumbers (depth + 1) rest with
      | .error e => .error e
      | .ok indices => .ok (index :: indices)

def ofNumbers (values : List Binary64) : Except EncodeError SiblingPath :=
  match checkNumbers 0 values with
  | .error e => .error e
  | .ok indices => ofIndices indices

end SiblingPath

end Grove
