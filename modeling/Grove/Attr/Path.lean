import Grove.Attr.Basic
/-!
# Dotted paths into attribute trees

A path is split at its dots. In a map a segment is a key; in a list it is an index, when it reads as
one. Writing creates maps on the way, replaces scalars, and pads a list with nulls, but not far past
its end. It does so in place, and a list further down may still refuse it. Removing splits the path at its
last dot only: what stands before it leads to the map that gives up an entry.
-/

set_option autoImplicit false

namespace Grove

def splitDots : List Char → List (List Char)
  | [] => [[]]
  | c :: rest =>
    if c = '.' then [] :: splitDots rest
    else
      match splitDots rest with
      | [] => [[c]]
      | piece :: pieces => (c :: piece) :: pieces

def splitLastDot : List Char → Option (List Char × List Char)
  | [] => none
  | c :: rest =>
    match splitLastDot rest with
    | some (front, last) => some (c :: front, last)
    | none => if c = '.' then some ([], rest) else none

def pathSegments (path : String) : List String := (splitDots path.toList).map String.ofList

/-- The list index that a segment denotes: digits below 2 ^ 64, a plus sign allowed before them. -/
def segmentIndex? (segment : String) : Option Nat :=
  let digits := match segment.toList with
    | '+' :: rest => rest
    | cs => cs
  let index := Decimal.digitsValue digits
  if digits.isEmpty || !digits.all Char.isDigit || UInt64.size ≤ index then none else some index

def maxListPadding : Nat := 1024

structure ListOverrun where
  index : Nat
  length : Nat
  deriving DecidableEq

namespace Attr

def step? (value : Attr) (segment : String) : Option Attr :=
  match value with
  | map entries => entries.lookup segment
  | list items => (segmentIndex? segment).bind (items[·]?)
  | _ => none

def getSegments : List String → Attr → Option Attr
  | [], value => some value
  | segment :: rest, value => (value.step? segment).bind (getSegments rest)

def get? (value : Attr) (path : String) : Option Attr := getSegments (pathSegments path) value

/-- A list with nulls up to an index, if that is not too far past the end. -/
def padTo (items : List Attr) (index : Nat) : Except ListOverrun (List Attr) :=
  if index < items.length then .ok items
  else if index + 1 - items.length ≤ maxListPadding then
    .ok (items ++ List.replicate (index + 1 - items.length) null)
  else .error ⟨index, items.length⟩

/-- The entries that a key is written into: those of a map, or none in place of any other value. -/
def entriesOf : Attr → List (String × Attr)
  | map entries => entries
  | _ => []

/-- Writes along segments in place: the outcome, and the tree as the write leaves it. A list is padded, and
a missing key is given a null, before the write goes on below. -/
def writeSegments : List String → Attr → Attr → Except ListOverrun Unit × Attr
  | [], _, value => (.ok (), value)
  | segment :: rest, target, value =>
    match target, segmentIndex? segment with
    | list items, some index =>
      match padTo items index with
      | .error e => (.error e, list items)
      | .ok padded =>
        let (outcome, item) := writeSegments rest (padded[index]?.getD null) value
        (outcome, list (padded.set index item))
    | target, _ =>
      let entries := target.entriesOf
      let (outcome, item) := writeSegments rest ((entries.lookup segment).getD null) value
      (outcome, map (put segment item entries))

def write (target : Attr) (path : String) (value : Attr) : Except ListOverrun Unit × Attr :=
  writeSegments (pathSegments path) target value

def set (target : Attr) (path : String) (value : Attr) : Except ListOverrun Attr :=
  match target.write path value with
  | (.ok (), written) => .ok written
  | (.error e, _) => .error e

/-- A container with another value in the place that a segment leads to. -/
def replace (value : Attr) (segment : String) (inner : Attr) : Attr :=
  match value with
  | map entries => map (put segment inner entries)
  | list items =>
    match segmentIndex? segment with
    | some index => list (items.set index inner)
    | none => list items
  | value => value

/-- Changes in place what segments lead to: the outcome of the change, and the tree as it leaves it. Where they
lead nowhere there is nothing to change. -/
def changeAt (change : Attr → Option Attr × Attr) : List String → Attr → Option Attr × Attr
  | [], target => change target
  | segment :: rest, target =>
    match target.step? segment with
    | none => (none, target)
    | some inner =>
      let (outcome, inner') := changeAt change rest inner
      (outcome, target.replace segment inner')

def takeEntry (key : String) : Attr → Option Attr × Attr
  | map entries => (entries.lookup key, map (drop key entries))
  | target => (none, target)

/-- Takes out in place what is at a dotted path: the value, if it is an entry of a map, and the tree as the removal
leaves it. The last piece of the path is the key, and the pieces before it lead to the map. -/
def take (target : Attr) (path : String) : Option Attr × Attr :=
  match splitLastDot path.toList with
  | none => takeEntry path target
  | some (front, last) =>
    changeAt (takeEntry (String.ofList last)) (pathSegments (String.ofList front)) target

def remove? (target : Attr) (path : String) : Option (Attr × Attr) :=
  match target.take path with
  | (some old, rest) => some (old, rest)
  | (none, _) => none

end Attr

end Grove
