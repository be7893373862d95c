import Std.Data.HashMap
import Grove.Engine.Error
import Grove.Forest.Draft
import Grove.Forest.IdSource
import Grove.Table.Record
/-!
# The table

A flat list of records in the order in which they were added. A record knows its parent but not its
children; what lies below it is what its span encloses. Requests are compiled to queries, and a query is
answered by looking at every record. Sibling counters only grow while their parent is in the table.

A new record gets the first identifier drawn that no record has. As in the store, an append stops the program
where a sibling counter stands at the largest word of 64 bits. The number of records has no limit.
-/

set_option autoImplicit false

namespace Grove

structure Table where
  options : StoreOptions
  records : List Record
  nextRoot : UInt64
  /-- the sibling index of the next child, for parents that have had one -/
  nextChild : Std.HashMap String UInt64
  ids : IdSource
  drawn : Nat

structure Owner where
  uid : String
  path : SiblingPath

namespace Table

def new (options : StoreOptions) (ids : IdSource) : Table := ⟨options, [], 0, ∅, ids, 0⟩

def size (t : Table) : Nat := t.records.length

def isEmpty (t : Table) : Bool := t.records.isEmpty

def get? (t : Table) (uid : String) : Option Record := t.records.find? (·.uid == uid)

/-- The digits of the left boundaries decide first, then their values, and then the depth. -/
def documentOrder (a b : Record) : Ordering :=
  (compare a.left.encoding b.left.encoding).then
    ((a.left.order b.left).then (compare a.path.depth b.path.depth))

/-- A step to children without context leads to the top level. -/
def inReach (request : Request) (r : Record) : Bool :=
  !(request.context.isEmpty && request.combinator == .child) || r.parent.isNone

def query (t : Table) (request : Request) : List Record :=
  let q := Query.ofStep request.phase request.combinator request.context
  let found := t.records.filter fun r => inReach request r && r.satisfiesQuery q
  Modifier.applyTo q.modifier (found.mergeSort fun a b => (documentOrder a b).isLE)

def nextIndex (t : Table) (uid : String) : UInt64 := t.nextChild.getD uid t.options.firstChildIndex

def nextPath (t : Table) : Option Owner → SiblingPath
  | none => .root t.nextRoot
  | some owner => owner.path.child (t.nextIndex owner.uid)

def ownerSpan (t : Table) : Option Owner → Except EncodeError (Option Span)
  | none => .ok none
  | some owner => (owner.path.span t.options.format).map some

def placeSpan (t : Table) (owner : Option Owner) : Except EncodeError Span :=
  match (t.nextPath owner).span t.options.format with
  | .error e => .error e
  | .ok span =>
    match t.ownerSpan owner with
    | .error e => .error e
    | .ok parentSpan =>
      match span.checkResolved parentSpan ((t.nextPath owner).depth - 1) with
      | .error e => .error e
      | .ok () => .ok span

/-- Uses up the sibling index of the next record below an owner, or of the next one at the top. -/
def advance (t : Table) (owner : Option Owner) : Except (Failure EngineError) Table :=
  match owner with
  | none =>
    match SiblingPath.nextIndex? t.nextRoot with
    | none => .error .overflow
    | some next => .ok { t with nextRoot := next }
  | some owner =>
    match SiblingPath.nextIndex? (t.nextIndex owner.uid) with
    | none => .error .overflow
    | some next => .ok { t with nextChild := t.nextChild.insert owner.uid next }

/-- Which draw gives the next identifier: the first one that gives none of a record. -/
def nextDraw (t : Table) : Nat := t.ids.next (fun uid => (t.get? uid).isSome) t.records.length t.drawn

def insert (t : Table) (owner : Option Owner) (path : SiblingPath) (span : Span) (tag : String)
    (id : Option String) (classes : List String) (attrs : Attr) : Record × Table :=
  let record : Record :=
    { uid := t.ids.draw t.nextDraw, parent := owner.map Owner.uid, tag := tag, id := id
      classes := classes, path := path, left := span.left, right := span.right
      attrs := if attrs.isNull then .emptyMap else attrs }
  (record, { t with records := t.records ++ [record], drawn := t.nextDraw + 1 })

def appendOne (t : Table) (owner : Option Owner) (tag : String) (id : Option String)
    (classes : List String) (attrs : Attr) : Except (Failure EngineError) (Record × Table) :=
  match t.placeSpan owner with
  | .error e => .error (.refused (.encode e))
  | .ok span =>
    match t.advance owner with
    | .error f => .error f
    | .ok t' => .ok (t'.insert owner (t.nextPath owner) span tag id classes attrs)

/-- Drops all records that a test picks, and their counters. -/
def drop (t : Table) (picked : Record → Bool) : List String × Table :=
  let uids := (t.records.filter picked).map Record.uid
  (uids,
    { t with
      records := t.records.filter (!picked ·)
      nextChild := uids.foldl (fun counters uid => counters.erase uid) t.nextChild })

/-- Removes a record with all that its span encloses. The identifiers come out in the order of the
table. -/
def remove (t : Table) (uid : String) : Except EngineError (List String) × Table :=
  match t.get? uid with
  | none => (.error (.unknownTarget uid), t)
  | some target =>
    let (uids, t) := t.drop fun r => r.uid == uid || target.span.contains r.span
    (.ok uids, t)

mutual

/-- Adds the records of a draft below an owner, or at the top. If one of those below it is refused, the
record of the draft is removed again. -/
def append (t : Table) (owner : Option Owner) : Draft → Except (Failure EngineError) Skeleton × Table
  | ⟨tag, id, classes, attrs, children⟩ =>
    match t.appendOne owner tag id classes attrs with
    | .error f => (.error f, t)
    | .ok (record, t) =>
      match appendChildren t ⟨record.uid, record.path⟩ children with
      | (.ok (), t) => (.ok record.skeleton, t)
      | (.error .overflow, t) => (.error .overflow, t)
      | (.error (.refused e), t) =>
        match t.remove record.uid with
        | (.ok _, t) => (.error (.refused e), t)
        | (.error e, t) => (.error (.refused e), t)

def appendChildren (t : Table) (owner : Owner) : List Draft → Except (Failure EngineError) Unit × Table
  | [] => (.ok (), t)
  | d :: rest =>
    match append t (some owner) d with
    | (.ok _, t) => appendChildren t owner rest
    | (.error f, t) => (.error f, t)

end

def appendAll (t : Table) (owner : Option Owner) :
    List Draft → Except (Failure EngineError) (List Skeleton) × Table
  | [] => (.ok [], t)
  | d :: rest =>
    match t.append owner d with
    | (.error f, t) => (.error f, t)
    | (.ok skeleton, t) =>
      match appendAll t owner rest with
      | (.error f, t) => (.error f, t)
      | (.ok skeletons, t) => (.ok (skeleton :: skeletons), t)

end Table

end Grove
