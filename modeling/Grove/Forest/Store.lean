import Std.Data.HashMap
import Grove.Engine.Config
import Grove.Forest.Draft
import Grove.Forest.Error
import Grove.Forest.IdSource
import Grove.Forest.Model
/-!
# The store

A forest of models in an arena, with an index from unique identifiers to handles. Models are appended
below others or at the top and removed with everything below them. Sibling counters only grow, so that
nothing that stays is ever renumbered. An update that is refused leaves the models as they were, but for a
counter that an append has already advanced.

The arena has a slot for each word of 32 bits, and slots are not used again, so an append is refused once
all of them have been filled. A new model gets the first identifier drawn that is not in the index. Sibling
counters are words of 64 bits: where one stands at the largest word, another child cannot be placed, and the
program stops in the middle of the append, with nothing taken back.
-/

set_option autoImplicit false

namespace Grove

structure Store where
  options : StoreOptions
  isOpen : Bool
  slots : Array (Option Model)
  roots : List Handle
  nextRoot : UInt64
  index : Std.HashMap String Handle
  ids : IdSource
  drawn : Nat

abbrev Updated (α : Type) := Except StoreError α × Store

abbrev Appended (α : Type) := Except (Failure StoreError) α × Store

namespace Store

def new (options : StoreOptions) (ids : IdSource) : Store :=
  ⟨options, true, #[], [], 0, ∅, ids, 0⟩

def get? (s : Store) (h : Handle) : Option Model := s.slots[h]?.join

def lookup? (s : Store) (uid : String) : Option Handle := s.index[uid]?

def size (s : Store) : Nat := s.index.size

def children (s : Store) (h : Handle) : List Handle :=
  match s.get? h with
  | some m => m.children
  | none => []

def parent? (s : Store) (h : Handle) : Option Handle := (s.get? h).bind Model.parent

def parentUid? (s : Store) (h : Handle) : Option String :=
  (s.parent? h).bind fun p => (s.get? p).map Model.uid

def skeleton? (s : Store) (h : Handle) : Option Skeleton := (s.get? h).map Model.skeleton

/-- Takes handles off a stack and puts their children in their place, for a number of steps. -/
def visit (s : Store) : Nat → List Handle → List Handle
  | 0, _ => []
  | _, [] => []
  | steps + 1, h :: stack => h :: visit s steps (s.children h ++ stack)

/-- The handles at and below some handles. No handle is met twice, so there are no more steps than
slots. -/
def subtrees (s : Store) (top : List Handle) : List Handle := s.visit s.slots.size top

def descendants (s : Store) (h : Handle) : List Handle := s.subtrees (s.children h)

def walk (s : Store) : List Handle := s.subtrees s.roots

def reaches (s : Store) (target : Handle) : Nat → Handle → Bool
  | 0, _ => false
  | steps + 1, h =>
    match s.parent? h with
    | none => false
    | some p => p == target || reaches s target steps p

/-- The first handle lies strictly above the second. A chain of parents is no longer than the arena. -/
def isAncestor (s : Store) (ancestor h : Handle) : Bool := s.reaches ancestor s.slots.size h

def close (s : Store) : Store := { s with isOpen := false }

def put (s : Store) (h : Handle) (m : Model) : Store :=
  { s with slots := s.slots.setIfInBounds h (some m) }

def modify (s : Store) (h : Handle) (f : Model → Model) : Store :=
  match s.get? h with
  | some m => s.put h (f m)
  | none => s

/-- Where a new model goes: its path and the span of its parent. -/
def nextPlace (s : Store) (parent : Option Handle) : Except StoreError (SiblingPath × Option Span) :=
  match parent with
  | none => .ok (.root s.nextRoot, none)
  | some p =>
    match s.get? p with
    | none => .error .unknownModel
    | some owner => .ok (owner.path.child owner.nextChild, some owner.span)

def placeSpan (s : Store) (path : SiblingPath) (parentSpan : Option Span) : Except StoreError Span :=
  match path.span s.options.format with
  | .error e => .error (.encode e)
  | .ok span =>
    match span.checkResolved parentSpan (path.depth - 1) with
    | .error e => .error (.encode e)
    | .ok () => .ok span

/-- Uses up the sibling index of the next child of a parent, or of the next root. -/
def advance (s : Store) (parent : Option Handle) : Except (Failure StoreError) Store :=
  match parent with
  | none =>
    match SiblingPath.nextIndex? s.nextRoot with
    | none => .error .overflow
    | some next => .ok { s with nextRoot := next }
  | some p =>
    match s.get? p with
    | none => .error (.refused .unknownModel)
    | some owner =>
      match SiblingPath.nextIndex? owner.nextChild with
      | none => .error .overflow
      | some next => .ok (s.put p { owner with nextChild := next })

def link (s : Store) (parent : Option Handle) (h : Handle) : Store :=
  match parent with
  | none => { s with roots := s.roots ++ [h] }
  | some p => s.modify p fun m => { m with children := m.children ++ [h] }

def unlink (s : Store) (parent : Option Handle) (h : Handle) : Store :=
  match parent with
  | none => { s with roots := s.roots.filter (· != h) }
  | some p => s.modify p fun m => { m with children := m.children.filter (· != h) }

/-- Which draw gives the next identifier: the first one that gives none in the index. -/
def nextDraw (s : Store) : Nat := s.ids.next (s.index.contains ·) s.index.size s.drawn

def insert (s : Store) (h : Handle) (parent : Option Handle) (path : SiblingPath) (span : Span)
    (tag : String) (id : Option String) (classes : List String) (attrs : Attr) : Store :=
  let uid := s.ids.draw s.nextDraw
  let model : Model :=
    { uid := uid, tag := tag, id := id, classes := .ofList classes
      attrs := if attrs.isNull then .emptyMap else attrs
      children := [], parent := parent, path := path, span := span
      nextChild := s.options.firstChildIndex }
  { s with slots := s.slots.push (some model), index := s.index.insert uid h, drawn := s.nextDraw + 1 }

def appendOne (s : Store) (parent : Option Handle) (tag : String) (id : Option String)
    (classes : List String) (attrs : Attr) : Except (Failure StoreError) (Handle × Store) :=
  if !s.isOpen then .error (.refused .closed)
  else
    match s.nextPlace parent with
    | .error e => .error (.refused e)
    | .ok (path, parentSpan) =>
      match s.placeSpan path parentSpan with
      | .error e => .error (.refused e)
      | .ok span =>
        match Handle.ofSlot? s.slots.size with
        | none => .error (.refused .capacityExceeded)
        | some h =>
          match s.advance parent with
          | .error f => .error f
          | .ok s => .ok (h, (s.insert h parent path span tag id classes attrs).link parent h)

def kill (s : Store) : List Handle → List String × Store
  | [] => ([], s)
  | h :: rest =>
    match s.get? h with
    | none => kill s rest
    | some m =>
      let (uids, s') :=
        kill { s with slots := s.slots.setIfInBounds h none, index := s.index.erase m.uid } rest
      (m.uid :: uids, s')

/-- Removes a model with everything below it. The identifiers come out a parent before its children. -/
def remove (s : Store) (h : Handle) : Updated (List String) :=
  if !s.isOpen then (.error .closed, s)
  else
    match s.get? h with
    | none => (.error .unknownModel, s)
    | some m =>
      let s := s.unlink m.parent h
      let (uids, s) := s.kill (h :: s.descendants h)
      (.ok uids, s)

mutual

/-- Appends a draft as the last child of a parent, or at the top. If one of the models below it is refused,
all of it is removed again. -/
def append (s : Store) (parent : Option Handle) : Draft → Appended Handle
  | ⟨tag, id, classes, attrs, children⟩ =>
    match s.appendOne parent tag id classes attrs with
    | .error f => (.error f, s)
    | .ok (h, s) =>
      match appendChildren s h children with
      | (.ok (), s) => (.ok h, s)
      | (.error .overflow, s) => (.error .overflow, s)
      | (.error (.refused e), s) =>
        match s.remove h with
        | (.ok _, s) => (.error (.refused e), s)
        | (.error e, s) => (.error (.refused e), s)

def appendChildren (s : Store) (h : Handle) : List Draft → Appended Unit
  | [] => (.ok (), s)
  | d :: rest =>
    match append s (some h) d with
    | (.ok _, s) => appendChildren s h rest
    | (.error f, s) => (.error f, s)

end

/-- Appends drafts in order; those before one that fails stay. -/
def appendAll (s : Store) (parent : Option Handle) : List Draft → Appended (List Handle)
  | [] => (.ok [], s)
  | d :: rest =>
    match s.append parent d with
    | (.error f, s) => (.error f, s)
    | (.ok h, s) =>
      match appendAll s parent rest with
      | (.error f, s) => (.error f, s)
      | (.ok hs, s) => (.ok (h :: hs), s)

def removeUid (s : Store) (uid : String) : Updated (List String) :=
  match s.lookup? uid with
  | none => (.error .unknownUid, s)
  | some h => s.remove h

/-- Changes one live model of an open store in place, whatever the outcome of the change. -/
def edit (s : Store) (h : Handle) (change : Model → Except StoreError Unit × Model) : Updated Unit :=
  if !s.isOpen then (.error .closed, s)
  else
    match s.get? h with
    | none => (.error .unknownModel, s)
    | some m => ((change m).1, s.put h (change m).2)

def setAttr (s : Store) (h : Handle) (path : String) (value : Attr) : Updated Unit :=
  s.edit h fun m =>
    let (outcome, attrs) := m.attrs.write path value
    (outcome.mapError (.listOverrun path), { m with attrs := attrs })

def addClass (s : Store) (h : Handle) (name : String) : Updated Unit :=
  s.edit h fun m => (.ok (), { m with classes := m.classes.insert name })

def removeClass (s : Store) (h : Handle) (name : String) : Updated Unit :=
  s.edit h fun m => (.ok (), { m with classes := m.classes.erase name })

def setId (s : Store) (h : Handle) (id : Option String) : Updated Unit :=
  s.edit h fun m => (.ok (), { m with id := id })

end Store

end Grove
