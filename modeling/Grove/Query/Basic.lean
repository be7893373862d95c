import Grove.Position.Span
import Grove.Selector.Basic
/-!
# Compiled queries

A query names columns, operators and values only, so that any backend with comparisons can answer it. A
context model is given by its skeleton; what lies below it is what its boundaries enclose.
-/

set_option autoImplicit false

namespace Grove

/-- The columns that every stored model has beside its attributes. -/
inductive Column where
  | tag
  | classes
  | id
  | uid
  | left
  | right
  | parent
  deriving DecidableEq

namespace Column

def all : List Column := [tag, classes, id, uid, left, right, parent]

def field : Column → String
  | tag => "_digger.tag"
  | classes => "_digger.class"
  | id => "_digger.id"
  | uid => "_digger.diggerid"
  | left => "_digger.left"
  | right => "_digger.right"
  | parent => "_digger.parentid"

/-- The column that a field stands for; any other field is a path into the attributes. -/
def ofField? (field : String) : Option Column := all.find? fun c => c.field == field

theorem ofField?_field (c : Column) : ofField? c.field = some c := by cases c <;> rfl

def equals (c : Column) (value : String) : Predicate := ⟨c.field, .equals, .text value⟩

end Column

/-- What is known of a model that a search starts from. -/
structure Skeleton where
  uid : String
  tag : String
  left : Literal
  right : Literal
  classes : List String
  deriving DecidableEq

namespace Skeleton

def ofSpan (uid tag : String) (span : Span) (classes : List String) : Skeleton :=
  ⟨uid, tag, .text span.left.encoding, .text span.right.encoding, classes⟩

def agrees (a b : Skeleton) : Bool :=
  a.uid == b.uid && a.tag == b.tag && a.left.agrees b.left && a.right.agrees b.right
    && a.classes == b.classes

end Skeleton

/-- Conditions that all must hold, and groups of which one must hold as a whole, unless there is none. -/
structure Query where
  search : List Predicate
  groups : List (List Predicate)
  modifier : Option Modifier
  deriving DecidableEq

namespace Query

def isScoped (q : Query) : Bool := !q.groups.isEmpty

def agreeAll (as bs : List Predicate) : Bool :=
  as.length == bs.length && (as.zip bs).all fun p => p.1.agrees p.2

def agrees (a b : Query) : Bool :=
  agreeAll a.search b.search && a.groups.length == b.groups.length
    && (a.groups.zip b.groups).all (fun p => agreeAll p.1 p.2) && a.modifier == b.modifier

/-- The conditions of a phase, shortcuts first. -/
def searchOf (phase : Phase) : List Predicate :=
  (phase.tag.map Column.tag.equals).toList ++ (phase.id.map Column.id.equals).toList
    ++ (phase.uid.map Column.uid.equals).toList ++ phase.classes.names.map (Column.equals .classes)
    ++ phase.tests

/-- What it takes to lie below a context model, or to be its child. -/
def groupOf (combinator : Combinator) (context : Skeleton) : List Predicate :=
  [⟨Column.left.field, .greater, context.left⟩, ⟨Column.right.field, .less, context.right⟩]
    ++ (match combinator with
      | .child => [Column.parent.equals context.uid]
      | .descendant => [])

def ofStep (phase : Phase) (combinator : Combinator) (contexts : List Skeleton) : Query :=
  ⟨searchOf phase, contexts.map (groupOf combinator), phase.modifier⟩

def ofPhase (phase : Phase) (contexts : List Skeleton) : Query := ofStep phase .descendant contexts

end Query

/-- One phase for a backend to answer; without context the whole forest is searched. -/
structure Request where
  phase : Phase
  combinator : Combinator
  context : List Skeleton
  deriving DecidableEq

def Request.unscoped (phase : Phase) : Request := ⟨phase, .descendant, []⟩

end Grove
