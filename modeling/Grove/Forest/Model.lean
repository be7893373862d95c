import Grove.Attr.Path
import Grove.Position.Path
import Grove.Query.Basic
/-!
# Models

A node of a forest: what it is, its attributes, its links, and its place.
-/

set_option autoImplicit false

namespace Grove

/-- A slot of a store's arena, of which there are as many as words of 32 bits. A slot is filled once, so a
handle never comes to mean another model. -/
abbrev Handle := Nat

def Handle.ofSlot? (slot : Nat) : Option Handle := if slot < UInt32.size then some slot else none

structure Model where
  uid : String
  tag : String
  id : Option String
  classes : ClassSet
  attrs : Attr
  children : List Handle
  parent : Option Handle
  path : SiblingPath
  span : Span
  /-- the sibling index of the next child -/
  nextChild : UInt64

namespace Model

def depth (m : Model) : Nat := m.path.depth

def attr? (m : Model) (path : String) : Option Attr := m.attrs.get? path

def skeleton (m : Model) : Skeleton := .ofSpan m.uid m.tag m.span m.classes.names

/-- The name, if there is one as text, then the tag, the human identifier and the classes. -/
def summary (m : Model) : List Char :=
  (match (m.attr? "name").bind Attr.plain? with
    | some name => name ++ [':', ' ']
    | none => [])
  ++ m.tag.toList
  ++ (match m.id with
    | some id => '#' :: id.toList
    | none => [])
  ++ m.classes.names.flatMap fun name => '.' :: name.toList

def satisfiesTest (m : Model) (test : Predicate) : Bool :=
  (m.attr? test.field).any (·.satisfies test.operator test.value)

/-- Every condition of a phase holds. A star as the text of a tag stands for any tag. -/
def satisfies (m : Model) (p : Phase) : Bool :=
  p.tag.all (fun tag => tag == "*" || tag == m.tag)
    && p.id.all (fun id => m.id == some id)
    && p.uid.all (· == m.uid)
    && p.classes.names.all m.classes.contains
    && p.tests.all m.satisfiesTest

end Model

end Grove
