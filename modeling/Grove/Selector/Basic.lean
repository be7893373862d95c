import Grove.ClassSet
import Grove.Selector.Literal
/-!
# Selectors

A selector is a pipeline of legs; a leg is a chain of phases joined by combinators; a phase is a
compound condition on one model, with at most one modifier that cuts the list of its matches.
-/

set_option autoImplicit false

namespace Grove

inductive Operator where
  /-- equality by type and content -/
  | equals
  /-- the text begins with another -/
  | begins
  | less
  | greater
  deriving DecidableEq

namespace Operator

def spell : Operator → List Char
  | equals => ['=']
  | begins => ['^', '=']
  | less => ['<']
  | greater => ['>']

def ofToken? : List Char → Option Operator
  | ['='] => some equals
  | ['^', '='] => some begins
  | ['<'] => some less
  | ['>'] => some greater
  | _ => none

theorem ofToken?_eq_some_iff {token : List Char} {o : Operator} :
    ofToken? token = some o ↔ token = o.spell := by
  constructor
  · intro h; unfold ofToken? at h; split at h <;> simp_all [spell] <;> subst h <;> rfl
  · rintro rfl; cases o <;> rfl

end Operator

/-- One attribute test: a dotted path into the attribute tree, an operator and a literal. -/
structure Predicate where
  field : String
  operator : Operator
  value : Literal
  deriving DecidableEq

/-- A cut of the ordered list of a phase's matches. -/
inductive Modifier where
  | first
  | last
  | limit (count : UInt64)
  deriving DecidableEq

namespace Modifier

def apply {α : Type} (modifier : Modifier) (found : List α) : List α :=
  match modifier with
  | first => found.take 1
  | last => found.getLast?.toList
  | limit count => found.take count.toNat

theorem apply_sublist {α : Type} (modifier : Modifier) (found : List α) :
    (modifier.apply found).Sublist found := by
  cases modifier with
  | first => exact List.take_sublist ..
  | limit count => exact List.take_sublist ..
  | last =>
    simp only [apply]
    cases h : found.getLast? with
    | none => exact List.nil_sublist _
    | some a => simpa using List.mem_of_getLast? h

def applyTo {α : Type} (modifier : Option Modifier) (found : List α) : List α :=
  match modifier with
  | some m => m.apply found
  | none => found

theorem applyTo_sublist {α : Type} (modifier : Option Modifier) (found : List α) :
    (applyTo modifier found).Sublist found := by
  cases modifier with
  | none => exact List.Sublist.refl _
  | some m => exact m.apply_sublist found

end Modifier

/-- How a phase is reached from the matches of the phase before it. -/
inductive Combinator where
  | descendant
  | child
  deriving DecidableEq

/-- A condition on one model; every part of it must hold. -/
structure Phase where
  tag : Option String
  id : Option String
  uid : Option String
  classes : ClassSet
  tests : List Predicate
  modifier : Option Modifier
  deriving DecidableEq

namespace Phase

def any : Phase := ⟨none, none, none, .empty, [], none⟩

instance : Inhabited Phase := ⟨any⟩

/-- True of a phase that every model satisfies, whatever its modifier. -/
def isWildcard (p : Phase) : Bool :=
  p.tag.isNone && p.id.isNone && p.uid.isNone && p.classes.isEmpty && p.tests.isEmpty

end Phase

structure Leg where
  head : Phase
  tail : List (Combinator × Phase)
  deriving DecidableEq

namespace Leg

/-- Each phase with the combinator that leads to it; the head is searched at any depth. -/
def steps (leg : Leg) : List (Combinator × Phase) := (.descendant, leg.head) :: leg.tail

def phases (leg : Leg) : List Phase := leg.head :: leg.tail.map Prod.snd

def combinators (leg : Leg) : List Combinator := leg.tail.map Prod.fst

def length (leg : Leg) : Nat := 1 + leg.tail.length

end Leg

structure Selector where
  legs : List Leg
  deriving DecidableEq

def Selector.ofPhase (phase : Phase) : Selector := ⟨[⟨phase, []⟩]⟩

/-- Equality of what two texts denote: numbers are compared as numbers and class names as sets. -/
def Predicate.agrees (a b : Predicate) : Bool :=
  a.field == b.field && a.operator == b.operator && a.value.agrees b.value

def Phase.agrees (a b : Phase) : Bool :=
  a.tag == b.tag && a.id == b.id && a.uid == b.uid && a.classes.agrees b.classes
    && a.tests.length == b.tests.length && (a.tests.zip b.tests).all (fun p => p.1.agrees p.2)
    && a.modifier == b.modifier

def Leg.agrees (a b : Leg) : Bool :=
  a.head.agrees b.head && a.tail.length == b.tail.length
    && (a.tail.zip b.tail).all (fun p => p.1.1 == p.2.1 && p.1.2.agrees p.2.2)

def Selector.agrees (a b : Selector) : Bool :=
  a.legs.length == b.legs.length && (a.legs.zip b.legs).all (fun p => p.1.agrees p.2)

end Grove
