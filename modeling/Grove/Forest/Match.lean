import Grove.Forest.Store
/-!
# Matching selectors against a store

The phases run one after the other; the matches of each are where the next one starts. What a phase
finds is without repeats and in document order before its modifier cuts it.
-/

set_option autoImplicit false

namespace Grove

/-- Where a search starts: above all roots, or at some models. -/
inductive Scope where
  | forest
  | models (handles : List Handle)

namespace Store

/-- The handles that a combinator leads to, repeats included. -/
def candidates (s : Store) (scope : Scope) (combinator : Combinator) : List Handle :=
  match scope, combinator with
  | .forest, .child => s.roots
  | .forest, .descendant => s.walk
  | .models handles, .child => handles.flatMap s.children
  | .models handles, .descendant => handles.flatMap s.descendants

/-- Left boundaries in order, and for equal ones the shallower model first. -/
def documentOrder (a b : Handle × Model) : Ordering :=
  (a.2.span.left.order b.2.span.left).then (compare a.2.depth b.2.depth)

def matching (s : Store) (phase : Phase) (handles : List Handle) : List (Handle × Model) :=
  handles.filterMap fun h =>
    match s.get? h with
    | some m => if m.satisfies phase then some (h, m) else none
    | none => none

def matchStep (s : Store) (scope : Scope) (combinator : Combinator) (phase : Phase) : List Handle :=
  let found := (s.matching phase (s.candidates scope combinator).eraseDups).mergeSort
    fun a b => (documentOrder a b).isLE
  Modifier.applyTo phase.modifier (found.map Prod.fst)

def matchTail (s : Store) (found : List Handle) : List (Combinator × Phase) → List Handle
  | [] => found
  | (combinator, phase) :: rest =>
    if found.isEmpty then found
    else matchTail s (s.matchStep (.models found) combinator phase) rest

def matchLeg (s : Store) (scope : Scope) (leg : Leg) : List Handle :=
  s.matchTail (s.matchStep scope .descendant leg.head) leg.tail

def matchLegs (s : Store) (found : List Handle) : List Leg → List Handle
  | [] => found
  | leg :: rest =>
    if found.isEmpty then found else matchLegs s (s.matchLeg (.models found) leg) rest

def select (s : Store) (scope : Scope) (selector : Selector) : List Handle :=
  match selector.legs with
  | [] => []
  | leg :: rest => s.matchLegs (s.matchLeg scope leg) rest

end Store

end Grove
