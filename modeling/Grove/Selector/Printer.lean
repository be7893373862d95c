import Grove.Selector.Basic
/-!
# Selectors as text

A phase is written tag, unique identifier, human identifier, classes, tests, modifier; a phase with
nothing before its modifier shows a star.
-/

set_option autoImplicit false

namespace Grove

def Predicate.spell (p : Predicate) : List Char :=
  '[' :: p.field.toList ++ p.operator.spell ++ p.value.spell ++ [']']

def Modifier.spell : Modifier → List Char
  | .first => ":first".toList
  | .last => ":last".toList
  | .limit count => ":limit(".toList ++ Decimal.natDigits count.toNat ++ [')']

def spellMarked (mark : List Char) : Option String → List Char
  | some name => mark ++ name.toList
  | none => []

def Phase.spellConditions (p : Phase) : List Char :=
  spellMarked [] p.tag ++ spellMarked ['='] p.uid ++ spellMarked ['#'] p.id
    ++ p.classes.names.flatMap (fun name => '.' :: name.toList) ++ p.tests.flatMap Predicate.spell

def Phase.spell (p : Phase) : List Char :=
  (if p.isWildcard then ['*'] else p.spellConditions) ++ (p.modifier.map Modifier.spell).getD []

def spellStep : Combinator × Phase → List Char
  | (.descendant, phase) => ' ' :: phase.spell
  | (.child, phase) => [' ', '>', ' '] ++ phase.spell

def Leg.spell (leg : Leg) : List Char := leg.head.spell ++ leg.tail.flatMap spellStep

def Selector.spell (s : Selector) : List Char :=
  List.intercalate [' ', '/', ' '] (s.legs.map Leg.spell)

end Grove
