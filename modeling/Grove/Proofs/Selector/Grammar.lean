import Grove.Proofs.Text.Runs
import Grove.Selector.Reader
/-!
# The grammar of selectors

Which texts are selectors, and what they denote, said without a reader: each relation holds of a whole
text and of what it stands for. Nothing here asks for a longest match; where a text could be divided in
two ways, only one of them goes on to a whole selector.
-/

set_option autoImplicit false

namespace Grove

namespace Selector.Part

def tag? : Part → Option String
  | tag name => some name
  | _ => none

def id? : Part → Option String
  | id name => some name
  | _ => none

def uid? : Part → Option String
  | uid name => some name
  | _ => none

def cls? : Part → Option String
  | cls name => some name
  | _ => none

def test? : Part → Option Predicate
  | test p => some p
  | _ => none

end Selector.Part

namespace Grammar

open Selector Text

def Name (t : List Char) : Prop := t ≠ [] ∧ ∀ c ∈ t, isNameChar c = true

/-- A name that begins with a letter or a digit. -/
def WordText (t : List Char) : Prop := Name t ∧ ∀ c ∈ t.head?, isAlphanumeric c = true

def Digits (t : List Char) : Prop := ∀ c ∈ t, c.isDigit = true

instance (t : List Char) : Decidable (Name t) :=
  decidable_of_iff (t ≠ [] ∧ t.all isNameChar = true) (and_congr_right' List.all_eq_true)

instance (t : List Char) : Decidable (WordText t) :=
  decidable_of_iff (Name t ∧ t.head?.all isAlphanumeric = true)
    (and_congr_right' (Option.all_eq_true isAlphanumeric t.head?))

instance (t : List Char) : Decidable (Digits t) :=
  decidable_of_iff (t.all Char.isDigit = true) List.all_eq_true

def IsQuote (c : Char) : Prop := c = '\"' ∨ c = '\''

instance (c : Char) : Decidable (IsQuote c) := by unfold IsQuote; infer_instance

/-- What may stand between two quotes: a backslash protects the character after it. -/
inductive Quoted (quote : Char) : List Char → Prop
  | nil : Quoted quote []
  | escape (c : Char) {t : List Char} : Quoted quote t → Quoted quote ('\\' :: c :: t)
  | char {c : Char} {t : List Char} : c ≠ '\\' → c ≠ quote → Quoted quote t → Quoted quote (c :: t)

/-- What may stand between brackets: quoted pieces, and no closing bracket outside of them. -/
inductive Body : List Char → Prop
  | nil : Body []
  | char {c : Char} {t : List Char} : c ≠ ']' → ¬ IsQuote c → Body t → Body (c :: t)
  | quote {q : Char} {inner t : List Char} :
      IsQuote q → Quoted q inner → Body t → Body (q :: (inner ++ q :: t))

/-- A text and what is left when each backslash gives way to the character after it. -/
inductive Unescaped : List Char → List Char → Prop
  | nil : Unescaped [] []
  | lone : Unescaped ['\\'] []
  | escape (c : Char) {t u : List Char} : Unescaped t u → Unescaped ('\\' :: c :: t) (c :: u)
  | char {c : Char} {t u : List Char} : c ≠ '\\' → Unescaped t u → Unescaped (c :: t) (c :: u)

def Enclosed (t inner : List Char) : Prop := ∃ q, IsQuote q ∧ t = q :: inner ++ [q]

inductive Value : List Char → Literal → Prop
  | quoted {t inner text : List Char} :
      Enclosed t inner → Unescaped inner text → Value t (.text (String.ofList text))
  | number {t : List Char} {n : Binary64} : Literal.numeric? t = some n → Value t (.number n)
  | bare {t : List Char} :
      (∀ inner, ¬ Enclosed t inner) → Literal.numeric? t = none → Value t (.text (String.ofList t))

/-- The first run of operator characters is the operator, with something before it. -/
inductive Test : List Char → Predicate → Prop
  | mk {before after field value : List Char} {operator : Operator} {literal : Literal} :
      (∀ c ∈ before, isOperatorChar c = false) → Trimmed before field → field ≠ [] →
      Stops isOperatorChar after → Trimmed after value → Value value literal →
      Test (before ++ operator.spell ++ after) ⟨String.ofList field, operator, literal⟩

/-- The start of a phase, which may be missing; a word of digits is a unique identifier. -/
inductive HeadText : List Char → List Part → Prop
  | none : HeadText [] []
  | star : HeadText ['*'] []
  | id {name : List Char} : Name name → HeadText ('_' :: name) [.id (String.ofList name)]
  | uid {word : List Char} : WordText word → Digits word → HeadText word [.uid (String.ofList word)]
  | tag {word : List Char} : WordText word → ¬ Digits word → HeadText word [.tag (String.ofList word)]

inductive PartText : List Char → Part → Prop
  | id {name : List Char} : Name name → PartText ('#' :: name) (.id (String.ofList name))
  | uid {name : List Char} : Name name → PartText ('=' :: name) (.uid (String.ofList name))
  | cls {name : List Char} : Name name → PartText ('.' :: name) (.cls (String.ofList name))
  | test {body : List Char} {p : Predicate} :
      Body body → Test body p → PartText ('[' :: body ++ [']']) (.test p)

inductive PartsText : List Char → List Part → Prop
  | nil : PartsText [] []
  | cons {t ts : List Char} {part : Part} {parts : List Part} :
      PartText t part → PartsText ts parts → PartsText (t ++ ts) (part :: parts)

inductive ModifierText : List Char → Modifier → Prop
  | first : ModifierText (':' :: "first".toList) .first
  | last : ModifierText (':' :: "last".toList) .last
  | limit {a digits b : List Char} :
      Blanks a → Digits digits → digits ≠ [] → Blanks b → Decimal.digitsValue digits < UInt64.size →
      ModifierText (':' :: ("limit".toList ++ '(' :: (a ++ digits ++ b ++ [')'])))
        (.limit (UInt64.ofNat (Decimal.digitsValue digits)))

inductive EndText : List Char → Option Modifier → Prop
  | none : EndText [] none
  | some {t : List Char} {m : Modifier} : ModifierText t m → EndText t (some m)

/-- What the parts of a phase come to: of several identifiers the last one counts, classes stand at their
first places, tests in order. -/
structure Gathers (parts : List Part) (modifier : Option Modifier) (p : Phase) : Prop where
  tag : p.tag = (parts.filterMap Part.tag?).getLast?
  id : p.id = (parts.filterMap Part.id?).getLast?
  uid : p.uid = (parts.filterMap Part.uid?).getLast?
  classes : p.classes.names = (parts.filterMap Part.cls?).eraseDups
  tests : p.tests = parts.filterMap Part.test?
  modifier : p.modifier = modifier

inductive PhaseText : List Char → Phase → Prop
  | mk {h ts e : List Char} {head parts : List Part} {modifier : Option Modifier} {p : Phase} :
      HeadText h head → PartsText ts parts → EndText e modifier → h ++ ts ++ e ≠ [] →
      Gathers (head ++ parts) modifier p → PhaseText (h ++ ts ++ e) p

inductive TailText : List Char → List (Combinator × Phase) → Prop
  | nil : TailText [] []
  | descendant {a t ts : List Char} {p : Phase} {tail : List (Combinator × Phase)} :
      Blanks a → a ≠ [] → PhaseText t p → TailText ts tail →
      TailText (a ++ t ++ ts) ((.descendant, p) :: tail)
  | child {a b t ts : List Char} {p : Phase} {tail : List (Combinator × Phase)} :
      Blanks a → Blanks b → PhaseText t p → TailText ts tail →
      TailText (a ++ '>' :: b ++ t ++ ts) ((.child, p) :: tail)

inductive LegText : List Char → Leg → Prop
  | mk {t ts : List Char} {p : Phase} {tail : List (Combinator × Phase)} :
      PhaseText t p → TailText ts tail → LegText (t ++ ts) ⟨p, tail⟩

inductive LegsText : List Char → List Leg → Prop
  | last {a t b : List Char} {leg : Leg} :
      Blanks a → LegText t leg → Blanks b → LegsText (a ++ t ++ b) [leg]
  | more {a t b ts : List Char} {leg : Leg} {legs : List Leg} :
      Blanks a → LegText t leg → Blanks b → LegsText ts legs →
      LegsText (a ++ t ++ b ++ '/' :: ts) (leg :: legs)

def Derives (t : List Char) (s : Selector) : Prop := LegsText t s.legs

end Grammar

end Grove
