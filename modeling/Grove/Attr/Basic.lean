import Grove.Selector.Basic
/-!
# Attribute trees

Free-form values of a model: scalars, lists, and maps whose entries keep the order in which their keys
were first written.
-/

set_option autoImplicit false

namespace Grove

inductive Attr where
  | null
  | bool (value : Bool)
  | number (value : Binary64)
  | text (value : String)
  | list (items : List Attr)
  | map (entries : List (String × Attr))

namespace Attr

instance : Inhabited Attr := ⟨null⟩

def emptyMap : Attr := map []

def isNull : Attr → Bool
  | null => true
  | _ => false

def text? : Attr → Option String
  | text s => some s
  | _ => none

def number? : Attr → Option Binary64
  | number n => some n
  | _ => none

def bool? : Attr → Option Bool
  | bool b => some b
  | _ => none

def keys? : Attr → Option (List String)
  | map entries => some (entries.map Prod.fst)
  | _ => none

def ofLiteral : Literal → Attr
  | .number n => number n
  | .text s => text s

/-- Writes under a key: a present key keeps its place, a new one goes to the end. -/
def put (key : String) (value : Attr) : List (String × Attr) → List (String × Attr)
  | [] => [(key, value)]
  | (k, v) :: rest => if k = key then (k, value) :: rest else (k, v) :: put key value rest

def drop (key : String) (entries : List (String × Attr)) : List (String × Attr) :=
  entries.filter fun e => e.1 != key

theorem lookup_put_self (key : String) (value : Attr) (entries : List (String × Attr)) :
    (put key value entries).lookup key = some value := by
  induction entries with
  | nil => simp [put]
  | cons e rest ih =>
    obtain ⟨k, v⟩ := e
    by_cases h : k = key
    · simp [put, h]
    · have h' : (key == k) = false := by simpa using fun e => h e.symm
      simp [put, h, h', List.lookup_cons, ih]

theorem lookup_put_of_ne {key other : String} (value : Attr) (entries : List (String × Attr))
    (h : other ≠ key) : (put key value entries).lookup other = entries.lookup other := by
  have h' : (other == key) = false := by simpa using h
  induction entries with
  | nil => simp [put, List.lookup_cons, h']
  | cons e rest ih =>
    obtain ⟨k, v⟩ := e
    by_cases hk : k = key
    · subst hk; simp [put, List.lookup_cons, h']
    · simp [put, hk, List.lookup_cons, ih]

def plain? : Attr → Option (List Char)
  | bool b => some (if b then "true".toList else "false".toList)
  | number n => some (Decimal.plainText n)
  | text s => some s.toList
  | _ => none

mutual

def spell : Attr → List Char
  | null => "null".toList
  | bool b => if b then "true".toList else "false".toList
  | number n => Decimal.plainText n
  | text s => s.toList
  | list items => '[' :: spellItems items ++ [']']
  | map entries => '\x7b' :: spellEntries entries ++ ['\x7d']

def spellItems : List Attr → List Char
  | [] => []
  | [item] => spell item
  | item :: rest => spell item ++ ',' :: spellItems rest

def spellEntries : List (String × Attr) → List Char
  | [] => []
  | [(key, item)] => key.toList ++ ':' :: spell item
  | (key, item) :: rest => key.toList ++ ':' :: spell item ++ ',' :: spellEntries rest

end

mutual

/-- Equality of trees: numbers as numbers, maps whatever the order of their entries. -/
def agrees : Attr → Attr → Bool
  | null, null => true
  | bool a, bool b => a == b
  | number a, number b => a.equal b
  | text a, text b => a == b
  | list as, list bs => agreeItems as bs
  | map as, map bs => as.length == bs.length && agreeEntries as bs
  | _, _ => false

def agreeItems : List Attr → List Attr → Bool
  | [], [] => true
  | a :: as, b :: bs => agrees a b && agreeItems as bs
  | _, _ => false

def agreeEntries : List (String × Attr) → List (String × Attr) → Bool
  | [], _ => true
  | (key, a) :: as, bs =>
    (match bs.lookup key with
      | some b => agrees a b
      | none => false) && agreeEntries as bs

end

def numericOrder? : Attr → Literal → Option Ordering
  | number a, .number b => a.compare? b
  | _, _ => none

/-- Does a value stand in a relation to a literal? Values of other types stand in none. -/
def satisfies (value : Attr) (operator : Operator) (literal : Literal) : Bool :=
  match operator with
  | .equals =>
    match value, literal with
    | number a, .number b => a.equal b
    | text a, .text b => a == b
    | _, _ => false
  | .begins =>
    match value.plain? with
    | some chars => literal.plain.isPrefixOf chars
    | none => false
  | .less => value.numericOrder? literal == some .lt
  | .greater => value.numericOrder? literal == some .gt

end Attr

end Grove
