import Grove.Json.Basic
/-!
# Reading JSON text

The readers run on the characters that are left, under a fuel of one more than the length of the text:
every value takes at least one character, so the fuel never runs out before the text does.
-/

set_option autoImplicit false

namespace Grove.Json

def isSpace (c : Char) : Bool := c == ' ' || c == '\t' || c == '\n' || c == '\r'

def skipSpace (cs : List Char) : List Char := cs.dropWhile isSpace

def hexDigit? (c : Char) : Option Nat :=
  if c.isDigit then some (c.toNat - '0'.toNat)
  else if 'a' ≤ c ∧ c ≤ 'f' then some (c.toNat - 'a'.toNat + 10)
  else if 'A' ≤ c ∧ c ≤ 'F' then some (c.toNat - 'A'.toNat + 10)
  else none

def readUnit : List Char → Option (Nat × List Char)
  | a :: b :: c :: d :: rest => do
    let a ← hexDigit? a
    let b ← hexDigit? b
    let c ← hexDigit? c
    let d ← hexDigit? d
    pure (((a * 16 + b) * 16 + c) * 16 + d, rest)
  | _ => none

def simpleEscape? (c : Char) : Option Char :=
  if c = '\"' ∨ c = '\\' ∨ c = '/' then some c
  else if c = 'b' then some '\x08'
  else if c = 'f' then some '\x0c'
  else if c = 'n' then some '\n'
  else if c = 'r' then some '\r'
  else if c = 't' then some '\t'
  else none

/-- The inside of a string literal with the text after its closing quote. The characters come reversed,
and there are none where half of a surrogate pair stands alone. -/
def readString : Nat → Option (List Char) → List Char → Option (Option (List Char) × List Char)
  | 0, _, _ => none
  | _, _, [] => none
  | fuel + 1, out, c :: rest =>
    if c = '\"' then some (out, rest)
    else if c.toNat < 0x20 then none
    else if c ≠ '\\' then readString fuel (out.map (c :: ·)) rest
    else
      match rest with
      | [] => none
      | 'u' :: afterU =>
        match readUnit afterU with
        | none => none
        | some (high, afterHigh) =>
          if 0xD800 ≤ high ∧ high < 0xDC00 then
            match afterHigh with
            | '\\' :: 'u' :: afterSecond =>
              match readUnit afterSecond with
              | none => none
              | some (low, afterLow) =>
                if 0xDC00 ≤ low ∧ low < 0xE000 then
                  let c := Char.ofNat (0x10000 + (high - 0xD800) * 0x400 + (low - 0xDC00))
                  readString fuel (out.map (c :: ·)) afterLow
                else readString fuel none afterLow
            | _ => readString fuel none afterHigh
          else if 0xDC00 ≤ high ∧ high < 0xE000 then readString fuel none afterHigh
          else readString fuel (out.map (Char.ofNat high :: ·)) afterHigh
      | e :: afterE =>
        match simpleEscape? e with
        | none => none
        | some c => readString fuel (out.map (c :: ·)) afterE

def readDigits (cs : List Char) : Option (List Char × List Char) :=
  match cs.takeWhile Char.isDigit with
  | [] => none
  | digits => some (digits, cs.dropWhile Char.isDigit)

/-- The digits before the point: a zero stands alone. -/
def readWhole : List Char → Option (List Char × List Char)
  | '0' :: rest =>
    match rest with
    | c :: _ => if c.isDigit then none else some (['0'], rest)
    | [] => some (['0'], rest)
  | cs => readDigits cs

def readFraction : List Char → Option (List Char × List Char)
  | '.' :: rest => (readDigits rest).map fun r => ('.' :: r.1, r.2)
  | cs => some ([], cs)

def readExponent : List Char → Option (List Char × List Char)
  | [] => some ([], [])
  | e :: rest =>
    if e = 'e' ∨ e = 'E' then
      match rest with
      | [] => none
      | s :: afterSign =>
        if s = '+' ∨ s = '-' then (readDigits afterSign).map fun r => ('e' :: s :: r.1, r.2)
        else (readDigits rest).map fun r => ('e' :: r.1, r.2)
    else some ([], e :: rest)

def ofReal : Option Binary64 → Json
  | some x => if x.isFinite then .real x else .unreadable
  | none => .unreadable

/-- An integer of 128 bits stays one, but for a negative zero; any other number is rounded. -/
def numberOf (negative : Bool) (whole fraction exponent : List Char) : Json :=
  let magnitude := Decimal.digitsValue whole
  let signed : Int := if negative then -(magnitude : Int) else magnitude
  if fraction.isEmpty && exponent.isEmpty && isLong signed && !(negative && magnitude == 0) then
    .integer signed
  else
    ofReal (Decimal.read? ((if negative then ['-'] else []) ++ whole ++ fraction ++ exponent))

def readNumber (negative : Bool) (cs : List Char) : Option (Json × List Char) := do
  let (whole, afterWhole) ← readWhole cs
  let (fraction, afterFraction) ← readFraction afterWhole
  let (exponent, rest) ← readExponent afterFraction
  pure (numberOf negative whole fraction exponent, rest)

def dropWord : List Char → List Char → Option (List Char)
  | [], cs => some cs
  | w :: word, c :: cs => if w = c then dropWord word cs else none
  | _ :: _, [] => none

/-- How many containers may enclose each other where nothing else is asked for. -/
def nestingLimit : Nat := 127

def stringOf : Option (List Char) → Json
  | some reversed => .string (String.ofList reversed.reverse)
  | none => .unreadable

def arrayAt (room : Nat) (items : List Json) : Json := if room = 0 then .unreadable else .array items

def objectAt (room : Nat) : Option (List (String × Json)) → Json
  | some entries => if room = 0 then .unreadable else .object entries
  | none => .unreadable

mutual

/-- A value where `room` containers may still be opened, and the text after it. -/
def readValue : Nat → Nat → List Char → Option (Json × List Char)
  | 0, _, _ => none
  | fuel + 1, room, cs =>
    match skipSpace cs with
    | [] => none
    | c :: rest =>
      if c = 'n' then (dropWord "ull".toList rest).map (Json.null, ·)
      else if c = 't' then (dropWord "rue".toList rest).map (Json.bool true, ·)
      else if c = 'f' then (dropWord "alse".toList rest).map (Json.bool false, ·)
      else if c = '\"' then
        (readString (fuel + 1) (some []) rest).map fun r => (stringOf r.1, r.2)
      else if c = '[' then
        match skipSpace rest with
        | ']' :: rest' => some (arrayAt room [], rest')
        | _ => (readItems fuel (room - 1) rest).map fun r => (arrayAt room r.1, r.2)
      else if c = '\x7b' then
        match skipSpace rest with
        | '\x7d' :: rest' => some (objectAt room (some []), rest')
        | _ => (readEntries fuel (room - 1) rest).map fun r => (objectAt room r.1, r.2)
      else if c = '-' then readNumber true rest
      else readNumber false (c :: rest)

def readItems : Nat → Nat → List Char → Option (List Json × List Char)
  | 0, _, _ => none
  | fuel + 1, room, cs =>
    match readValue fuel room cs with
    | none => none
    | some (item, rest) =>
      match skipSpace rest with
      | [] => none
      | c :: rest' =>
        if c = ']' then some ([item], rest')
        else if c = ',' then (readItems fuel room rest').map fun r => (item :: r.1, r.2)
        else none

/-- The entries of an object up to its closing brace; none if a key has no value as a string. -/
def readEntries : Nat → Nat → List Char → Option (Option (List (String × Json)) × List Char)
  | 0, _, _ => none
  | fuel + 1, room, cs =>
    match skipSpace cs with
    | '\"' :: afterQuote =>
      match readString (fuel + 1) (some []) afterQuote with
      | none => none
      | some (key, afterKey) =>
        match skipSpace afterKey with
        | ':' :: afterColon =>
          match readValue fuel room afterColon with
          | none => none
          | some (item, rest) =>
            let entry := key.map fun k => (String.ofList k.reverse, item)
            match skipSpace rest with
            | [] => none
            | c :: rest' =>
              if c = '\x7d' then some (entry.map ([·]), rest')
              else if c = ',' then
                (readEntries fuel room rest').map fun r =>
                  (entry.bind fun e => r.1.map (e :: ·), r.2)
              else none
        | _ => none
    | _ => none

end

def ofChars? (room : Nat) (cs : List Char) : Option Json :=
  match readValue (cs.length + 2) room cs with
  | some (tree, rest) => if (skipSpace rest).isEmpty then some tree else none
  | none => none

def ofString? (text : String) : Option Json := ofChars? nestingLimit text.toList

end Grove.Json
