import Grove.Selector.Basic
import Grove.Selector.Error
import Grove.Text.Alphanumeric
/-!
# Reading selectors

Each reader takes the characters that are left and returns what it read with the characters after it.
A fault remembers the characters from which on the text is wrong; its offset in bytes is what those
leave of the whole text. Every phase takes at least one character, so the loops over phases end.
-/

set_option autoImplicit false

namespace Grove

/-- A cause, and the rest of the text at the place it is about. -/
structure Fault where
  cause : SyntaxCause
  rest : List Char

abbrev Reading (α : Type) := Except Fault (α × List Char)

namespace Selector

/-- Letters and numbers of any script, the hyphen and the underscore. -/
def isNameChar (c : Char) : Bool := Text.isAlphanumeric c || c == '-' || c == '_'

/-- The characters of operators, known or not. -/
def isOperatorChar (c : Char) : Bool :=
  c == '=' || c == '^' || c == '<' || c == '>' || c == '~' || c == '$' || c == '*' || c == '!' || c == '|'

/-- A condition of a phase, as one piece of its text. -/
inductive Part where
  | tag (name : String)
  | id (name : String)
  | uid (name : String)
  | cls (name : String)
  | test (predicate : Predicate)
  deriving DecidableEq

/-- A later tag or identifier replaces an earlier one; classes and tests gather. -/
def addPart (phase : Phase) : Part → Phase
  | .tag name => { phase with tag := some name }
  | .id name => { phase with id := some name }
  | .uid name => { phase with uid := some name }
  | .cls name => { phase with classes := phase.classes.insert name }
  | .test predicate => { phase with tests := phase.tests ++ [predicate] }

def phaseOf (parts : List Part) (modifier : Option Modifier) : Phase :=
  { parts.foldl addPart Phase.any with modifier := modifier }

def readName (cs : List Char) : Reading String :=
  match cs.takeWhile isNameChar with
  | [] => .error ⟨.expectedName, cs⟩
  | name => .ok (String.ofList name, cs.dropWhile isNameChar)

/-- The inside of a bracket up to the first closing one outside quotes, and the text after that. A
backslash between quotes protects the character after it. -/
def bracketBody : Option Char → List Char → Option (List Char × List Char)
  | _, [] => none
  | none, c :: rest =>
    if c = ']' then some ([], rest)
    else (bracketBody (if c = '\"' ∨ c = '\'' then some c else none) rest).map
      fun r => (c :: r.1, r.2)
  | some quote, c :: rest =>
    if c = '\\' then
      match rest with
      | [] => none
      | d :: rest' => (bracketBody (some quote) rest').map fun r => (c :: d :: r.1, r.2)
    else (bracketBody (if c = quote then none else some quote) rest).map fun r => (c :: r.1, r.2)

def readTest (cs : List Char) : Reading Predicate :=
  match bracketBody none cs with
  | none => .error ⟨.unterminatedBracket, '[' :: cs⟩
  | some (body, rest) =>
    let fromOperator := body.dropWhile (!isOperatorChar ·)
    let token := fromOperator.takeWhile isOperatorChar
    if fromOperator.isEmpty then .error ⟨.unknownOperator [], cs⟩
    else
      match Operator.ofToken? token with
      | none => .error ⟨.unknownOperator token, cs.dropWhile (!isOperatorChar ·)⟩
      | some operator =>
        let field := Text.trim (body.takeWhile (!isOperatorChar ·))
        if field.isEmpty then .error ⟨.expectedName, cs⟩
        else
          let value := Text.trim (fromOperator.dropWhile isOperatorChar)
          .ok (⟨String.ofList field, operator, Literal.ofSpelling value⟩, rest)

/-- What stands at the start of a phase: a star, an underscore and a name, or a word, which is a unique
identifier when it has ASCII digits only and a tag otherwise. Anything else is left to the conditions. -/
def readHead : List Char → Reading (List Part)
  | [] => .error ⟨.emptyPhase, []⟩
  | c :: rest =>
    if c = '/' ∨ c = '>' then .error ⟨.emptyPhase, c :: rest⟩
    else if c = '*' then .ok ([], rest)
    else if c = '_' then
      match readName rest with
      | .error e => .error e
      | .ok (name, rest') => .ok ([.id name], rest')
    else if Text.isAlphanumeric c then
      let word := (c :: rest).takeWhile isNameChar
      let part := if word.all Char.isDigit then Part.uid (String.ofList word)
        else Part.tag (String.ofList word)
      .ok ([part], (c :: rest).dropWhile isNameChar)
    else .ok ([], c :: rest)

def readPart? : List Char → Option (Reading Part)
  | [] => none
  | c :: rest =>
    if c = '#' then some ((readName rest).map fun r => (.id r.1, r.2))
    else if c = '=' then some ((readName rest).map fun r => (.uid r.1, r.2))
    else if c = '.' then some ((readName rest).map fun r => (.cls r.1, r.2))
    else if c = '[' then some ((readTest rest).map fun r => (.test r.1, r.2))
    else none

theorem length_dropWhile_le (p : Char → Bool) (cs : List Char) : (cs.dropWhile p).length ≤ cs.length :=
  (List.dropWhile_sublist p).length_le

theorem readName_length {cs rest : List Char} {name : String} (h : readName cs = .ok (name, rest)) :
    rest.length ≤ cs.length := by
  unfold readName at h
  split at h
  · cases h
  · cases h; exact length_dropWhile_le _ _

theorem bracketBody_length {quote : Option Char} {cs body rest : List Char}
    (h : bracketBody quote cs = some (body, rest)) : rest.length < cs.length := by
  fun_induction bracketBody quote cs generalizing body rest with
  | case1 => cases h
  | case2 => cases h; simp
  | case3 c rest' hc ih =>
    obtain ⟨r, hr, he⟩ := Option.map_eq_some_iff.1 h
    cases he
    have := ih hr
    simp; omega
  | case4 => cases h
  | case5 quote d rest' ih =>
    obtain ⟨r, hr, he⟩ := Option.map_eq_some_iff.1 h
    cases he
    have := ih hr
    simp; omega
  | case6 quote c rest' hc ih =>
    obtain ⟨r, hr, he⟩ := Option.map_eq_some_iff.1 h
    cases he
    have := ih hr
    simp; omega

theorem readTest_length {cs rest : List Char} {p : Predicate} (h : readTest cs = .ok (p, rest)) :
    rest.length < cs.length := by
  unfold readTest at h
  split at h
  · cases h
  · next body rest' hb =>
    dsimp only at h
    split at h
    · cases h
    split at h
    · cases h
    split at h
    · cases h
    · cases h; exact bracketBody_length hb

theorem exists_of_map_eq_ok {ε α β : Type} {f : α → β} {r : Except ε α} {b : β}
    (h : r.map f = .ok b) : ∃ a, r = .ok a ∧ f a = b := by
  cases r with
  | error e => cases h
  | ok a => cases h; exact ⟨a, rfl, rfl⟩

theorem readPart?_length {cs rest : List Char} {part : Part}
    (h : readPart? cs = some (.ok (part, rest))) : rest.length < cs.length := by
  cases cs with
  | nil => cases h
  | cons c cs =>
    simp only [readPart?] at h
    split at h
    · obtain ⟨_, hn, he⟩ := exists_of_map_eq_ok (Option.some.inj h)
      cases he
      exact Nat.lt_succ_of_le (readName_length hn)
    split at h
    · obtain ⟨_, hn, he⟩ := exists_of_map_eq_ok (Option.some.inj h)
      cases he
      exact Nat.lt_succ_of_le (readName_length hn)
    split at h
    · obtain ⟨_, hn, he⟩ := exists_of_map_eq_ok (Option.some.inj h)
      cases he
      exact Nat.lt_succ_of_le (readName_length hn)
    split at h
    · obtain ⟨_, hn, he⟩ := exists_of_map_eq_ok (Option.some.inj h)
      cases he
      exact Nat.lt_succ_of_lt (readTest_length hn)
    · cases h

def readParts (cs : List Char) : Reading (List Part) :=
  match h : readPart? cs with
  | none => .ok ([], cs)
  | some (.error e) => .error e
  | some (.ok (part, rest)) =>
    have := readPart?_length h
    match readParts rest with
    | .error e => .error e
    | .ok (parts, rest') => .ok (part :: parts, rest')
termination_by cs.length

/-- The number between the parentheses of a limit, from the text after the opening one. -/
def readLimit (cs : List Char) : Reading Modifier :=
  match cs.dropWhile (· != ')') with
  | [] => .error ⟨.invalidLimit, cs⟩
  | _ :: rest =>
    let digits := Text.trim (cs.takeWhile (· != ')'))
    let count := Decimal.digitsValue digits
    if digits.isEmpty || !digits.all Char.isDigit || UInt64.size ≤ count then .error ⟨.invalidLimit, cs⟩
    else .ok (.limit (UInt64.ofNat count), rest)

def readModifier (cs : List Char) : Reading Modifier :=
  let name := cs.takeWhile isNameChar
  let rest := cs.dropWhile isNameChar
  if name = "first".toList then .ok (.first, rest)
  else if name = "last".toList then .ok (.last, rest)
  else if name = "limit".toList then
    match rest with
    | '(' :: inside => readLimit inside
    | _ => .error ⟨.invalidLimit, rest⟩
  else .error ⟨.unknownModifier name, ':' :: cs⟩

/-- The modifier at the end of a phase, if there is one; no condition may follow it. -/
def readEnd : List Char → Reading (Option Modifier)
  | ':' :: rest =>
    match readModifier rest with
    | .error e => .error e
    | .ok (modifier, rest') =>
      match rest' with
      | [] => .ok (some modifier, [])
      | c :: _ =>
        if c = ':' then .error ⟨.repeatedModifier, rest'⟩
        else if c = '#' ∨ c = '=' ∨ c = '.' ∨ c = '[' then .error ⟨.unexpected c, rest'⟩
        else .ok (some modifier, rest')
  | cs => .ok (none, cs)

def readPhase (cs : List Char) : Reading Phase :=
  match readHead cs with
  | .error e => .error e
  | .ok (head, afterHead) =>
    match readParts afterHead with
    | .error e => .error e
    | .ok (parts, afterParts) =>
      match readEnd afterParts with
      | .error e => .error e
      | .ok (modifier, rest) =>
        if rest.length < cs.length then .ok (phaseOf (head ++ parts) modifier, rest)
        else
          match cs with
          | [] => .error ⟨.emptyPhase, cs⟩
          | c :: _ => .error ⟨.unexpected c, cs⟩

theorem readPhase_length {cs rest : List Char} {phase : Phase} (h : readPhase cs = .ok (phase, rest)) :
    rest.length < cs.length := by
  unfold readPhase at h
  split at h
  · cases h
  split at h
  · cases h
  split at h
  · cases h
  split at h
  · next hlt => cases h; exact hlt
  · split at h <;> cases h

/-- The phases chained to a head, each after blanks or a `>`, up to a slash or the end. -/
def readTail (cs : List Char) : Reading (List (Combinator × Phase)) :=
  have _skipped := Text.skipBlanks_length_le cs
  match _hs : Text.skipBlanks cs with
  | [] => .ok ([], [])
  | c :: rest =>
    if c = '/' then .ok ([], c :: rest)
    else if c = '>' then
      match h : readPhase (Text.skipBlanks rest) with
      | .error e => .error e
      | .ok (phase, rest') =>
        have := readPhase_length h
        have := Text.skipBlanks_length_le rest
        match readTail rest' with
        | .error e => .error e
        | .ok (tail, rest'') => .ok ((.child, phase) :: tail, rest'')
    else if rest.length + 1 < cs.length then
      match h : readPhase (c :: rest) with
      | .error e => .error e
      | .ok (phase, rest') =>
        have := readPhase_length h
        match readTail rest' with
        | .error e => .error e
        | .ok (tail, rest'') => .ok ((.descendant, phase) :: tail, rest'')
    else .error ⟨.unexpected c, c :: rest⟩
termination_by cs.length
decreasing_by all_goals (simp_all; omega)

def readLeg (cs : List Char) : Reading Leg :=
  match readPhase (Text.skipBlanks cs) with
  | .error e => .error e
  | .ok (head, rest) =>
    match readTail rest with
    | .error e => .error e
    | .ok (tail, rest') => .ok (⟨head, tail⟩, rest')

theorem readTail_length {cs rest : List Char} {tail : List (Combinator × Phase)}
    (h : readTail cs = .ok (tail, rest)) : rest.length ≤ cs.length := by
  fun_induction readTail cs generalizing tail rest with
  | case1 => cases h; exact Nat.zero_le _
  | case2 cs skipped r hs => cases h; simpa [hs] using skipped
  | case5 cs skipped r p r' hp hlt hle tail' r'' ht hs _ ih =>
    cases h
    have := ih ht
    simp_all
    omega
  | case8 cs skipped c r hs _ _ hlen phase r' hp hlt tail' r'' ht ih =>
    cases h
    have := ih ht
    simp_all
    omega
  | _ => cases h

theorem readLeg_length {cs rest : List Char} {leg : Leg} (h : readLeg cs = .ok (leg, rest)) :
    rest.length < cs.length := by
  unfold readLeg at h
  split at h
  · cases h
  · next head r hp =>
    split at h
    · cases h
    · next tail r' ht =>
      cases h
      have := readPhase_length hp
      have := readTail_length ht
      have := Text.skipBlanks_length_le cs
      omega

def readLegs (cs : List Char) : Except Fault (List Leg) :=
  match h : readLeg cs with
  | .error e => .error e
  | .ok (leg, rest) =>
    have := readLeg_length h
    have _skipped := Text.skipBlanks_length_le rest
    match _hs : Text.skipBlanks rest with
    | [] => .ok [leg]
    | c :: rest' =>
      if c = '/' then
        match readLegs rest' with
        | .error e => .error e
        | .ok legs => .ok (leg :: legs)
      else .error ⟨.unexpected c, c :: rest'⟩
termination_by cs.length
decreasing_by simp_all; omega

/-- The offset of a fault in the text that was read. -/
def errorIn (text : List Char) (fault : Fault) : SyntaxError :=
  .at (Text.byteLength text - Text.byteLength fault.rest) fault.cause

def ofChars (text : List Char) : Except SyntaxError Selector :=
  if text.all Text.isBlank then .error .empty
  else
    match readLegs text with
    | .error fault => .error (errorIn text fault)
    | .ok legs => .ok ⟨legs⟩

def ofString (text : String) : Except SyntaxError Selector := ofChars text.toList

def readPhaseAlone (cs : List Char) : Except Fault Phase :=
  match readPhase (Text.skipBlanks cs) with
  | .error fault => .error fault
  | .ok (phase, rest) =>
    match Text.skipBlanks rest with
    | [] => .ok phase
    | c :: rest' => .error ⟨.unexpected c, c :: rest'⟩

end Selector

namespace Phase

def ofChars (text : List Char) : Except SyntaxError Phase :=
  if text.all Text.isBlank then .error .empty
  else
    match Selector.readPhaseAlone text with
    | .error fault => .error (Selector.errorIn text fault)
    | .ok phase => .ok phase

def ofString (text : String) : Except SyntaxError Phase := ofChars text.toList

end Phase

end Grove
