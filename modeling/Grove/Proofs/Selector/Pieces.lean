import Grove.Proofs.Selector.Grammar
/-!
# Reading the pieces of a phase

Names, brackets, values, tests and modifiers are read where the grammar has them and nowhere else. A
reader takes the longest name, so what follows a name has to stop it.
-/

set_option autoImplicit false

namespace Grove

open Grammar Text

namespace Selector

section
variable {cs rest name : List Char}

theorem readName_sound {text : String} (h : readName cs = .ok (text, rest)) :
    ∃ name, Name name ∧ text = String.ofList name ∧ cs = name ++ rest := by
  obtain ⟨name, hname, hcs⟩ := exists_run isNameChar cs
  have hstop := stops_dropWhile isNameChar cs
  unfold readName at h
  split at h
  · cases h
  · next hne =>
    cases h
    rw [hcs, takeWhile_run hname hstop] at hne
    refine ⟨name, ⟨hne, hname⟩, ?_, hcs⟩
    conv_lhs => rw [hcs, takeWhile_run hname hstop]

theorem readName_append (hname : Name name) (hrest : Stops isNameChar rest) :
    readName (name ++ rest) = .ok (String.ofList name, rest) := by
  unfold readName
  rw [takeWhile_run hname.2 hrest, dropWhile_run hname.2 hrest]
  obtain ⟨c, t, rfl⟩ := List.exists_cons_of_ne_nil hname.1
  rfl

theorem bracketBody_char {q c : Char} (hc : c ≠ '\\') : bracketBody (some q) (c :: rest) =
    (bracketBody (if c = q then none else some q) rest).map fun r => (c :: r.1, r.2) := by
  rw [bracketBody.eq_def]
  simp [hc]

theorem bracketBody_quoted {q : Char} {inner : List Char} (hq : IsQuote q) (hinner : Quoted q inner) :
    bracketBody (some q) (inner ++ q :: rest) =
      (bracketBody none rest).map fun r => (inner ++ q :: r.1, r.2) := by
  induction hinner with
  | nil =>
    have hne : q ≠ '\\' := by rcases hq with rfl | rfl <;> decide
    simp [bracketBody_char hne]
  | escape c _ ih => simp [bracketBody, ih, Function.comp_def]
  | char hslash hne _ ih => simp [bracketBody_char hslash, hne, ih, Function.comp_def]

theorem bracketBody_append {body : List Char} (h : Body body) :
    bracketBody none (body ++ ']' :: rest) = some (body, rest) := by
  induction h with
  | nil => simp [bracketBody]
  | char hne hquote _ ih =>
    unfold IsQuote at hquote
    simp [bracketBody, hne, hquote, ih]
  | @quote q inner t hq hinner _ ih =>
    have hne : q ≠ ']' := by rcases hq with rfl | rfl <;> decide
    have hq' := hq
    unfold IsQuote at hq'
    simp [bracketBody, hne, hq', bracketBody_quoted hq hinner, ih]

/-- The inside of a bracket from a place between quotes, or outside of them. -/
def BodyFrom : Option Char → List Char → Prop
  | none, body => Body body
  | some q, body => IsQuote q → ∃ inner t, Quoted q inner ∧ Body t ∧ body = inner ++ q :: t

theorem bracketBody_sound {state : Option Char} {body : List Char}
    (h : bracketBody state cs = some (body, rest)) : BodyFrom state body ∧ cs = body ++ ']' :: rest := by
  -- The statement is about both states of the reader, since a quote that opens here closes in the rest.
  fun_induction bracketBody state cs generalizing body rest with
  | case1 => cases h
  | case2 =>
    cases h
    exact ⟨Body.nil, rfl⟩
  | case3 c cs hc ih =>
    obtain ⟨⟨body, rest⟩, hr, he⟩ := Option.map_eq_some_iff.1 h
    cases he
    obtain ⟨hbody, rfl⟩ := ih hr
    refine ⟨?_, rfl⟩
    split at hbody
    · next hq =>
      obtain ⟨inner, t, hinner, ht, rfl⟩ := hbody hq
      exact Body.quote hq hinner ht
    · next hq => exact Body.char hc hq hbody
  | case4 => cases h
  | case5 q d cs ih =>
    obtain ⟨⟨body, rest⟩, hr, he⟩ := Option.map_eq_some_iff.1 h
    cases he
    obtain ⟨hbody, rfl⟩ := ih hr
    refine ⟨fun hq => ?_, rfl⟩
    obtain ⟨inner, t, hinner, ht, rfl⟩ := hbody hq
    exact ⟨_, t, Quoted.escape d hinner, ht, rfl⟩
  | case6 q c cs hc ih =>
    obtain ⟨⟨body, rest⟩, hr, he⟩ := Option.map_eq_some_iff.1 h
    cases he
    obtain ⟨hbody, rfl⟩ := ih hr
    refine ⟨fun hq => ?_, rfl⟩
    by_cases hcq : c = q
    · rw [if_pos hcq] at hbody
      subst hcq
      exact ⟨[], body, Quoted.nil, hbody, rfl⟩
    · rw [if_neg hcq] at hbody
      obtain ⟨inner, t, hinner, ht, rfl⟩ := hbody hq
      exact ⟨_, t, Quoted.char hc hcq hinner, ht, rfl⟩

theorem bracketBody_eq_some_iff {body : List Char} :
    bracketBody none cs = some (body, rest) ↔ Body body ∧ cs = body ++ ']' :: rest := by
  constructor
  · exact bracketBody_sound
  · rintro ⟨hbody, rfl⟩
    exact bracketBody_append hbody

end

end Selector

namespace Literal

section
variable {t u : List Char} {l : Literal}

theorem unescaped_unescape (t : List Char) : Unescaped t (unescape t) := by
  fun_induction unescape t with
  | case1 => exact Unescaped.nil
  | case2 => exact Unescaped.lone
  | case3 c t ih => exact Unescaped.escape c ih
  | case4 c t hlone hslash ih =>
    refine Unescaped.char ?_ ih
    rintro rfl
    cases t with
    | nil => exact hlone rfl rfl
    | cons d t => exact hslash d t rfl rfl

theorem unescape_eq (h : Unescaped t u) : unescape t = u := by
  induction h with
  | nil => rfl
  | lone => rfl
  | escape c _ ih => simp [unescape, ih]
  | @char c t u hc _ ih =>
    rw [unescape, ih]
    · rintro rfl
      exact absurd rfl hc
    · rintro d t rfl
      exact absurd rfl hc

theorem unquote?_eq_some_iff : unquote? t = some u ↔ ∃ inner, Enclosed t inner ∧ Unescaped inner u := by
  constructor
  · intro h
    cases t with
    | nil => cases h
    | cons q rest =>
      simp only [unquote?, Option.ite_none_right_eq_some, Option.some.injEq] at h
      obtain ⟨⟨hq, hlast⟩, rfl⟩ := h
      refine ⟨rest.dropLast, ⟨q, hq, ?_⟩, unescaped_unescape _⟩
      rw [List.cons_append, List.dropLast_append_getLast? q hlast]
  · rintro ⟨inner, ⟨q, hq, rfl⟩, hu⟩
    unfold IsQuote at hq
    simp [unquote?, hq, unescape_eq hu]

theorem isNumberChar_of_numeric? {n : Binary64} (h : numeric? t = some n) :
    ∀ c ∈ t, isNumberChar c = true := by
  simp only [numeric?, Option.ite_none_right_eq_some, Bool.and_eq_true] at h
  exact List.all_eq_true.1 h.1.2

theorem not_enclosed_of_numeric? {n : Binary64} (h : numeric? t = some n) (inner : List Char) :
    ¬ Enclosed t inner := by
  rintro ⟨q, hq, rfl⟩
  have hnumber := isNumberChar_of_numeric? h q (List.mem_cons_self ..)
  rcases hq with rfl | rfl <;> exact absurd hnumber (by decide)

theorem unquote?_eq_none (h : ∀ inner, ¬ Enclosed t inner) : unquote? t = none := by
  rw [Option.eq_none_iff_forall_not_mem]
  intro u hu
  obtain ⟨inner, hinner, -⟩ := unquote?_eq_some_iff.1 hu
  exact h inner hinner

theorem ofSpelling_eq (h : Value t l) : ofSpelling t = l := by
  unfold ofSpelling
  cases h with
  | quoted hinner hu => rw [unquote?_eq_some_iff.2 ⟨_, hinner, hu⟩]
  | number hn => rw [unquote?_eq_none (not_enclosed_of_numeric? hn), ofToken, hn]
  | bare hnot hn => rw [unquote?_eq_none hnot, ofToken, hn]

theorem value_ofSpelling (t : List Char) : Value t (ofSpelling t) := by
  unfold ofSpelling
  cases hu : unquote? t with
  | some text =>
    obtain ⟨inner, hinner, htext⟩ := unquote?_eq_some_iff.1 hu
    exact Value.quoted hinner htext
  | none =>
    unfold ofToken
    cases hn : numeric? t with
    | some n => exact Value.number hn
    | none =>
      refine Value.bare (fun inner hinner => ?_) hn
      rw [unquote?_eq_some_iff.2 ⟨inner, hinner, unescaped_unescape inner⟩] at hu
      cases hu

end

end Literal

theorem Operator.spell_isOperatorChar (o : Operator) : ∀ c ∈ o.spell, Selector.isOperatorChar c = true :=
  List.all_eq_true.1 (by cases o <;> decide)

namespace Selector

section
variable {cs rest body : List Char} {p : Predicate}

theorem readTest_append (hbody : Body body) (htest : Test body p) :
    readTest (body ++ ']' :: rest) = .ok (p, rest) := by
  cases htest with
  | @mk before after field value operator literal hbefore hfield hne hafter hvalue hliteral =>
    have hrun : ∀ c ∈ before, (!isOperatorChar c) = true := by simpa using hbefore
    have hoperator := operator.spell_isOperatorChar
    have hstart : Stops (!isOperatorChar ·) (operator.spell ++ after) := by
      cases operator <;> exact stops_cons.2 (by decide)
    have hfrom := dropWhile_run hrun hstart
    rw [← List.append_assoc] at hfrom
    have hto := takeWhile_run hrun hstart
    rw [← List.append_assoc] at hto
    have hsome : (operator.spell ++ after).isEmpty = false := by cases operator <;> rfl
    unfold readTest
    rw [bracketBody_append hbody]
    dsimp only
    rw [hfrom, hto, takeWhile_run hoperator hafter, dropWhile_run hoperator hafter,
      Operator.ofToken?_eq_some_iff.2 rfl, trim_eq_iff.2 hfield, trim_eq_iff.2 hvalue,
      Literal.ofSpelling_eq hliteral]
    simp [hsome, hne]

theorem readTest_sound (h : readTest cs = .ok (p, rest)) :
    ∃ body, Body body ∧ Test body p ∧ cs = body ++ ']' :: rest := by
  unfold readTest at h
  split at h
  · cases h
  · next body rest' hbracket =>
    obtain ⟨hbody, rfl⟩ := bracketBody_eq_some_iff.1 hbracket
    obtain ⟨before, hbefore, hsplit⟩ := exists_run (!isOperatorChar ·) body
    dsimp only at h
    split at h
    · cases h
    split at h
    · cases h
    · next operator htoken =>
      split at h
      · cases h
      · next hfield =>
        cases h
        refine ⟨body, hbody, ?_, rfl⟩
        obtain ⟨token, hrun, hrest⟩ := exists_run isOperatorChar (body.dropWhile (!isOperatorChar ·))
        have hstop := stops_dropWhile isOperatorChar (body.dropWhile (!isOperatorChar ·))
        have hbegin : body.takeWhile (!isOperatorChar ·) = before := by
          rw [hsplit, takeWhile_run hbefore (stops_dropWhile _ body)]
        rw [hrest, takeWhile_run hrun hstop, Operator.ofToken?_eq_some_iff] at htoken
        subst htoken
        rw [hbegin] at hfield ⊢
        have htext : body = before ++ operator.spell ++
            (body.dropWhile (!isOperatorChar ·)).dropWhile isOperatorChar := by
          rw [List.append_assoc, ← hrest]
          exact hsplit
        conv_lhs => rw [htext]
        exact Test.mk (by simpa using hbefore) (trimmed_trim before) (by simpa using hfield) hstop
          (trimmed_trim _) (Literal.value_ofSpelling _)

end

section
variable {cs rest t : List Char} {part : Part} {parts : List Part}

/-- Each mark opens a part of a phase. -/
def isMark (c : Char) : Bool := c == '#' || c == '=' || c == '.' || c == '['

theorem readPart?_append (h : PartText t part) (hrest : Stops isNameChar rest) :
    readPart? (t ++ rest) = some (.ok (part, rest)) := by
  cases h with
  | id hname => simp [readPart?, readName_append hname hrest, Except.map]
  | uid hname => simp [readPart?, readName_append hname hrest, Except.map]
  | cls hname => simp [readPart?, readName_append hname hrest, Except.map]
  | test hbody htest => simp [readPart?, readTest_append hbody htest, Except.map]

theorem readName_map_sound {f : String → Part}
    (h : (readName cs).map (fun r => (f r.1, r.2)) = .ok (part, rest)) :
    ∃ name, Name name ∧ part = f (String.ofList name) ∧ cs = name ++ rest := by
  obtain ⟨⟨text, rest⟩, hread, he⟩ := exists_of_map_eq_ok h
  obtain ⟨name, hname, rfl, rfl⟩ := readName_sound hread
  cases he
  exact ⟨name, hname, rfl, rfl⟩

theorem readPart?_sound (h : readPart? cs = some (.ok (part, rest))) :
    ∃ t, PartText t part ∧ cs = t ++ rest := by
  cases cs with
  | nil => cases h
  | cons c cs =>
    simp only [readPart?] at h
    split at h
    · next hc =>
      obtain ⟨name, hname, rfl, rfl⟩ := readName_map_sound (Option.some.inj h)
      exact ⟨c :: name, hc ▸ PartText.id hname, rfl⟩
    split at h
    · next hc =>
      obtain ⟨name, hname, rfl, rfl⟩ := readName_map_sound (Option.some.inj h)
      exact ⟨c :: name, hc ▸ PartText.uid hname, rfl⟩
    split at h
    · next hc =>
      obtain ⟨name, hname, rfl, rfl⟩ := readName_map_sound (Option.some.inj h)
      exact ⟨c :: name, hc ▸ PartText.cls hname, rfl⟩
    split at h
    · next hc =>
      obtain ⟨⟨test, rest⟩, hread, he⟩ := exists_of_map_eq_ok (Option.some.inj h)
      obtain ⟨body, hbody, htest, rfl⟩ := readTest_sound hread
      cases he
      exact ⟨c :: body ++ [']'], hc ▸ PartText.test hbody htest, by simp⟩
    · cases h

theorem readPart?_eq_none (h : Stops isMark cs) : readPart? cs = none := by
  cases cs with
  | nil => rfl
  | cons c cs =>
    have hc := stops_cons.1 h
    simp only [isMark, Bool.or_eq_false_iff, beq_eq_false_iff_ne] at hc
    simp [readPart?, hc]

theorem exists_mark_of_partText (h : PartText t part) : ∃ c u, t = c :: u ∧ isMark c = true := by
  cases h with
  | id => exact ⟨_, _, rfl, rfl⟩
  | uid => exact ⟨_, _, rfl, rfl⟩
  | cls => exact ⟨_, _, rfl, rfl⟩
  | test => exact ⟨_, _, rfl, rfl⟩

theorem isNameChar_of_isMark {c : Char} (h : isMark c = true) : isNameChar c = false := by
  simp only [isMark, Bool.or_eq_true, beq_iff_eq] at h
  rcases h with ((rfl | rfl) | rfl) | rfl <;> decide +kernel

theorem stops_of_partsText (h : PartsText t parts) (hrest : Stops isNameChar rest) :
    Stops isNameChar (t ++ rest) := by
  cases h with
  | nil => exact hrest
  | cons hpart =>
    obtain ⟨c, u, rfl, hc⟩ := exists_mark_of_partText hpart
    exact stops_cons.2 (isNameChar_of_isMark hc)

theorem readParts_cons {mid : List Char} (h : readPart? cs = some (.ok (part, mid))) :
    readParts cs = (readParts mid).map fun r => (part :: r.1, r.2) := by
  rw [readParts]
  split
  · next hnone => simp [h] at hnone
  · next herror => simp [h] at herror
  · next hok =>
    rw [h] at hok
    cases hok
    cases readParts mid <;> rfl

theorem readParts_eq (h : PartsText t parts) (hrest : Stops isNameChar rest) :
    readParts (t ++ rest) = (readParts rest).map fun r => (parts ++ r.1, r.2) := by
  induction h with
  | nil => cases hread : readParts rest <;> simp [hread, Except.map]
  | @cons t ts part parts hpart hparts ih =>
    have hread := readPart?_append hpart (stops_of_partsText hparts hrest)
    rw [List.append_assoc, readParts_cons hread, ih]
    cases readParts rest <;> simp [Except.map]

theorem readParts_append (h : PartsText t parts) (hname : Stops isNameChar rest)
    (hmark : Stops isMark rest) : readParts (t ++ rest) = .ok (parts, rest) := by
  have hend : readParts rest = .ok ([], rest) := by
    rw [readParts]
    split
    · rfl
    · next hread => simp [readPart?_eq_none hmark] at hread
    · next hread => simp [readPart?_eq_none hmark] at hread
  rw [readParts_eq h hname, hend]
  simp [Except.map]

theorem readParts_sound (h : readParts cs = .ok (parts, rest)) :
    ∃ t, PartsText t parts ∧ cs = t ++ rest := by
  fun_induction readParts cs generalizing parts rest with
  | case1 =>
    cases h
    exact ⟨[], PartsText.nil, rfl⟩
  | case2 => cases h
  | case3 => cases h
  | case4 cs part mid hread _ parts' rest' hmore ih =>
    cases h
    obtain ⟨t, hpart, rfl⟩ := readPart?_sound hread
    obtain ⟨ts, hparts, rfl⟩ := ih hmore
    exact ⟨t ++ ts, PartsText.cons hpart hparts, by simp⟩

/-- What a phase without a head begins with. -/
def isOpening (c : Char) : Bool := isMark c || c == ':'

theorem alphanumeric_ne {c d : Char} (hc : isAlphanumeric c = true) (hd : isAlphanumeric d = false) :
    c ≠ d := by
  rintro rfl
  rw [hc] at hd
  cases hd

theorem isAlphanumeric_of_isOpening {c : Char} (h : isOpening c = true) : isAlphanumeric c = false := by
  simp only [isOpening, isMark, Bool.or_eq_true, beq_iff_eq] at h
  rcases h with (((rfl | rfl) | rfl) | rfl) | rfl <;> decide +kernel

theorem readHead_opening {c : Char} (h : isOpening c = true) : readHead (c :: rest) = .ok ([], c :: rest) := by
  have halnum := isAlphanumeric_of_isOpening h
  have hother : c ≠ '/' ∧ c ≠ '>' ∧ c ≠ '*' ∧ c ≠ '_' := by
    simp only [isOpening, isMark, Bool.or_eq_true, beq_iff_eq] at h
    rcases h with (((rfl | rfl) | rfl) | rfl) | rfl <;> decide
  simp [readHead, halnum, hother]

theorem readHead_word {word : List Char} (hword : WordText word) (hrest : Stops isNameChar rest) :
    readHead (word ++ rest) = .ok ([if word.all Char.isDigit then .uid (String.ofList word)
      else .tag (String.ofList word)], rest) := by
  have htake := takeWhile_run hword.1.2 hrest
  have hdrop := dropWhile_run hword.1.2 hrest
  obtain ⟨c, u, rfl⟩ := List.exists_cons_of_ne_nil hword.1.1
  have hc : isAlphanumeric c = true := hword.2 c rfl
  have hslash := alphanumeric_ne hc (show isAlphanumeric '/' = false by decide +kernel)
  have hchild := alphanumeric_ne hc (show isAlphanumeric '>' = false by decide +kernel)
  have hstar := alphanumeric_ne hc (show isAlphanumeric '*' = false by decide +kernel)
  have hscore := alphanumeric_ne hc (show isAlphanumeric '_' = false by decide +kernel)
  rw [List.cons_append] at htake hdrop ⊢
  rw [readHead, if_neg (not_or_intro hslash hchild), if_neg hstar, if_neg hscore, if_pos hc, htake, hdrop]

theorem all_isDigit_iff : t.all Char.isDigit = true ↔ Digits t := List.all_eq_true

theorem readHead_append (h : HeadText t parts) (hrest : Stops isNameChar rest)
    (hopening : t = [] → ∃ c u, rest = c :: u ∧ isOpening c = true) :
    readHead (t ++ rest) = .ok (parts, rest) := by
  cases h with
  | none =>
    obtain ⟨c, u, rfl, hc⟩ := hopening rfl
    exact readHead_opening hc
  | star => simp [readHead]
  | id hname => simp [readHead, readName_append hname hrest]
  | uid hword hdigits => rw [readHead_word hword hrest, if_pos (all_isDigit_iff.2 hdigits)]
  | tag hword hdigits => rw [readHead_word hword hrest, if_neg (mt all_isDigit_iff.1 hdigits)]

theorem readHead_sound (h : readHead cs = .ok (parts, rest)) : ∃ t, HeadText t parts ∧ cs = t ++ rest := by
  cases cs with
  | nil => cases h
  | cons c cs =>
    rw [readHead] at h
    split at h
    · cases h
    split at h
    · next hc =>
      cases h
      exact ⟨['*'], HeadText.star, by simp [hc]⟩
    split at h
    · next hc =>
      split at h
      · cases h
      · next hread =>
        obtain ⟨name, hname, rfl, rfl⟩ := readName_sound hread
        cases h
        exact ⟨'_' :: name, HeadText.id hname, by simp [hc]⟩
    split at h
    · next hc =>
      obtain ⟨word, hrun, hsplit⟩ := exists_run isNameChar (c :: cs)
      have htake : (c :: cs).takeWhile isNameChar = word := by
        rw [hsplit, takeWhile_run hrun (stops_dropWhile _ (c :: cs))]
      -- A letter or digit is a name character, so the word has at least that one.
      have hcons : word = c :: cs.takeWhile isNameChar := by
        rw [← htake, List.takeWhile_cons_of_pos]
        simp [isNameChar, hc]
      have hword : WordText word := by
        rw [hcons] at hrun ⊢
        exact ⟨⟨List.cons_ne_nil _ _, hrun⟩, by simp [hc]⟩
      dsimp only at h
      rw [htake] at h
      cases h
      refine ⟨word, ?_, hsplit⟩
      split
      · next hdigits => exact HeadText.uid hword (all_isDigit_iff.1 hdigits)
      · next hdigits => exact HeadText.tag hword (mt all_isDigit_iff.2 hdigits)
    · cases h
      exact ⟨[], HeadText.none, rfl⟩

end

section
variable {cs rest t : List Char} {m : Modifier}

/-- A phase ends with the text, or before blanks, a slash or a `>`. -/
def isSeparator (c : Char) : Bool := isBlank c || c == '/' || c == '>'

theorem readLimit_append {a digits b : List Char} (ha : Blanks a) (hdigits : Digits digits)
    (hne : digits ≠ []) (hb : Blanks b) (hsize : Decimal.digitsValue digits < UInt64.size) :
    readLimit (a ++ digits ++ b ++ ')' :: rest) =
      .ok (.limit (UInt64.ofNat (Decimal.digitsValue digits)), rest) := by
  have hinside : ∀ c ∈ a ++ digits ++ b, (c != ')') = true := by
    intro c hc
    rw [bne_iff_ne]
    rintro rfl
    simp only [List.mem_append] at hc
    rcases hc with (hc | hc) | hc
    · exact absurd (ha _ hc) (by decide)
    · exact absurd (hdigits _ hc) (by decide)
    · exact absurd (hb _ hc) (by decide)
  have hstop : Stops (· != ')') (')' :: rest) := stops_cons.2 (by decide)
  have htrim : trim (a ++ digits ++ b) = digits := by
    refine trim_append ha hb (fun c hc => ?_) fun c hc => ?_
    · exact isBlank_of_isDigit (hdigits c (List.mem_of_mem_head? hc))
    · exact isBlank_of_isDigit (hdigits c (List.mem_reverse.1 (List.mem_of_mem_head? hc)))
  unfold readLimit
  rw [dropWhile_run hinside hstop, takeWhile_run hinside hstop]
  dsimp only
  rw [htrim, if_neg]
  simpa [hne, all_isDigit_iff] using ⟨hdigits, hsize⟩

theorem readLimit_sound (h : readLimit cs = .ok (m, rest)) : ∃ a digits b, Blanks a ∧ Digits digits ∧
    digits ≠ [] ∧ Blanks b ∧ Decimal.digitsValue digits < UInt64.size ∧
    m = .limit (UInt64.ofNat (Decimal.digitsValue digits)) ∧ cs = a ++ digits ++ b ++ ')' :: rest := by
  obtain ⟨inside, hinside, hsplit⟩ := exists_run (· != ')') cs
  have hstop := stops_dropWhile (· != ')') cs
  have htake : cs.takeWhile (· != ')') = inside := by rw [hsplit, takeWhile_run hinside hstop]
  unfold readLimit at h
  rw [htake] at h
  split at h
  · cases h
  · next c rest' hrest =>
    rw [hrest] at hsplit hstop
    have hc : c = ')' := by simpa using stops_cons.1 hstop
    subst hc
    dsimp only at h
    split at h
    · cases h
    · next hgood =>
      simp only [Bool.or_eq_true, List.isEmpty_iff, Bool.not_eq_true', decide_eq_true_eq, not_or,
        Bool.not_eq_false, not_le] at hgood
      obtain ⟨a, b, ha, hb, htrim, -⟩ := trimmed_trim inside
      cases h
      refine ⟨a, trim inside, b, ha, all_isDigit_iff.1 hgood.1.2, hgood.1.1, hb, hgood.2, rfl, ?_⟩
      rw [← htrim]
      exact hsplit

theorem isNameChar_of_isSeparator {c : Char} (h : isSeparator c = true) : isNameChar c = false := by
  simp only [isSeparator, Bool.or_eq_true, beq_iff_eq] at h
  rcases h with (h | rfl) | rfl
  · have hhyphen : c ≠ '-' := by rintro rfl; exact absurd h (by decide)
    have hscore : c ≠ '_' := by rintro rfl; exact absurd h (by decide)
    simp [isNameChar, isAlphanumeric_of_isBlank h, hhyphen, hscore]
  · decide +kernel
  · decide +kernel

theorem isNameChar_of_isBlank {c : Char} (h : isBlank c = true) : isNameChar c = false :=
  isNameChar_of_isSeparator (by simp [isSeparator, h])

theorem isNameChar_of_isOperatorChar {c : Char} (h : isOperatorChar c = true) : isNameChar c = false := by
  simp only [isOperatorChar, Bool.or_eq_true, beq_iff_eq] at h
  rcases h with (((((((rfl | rfl) | rfl) | rfl) | rfl) | rfl) | rfl) | rfl) | rfl <;> decide +kernel

end

end Selector

end Grove
