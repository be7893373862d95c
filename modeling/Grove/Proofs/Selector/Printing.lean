import Grove.Proofs.Number.ReadBack
import Grove.Proofs.Selector.Acceptance
import Grove.Selector.Printer
/-!
# Printed selectors read back

The text of a selector derives that selector again, as long as its tests are legible: between brackets
the quotes of a field and of a value come in pairs, and no value begins like an operator. What a text does
not keep is the sign of a negative zero.
-/

set_option autoImplicit false

namespace Grove

open Grammar Text

def Literal.written : Literal → Literal
  | .number n => .number n.shown
  | .text s => .text s

def Predicate.written (p : Predicate) : Predicate := { p with value := p.value.written }

def Phase.written (p : Phase) : Phase := { p with tests := p.tests.map Predicate.written }

def Leg.written (leg : Leg) : Leg := ⟨leg.head.written, leg.tail.map fun step => (step.1, step.2.written)⟩

def Selector.written (s : Selector) : Selector := ⟨s.legs.map Leg.written⟩

namespace Grammar

section
variable {a b t : List Char}

theorem Body.append (ha : Body a) (hb : Body b) : Body (a ++ b) := by
  induction ha with
  | nil => exact hb
  | char hc hq _ ih => exact Body.char hc hq ih
  | @quote q inner t hq hinner _ ih =>
    rw [List.cons_append, List.append_assoc, List.cons_append]
    exact Body.quote hq hinner ih

theorem body_of_plain (h : ∀ c ∈ t, c ≠ ']' ∧ ¬ IsQuote c) : Body t := by
  induction t with
  | nil => exact Body.nil
  | cons c t ih =>
    have hc := h c (List.mem_cons_self ..)
    exact Body.char hc.1 hc.2 (ih fun d hd => h d (List.mem_cons_of_mem _ hd))

end

end Grammar

namespace Literal

section
variable {q : Char} {t : List Char} {l : Literal} {s : String}

def escaped (quote : Char) (text : List Char) : List Char :=
  text.flatMap fun c => if c = quote ∨ c = '\\' then ['\\', c] else [c]

theorem quoted_eq (q : Char) (t : List Char) : quoted q t = q :: (escaped q t ++ [q]) := rfl

theorem quoted_escaped (q : Char) (t : List Char) : Quoted q (escaped q t) := by
  unfold escaped
  induction t with
  | nil => exact Quoted.nil
  | cons c t ih =>
    rw [List.flatMap_cons]
    split
    · exact Quoted.escape c ih
    · next hc =>
      obtain ⟨hquote, hslash⟩ := not_or.1 hc
      exact Quoted.char hslash hquote ih

theorem unescaped_escaped (q : Char) (t : List Char) : Unescaped (escaped q t) t := by
  unfold escaped
  induction t with
  | nil => exact Unescaped.nil
  | cons c t ih =>
    rw [List.flatMap_cons]
    split
    · exact Unescaped.escape c ih
    · next hc => exact Unescaped.char (not_or.1 hc).2 ih

theorem isQuote_quoteFor (t : List Char) : IsQuote (quoteFor t) := by
  unfold quoteFor IsQuote
  split <;> simp

def Finite : Literal → Prop
  | .number n => n.isFinite = true
  | .text _ => True

theorem spell_text (s : String) : spell (.text s) = quoted (quoteFor s.toList) s.toList ∨
    spell (.text s) = s.toList ∧ s.toList ≠ [] ∧ numeric? s.toList = none ∧
      ∀ c ∈ s.toList, needsQuotes c = false := by
  unfold spell
  dsimp only
  split
  · exact Or.inl rfl
  · next h =>
    simp only [Bool.or_eq_true, not_or, Bool.not_eq_true, List.isEmpty_eq_false_iff,
      Option.isSome_eq_false_iff, Option.isNone_iff_eq_none, List.any_eq_false] at h
    exact Or.inr ⟨rfl, h.1.1, h.1.2, by simpa using h.2⟩

theorem isNumberChar_of_numberText (h : Decimal.NumberText t) : ∀ c ∈ t, isNumberChar c = true := by
  intro c hc
  rcases Decimal.mem_numberText h hc with hdigit | rfl | rfl
  · simp [isNumberChar, hdigit]
  · rfl
  · rfl

theorem numeric?_plainText {x : Binary64} (hx : x.isFinite = true) :
    numeric? (Decimal.plainText x) = some x.shown := by
  have htext := Decimal.numberText_plainText hx
  have hany : (Decimal.plainText x).any Char.isDigit = true := by
    simpa using Decimal.exists_digit_of_numberText htext
  have hall : (Decimal.plainText x).all isNumberChar = true :=
    List.all_eq_true.2 (isNumberChar_of_numberText htext)
  unfold numeric?
  rw [hany, hall, Decimal.read?_plainText hx]
  simp [Binary64.isFinite_shown hx]

theorem plain_of_isNumberChar {c : Char} (h : isNumberChar c = true) :
    isBlank c = false ∧ Selector.isOperatorChar c = false ∧ c ≠ ']' ∧ ¬ IsQuote c := by
  have hcases : c.isDigit = true ∨ c ∈ ['.', '-', '+', 'e', 'E'] := by
    simpa [isNumberChar, or_assoc] using h
  rcases hcases with hdigit | hc
  · have hne : ∀ d : Char, d.isDigit = false → c ≠ d := by
      rintro d hd rfl
      rw [hdigit] at hd
      cases hd
    refine ⟨isBlank_of_isDigit hdigit, ?_, hne _ rfl, not_or.2 ⟨hne _ rfl, hne _ rfl⟩⟩
    simp [Selector.isOperatorChar, hne]
  · fin_cases hc <;> decide +kernel

theorem plain_of_needsQuotes {c : Char} (h : needsQuotes c = false) :
    isBlank c = false ∧ c ≠ ']' ∧ ¬ IsQuote c := by
  simp only [needsQuotes, Bool.or_eq_false_iff, beq_eq_false_iff_ne] at h
  obtain ⟨⟨⟨⟨⟨hblank, hbracket⟩, hdouble⟩, hsingle⟩, -⟩, -⟩ := h
  exact ⟨hblank, hbracket, not_or.2 ⟨hdouble, hsingle⟩⟩

/-- A spelled literal stands between quotes, or has no character that would need them. -/
theorem spell_cases (hl : l.Finite) : (∃ q t, IsQuote q ∧ l.spell = quoted q t) ∨
    ∀ c ∈ l.spell, isBlank c = false ∧ c ≠ ']' ∧ ¬ IsQuote c := by
  cases l with
  | number n =>
    refine Or.inr fun c hc => ?_
    have hplain := plain_of_isNumberChar
      (isNumberChar_of_numberText (Decimal.numberText_plainText hl) c hc)
    exact ⟨hplain.1, hplain.2.2⟩
  | text s =>
    rcases spell_text s with hquoted | ⟨hbare, -, -, hneeds⟩
    · exact Or.inl ⟨_, _, isQuote_quoteFor _, hquoted⟩
    · rw [hbare]
      exact Or.inr fun c hc => plain_of_needsQuotes (hneeds c hc)

theorem body_spell (hl : l.Finite) : Body l.spell := by
  rcases spell_cases hl with ⟨q, t, hq, hspell⟩ | hplain
  · rw [hspell, quoted_eq]
    exact Body.quote hq (quoted_escaped q t) Body.nil
  · exact body_of_plain fun c hc => (hplain c hc).2

theorem trimmed_spell (hl : l.Finite) : Trimmed l.spell l.spell := by
  have hends : Stops isBlank l.spell ∧ Stops isBlank l.spell.reverse := by
    rcases spell_cases hl with ⟨q, t, hq, hspell⟩ | hplain
    · have hblank : isBlank q = false := by rcases hq with rfl | rfl <;> decide +kernel
      rw [hspell, quoted_eq]
      refine ⟨stops_cons.2 hblank, ?_⟩
      rw [← List.cons_append, List.reverse_append]
      exact stops_cons.2 hblank
    · exact ⟨fun c hc => (hplain c (List.mem_of_mem_head? hc)).1,
        fun c hc => (hplain c (List.mem_reverse.1 (List.mem_of_mem_head? hc))).1⟩
  exact ⟨[], [], blanks_nil, blanks_nil, by simp, hends⟩

theorem not_enclosed_of_plain (h : ∀ c ∈ t, ¬ IsQuote c) (inner : List Char) : ¬ Enclosed t inner := by
  rintro ⟨q, hq, rfl⟩
  exact h q (List.mem_cons_self ..) hq

theorem value_spell (hl : l.Finite) : Value l.spell l.written := by
  cases l with
  | number n => exact Value.number (numeric?_plainText hl)
  | text s =>
    rcases spell_text s with hquoted | ⟨hbare, -, hnumeric, hneeds⟩
    · rw [hquoted, quoted_eq]
      have h := Value.quoted ⟨_, isQuote_quoteFor s.toList, rfl⟩ (unescaped_escaped (quoteFor s.toList) s.toList)
      rwa [String.ofList_toList] at h
    · rw [hbare]
      have h := Value.bare (not_enclosed_of_plain fun c hc => (plain_of_needsQuotes (hneeds c hc)).2.2) hnumeric
      rwa [String.ofList_toList] at h

end

end Literal

namespace Predicate

/-- What holds of every test that was read from a text. -/
structure WellFormed (p : Predicate) : Prop where
  field_ne : p.field.toList ≠ []
  field_trimmed : Trimmed p.field.toList p.field.toList
  field_plain : ∀ c ∈ p.field.toList, Selector.isOperatorChar c = false
  value_finite : p.value.Finite

/-- A test whose text is taken as it stands: the bracket ends after the value, and the operator before it. -/
structure Legible (p : Predicate) : Prop where
  body : Body (p.field.toList ++ p.operator.spell ++ p.value.spell)
  starts : Stops Selector.isOperatorChar p.value.spell

theorem test_spell {p : Predicate} (h : p.WellFormed) (hstarts : Stops Selector.isOperatorChar p.value.spell) :
    Test (p.field.toList ++ p.operator.spell ++ p.value.spell) p.written := by
  have htest : Test (p.field.toList ++ p.operator.spell ++ p.value.spell)
      ⟨String.ofList p.field.toList, p.operator, p.value.written⟩ :=
    Test.mk h.field_plain h.field_trimmed h.field_ne hstarts (Literal.trimmed_spell h.value_finite)
      (Literal.value_spell h.value_finite)
  rwa [String.ofList_toList] at htest

theorem partText_spell {p : Predicate} (h : p.WellFormed) (hlegible : p.Legible) :
    PartText p.spell (.test p.written) :=
  PartText.test hlegible.body (test_spell h hlegible.starts)

end Predicate

theorem Modifier.modifierText_spell (m : Modifier) : ModifierText m.spell m := by
  cases m with
  | first => exact ModifierText.first
  | last => exact ModifierText.last
  | limit count =>
    have hlt : Decimal.digitsValue (Decimal.natDigits count.toNat) < UInt64.size := by
      rw [Decimal.digitsValue_natDigits]
      exact count.toNat_lt_size
    have h := ModifierText.limit blanks_nil (fun c hc => Decimal.isDigit_of_mem_natDigits hc)
      (Decimal.natDigits_ne_nil count.toNat) blanks_nil hlt
    rw [Decimal.digitsValue_natDigits, UInt64.ofNat_toNat] at h
    have htext : Modifier.spell (.limit count) =
        ':' :: ("limit".toList ++ '(' :: ([] ++ Decimal.natDigits count.toNat ++ [] ++ [')'])) := by
      rw [List.append_nil]
      rfl
    rw [htext]
    exact h

theorem endText_spell (m : Option Modifier) : EndText ((m.map Modifier.spell).getD []) m := by
  cases m with
  | none => exact EndText.none
  | some m => exact EndText.some m.modifierText_spell

namespace Phase

/-- Every name of a phase is one that a text can show in its place. -/
structure Named (p : Phase) : Prop where
  tag : ∀ name ∈ p.tag, WordText name.toList ∧ ¬ Digits name.toList
  id : ∀ name ∈ p.id, Name name.toList
  uid : ∀ name ∈ p.uid, Name name.toList
  classes : ∀ name ∈ p.classes.names, Name name.toList

instance (p : Phase) : Decidable p.Named :=
  decidable_of_iff ((∀ name ∈ p.tag, WordText name.toList ∧ ¬ Digits name.toList) ∧
    (∀ name ∈ p.id, Name name.toList) ∧ (∀ name ∈ p.uid, Name name.toList) ∧
    ∀ name ∈ p.classes.names, Name name.toList)
    ⟨fun ⟨htag, hid, huid, hclasses⟩ => ⟨htag, hid, huid, hclasses⟩,
      fun h => ⟨h.tag, h.id, h.uid, h.classes⟩⟩

structure WellFormed (p : Phase) : Prop extends Named p where
  tests : ∀ test ∈ p.tests, test.WellFormed

def Legible (p : Phase) : Prop := ∀ test ∈ p.tests, test.Legible

/-- What a phase shows between its tag and its tests. -/
def namedParts (p : Phase) : List Selector.Part :=
  (p.uid.map .uid).toList ++ (p.id.map .id).toList ++ p.classes.names.map .cls

/-- What a phase shows between its tag and its modifier. -/
def parts (p : Phase) : List Selector.Part := p.namedParts ++ p.tests.map .test

def spellNames (p : Phase) : List Char :=
  spellMarked ['='] p.uid ++ spellMarked ['#'] p.id ++ p.classes.names.flatMap (fun name => '.' :: name.toList)

theorem spellConditions_eq (p : Phase) :
    p.spellConditions = spellMarked [] p.tag ++ (p.spellNames ++ p.tests.flatMap Predicate.spell) := by
  simp [spellConditions, spellNames]

end Phase

namespace Grammar

variable {t u : List Char} {ps qs : List Selector.Part}

theorem PartsText.append (ht : PartsText t ps) (hu : PartsText u qs) : PartsText (t ++ u) (ps ++ qs) := by
  induction ht with
  | nil => exact hu
  | cons hpart _ ih =>
    rw [List.append_assoc]
    exact PartsText.cons hpart ih

theorem partsText_flatMap {α : Type} {xs : List α} {f : α → List Char} {g : α → Selector.Part}
    (h : ∀ x ∈ xs, PartText (f x) (g x)) : PartsText (xs.flatMap f) (xs.map g) := by
  induction xs with
  | nil => exact PartsText.nil
  | cons x xs ih =>
    exact PartsText.cons (h x (List.mem_cons_self ..)) (ih fun y hy => h y (List.mem_cons_of_mem _ hy))

theorem partsText_marked {mark : List Char} {name? : Option String} {g : String → Selector.Part}
    (h : ∀ name ∈ name?, PartText (mark ++ name.toList) (g name)) :
    PartsText (spellMarked mark name?) (name?.map g).toList := by
  cases name? with
  | none => exact PartsText.nil
  | some name =>
    have hcons := PartsText.cons (h name rfl) PartsText.nil
    rwa [List.append_nil] at hcons

end Grammar

namespace Phase

variable {p : Phase}

theorem Named.headText (h : p.Named) : HeadText (spellMarked [] p.tag) (p.tag.map .tag).toList := by
  cases htag : p.tag with
  | none => exact HeadText.none
  | some name =>
    obtain ⟨hword, hnot⟩ := h.tag name htag
    have hhead := HeadText.tag hword hnot
    rwa [String.ofList_toList] at hhead

theorem Named.partsText (h : p.Named) : PartsText p.spellNames p.namedParts := by
  have huid : ∀ name ∈ p.uid, PartText (['='] ++ name.toList) (.uid name) := fun name hname => by
    have hpart := PartText.uid (h.uid name hname)
    rwa [String.ofList_toList] at hpart
  have hid : ∀ name ∈ p.id, PartText (['#'] ++ name.toList) (.id name) := fun name hname => by
    have hpart := PartText.id (h.id name hname)
    rwa [String.ofList_toList] at hpart
  have hcls : ∀ name ∈ p.classes.names, PartText ('.' :: name.toList) (.cls name) := fun name hname => by
    have hpart := PartText.cls (h.classes name hname)
    rwa [String.ofList_toList] at hpart
  exact ((partsText_marked huid).append (partsText_marked hid)).append (partsText_flatMap hcls)

theorem WellFormed.partsText (h : p.WellFormed) (hlegible : p.Legible) :
    PartsText (p.spellNames ++ p.tests.flatMap Predicate.spell) p.written.parts := by
  have htests : ∀ test ∈ p.tests, PartText test.spell (.test test.written) :=
    fun test htest => Predicate.partText_spell (h.tests test htest) (hlegible test htest)
  have hparts := h.toNamed.partsText.append (partsText_flatMap htests)
  simpa [parts, namedParts, written, Function.comp_def] using hparts

theorem eraseDups_of_nodup {names : List String} (h : names.Nodup) : names.eraseDups = names := by
  induction names using List.reverseRecOn with
  | nil => rfl
  | append_singleton names name ih =>
    obtain ⟨hnames, -, hnew⟩ := List.nodup_append.1 h
    have hnot : name ∉ names := fun hmem => hnew name hmem name (List.mem_singleton_self _) rfl
    rw [Selector.eraseDups_concat, if_neg hnot, ih hnames]

theorem gathers_parts (p : Phase) : Gathers ((p.tag.map .tag).toList ++ p.parts) p.modifier p := by
  have hclasses := eraseDups_of_nodup p.classes.nodup
  obtain ⟨tag, id, uid, classes, tests, modifier⟩ := p
  dsimp only at hclasses
  have hfilter : ∀ {α : Type} (f : Selector.Part → Option α) (g : String → Selector.Part) (name? : Option String),
      (name?.map g).toList.filterMap f = name?.toList.filterMap fun name => f (g name) := by
    intro α f g name?
    cases name? <;> rfl
  have hlast : ∀ name? : Option String, name?.toList.getLast? = name? := by
    intro name?
    cases name? <;> rfl
  constructor <;>
    simp [parts, namedParts, hlast, List.filterMap_append, List.filterMap_map, Function.comp_def, hfilter, Selector.Part.tag?,
      Selector.Part.id?, Selector.Part.uid?, Selector.Part.cls?, Selector.Part.test?, hclasses]

theorem isWildcard_iff : p.isWildcard = true ↔ p.tag = none ∧ p.parts = [] := by
  simp only [isWildcard, parts, namedParts, Bool.and_eq_true, Option.isNone_iff_eq_none, List.isEmpty_iff,
    ClassSet.isEmpty, List.append_eq_nil_iff, Option.toList_eq_nil_iff, Option.map_eq_none_iff,
    List.map_eq_nil_iff]
  tauto

theorem isWildcard_written (p : Phase) : p.written.isWildcard = p.isWildcard := by
  simp [isWildcard, written, List.isEmpty_map]

theorem head_of_endText {e : List Char} {m : Option Modifier} (h : EndText e m) : ∀ c ∈ e.head?, c = ':' := by
  cases h with
  | none => simp
  | some hm => cases hm <;> exact fun c hc => (Option.some.inj hc).symm

theorem opening_tests (p : Phase) : ∀ c ∈ (p.tests.flatMap Predicate.spell ++
    (p.modifier.map Modifier.spell).getD []).head?, Selector.isOpening c = true := by
  refine forall_head?_append ?_ fun c hc => ?_
  · cases p.tests with
    | nil => simp
    | cons test tests =>
      intro c hc
      rw [← Option.some.inj hc]
      rfl
  · rw [head_of_endText (endText_spell p.modifier) c hc]
    rfl

theorem Named.opening (h : p.Named) : ∀ c ∈ (p.spellNames ++ (p.tests.flatMap Predicate.spell ++
    (p.modifier.map Modifier.spell).getD [])).head?, Selector.isOpening c = true := by
  refine forall_head?_append ?_ p.opening_tests
  have hparts := h.partsText
  generalize p.spellNames = t, p.namedParts = ps at hparts
  cases hparts with
  | nil => simp
  | cons hpart =>
    obtain ⟨c, u, rfl, hc⟩ := Selector.exists_mark_of_partText hpart
    simp [Selector.isOpening, hc]

theorem spell_eq (p : Phase) (h : p.isWildcard = false) : p.spell = spellMarked [] p.tag ++
    (p.spellNames ++ (p.tests.flatMap Predicate.spell ++ (p.modifier.map Modifier.spell).getD [])) := by
  simp [spell, h, spellConditions_eq]

theorem afterTag_ne_nil (h : p.isWildcard = false) (htag : p.tag = none) : p.spellNames ++
    (p.tests.flatMap Predicate.spell ++ (p.modifier.map Modifier.spell).getD []) ≠ [] := by
  intro hnil
  simp only [List.append_eq_nil_iff, spellNames, List.flatMap_eq_nil_iff] at hnil
  obtain ⟨⟨⟨huid, hid⟩, hclasses⟩, htests, -⟩ := hnil
  have hmarked : ∀ {c : Char} {name? : Option String}, spellMarked [c] name? = [] → name? = none := by
    intro c name? hmarked
    cases name? with
    | none => rfl
    | some name => cases hmarked
  have hnames : p.classes.names = [] := List.eq_nil_iff_forall_not_mem.2 fun name hname => by
    cases hclasses name hname
  have hempty : p.tests = [] := List.eq_nil_iff_forall_not_mem.2 fun test htest => by
    cases htests test htest
  simp [isWildcard, htag, hmarked huid, hmarked hid, ClassSet.isEmpty, hnames, hempty] at h

theorem Named.exists_start (h : p.Named) : ∃ c u, p.spell = c :: u ∧ Selector.isSeparator c = false := by
  cases hwild : p.isWildcard with
  | true => exact ⟨'*', _, by simp [spell, hwild]; rfl, by decide +kernel⟩
  | false =>
    rw [spell_eq p hwild]
    cases htag : p.tag with
    | some name =>
      obtain ⟨hword, -⟩ := h.tag name htag
      obtain ⟨c, u, hname⟩ := List.exists_cons_of_ne_nil hword.1.1
      refine ⟨c, _, by simp [spellMarked, hname]; rfl, Selector.isSeparator_of_isAlphanumeric ?_⟩
      exact hword.2 c (by simp [hname])
    | none =>
      obtain ⟨c, u, hcu⟩ := List.exists_cons_of_ne_nil (afterTag_ne_nil hwild htag)
      have hopening := h.opening
      rw [hcu] at hopening ⊢
      exact ⟨c, u, rfl, Selector.isSeparator_of_isOpening (hopening c rfl)⟩

theorem phaseText_spell (h : p.WellFormed) (hlegible : p.Legible) : PhaseText p.spell p.written := by
  have hgathers := gathers_parts p.written
  have hend := endText_spell p.modifier
  have hwritten : p.written.isWildcard = true ↔ p.tag = none ∧ p.written.parts = [] := isWildcard_iff
  rw [isWildcard_written] at hwritten
  obtain ⟨c, u, hstart, -⟩ := h.toNamed.exists_start
  cases hwild : p.isWildcard with
  | true =>
    obtain ⟨htag, hparts⟩ := hwritten.1 hwild
    rw [hparts, show p.written.tag = none from htag] at hgathers
    have htext := PhaseText.mk HeadText.star PartsText.nil hend (by simp) hgathers
    simpa [spell, hwild] using htext
  | false =>
    have hspell : p.spell = spellMarked [] p.tag ++ (p.spellNames ++ p.tests.flatMap Predicate.spell) ++
        (p.modifier.map Modifier.spell).getD [] := by simp [spell_eq p hwild]
    rw [hspell] at hstart ⊢
    exact PhaseText.mk h.toNamed.headText (h.partsText hlegible) hend (by simp [hstart]) hgathers

end Phase

def Selector.WellFormed (s : Selector) : Prop := s.legs ≠ [] ∧ ∀ leg ∈ s.legs, ∀ p ∈ leg.phases, p.WellFormed

def Selector.Legible (s : Selector) : Prop := ∀ leg ∈ s.legs, ∀ p ∈ leg.phases, p.Legible

theorem tailText_spell {tail : List (Combinator × Phase)} (h : ∀ step ∈ tail, step.2.WellFormed)
    (hlegible : ∀ step ∈ tail, step.2.Legible) :
    TailText (tail.flatMap spellStep) (tail.map fun step => (step.1, step.2.written)) := by
  induction tail with
  | nil => exact TailText.nil
  | cons step tail ih =>
    obtain ⟨combinator, p⟩ := step
    rw [List.forall_mem_cons] at h hlegible
    have hp := Phase.phaseText_spell h.1 hlegible.1
    have htail := ih h.2 hlegible.2
    cases combinator with
    | descendant => exact TailText.descendant blanks_space (by simp) hp htail
    | child => exact TailText.child blanks_space blanks_space hp htail

theorem Leg.legText_spell {leg : Leg} (h : ∀ p ∈ leg.phases, p.WellFormed)
    (hlegible : ∀ p ∈ leg.phases, p.Legible) : LegText leg.spell leg.written := by
  unfold Leg.phases at h hlegible
  rw [List.forall_mem_cons, List.forall_mem_map] at h hlegible
  exact LegText.mk (Phase.phaseText_spell h.1 hlegible.1) (tailText_spell h.2 hlegible.2)

theorem Grammar.LegsText.blank {t : List Char} {legs : List Leg} {c : Char} (hc : isBlank c = true)
    (h : LegsText t legs) : LegsText (c :: t) legs := by
  have hcons : ∀ {a : List Char}, Blanks a → Blanks (c :: a) := by
    intro a ha d hd
    rcases List.mem_cons.1 hd with rfl | hd
    · exact hc
    · exact ha d hd
  cases h with
  | last ha hleg hb => exact LegsText.last (hcons ha) hleg hb
  | more ha hleg hb hlegs => exact LegsText.more (hcons ha) hleg hb hlegs

theorem legsText_spell {legs : List Leg} (hne : legs ≠ [])
    (h : ∀ leg ∈ legs, ∀ p ∈ leg.phases, p.WellFormed) (hlegible : ∀ leg ∈ legs, ∀ p ∈ leg.phases, p.Legible) :
    LegsText (List.intercalate [' ', '/', ' '] (legs.map Leg.spell)) (legs.map Leg.written) := by
  induction legs with
  | nil => exact absurd rfl hne
  | cons leg legs ih =>
    rw [List.forall_mem_cons] at h hlegible
    have hleg := Leg.legText_spell h.1 hlegible.1
    cases legs with
    | nil =>
      have hlast := LegsText.last blanks_nil hleg blanks_nil
      simpa [List.intercalate] using hlast
    | cons next legs =>
      -- The blank after a slash belongs to the legs that follow.
      have hrest := (ih (by simp) h.2 hlegible.2).blank (blanks_space _ (List.mem_singleton_self _))
      have hmore := LegsText.more blanks_nil hleg blanks_space hrest
      simpa [List.intercalate] using hmore

theorem Selector.ofChars_spell {s : Selector} (h : s.WellFormed) (hlegible : s.Legible) :
    ofChars s.spell = .ok s.written :=
  ofChars_of_derives (legsText_spell h.1 h.2 hlegible)

end Grove
