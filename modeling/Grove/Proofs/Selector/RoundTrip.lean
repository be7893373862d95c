import Grove.Proofs.Selector.Printing
/-!
# Texts to selectors and back

Whatever is read is well formed, and reads back from its printed form where its tests are legible. A selector
made by hand reads back under conditions on its names, fields and values alone.
-/

set_option autoImplicit false

namespace Grove

open Grammar Text

def Selector.Part.WellFormed : Part → Prop
  | tag name => WordText name.toList ∧ ¬ Digits name.toList
  | id name => Name name.toList
  | uid name => Name name.toList
  | cls name => Name name.toList
  | test p => p.WellFormed

section
variable {t : List Char} {part : Selector.Part} {parts : List Selector.Part} {p : Phase}

theorem Literal.finite_of_numeric? {n : Binary64} (h : numeric? t = some n) : n.isFinite = true := by
  simp only [numeric?, Option.ite_none_right_eq_some, Option.filter_eq_some_iff] at h
  exact h.2.2

theorem finite_of_value {l : Literal} (h : Value t l) : l.Finite := by
  cases h with
  | quoted => exact trivial
  | number hn => exact Literal.finite_of_numeric? hn
  | bare => exact trivial

theorem Grammar.Test.wellFormed {test : Predicate} (h : Test t test) : test.WellFormed := by
  cases h with
  | @mk before after field value operator literal hbefore hfield hne _ _ hliteral =>
    obtain ⟨a, b, -, -, rfl, hstop, hstop'⟩ := hfield
    have htoList : (String.ofList field).toList = field := String.toList_ofList
    refine ⟨by rwa [htoList], ?_, ?_, finite_of_value hliteral⟩
    · rw [htoList]
      exact ⟨[], [], blanks_nil, blanks_nil, by simp, hstop, hstop'⟩
    · rw [htoList]
      exact fun c hc => hbefore c (by simp [hc])

theorem Grammar.PartText.wellFormed (h : PartText t part) : part.WellFormed := by
  cases h with
  | test _ htest => exact htest.wellFormed
  | id hname | uid hname | cls hname =>
    simpa [Selector.Part.WellFormed, String.toList_ofList] using hname

theorem Grammar.PartsText.wellFormed (h : PartsText t parts) : ∀ part ∈ parts, part.WellFormed := by
  induction h with
  | nil => simp
  | cons hpart _ ih => exact List.forall_mem_cons.2 ⟨hpart.wellFormed, ih⟩

theorem Grammar.HeadText.wellFormed (h : HeadText t parts) : ∀ part ∈ parts, part.WellFormed := by
  cases h with
  | none | star => simp
  | id hname => simpa [Selector.Part.WellFormed, String.toList_ofList] using hname
  | uid hword _ => simpa [Selector.Part.WellFormed, String.toList_ofList] using hword.1
  | tag hword hnot => simpa [Selector.Part.WellFormed, String.toList_ofList] using ⟨hword, hnot⟩

theorem Grammar.Gathers.wellFormed {modifier : Option Modifier} (h : Gathers parts modifier p)
    (hparts : ∀ part ∈ parts, part.WellFormed) : p.WellFormed := by
  have hfrom : ∀ {α : Type} {f : Selector.Part → Option α} {x : α}, x ∈ parts.filterMap f →
      ∃ part, part.WellFormed ∧ f part = some x := by
    intro α f x hx
    obtain ⟨part, hmem, hpart⟩ := List.mem_filterMap.1 hx
    exact ⟨part, hparts part hmem, hpart⟩
  refine ⟨⟨fun name hname => ?_, fun name hname => ?_, fun name hname => ?_, fun name hname => ?_⟩,
    fun test htest => ?_⟩
  · rw [h.tag] at hname
    obtain ⟨part, hpart, he⟩ := hfrom (List.mem_of_getLast? hname)
    cases part <;> cases he
    exact hpart
  · rw [h.id] at hname
    obtain ⟨part, hpart, he⟩ := hfrom (List.mem_of_getLast? hname)
    cases part <;> cases he
    exact hpart
  · rw [h.uid] at hname
    obtain ⟨part, hpart, he⟩ := hfrom (List.mem_of_getLast? hname)
    cases part <;> cases he
    exact hpart
  · rw [h.classes, List.mem_eraseDups] at hname
    obtain ⟨part, hpart, he⟩ := hfrom hname
    cases part <;> cases he
    exact hpart
  · rw [h.tests] at htest
    obtain ⟨part, hpart, he⟩ := hfrom htest
    cases part <;> cases he
    exact hpart

theorem Grammar.PhaseText.wellFormed (h : PhaseText t p) : p.WellFormed := by
  cases h with
  | mk hhead hparts _ _ hgathers =>
    refine hgathers.wellFormed fun part hpart => ?_
    exact (List.mem_append.1 hpart).elim (hhead.wellFormed part) (hparts.wellFormed part)

theorem Grammar.TailText.wellFormed {tail : List (Combinator × Phase)} (h : TailText t tail) :
    ∀ step ∈ tail, step.2.WellFormed := by
  induction h with
  | nil => simp
  | descendant _ _ hphase _ ih => exact List.forall_mem_cons.2 ⟨hphase.wellFormed, ih⟩
  | child _ _ hphase _ ih => exact List.forall_mem_cons.2 ⟨hphase.wellFormed, ih⟩

theorem Grammar.LegText.wellFormed {leg : Leg} (h : LegText t leg) : ∀ p ∈ leg.phases, p.WellFormed := by
  cases h with
  | mk hphase htail =>
    unfold Leg.phases
    rw [List.forall_mem_cons, List.forall_mem_map]
    exact ⟨hphase.wellFormed, htail.wellFormed⟩

theorem Grammar.LegsText.wellFormed {legs : List Leg} (h : LegsText t legs) :
    legs ≠ [] ∧ ∀ leg ∈ legs, ∀ p ∈ leg.phases, p.WellFormed := by
  induction h with
  | last _ hleg _ => exact ⟨by simp, by simpa using hleg.wellFormed⟩
  | more _ hleg _ _ ih => exact ⟨by simp, List.forall_mem_cons.2 ⟨hleg.wellFormed, ih.2⟩⟩

theorem Selector.wellFormed_of_ofChars {s : Selector} (h : Selector.ofChars t = .ok s) : s.WellFormed :=
  (Selector.derives_of_ofChars h).wellFormed

end

theorem Literal.agrees_written {l : Literal} (h : l.Finite) : l.written.agrees l = true := by
  cases l with
  | number n => exact Binary64.shown_equal h
  | text s => simp [written, agrees]

theorem all_zip_map {α : Type} {r : α → α → Bool} {f : α → α} {l : List α} (h : ∀ x ∈ l, r (f x) x = true) :
    ((l.map f).zip l).all (fun p => r p.1 p.2) = true := by
  induction l with
  | nil => rfl
  | cons x l ih =>
    rw [List.forall_mem_cons] at h
    simp [h.1, ih h.2]

theorem Predicate.agrees_written {p : Predicate} (h : p.WellFormed) : p.written.agrees p = true := by
  simp [agrees, written, Literal.agrees_written h.value_finite]

theorem Phase.agrees_written {p : Phase} (h : p.WellFormed) : p.written.agrees p = true := by
  have htests := all_zip_map fun test htest => Predicate.agrees_written (h.tests test htest)
  simp [agrees, written, ClassSet.agrees_refl, htests]

theorem Leg.agrees_written {leg : Leg} (h : ∀ p ∈ leg.phases, p.WellFormed) : leg.written.agrees leg = true := by
  unfold Leg.phases at h
  rw [List.forall_mem_cons, List.forall_mem_map] at h
  have htail := all_zip_map (r := fun a b => a.1 == b.1 && a.2.agrees b.2)
    (f := fun step : Combinator × Phase => (step.1, step.2.written)) (l := leg.tail)
    fun step hstep => by simp [Phase.agrees_written (h.2 step hstep)]
  simp [agrees, written, Phase.agrees_written h.1, htail]

theorem Selector.agrees_written {s : Selector} (h : s.WellFormed) : s.written.agrees s = true := by
  have hlegs := all_zip_map fun leg hleg => Leg.agrees_written (h.2 leg hleg)
  simp [agrees, written, hlegs]

theorem Phase.ofString_spell {p : Phase} (h : p.WellFormed) (hlegible : p.Legible) :
    ofString (String.ofList p.spell) = .ok p.written := by
  refine ofString_eq_ok_iff_phaseText.2
    ⟨[], p.spell, [], blanks_nil, phaseText_spell h hlegible, blanks_nil, ?_⟩
  rw [String.toList_ofList, List.append_nil, List.nil_append]

theorem Selector.ofString_spell {s : Selector} (h : s.WellFormed) (hlegible : s.Legible) :
    ofString (String.ofList s.spell) = .ok s.written := by
  unfold ofString
  rw [String.toList_ofList]
  exact ofChars_spell h hlegible

/-- A finite number, or a text that does not begin like an operator where it stands without quotes. -/
def Literal.Printable : Literal → Prop
  | .number n => n.isFinite = true
  | .text s => spell (.text s) = s.toList → Stops Selector.isOperatorChar s.toList

structure Predicate.Printable (p : Predicate) : Prop where
  field_ne : p.field.toList ≠ []
  field_trimmed : trim p.field.toList = p.field.toList
  field_plain : ∀ c ∈ p.field.toList, Selector.isOperatorChar c = false ∧ ¬ IsQuote c ∧ c ≠ ']'
  value : p.value.Printable

structure Phase.Printable (p : Phase) : Prop extends Named p where
  tests : ∀ test ∈ p.tests, test.Printable

def Selector.Printable (s : Selector) : Prop := s.legs ≠ [] ∧ ∀ leg ∈ s.legs, ∀ p ∈ leg.phases, p.Printable

instance (l : Literal) : Decidable l.Printable :=
  match l with
  | .number n => inferInstanceAs (Decidable (n.isFinite = true))
  | .text s => inferInstanceAs
    (Decidable (Literal.spell (.text s) = s.toList → Stops Selector.isOperatorChar s.toList))

instance (p : Predicate) : Decidable p.Printable :=
  decidable_of_iff (p.field.toList ≠ [] ∧ trim p.field.toList = p.field.toList ∧
    p.field.toList.all (fun c => decide (Selector.isOperatorChar c = false ∧ ¬ IsQuote c ∧ c ≠ ']')) = true ∧
    p.value.Printable) (by
      simp only [List.all_eq_true, decide_eq_true_eq]
      exact ⟨fun ⟨hne, htrimmed, hplain, hvalue⟩ => ⟨hne, htrimmed, hplain, hvalue⟩,
        fun h => ⟨h.field_ne, h.field_trimmed, h.field_plain, h.value⟩⟩)

instance (p : Phase) : Decidable p.Printable :=
  decidable_of_iff (p.Named ∧ ∀ test ∈ p.tests, test.Printable)
    ⟨fun ⟨hnamed, htests⟩ => ⟨hnamed, htests⟩, fun h => ⟨h.toNamed, h.tests⟩⟩

instance (s : Selector) : Decidable s.Printable := by unfold Selector.Printable; infer_instance

namespace Literal.Printable

variable {l : Literal}

theorem finite (h : l.Printable) : l.Finite := by
  cases l with
  | number n => exact h
  | text s => exact trivial

theorem stops_spell (h : l.Printable) : Stops Selector.isOperatorChar l.spell := by
  cases l with
  | number n =>
    have hnumber := isNumberChar_of_numberText (Decimal.numberText_plainText h)
    exact fun c hc => (plain_of_isNumberChar (hnumber c (List.mem_of_mem_head? hc))).2.1
  | text s =>
    rcases spell_text s with hquoted | ⟨hbare, -⟩
    · rw [hquoted, quoted_eq]
      refine stops_cons.2 ?_
      rcases isQuote_quoteFor s.toList with hq | hq <;> rw [hq] <;> decide
    · rw [hbare]
      exact h hbare

end Literal.Printable

namespace Predicate.Printable

variable {p : Predicate}

theorem wellFormed (h : p.Printable) : p.WellFormed :=
  ⟨h.field_ne, trim_eq_iff.1 h.field_trimmed, fun c hc => (h.field_plain c hc).1, h.value.finite⟩

theorem legible (h : p.Printable) : p.Legible := by
  refine ⟨?_, h.value.stops_spell⟩
  have hfield : Body p.field.toList := body_of_plain fun c hc => (h.field_plain c hc).2.symm
  have hoperator : Body p.operator.spell := body_of_plain fun c hc => by
    have hc := p.operator.spell_isOperatorChar c hc
    refine ⟨?_, ?_⟩
    · rintro rfl
      exact absurd hc (by decide)
    · rintro (rfl | rfl) <;> exact absurd hc (by decide)
  exact (hfield.append hoperator).append (Literal.body_spell h.value.finite)

end Predicate.Printable

theorem Selector.Printable.wellFormed {s : Selector} (h : s.Printable) : s.WellFormed :=
  ⟨h.1, fun leg hleg p hp => ⟨(h.2 leg hleg p hp).toNamed, fun test htest =>
    ((h.2 leg hleg p hp).tests test htest).wellFormed⟩⟩

theorem Selector.Printable.legible {s : Selector} (h : s.Printable) : s.Legible :=
  fun leg hleg p hp test htest => ((h.2 leg hleg p hp).tests test htest).legible

/-- A printable selector reads back from its text: all of it but the sign of a negative zero. -/
theorem Selector.ofString_spell_of_printable {s : Selector} (h : s.Printable) :
    ofString (String.ofList s.spell) = .ok s.written ∧ s.written.agrees s = true ∧
      s.written.legs.map (fun leg => leg.phases.map Phase.classes) =
        s.legs.map (fun leg => leg.phases.map Phase.classes) := by
  refine ⟨ofString_spell h.wellFormed h.legible, agrees_written h.wellFormed, ?_⟩
  simp [written, Leg.written, Phase.written, Leg.phases, Function.comp_def]

/-- Two legs with both combinators, a value in need of quotes and escapes, a text that looks like a number
and a negative zero. -/
def Selector.districts : Selector :=
  ⟨[⟨⟨some "city", some "main", none, ⟨["old", "large"], by decide⟩,
        [⟨"a.b", .begins, .text "it's \"7\" \\ ]/"⟩,
          ⟨"height", .greater, .number (.finite true 0 0 canonicalPair_zero)⟩],
        none⟩,
      [(.child, ⟨none, none, some "17", .empty, [⟨"name", .equals, .text "7"⟩], some (.limit 3)⟩),
        (.descendant, Phase.any)]⟩,
    ⟨Phase.any, []⟩]⟩

theorem Selector.ofString_spell_of_printable_districts : districts.Printable ∧
    ofString (String.ofList districts.spell) = .ok districts.written ∧ districts.written.agrees districts = true ∧
      districts.written.legs.map (fun leg => leg.phases.map Phase.classes) =
        districts.legs.map (fun leg => leg.phases.map Phase.classes) := by
  have h : districts.Printable := by decide +kernel
  exact ⟨h, ofString_spell_of_printable h⟩

end Grove
