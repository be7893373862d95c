import Grove.Proofs.Selector.RoundTrip
/-!
# Only legible tests read back

A test whose bracket would end elsewhere, or whose value would go on with the operator, is not read from
its own text by accident: whatever the reader takes from there differs from what was printed. So the texts
that read back from their printed form are exactly those with legible tests.
-/

set_option autoImplicit false

namespace Grove

open Grammar Text

namespace Literal

section
variable {q : Char} {a b e t u v x y : List Char} {l l' : Literal}

theorem append_bracket_inj (ha : ']' ∉ a) (hb : ']' ∉ b) (h : a ++ ']' :: x = b ++ ']' :: y) : a = b := by
  have hstop : ∀ z : List Char, Stops (· != ']') (']' :: z) := fun z => stops_cons.2 rfl
  have hrun : ∀ {c : List Char}, ']' ∉ c → ∀ d ∈ c, (d != ']') = true := by
    intro c hc d hd
    rw [bne_iff_ne]
    rintro rfl
    exact hc hd
  have htake := congrArg (List.takeWhile (· != ']')) h
  rwa [takeWhile_run (hrun ha) (hstop x), takeWhile_run (hrun hb) (hstop y)] at htake

/-- A text between quotes has one way to be written with its escapes only where they are needed, if a quote
comes after it. -/
theorem quoted_inj (hq : IsQuote q) (he : Quoted q e) (htext : Unescaped e t) (hu : Unescaped u t)
    (h : u ++ q :: x = e ++ q :: y) : u = e := by
  have hslash : '\\' ≠ q := by rcases hq with rfl | rfl <;> decide
  -- Along the first text: a quote ends both, and a backslash stands in one where it stands in the other.
  induction he generalizing u t with
  | nil =>
    cases htext
    cases hu with
    | nil => rfl
    | lone => exact absurd (List.cons.inj h).1 hslash
  | @escape c e he ih =>
    cases htext with
    | escape _ htext =>
      cases hu with
      | escape _ hu =>
        rw [List.cons_append, List.cons_append, List.cons_append, List.cons_append] at h
        rw [ih htext hu (List.cons.inj (List.cons.inj h).2).2]
      | char hc _ => exact absurd (List.cons.inj h).1 hc
    | char hc _ => exact absurd rfl hc
  | @char c e hc hne he ih =>
    cases htext with
    | lone => exact absurd rfl hc
    | escape => exact absurd rfl hc
    | char _ htext =>
      cases hu with
      | escape _ _ => exact absurd (List.cons.inj h).1.symm hc
      | char _ hu =>
        rw [List.cons_append, List.cons_append] at h
        rw [ih htext hu (List.cons.inj h).2]

def isProtected (q c : Char) : Bool := c == q || c == '\\'

theorem length_takeWhile_escaped (t x : List Char) :
    (t.takeWhile (isProtected q)).length ≤ ((escaped q t ++ x).takeWhile (isProtected q)).length := by
  unfold escaped
  induction t with
  | nil => simp
  | cons c t ih =>
    cases hc : isProtected q c with
    | false => simp [hc]
    | true =>
      have hcases : c = q ∨ c = '\\' := by simpa [isProtected] using hc
      have hslash : isProtected q '\\' = true := by simp [isProtected]
      simp only [List.takeWhile_cons, hc, if_true, List.flatMap_cons, if_pos hcases, List.cons_append,
        List.nil_append, hslash, List.length_cons]
      omega

/-- A text that begins with a quote does not go on as its own escaped form does. -/
theorem append_ne_quoted (hx : Stops (isProtected q) x) : t ++ x ≠ q :: (escaped q t ++ y) := by
  intro h
  have hq : isProtected q q = true := by simp [isProtected]
  -- Both begin with a run of quotes and backslashes, and the quote in front makes the second one longer.
  have hlength := congrArg (fun z => (z.takeWhile (isProtected q)).length) h
  simp only [takeWhile_append_stops t hx, List.takeWhile_cons, hq, if_true, List.length_cons] at hlength
  have hle := length_takeWhile_escaped (q := q) t y
  omega

theorem not_mem_of_trimmed {c : Char} (hc : isBlank c = false) (h : Trimmed t v) (hv : c ∉ v) : c ∉ t := by
  obtain ⟨a, b, ha, hb, rfl, -⟩ := h
  have hnot : ∀ {z : List Char}, Blanks z → c ∉ z := by
    intro z hz hmem
    rw [hz c hmem] at hc
    cases hc
  simp [hnot ha, hnot hb, hv]

theorem trimmed_cons {c : Char} (hc : isBlank c = false) (h : Trimmed (c :: t) v) :
    ∃ w b, v = c :: w ∧ Blanks b ∧ t = w ++ b := by
  obtain ⟨a, b, ha, hb, ht, -⟩ := h
  cases a with
  | cons d a =>
    obtain rfl : c = d := (List.cons.inj ht).1
    rw [ha c (List.mem_cons_self ..)] at hc
    cases hc
  | nil =>
    cases v with
    | nil =>
      rw [List.nil_append, List.nil_append] at ht
      rw [hb c (ht ▸ List.mem_cons_self ..)] at hc
      cases hc
    | cons d v =>
      obtain ⟨rfl, rfl⟩ := List.cons.inj ht
      exact ⟨v, b, rfl, hb, rfl⟩

theorem eq_bracket_of_blanks (hb : Blanks b) (h : b ++ ']' :: x = ']' :: y) : b = [] := by
  cases b with
  | nil => rfl
  | cons c b =>
    obtain rfl : c = ']' := (List.cons.inj h).1
    exact absurd (hb _ (List.mem_cons_self ..)) (by decide +kernel)

theorem eq_quoted (hq : IsQuote q) (hv : Trimmed a v) (hvalue : Value v (.text (String.ofList t)))
    (h : a ++ ']' :: x = quoted q t ++ ']' :: y) : a = quoted q t := by
  have hblank : isBlank q = false := by rcases hq with rfl | rfl <;> decide +kernel
  rw [quoted_eq] at h ⊢
  obtain ⟨a, rfl⟩ : ∃ a', a = q :: a' := by
    cases a with
    | nil =>
      have hbracket : ']' = q := (List.cons.inj h).1
      rcases hq with rfl | rfl <;> exact absurd hbracket (by decide)
    | cons c a => exact ⟨a, by rw [(List.cons.inj h).1]⟩
  obtain ⟨w, b, rfl, hb, rfl⟩ := trimmed_cons hblank hv
  have htail : w ++ (b ++ ']' :: x) = escaped q t ++ q :: ']' :: y := by
    simpa using (List.cons.inj h).2
  generalize hl : Literal.text (String.ofList t) = l at hvalue
  cases hvalue with
  | number hn => cases hl
  | quoted hinner hu =>
    obtain ⟨q', -, hw⟩ := hinner
    rw [List.cons_append] at hw
    obtain ⟨rfl, rfl⟩ := List.cons.inj hw
    obtain rfl := String.ofList_injective (Literal.text.inj hl)
    rw [List.append_assoc] at htail
    obtain rfl := quoted_inj hq (quoted_escaped q t) (unescaped_escaped q t) hu htail
    have hend := List.append_cancel_left htail
    rw [eq_bracket_of_blanks hb (List.cons.inj hend).2, List.append_nil]
  | bare =>
    -- The text itself stands there, and would have to go on as its escaped form does.
    obtain rfl := String.ofList_injective (Literal.text.inj hl)
    have hstop : Stops (isProtected q) (b ++ ']' :: x) := by
      have hother : ∀ c, isBlank c = true ∨ c = ']' → isProtected q c = false := by
        rintro c hc
        have hslash : c ≠ '\\' := by rintro rfl; revert hc; decide +kernel
        have hquote : c ≠ q := by
          rintro rfl
          rcases hc with hc | rfl
          · rw [hblank] at hc; cases hc
          · rcases hq with hq | hq <;> exact absurd hq (by decide)
        simp [isProtected, hslash, hquote]
      cases b with
      | nil => exact stops_cons.2 (hother _ (Or.inr rfl))
      | cons c b => exact stops_cons.2 (hother _ (Or.inl (hb c (List.mem_cons_self ..))))
    exact absurd (congrArg (q :: ·) htail) (append_ne_quoted (t := q :: w) hstop)

theorem bracket_not_mem_number {n : Binary64} (h : Value v (.number n)) : ']' ∉ v := by
  cases h with
  | number hn =>
    intro hmem
    exact absurd (isNumberChar_of_numeric? hn _ hmem) (by decide)

theorem bracket_not_mem_bare (hne : t ≠ []) (hplain : ∀ c ∈ t, needsQuotes c = false) (hv : Trimmed a v)
    (hvalue : Value v (.text (String.ofList t))) (h : a ++ ']' :: x = t ++ ']' :: y) : ']' ∉ v := by
  obtain ⟨c, t, rfl⟩ := List.exists_cons_of_ne_nil hne
  obtain ⟨hblank, hbracket, hquote⟩ := plain_of_needsQuotes (hplain c (List.mem_cons_self ..))
  obtain ⟨a, rfl⟩ : ∃ a', a = c :: a' := by
    cases a with
    | nil => exact absurd (List.cons.inj h).1.symm hbracket
    | cons d a => exact ⟨a, by rw [(List.cons.inj h).1]⟩
  obtain ⟨w, b, rfl, -, -⟩ := trimmed_cons hblank hv
  generalize hl : Literal.text (String.ofList (c :: t)) = l at hvalue
  cases hvalue with
  | number hn => cases hl
  | quoted hinner hu =>
    obtain ⟨q, hq, hw⟩ := hinner
    rw [List.cons_append] at hw
    obtain rfl := (List.cons.inj hw).1
    exact absurd hq hquote
  | bare =>
    rw [← String.ofList_injective (Literal.text.inj hl)]
    intro hmem
    exact absurd (hplain _ hmem) (by decide)

/-- What is read in the place of a printed value, and denotes an equal literal, is that value. -/
theorem eq_spell (hl : l.Finite) (hv : Trimmed a v) (hvalue : Value v l') (hagrees : l'.agrees l = true)
    (h : a ++ ']' :: x = l.spell ++ ']' :: y) : a = l.spell := by
  have hbracket : isBlank ']' = false := by decide +kernel
  cases l with
  | number n =>
    cases l' with
    | text s => cases hagrees
    | number n' =>
      refine append_bracket_inj (not_mem_of_trimmed hbracket hv (bracket_not_mem_number hvalue)) ?_ h
      exact bracket_not_mem_number (value_spell hl)
  | text s =>
    cases l' with
    | number n => cases hagrees
    | text s' =>
      obtain rfl : s' = s := by simpa [agrees] using hagrees
      rw [← String.ofList_toList (s := s')] at hvalue
      rcases spell_text s' with hquoted | ⟨hbare, hne, -, hplain⟩
      · rw [hquoted] at h ⊢
        exact eq_quoted (isQuote_quoteFor _) hv hvalue h
      · rw [hbare] at h ⊢
        refine append_bracket_inj (not_mem_of_trimmed hbracket hv
          (bracket_not_mem_bare hne hplain hv hvalue h)) ?_ h
        exact fun hmem => absurd (hplain _ hmem) (by decide)

end

end Literal

theorem Operator.takeWhile_spell {a u : List Char} (o : Operator)
    (ha : ∀ c ∈ a, Selector.isOperatorChar c = false) :
    (a ++ (o.spell ++ u)).takeWhile (!Selector.isOperatorChar ·) = a := by
  refine takeWhile_run (by simpa using ha) ?_
  cases o <;> exact stops_cons.2 (by decide)

/-- A test is read from its own text, whatever comes after it, only if it is legible. -/
theorem Predicate.legible_of_readTest {p p' : Predicate} {rest rest' : List Char} (h : p.WellFormed)
    (hread : Selector.readTest (p.field.toList ++ p.operator.spell ++ p.value.spell ++ ']' :: rest) =
      .ok (p', rest')) (hagrees : p'.agrees p = true) : p.Legible := by
  obtain ⟨body, hbody, htest, htext⟩ := Selector.readTest_sound hread
  cases htest with
  | @mk before after field value operator literal hbefore hfield _ hafter hvalue hliteral =>
    simp only [agrees, Bool.and_eq_true, beq_iff_eq] at hagrees
    obtain ⟨⟨-, rfl⟩, hagrees⟩ := hagrees
    simp only [List.append_assoc] at htext
    -- Both texts reach their operators at the same place, so what follows can differ in the value only.
    have hbegin := congrArg (List.takeWhile (!Selector.isOperatorChar ·)) htext
    rw [Operator.takeWhile_spell _ h.field_plain, Operator.takeWhile_spell _ hbefore] at hbegin
    subst hbegin
    have hvalues := List.append_cancel_left (List.append_cancel_left htext)
    obtain rfl := Literal.eq_spell h.value_finite hvalue hliteral hagrees hvalues.symm
    exact ⟨hbody, hafter⟩

section
variable {cs rest rest' t y : List Char} {parts parts' : List Selector.Part} {tests : List Predicate}

theorem Selector.readParts_test {p : Predicate} (h : readParts (p.spell ++ y) = .ok (parts, rest)) :
    ∃ p' mid parts', readTest (p.field.toList ++ p.operator.spell ++ p.value.spell ++ ']' :: y) = .ok (p', mid) ∧
      readParts mid = .ok (parts', rest) ∧ parts = .test p' :: parts' := by
  have htext : p.spell ++ y =
      '[' :: (p.field.toList ++ p.operator.spell ++ p.value.spell ++ ']' :: y) := by
    simp [Predicate.spell]
  rw [htext] at h
  generalize p.field.toList ++ p.operator.spell ++ p.value.spell ++ ']' :: y = inside at h ⊢
  have hpart : readPart? ('[' :: inside) = some ((readTest inside).map fun r => (.test r.1, r.2)) := rfl
  cases htest : readTest inside with
  | error e =>
    rw [htest] at hpart
    rw [readParts] at h
    split at h <;> simp_all [Except.map]
  | ok r =>
    rw [htest] at hpart
    rw [readParts_cons hpart] at h
    obtain ⟨r', hmid, he⟩ := exists_of_map_eq_ok h
    cases he
    exact ⟨_, _, _, rfl, hmid, rfl⟩

theorem Selector.legible_of_readParts {tests' : List Predicate} (h : ∀ test ∈ tests, test.WellFormed)
    (hread : readParts (tests.flatMap Predicate.spell ++ y) = .ok (parts, rest))
    (htests : List.Forall₂ (fun a b => a.agrees b = true) tests' tests)
    (hgathered : tests' = parts.filterMap Part.test?) : ∀ test ∈ tests, test.Legible := by
  induction tests generalizing parts tests' with
  | nil => simp
  | cons test tests ih =>
    rw [List.forall_mem_cons] at h
    rw [List.flatMap_cons, List.append_assoc] at hread
    obtain ⟨p', mid, parts', htest, hmid, rfl⟩ := readParts_test hread
    rw [List.filterMap_cons_some (show Part.test? (.test p') = some p' from rfl)] at hgathered
    subst hgathered
    cases htests with
    | cons hagrees hmore =>
      have hlegible := Predicate.legible_of_readTest h.1 htest hagrees
      rw [readTest_append hlegible.body (Predicate.test_spell h.1 hlegible.starts)] at htest
      cases htest
      exact List.forall_mem_cons.2 ⟨hlegible, ih h.2 hmid hmore rfl⟩

end

theorem Phase.forall₂_tests {p p' : Phase} (h : p'.agrees p = true) :
    List.Forall₂ (fun a b => a.agrees b = true) p'.tests p.tests := by
  simp only [agrees, Bool.and_eq_true, beq_iff_eq, List.all_eq_true] at h
  exact List.forall₂_iff_zip.2 ⟨h.1.1.2, fun hmem => h.1.2 _ hmem⟩

theorem Selector.stops_of_opening {t rest : List Char} (ht : ∀ c ∈ t.head?, isOpening c = true)
    (hrest : ∀ c ∈ rest.head?, isSeparator c = true) : Stops isNameChar (t ++ rest) := by
  refine forall_head?_append (fun c hc => ?_) fun c hc => isNameChar_of_isSeparator (hrest c hc)
  have hopening := ht c hc
  simp only [isOpening, Bool.or_eq_true, beq_iff_eq] at hopening
  rcases hopening with hmark | rfl
  · exact isNameChar_of_isMark hmark
  · decide +kernel

theorem Phase.filterMap_test_names (p : Phase) :
    ((p.tag.map Selector.Part.tag).toList ++ p.namedParts).filterMap Selector.Part.test? = [] := by
  rw [List.filterMap_eq_nil_iff]
  intro part hpart
  simp only [namedParts, List.mem_append, Option.mem_toList, Option.map_eq_some_iff, List.mem_map] at hpart
  rcases hpart with ⟨name, -, rfl⟩ | (⟨name, -, rfl⟩ | ⟨name, -, rfl⟩) | ⟨name, -, rfl⟩ <;> rfl

theorem Phase.legible_of_readPhase {p p' : Phase} {rest rest' : List Char} (h : p.WellFormed)
    (hrest : ∀ c ∈ rest.head?, Selector.isSeparator c = true)
    (hread : Selector.readPhase (p.spell ++ rest) = .ok (p', rest')) (hagrees : p'.agrees p = true) :
    p.Legible := by
  cases hwild : p.isWildcard with
  | true =>
    have htests : p.tests = [] := by simp_all [isWildcard]
    simp [Legible, htests]
  | false =>
    obtain ⟨head, mid, parts, mid', modifier, hhead, hparts, -, -, rfl⟩ := Selector.readPhase_eq_ok hread
    have hstop := Selector.stops_of_opening h.toNamed.opening hrest
    have hstop' := Selector.stops_of_opening p.opening_tests hrest
    rw [spell_eq p hwild, List.append_assoc, Selector.readHead_append h.toNamed.headText hstop] at hhead
    · cases hhead
      rw [List.append_assoc, Selector.readParts_eq h.toNamed.partsText hstop'] at hparts
      obtain ⟨⟨testParts, mid''⟩, htests, he⟩ := Selector.exists_of_map_eq_ok hparts
      cases he
      rw [List.append_assoc] at htests
      refine Selector.legible_of_readParts h.tests htests (forall₂_tests hagrees) ?_
      rw [(Selector.gathers_phaseOf _ _).tests, ← List.append_assoc, List.filterMap_append,
        filterMap_test_names, List.nil_append]
    · intro hnil
      have htag : p.tag = none := by
        rw [Option.eq_none_iff_forall_not_mem]
        intro name hname
        rw [Option.mem_def.1 hname] at hnil
        exact (h.tag name hname).1.1.1 hnil
      obtain ⟨c, u, hcu⟩ := List.exists_cons_of_ne_nil (afterTag_ne_nil hwild htag)
      have hopening := h.toNamed.opening
      rw [hcu] at hopening ⊢
      exact ⟨c, u ++ rest, rfl, hopening c rfl⟩

theorem exists_of_bind_eq_ok {ε α β : Type} {f : α → Except ε β} {r : Except ε α} {b : β}
    (h : r.bind f = .ok b) : ∃ a, r = .ok a ∧ f a = .ok b := by
  cases r with
  | error e => cases h
  | ok a => exact ⟨a, rfl, h⟩

section
variable {a rest rest' : List Char} {tail tail' : List (Combinator × Phase)} {leg leg' : Leg}
  {legs legs' : List Leg}

/-- A chained phase and its combinator, with another one. -/
def SameStep (x y : Combinator × Phase) : Prop := x.1 = y.1 ∧ x.2.agrees y.2 = true

theorem separated_of_spellSteps (tail : List (Combinator × Phase))
    (hrest : ∀ c ∈ rest.head?, Selector.isSeparator c = true) :
    ∀ c ∈ (tail.flatMap spellStep ++ rest).head?, Selector.isSeparator c = true := by
  cases tail with
  | nil => exact hrest
  | cons step tail =>
    obtain ⟨combinator, p⟩ := step
    intro c hc
    obtain rfl : ' ' = c := by cases combinator <;> exact Option.some.inj hc
    decide +kernel

theorem Phase.skipBlanks_spell {p : Phase} (h : p.Named) (ha : Blanks a) (rest : List Char) :
    skipBlanks (a ++ (p.spell ++ rest)) = p.spell ++ rest := by
  obtain ⟨c, u, hcu, hc⟩ := h.exists_start
  simp only [Selector.isSeparator, Bool.or_eq_false_iff] at hc
  rw [hcu]
  exact dropWhile_run ha (stops_cons.2 hc.1.1)

theorem Selector.readTail_step {step : Combinator × Phase} (h : step.2.Named) (rest : List Char) :
    readTail (spellStep step ++ rest) = (readPhase (step.2.spell ++ rest)).bind fun r =>
      (readTail r.2).map fun s => ((step.1, r.1) :: s.1, s.2) := by
  obtain ⟨combinator, p⟩ := step
  have hskip := Phase.skipBlanks_spell h blanks_space rest
  cases combinator with
  | descendant =>
    obtain ⟨c, u, hcu, hc⟩ := h.exists_start
    dsimp only at hcu hskip ⊢
    simp only [isSeparator, Bool.or_eq_false_iff, beq_eq_false_iff_ne] at hc
    rw [hcu] at hskip
    simp only [spellStep, hcu]
    exact readTail_descendant hskip hc.1.2 hc.2 (by simp)
  | child =>
    have hmark : skipBlanks (spellStep (.child, p) ++ rest) = '>' :: ([' '] ++ (p.spell ++ rest)) :=
      dropWhile_run blanks_space (stops_cons.2 (by decide))
    rw [readTail_child hmark, hskip]

theorem Selector.legible_of_readTail (h : ∀ step ∈ tail, step.2.WellFormed)
    (hrest : ∀ c ∈ rest.head?, isSeparator c = true)
    (hread : readTail (tail.flatMap spellStep ++ rest) = .ok (tail', rest'))
    (hsame : List.Forall₂ SameStep tail' tail) : ∀ step ∈ tail, step.2.Legible := by
  induction tail generalizing tail' with
  | nil => simp
  | cons step tail ih =>
    rw [List.forall_mem_cons] at h
    have hmore := separated_of_spellSteps tail hrest
    rw [List.flatMap_cons, List.append_assoc, readTail_step h.1.toNamed] at hread
    obtain ⟨⟨p', mid⟩, hphase, hread⟩ := exists_of_bind_eq_ok hread
    obtain ⟨⟨tail'', mid'⟩, htail, he⟩ := exists_of_map_eq_ok hread
    cases he
    cases hsame with
    | cons hstep hsteps =>
      have hlegible := Phase.legible_of_readPhase h.1 hmore hphase hstep.2
      rw [readPhase_append (Phase.phaseText_spell h.1 hlegible) hmore] at hphase
      cases hphase
      exact List.forall_mem_cons.2 ⟨hlegible, ih h.2 htail hsteps⟩

theorem Leg.same_of_agrees (h : leg'.agrees leg = true) :
    leg'.head.agrees leg.head = true ∧ List.Forall₂ SameStep leg'.tail leg.tail := by
  simp only [agrees, Bool.and_eq_true, beq_iff_eq, List.all_eq_true] at h
  exact ⟨h.1.1, List.forall₂_iff_zip.2 ⟨h.1.2, fun hmem => h.2 _ hmem⟩⟩

theorem Selector.legible_of_readLeg (h : ∀ p ∈ leg.phases, p.WellFormed) (ha : Blanks a)
    (hrest : ∀ c ∈ rest.head?, isSeparator c = true)
    (hread : readLeg (a ++ (leg.spell ++ rest)) = .ok (leg', rest')) (hagrees : leg'.agrees leg = true) :
    ∀ p ∈ leg.phases, p.Legible := by
  obtain ⟨hhead, htail⟩ := Leg.same_of_agrees hagrees
  unfold Leg.phases at h ⊢
  rw [List.forall_mem_cons, List.forall_mem_map] at h ⊢
  have hmore := separated_of_spellSteps leg.tail hrest
  unfold readLeg at hread
  rw [Leg.spell, List.append_assoc, Phase.skipBlanks_spell h.1.toNamed ha] at hread
  split at hread
  · cases hread
  next head mid hphase =>
  split at hread
  · cases hread
  next tail mid' hreadTail =>
  cases hread
  have hlegible := Phase.legible_of_readPhase h.1 hmore hphase hhead
  rw [readPhase_append (Phase.phaseText_spell h.1 hlegible) hmore] at hphase
  cases hphase
  exact ⟨hlegible, legible_of_readTail h.2 hrest hreadTail htail⟩

theorem Selector.readLegs_eq_ok {cs : List Char} (h : readLegs cs = .ok legs) :
    ∃ leg rest, readLeg cs = .ok (leg, rest) ∧ (skipBlanks rest = [] ∧ legs = [leg] ∨
      ∃ u legs', skipBlanks rest = '/' :: u ∧ readLegs u = .ok legs' ∧ legs = leg :: legs') := by
  rw [readLegs] at h
  split at h
  · cases h
  next leg rest hleg =>
  refine ⟨leg, rest, hleg, ?_⟩
  dsimp only at h
  split at h
  · next hnil =>
    cases h
    exact Or.inl ⟨hnil, rfl⟩
  · next c u hcons =>
    split at h
    · next hslash =>
      split at h
      · cases h
      · next legs' hlegs =>
        cases h
        exact Or.inr ⟨u, legs', hslash ▸ hcons, hlegs, rfl⟩
    · cases h

theorem Selector.legible_of_readLegs (h : ∀ leg ∈ legs, ∀ p ∈ leg.phases, p.WellFormed) (ha : Blanks a)
    (hread : readLegs (a ++ List.intercalate [' ', '/', ' '] (legs.map Leg.spell)) = .ok legs')
    (hsame : List.Forall₂ (fun x y => x.agrees y = true) legs' legs) :
    ∀ leg ∈ legs, ∀ p ∈ leg.phases, p.Legible := by
  -- Once a leg is known to be legible it is read to its end, which leaves the text of the legs after it.
  induction legs generalizing legs' a with
  | nil => simp
  | cons leg legs ih =>
    rw [List.forall_mem_cons] at h ⊢
    obtain ⟨leg', rest', hleg, hmore⟩ := readLegs_eq_ok hread
    have hagrees : leg'.agrees leg = true := by
      rcases hmore with ⟨_, rfl⟩ | ⟨_, _, _, _, rfl⟩ <;>
      · cases hsame with
        | cons hagrees _ => exact hagrees
    cases legs with
    | nil =>
      have htext : a ++ List.intercalate [' ', '/', ' '] ([leg].map Leg.spell) = a ++ (leg.spell ++ []) := by
        simp [List.intercalate]
      rw [htext] at hleg
      exact ⟨legible_of_readLeg h.1 ha (by simp) hleg hagrees, by simp⟩
    | cons next legs =>
      have htext : a ++ List.intercalate [' ', '/', ' '] ((leg :: next :: legs).map Leg.spell) =
          a ++ (leg.spell ++ ([' '] ++ '/' ::
            ([' '] ++ List.intercalate [' ', '/', ' '] ((next :: legs).map Leg.spell)))) := by
        simp [List.intercalate]
      rw [htext] at hleg
      have hlegible := legible_of_readLeg h.1 ha (by simp; decide +kernel) hleg hagrees
      rw [readLeg_append ha (Leg.legText_spell h.1 hlegible) blanks_space (by simp)] at hleg
      cases hleg
      refine ⟨hlegible, ?_⟩
      rcases hmore with ⟨hnil, -⟩ | ⟨u, legs'', hslash, hlegs, rfl⟩
      · rw [skipBlanks_eq (by simp)] at hnil
        cases hnil
      · rw [skipBlanks_eq (by simp)] at hslash
        cases hslash
        cases hsame with
        | cons _ hsame => exact ih h.2 blanks_space hlegs hsame

end

theorem Selector.legible_of_ofString_spell {s s' : Selector} (h : s.WellFormed)
    (hread : ofString (String.ofList s.spell) = .ok s') (hagrees : s'.agrees s = true) : s.Legible := by
  unfold ofString at hread
  rw [String.toList_ofList] at hread
  simp only [agrees, Bool.and_eq_true, beq_iff_eq, List.all_eq_true] at hagrees
  have hsame : List.Forall₂ (fun x y => x.agrees y = true) s'.legs s.legs :=
    List.forall₂_iff_zip.2 ⟨hagrees.1, fun hmem => hagrees.2 _ hmem⟩
  exact legible_of_readLegs (a := []) h.2 blanks_nil (readLegs_of_ofChars hread) hsame

theorem Phase.legible_of_ofString_spell {p p' : Phase} (h : p.WellFormed)
    (hread : ofString (String.ofList p.spell) = .ok p') (hagrees : p'.agrees p = true) : p.Legible := by
  unfold ofString at hread
  rw [String.toList_ofList] at hread
  have halone := readPhaseAlone_of_ofChars hread
  have hskip := skipBlanks_spell h.toNamed blanks_nil []
  rw [List.nil_append, List.append_nil] at hskip
  unfold Selector.readPhaseAlone at halone
  rw [hskip, ← List.append_nil p.spell] at halone
  split at halone
  · cases halone
  next phase rest hphase =>
  split at halone
  · cases halone
    exact legible_of_readPhase h (by simp) hphase hagrees
  · cases halone

/-- A text that was read reads back from its printed form, as an equal selector or phase, exactly if its tests
are legible. -/
theorem reads_back_iff_legible (text : String) :
    (∀ s, Selector.ofString text = .ok s →
      ((∃ s', Selector.ofString (String.ofList s.spell) = .ok s' ∧ s'.agrees s = true) ↔ s.Legible)) ∧
    ∀ p, Phase.ofString text = .ok p →
      ((∃ p', Phase.ofString (String.ofList p.spell) = .ok p' ∧ p'.agrees p = true) ↔ p.Legible) := by
  constructor
  · intro s hread
    have hs := Selector.wellFormed_of_ofChars hread
    constructor
    · rintro ⟨s', hread', hagrees⟩
      exact Selector.legible_of_ofString_spell hs hread' hagrees
    · intro hlegible
      exact ⟨_, Selector.ofString_spell hs hlegible, Selector.agrees_written hs⟩
  · intro p hread
    obtain ⟨-, t, -, -, hphase, -, -⟩ := Phase.ofString_eq_ok_iff_phaseText.1 hread
    have hp := hphase.wellFormed
    constructor
    · rintro ⟨p', hread', hagrees⟩
      exact Phase.legible_of_ofString_spell hp hread' hagrees
    · intro hlegible
      exact ⟨_, Phase.ofString_spell hp hlegible, Phase.agrees_written hp⟩

instance (t : List Char) : Decidable (Body t) :=
  decidable_of_iff (Selector.bracketBody none (t ++ [']']) = some (t, []))
    (Selector.bracketBody_eq_some_iff.trans (and_iff_left rfl))

instance (p : Predicate) : Decidable p.Legible :=
  decidable_of_iff (Body (p.field.toList ++ p.operator.spell ++ p.value.spell) ∧
    Stops Selector.isOperatorChar p.value.spell)
    ⟨fun ⟨hbody, hstarts⟩ => ⟨hbody, hstarts⟩, fun h => ⟨h.body, h.starts⟩⟩

instance (p : Phase) : Decidable p.Legible := by unfold Phase.Legible; infer_instance

instance (s : Selector) : Decidable s.Legible := by unfold Selector.Legible; infer_instance

/-- A value in quotes, which keeps them, and a phase without conditions. -/
def Selector.quotedValue : Selector :=
  ⟨[⟨{ Phase.any with tag := some "city", tests := [⟨"a", .equals, .text " b"⟩] }, [(.child, .any)]⟩]⟩

/-- A quote that opens in the field and closes in the value. -/
def Phase.openQuote : Phase := { any with tests := [⟨"a'", .equals, .text "b'"⟩] }

theorem reads_back_iff_legible_quoted :
    (Selector.ofString "city[ a =' b']>*" = .ok .quotedValue ∧ Selector.quotedValue.Legible ∧
      ∃ s', Selector.ofString (String.ofList Selector.quotedValue.spell) = .ok s' ∧
        s'.agrees .quotedValue = true) ∧
    Phase.ofString "[a'=b']" = .ok .openQuote ∧
      ¬ ∃ p', Phase.ofString (String.ofList Phase.openQuote.spell) = .ok p' ∧ p'.agrees .openQuote = true := by
  have hread : Selector.ofString "city[ a =' b']>*" = .ok .quotedValue := by decide +kernel
  have hlegible : Selector.quotedValue.Legible := by decide +kernel
  have hphase : Phase.ofString "[a'=b']" = .ok .openQuote := by decide +kernel
  have hnot : ¬ Phase.openQuote.Legible := by decide +kernel
  exact ⟨⟨hread, hlegible, ((reads_back_iff_legible _).1 _ hread).2 hlegible⟩, hphase,
    mt ((reads_back_iff_legible _).2 _ hphase).1 hnot⟩

/-- A value that begins like an operator is printed without quotes, and the operator grows by it. -/
theorem not_reads_back : ¬ ∀ text s, Selector.ofString text = .ok s →
    ∃ t, Selector.ofString (String.ofList s.spell) = .ok t ∧ t.agrees s = true := by
  intro h
  have hread : Selector.ofString "[a=\"=b\"]" =
      .ok ⟨[⟨{ Phase.any with tests := [⟨"a", .equals, .text "=b"⟩] }, []⟩]⟩ := by decide +kernel
  obtain ⟨t, ht, -⟩ := h _ _ hread
  have hfault : Selector.ofString (String.ofList (Selector.spell
      ⟨[⟨{ Phase.any with tests := [⟨"a", .equals, .text "=b"⟩] }, []⟩]⟩)) =
      .error (.at 2 (.unknownOperator ['=', '='])) := by decide +kernel
  rw [hfault] at ht
  cases ht

end Grove
