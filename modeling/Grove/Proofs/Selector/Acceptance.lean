import Grove.Proofs.Selector.Pieces
/-!
# Which texts are selectors

The readers of phases, legs and selectors accept what the grammar derives, and give what it derives. What
follows a phase in a derivation separates it from the rest, so that no reader goes on into the rest.
-/

set_option autoImplicit false

namespace Grove

open Grammar Text

namespace Selector

section
variable {cs rest t : List Char}

theorem stops_of_separated {q : Char → Bool} (hrest : ∀ c ∈ rest.head?, isSeparator c = true)
    (hq : ∀ {c}, isSeparator c = true → q c = false) : Stops q rest := fun c hc => hq (hrest c hc)

theorem isOpening_of_isSeparator {c : Char} (h : isSeparator c = true) : isOpening c = false := by
  rw [Bool.eq_false_iff]
  intro hopening
  simp only [isOpening, isMark, Bool.or_eq_true, beq_iff_eq] at hopening
  rcases hopening with (((rfl | rfl) | rfl) | rfl) | rfl <;> exact absurd h (by decide)

theorem isNameChar_modifiers : (∀ c ∈ "first".toList, isNameChar c = true) ∧
    (∀ c ∈ "last".toList, isNameChar c = true) ∧ ∀ c ∈ "limit".toList, isNameChar c = true := by
  simp only [← List.all_eq_true]
  decide +kernel

theorem readModifier_append {u : List Char} {m : Modifier} (h : ModifierText (':' :: u) m)
    (hrest : Stops isNameChar rest) : readModifier (u ++ rest) = .ok (m, rest) := by
  obtain ⟨hfirst, hlast, hlimit⟩ := isNameChar_modifiers
  unfold readModifier
  cases h with
  | first => rw [takeWhile_run hfirst hrest, dropWhile_run hfirst hrest, if_pos rfl]
  | last =>
    rw [takeWhile_run hlast hrest, dropWhile_run hlast hrest, if_neg (by decide), if_pos rfl]
  | @limit a digits b ha hdigits hne hb hsize =>
    have hopen : Stops isNameChar ('(' :: (a ++ digits ++ b ++ ')' :: rest)) :=
      stops_cons.2 (by decide +kernel)
    have htext : "limit".toList ++ '(' :: (a ++ digits ++ b ++ [')']) ++ rest =
        "limit".toList ++ '(' :: (a ++ digits ++ b ++ ')' :: rest) := by
      rw [List.append_assoc, List.cons_append, List.append_assoc _ [')'], List.singleton_append]
    rw [htext, takeWhile_run hlimit hopen, dropWhile_run hlimit hopen, if_neg (by decide),
      if_neg (by decide), if_pos rfl]
    exact readLimit_append ha hdigits hne hb hsize

theorem readModifier_sound {m : Modifier} (h : readModifier cs = .ok (m, rest)) :
    ∃ t, ModifierText (':' :: t) m ∧ cs = t ++ rest := by
  obtain ⟨name, hname, hsplit⟩ := exists_run isNameChar cs
  have htake : cs.takeWhile isNameChar = name := by
    rw [hsplit, takeWhile_run hname (stops_dropWhile _ cs)]
  simp only [readModifier, htake] at h
  split at h
  · next hfirst =>
    cases h
    subst hfirst
    exact ⟨_, ModifierText.first, hsplit⟩
  split at h
  · next hlast =>
    cases h
    subst hlast
    exact ⟨_, ModifierText.last, hsplit⟩
  split at h
  · next hlimit =>
    split at h
    · next inside hinside =>
      obtain ⟨a, digits, b, ha, hdigits, hne, hb, hsize, rfl, rfl⟩ := readLimit_sound h
      refine ⟨"limit".toList ++ '(' :: (a ++ digits ++ b ++ [')']),
        ModifierText.limit ha hdigits hne hb hsize, ?_⟩
      rw [hsplit, hinside, hlimit]
      simp
    · cases h
  · cases h

theorem readEnd_append {modifier : Option Modifier} (h : EndText t modifier)
    (hrest : ∀ c ∈ rest.head?, isSeparator c = true) : readEnd (t ++ rest) = .ok (modifier, rest) := by
  have hstop := stops_of_separated hrest isOpening_of_isSeparator
  cases h with
  | none =>
    unfold readEnd
    split
    · next heq =>
      rw [List.nil_append] at heq
      subst heq
      exact absurd (stops_cons.1 hstop) (by decide)
    · rfl
  | @some _ m hm =>
    obtain ⟨u, rfl⟩ : ∃ u, t = ':' :: u := by cases hm <;> exact ⟨_, rfl⟩
    have hread := readModifier_append hm (stops_of_separated hrest isNameChar_of_isSeparator)
    rw [List.cons_append, readEnd, hread]
    cases rest with
    | nil => rfl
    | cons c rest =>
      have hc := stops_cons.1 hstop
      simp only [isOpening, isMark, Bool.or_eq_false_iff, beq_eq_false_iff_ne] at hc
      simp [hc]

theorem readEnd_sound {modifier : Option Modifier} (h : readEnd cs = .ok (modifier, rest)) :
    ∃ t, EndText t modifier ∧ cs = t ++ rest := by
  unfold readEnd at h
  split at h
  · next cs =>
    split at h
    · cases h
    · next m rest' hread =>
      obtain ⟨t, hm, rfl⟩ := readModifier_sound hread
      split at h
      · cases h
        exact ⟨':' :: t, EndText.some hm, rfl⟩
      · split at h
        · cases h
        split at h
        · cases h
        · cases h
          exact ⟨':' :: t, EndText.some hm, rfl⟩
  · cases h
    exact ⟨[], EndText.none, rfl⟩

variable {parts : List Part} {modifier : Option Modifier} {p : Phase}

theorem eraseDups_concat (names : List String) (name : String) : (names ++ [name]).eraseDups =
    if name ∈ names then names.eraseDups else names.eraseDups ++ [name] := by
  rw [List.eraseDups_append]
  by_cases h : name ∈ names
  · simp [List.removeAll, h]
  · simp [List.removeAll, h, List.eraseDups_cons]

theorem phaseOf_concat (parts : List Part) (part : Part) :
    phaseOf (parts ++ [part]) modifier = addPart (phaseOf parts modifier) part := by
  unfold phaseOf
  rw [List.foldl_append]
  cases part <;> rfl

theorem Gathers.concat (h : Gathers parts modifier p) (part : Part) :
    Gathers (parts ++ [part]) modifier (addPart p part) := by
  cases part with
  | cls name =>
    constructor <;> simp only [addPart, List.filterMap_append, List.filterMap_cons, List.filterMap_nil,
      Part.tag?, Part.id?, Part.uid?, Part.cls?, Part.test?, List.append_nil, h.tag, h.id, h.uid, h.tests,
      h.modifier, h.classes, ClassSet.names_insert, List.mem_eraseDups, eraseDups_concat]
  | _ =>
    constructor <;> simp only [addPart, List.filterMap_append, List.filterMap_cons, List.filterMap_nil,
      Part.tag?, Part.id?, Part.uid?, Part.cls?, Part.test?, List.append_nil, h.tag, h.id, h.uid, h.tests,
      h.modifier, h.classes, List.getLast?_concat]

theorem gathers_phaseOf (parts : List Part) (modifier : Option Modifier) :
    Gathers parts modifier (phaseOf parts modifier) := by
  induction parts using List.reverseRecOn with
  | nil => exact ⟨rfl, rfl, rfl, rfl, rfl, rfl⟩
  | append_singleton parts part ih =>
    rw [phaseOf_concat]
    exact Gathers.concat ih part

theorem phaseOf_eq (h : Gathers parts modifier p) : phaseOf parts modifier = p := by
  have h' := gathers_phaseOf parts modifier
  obtain ⟨tag, id, uid, ⟨names, nodup⟩, tests, m⟩ := p
  generalize phaseOf parts modifier = p' at h'
  obtain ⟨tag', id', uid', ⟨names', nodup'⟩, tests', m'⟩ := p'
  obtain ⟨h1, h2, h3, h4, h5, h6⟩ := h
  obtain ⟨h1', h2', h3', h4', h5', h6'⟩ := h'
  dsimp only at *
  subst h1 h2 h3 h4 h5 h6 h1' h2' h3' h4' h5' h6'
  rfl

theorem stops_of_endText {q : Char → Bool} (h : EndText t modifier)
    (hrest : ∀ c ∈ rest.head?, isSeparator c = true) (hq : ∀ {c}, isSeparator c = true → q c = false)
    (hcolon : q ':' = false) : Stops q (t ++ rest) := by
  cases h with
  | none => exact stops_of_separated hrest hq
  | some hm => cases hm <;> exact stops_cons.2 hcolon

theorem isMark_of_isSeparator {c : Char} (h : isSeparator c = true) : isMark c = false :=
  (Bool.or_eq_false_iff.1 (isOpening_of_isSeparator h)).1

theorem exists_opening {ts e : List Char} (hparts : PartsText ts parts) (hend : EndText e modifier)
    (hne : ts ++ e ≠ []) : ∃ c u, ts ++ e = c :: u ∧ isOpening c = true := by
  cases hparts with
  | cons hpart =>
    obtain ⟨c, u, rfl, hc⟩ := exists_mark_of_partText hpart
    exact ⟨c, _, rfl, by simp [isOpening, hc]⟩
  | nil =>
    cases hend with
    | none => exact absurd rfl hne
    | some hm => cases hm <;> exact ⟨':', _, rfl, rfl⟩

theorem readPhase_append (h : PhaseText t p) (hrest : ∀ c ∈ rest.head?, isSeparator c = true) :
    readPhase (t ++ rest) = .ok (p, rest) := by
  cases h with
  | @mk h ts e head parts modifier _ hhead hparts hend hne hgathers =>
    have hname := stops_of_endText hend hrest isNameChar_of_isSeparator (by decide +kernel)
    have hmark := stops_of_endText hend hrest isMark_of_isSeparator (by decide)
    -- Without a head the phase begins with a part or a modifier, which no head begins with.
    have hreadHead : readHead (h ++ (ts ++ (e ++ rest))) = .ok (head, ts ++ (e ++ rest)) := by
      refine readHead_append hhead (stops_of_partsText hparts hname) ?_
      rintro rfl
      obtain ⟨c, u, hcu, hc⟩ := exists_opening hparts hend hne
      exact ⟨c, u ++ rest, by rw [← List.append_assoc, hcu, List.cons_append], hc⟩
    have hlt : rest.length < (h ++ (ts ++ (e ++ rest))).length := by
      have := List.length_pos_iff.2 hne
      simp only [List.length_append] at *
      omega
    simp only [List.append_assoc]
    unfold readPhase
    simp only [hreadHead, readParts_append hparts hname hmark, readEnd_append hend hrest]
    rw [if_pos hlt, phaseOf_eq hgathers]

theorem readPhase_eq_ok (h : readPhase cs = .ok (p, rest)) : ∃ head mid parts mid' modifier,
    readHead cs = .ok (head, mid) ∧ readParts mid = .ok (parts, mid') ∧ readEnd mid' = .ok (modifier, rest) ∧
      rest.length < cs.length ∧ p = phaseOf (head ++ parts) modifier := by
  unfold readPhase at h
  split at h
  · cases h
  next head mid hreadHead =>
  split at h
  · cases h
  next parts mid' hreadParts =>
  split at h
  · cases h
  next modifier rest' hreadEnd =>
  split at h
  · next hlt =>
    cases h
    exact ⟨head, mid, parts, mid', modifier, hreadHead, hreadParts, hreadEnd, hlt, rfl⟩
  · split at h <;> cases h

theorem readPhase_sound (h : readPhase cs = .ok (p, rest)) : ∃ t, PhaseText t p ∧ cs = t ++ rest := by
  obtain ⟨head, mid, parts, mid', modifier, hreadHead, hreadParts, hreadEnd, hlt, rfl⟩ := readPhase_eq_ok h
  obtain ⟨ht, hhead, rfl⟩ := readHead_sound hreadHead
  obtain ⟨ts, hparts, rfl⟩ := readParts_sound hreadParts
  obtain ⟨e, hend, rfl⟩ := readEnd_sound hreadEnd
  refine ⟨ht ++ ts ++ e, PhaseText.mk hhead hparts hend ?_ (gathers_phaseOf _ _), by simp⟩
  rintro hnil
  simp only [List.append_eq_nil_iff] at hnil
  obtain ⟨⟨rfl, rfl⟩, rfl⟩ := hnil
  exact absurd hlt (lt_irrefl _)

theorem isSeparator_of_isAlphanumeric {c : Char} (hc : isAlphanumeric c = true) : isSeparator c = false := by
  rw [Bool.eq_false_iff]
  intro hsep
  have hname := isNameChar_of_isSeparator hsep
  simp [isNameChar, hc] at hname

theorem isSeparator_of_isOpening {c : Char} (hc : isOpening c = true) : isSeparator c = false := by
  rw [Bool.eq_false_iff]
  intro hsep
  rw [isOpening_of_isSeparator hsep] at hc
  cases hc

theorem exists_start_of_phaseText (h : PhaseText t p) : ∃ c u, t = c :: u ∧ isSeparator c = false := by
  cases h with
  | mk hhead hparts hend hne =>
    cases hhead with
    | none =>
      obtain ⟨c, u, hcu, hc⟩ := exists_opening hparts hend hne
      exact ⟨c, u, hcu, isSeparator_of_isOpening hc⟩
    | star => exact ⟨'*', _, rfl, by decide⟩
    | id => exact ⟨'_', _, rfl, by decide⟩
    | uid hword =>
      obtain ⟨c, u, rfl⟩ := List.exists_cons_of_ne_nil hword.1.1
      exact ⟨c, _, rfl, isSeparator_of_isAlphanumeric (hword.2 c rfl)⟩
    | tag hword =>
      obtain ⟨c, u, rfl⟩ := List.exists_cons_of_ne_nil hword.1.1
      exact ⟨c, _, rfl, isSeparator_of_isAlphanumeric (hword.2 c rfl)⟩

variable {tail : List (Combinator × Phase)} {leg : Leg} {legs : List Leg}

theorem skipBlanks_phaseText {a : List Char} (rest : List Char) (ha : Blanks a) (h : PhaseText t p) :
    skipBlanks (a ++ (t ++ rest)) = t ++ rest := by
  obtain ⟨c, u, rfl, hc⟩ := exists_start_of_phaseText h
  simp only [isSeparator, Bool.or_eq_false_iff] at hc
  exact dropWhile_run ha (stops_cons.2 hc.1.1)

theorem readTail_end (h : ∀ c ∈ (skipBlanks cs).head?, c = '/') :
    readTail cs = .ok ([], skipBlanks cs) := by
  rw [readTail]
  split
  · next hnil => rw [hnil]
  · next c rest hcons =>
    rw [hcons] at h ⊢
    rw [if_pos (h c rfl)]

theorem readTail_child (h : skipBlanks cs = '>' :: t) : readTail cs =
    (readPhase (skipBlanks t)).bind fun r => (readTail r.2).map fun s => ((.child, r.1) :: s.1, s.2) := by
  rw [readTail]
  split
  · next hnil => simp [hnil] at h
  · next c u hcons =>
    rw [hcons] at h
    cases h
    rw [if_neg (by decide), if_pos rfl]
    split
    · next herror => rw [herror]; rfl
    · next p mid hread =>
      simp only [hread, Except.bind]
      cases readTail mid <;> rfl

theorem readTail_descendant {c : Char} (h : skipBlanks cs = c :: t) (hslash : c ≠ '/') (hmark : c ≠ '>')
    (hlt : t.length + 1 < cs.length) : readTail cs =
      (readPhase (c :: t)).bind fun r => (readTail r.2).map fun s => ((.descendant, r.1) :: s.1, s.2) := by
  rw [readTail]
  split
  · next hnil => simp [hnil] at h
  · next d u hcons =>
    rw [hcons] at h
    cases h
    rw [if_neg hslash, if_neg hmark, if_pos hlt]
    split
    · next herror => rw [herror]; rfl
    · next p mid hread =>
      simp only [hread, Except.bind]
      cases readTail mid <;> rfl

theorem separated_of_tailText {b : List Char} (h : TailText t tail) (hb : Blanks b)
    (hrest : ∀ c ∈ rest.head?, c = '/') : ∀ c ∈ (t ++ (b ++ rest)).head?, isSeparator c = true := by
  have hblank : ∀ {a u : List Char}, Blanks a → (∀ c ∈ u.head?, isSeparator c = true) →
      ∀ c ∈ (a ++ u).head?, isSeparator c = true := by
    intro a u ha hu c hc
    cases a with
    | nil => exact hu c hc
    | cons d a =>
      obtain rfl : d = c := by simpa using hc
      simp [isSeparator, ha d (List.mem_cons_self ..)]
  cases h with
  | nil =>
    rw [List.nil_append]
    refine hblank hb fun c hc => ?_
    rw [hrest c hc]
    decide
  | descendant ha hne =>
    obtain ⟨c, u, rfl⟩ := List.exists_cons_of_ne_nil hne
    intro d hd
    obtain rfl : c = d := by simpa using hd
    simp [isSeparator, ha c (List.mem_cons_self ..)]
  | child ha =>
    simp only [List.append_assoc, List.cons_append]
    refine hblank ha fun c hc => ?_
    obtain rfl : '>' = c := by simpa using hc
    decide

theorem readTail_append {b : List Char} (h : TailText t tail) (hb : Blanks b)
    (hrest : ∀ c ∈ rest.head?, c = '/') : readTail (t ++ (b ++ rest)) = .ok (tail, rest) := by
  induction h with
  | nil =>
    have hskip : skipBlanks (b ++ rest) = rest := by
      refine dropWhile_run hb fun c hc => ?_
      rw [hrest c hc]
      decide
    rw [List.nil_append, readTail_end (by rwa [hskip]), hskip]
  | @descendant a t ts p tail ha hne hphase htail ih =>
    have hread := readPhase_append hphase (separated_of_tailText htail hb hrest)
    have hskip := skipBlanks_phaseText (ts ++ (b ++ rest)) ha hphase
    obtain ⟨c, u, rfl, hc⟩ := exists_start_of_phaseText hphase
    simp only [isSeparator, Bool.or_eq_false_iff, beq_eq_false_iff_ne] at hc
    simp only [List.append_assoc]
    have hlt : (u ++ (ts ++ (b ++ rest))).length + 1 < (a ++ (c :: u ++ (ts ++ (b ++ rest)))).length := by
      have := List.length_pos_iff.2 hne
      simp only [List.length_append, List.length_cons]
      omega
    rw [readTail_descendant hskip hc.1.2 hc.2 hlt]
    simp only [List.cons_append] at hread
    simp [hread, ih, Except.bind, Except.map]
  | @child a a' t ts p tail ha ha' hphase htail ih =>
    have hread := readPhase_append hphase (separated_of_tailText htail hb hrest)
    have hskip := skipBlanks_phaseText (ts ++ (b ++ rest)) ha' hphase
    rw [← hskip] at hread
    simp only [List.append_assoc, List.cons_append]
    rw [readTail_child (dropWhile_run ha (stops_cons.2 (by decide))), hread]
    simp [ih, Except.bind, Except.map]

theorem readTail_sound (h : readTail cs = .ok (tail, rest)) : ∃ t b, TailText t tail ∧ Blanks b ∧
    (∀ c ∈ rest.head?, c = '/') ∧ cs = t ++ (b ++ rest) := by
  -- One case for each way a leg can go on: the end, a slash, a child, a descendant; the others are faults.
  fun_induction readTail cs generalizing tail rest with
  | case1 cs _ hnil =>
    cases h
    obtain ⟨b, hb, hsplit⟩ := exists_blanks cs
    rw [hnil] at hsplit
    exact ⟨[], b, TailText.nil, hb, by simp, hsplit⟩
  | case2 cs _ u hslash =>
    cases h
    obtain ⟨b, hb, hsplit⟩ := exists_blanks cs
    rw [hslash] at hsplit
    exact ⟨[], b, TailText.nil, hb, by simp, hsplit⟩
  | case5 cs _ u p mid hread _ _ tail' rest' htail hmark _ ih =>
    cases h
    obtain ⟨a, ha, hsplit⟩ := exists_blanks cs
    obtain ⟨a', ha', hsplit'⟩ := exists_blanks u
    obtain ⟨t, hphase, hmid⟩ := readPhase_sound hread
    obtain ⟨ts, b, hts, hb, hend, rfl⟩ := ih htail
    refine ⟨a ++ '>' :: a' ++ t ++ ts, b, TailText.child ha ha' hphase hts, hb, hend, ?_⟩
    rw [hsplit, hmark, hsplit', hmid]
    simp
  | case8 cs _ c u hmark hslash hgt hlen p mid hread _ tail' rest' htail ih =>
    cases h
    obtain ⟨a, ha, hsplit⟩ := exists_blanks cs
    obtain ⟨t, hphase, hmid⟩ := readPhase_sound hread
    obtain ⟨ts, b, hts, hb, hend, rfl⟩ := ih htail
    rw [hmark] at hsplit
    -- A phase right behind another one, with no blank between them, is refused by the length check.
    have hne : a ≠ [] := by
      rintro rfl
      rw [hsplit] at hlen
      simp at hlen
    refine ⟨a ++ t ++ ts, b, TailText.descendant ha hne hphase hts, hb, hend, ?_⟩
    rw [hsplit, hmid]
    simp
  | _ => cases h

theorem readLeg_append {a b : List Char} (ha : Blanks a) (h : LegText t leg) (hb : Blanks b)
    (hrest : ∀ c ∈ rest.head?, c = '/') : readLeg (a ++ (t ++ (b ++ rest))) = .ok (leg, rest) := by
  cases h with
  | @mk t ts p tail hphase htail =>
    have hread := readPhase_append hphase (separated_of_tailText htail hb hrest)
    rw [← skipBlanks_phaseText (ts ++ (b ++ rest)) ha hphase] at hread
    unfold readLeg
    simp only [List.append_assoc] at hread ⊢
    simp only [hread, readTail_append htail hb hrest]

theorem readLeg_sound (h : readLeg cs = .ok (leg, rest)) : ∃ a t b, Blanks a ∧ LegText t leg ∧
    Blanks b ∧ (∀ c ∈ rest.head?, c = '/') ∧ cs = a ++ (t ++ (b ++ rest)) := by
  obtain ⟨a, ha, hsplit⟩ := exists_blanks cs
  unfold readLeg at h
  split at h
  · cases h
  next head mid hreadPhase =>
  split at h
  · cases h
  next tail rest' hreadTail =>
  cases h
  obtain ⟨t, hphase, hmid⟩ := readPhase_sound hreadPhase
  obtain ⟨ts, b, hts, hb, hend, rfl⟩ := readTail_sound hreadTail
  rw [hmid] at hsplit
  exact ⟨a, t ++ ts, b, ha, LegText.mk hphase hts, hb, hend, by simpa using hsplit⟩

theorem skipBlanks_eq (h : ∀ c ∈ cs.head?, c = '/') : skipBlanks cs = cs := by
  cases cs with
  | nil => rfl
  | cons c cs =>
    obtain rfl := h c rfl
    exact List.dropWhile_cons_of_neg (by decide)

theorem readLegs_append (h : LegsText t legs) : readLegs t = .ok legs := by
  induction h with
  | @last a t b leg ha hleg hb =>
    have hread : readLeg (a ++ (t ++ (b ++ []))) = .ok (leg, []) := readLeg_append ha hleg hb (by simp)
    rw [List.append_nil] at hread
    rw [List.append_assoc, readLegs]
    split
    · next herror => simp [hread] at herror
    · next hok =>
      rw [hread] at hok
      cases hok
      rfl
  | @more a t b ts leg legs ha hleg hb hlegs ih =>
    have hread : readLeg (a ++ (t ++ (b ++ '/' :: ts))) = .ok (leg, '/' :: ts) :=
      readLeg_append ha hleg hb (by simp)
    rw [List.append_assoc, List.append_assoc, readLegs]
    split
    · next herror => simp [hread] at herror
    · next hok =>
      rw [hread] at hok
      cases hok
      have hskip : skipBlanks ('/' :: ts) = '/' :: ts := skipBlanks_eq (by simp)
      split
      · next hnil => simp [hskip] at hnil
      · next hcons =>
        rw [hskip] at hcons
        cases hcons
        simp [ih]

theorem readLegs_sound (h : readLegs cs = .ok legs) : LegsText cs legs := by
  fun_induction readLegs cs generalizing legs with
  | case2 cs leg rest hread _ _ hnil =>
    cases h
    obtain ⟨a, t, b, ha, hleg, hb, hend, rfl⟩ := readLeg_sound hread
    rw [skipBlanks_eq hend] at hnil
    subst hnil
    simpa using LegsText.last ha hleg hb
  | case4 cs leg rest hread _ _ u legs' hlegs hslash ih =>
    cases h
    obtain ⟨a, t, b, ha, hleg, hb, hend, rfl⟩ := readLeg_sound hread
    rw [skipBlanks_eq hend] at hslash
    subst hslash
    simpa using LegsText.more ha hleg hb (ih hlegs)
  | _ => cases h

theorem not_blank_of_legsText (h : LegsText t legs) : t.all isBlank = false := by
  have hleg : ∀ {u : List Char} {leg : Leg}, LegText u leg → ∃ c ∈ u, isBlank c = false := by
    intro u leg hu
    cases hu with
    | mk hphase =>
      obtain ⟨c, v, rfl, hc⟩ := exists_start_of_phaseText hphase
      simp only [isSeparator, Bool.or_eq_false_iff] at hc
      exact ⟨c, by simp, hc.1.1⟩
  rw [List.all_eq_false]
  cases h with
  | last _ hu =>
    obtain ⟨c, hmem, hc⟩ := hleg hu
    exact ⟨c, by simp [hmem], by simp [hc]⟩
  | more _ hu =>
    obtain ⟨c, hmem, hc⟩ := hleg hu
    exact ⟨c, by simp [hmem], by simp [hc]⟩

theorem ofChars_of_derives {s : Selector} (h : Derives t s) : ofChars t = .ok s := by
  unfold ofChars
  rw [not_blank_of_legsText h, if_neg Bool.false_ne_true, readLegs_append h]

theorem readLegs_of_ofChars {s : Selector} (h : ofChars t = .ok s) : readLegs t = .ok s.legs := by
  unfold ofChars at h
  split at h
  · cases h
  · split at h
    · cases h
    · next legs hread =>
      cases h
      exact hread

theorem derives_of_ofChars {s : Selector} (h : ofChars t = .ok s) : Derives t s :=
  readLegs_sound (readLegs_of_ofChars h)

/-- A text is read as a selector exactly where the grammar derives the selector from it. -/
theorem ofString_eq_ok_iff {text : String} {s : Selector} :
    ofString text = .ok s ↔ Derives text.toList s :=
  ⟨derives_of_ofChars, ofChars_of_derives⟩

theorem readPhaseAlone_append {a b : List Char} (ha : Blanks a) (h : PhaseText t p) (hb : Blanks b) :
    readPhaseAlone (a ++ t ++ b) = .ok p := by
  have hrest : ∀ c ∈ b.head?, isSeparator c = true := fun c hc => by
    simp [isSeparator, hb c (List.mem_of_mem_head? hc)]
  have hskip : skipBlanks b = [] := List.dropWhile_eq_nil_iff.2 hb
  unfold readPhaseAlone
  rw [List.append_assoc, skipBlanks_phaseText b ha h, readPhase_append h hrest]
  dsimp only
  rw [hskip]

theorem readPhaseAlone_sound (h : readPhaseAlone cs = .ok p) :
    ∃ a t b, Blanks a ∧ PhaseText t p ∧ Blanks b ∧ cs = a ++ t ++ b := by
  obtain ⟨a, ha, hsplit⟩ := exists_blanks cs
  unfold readPhaseAlone at h
  split at h
  · cases h
  next phase rest hread =>
  obtain ⟨t, hphase, hmid⟩ := readPhase_sound hread
  obtain ⟨b, hb, hend⟩ := exists_blanks rest
  split at h
  · next hnil =>
    cases h
    rw [hnil, List.append_nil] at hend
    exact ⟨a, t, b, ha, hphase, hb, by rw [hsplit, hmid, hend, List.append_assoc]⟩
  · cases h

end

end Selector

theorem Phase.ofChars_of_phaseText {a t b : List Char} {p : Phase} (ha : Blanks a) (h : PhaseText t p)
    (hb : Blanks b) : ofChars (a ++ t ++ b) = .ok p := by
  have hblank : (a ++ t ++ b).all isBlank = false := by
    obtain ⟨c, u, rfl, hc⟩ := Selector.exists_start_of_phaseText h
    simp only [Selector.isSeparator, Bool.or_eq_false_iff] at hc
    rw [List.all_eq_false]
    exact ⟨c, by simp, by simp [hc.1.1]⟩
  unfold ofChars
  rw [hblank, if_neg Bool.false_ne_true, Selector.readPhaseAlone_append ha h hb]

theorem Phase.readPhaseAlone_of_ofChars {t : List Char} {p : Phase} (h : ofChars t = .ok p) :
    Selector.readPhaseAlone t = .ok p := by
  unfold ofChars at h
  split at h
  · cases h
  · split at h
    · cases h
    · next hread =>
      cases h
      exact hread

theorem Phase.ofString_eq_ok_iff_phaseText {text : String} {p : Phase} : ofString text = .ok p ↔
    ∃ a t b, Blanks a ∧ PhaseText t p ∧ Blanks b ∧ text.toList = a ++ t ++ b := by
  constructor
  · exact fun h => Selector.readPhaseAlone_sound (readPhaseAlone_of_ofChars h)
  · rintro ⟨a, t, b, ha, hphase, hb, htext⟩
    unfold ofString
    rw [htext]
    exact ofChars_of_phaseText ha hphase hb

end Grove
