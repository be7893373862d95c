import Grove.Proofs.Selector.Acceptance
/-!
# Selectors of one phase

A phase and a selector are read by drivers of their own, which share the reader of a phase and deal with the blanks
and marks around it each in its own way. They agree: a text is a phase exactly where it is a selector of that phase
alone.
-/

set_option autoImplicit false

namespace Grove

open Grammar Text

section
variable {t : List Char} {p : Phase} {s : Selector}

theorem derives_ofPhase_iff : Derives t (Selector.ofPhase p) ↔
    ∃ a u b, Blanks a ∧ PhaseText u p ∧ Blanks b ∧ t = a ++ u ++ b := by
  constructor
  · intro h
    change LegsText t [⟨p, []⟩] at h
    cases h with
    | @last a u b _ ha hleg hb =>
      cases hleg with
      | @mk u _ _ _ hphase htail =>
        cases htail
        exact ⟨a, u, b, ha, hphase, hb, by rw [List.append_nil]⟩
    | more _ _ _ hlegs => cases hlegs
  · rintro ⟨a, u, b, ha, hphase, hb, rfl⟩
    have hleg : LegText (u ++ []) ⟨p, []⟩ := LegText.mk hphase TailText.nil
    rw [List.append_nil] at hleg
    exact LegsText.last ha hleg hb

theorem Phase.ofChars_eq_ok_iff : Phase.ofChars t = .ok p ↔ Selector.ofChars t = .ok (Selector.ofPhase p) := by
  constructor
  · intro h
    exact Selector.ofChars_of_derives
      (derives_ofPhase_iff.2 (Selector.readPhaseAlone_sound (Phase.readPhaseAlone_of_ofChars h)))
  · intro h
    obtain ⟨a, u, b, ha, hphase, hb, rfl⟩ := derives_ofPhase_iff.1 (Selector.derives_of_ofChars h)
    exact Phase.ofChars_of_phaseText ha hphase hb

theorem Selector.readPhase_of_readLegs {legs : List Leg} (h : readLegs t = .ok legs) :
    ∃ p rest, readPhase (skipBlanks t) = .ok (p, rest) := by
  rw [readLegs] at h
  split at h
  · cases h
  · next hleg =>
    unfold readLeg at hleg
    split at hleg
    · cases hleg
    · next hphase => exact ⟨_, _, hphase⟩

theorem Phase.eq_unexpected {rest : List Char} {e : SyntaxError} (hblank : t.all isBlank = false)
    (hread : Selector.readPhase (skipBlanks t) = .ok (p, rest)) (h : Phase.ofChars t = .error e) :
    ∃ offset found, e = .at offset (.unexpected found) := by
  unfold Phase.ofChars Selector.readPhaseAlone at h
  rw [hblank, if_neg Bool.false_ne_true, hread] at h
  dsimp only at h
  cases hrest : skipBlanks rest with
  | nil =>
    rw [hrest] at h
    cases h
  | cons c cs =>
    rw [hrest] at h
    cases h
    exact ⟨_, c, rfl⟩

/-- A text that is a selector is a phase, unless a character stands behind its first phase. -/
theorem Phase.ofChars_of_selector (h : Selector.ofChars t = .ok s) :
    (∃ p, s = Selector.ofPhase p) ∨ ∃ offset found, Phase.ofChars t = .error (.at offset (.unexpected found)) := by
  have hlegs := Selector.readLegs_of_ofChars h
  have hblank := Selector.not_blank_of_legsText (Selector.readLegs_sound hlegs)
  obtain ⟨q, rest, hread⟩ := Selector.readPhase_of_readLegs hlegs
  cases hphase : Phase.ofChars t with
  | ok p =>
    rw [Phase.ofChars_eq_ok_iff, h] at hphase
    exact Or.inl ⟨p, Except.ok.inj hphase⟩
  | error e =>
    obtain ⟨offset, found, rfl⟩ := Phase.eq_unexpected hblank hread hphase
    exact Or.inr ⟨offset, found, rfl⟩

end

/-- A text is read as a phase exactly where it is read as the selector of that phase alone. A text that is read as
several legs, or as a leg of several phases, is no phase: a character behind the first phase is unexpected. -/
theorem Phase.ofString_iff_selector (text : String) :
    (∀ p, Phase.ofString text = .ok p ↔ Selector.ofString text = .ok (Selector.ofPhase p)) ∧
    ∀ s, Selector.ofString text = .ok s → 1 < s.legs.length ∨ (∃ leg ∈ s.legs, 1 < leg.length) →
      ∃ offset found, Phase.ofString text = .error (.at offset (.unexpected found)) := by
  refine ⟨fun p => Phase.ofChars_eq_ok_iff, fun s hs hmore => ?_⟩
  rcases Phase.ofChars_of_selector hs with ⟨p, rfl⟩ | herror
  · simp [Selector.ofPhase, Leg.length] at hmore
  · exact herror

/-- A phase between blanks, one of them not of ASCII; and a child with no blank before it. -/
theorem Phase.ofString_iff_selector_city :
    Phase.ofString "\u3000 city " = .ok { Phase.any with tag := some "city" } ∧
    ∃ offset found, Phase.ofString "city> *" = .error (.at offset (.unexpected found)) := by
  have hphase : Selector.ofString "\u3000 city " = .ok (Selector.ofPhase { Phase.any with tag := some "city" }) := by
    decide +kernel
  have hleg : Selector.ofString "city> *" =
      .ok ⟨[⟨{ Phase.any with tag := some "city" }, [(.child, Phase.any)]⟩]⟩ := by decide +kernel
  refine ⟨((ofString_iff_selector _).1 _).2 hphase, (ofString_iff_selector _).2 _ hleg (Or.inr ?_)⟩
  exact ⟨_, List.mem_singleton_self _, by decide⟩

end Grove
