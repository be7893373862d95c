import Grove.Proofs.Selector.Acceptance
/-!
# What an error points at

A reader that fails stops at a place of its text, and what stands around that place shows the cause: the unexpected
character itself, the bracket that is never closed, the colon before an unknown modifier, an unknown operator from its
first character to its last. Each reader passes on the faults of the readers it calls; the text it has read before
them comes in front of the place, where it changes nothing.
-/

set_option autoImplicit false

namespace Grove

open Grammar Selector Text

/-- What stands before and after the place of a fault, by its cause. An unknown operator is a whole run, which goes on
neither before nor after it; a limit is at fault behind its name or behind its parenthesis. -/
def Shows (before rest : List Char) : SyntaxCause → Prop
  | .emptyPhase => ∀ c ∈ rest.head?, c = '/' ∨ c = '>'
  | .expectedName => Stops isNameChar rest
  | .unterminatedBracket => rest.head? = some '['
  | .unknownOperator token =>
    rest.takeWhile isOperatorChar = token ∧ ∃ c ∈ before.getLast?, isOperatorChar c = false
  | .unknownModifier name => ∃ after, rest = ':' :: after ∧ after.takeWhile isNameChar = name
  | .repeatedModifier => rest.head? = some ':'
  | .invalidLimit => ":limit".toList <:+ before ∨ ":limit(".toList <:+ before
  | .unexpected found => rest.head? = some found

/-- A fault of a text: what it leaves ends the text, and its place shows its cause. -/
def Located (text : List Char) (fault : Fault) : Prop :=
  ∃ before, text = before ++ fault.rest ∧ Shows before fault.rest fault.cause

section
variable {before rest text cs : List Char} {cause : SyntaxCause} {fault : Fault}

theorem Shows.append (front : List Char) (h : Shows before rest cause) : Shows (front ++ before) rest cause := by
  cases cause with
  | unknownOperator token =>
    obtain ⟨htoken, c, hlast, hc⟩ := h
    exact ⟨htoken, c, List.mem_getLast?_append_of_mem_getLast? hlast, hc⟩
  | invalidLimit => exact h.imp List.suffix_append_of_suffix List.suffix_append_of_suffix
  | _ => exact h

theorem Located.append (front : List Char) (h : Located text fault) : Located (front ++ text) fault := by
  obtain ⟨before, htext, hshows⟩ := h
  exact ⟨front ++ before, by rw [htext, List.append_assoc], hshows.append front⟩

theorem Located.cons (c : Char) (h : Located text fault) : Located (c :: text) fault := h.append [c]

namespace Selector

theorem readName_located (h : readName cs = .error fault) : Located cs fault := by
  unfold readName at h
  split at h
  · next hname =>
    cases h
    exact ⟨[], rfl, stops_of_takeWhile_eq_nil hname⟩
  · cases h

theorem located_missing_operator {field : List Char} (rest : List Char)
    (hfield : ∀ c ∈ field, isOperatorChar c = false) :
    Located ('[' :: (field ++ ']' :: rest)) ⟨.unknownOperator [], field ++ ']' :: rest⟩ := by
  have hstop : Stops isOperatorChar (field ++ ']' :: rest) :=
    forall_head?_append (fun c hc => hfield c (List.mem_of_mem_head? hc)) (stops_cons.2 (by decide))
  exact ⟨['['], rfl, takeWhile_append_stops [] hstop, '[', rfl, by decide⟩

/-- The first run of operator characters ends before its bracket does, and no operator character stands before it. -/
theorem located_unknown_operator {field : List Char} (operator rest : List Char)
    (hfield : ∀ c ∈ field, isOperatorChar c = false) : Located ('[' :: (field ++ (operator ++ ']' :: rest)))
      ⟨.unknownOperator (operator.takeWhile isOperatorChar), operator ++ ']' :: rest⟩ := by
  have hlast : isOperatorChar (('[' :: field).getLast (List.cons_ne_nil '[' field)) = false := by
    rcases List.mem_cons.1 (List.getLast_mem (List.cons_ne_nil '[' field)) with h | h
    · rw [h]
      decide
    · exact hfield _ h
  exact ⟨'[' :: field, rfl, takeWhile_append_stops operator (stops_cons.2 (by decide)), _,
    List.getLast?_eq_some_getLast _, hlast⟩

/-- A field of blanks alone: one of them, or else the operator, stands where its name should. -/
theorem located_missing_field {field : List Char} {c : Char} (rest : List Char) (hblanks : Blanks field)
    (hc : isOperatorChar c = true) : Located ('[' :: (field ++ c :: rest)) ⟨.expectedName, field ++ c :: rest⟩ :=
  ⟨['['], rfl, forall_head?_append (fun d hd => isNameChar_of_isBlank (hblanks d (List.mem_of_mem_head? hd)))
    (stops_cons.2 (isNameChar_of_isOperatorChar hc))⟩

theorem readTest_located (h : readTest cs = .error fault) : Located ('[' :: cs) fault := by
  unfold readTest at h
  split at h
  · cases h
    exact ⟨[], rfl, rfl⟩
  · next body rest hbracket =>
    obtain ⟨-, rfl⟩ := bracketBody_eq_some_iff.1 hbracket
    obtain ⟨field, hrun, hbody⟩ := exists_run (!isOperatorChar ·) body
    have hstart := stops_dropWhile (!isOperatorChar ·) body
    have htake : body.takeWhile (!isOperatorChar ·) = field := by rw [hbody, takeWhile_run hrun hstart]
    have hfield : ∀ c ∈ field, isOperatorChar c = false := by simpa using hrun
    dsimp only at h
    rw [htake] at h
    generalize body.dropWhile (!isOperatorChar ·) = operator at h hbody hstart
    subst hbody
    cases operator with
    | nil =>
      cases h
      rw [List.append_nil]
      exact located_missing_operator rest hfield
    | cons c operator =>
      have hmark := stops_cons.1 hstart
      have hplace : (field ++ (c :: operator ++ ']' :: rest)).dropWhile (!isOperatorChar ·) =
          c :: operator ++ ']' :: rest := dropWhile_run hrun (stops_cons.2 hmark)
      rw [List.isEmpty_cons, if_neg Bool.false_ne_true, List.append_assoc, hplace] at h
      rw [List.append_assoc]
      split at h
      · cases h
        exact located_unknown_operator _ rest hfield
      · split at h
        · next hempty =>
          cases h
          exact located_missing_field _ (blanks_of_trim_eq_nil (List.isEmpty_iff.1 hempty)) (by simpa using hmark)
        · cases h

theorem eq_error_of_map {ε α β : Type} {f : α → β} {r : Except ε α} {e : ε} (h : r.map f = .error e) :
    r = .error e := by
  cases r with
  | error e => exact congrArg _ (Except.error.inj h)
  | ok a => cases h

theorem readPart?_located (h : readPart? cs = some (.error fault)) : Located cs fault := by
  cases cs with
  | nil => cases h
  | cons c cs =>
    simp only [readPart?] at h
    split at h
    · exact (readName_located (eq_error_of_map (Option.some.inj h))).cons c
    split at h
    · exact (readName_located (eq_error_of_map (Option.some.inj h))).cons c
    split at h
    · exact (readName_located (eq_error_of_map (Option.some.inj h))).cons c
    split at h
    · next hc =>
      rw [hc]
      exact readTest_located (eq_error_of_map (Option.some.inj h))
    · cases h

theorem readParts_located (h : readParts cs = .error fault) : Located cs fault := by
  fun_induction readParts cs with
  | case1 => cases h
  | case2 cs e hread =>
    cases h
    exact readPart?_located hread
  | case3 cs part rest hread _ e hmore ih =>
    cases h
    obtain ⟨t, -, rfl⟩ := readPart?_sound hread
    exact (ih hmore).append t
  | case4 => cases h

theorem readHead_located (h : readHead cs = .error fault) : Located cs fault := by
  cases cs with
  | nil =>
    cases h
    exact ⟨[], rfl, by simp [Shows]⟩
  | cons c cs =>
    rw [readHead] at h
    split at h
    · next hc =>
      cases h
      exact ⟨[], rfl, by simpa [Shows] using hc⟩
    split at h
    · cases h
    split at h
    · split at h
      · next hread =>
        cases h
        exact (readName_located hread).cons c
      · cases h
    split at h
    · cases h
    · cases h

theorem readLimit_eq_error (h : readLimit cs = .error fault) : fault = ⟨.invalidLimit, cs⟩ := by
  unfold readLimit at h
  split at h
  · cases h
    rfl
  · dsimp only at h
    split at h
    · cases h
      rfl
    · cases h

theorem readModifier_located (h : readModifier cs = .error fault) : Located (':' :: cs) fault := by
  obtain ⟨name, hrun, hsplit⟩ := exists_run isNameChar cs
  have htake : cs.takeWhile isNameChar = name := by rw [hsplit, takeWhile_run hrun (stops_dropWhile _ cs)]
  simp only [readModifier, htake] at h
  split at h
  · cases h
  split at h
  · cases h
  split at h
  · next hlimit =>
    subst hlimit
    split at h
    · next inside hinside =>
      cases readLimit_eq_error h
      rw [hinside] at hsplit
      exact ⟨":limit(".toList, by rw [hsplit]; rfl, Or.inr (List.suffix_refl _)⟩
    · cases h
      exact ⟨":limit".toList, congrArg (':' :: ·) hsplit, Or.inl (List.suffix_refl _)⟩
  · cases h
    exact ⟨[], rfl, cs, rfl, htake⟩

theorem readEnd_located (h : readEnd cs = .error fault) : Located cs fault := by
  unfold readEnd at h
  split at h
  · next cs =>
    split at h
    · next hread =>
      cases h
      exact readModifier_located hread
    · next hread =>
      obtain ⟨t, -, rfl⟩ := readModifier_sound hread
      split at h
      · cases h
      · split at h
        · next hc =>
          cases h
          exact ⟨':' :: t, rfl, by simp [Shows, hc]⟩
        split at h
        · cases h
          exact ⟨':' :: t, rfl, rfl⟩
        · cases h
  · cases h

theorem readPhase_located (h : readPhase cs = .error fault) : Located cs fault := by
  unfold readPhase at h
  split at h
  · next hhead =>
    cases h
    exact readHead_located hhead
  next head mid hhead =>
  obtain ⟨t, -, hcs⟩ := readHead_sound hhead
  split at h
  · next hparts =>
    cases h
    rw [hcs]
    exact (readParts_located hparts).append t
  next parts mid' hparts =>
  obtain ⟨u, -, hmid⟩ := readParts_sound hparts
  split at h
  · next hend =>
    cases h
    rw [hcs, hmid]
    exact ((readEnd_located hend).append u).append t
  split at h
  · cases h
  -- a phase that takes no character
  · split at h
    · cases h
      exact ⟨[], rfl, by simp [Shows]⟩
    · cases h
      exact ⟨[], rfl, rfl⟩

theorem located_of_skipBlanks (hrest : skipBlanks cs = rest) (h : Located rest fault) : Located cs fault := by
  obtain ⟨a, -, hsplit⟩ := exists_blanks cs
  rw [hsplit, hrest]
  exact h.append a

theorem located_of_readPhase {p : Phase} (hread : readPhase cs = .ok (p, rest)) (h : Located rest fault) :
    Located cs fault := by
  obtain ⟨t, -, rfl⟩ := readPhase_sound hread
  exact h.append t

theorem readTail_located (h : readTail cs = .error fault) : Located cs fault := by
  fun_induction readTail cs with
  | case3 cs _ rest e hread hmark =>
    cases h
    exact located_of_skipBlanks hmark ((located_of_skipBlanks rfl (readPhase_located hread)).cons '>')
  | case4 cs _ rest p rest' hread _ _ e htail hmark _ ih =>
    cases h
    have hafter := located_of_readPhase hread (ih htail)
    exact located_of_skipBlanks hmark ((located_of_skipBlanks rfl hafter).cons '>')
  | case6 cs _ c rest hmark _ _ _ e hread =>
    cases h
    exact located_of_skipBlanks hmark (readPhase_located hread)
  | case7 cs _ c rest hmark _ _ _ p rest' hread _ e htail ih =>
    cases h
    exact located_of_skipBlanks hmark (located_of_readPhase hread (ih htail))
  | case9 cs _ c rest hmark =>
    cases h
    exact located_of_skipBlanks hmark ⟨[], rfl, rfl⟩
  | _ => cases h

theorem readLeg_located (h : readLeg cs = .error fault) : Located cs fault := by
  unfold readLeg at h
  refine located_of_skipBlanks rfl ?_
  split at h
  · next hphase =>
    cases h
    exact readPhase_located hphase
  · next hphase =>
    split at h
    · next htail =>
      cases h
      exact located_of_readPhase hphase (readTail_located htail)
    · cases h

theorem located_of_readLeg {leg : Leg} (hread : readLeg cs = .ok (leg, rest)) (h : Located rest fault) :
    Located cs fault := by
  obtain ⟨a, t, b, -, -, -, -, rfl⟩ := readLeg_sound hread
  exact ((h.append b).append t).append a

theorem readLegs_located (h : readLegs cs = .error fault) : Located cs fault := by
  fun_induction readLegs cs with
  | case1 cs e hleg =>
    cases h
    exact readLeg_located hleg
  | case3 cs leg rest hleg _ _ rest' e hlegs hmark ih =>
    cases h
    exact located_of_readLeg hleg (located_of_skipBlanks hmark ((ih hlegs).cons '/'))
  | case5 cs leg rest hleg _ _ c rest' hmark =>
    cases h
    exact located_of_readLeg hleg (located_of_skipBlanks hmark ⟨[], rfl, rfl⟩)
  | _ => cases h

theorem readPhaseAlone_located (h : readPhaseAlone cs = .error fault) : Located cs fault := by
  unfold readPhaseAlone at h
  refine located_of_skipBlanks rfl ?_
  split at h
  · next hphase =>
    cases h
    exact readPhase_located hphase
  · next phase rest hphase =>
    split at h
    · cases h
    · next c rest' hmark =>
      cases h
      exact located_of_readPhase hphase (located_of_skipBlanks hmark ⟨[], rfl, rfl⟩)

end Selector

/-- An error of a text: the text is blank, or the error points between two parts of it that show the cause. -/
def Pointed (text : List Char) : SyntaxError → Prop
  | .empty => Blanks text
  | .at offset cause => ∃ before rest, text = before ++ rest ∧ byteLength before = offset ∧ Shows before rest cause

theorem pointed_errorIn (h : Located text fault) : Pointed text (errorIn text fault) := by
  obtain ⟨before, htext, hshows⟩ := h
  refine ⟨before, fault.rest, htext, ?_, hshows⟩
  rw [htext, byteLength_append, Nat.add_sub_cancel]

theorem Selector.ofChars_pointed {e : SyntaxError} (h : Selector.ofChars text = .error e) : Pointed text e := by
  unfold Selector.ofChars at h
  split at h
  · next hblank =>
    cases h
    exact List.all_eq_true.1 hblank
  · split at h
    · next hread =>
      cases h
      exact pointed_errorIn (readLegs_located hread)
    · cases h

theorem Phase.ofChars_pointed {e : SyntaxError} (h : Phase.ofChars text = .error e) : Pointed text e := by
  unfold Phase.ofChars at h
  split at h
  · next hblank =>
    cases h
    exact List.all_eq_true.1 hblank
  · split at h
    · next hread =>
      cases h
      exact pointed_errorIn (readPhaseAlone_located hread)
    · cases h

theorem Selector.ofChars_eq_empty_iff : Selector.ofChars text = .error .empty ↔ Blanks text := by
  refine ⟨fun h => Selector.ofChars_pointed h, fun h => ?_⟩
  unfold Selector.ofChars
  rw [if_pos (List.all_eq_true.2 h)]

theorem Phase.ofChars_eq_empty_iff : Phase.ofChars text = .error .empty ↔ Blanks text := by
  refine ⟨fun h => Phase.ofChars_pointed h, fun h => ?_⟩
  unfold Phase.ofChars
  rw [if_pos (List.all_eq_true.2 h)]

theorem utf8ByteSize_ofList (cs : List Char) : (String.ofList cs).utf8ByteSize = byteLength cs := by
  induction cs with
  | nil => rfl
  | cons c cs ih => rw [String.ofList_cons, String.utf8ByteSize_append, String.utf8ByteSize_singleton, ih, byteLength]

theorem Pointed.exists_append {text : String} {offset : ℕ} (h : Pointed text.toList (.at offset cause)) :
    ∃ before rest : String, text = before ++ rest ∧ before.utf8ByteSize = offset ∧
      Shows before.toList rest.toList cause := by
  obtain ⟨before, rest, htext, hoffset, hshows⟩ := h
  refine ⟨String.ofList before, String.ofList rest, ?_, (utf8ByteSize_ofList before).trans hoffset, ?_⟩
  · rw [← String.ofList_append, ← htext, String.ofList_toList]
  · rwa [String.toList_ofList, String.toList_ofList]

end

/-- Whichever of the two readers fails, the offset of its error is the place of a character of the text or its end,
and what stands there shows the cause. The error without an offset is that of blank texts. -/
theorem errors_point_at_causes (text : String) :
    (∀ offset cause,
      Selector.ofString text = .error (.at offset cause) ∨ Phase.ofString text = .error (.at offset cause) →
      offset ≤ text.utf8ByteSize ∧ String.Pos.Raw.IsValid text ⟨offset⟩ ∧
      ∃ before rest : String, text = before ++ rest ∧ before.utf8ByteSize = offset ∧
        Shows before.toList rest.toList cause) ∧
    (Selector.ofString text = .error .empty ↔ Blanks text.toList) ∧
    (Phase.ofString text = .error .empty ↔ Blanks text.toList) := by
  refine ⟨fun offset cause herror => ?_, Selector.ofChars_eq_empty_iff, Phase.ofChars_eq_empty_iff⟩
  have hpointed : Pointed text.toList (.at offset cause) := herror.elim Selector.ofChars_pointed Phase.ofChars_pointed
  obtain ⟨before, rest, rfl, rfl, hshows⟩ := hpointed.exists_append
  refine ⟨?_, String.Pos.Raw.isValid_iff_exists_append.2 ⟨before, rest, rfl, rfl⟩, before, rest, rfl, rfl, hshows⟩
  rw [String.utf8ByteSize_append]
  exact Nat.le_add_right ..

/-- An unknown operator behind characters of two and three bytes, and a text of one blank that is not of ASCII. -/
theorem errors_point_at_causes_wide :
    Selector.ofString "é / 都[名~=1]" = .error (.at 12 (.unknownOperator ['~', '='])) ∧
    (∃ before rest : String, "é / 都[名~=1]" = before ++ rest ∧ before.utf8ByteSize = 12 ∧
      Shows before.toList rest.toList (.unknownOperator ['~', '='])) ∧
    Phase.ofString "\u3000" = .error .empty := by
  have herror : Selector.ofString "é / 都[名~=1]" = .error (.at 12 (.unknownOperator ['~', '='])) := by decide +kernel
  have hblank : Blanks "\u3000".toList := List.all_eq_true.1 (by decide +kernel)
  exact ⟨herror, ((errors_point_at_causes _).1 _ _ (Or.inl herror)).2.2, (errors_point_at_causes _).2.2.2 hblank⟩

end Grove
