import Mathlib.Tactic
import Grove.Json.Reader
import Grove.Proofs.Number.ReadBack
/-!
# Strings and numbers in JSON text

The text of a string is read up to its closing quote, and escapes stand for the characters they were made of. The
text of a number is read up to a character that cannot belong to it, and has its value: an integer is written
without a point and another number with one, so that each keeps its kind.
-/

set_option autoImplicit false

namespace Grove

namespace Decimal

section
variable {s : Bool} {x : Binary64}

theorem read?_point_zero (s : Bool) (n : ℕ) : read? ((if s then ['-'] else []) ++ (natDigits n ++ ['.', '0'])) =
    read? ((if s then ['-'] else []) ++ natDigits n) := by
  have hdigits : ∀ c ∈ natDigits n, c.isDigit = true := fun c hc => isDigit_of_mem_natDigits hc
  have hzero : ∀ c ∈ ['0'], c.isDigit = true := List.forall_mem_singleton.2 rfl
  have hwhole := read?_digits s hdigits (natDigits_ne_nil n) (List.forall_mem_nil _)
  have hpoint := read?_digits s hdigits (natDigits_ne_nil n) hzero
  have hvalue : digitsValue (natDigits n ++ ['0']) = n * 10 ^ 1 := by
    rw [digitsValue_append, digitsValue_natDigits]
    exact Nat.mul_comm ..
  have hscale : -((['0'] : List Char).length : ℤ) = 0 - (1 : ℕ) := rfl
  rw [hvalue, hscale, scaled_natDigits_shift, List.isEmpty_cons, if_neg Bool.false_ne_true] at hpoint
  rw [List.isEmpty_nil, if_pos rfl, List.append_nil, digitsValue_natDigits, List.length_nil, Nat.cast_zero,
    neg_zero] at hwhole
  rw [hpoint, hwhole]

theorem pointed_whole (s : Bool) (n : ℕ) : Json.pointed ((if s then ['-'] else []) ++ natDigits n) =
    (if s then ['-'] else []) ++ (natDigits n ++ ['.', '0']) := by
  have hnone : '.' ∉ (if s then ['-'] else []) ++ natDigits n := by
    intro hmem
    rcases List.mem_append.1 hmem with hsign | hdigit
    · cases s <;> simp at hsign
    · exact absurd (isDigit_of_mem_natDigits hdigit) (by decide)
  unfold Json.pointed
  rw [if_neg hnone, List.append_assoc]

/-- A number text with a point has digits on both sides of it, and is still read as the number. -/
theorem pointed_eq (hx : x.isFinite = true) : ∃ (s : Bool) (whole : ℕ) (fraction : List Char),
    (∀ c ∈ fraction, c.isDigit = true) ∧ fraction ≠ [] ∧
    Json.pointed (text x) = (if s then ['-'] else []) ++ (natDigits whole ++ '.' :: fraction) ∧
    read? (Json.pointed (text x)) = some x := by
  have hzero : ∀ c ∈ ['0'], c.isDigit = true := List.forall_mem_singleton.2 rfl
  cases x with
  | nan => cases hx
  | infinite s => cases hx
  | finite s m e h =>
    rcases Nat.eq_zero_or_pos m with rfl | hm
    · obtain rfl : e = 0 := h.2.2.resolve_right (by decide)
      have htext : text (.finite s 0 0 h) = (if s then ['-'] else []) ++ natDigits 0 := by
        unfold text
        dsimp only
        rw [if_pos rfl]
        rfl
      refine ⟨s, 0, ['0'], hzero, List.cons_ne_nil _ _, ?_, ?_⟩
      · rw [htext, pointed_whole]
      · rw [htext, pointed_whole, read?_point_zero]
        cases s <;> rfl
    · have hread := read?_text (h := h) (s := s) hm
      have htext : text (.finite s m e h) =
          (if s then ['-'] else []) ++ positional (shortest m e).1 (shortest m e).2 := by
        unfold text
        dsimp only
        rw [if_neg hm.ne']
      obtain ⟨whole, fraction, -, -, hfraction, hpositional, -⟩ := positional_eq (shortest m e).1 (shortest m e).2
      rw [htext, hpositional] at hread ⊢
      cases fraction with
      | nil =>
        rw [List.isEmpty_nil, if_pos rfl, List.append_nil] at hread ⊢
        exact ⟨s, whole, ['0'], hzero, List.cons_ne_nil _ _, pointed_whole s whole,
          by rw [pointed_whole, read?_point_zero]; exact hread⟩
      | cons c fraction =>
        have hpoint : '.' ∈ (if s then ['-'] else []) ++ (natDigits whole ++ '.' :: (c :: fraction)) := by simp
        refine ⟨s, whole, c :: fraction, hfraction, List.cons_ne_nil _ _, if_pos hpoint, ?_⟩
        exact (congrArg read? (if_pos hpoint)).trans hread

end

end Decimal

namespace Json

section
variable {fuel n : ℕ} {out cs text rest : List Char}

theorem readUnit_append (h : readUnit text = some (n, [])) : readUnit (text ++ rest) = some (n, rest) := by
  match text with
  | [] | [_] | [_, _] | [_, _, _] => cases h
  | a :: b :: c :: d :: more =>
    unfold readUnit at h ⊢
    cases ha : hexDigit? a <;> cases hb : hexDigit? b <;> cases hc : hexDigit? c <;> cases hd : hexDigit? d <;>
      simp_all

theorem readUnit_unitDigits : ∀ n < 0x20, readUnit (unitDigits n) = some (n, []) := by
  decide +kernel

theorem readString_unit (hlow : n < 0xD800) (h : readUnit (unitDigits n) = some (n, [])) :
    readString (fuel + 1) (some out) ('\\' :: 'u' :: (unitDigits n ++ rest)) =
      readString fuel (some (Char.ofNat n :: out)) rest := by
  have hread : readUnit (unitDigits n ++ rest) = some (n, rest) := readUnit_append h
  have hhigh : ¬ (0xD800 ≤ n ∧ n < 0xDC00) := fun hn => absurd hlow (Nat.not_lt.2 hn.1)
  have hlater : ¬ (0xDC00 ≤ n ∧ n < 0xE000) := fun hn => by omega
  rw [readString, if_neg (by decide), if_neg (by decide), if_neg (by decide)]
  dsimp only
  rw [hread]
  dsimp only
  rw [if_neg hhigh, if_neg hlater]
  rfl

theorem readString_escape (c : Char) :
    readString (fuel + 1) (some out) (escape c ++ rest) = readString fuel (some (c :: out)) rest := by
  unfold escape
  split_ifs with hquote hslash hnewline hreturn htab hunit
  · subst hquote
    rfl
  · subst hslash
    rfl
  · subst hnewline
    rfl
  · subst hreturn
    rfl
  · subst htab
    rfl
  · have hlow : c.toNat < 0xD800 ∧ readUnit (unitDigits c.toNat) = some (c.toNat, []) := by
      rcases hunit with hcontrol | rfl | rfl | rfl
      · exact ⟨by omega, readUnit_unitDigits _ hcontrol⟩
      · decide +kernel
      · decide +kernel
      · decide +kernel
    have hread : readString (fuel + 1) (some out) ('\\' :: 'u' :: (unitDigits c.toNat ++ rest)) = _ :=
      readString_unit hlow.1 hlow.2
    rwa [Char.ofNat_toNat] at hread
  · change readString (fuel + 1) (some out) (c :: rest) = _
    rw [readString.eq_def]
    dsimp only
    rw [if_neg hquote, if_neg (fun hcontrol => hunit (Or.inl hcontrol)), if_pos hslash]
    rfl

/-- The inside of a string is read up to the quote that closes it. -/
theorem readString_flatMap (hfuel : cs.length < fuel) :
    readString fuel (some out) (cs.flatMap escape ++ '\"' :: rest) = some (some (cs.reverse ++ out), rest) := by
  induction cs generalizing fuel out with
  | nil =>
    obtain ⟨fuel, rfl⟩ := Nat.exists_eq_succ_of_ne_zero (Nat.ne_of_gt hfuel)
    rfl
  | cons c cs ih =>
    obtain ⟨fuel, rfl⟩ := Nat.exists_eq_succ_of_ne_zero (Nat.ne_of_gt (Nat.zero_lt_of_lt hfuel))
    rw [List.flatMap_cons, List.append_assoc, readString_escape, ih (Nat.lt_of_succ_lt_succ hfuel),
      List.reverse_cons, List.append_assoc]
    rfl

end

/-- A character that a number may go on with. -/
def isNumberPart (c : Char) : Bool := c.isDigit || c == '.' || c == 'e' || c == 'E'

section
variable {fuel room n : ℕ} {digits body text rest : List Char} {negative : Bool} {i : ℤ} {x : Binary64}

theorem stops_isDigit (h : Text.Stops isNumberPart rest) : Text.Stops Char.isDigit rest := by
  intro c hc
  have hpart := h c hc
  simp only [isNumberPart, Bool.or_eq_false_iff] at hpart
  exact hpart.1.1.1

theorem readDigits_run (hdigits : ∀ c ∈ digits, c.isDigit = true) (hne : digits ≠ [])
    (hrest : Text.Stops Char.isDigit rest) : readDigits (digits ++ rest) = some (digits, rest) := by
  unfold readDigits
  rw [Text.takeWhile_run hdigits hrest, Text.dropWhile_run hdigits hrest]
  cases digits with
  | nil => exact absurd rfl hne
  | cons c t => rfl

theorem readWhole_natDigits (hrest : Text.Stops Char.isDigit rest) :
    readWhole (Decimal.natDigits n ++ rest) = some (Decimal.natDigits n, rest) := by
  have hrun := readDigits_run (fun c hc => Decimal.isDigit_of_mem_natDigits hc) (Decimal.natDigits_ne_nil n) hrest
  cases hn : Decimal.natDigits n with
  | nil => exact absurd hn (Decimal.natDigits_ne_nil n)
  | cons c t =>
    rw [hn] at hrun
    unfold readWhole
    split
    · next u heq =>
      -- a zero stands alone
      cases heq
      obtain rfl := Decimal.eq_nil_of_natDigits_eq_cons hn
      cases rest with
      | nil => rfl
      | cons d more =>
        change (if d.isDigit = true then none else _) = _
        rw [if_neg (Bool.eq_false_iff.1 (Text.stops_cons.1 hrest))]
        rfl
    · exact hrun

theorem readExponent_stops (hrest : Text.Stops isNumberPart rest) : readExponent rest = some ([], rest) := by
  cases rest with
  | nil => rfl
  | cons c more =>
    have hpart := Text.stops_cons.1 hrest
    simp only [isNumberPart, Bool.or_eq_false_iff, beq_eq_false_iff_ne] at hpart
    unfold readExponent
    dsimp only
    rw [if_neg fun hexp => hexp.elim hpart.1.2 hpart.2]

theorem readNumber_eq {whole fraction afterWhole : List Char} (hwhole : readWhole text = some (whole, afterWhole))
    (hfraction : readFraction afterWhole = some (fraction, rest)) (hrest : Text.Stops isNumberPart rest) :
    readNumber negative text = some (numberOf negative whole fraction [], rest) := by
  unfold readNumber
  rw [hwhole]
  change (readFraction afterWhole >>= _) = _
  rw [hfraction]
  change (readExponent rest >>= _) = _
  rw [readExponent_stops hrest]
  rfl

theorem readNumber_whole (hrest : Text.Stops isNumberPart rest) :
    readNumber negative (Decimal.natDigits n ++ rest) =
      some (numberOf negative (Decimal.natDigits n) [] [], rest) := by
  have hfraction : readFraction rest = some ([], rest) := by
    unfold readFraction
    split
    · next more =>
      have hpart := Text.stops_cons.1 hrest
      cases hpart
    · rfl
  exact readNumber_eq (readWhole_natDigits (stops_isDigit hrest)) hfraction hrest

theorem readNumber_pointed (hdigits : ∀ c ∈ digits, c.isDigit = true) (hne : digits ≠ [])
    (hrest : Text.Stops isNumberPart rest) : readNumber negative (Decimal.natDigits n ++ '.' :: (digits ++ rest)) =
      some (numberOf negative (Decimal.natDigits n) ('.' :: digits) [], rest) := by
  have hpoint : Text.Stops Char.isDigit ('.' :: (digits ++ rest)) := Text.stops_cons.2 rfl
  have hfraction : readFraction ('.' :: (digits ++ rest)) = some ('.' :: digits, rest) := by
    change (readDigits (digits ++ rest)).map _ = _
    rw [readDigits_run hdigits hne (stops_isDigit hrest)]
    rfl
  exact readNumber_eq (readWhole_natDigits hpoint) hfraction hrest

theorem numberOf_integer (hi : isLong i = true) :
    numberOf (decide (i < 0)) (Decimal.natDigits i.natAbs) [] [] = .integer i := by
  have hsigned : (if decide (i < 0) = true then -(i.natAbs : ℤ) else i.natAbs) = i := by
    simp only [decide_eq_true_eq]
    split <;> omega
  have hzero : (decide (i < 0) && i.natAbs == 0) = false := by
    rw [Bool.and_eq_false_iff, decide_eq_false_iff_not, beq_eq_false_iff_ne]
    omega
  unfold numberOf
  dsimp only
  rw [Decimal.digitsValue_natDigits, hsigned, hi, hzero]
  rfl

theorem skipSpace_cons {c : Char} (h : isSpace c = false) : skipSpace (c :: rest) = c :: rest :=
  List.dropWhile_cons_of_neg (by simp [h])

theorem ne_of_isDigit {c d : Char} (hc : c.isDigit = true) (hd : d.isDigit = false) : c ≠ d := by
  rintro rfl
  rw [hc] at hd
  cases hd

theorem isSpace_of_isDigit {c : Char} (h : c.isDigit = true) : isSpace c = false := by
  simp only [isSpace, Bool.or_eq_false_iff, beq_eq_false_iff_ne]
  exact ⟨⟨⟨ne_of_isDigit h rfl, ne_of_isDigit h rfl⟩, ne_of_isDigit h rfl⟩, ne_of_isDigit h rfl⟩

theorem readValue_number (hbody : ∃ c ∈ body.head?, c.isDigit = true) :
    readValue (fuel + 1) room ((if negative then ['-'] else []) ++ (body ++ rest)) =
      readNumber negative (body ++ rest) := by
  obtain ⟨c, hc, hdigit⟩ := hbody
  obtain ⟨t, rfl⟩ : ∃ t, body = c :: t := by
    cases body with
    | nil => cases hc
    | cons d t => cases hc; exact ⟨t, rfl⟩
  cases negative with
  | true => rfl
  | false =>
    have hne : ∀ d : Char, d.isDigit = false → c ≠ d := fun _ => ne_of_isDigit hdigit
    change readValue (fuel + 1) room (c :: (t ++ rest)) = _
    unfold readValue
    rw [skipSpace_cons (isSpace_of_isDigit hdigit)]
    dsimp only
    rw [if_neg (hne _ rfl), if_neg (hne _ rfl), if_neg (hne _ rfl), if_neg (hne _ rfl), if_neg (hne _ rfl),
      if_neg (hne _ rfl), if_neg (hne _ rfl)]
    rfl

theorem head_natDigits (n : ℕ) (t : List Char) : ∃ c ∈ (Decimal.natDigits n ++ t).head?, c.isDigit = true := by
  obtain ⟨c, u, hn⟩ := List.exists_cons_of_ne_nil (Decimal.natDigits_ne_nil n)
  refine ⟨c, ?_, Decimal.isDigit_of_mem_natDigits (n := n) ?_⟩
  · rw [hn]
    rfl
  · rw [hn]
    exact List.mem_cons_self ..

theorem readValue_intDigits (hi : isLong i = true) (hrest : Text.Stops isNumberPart rest) :
    readValue (fuel + 1) room (Decimal.intDigits i ++ rest) = some (.integer i, rest) := by
  have hhead := head_natDigits i.natAbs []
  rw [List.append_nil] at hhead
  rw [Decimal.intDigits_eq, List.append_assoc, readValue_number hhead, readNumber_whole hrest, numberOf_integer hi]

theorem readValue_pointed (hx : x.isFinite = true) (hrest : Text.Stops isNumberPart rest) :
    readValue (fuel + 1) room (pointed (Decimal.text x) ++ rest) = some (.real x, rest) := by
  obtain ⟨s, whole, fraction, hdigits, hne, htext, hread⟩ := Decimal.pointed_eq hx
  have hreal : numberOf s (Decimal.natDigits whole) ('.' :: fraction) [] = .real x := by
    rw [htext] at hread
    unfold numberOf
    dsimp only
    rw [List.append_nil, List.append_assoc, hread]
    unfold ofReal
    simp [hx]
  have hhead := head_natDigits whole ('.' :: fraction)
  rw [htext, List.append_assoc, readValue_number hhead, List.append_assoc, List.cons_append,
    readNumber_pointed hdigits hne hrest, hreal]

end

end Json

end Grove
