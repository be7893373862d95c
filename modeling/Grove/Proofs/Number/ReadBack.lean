import Mathlib.Data.List.TakeWhile
import Mathlib.Tactic
import Grove.Number.Shortest
import Grove.Proofs.Number.Digits
import Grove.Proofs.Text.Runs
/-!
# Printed numbers read back

The text of a finite number in a selector denotes that number, a negative zero apart, which loses its
sign. The argument is in three parts: rounding gives back what needs no rounding, a decimal may trade its
trailing zeros for its scale, and the digits that are printed were chosen because they read back.
-/

set_option autoImplicit false

namespace Grove

namespace Binary64

def signed (s : Bool) : Binary64 → Binary64
  | .nan => .nan
  | .infinite _ => .infinite s
  | .finite _ m e h => .finite s m e h

theorem ofPair_signed (s t : Bool) (m e : ℕ) : ofPair s m e = (ofPair t m e).signed s := by
  unfold ofPair
  split <;> rfl

theorem ofUnits_signed (s t : Bool) (n d : ℕ) : ofUnits s n d = (ofUnits t n d).signed s := by
  unfold ofUnits
  dsimp only
  split <;> exact ofPair_signed ..

theorem divideToEven_mul_self (m : ℕ) {d : ℕ} (hd : 0 < d) : divideToEven (m * d) d = m := by
  unfold divideToEven
  simp [Nat.mul_div_cancel _ hd, hd]

theorem divideToEven_scale (n d : ℕ) {k : ℕ} (hk : 0 < k) :
    divideToEven (n * k) (d * k) = divideToEven n d := by
  have hlt : ∀ a b : ℕ, a * k < b * k ↔ a < b := fun a b => Nat.mul_lt_mul_right hk
  unfold divideToEven
  dsimp only
  rw [Nat.mul_div_mul_right _ _ hk, Nat.mul_mod_mul_right, ← Nat.mul_assoc]
  simp only [hlt]

theorem ofUnits_scale (s : Bool) (n d : ℕ) {k : ℕ} (hk : 0 < k) :
    ofUnits s (n * k) (d * k) = ofUnits s n d := by
  unfold ofUnits
  dsimp only
  rw [Nat.mul_div_mul_right _ _ hk, Nat.mul_right_comm d k, divideToEven_scale _ _ hk]

theorem log2_units {m e : ℕ} (h : CanonicalPair m e) : (units m e).log2 + 1 - 53 = e := by
  obtain ⟨hlt, -, htop⟩ := h
  simp only [units, Nat.pow_eq] at *
  rcases Nat.eq_zero_or_pos m with rfl | hm
  · rcases htop with rfl | htop
    · simp
    · simp at htop
  · rcases htop with rfl | htop
    · have := (Nat.log2_lt hm.ne').2 hlt
      rw [pow_zero, Nat.mul_one]
      omega
    · have hlog : (m * 2 ^ e).log2 = 52 + e := by
        rw [Nat.log2_eq_iff (by positivity), pow_add, show 52 + e + 1 = 53 + e by omega, pow_add]
        exact ⟨Nat.mul_le_mul_right _ htop, Nat.mul_lt_mul_of_pos_right hlt (by positivity)⟩
      omega

/-- A number that is some finite one exactly is rounded to it. -/
theorem ofUnits_units (s : Bool) {m e d : ℕ} (h : CanonicalPair m e) (hd : 0 < d) :
    ofUnits s (units m e * d) d = .finite s m e h := by
  have hround : divideToEven (units m e * d) (d * Nat.pow 2 e) = m := by
    rw [units, Nat.mul_assoc, Nat.mul_comm (Nat.pow 2 e) d]
    exact divideToEven_mul_self m (Nat.mul_pos hd (Nat.pow_pos (by decide)))
  have hne : m ≠ Nat.pow 2 53 := h.1.ne
  unfold ofUnits
  dsimp only
  rw [Nat.mul_div_cancel _ hd, log2_units h, hround, if_neg hne, ofPair, dif_pos h]

/-- A number as its text in a selector shows it: a negative zero has lost its sign. -/
def shown : Binary64 → Binary64
  | .finite s m e h => if m = 0 then .zero else .finite s m e h
  | x => x

theorem shown_zero {s : Bool} {e : ℕ} (h : CanonicalPair 0 e) : (finite s 0 e h).shown = zero := by
  unfold shown
  rfl

theorem shown_of_pos {s : Bool} {m e : ℕ} (h : CanonicalPair m e) (hm : 0 < m) :
    (finite s m e h).shown = .finite s m e h := by
  unfold shown
  exact if_neg hm.ne'

theorem isFinite_shown {x : Binary64} (hx : x.isFinite = true) : x.shown.isFinite = true := by
  cases x with
  | nan => cases hx
  | infinite s => cases hx
  | finite s m e h =>
    rcases Nat.eq_zero_or_pos m with rfl | hm
    · rw [shown_zero]
      rfl
    · rw [shown_of_pos h hm]
      rfl

theorem shown_equal {x : Binary64} (hx : x.isFinite = true) : x.shown.equal x = true := by
  cases x with
  | nan => cases hx
  | infinite s => cases hx
  | finite s m e h =>
    rcases Nat.eq_zero_or_pos m with rfl | hm
    · have hzero : ∀ t n, signedUnits t 0 n = 0 := by
        intro t n
        cases t <;> simp [signedUnits, units]
      rw [shown_zero]
      simp [equal, compare?, zero, hzero]
    · rw [shown_of_pos h hm]
      exact equal_refl (by simp)

end Binary64

namespace Decimal

open Binary64

theorem scaled_signed (s t : Bool) (V places : ℕ) (scale : ℤ) :
    scaled s V places scale = (scaled t V places scale).signed s := by
  unfold scaled Binary64.ofRatio
  split_ifs <;> first | exact ofUnits_signed .. | rfl

/-- The two ways to form a decimal, before and after the point, as one. -/
theorem scaled_eq {V places : ℕ} {scale : ℤ} (s : Bool) (hV : V ≠ 0) (hhigh : scale + places ≤ 310)
    (hlow : -330 ≤ scale + places) : scaled s V places scale =
      ofUnits s (V * 10 ^ scale.toNat * unitsPerOne) (10 ^ (-scale).toNat) := by
  unfold scaled ofRatio
  rw [if_neg hV, if_neg (by omega), if_neg (by omega)]
  simp only [Nat.pow_eq]
  split_ifs with hscale
  · rw [show (-scale).toNat = 0 by omega, pow_zero]
  · rw [show scale.toNat = 0 by omega, pow_zero, Nat.mul_one]

theorem scaled_shift (s : Bool) (V places k : ℕ) (scale : ℤ) :
    scaled s (V * 10 ^ k) (places + k) (scale - k) = scaled s V places scale := by
  rcases Nat.eq_zero_or_pos V with rfl | hV
  · simp [scaled]
  · have hV' : V * 10 ^ k ≠ 0 := by positivity
    by_cases hhigh : 310 < scale + places
    · unfold scaled
      rw [if_neg hV', if_neg hV.ne', if_pos hhigh, if_pos (by push_cast; omega)]
    · by_cases hlow : scale + places < -330
      · unfold scaled
        rw [if_neg hV', if_neg hV.ne', if_neg hhigh, if_pos hlow, if_neg (by push_cast; omega),
          if_pos (by push_cast; omega)]
      · have hpow : k + (scale - k).toNat + (-scale).toNat = scale.toNat + (-(scale - k)).toNat := by omega
        rw [scaled_eq s hV' (by push_cast; omega) (by push_cast; omega), scaled_eq s hV.ne' (by omega) (by omega),
          ← ofUnits_scale s _ _ (show 0 < 10 ^ (-scale).toNat by positivity),
          ← ofUnits_scale s (V * 10 ^ scale.toNat * unitsPerOne) _
            (show 0 < 10 ^ (-(scale - k)).toNat by positivity)]
        generalize unitsPerOne = unitsPerOne
        congr 1
        · calc V * 10 ^ k * 10 ^ (scale - k).toNat * unitsPerOne * 10 ^ (-scale).toNat
              = V * unitsPerOne * 10 ^ (k + (scale - k).toNat + (-scale).toNat) := by
                rw [pow_add, pow_add]; ring
            _ = V * 10 ^ scale.toNat * unitsPerOne * 10 ^ (-(scale - k)).toNat := by
                rw [hpow, pow_add]; ring
        · ring

section
variable {m e V : ℕ} {scale : ℤ}

theorem scaled_of_readsBack (s : Bool) (h : CanonicalPair m e) (hread : readsBack V scale m e = true) :
    scaled s V (natDigits V).length scale = .finite s m e h := by
  -- The check is made without a sign, which rounding does not look at.
  rw [scaled_signed s false]
  unfold readsBack at hread
  split at hread
  · next t n f hn hscaled =>
    simp only [Bool.and_eq_true, beq_iff_eq] at hread
    obtain ⟨rfl, rfl⟩ := hread
    rw [hscaled]
    rfl
  · cases hread

theorem readsBack_of_candidate? {places : ℕ} (h : candidate? m e places = some (V, scale)) :
    readsBack V scale m e = true := by
  unfold candidate? at h
  dsimp only at h
  generalize decimalExponent (units m e) - places = grid at h
  generalize gridNeighbours (units m e) grid = neighbours at h
  split at h
  · next hlow hhigh =>
    cases h
    split <;> assumption
  · next hlow _ =>
    cases h
    exact hlow
  · next _ hhigh =>
    cases h
    exact hhigh
  · cases h

theorem units_pos (hm : 0 < m) : 0 < units m e := Nat.mul_pos hm (Nat.pow_pos (by decide))

theorem units_lt (h : CanonicalPair m e) : units m e < 2 ^ (53 + 2045) := by
  obtain ⟨hlt, hexp, -⟩ := h
  calc units m e < 2 ^ 53 * 2 ^ e := Nat.mul_lt_mul_of_pos_right hlt (Nat.pow_pos (by decide))
    _ = 2 ^ (53 + e) := (pow_add 2 53 e).symm
    _ ≤ 2 ^ (53 + 2045) := Nat.pow_le_pow_right (by decide) (Nat.add_le_add_left hexp 53)

/-- All digits of a number have at most 310 places before the point and fewer than 330 zeros after it. -/
theorem scaled_exactDigits (s : Bool) (h : CanonicalPair m e) (hm : 0 < m) :
    scaled s (exactDigits m e).1 (natDigits (exactDigits m e).1).length (exactDigits m e).2
      = .finite s m e h := by
  have hunits := units_pos (e := e) hm
  have hfive : 10 ^ 743 ≤ 5 ^ 1074 := by decide +kernel
  have hbound : 2 ^ (53 + 2045) * 5 ^ 1074 ≤ 10 ^ 1384 := by decide +kernel
  have hlow : 10 ^ 743 ≤ units m e * 5 ^ 1074 :=
    hfive.trans (Nat.le_mul_of_pos_left _ hunits)
  have hhigh : units m e * 5 ^ 1074 < 10 ^ 1384 :=
    (Nat.mul_lt_mul_of_pos_right (units_lt h) (by positivity)).trans_le hbound
  have hle := (length_natDigits_le_iff (by decide)).2 hhigh
  have hge : ¬ (natDigits (units m e * 5 ^ 1074)).length ≤ 743 :=
    mt (length_natDigits_le_iff (by decide)).1 (not_lt.2 hlow)
  have hten : ∀ k : ℕ, units m e * 5 ^ k * Nat.pow 2 k = units m e * 10 ^ k := fun k => by
    rw [Nat.pow_eq, Nat.mul_assoc, ← Nat.mul_pow]
  unfold exactDigits
  simp only [Nat.pow_eq]
  rw [scaled_eq s (Nat.mul_pos hunits (by positivity)).ne' (by omega) (by omega),
    show (-1074 : ℤ).toNat = 0 from rfl, show (-(-1074 : ℤ)).toNat = 1074 from rfl, pow_zero, Nat.mul_one,
    unitsPerOne, hten]
  exact ofUnits_units s h (by positivity)

theorem scaled_shortest (s : Bool) (h : CanonicalPair m e) (hm : 0 < m) :
    scaled s (shortest m e).1 (natDigits (shortest m e).1).length (shortest m e).2 = .finite s m e h := by
  unfold shortest
  cases hfind : (List.range' 1 17).findSome? (candidate? m e) with
  | none => exact scaled_exactDigits s h hm
  | some found =>
    obtain ⟨places, -, hfound⟩ := List.exists_of_findSome?_eq_some hfind
    exact scaled_of_readsBack s h (readsBack_of_candidate? hfound)

end

section
variable {whole fraction : List Char}

theorem takeSign_digits (s : Bool) {t : List Char} (h : ∃ c ∈ t.head?, c.isDigit = true) :
    takeSign ((if s then ['-'] else []) ++ t) = (s, t) := by
  obtain ⟨c, hc, hdigit⟩ := h
  obtain ⟨u, rfl⟩ : ∃ u, t = c :: u := ⟨t.tail, (List.cons_head?_tail hc).symm⟩
  cases s with
  | true => rfl
  | false =>
    simp only [Bool.false_eq_true, if_false, List.nil_append]
    unfold takeSign
    split
    · next heq => cases heq; cases hdigit
    · next heq => cases heq; cases hdigit
    · rfl

theorem scaled_dropZeros (s : Bool) (scale : ℤ) (h : ∀ c ∈ whole, c.isDigit = true) :
    scaled s (digitsValue (whole.dropWhile (· = '0'))) (whole.dropWhile (· = '0')).length scale =
      scaled s (digitsValue whole) (natDigits (digitsValue whole)).length scale := by
  rw [digitsValue_dropZeros]
  rcases Nat.eq_zero_or_pos (digitsValue whole) with hzero | hpos
  · simp [scaled, hzero]
  · rw [length_dropZeros h hpos]

theorem read?_digits (s : Bool) (hwhole : ∀ c ∈ whole, c.isDigit = true) (hne : whole ≠ [])
    (hfraction : ∀ c ∈ fraction, c.isDigit = true) :
    read? ((if s then ['-'] else []) ++ (whole ++ if fraction.isEmpty then [] else '.' :: fraction)) =
      some (scaled s (digitsValue (whole ++ fraction)) (natDigits (digitsValue (whole ++ fraction))).length
        (-fraction.length)) := by
  have hall : ∀ c ∈ whole ++ fraction, c.isDigit = true := by
    intro c hc
    exact (List.mem_append.1 hc).elim (hwhole c) (hfraction c)
  have hstop : Text.Stops Char.isDigit (if fraction.isEmpty then [] else '.' :: fraction) := by
    split
    · exact Text.stops_nil
    · exact Text.stops_cons.2 rfl
  have hempty : whole.isEmpty = false := by simpa using hne
  rw [← scaled_dropZeros s _ hall]
  unfold read?
  rw [takeSign_digits]
  · dsimp only
    rw [Text.takeWhile_run hwhole hstop, Text.dropWhile_run hwhole hstop]
    cases fraction with
    | nil => simp [hempty, exponent?]
    | cons c fraction =>
      have htake := Text.takeWhile_run hfraction (Text.stops_nil (p := Char.isDigit))
      have hdrop := Text.dropWhile_run hfraction (Text.stops_nil (p := Char.isDigit))
      rw [List.append_nil] at htake hdrop
      simp [htake, hdrop, hempty, exponent?]
  · obtain ⟨c, u, rfl⟩ := List.exists_cons_of_ne_nil hne
    exact ⟨c, rfl, hwhole c (List.mem_cons_self ..)⟩

end

theorem isDigit_of_mem_dropTrailingZeros {digits : List Char} (h : ∀ c ∈ digits, c.isDigit = true) :
    ∀ c ∈ dropTrailingZeros digits, c.isDigit = true := by
  intro c hc
  exact h c (List.mem_reverse.1 ((List.dropWhile_sublist _).mem (List.mem_reverse.1 hc)))

theorem dropTrailingZeros_append (digits : List Char) :
    ∃ k, dropTrailingZeros digits ++ List.replicate k '0' = digits := by
  obtain ⟨zeros, hzeros, hsplit⟩ := Text.exists_run (fun c => decide (c = '0')) digits.reverse
  have hreplicate := List.eq_replicate_of_mem (fun c hc => of_decide_eq_true (hzeros c hc))
  refine ⟨zeros.length, ?_⟩
  have hrev := congrArg List.reverse hsplit
  rw [List.reverse_reverse, List.reverse_append, hreplicate, List.reverse_replicate] at hrev
  exact hrev.symm

theorem digitsValue_replicate_zeros (k : ℕ) : digitsValue (List.replicate k '0') = 0 := by
  rw [← List.append_nil (List.replicate k '0'), digitsValue_zeros_append]
  rfl

theorem positional_eq (V : ℕ) (scale : ℤ) : ∃ (whole : ℕ) (fraction : List Char) (j k : ℕ),
    (∀ c ∈ fraction, c.isDigit = true) ∧
    positional V scale = natDigits whole ++ (if fraction.isEmpty then [] else '.' :: fraction) ∧
    digitsValue (natDigits whole ++ fraction) * 10 ^ j = V * 10 ^ k ∧
    -(fraction.length : ℤ) - j = scale - k := by
  unfold positional
  simp only [Nat.pow_eq]
  split
  · next hscale =>
    refine ⟨V * 10 ^ scale.toNat, [], 0, scale.toNat, by simp, by simp, ?_, ?_⟩
    · rw [List.append_nil, digitsValue_natDigits, pow_zero, Nat.mul_one]
    · simp only [List.length_nil]
      omega
  · next hscale =>
    -- The digits below the point, filled up with zeros to their places before the last ones are dropped.
    generalize hplaces : (-scale).toNat = places
    have hlen : (natDigits (V % 10 ^ places)).length ≤ places :=
      (length_natDigits_le_iff (by omega)).2 (Nat.mod_lt _ (by positivity))
    generalize hbelow : List.replicate (places - (natDigits (V % 10 ^ places)).length) '0'
      ++ natDigits (V % 10 ^ places) = below
    have hbelowLength : below.length = places := by
      rw [← hbelow, List.length_append, List.length_replicate]
      omega
    have hbelowValue : digitsValue below = V % 10 ^ places := by
      rw [← hbelow, digitsValue_zeros_append, digitsValue_natDigits]
    have hbelowDigits : ∀ c ∈ below, c.isDigit = true := by
      rw [← hbelow]
      intro c hc
      rcases List.mem_append.1 hc with hc | hc
      · rw [List.eq_of_mem_replicate hc]
        rfl
      · exact isDigit_of_mem_natDigits hc
    obtain ⟨k, hk⟩ := dropTrailingZeros_append below
    have hkLength := congrArg List.length hk
    rw [List.length_append, List.length_replicate, hbelowLength] at hkLength
    refine ⟨V / 10 ^ places, dropTrailingZeros below, k, 0, isDigit_of_mem_dropTrailingZeros hbelowDigits, rfl,
      ?_, by omega⟩
    rw [pow_zero, Nat.mul_one]
    have hvalue : digitsValue (natDigits (V / 10 ^ places) ++ below) = V := by
      rw [digitsValue_append, hbelowLength, digitsValue_natDigits, hbelowValue]
      exact Nat.div_add_mod V (10 ^ places)
    rw [← hk, ← List.append_assoc, digitsValue_append, List.length_replicate, digitsValue_replicate_zeros,
      Nat.add_zero, Nat.mul_comm] at hvalue
    exact hvalue

theorem scaled_natDigits_shift (s : Bool) (V k : ℕ) (scale : ℤ) :
    scaled s (V * 10 ^ k) (natDigits (V * 10 ^ k)).length (scale - k) =
      scaled s V (natDigits V).length scale := by
  rcases Nat.eq_zero_or_pos V with rfl | hV
  · simp [scaled]
  · rw [length_natDigits_mul_pow hV, scaled_shift]

theorem read?_positional (s : Bool) (V : ℕ) (scale : ℤ) :
    read? ((if s then ['-'] else []) ++ positional V scale) =
      some (scaled s V (natDigits V).length scale) := by
  obtain ⟨whole, fraction, j, k, hfraction, htext, hvalue, hscale⟩ := positional_eq V scale
  rw [htext, read?_digits s (fun c hc => isDigit_of_mem_natDigits hc) (natDigits_ne_nil whole) hfraction,
    ← scaled_natDigits_shift s _ j, hvalue, hscale, scaled_natDigits_shift]

theorem intDigits_eq (i : ℤ) :
    intDigits i = (if decide (i < 0) then ['-'] else []) ++ natDigits i.natAbs := by
  unfold intDigits
  split <;> simp_all

theorem read?_intDigits (i : ℤ) : read? (intDigits i) =
    some (scaled (decide (i < 0)) i.natAbs (natDigits i.natAbs).length 0) := by
  have hread := read?_digits (decide (i < 0)) (fun c hc => isDigit_of_mem_natDigits hc)
    (natDigits_ne_nil i.natAbs) (List.forall_mem_nil _)
  simpa [intDigits_eq, digitsValue_natDigits] using hread

theorem toInt?_eq_some {s : Bool} {m e : ℕ} {h : CanonicalPair m e} {i : ℤ}
    (hi : (Binary64.finite s m e h).toInt? = some i) :
    units m e = i.natAbs * unitsPerOne ∧ (s = false → 0 ≤ i) ∧ (s = true → i ≤ 0) := by
  unfold toInt? at hi
  dsimp only at hi
  split at hi
  · next hmod =>
    have hdiv := Nat.div_mul_cancel (Nat.dvd_of_mod_eq_zero hmod)
    generalize units m e / unitsPerOne = n at *
    cases s with
    | false =>
      obtain rfl : (n : ℤ) = i := by simpa using hi
      exact ⟨by rw [Int.natAbs_natCast]; exact hdiv.symm, fun _ => Int.natCast_nonneg n, by simp⟩
    | true =>
      obtain rfl : -(n : ℤ) = i := by simpa using hi
      exact ⟨by rw [Int.natAbs_neg, Int.natAbs_natCast]; exact hdiv.symm, by simp, fun _ => by omega⟩
  · cases hi

section
variable {s : Bool} {m e : ℕ} {h : CanonicalPair m e} {i : ℤ}

theorem read?_text (hm : 0 < m) : read? (text (.finite s m e h)) = some (.finite s m e h) := by
  unfold text
  dsimp only
  rw [if_neg hm.ne', read?_positional, scaled_shortest s h hm]

theorem read?_intDigits_eq (hm : 0 < m) (hi : (Binary64.finite s m e h).toInt? = some i)
    (hsmall : i.natAbs < 10 ^ 15) : read? (intDigits i) = some (.finite s m e h) := by
  obtain ⟨hunits, hplus, hminus⟩ := toInt?_eq_some hi
  have hne : i.natAbs ≠ 0 := by
    intro hzero
    rw [hzero, Nat.zero_mul] at hunits
    exact (units_pos hm).ne' hunits
  have hsign : decide (i < 0) = s := by
    cases s with
    | false => simpa using hplus rfl
    | true =>
      have := hminus rfl
      exact decide_eq_true (by omega)
  have hlen := (length_natDigits_le_iff (n := i.natAbs) (k := 15) (by decide)).2 hsmall
  rw [read?_intDigits, hsign, scaled_eq s hne (by omega) (by omega)]
  simp only [Int.toNat_zero, neg_zero, pow_zero, Nat.mul_one]
  rw [← hunits, ← ofUnits_units s h Nat.one_pos, Nat.mul_one]

theorem plainText_zero {h : CanonicalPair 0 e} : plainText (.finite s 0 e h) = ['0'] := by
  have hzero : (Binary64.finite s 0 e h).toInt? = some 0 := by simp [toInt?, units]
  simp [plainText, hzero, intDigits]
  rfl

end

theorem read?_plainText {x : Binary64} (hx : x.isFinite = true) : read? (plainText x) = some x.shown := by
  cases x with
  | nan => cases hx
  | infinite s => cases hx
  | finite s m e h =>
    rcases Nat.eq_zero_or_pos m with rfl | hm
    · rw [plainText_zero, shown_zero]
      decide +kernel
    · rw [shown_of_pos h hm]
      unfold plainText
      split
      · next i hi =>
        split
        · next hsmall => exact read?_intDigits_eq hm hi hsmall
        · exact read?_text hm
      · exact read?_text hm

/-- A sign, digits, and a point before more digits. -/
inductive NumberText : List Char → Prop
  | mk (s : Bool) {whole fraction : List Char} : (∀ c ∈ whole, c.isDigit = true) → whole ≠ [] →
      (∀ c ∈ fraction, c.isDigit = true) →
      NumberText ((if s then ['-'] else []) ++ (whole ++ if fraction.isEmpty then [] else '.' :: fraction))

theorem mem_numberText {t : List Char} {c : Char} (h : NumberText t) (hc : c ∈ t) :
    c.isDigit = true ∨ c = '-' ∨ c = '.' := by
  cases h with
  | @mk s whole fraction hwhole _ hfraction =>
    rcases List.mem_append.1 hc with hc | hc
    · cases s with
      | true => exact Or.inr (Or.inl (List.mem_singleton.1 hc))
      | false => cases hc
    · rcases List.mem_append.1 hc with hc | hc
      · exact Or.inl (hwhole c hc)
      · split at hc
        · cases hc
        · rcases List.mem_cons.1 hc with hc | hc
          · exact Or.inr (Or.inr hc)
          · exact Or.inl (hfraction c hc)

theorem exists_digit_of_numberText {t : List Char} (h : NumberText t) : ∃ c ∈ t, c.isDigit = true := by
  cases h with
  | mk s hwhole hne =>
    obtain ⟨c, u, rfl⟩ := List.exists_cons_of_ne_nil hne
    exact ⟨c, by simp, hwhole c (List.mem_cons_self ..)⟩

theorem numberText_positional (s : Bool) (V : ℕ) (scale : ℤ) :
    NumberText ((if s then ['-'] else []) ++ positional V scale) := by
  obtain ⟨whole, fraction, -, -, hfraction, htext, -⟩ := positional_eq V scale
  rw [htext]
  exact NumberText.mk s (fun c hc => isDigit_of_mem_natDigits hc) (natDigits_ne_nil whole) hfraction

theorem numberText_natDigits (s : Bool) (n : ℕ) : NumberText ((if s then ['-'] else []) ++ natDigits n) := by
  have h := NumberText.mk s (fun c hc => isDigit_of_mem_natDigits hc) (natDigits_ne_nil n)
    (List.forall_mem_nil _)
  simpa using h

theorem numberText_plainText {x : Binary64} (hx : x.isFinite = true) : NumberText (plainText x) := by
  cases x with
  | nan => cases hx
  | infinite s => cases hx
  | finite s m e h =>
    have htext : NumberText (text (.finite s m e h)) := by
      unfold text
      dsimp only
      by_cases hm : m = 0
      · rw [if_pos hm]
        exact numberText_natDigits s 0
      · rw [if_neg hm]
        exact numberText_positional s ..
    unfold plainText
    split
    · split
      · rw [intDigits_eq]
        exact numberText_natDigits ..
      · exact htext
    · exact htext

end Decimal

end Grove
