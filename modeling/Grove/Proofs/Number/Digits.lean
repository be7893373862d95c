import Mathlib.Tactic
import Grove.Number.Decimal
/-!
# Runs of digits

The values of runs of ASCII digits, their order, and how many digits a number has.
-/

set_option autoImplicit false

namespace Grove.Decimal

theorem digitsValue_append (xs ys : List Char) :
    digitsValue (xs ++ ys) = 10 ^ ys.length * digitsValue xs + digitsValue ys := by
  unfold digitsValue
  rw [Nat.ofDigitChars_append, Nat.ofDigitChars_eq_ofDigitChars_zero]

theorem digitsValue_cons (c : Char) (cs : List Char) :
    digitsValue (c :: cs) = 10 ^ cs.length * (c.toNat - '0'.toNat) + digitsValue cs := by
  unfold digitsValue
  rw [Nat.ofDigitChars_cons, Nat.ofDigitChars_eq_ofDigitChars_zero, Nat.mul_zero, Nat.zero_add]

theorem digit_le {c : Char} (h : c.isDigit = true) : '0'.toNat ≤ c.toNat ∧ c.toNat ≤ '0'.toNat + 9 := by
  simp only [Char.isDigit, Bool.and_eq_true, decide_eq_true_eq, ge_iff_le, UInt32.le_iff_toNat_le] at h
  exact h

theorem digitsValue_lt {xs : List Char} (h : ∀ c ∈ xs, c.isDigit = true) :
    digitsValue xs < 10 ^ xs.length := by
  induction xs with
  | nil => simp [digitsValue]
  | cons c cs ih =>
    have hc := digit_le (h c (List.mem_cons_self ..))
    have hcs := ih fun d hd => h d (List.mem_cons_of_mem _ hd)
    have hdigit : 10 ^ cs.length * (c.toNat - '0'.toNat) ≤ 10 ^ cs.length * 9 :=
      Nat.mul_le_mul_left _ (by omega)
    rw [digitsValue_cons, List.length_cons, pow_succ]
    omega

/-- Digit strings of one length are ordered as their numbers are. -/
theorem lt_iff_digitsValue_lt {xs ys : List Char} (hlen : xs.length = ys.length)
    (hx : ∀ c ∈ xs, c.isDigit = true) (hy : ∀ c ∈ ys, c.isDigit = true) :
    xs < ys ↔ digitsValue xs < digitsValue ys := by
  induction xs generalizing ys with
  | nil =>
    cases ys with
    | nil => simp
    | cons y ys => simp at hlen
  | cons x xs ih =>
    cases ys with
    | nil => simp at hlen
    | cons y ys =>
      have hlen' : xs.length = ys.length := by simpa using hlen
      have hxs := fun d hd => hx d (List.mem_cons_of_mem x hd)
      have hys := fun d hd => hy d (List.mem_cons_of_mem y hd)
      have hx₀ := digit_le (hx x (List.mem_cons_self ..))
      have hy₀ := digit_le (hy y (List.mem_cons_self ..))
      have hvx := digitsValue_lt hxs
      have hvy := digitsValue_lt hys
      have hchar : x < y ↔ x.toNat < y.toNat := UInt32.lt_iff_toNat_lt
      rw [List.cons_lt_cons_iff, ih hlen' hxs hys, digitsValue_cons, digitsValue_cons, hlen', hchar,
        ← Char.toNat_inj]
      rw [hlen'] at hvx
      rcases lt_trichotomy x.toNat y.toNat with hlt | heq | hgt
      · have hstep : 10 ^ ys.length * (x.toNat - '0'.toNat + 1) ≤ 10 ^ ys.length * (y.toNat - '0'.toNat) :=
          Nat.mul_le_mul_left _ (by omega)
        rw [Nat.mul_add_one] at hstep
        exact iff_of_true (Or.inl hlt) (by omega)
      · rw [heq]
        simp
      · have hstep : 10 ^ ys.length * (y.toNat - '0'.toNat + 1) ≤ 10 ^ ys.length * (x.toNat - '0'.toNat) :=
          Nat.mul_le_mul_left _ (by omega)
        rw [Nat.mul_add_one] at hstep
        exact iff_of_false (by omega) (by omega)

theorem natDigits_ne_nil (n : ℕ) : natDigits n ≠ [] := Nat.toDigits_ne_nil

theorem length_natDigits_le_iff {n k : ℕ} (hk : 0 < k) : (natDigits n).length ≤ k ↔ n < 10 ^ k :=
  Nat.length_toDigits_le_iff (by decide) hk

theorem length_natDigits_eq {n k : ℕ} (hlow : 10 ^ k ≤ n) (hhigh : n < 10 ^ (k + 1)) :
    (natDigits n).length = k + 1 := by
  have hle := (length_natDigits_le_iff (Nat.succ_pos k)).2 hhigh
  have hpos := List.length_pos_iff.2 (natDigits_ne_nil n)
  rcases Nat.eq_zero_or_pos k with rfl | hk
  · omega
  · have hnot := mt (length_natDigits_le_iff hk).1 (not_lt.2 hlow)
    omega

theorem length_natDigits_mul_pow {n : ℕ} (hn : 0 < n) (k : ℕ) :
    (natDigits (n * 10 ^ k)).length = (natDigits n).length + k := by
  obtain ⟨l, hl⟩ := Nat.exists_eq_succ_of_ne_zero (List.length_pos_iff.2 (natDigits_ne_nil n)).ne'
  have hhigh : n < 10 ^ (l + 1) := (length_natDigits_le_iff (Nat.succ_pos l)).1 hl.le
  have hlow : 10 ^ l ≤ n := by
    rcases Nat.eq_zero_or_pos l with rfl | hl'
    · exact hn
    · exact not_lt.1 fun hlt => by have := (length_natDigits_le_iff hl').2 hlt; omega
  have hpow : 0 < 10 ^ k := Nat.pow_pos (by decide)
  rw [hl, Nat.succ_add]
  refine length_natDigits_eq ?_ ?_
  · rw [pow_add]
    exact Nat.mul_le_mul_right _ hlow
  · rw [show l + k + 1 = l + 1 + k by omega, pow_add]
    exact Nat.mul_lt_mul_of_pos_right hhigh hpow

theorem digitsValue_dropZeros (xs : List Char) : digitsValue (xs.dropWhile (· = '0')) = digitsValue xs := by
  induction xs with
  | nil => rfl
  | cons c xs ih =>
    by_cases hc : c = '0'
    · subst hc
      rw [List.dropWhile_cons_of_pos (by simp), ih, digitsValue_cons]
      simp
    · rw [List.dropWhile_cons_of_neg (by simpa using hc)]

theorem length_dropZeros {xs : List Char} (h : ∀ c ∈ xs, c.isDigit = true) (hpos : 0 < digitsValue xs) :
    (xs.dropWhile (· = '0')).length = (natDigits (digitsValue xs)).length := by
  have hdigits : ∀ c ∈ xs.dropWhile (· = '0'), c.isDigit = true :=
    fun c hc => h c ((List.dropWhile_sublist _).mem hc)
  have hhead := List.head?_dropWhile_not (fun c => decide (c = '0')) xs
  rw [← digitsValue_dropZeros] at hpos ⊢
  generalize xs.dropWhile (· = '0') = ys at *
  cases ys with
  | nil => simp [digitsValue] at hpos
  | cons c cs =>
    have hc := digit_le (hdigits c (List.mem_cons_self ..))
    have hne : c.toNat ≠ '0'.toNat := by
      rw [Ne, Char.toNat_inj]
      simpa using hhead
    refine (length_natDigits_eq ?_ (digitsValue_lt hdigits)).symm
    rw [digitsValue_cons]
    exact (Nat.le_mul_of_pos_right _ (by omega)).trans (Nat.le_add_right _ _)

theorem eq_nil_of_natDigits_eq_cons {n : ℕ} {t : List Char} (h : natDigits n = '0' :: t) : t = [] := by
  rcases Nat.eq_zero_or_pos n with rfl | hn
  · exact (List.cons.inj h).2.symm
  · have hlength := length_dropZeros (fun c hc => isDigit_of_mem_natDigits hc) ((digitsValue_natDigits n).symm ▸ hn)
    have hdrop := (List.dropWhile_sublist (fun c => decide (c = '0')) (l := t)).length_le
    rw [digitsValue_natDigits, h, List.dropWhile_cons_of_pos (by simp), List.length_cons] at hlength
    omega

end Grove.Decimal
