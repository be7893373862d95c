import Mathlib.Tactic
import Grove.Proofs.Position.Expansion
/-!
# One digit of a long division

Ten times a remainder is divided exactly, whether or not it fits in a word. Where it does not, the remainder is added
ten times modulo the divisor. Those additions are given here with every sum and difference checked; none of them
leaves the words.
-/

set_option autoImplicit false

namespace Grove

def Word.sub? (a b : Word) : Option Word := if b ≤ a then some (a - b) else none

theorem Word.sub?_of_le {a b : Word} (h : b ≤ a) : Word.sub? a b = some (a - b) := if_pos h

theorem Word.add?_of_lt {a b : Word} (h : a.toNat + b.toNat < Word.size) : Word.add? a b = some (a + b) := if_pos h

theorem Word.mul?_eq_none_iff {a b : Word} : Word.mul? a b = none ↔ Word.size ≤ a.toNat * b.toNat := by
  unfold Word.mul?
  rw [ite_eq_right_iff, ← not_lt]
  simp

namespace Fraction

/-- One addition of `r` modulo `d` by checked sums and differences. -/
def addModuloChecked? (r d : Word) (state : Word × Word) : Option (Word × Word) := do
  let (carries, acc) := state
  let gap ← Word.sub? d acc
  if gap ≤ r then
    let acc ← Word.sub? r gap
    let carries ← Word.add? carries 1
    pure (carries, acc)
  else
    let acc ← Word.add? acc r
    pure (carries, acc)

def additionsChecked? (r d : Word) (n : ℕ) : Option (Word × Word) :=
  Nat.repeat (· >>= addModuloChecked? r d) n (some (0, 0))

section
variable {r d : Word} {n : ℕ}

theorem addModuloChecked?_eq {state : Word × Word} (hn : n < 10) (h : Accumulated r d n state) :
    addModuloChecked? r d state = some (addModulo r d state) := by
  obtain ⟨carries, acc⟩ := state
  obtain ⟨hacc, hcarries, -⟩ := h
  dsimp only at hacc hcarries
  have hgap : (d - acc).toNat = d.toNat - acc.toNat := BitVec.toNat_sub_of_le (BitVec.le_def.2 hacc.le)
  unfold addModuloChecked? addModulo
  simp only [Word.sub?_of_le (BitVec.le_def.2 hacc.le), bind, Option.bind]
  split
  · next hle =>
    have hone : (1 : Word).toNat = 1 := rfl
    have hsize : 11 < Word.size := by decide
    rw [Word.sub?_of_le hle, Word.add?_of_lt (by omega)]
    rfl
  · next hlt =>
    -- below the gap to the divisor the sum stays below the divisor, which is a word
    rw [BitVec.le_def, hgap, not_le] at hlt
    have hd := Word.toNat_lt_size d
    rw [Word.add?_of_lt (by omega)]
    rfl

theorem additionsChecked?_eq (hr : r.toNat < d.toNat) (hn : n ≤ 10) :
    additionsChecked? r d n = some (Nat.repeat (addModulo r d) n (0, 0)) := by
  induction n with
  | zero => rfl
  | succ n ih =>
    calc
      additionsChecked? r d (n + 1) = additionsChecked? r d n >>= addModuloChecked? r d := rfl
      _ = addModuloChecked? r d (Nat.repeat (addModulo r d) n (0, 0)) := by
        rw [ih (by omega)]
        rfl
      _ = some (Nat.repeat (addModulo r d) (n + 1) (0, 0)) :=
        addModuloChecked?_eq (by omega) (accumulated_repeat hr n (by omega))

theorem additionsChecked?_eq_timesTen (hr : r.toNat < d.toNat) (h : Word.mul? r 10 = none) :
    additionsChecked? r d 10 = some (timesTen r d) := by
  rw [additionsChecked?_eq hr le_rfl, timesTen, h]

/-- A digit and the remainder after it are the quotient and the remainder of ten times the remainder before it, over
unbounded numbers. The digit comes from additions only where that product is no word, and then none of their sums and
differences leaves the words. -/
theorem timesTen_is_exact (h : r < d) :
    (timesTen r d).1.toNat = 10 * r.toNat / d.toNat ∧ (timesTen r d).2.toNat = 10 * r.toNat % d.toNat ∧
    (timesTen r d).1.toNat ≤ 9 ∧ (timesTen r d).2 < d ∧
    (Word.mul? r 10 = none ↔ Word.size ≤ 10 * r.toNat) ∧
    (Word.mul? r 10 = none → additionsChecked? r d 10 = some (timesTen r d)) := by
  have hr := BitVec.lt_def.1 h
  obtain ⟨hdigit, hnext⟩ := timesTen_toNat hr
  obtain ⟨hten, hlt⟩ := timesTen_lt hr
  have hnone : Word.mul? r 10 = none ↔ Word.size ≤ r.toNat * 10 := Word.mul?_eq_none_iff
  rw [Nat.mul_comm 10]
  exact ⟨hdigit, hnext, Nat.le_of_lt_succ hten, BitVec.lt_def.2 hlt, hnone, additionsChecked?_eq_timesTen hr⟩

end

/-- The largest divisor and the largest remainder below it. -/
theorem timesTen_is_exact_largest :
    (-2 : Word) < -1 ∧ (timesTen (-2) (-1)).1.toNat = 9 ∧ (timesTen (-2) (-1)).2.toNat = 2 ^ 128 - 11 ∧
    Word.mul? (-2) 10 = none ∧ additionsChecked? (-2) (-1) 10 = some (timesTen (-2) (-1)) := by
  have hlt : (-2 : Word) < -1 := by decide
  obtain ⟨hdigit, hnext, -, -, hnone, hchecked⟩ := timesTen_is_exact hlt
  have hfallback : Word.mul? (-2) 10 = none := hnone.2 (by decide)
  exact ⟨hlt, hdigit.trans (by decide), hnext.trans (by decide), hfallback, hchecked hfallback⟩

end Fraction

end Grove
