/-!
# Sets of code points as lists of closed intervals
-/

set_option autoImplicit false

namespace Grove.Text

/-- Membership of a code point in a list of closed intervals. -/
def inRanges (n : Nat) : List (Nat × Nat) → Bool
  | [] => false
  | (low, high) :: rest => (low ≤ n && n ≤ high) || inRanges n rest

theorem inRanges_iff {n : Nat} {ranges : List (Nat × Nat)} :
    inRanges n ranges = true ↔ ∃ r ∈ ranges, r.1 ≤ n ∧ n ≤ r.2 := by
  induction ranges with
  | nil => simp [inRanges]
  | cons r rest ih => simp [inRanges, ih]

end Grove.Text
