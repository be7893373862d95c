import Grove.Number.Decimal
/-!
# Sources of unique identifiers

Identifiers are drawn at random, and one that is in use already is drawn again. What chance may give is an
endless list of texts, which may repeat each other as long as the drawing comes to an end. The list comes
with a bound on how many draws in a row can give texts that are in use.
-/

set_option autoImplicit false

namespace Grove

structure IdSource where
  draw : Nat → String
  /-- how many draws in a row, from some draw on, can give texts out of a number of texts -/
  delay : Nat → Nat → Nat
  exists_unused : ∀ (used : List String) (start : Nat),
    ∃ n, start ≤ n ∧ n ≤ start + delay used.length start ∧ draw n ∉ used

namespace IdSource

/-- The first of some draws in a row whose text is not taken, or the one after them. -/
def search (ids : IdSource) (taken : String → Bool) : Nat → Nat → Nat
  | 0, n => n
  | tries + 1, n => if taken (ids.draw n) then search ids taken tries (n + 1) else n

/-- The first draw from some draw on whose text is not taken, where a number of texts are. -/
def next (ids : IdSource) (taken : String → Bool) (count start : Nat) : Nat :=
  ids.search taken (ids.delay count start) start

section
variable {ids : IdSource} {taken : String → Bool} {count : Nat}

theorem search_spec {tries n : Nat} (h : ∃ k, n ≤ k ∧ k ≤ n + tries ∧ taken (ids.draw k) = false) :
    n ≤ ids.search taken tries n ∧ taken (ids.draw (ids.search taken tries n)) = false ∧
      ∀ k, n ≤ k → k < ids.search taken tries n → taken (ids.draw k) = true := by
  induction tries generalizing n with
  | zero =>
    obtain ⟨k, hle, hge, hfree⟩ := h
    obtain rfl : k = n := Nat.le_antisymm hge hle
    exact ⟨Nat.le_refl _, hfree, fun _ hle hlt => absurd hlt (Nat.not_lt.2 hle)⟩
  | succ tries ih =>
    unfold search
    cases htaken : taken (ids.draw n) with
    | false => exact ⟨Nat.le_refl _, htaken, fun _ hle hlt => absurd hlt (Nat.not_lt.2 hle)⟩
    | true =>
      -- the draw that is not taken comes later
      obtain ⟨k, hle, hge, hfree⟩ := h
      have hne : k ≠ n := by
        rintro rfl
        rw [htaken] at hfree
        cases hfree
      have hlater : ∃ k, n + 1 ≤ k ∧ k ≤ n + 1 + tries ∧ taken (ids.draw k) = false :=
        ⟨k, by omega, by omega, hfree⟩
      obtain ⟨hle', hfree', htaken'⟩ := ih hlater
      rw [if_pos rfl]
      refine ⟨Nat.le_of_succ_le hle', hfree', fun j hj hlt => ?_⟩
      rcases Nat.eq_or_lt_of_le hj with rfl | hj
      · exact htaken
      · exact htaken' j hj hlt

theorem next_spec (ids : IdSource) (start : Nat) {used : List String} (hused : ∀ text, taken text = true → text ∈ used)
    (hcount : used.length = count) :
    start ≤ ids.next taken count start ∧ taken (ids.draw (ids.next taken count start)) = false ∧
      ∀ k, start ≤ k → k < ids.next taken count start → taken (ids.draw k) = true := by
  obtain ⟨n, hle, hge, hfree⟩ := ids.exists_unused used start
  rw [hcount] at hge
  exact search_spec ⟨n, hle, hge, Bool.eq_false_iff.2 fun h => hfree (hused _ h)⟩

end

theorem exists_unused_of_injective {text : Nat → String} (htext : Function.Injective text)
    (used : List String) (start : Nat) : ∃ n, start ≤ n ∧ n ≤ start + used.length ∧ text n ∉ used := by
  induction hlength : used.length generalizing used start with
  | zero =>
    rw [List.length_eq_zero_iff] at hlength
    exact ⟨start, Nat.le_refl _, Nat.le_refl _, by simp [hlength]⟩
  | succ k ih =>
    by_cases hstart : text start ∈ used
    · -- the text does not come up again, so it can be left out of the list
      have herase : (used.erase (text start)).length = k := by
        rw [List.length_erase_of_mem hstart, hlength, Nat.add_sub_cancel]
      obtain ⟨n, hle, hge, hunused⟩ := ih (used.erase (text start)) (start + 1) herase
      have hne : text n ≠ text start := fun h => by
        have heq := htext h
        omega
      exact ⟨n, by omega, by omega, fun hmem => hunused ((List.mem_erase_of_ne hne).2 hmem)⟩
    · exact ⟨start, Nat.le_refl _, Nat.le_add_right .., hstart⟩

def ofInjective (text : Nat → String) (htext : Function.Injective text) : IdSource :=
  ⟨text, fun count _ => count, exists_unused_of_injective htext⟩

/-- The digits of a count after a letter, padded to 32 characters. -/
def padded (n : Nat) : List Char :=
  'f' :: (List.replicate (31 - (Decimal.natDigits n).length) '0' ++ Decimal.natDigits n)

theorem padded_injective : Function.Injective padded := by
  intro m n h
  have h := congrArg Decimal.digitsValue (List.cons.inj h).2
  simpa [Decimal.digitsValue_zeros_append, Decimal.digitsValue_natDigits] using h

def counting : IdSource :=
  ofInjective (fun n => String.ofList (padded n)) fun _ _ h => padded_injective (String.ofList_inj.1 h)

instance : Inhabited IdSource := ⟨counting⟩

end IdSource

end Grove
