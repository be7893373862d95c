import Mathlib.Data.List.TakeWhile
import Mathlib.Tactic
import Grove.Text.Alphanumeric
import Grove.Text.Blank
/-!
# Runs of characters

Texts cut where a run of one class of characters ends, texts without the blanks around them, and which
classes of characters are apart.
-/

set_option autoImplicit false

namespace Grove.Text

section
variable {p : Char → Bool} {a t : List Char} {c : Char}

/-- A text that does not begin with a character of a class. -/
def Stops (p : Char → Bool) (t : List Char) : Prop := ∀ c ∈ t.head?, p c = false

instance (p : Char → Bool) (t : List Char) : Decidable (Stops p t) :=
  decidable_of_iff (t.head?.all (!p ·) = true)
    ((Option.all_eq_true _ t.head?).trans (by simp [Stops, Option.mem_def]))

theorem stops_nil : Stops p [] := by simp [Stops]

theorem stops_cons : Stops p (c :: t) ↔ p c = false := by simp [Stops]

theorem stops_dropWhile (p : Char → Bool) (t : List Char) : Stops p (t.dropWhile p) := by
  intro c hc
  have h := List.head?_dropWhile_not p t
  rw [Option.mem_def.1 hc] at h
  exact h

theorem stops_of_takeWhile_eq_nil (h : t.takeWhile p = []) : Stops p t := by
  cases t with
  | nil => exact stops_nil
  | cons c t =>
    rw [stops_cons, Bool.eq_false_iff]
    intro hc
    rw [List.takeWhile_cons_of_pos hc] at h
    cases h

theorem takeWhile_run (ha : ∀ c ∈ a, p c = true) (ht : Stops p t) : (a ++ t).takeWhile p = a := by
  rw [List.takeWhile_append_of_pos ha]
  cases t with
  | nil => simp
  | cons c t => simp [stops_cons.1 ht]

theorem dropWhile_run (ha : ∀ c ∈ a, p c = true) (ht : Stops p t) : (a ++ t).dropWhile p = t := by
  rw [List.dropWhile_append_of_pos ha]
  cases t with
  | nil => rfl
  | cons c t => simp [stops_cons.1 ht]

theorem takeWhile_append_stops (a : List Char) (ht : Stops p t) : (a ++ t).takeWhile p = a.takeWhile p := by
  induction a with
  | nil =>
    cases t with
    | nil => rfl
    | cons c t => simp [stops_cons.1 ht]
  | cons c a ih => simp [List.takeWhile_cons, ih]

theorem exists_run (p : Char → Bool) (t : List Char) :
    ∃ a, (∀ c ∈ a, p c = true) ∧ t = a ++ t.dropWhile p :=
  ⟨t.takeWhile p, fun _ hc => List.mem_takeWhile_imp hc, List.takeWhile_append_dropWhile.symm⟩

theorem forall_head?_append {P : Char → Prop} (ha : ∀ c ∈ a.head?, P c) (ht : ∀ c ∈ t.head?, P c) :
    ∀ c ∈ (a ++ t).head?, P c := by
  cases a with
  | nil => exact ht
  | cons c a => exact ha

end

def Blanks (t : List Char) : Prop := ∀ c ∈ t, isBlank c = true

/-- A text without the blanks around it. -/
def Trimmed (t u : List Char) : Prop :=
  ∃ a b, Blanks a ∧ Blanks b ∧ t = a ++ u ++ b ∧ Stops isBlank u ∧ Stops isBlank u.reverse

section
variable {a b t u : List Char}

theorem blanks_nil : Blanks [] := by simp [Blanks]

theorem blanks_space : Blanks [' '] := by
  intro c hc
  rw [List.mem_singleton.1 hc]
  decide +kernel

theorem exists_blanks (t : List Char) : ∃ a, Blanks a ∧ t = a ++ skipBlanks t := exists_run isBlank t

theorem blanks_reverse (ha : Blanks a) : Blanks a.reverse := fun c hc => ha c (List.mem_reverse.1 hc)

theorem trimmed_trim (t : List Char) : Trimmed t (trim t) := by
  obtain ⟨a, ha, ht⟩ := exists_run isBlank t
  obtain ⟨b, hb, hu⟩ := exists_run isBlank (t.dropWhile isBlank).reverse
  have hsplit : t.dropWhile isBlank = trim t ++ b.reverse := by
    rw [← List.reverse_reverse (t.dropWhile isBlank), hu, List.reverse_append]
    rfl
  refine ⟨a, b.reverse, ha, blanks_reverse hb, ?_, ?_, ?_⟩
  · rw [List.append_assoc, ← hsplit]
    exact ht
  · have hstop := stops_dropWhile isBlank t
    rw [hsplit] at hstop
    intro c hc
    exact hstop c (List.mem_head?_append_of_mem_head? hc)
  · unfold trim skipBlanks
    rw [List.reverse_reverse]
    exact stops_dropWhile isBlank _

theorem trim_append (ha : Blanks a) (hb : Blanks b) (hu : Stops isBlank u)
    (hr : Stops isBlank u.reverse) : trim (a ++ u ++ b) = u := by
  unfold trim skipBlanks
  cases u with
  | nil =>
    have hall : ∀ c ∈ a ++ b, isBlank c = true := by
      intro c hc
      exact (List.mem_append.1 hc).elim (ha c) (hb c)
    rw [List.append_nil, List.dropWhile_eq_nil_iff.2 hall]
    rfl
  | cons c u =>
    rw [List.append_assoc, dropWhile_run ha (t := c :: u ++ b) (stops_cons.2 (stops_cons.1 hu)),
      List.reverse_append, dropWhile_run (blanks_reverse hb) hr, List.reverse_reverse]

theorem trim_eq_iff : trim t = u ↔ Trimmed t u := by
  constructor
  · rintro rfl
    exact trimmed_trim t
  · rintro ⟨a, b, ha, hb, rfl, hu, hr⟩
    exact trim_append ha hb hu hr

theorem blanks_of_trim_eq_nil (h : trim t = []) : Blanks t := by
  obtain ⟨a, b, ha, hb, rfl, -⟩ := trim_eq_iff.1 h
  intro c hc
  rw [List.append_nil, List.mem_append] at hc
  exact hc.elim (ha c) (hb c)

end

/-- No interval of one list meets an interval of the other. -/
def apart (as bs : List (Nat × Nat)) : Bool := as.all fun a => bs.all fun b => a.2 < b.1 || b.2 < a.1

theorem inRanges_of_apart {as bs : List (Nat × Nat)} (h : apart as bs = true) {n : Nat}
    (hn : inRanges n as = true) : inRanges n bs = false := by
  obtain ⟨a, ha, hlow, hhigh⟩ := inRanges_iff.1 hn
  rw [Bool.eq_false_iff]
  intro hb
  obtain ⟨b, hb, hlow', hhigh'⟩ := inRanges_iff.1 hb
  have hab := List.all_eq_true.1 (List.all_eq_true.1 h a ha) b hb
  simp only [Bool.or_eq_true, decide_eq_true_eq] at hab
  omega

theorem isAlphanumeric_of_isBlank {c : Char} (h : isBlank c = true) : isAlphanumeric c = false :=
  inRanges_of_apart (by decide +kernel) h

theorem isAlphanumeric_of_isDigit {c : Char} (h : c.isDigit = true) : isAlphanumeric c = true := by
  simp only [Char.isDigit, Bool.and_eq_true, decide_eq_true_eq, ge_iff_le, UInt32.le_iff_toNat_le] at h
  exact inRanges_iff.2 ⟨(0x30, 0x39), by decide, h.1, h.2⟩

theorem isBlank_of_isDigit {c : Char} (h : c.isDigit = true) : isBlank c = false := by
  rw [Bool.eq_false_iff]
  intro hb
  simpa [isAlphanumeric_of_isBlank hb] using isAlphanumeric_of_isDigit h

end Grove.Text
