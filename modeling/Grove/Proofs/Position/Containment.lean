import Mathlib.Data.Rat.Floor
import Mathlib.Tactic
import Grove.Position.Span
import Grove.Proofs.Position.Interval
import Grove.Proofs.Position.Rendering
/-!
# Which spans contain which

The span of a path encloses the spans of its extensions, up to a shared left boundary when only zeros
follow. Paths that part have spans apart, in the order of the indices at which they part.
-/

set_option autoImplicit false

namespace Grove

theorem prefix_or_part (p q : List UInt64) : p <+: q ∨ q <+: p ∨
    ∃ common i j p' q', p = common ++ i :: p' ∧ q = common ++ j :: q' ∧ i ≠ j := by
  induction p generalizing q with
  | nil => exact Or.inl (List.nil_prefix ..)
  | cons i p ih =>
    cases q with
    | nil => exact Or.inr (Or.inl (List.nil_prefix ..))
    | cons j q =>
      by_cases hij : i = j
      · subst hij
        rcases ih q with h | h | ⟨common, a, b, p', q', rfl, rfl, hab⟩
        · exact Or.inl (List.prefix_cons_inj i |>.2 h)
        · exact Or.inr (Or.inl (List.prefix_cons_inj i |>.2 h))
        · exact Or.inr (Or.inr ⟨i :: common, a, b, p', q', rfl, rfl, hab⟩)
      · exact Or.inr (Or.inr ⟨[], i, j, p, q, rfl, rfl, hij⟩)

namespace Span

section
variable {format : Format} {p q : List UInt64} {s t : Span}

theorem ofIndices_eq_ok (h : ofIndices p format = .ok s) : ∃ lo hi, interval p = .ok (lo, hi) ∧
    Position.render lo format = .ok s.left ∧ Position.render hi format = .ok s.right := by
  unfold ofIndices at h
  split at h
  · cases h
  · next lo hi hint =>
    split at h
    · cases h
    · next left hleft =>
      split at h
      · cases h
      · next right hright =>
        cases h
        exact ⟨lo, hi, hint, hleft, hright⟩

theorem ne_nil_of_ofIndices (h : ofIndices p format = .ok s) : p ≠ [] := by
  obtain ⟨lo, hi, hint, -, -⟩ := ofIndices_eq_ok h
  exact (interval_eq_ok.1 hint).1

structure Rendered (format : Format) (s : Span) : Prop where
  left : s.left.Rendered format
  right : s.right.Rendered format

theorem rendered_ofIndices (h : ofIndices p format = .ok s) : s.Rendered format := by
  obtain ⟨lo, hi, -, hl, hr⟩ := ofIndices_eq_ok h
  exact ⟨(Position.render_eq_ok hl).1, (Position.render_eq_ok hr).1⟩

theorem Rendered.contains_iff (hs : s.Rendered format) (ht : t.Rendered format) :
    s.contains t = true ↔ s.left.value < t.left.value ∧ t.right.value < s.right.value := by
  unfold contains
  rw [Bool.and_eq_true, hs.left.less_iff ht.left, ht.right.less_iff hs.right]

theorem containsEncoded_iff : s.containsEncoded t = true ↔
    s.left.encoding < t.left.encoding ∧ t.right.encoding < s.right.encoding := by
  unfold containsEncoded
  rw [Bool.and_eq_true, decide_eq_true_eq, decide_eq_true_eq]

theorem Rendered.contains_of_containsEncoded (hs : s.Rendered format) (ht : t.Rendered format)
    (h : s.containsEncoded t = true) : s.contains t = true := by
  obtain ⟨hl, hr⟩ := containsEncoded_iff.1 h
  rw [hs.contains_iff ht]
  exact ⟨hs.left.value_lt ht.left hl, ht.right.value_lt hs.right hr⟩

theorem value_ofIndices {lo hi : Fraction} (h : ofIndices p format = .ok s)
    (hint : interval p = .ok (lo, hi)) : s.left.value = lo.value ∧ s.right.value = hi.value := by
  obtain ⟨lo₁, hi₁, hint₁, hl, hr⟩ := ofIndices_eq_ok h
  rw [hint] at hint₁
  cases hint₁
  exact ⟨Position.render_value (interval_unimodular hint).lower_finite hl,
    Position.render_value (interval_upper_finite hint) hr⟩

theorem left_lt_right (h : ofIndices p format = .ok s) : s.left.value < s.right.value := by
  obtain ⟨lo, hi, hint, -, -⟩ := ofIndices_eq_ok h
  obtain ⟨hl, hr⟩ := value_ofIndices h hint
  rw [hl, hr]
  exact (interval_unimodular hint).value_lt (interval_upper_finite hint)

theorem left_lt_left_iff {rest : List UInt64} (hp : ofIndices p format = .ok s)
    (hq : ofIndices (p ++ rest) format = .ok t) : s.left.value < t.left.value ↔ ∃ i ∈ rest, i ≠ 0 := by
  obtain ⟨lo, hi, hint, -, -⟩ := ofIndices_eq_ok hp
  obtain ⟨lo', hi', hint', -, -⟩ := ofIndices_eq_ok hq
  rw [(value_ofIndices hp hint).1, (value_ofIndices hq hint').1]
  exact refineAll_lower_lt_iff (interval_unimodular hint) (interval_append hint hint')

theorem right_lt_right {rest : List UInt64} (hp : ofIndices p format = .ok s)
    (hq : ofIndices (p ++ rest) format = .ok t) (hrest : rest ≠ []) : t.right.value < s.right.value := by
  obtain ⟨lo, hi, hint, -, -⟩ := ofIndices_eq_ok hp
  obtain ⟨lo', hi', hint', -, -⟩ := ofIndices_eq_ok hq
  rw [(value_ofIndices hp hint).2, (value_ofIndices hq hint').2]
  exact refineAll_upper_lt (interval_unimodular hint) (interval_upper_finite hint) hrest
    (interval_append hint hint')

/-- A span contains those of the extensions of its path in which some index is not zero. -/
theorem contains_append_iff {rest : List UInt64} (hp : ofIndices p format = .ok s)
    (hq : ofIndices (p ++ rest) format = .ok t) : s.contains t = true ↔ ∃ i ∈ rest, i ≠ 0 := by
  rw [(rendered_ofIndices hp).contains_iff (rendered_ofIndices hq), left_lt_left_iff hp hq]
  constructor
  · exact And.left
  · rintro ⟨i, hi, h⟩
    exact ⟨⟨i, hi, h⟩, right_lt_right hp hq (List.ne_nil_of_mem hi)⟩

theorem right_le_left {common p' q' : List UInt64} {i j : UInt64}
    (hp : ofIndices (common ++ i :: p') format = .ok s)
    (hq : ofIndices (common ++ j :: q') format = .ok t) (hij : i < j) : s.right.value ≤ t.left.value := by
  obtain ⟨lo₁, hi₁, hint₁, -, -⟩ := ofIndices_eq_ok hp
  obtain ⟨lo₂, hi₂, hint₂, -, -⟩ := ofIndices_eq_ok hq
  rw [(value_ofIndices hp hint₁).2, (value_ofIndices hq hint₂).1]
  exact interval_upper_le_lower hint₁ hint₂ hij

theorem not_contains_of_part {common p' q' : List UInt64} {i j : UInt64}
    (hp : ofIndices (common ++ i :: p') format = .ok s)
    (hq : ofIndices (common ++ j :: q') format = .ok t) (hij : i ≠ j) : ¬ s.contains t = true := by
  rw [(rendered_ofIndices hp).contains_iff (rendered_ofIndices hq)]
  rintro ⟨hl, hr⟩
  have hs := left_lt_right hp
  have ht := left_lt_right hq
  rcases UInt64.lt_or_lt_of_ne hij with hlt | hgt
  · have := right_le_left hp hq hlt
    linarith
  · have := right_le_left hq hp hgt
    linarith

theorem not_contains_beginning {rest : List UInt64} (hp : ofIndices p format = .ok s)
    (hq : ofIndices (p ++ rest) format = .ok t) : ¬ t.contains s = true := by
  rw [(rendered_ofIndices hq).contains_iff (rendered_ofIndices hp)]
  rintro ⟨-, hr⟩
  by_cases hrest : rest = []
  · subst hrest
    rw [List.append_nil, hp] at hq
    cases hq
    exact lt_irrefl _ hr
  · exact lt_asymm hr (right_lt_right hp hq hrest)

theorem contains_iff_exists (hp : ofIndices p format = .ok s) (hq : ofIndices q format = .ok t) :
    s.contains t = true ↔ ∃ rest, q = p ++ rest ∧ ∃ i ∈ rest, i ≠ 0 := by
  constructor
  · intro h
    rcases prefix_or_part p q with ⟨rest, rfl⟩ | ⟨rest, rfl⟩ | ⟨common, i, j, p', q', rfl, rfl, hij⟩
    · exact ⟨rest, rfl, (contains_append_iff hp hq).1 h⟩
    · exact absurd h (not_contains_beginning hq hp)
    · exact absurd h (not_contains_of_part hp hq hij)
  · rintro ⟨rest, rfl, h⟩
    exact (contains_append_iff hp hq).2 h

/-- A span contains another exactly when its path is a proper beginning of the other's and some index
after it is not zero. Spans of paths that part follow one another in the order of the indices at which
they part. -/
theorem contains_iff_beginning (hp : ofIndices p format = .ok s) (hq : ofIndices q format = .ok t) :
    (s.contains t = true ↔ p <+: q ∧ p ≠ q ∧ ∃ i ∈ q.drop p.length, i ≠ 0) ∧
    ((∀ i ∈ q.tail, 1 ≤ i) → (s.contains t = true ↔ p <+: q ∧ p ≠ q)) ∧
    (¬ p <+: q → ¬ q <+: p → ∃ common i j p' q', p = common ++ i :: p' ∧ q = common ++ j :: q' ∧ i ≠ j ∧
      (i < j → (s.right.order t.left).isLE = true) ∧ (j < i → (t.right.order s.left).isLE = true)) := by
  have hs := rendered_ofIndices hp
  have ht := rendered_ofIndices hq
  refine ⟨?_, ?_, ?_⟩
  · rw [contains_iff_exists hp hq]
    constructor
    · rintro ⟨rest, rfl, i, hi, h⟩
      have hrest : rest ≠ [] := List.ne_nil_of_mem hi
      exact ⟨List.prefix_append .., by simpa using hrest, i, by simpa using hi, h⟩
    · rintro ⟨⟨rest, rfl⟩, -, i, hi, h⟩
      exact ⟨rest, rfl, i, by simpa using hi, h⟩
  · intro hpos
    rw [contains_iff_exists hp hq]
    constructor
    · rintro ⟨rest, rfl, i, hi, -⟩
      exact ⟨List.prefix_append .., by simpa using List.ne_nil_of_mem hi⟩
    · rintro ⟨⟨rest, rfl⟩, hne⟩
      -- the path is not empty, so what follows it lies below the root level
      obtain ⟨i, rest, rfl⟩ := List.exists_cons_of_ne_nil (show rest ≠ [] by simpa using hne)
      obtain ⟨first, p, rfl⟩ := List.exists_cons_of_ne_nil (ne_nil_of_ofIndices hp)
      have hi := hpos i (by simp)
      refine ⟨i :: rest, rfl, i, List.mem_cons_self .., ?_⟩
      rintro rfl
      exact absurd hi (by decide)
  · intro hpq hqp
    rcases prefix_or_part p q with h | h | ⟨common, i, j, p', q', rfl, rfl, hij⟩
    · exact absurd h hpq
    · exact absurd h hqp
    · refine ⟨common, i, j, p', q', rfl, rfl, hij, fun hlt => ?_, fun hlt => ?_⟩
      · rw [hs.right.order_isLE ht.left]
        exact right_le_left hp hq hlt
      · rw [ht.right.order_isLE hs.left]
        exact right_le_left hq hp hlt

end

theorem contains_iff_beginning_second_root :
    ∃ s t u, ofIndices [1] ⟨2, 4⟩ = .ok s ∧ ofIndices [1, 0, 2] ⟨2, 4⟩ = .ok t ∧
      ofIndices [1, 3] ⟨2, 4⟩ = .ok u ∧ s.contains t = true ∧ s.contains u = true ∧
      ∃ (common : List UInt64) (i j : UInt64) (p' q' : List UInt64),
        [1, 0, 2] = common ++ i :: p' ∧ [1, 3] = common ++ j :: q' ∧ i ≠ j ∧
        (i < j → (t.right.order u.left).isLE = true) ∧ (j < i → (u.right.order t.left).isLE = true) := by
  have hs : ofIndices [1] ⟨2, 4⟩ = .ok ⟨⟨1, 1, "010000"⟩, ⟨2, 1, "020000"⟩⟩ := rfl
  have ht : ofIndices [1, 0, 2] ⟨2, 4⟩ = .ok ⟨⟨7, 5, "014000"⟩, ⟨10, 7, "014285"⟩⟩ := rfl
  have hu : ofIndices [1, 3] ⟨2, 4⟩ = .ok ⟨⟨7, 4, "017500"⟩, ⟨9, 5, "018000"⟩⟩ := rfl
  have hpos : ∀ i ∈ [1, 3].tail, (1 : UInt64) ≤ i := by
    rintro i (_ | ⟨_, ⟨⟩⟩)
    decide
  exact ⟨_, _, _, hs, ht, hu,
    (contains_iff_beginning hs ht).1.2 ⟨by decide, by decide, 2, by decide, by decide⟩,
    ((contains_iff_beginning hs hu).2.1 hpos).2 (by decide),
    (contains_iff_beginning ht hu).2.2 (by decide) (by decide)⟩

end Span

end Grove
