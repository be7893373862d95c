import Mathlib.Tactic
import Grove.Proofs.Forest.Matching
/-!
# Document order

Three orders of the live models are one: that in which a stack empties the forest, with the children of each
model in the place of it, that of the recursive traversal, and that of the left boundaries, the shallower model
first on a shared one. All of them are the lexicographic order of the paths.
-/

set_option autoImplicit false

namespace Grove

/-- Lower ends, and lengths where those are equal, compare as the paths do. -/
theorem order_then_compare_length {p q : List UInt64} {lo hi lo' hi' : Fraction}
    (hp : interval p = .ok (lo, hi)) (hq : interval q = .ok (lo', hi')) :
    (lo.order lo').then (compare p.length q.length) = compareOfLessAndEq p q := by
  have hlo := (interval_unimodular hp).lower_finite
  have hlo' := (interval_unimodular hq).lower_finite
  rw [Fraction.order_eq_compare_value hlo hlo']
  unfold compareOfLessAndEq
  by_cases hlt : p < q
  · rw [if_pos hlt]
    exact (compare_then_compare (lower_lt_or_length_lt hp hq hlt)).1
  · rw [if_neg hlt]
    by_cases heq : p = q
    · subst heq
      rw [hp] at hq
      cases hq
      rw [if_pos rfl, compare_eq_iff_eq.2 rfl, compare_eq_iff_eq.2 rfl]
      rfl
    · rw [if_neg heq]
      have hgt : q < p := (List.le_iff_lt_or_eq.1 (List.not_lt.1 hlt)).resolve_right (Ne.symm heq)
      exact (compare_then_compare (lower_lt_or_length_lt hq hp hgt)).2

namespace Store

section
variable {s : Store} {order : List Handle}

theorem Wired.drains_iff (hs : s.Wired) : s.Drains s.roots order ↔ order = s.walk := by
  have hwalk := hs.walk_preorder.drains Drains.done
  rw [List.append_nil, List.append_nil] at hwalk
  constructor
  · exact fun h => h.unique hwalk
  · rintro rfl
    exact hwalk

theorem Wired.preorder_iff (hs : s.Wired) : s.Preorder s.roots order ↔ order = s.walk := by
  constructor
  · intro h
    have hdrains := h.drains Drains.done
    rw [List.append_nil, List.append_nil] at hdrains
    exact hs.drains_iff.1 hdrains
  · rintro rfl
    exact hs.walk_preorder

theorem Wired.count_walk (hs : s.Wired) (x : Handle) :
    s.walk.count x = if (s.get? x).isSome then 1 else 0 := by
  have hlive : x ∈ s.walk ↔ (s.get? x).isSome := hs.mem_walk_iff.trans Option.isSome_iff_exists.symm
  rw [hs.nodup_walk.count]
  exact if_congr hlive rfl rfl

theorem Consistent.walk_pairwise (hs : s.Consistent) : s.walk.Pairwise fun x y => ∃ mx my,
    s.get? x = some mx ∧ s.get? y = some my ∧ mx.path.indices < my.path.indices ∧
      documentOrder (x, mx) (y, my) = .lt := by
  refine hs.walk_sorted.imp_of_mem fun {x y} hx hy hlt => ?_
  obtain ⟨mx, hmx⟩ := hs.mem_walk_iff.1 hx
  obtain ⟨my, hmy⟩ := hs.mem_walk_iff.1 hy
  refine ⟨mx, my, hmx, hmy, ?_, (hs.documentOrder_of_lt hmx hmy hlt).1⟩
  rwa [pathTo_of_get? hmx, pathTo_of_get? hmy] at hlt

end

/-- The stack runs empty, having met every live model once, in the recursive order, which is the order of the
paths and of the left boundaries with the depths. Those two orders agree on all paths that have an interval. -/
theorem walk_in_documentOrder {options : StoreOptions} {ids : IdSource} {s : Store}
    {paths : List SiblingPath} (h : (Store.new options ids).Run paths s) :
    (∀ order, s.Drains s.roots order ↔ order = s.walk) ∧
    (∀ order, s.Preorder s.roots order ↔ order = s.walk) ∧
    (∀ x, s.walk.count x = if (s.get? x).isSome then 1 else 0) ∧
    (s.walk.Pairwise fun x y => ∃ mx my, s.get? x = some mx ∧ s.get? y = some my ∧
      mx.path.indices < my.path.indices ∧ documentOrder (x, mx) (y, my) = .lt) ∧
    (∀ {p q : List UInt64} {lo hi lo' hi' : Fraction}, interval p = .ok (lo, hi) →
      interval q = .ok (lo', hi') →
      (lo.order lo').then (compare p.length q.length) = compareOfLessAndEq p q) := by
  have hs := h.consistent_new
  exact ⟨fun _ => hs.drains_iff, fun _ => hs.preorder_iff, hs.count_walk, hs.walk_pairwise,
    order_then_compare_length⟩

/-- Models that share a left boundary, and a gap where one was removed. -/
theorem walk_in_documentOrder_leaning : ∃ paths, (Store.new ⟨⟨1, 4⟩, 0⟩ .counting).Run paths leaning ∧
    leaning.Drains leaning.roots [0, 1, 2, 3, 5] ∧ leaning.Preorder leaning.roots [0, 1, 2, 3, 5] ∧
    leaning.walk.count 4 = 0 ∧
    (Fraction.zero.order Fraction.zero).then (compare 1 2) = compareOfLessAndEq [0] [(0 : UInt64), 0] := by
  obtain ⟨paths, hrun⟩ := run_leaning
  have hwalk : leaning.walk = [0, 1, 2, 3, 5] := by decide +kernel
  have hdead : leaning.get? 4 = none := by decide +kernel
  obtain ⟨hdrains, hpreorder, hcount, -, horder⟩ := walk_in_documentOrder hrun
  refine ⟨paths, hrun, (hdrains _).2 hwalk.symm, (hpreorder _).2 hwalk.symm, ?_, ?_⟩
  · rw [hcount, hdead]
    rfl
  · exact horder (p := [0]) (q := [0, 0]) rfl rfl

end Store

end Grove
