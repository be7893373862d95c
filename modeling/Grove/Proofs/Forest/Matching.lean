import Mathlib.Data.List.Sort
import Mathlib.Tactic
import Grove.Forest.Match
import Grove.Proofs.Forest.Run
import Grove.Proofs.Position.Containment
/-!
# Matching one phase

Sorting by document order puts live models in the order of the walk, whatever order they come in. So one
phase finds the part of the walk that its scope reaches and that satisfies it, cut by its modifier.
-/

set_option autoImplicit false

namespace Grove

theorem nodup_eraseDups {α : Type} [BEq α] [LawfulBEq α] (l : List α) : l.eraseDups.Nodup := by
  induction hn : l.length using Nat.strong_induction_on generalizing l with
  | _ n ih =>
    cases l with
    | nil => exact List.nodup_nil
    | cons a rest =>
      rw [List.eraseDups_cons, List.nodup_cons, List.mem_eraseDups]
      refine ⟨by simp, ih _ ?_ _ rfl⟩
      rw [← hn]
      exact Nat.lt_succ_of_le (List.length_filter_le ..)

/-- Path order is that of the lower ends, and of the lengths where those are equal. -/
theorem lower_lt_or_length_lt {p q : List UInt64} {lo hi lo' hi' : Fraction}
    (hp : interval p = .ok (lo, hi)) (hq : interval q = .ok (lo', hi')) (hlt : p < q) :
    lo.value < lo'.value ∨ lo.value = lo'.value ∧ p.length < q.length := by
  rcases prefix_or_part_of_lt hlt with ⟨rest, hrest, rfl⟩ | ⟨common, i, j, p', q', rfl, rfl, hij⟩
  · have hle := refineAll_lower_le (interval_unimodular hp) (interval_append hp hq)
    rcases hle.lt_or_eq with h | h
    · exact Or.inl h
    · refine Or.inr ⟨h, ?_⟩
      rw [List.length_append]
      exact Nat.lt_add_of_pos_right (List.length_pos_iff.2 hrest)
  · have hlt := (interval_unimodular hp).value_lt (interval_upper_finite hp)
    exact Or.inl (hlt.trans_le (interval_upper_le_lower hp hq hij))

theorem compare_then_compare {a b : ℚ} {m n : ℕ} (h : a < b ∨ a = b ∧ m < n) :
    (compare a b).then (compare m n) = .lt ∧ (compare b a).then (compare n m) = .gt := by
  rcases h with h | ⟨rfl, h⟩
  · rw [compare_lt_iff_lt.2 h, compare_gt_iff_gt.2 h]
    exact ⟨rfl, rfl⟩
  · rw [compare_eq_iff_eq.2 rfl, compare_lt_iff_lt.2 h, compare_gt_iff_gt.2 h]
    exact ⟨rfl, rfl⟩

theorem Span.left_lt_or_depth_lt {format : Format} {p q : List UInt64} {s t : Span}
    (hp : ofIndices p format = .ok s) (hq : ofIndices q format = .ok t) (hlt : p < q) :
    s.left.value < t.left.value ∨ s.left.value = t.left.value ∧ p.length < q.length := by
  obtain ⟨lo, hi, hint, -, -⟩ := ofIndices_eq_ok hp
  obtain ⟨lo', hi', hint', -, -⟩ := ofIndices_eq_ok hq
  rw [(value_ofIndices hp hint).1, (value_ofIndices hq hint').1]
  exact lower_lt_or_length_lt hint hint' hlt

namespace Store

section
variable {s : Store} {a b : Handle} {ma mb : Model}

theorem Consistent.documentOrder_of_lt (hs : s.Consistent) (ha : s.get? a = some ma)
    (hb : s.get? b = some mb) (hlt : s.pathTo (some a) < s.pathTo (some b)) :
    documentOrder (a, ma) (b, mb) = .lt ∧ documentOrder (b, mb) (a, ma) = .gt := by
  have hra := (Span.rendered_ofIndices (hs.span ha)).left
  have hrb := (Span.rendered_ofIndices (hs.span hb)).left
  rw [pathTo_of_get? ha, pathTo_of_get? hb] at hlt
  unfold documentOrder
  dsimp only
  rw [hra.order_eq hrb, hrb.order_eq hra]
  exact compare_then_compare (Span.left_lt_or_depth_lt (hs.span ha) (hs.span hb) hlt)

theorem Consistent.documentOrder_self (hs : s.Consistent) (ha : s.get? a = some ma) :
    documentOrder (a, ma) (a, ma) = .eq := by
  have hra := (Span.rendered_ofIndices (hs.span ha)).left
  unfold documentOrder
  dsimp only
  rw [hra.order_eq hra, compare_eq_iff_eq.2 rfl, compare_eq_iff_eq.2 rfl]
  rfl

theorem Consistent.eq_of_pathTo_eq (hs : s.Consistent) (ha : s.get? a = some ma)
    (hb : s.get? b = some mb) (h : s.pathTo (some a) = s.pathTo (some b)) : a = b := by
  rw [pathTo_of_get? ha, pathTo_of_get? hb] at h
  exact hs.eq_of_path_eq ha hb h

def pathLE (s : Store) (a b : Handle) : Bool := decide (s.pathTo (some a) ≤ s.pathTo (some b))

theorem pathLE_trans (a b c : Handle) (hab : s.pathLE a b = true) (hbc : s.pathLE b c = true) :
    s.pathLE a c = true := by
  unfold pathLE at hab hbc ⊢
  rw [decide_eq_true_iff] at hab hbc ⊢
  exact List.le_trans hab hbc

theorem pathLE_total (a b : Handle) : (s.pathLE a b || s.pathLE b a) = true := by
  unfold pathLE
  rw [Bool.or_eq_true, decide_eq_true_iff, decide_eq_true_iff]
  exact List.le_total ..

theorem Consistent.isLE_eq_pathLE (hs : s.Consistent) (ha : s.get? a = some ma) (hb : s.get? b = some mb)
    {order : Ordering} (hlt : s.pathTo (some a) < s.pathTo (some b) → order = .lt)
    (hgt : s.pathTo (some b) < s.pathTo (some a) → order = .gt) (heq : a = b → order = .eq) :
    order.isLE = s.pathLE a b := by
  unfold pathLE
  by_cases hle : s.pathTo (some a) ≤ s.pathTo (some b)
  · rw [decide_eq_true hle]
    rcases List.le_iff_lt_or_eq.1 hle with h | h
    · rw [hlt h]
      rfl
    · rw [heq (hs.eq_of_pathTo_eq ha hb h)]
      rfl
  · rw [decide_eq_false hle, hgt (List.not_le.1 hle)]
    rfl

theorem Consistent.documentOrder_isLE (hs : s.Consistent) (ha : s.get? a = some ma)
    (hb : s.get? b = some mb) : (documentOrder (a, ma) (b, mb)).isLE = s.pathLE a b := by
  refine hs.isLE_eq_pathLE ha hb (fun h => (hs.documentOrder_of_lt ha hb h).1)
    (fun h => (hs.documentOrder_of_lt hb ha h).2) ?_
  rintro rfl
  rw [ha] at hb
  cases hb
  exact hs.documentOrder_self ha

theorem eq_of_pathTo_sorted {l l' : List Handle}
    (hl : l.Pairwise fun a b => s.pathTo (some a) < s.pathTo (some b))
    (hl' : l'.Pairwise fun a b => s.pathTo (some a) < s.pathTo (some b)) (hmem : ∀ x, x ∈ l ↔ x ∈ l') :
    l = l' := by
  have hirrefl : Std.Irrefl fun a b => s.pathTo (some a) < s.pathTo (some b) :=
    ⟨fun _ => List.lt_irrefl _⟩
  have hantisymm : Std.Antisymm fun a b => s.pathTo (some a) < s.pathTo (some b) :=
    ⟨fun _ _ hab hba => absurd hba (List.lt_asymm hab)⟩
  exact hl.eq_of_mem_iff hl' hmem

/-- Sorting live models by their paths gives them in the order of the walk. -/
theorem Consistent.mergeSort_eq {l : List Handle} (hs : s.Consistent)
    (hlive : ∀ h ∈ l, ∃ m, s.get? h = some m) (hnodup : l.Nodup) :
    l.mergeSort s.pathLE = s.walk.filter (· ∈ l) := by
  have hperm := List.mergeSort_perm l s.pathLE
  have hsorted : (l.mergeSort s.pathLE).Pairwise fun a b => s.pathLE a b = true :=
    List.pairwise_mergeSort pathLE_trans pathLE_total _
  -- without repeats, what is sorted is strictly sorted
  have hstrict : (l.mergeSort s.pathLE).Pairwise fun a b => s.pathTo (some a) < s.pathTo (some b) := by
    refine (hsorted.and (hperm.nodup_iff.2 hnodup)).imp_of_mem ?_
    rintro a b ha hb ⟨hab, hne⟩
    obtain ⟨ma, hma⟩ := hlive a (hperm.mem_iff.1 ha)
    obtain ⟨mb, hmb⟩ := hlive b (hperm.mem_iff.1 hb)
    unfold pathLE at hab
    rw [decide_eq_true_iff, List.le_iff_lt_or_eq] at hab
    exact hab.resolve_right fun h => hne (hs.eq_of_pathTo_eq hma hmb h)
  refine eq_of_pathTo_sorted hstrict (hs.walk_sorted.filter _) fun a => ?_
  rw [hperm.mem_iff, List.mem_filter, decide_eq_true_iff, hs.mem_walk_iff]
  exact ⟨fun ha => ⟨hlive a ha, ha⟩, And.right⟩

end

section
variable {s : Store} {scope : Scope} {combinator : Combinator} {phase : Phase} {handles : List Handle}
variable {h : Handle} {m : Model}

def meets (s : Store) (phase : Phase) (h : Handle) : Bool := (s.get? h).any (·.satisfies phase)

theorem map_fst_matching (s : Store) (phase : Phase) (handles : List Handle) :
    (s.matching phase handles).map Prod.fst = handles.filter (s.meets phase) := by
  unfold matching
  induction handles with
  | nil => rfl
  | cons h rest ih =>
    cases hm : s.get? h with
    | none => simp [hm, meets, ih]
    | some m =>
      by_cases hsat : m.satisfies phase = true
      · simp [hm, meets, hsat, ih]
      · simp [hm, meets, hsat, ih]

theorem get?_of_mem_matching {x : Handle × Model} (hx : x ∈ s.matching phase handles) :
    s.get? x.1 = some x.2 := by
  unfold matching at hx
  obtain ⟨h, -, heq⟩ := List.mem_filterMap.1 hx
  split at heq
  · next m hm =>
    split at heq
    · cases heq
      exact hm
    · cases heq
  · cases heq

/-- One phase finds a part of the walk, cut by its modifier. -/
theorem Consistent.matchStep_eq (hs : s.Consistent) (scope : Scope) (combinator : Combinator)
    (phase : Phase) : s.matchStep scope combinator phase = Modifier.applyTo phase.modifier
      (s.walk.filter fun h => (s.candidates scope combinator).contains h && s.meets phase h) := by
  unfold matchStep
  dsimp only
  congr 1
  have hfst := map_fst_matching s phase (s.candidates scope combinator).eraseDups
  generalize hfound : s.matching phase (s.candidates scope combinator).eraseDups = found at hfst
  have hget : ∀ x ∈ found, s.get? x.1 = some x.2 := by
    intro x hx
    rw [← hfound] at hx
    exact get?_of_mem_matching hx
  have hsort : (found.mergeSort fun a b => (documentOrder a b).isLE).map Prod.fst =
      (found.map Prod.fst).mergeSort s.pathLE :=
    List.map_mergeSort fun x hx y hy => hs.documentOrder_isLE (hget x hx) (hget y hy)
  have hlive : ∀ h ∈ found.map Prod.fst, ∃ m, s.get? h = some m := by
    intro h hh
    obtain ⟨x, hx, rfl⟩ := List.mem_map.1 hh
    exact ⟨x.2, hget x hx⟩
  rw [hsort, hs.mergeSort_eq hlive]
  · refine List.filter_congr fun h _ => ?_
    rw [hfst, Bool.eq_iff_iff, decide_eq_true_iff, List.mem_filter, List.mem_eraseDups,
      Bool.and_eq_true_iff, List.contains_iff_mem]
  · rw [hfst]
    exact (nodup_eraseDups _).filter _

theorem Consistent.matchStep_sublist (hs : s.Consistent) :
    (s.matchStep scope combinator phase).Sublist s.walk := by
  rw [hs.matchStep_eq]
  exact (Modifier.applyTo_sublist _ _).trans List.filter_sublist

/-- What a combinator leads to from a scope. -/
def Leads (s : Store) : Scope → Combinator → Handle → Prop
  | .forest, .child, h => s.parent? h = none
  | .forest, .descendant, _ => True
  | .models handles, .child, h => ∃ p ∈ handles, s.IsParent p h
  | .models handles, .descendant, h => ∃ p ∈ handles, s.Above p h

theorem Consistent.mem_candidates_iff (hs : s.Consistent) (hm : s.get? h = some m) :
    h ∈ s.candidates scope combinator ↔ s.Leads scope combinator h := by
  unfold candidates Leads
  cases scope with
  | forest =>
    cases combinator with
    | descendant => exact ⟨fun _ => trivial, fun _ => hs.mem_walk_iff.2 ⟨m, hm⟩⟩
    | child =>
      dsimp only
      rw [parent?_of_get? hm]
      constructor
      · intro hroot
        obtain ⟨m', hm', hp⟩ := hs.linked (show h ∈ s.siblings none from hroot)
        rw [hm] at hm'
        cases hm'
        exact hp
      · intro hp
        have hlisted := hs.listed hm
        rwa [hp] at hlisted
  | models handles =>
    cases combinator with
    | descendant =>
      dsimp only
      rw [List.mem_flatMap]
      simp only [hs.mem_descendants_iff]
    | child =>
      dsimp only
      rw [List.mem_flatMap]
      simp only [hs.mem_children_iff]

/-- Whether a combinator leads from a scope to a live model, asked of that model alone. -/
def leadsTo (s : Store) : Scope → Combinator → Handle → Bool
  | .forest, .child, h => (s.parent? h).isNone
  | .forest, .descendant, _ => true
  | .models handles, .child, h => (s.parent? h).any handles.contains
  | .models handles, .descendant, h => handles.any fun p => s.isAncestor p h

theorem Consistent.leadsTo_iff (hs : s.Consistent) :
    s.leadsTo scope combinator h = true ↔ s.Leads scope combinator h := by
  cases scope with
  | forest => cases combinator <;> simp [leadsTo, Leads]
  | models handles =>
    cases combinator with
    | descendant => simp [leadsTo, Leads, hs.isAncestor_iff]
    | child => simp [leadsTo, Leads, IsParent, Option.any_eq_true, and_comm]

/-- One phase finds what the walk meets of the models that satisfy it and to which its combinator leads,
cut by its modifier, in whatever order and how often the scope names its models. -/
theorem matchStep_eq_filter_walk {options : StoreOptions} {ids : IdSource} {paths : List SiblingPath}
    (h : (Store.new options ids).Run paths s) (scope : Scope) (combinator : Combinator) (phase : Phase) :
    s.matchStep scope combinator phase = Modifier.applyTo phase.modifier
      (s.walk.filter fun x => s.meets phase x && s.leadsTo scope combinator x) ∧
    (s.matchStep scope combinator phase).Nodup ∧
    (s.matchStep scope combinator phase).Sublist s.walk ∧
    s.Preorder s.roots s.walk := by
  have hs := h.consistent_new
  refine ⟨?_, hs.nodup_walk.sublist hs.matchStep_sublist, hs.matchStep_sublist, hs.walk_preorder⟩
  rw [hs.matchStep_eq]
  congr 1
  refine List.filter_congr fun x hx => ?_
  obtain ⟨m, hm⟩ := hs.mem_walk_iff.1 hx
  have hleads : (s.candidates scope combinator).contains x = s.leadsTo scope combinator x := by
    rw [Bool.eq_iff_iff, List.contains_iff_mem, hs.mem_candidates_iff hm, hs.leadsTo_iff]
  rw [hleads, Bool.and_comm]

end

/-- Children from index zero on: four models with one left boundary, each below the one before. -/
def leaning : Store :=
  let draft (tag : String) (below : List Draft) : Draft := ⟨tag, none, [], .emptyMap, below⟩
  ((Store.new ⟨⟨1, 4⟩, 0⟩ .counting).after
      (.appendAll none [draft "a" [draft "b" [draft "c" [.ofTag "d"]], .ofTag "e"], .ofTag "f"])).after
    (.remove 4)

theorem run_leaning : ∃ paths, (Store.new ⟨⟨1, 4⟩, 0⟩ .counting).Run paths leaning :=
  ⟨_, (Run.refl.update (.appendAll none _)).update (.remove 4)⟩

/-- The scope names one model twice, one below it, and one that is dead. -/
theorem matchStep_eq_filter_walk_leaning : ∃ paths, (Store.new ⟨⟨1, 4⟩, 0⟩ .counting).Run paths leaning ∧
    leaning.matchStep (.models [1, 0, 4, 0]) .descendant .any = [1, 2, 3] ∧
    leaning.matchStep (.models [1, 0, 4, 0]) .child { Phase.any with modifier := some .last } = [2] := by
  obtain ⟨paths, hrun⟩ := run_leaning
  refine ⟨paths, hrun, ?_, ?_⟩
  · rw [(matchStep_eq_filter_walk hrun _ _ _).1]
    decide +kernel
  · rw [(matchStep_eq_filter_walk hrun _ _ _).1]
    decide +kernel

end Store

end Grove
