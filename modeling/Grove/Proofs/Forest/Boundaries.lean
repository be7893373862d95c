import Mathlib.Tactic
import Grove.Proofs.Forest.Run
import Grove.Proofs.Position.Resolution
/-!
# Boundaries of stored models

A new model is only checked against itself and its parent, but that is enough for the digits of all live
models: they show which model lies above which, and in which order the walk meets them. This needs sibling
indices that start above zero.
-/

set_option autoImplicit false

namespace Grove

/-- Options under which the digits soon run out. -/
def StoreOptions.twoDigits : StoreOptions := ⟨⟨1, 2⟩, 1⟩

namespace Store

section
variable {s : Store} {a b : Handle} {m ma mb : Model} {p : Handle}

theorem Consistent.firstChildIndex_le (hs : s.Consistent) (hb : s.get? b = some mb) :
    ∀ i ∈ mb.path.indices.tail, s.options.firstChildIndex ≤ i := by
  induction b using Nat.strong_induction_on generalizing mb with
  | _ b ih =>
    have hpath := hs.path hb
    intro i hi
    cases hp : mb.parent with
    | none =>
      rw [hpath, hp] at hi
      cases hi
    | some p =>
      obtain ⟨owner, howner⟩ := hs.parent_live hb hp
      rw [hpath, hp, pathTo_of_get? howner, List.tail_append_of_ne_nil owner.path.nonempty,
        List.mem_append, List.mem_singleton] at hi
      rcases hi with hi | rfl
      · exact ih p (hs.parent_lt hb hp) howner i hi
      · have hfirst := hs.first_le hb
        rw [hp] at hfirst
        exact hfirst

/-- With sibling indices above zero, containment of spans is ancestry. -/
theorem Consistent.contains_iff_above (hs : s.Consistent) (hfirst : 1 ≤ s.options.firstChildIndex)
    (ha : s.get? a = some ma) (hb : s.get? b = some mb) :
    ma.span.contains mb.span = true ↔ s.Above a b := by
  rw [Span.contains_iff_exists (hs.span ha) (hs.span hb), hs.above_iff ha hb]
  constructor
  · rintro ⟨rest, hpath, i, hi, -⟩
    exact ⟨rest, List.ne_nil_of_mem hi, hpath⟩
  · rintro ⟨rest, hrest, hpath⟩
    obtain ⟨i, rest, rfl⟩ := List.exists_cons_of_ne_nil hrest
    refine ⟨i :: rest, hpath, i, List.mem_cons_self .., ?_⟩
    have hi : i ∈ mb.path.indices.tail := by
      rw [hpath, List.tail_append_of_ne_nil ma.path.nonempty]
      exact List.mem_append_right _ (List.mem_cons_self ..)
    have hle := UInt64.le_trans hfirst (hs.firstChildIndex_le hb i hi)
    rintro rfl
    exact absurd hle (by decide)

theorem Consistent.rendered (hs : s.Consistent) (hm : s.get? a = some m) :
    m.span.Rendered s.options.format := Span.rendered_ofIndices (hs.span hm)

theorem Consistent.encoding_left_lt_right (hs : s.Consistent) (hm : s.get? a = some m) :
    m.span.left.encoding < m.span.right.encoding :=
  Span.encoding_left_lt_right (hs.span hm) (hs.resolved hm)

theorem Consistent.containsEncoded_child (hs : s.Consistent) (hfirst : 1 ≤ s.options.firstChildIndex)
    (ha : s.get? a = some ma) (hb : s.get? b = some mb) (hp : mb.parent = some a) :
    ma.span.containsEncoded mb.span = true := by
  have hcontains := (hs.contains_iff_above hfirst ha hb).2
    (Relation.TransGen.single (isParent_iff.2 ⟨mb, hb, hp⟩))
  have hsa := hs.rendered ha
  have hsb := hs.rendered hb
  obtain ⟨hleft, hright⟩ := (hsa.contains_iff hsb).1 hcontains
  have hres := hs.resolved hb
  rw [hp, spanOf_of_get? ha] at hres
  obtain ⟨hkept, hkept'⟩ := (Span.isResolved_iff.1 hres).2 ma.span rfl
  rw [Span.containsEncoded_iff]
  exact ⟨(hsa.left.kept_iff hsb.left).1 hkept hleft, (hsb.right.kept_iff hsa.right).1 hkept' hright⟩

theorem Consistent.containsEncoded_of_above (hs : s.Consistent)
    (hfirst : 1 ≤ s.options.firstChildIndex) (ha : s.get? a = some ma) (hb : s.get? b = some mb)
    (h : s.Above a b) : ma.span.containsEncoded mb.span = true := by
  induction h generalizing mb with
  | single h =>
    obtain ⟨m, hm, hp⟩ := isParent_iff.1 h
    rw [hb] at hm
    cases hm
    exact hs.containsEncoded_child hfirst ha hb hp
  | tail _ h ih =>
    obtain ⟨m, hm, hp⟩ := isParent_iff.1 h
    rw [hb] at hm
    cases hm
    obtain ⟨owner, howner⟩ := hs.parent_live hb hp
    obtain ⟨hl, hr⟩ := Span.containsEncoded_iff.1 (ih howner)
    obtain ⟨hl', hr'⟩ := Span.containsEncoded_iff.1 (hs.containsEncoded_child hfirst howner hb hp)
    exact Span.containsEncoded_iff.2 ⟨String.lt_trans hl hl', String.lt_trans hr' hr⟩

theorem Consistent.containsEncoded_iff_contains (hs : s.Consistent)
    (hfirst : 1 ≤ s.options.firstChildIndex) (ha : s.get? a = some ma) (hb : s.get? b = some mb) :
    ma.span.containsEncoded mb.span = true ↔ ma.span.contains mb.span = true := by
  constructor
  · intro h
    exact (hs.rendered ha).contains_of_containsEncoded (hs.rendered hb) h
  · intro h
    exact hs.containsEncoded_of_above hfirst ha hb ((hs.contains_iff_above hfirst ha hb).1 h)

/-- The left boundaries follow the lexicographic order of the paths. -/
theorem Consistent.encoding_lt_of_pathTo_lt (hs : s.Consistent) (hfirst : 1 ≤ s.options.firstChildIndex)
    (ha : s.get? a = some ma) (hb : s.get? b = some mb)
    (hlt : s.pathTo (some a) < s.pathTo (some b)) : ma.span.left.encoding < mb.span.left.encoding := by
  rw [pathTo_of_get? ha, pathTo_of_get? hb] at hlt
  rcases prefix_or_part_of_lt hlt with ⟨rest, hrest, hpath⟩ | ⟨common, i, j, p', q', hpa, hpb, hij⟩
  · have habove := (hs.above_iff ha hb).2 ⟨rest, hrest, hpath⟩
    exact (Span.containsEncoded_iff.1 (hs.containsEncoded_of_above hfirst ha hb habove)).1
  · -- the span of the first ends before that of the second begins
    have hsa := hs.span ha
    have hsb := hs.span hb
    unfold SiblingPath.span at hsa hsb
    rw [hpa] at hsa
    rw [hpb] at hsb
    exact Span.encoding_left_lt_left hsa hsb hij (hs.encoding_left_lt_right ha)

theorem Consistent.encoding_lt_iff (hs : s.Consistent) (hfirst : 1 ≤ s.options.firstChildIndex)
    (ha : s.get? a = some ma) (hb : s.get? b = some mb) :
    ma.span.left.encoding < mb.span.left.encoding ↔ s.walk.idxOf a < s.walk.idxOf b := by
  have hwa := hs.mem_walk_iff.2 ⟨ma, ha⟩
  have hwb := hs.mem_walk_iff.2 ⟨mb, hb⟩
  have hidx : ∀ {x y}, x ∈ s.walk → y ∈ s.walk →
      (s.walk.idxOf x < s.walk.idxOf y ↔ s.pathTo (some x) < s.pathTo (some y)) :=
    idxOf_lt_idxOf_iff (fun _ _ h => List.lt_asymm h) hs.walk_sorted
  constructor
  · intro hlt
    rcases Nat.lt_trichotomy (s.walk.idxOf a) (s.walk.idxOf b) with h | h | h
    · exact h
    · rw [List.idxOf_inj hwa] at h
      subst h
      rw [ha] at hb
      cases hb
      exact absurd hlt (String.lt_irrefl _)
    · exact absurd hlt (String.lt_asymm (hs.encoding_lt_of_pathTo_lt hfirst hb ha ((hidx hwb hwa).1 h)))
  · intro hlt
    exact hs.encoding_lt_of_pathTo_lt hfirst ha hb ((hidx hwa hwb).1 hlt)

/-- Between the live models of any reachable store, containment by digits is containment and ancestry, and
the digits of left boundaries are different and give the order of the walk. -/
theorem containsEncoded_iff_isAncestor {options : StoreOptions} {ids : IdSource} {paths : List SiblingPath}
    (h : (Store.new options ids).Run paths s) (hfirst : 1 ≤ options.firstChildIndex)
    (ha : s.get? a = some ma) (hb : s.get? b = some mb) :
    (ma.span.containsEncoded mb.span = true ↔ ma.span.contains mb.span = true) ∧
    (ma.span.contains mb.span = true ↔ s.isAncestor a b = true) ∧
    (a ≠ b → ma.span.left.encoding ≠ mb.span.left.encoding ∧
      (ma.span.left.encoding < mb.span.left.encoding ↔ s.walk.idxOf a < s.walk.idxOf b)) ∧
    a ∈ s.walk ∧ b ∈ s.walk ∧ s.walk.Nodup := by
  have hs := h.consistent_new
  rw [← h.options_new] at hfirst
  have hwa := hs.mem_walk_iff.2 ⟨ma, ha⟩
  refine ⟨hs.containsEncoded_iff_contains hfirst ha hb, ?_, ?_, hwa, hs.mem_walk_iff.2 ⟨mb, hb⟩,
    hs.nodup_walk⟩
  · rw [hs.contains_iff_above hfirst ha hb, hs.isAncestor_iff]
  · intro hne
    have hlt := hs.encoding_lt_iff hfirst ha hb
    refine ⟨fun heq => ?_, hlt⟩
    have hgt := hs.encoding_lt_iff hfirst hb ha
    rw [heq] at hlt hgt
    have hidx : s.walk.idxOf a = s.walk.idxOf b := by
      have hirrefl := String.lt_irrefl mb.span.left.encoding
      exact Nat.le_antisymm (not_lt.1 fun h => hirrefl (hgt.2 h)) (not_lt.1 fun h => hirrefl (hlt.2 h))
    exact hne ((List.idxOf_inj hwa).1 hidx)

end

def grown : Store :=
  ((Store.new .twoDigits .counting).after
      (.appendAll none [⟨"a", none, [], .emptyMap, [.ofTag "b"]⟩, .ofTag "c"])).after
    (.append (some 1) ⟨"d", none, [], .emptyMap, [.ofTag "e"]⟩)

theorem run_grown : ∃ paths, (Store.new .twoDigits .counting).Run paths grown :=
  ⟨_, (Run.refl.update (.appendAll none _)).update (.append (some 1) _)⟩

theorem containsEncoded_iff_isAncestor_grown : ∃ ma mb mc,
    grown.get? 0 = some ma ∧ grown.get? 1 = some mb ∧ grown.get? 2 = some mc ∧
      ma.span.containsEncoded mb.span = true ∧ ma.span.contains mc.span = false ∧
      mb.span.left.encoding < mc.span.left.encoding := by
  obtain ⟨ma, hma⟩ := Option.isSome_iff_exists.1 (show (grown.get? 0).isSome = true by decide +kernel)
  obtain ⟨mb, hmb⟩ := Option.isSome_iff_exists.1 (show (grown.get? 1).isSome = true by decide +kernel)
  obtain ⟨mc, hmc⟩ := Option.isSome_iff_exists.1 (show (grown.get? 2).isSome = true by decide +kernel)
  obtain ⟨paths, hrun⟩ := run_grown
  have hab := containsEncoded_iff_isAncestor hrun (by decide) hma hmb
  have hac := containsEncoded_iff_isAncestor hrun (by decide) hma hmc
  have hbc := containsEncoded_iff_isAncestor hrun (by decide) hmb hmc
  refine ⟨ma, mb, mc, hma, hmb, hmc, ?_, ?_, ?_⟩
  · rw [hab.1, hab.2.1]
    decide +kernel
  · rw [← Bool.not_eq_true, hac.2.1]
    decide +kernel
  · rw [(hbc.2.2.1 (by decide)).2]
    decide +kernel

end Store

end Grove
