import Mathlib.Logic.Relation
import Mathlib.Tactic
import Grove.Proofs.Forest.Consistent
/-!
# Ancestors and the walk

In a consistent store the handles above a model are those whose paths begin its own, and the walk meets
every live model once, in the lexicographic order of the paths. Both traversals run for as many steps as
there are slots; parents lie below their children in the arena, so that is enough.
-/

set_option autoImplicit false

namespace Grove

/-- A path before another either begins it or has the smaller index where the two part. -/
theorem prefix_or_part_of_lt {p q : List UInt64} (h : p < q) : (∃ rest, rest ≠ [] ∧ q = p ++ rest) ∨
    ∃ common i j p' q', p = common ++ i :: p' ∧ q = common ++ j :: q' ∧ i < j := by
  induction p generalizing q with
  | nil =>
    cases q with
    | nil => exact absurd h (List.lt_irrefl _)
    | cons j q => exact Or.inl ⟨j :: q, List.cons_ne_nil _ _, rfl⟩
  | cons i p ih =>
    cases q with
    | nil => cases h
    | cons j q =>
      rcases List.cons_lt_cons_iff.1 h with hij | ⟨rfl, hpq⟩
      · exact Or.inr ⟨[], i, j, p, q, rfl, rfl, hij⟩
      · rcases ih hpq with ⟨rest, hrest, rfl⟩ | ⟨common, a, b, p', q', rfl, rfl, hab⟩
        · exact Or.inl ⟨rest, hrest, rfl⟩
        · exact Or.inr ⟨i :: common, a, b, p', q', rfl, rfl, hab⟩

theorem lt_append_of_ne_nil {p rest : List UInt64} (h : rest ≠ []) : p < p ++ rest := by
  induction p with
  | nil =>
    cases rest with
    | nil => exact absurd rfl h
    | cons i rest => exact List.Lex.nil
  | cons i p ih => exact List.cons_lt_cons_iff.2 (Or.inr ⟨rfl, ih⟩)

theorem part_lt {common p' q' : List UInt64} {i j : UInt64} (h : i < j) :
    common ++ i :: p' < common ++ j :: q' := List.append_left_lt (List.cons_lt_cons_iff.2 (Or.inl h))

theorem idxOf_lt_idxOf_iff {α : Type} [DecidableEq α] {r : α → α → Prop} {l : List α} {a b : α}
    (hr : ∀ x y, r x y → ¬ r y x) (hl : l.Pairwise r) (ha : a ∈ l) (hb : b ∈ l) :
    l.idxOf a < l.idxOf b ↔ r a b := by
  have forward : ∀ {x y}, x ∈ l → y ∈ l → l.idxOf x < l.idxOf y → r x y := by
    intro x y hx hy hlt
    have h := List.pairwise_iff_getElem.1 hl _ _ (List.idxOf_lt_length_iff.2 hx)
      (List.idxOf_lt_length_iff.2 hy) hlt
    rwa [List.getElem_idxOf, List.getElem_idxOf] at h
  refine ⟨forward ha hb, fun hab => ?_⟩
  rcases Nat.lt_trichotomy (l.idxOf a) (l.idxOf b) with hlt | heq | hgt
  · exact hlt
  · rw [List.idxOf_inj ha] at heq
    rw [heq] at hab
    exact absurd hab (hr _ _ hab)
  · exact absurd hab (hr _ _ (forward hb ha hgt))

namespace Store

def IsParent (s : Store) (p c : Handle) : Prop := s.parent? c = some p

def Above (s : Store) : Handle → Handle → Prop := Relation.TransGen s.IsParent

section
variable {s : Store} {a b c h p x : Handle} {m ma mb : Model}

theorem isParent_iff : s.IsParent p c ↔ ∃ m, s.get? c = some m ∧ m.parent = some p := by
  unfold IsParent parent?
  rw [Option.bind_eq_some_iff]

theorem Wired.mem_children_iff (hs : s.Wired) : c ∈ s.children p ↔ s.IsParent p c := by
  rw [isParent_iff]
  constructor
  · exact fun hc => hs.linked (show c ∈ s.siblings (some p) from hc)
  · rintro ⟨m, hm, hp⟩
    have hlisted := hs.listed hm
    rwa [hp] at hlisted

theorem Wired.lt_of_isParent (hs : s.Wired) (h : s.IsParent p c) : p < c := by
  obtain ⟨m, hm, hp⟩ := isParent_iff.1 h
  exact hs.parent_lt hm hp

theorem Wired.lt_of_above (hs : s.Wired) (h : s.Above a b) : a < b := by
  induction h with
  | single h => exact hs.lt_of_isParent h
  | tail _ h ih => exact ih.trans (hs.lt_of_isParent h)

theorem above_of_reaches {steps : Nat} (h : s.reaches a steps b = true) : s.Above a b := by
  induction steps generalizing b with
  | zero => cases h
  | succ steps ih =>
    unfold reaches at h
    split at h
    · cases h
    · next p hp =>
      rw [Bool.or_eq_true, beq_iff_eq] at h
      rcases h with rfl | h
      · exact Relation.TransGen.single hp
      · exact (ih h).tail hp

/-- A chain of parents goes down in the arena, so it is no longer than the handle it starts at. -/
theorem Wired.reaches_of_above (hs : s.Wired) {steps : Nat} (h : s.Above a b)
    (hsteps : b ≤ steps) : s.reaches a steps b = true := by
  induction steps generalizing b with
  | zero => exact absurd (hs.lt_of_above h) (by rw [Nat.le_zero.1 hsteps]; exact Nat.not_lt_zero a)
  | succ steps ih =>
    obtain ⟨p, hap, hpb⟩ := Relation.TransGen.tail'_iff.1 h
    have hlt := hs.lt_of_isParent hpb
    have hp : s.parent? b = some p := hpb
    unfold reaches
    rw [hp]
    dsimp only
    rw [Bool.or_eq_true, beq_iff_eq]
    rcases hap.cases_tail with rfl | ⟨_, hac, hcp⟩
    · exact Or.inl rfl
    · exact Or.inr (ih (Relation.TransGen.tail' hac hcp) (Nat.le_of_lt_succ (hlt.trans_le hsteps)))

theorem Above.live_right (h : s.Above a b) : ∃ m, s.get? b = some m := by
  obtain ⟨p, -, hp⟩ := Relation.TransGen.tail'_iff.1 h
  obtain ⟨m, hm, -⟩ := isParent_iff.1 hp
  exact ⟨m, hm⟩

theorem Wired.isAncestor_iff (hs : s.Wired) : s.isAncestor a b = true ↔ s.Above a b := by
  refine ⟨above_of_reaches, fun h => hs.reaches_of_above h ?_⟩
  obtain ⟨m, hm⟩ := h.live_right
  exact (lt_size_of_get? hm).le

theorem Consistent.path_of_above (hs : s.Consistent) (ha : s.get? a = some ma) (hb : s.get? b = some mb)
    (h : s.Above a b) : ∃ rest, rest ≠ [] ∧ mb.path.indices = ma.path.indices ++ rest := by
  induction h generalizing mb with
  | single h =>
    obtain ⟨m, hm, hp⟩ := isParent_iff.1 h
    rw [hb] at hm
    cases hm
    exact ⟨[mb.index], List.cons_ne_nil _ _, hs.path_child hb hp ha⟩
  | tail _ h ih =>
    obtain ⟨m, hm, hp⟩ := isParent_iff.1 h
    rw [hb] at hm
    cases hm
    obtain ⟨owner, howner⟩ := hs.parent_live hb hp
    obtain ⟨rest, -, hrest⟩ := ih howner
    exact ⟨rest ++ [mb.index], by simp, by rw [hs.path_child hb hp howner, hrest, List.append_assoc]⟩

theorem Consistent.above_of_path (hs : s.Consistent) (ha : s.get? a = some ma) {rest : List UInt64}
    (hb : s.get? b = some mb) (hpath : mb.path.indices = ma.path.indices ++ rest) (hrest : rest ≠ []) :
    s.Above a b := by
  induction b using Nat.strong_induction_on generalizing mb rest with
  | _ b ih =>
    obtain ⟨front, i, rfl⟩ := (List.eq_nil_or_concat' rest).resolve_left hrest
    rw [hs.path hb, ← List.append_assoc] at hpath
    obtain ⟨hbase, -⟩ := List.append_inj' hpath rfl
    cases hp : mb.parent with
    | none =>
      rw [hp] at hbase
      exact absurd (List.append_eq_nil_iff.1 hbase.symm).1 ma.path.nonempty
    | some p =>
      obtain ⟨owner, howner⟩ := hs.parent_live hb hp
      rw [hp, pathTo_of_get? howner] at hbase
      have hparent : s.IsParent p b := isParent_iff.2 ⟨mb, hb, hp⟩
      by_cases hfront : front = []
      · rw [hfront, List.append_nil] at hbase
        rw [hs.eq_of_path_eq ha howner hbase.symm]
        exact Relation.TransGen.single hparent
      · exact (ih p (hs.parent_lt hb hp) howner hbase hfront).tail hparent

/-- A model lies above another exactly when its path is a proper beginning of the other's. -/
theorem Consistent.above_iff (hs : s.Consistent) (ha : s.get? a = some ma) (hb : s.get? b = some mb) :
    s.Above a b ↔ ∃ rest, rest ≠ [] ∧ mb.path.indices = ma.path.indices ++ rest := by
  constructor
  · exact hs.path_of_above ha hb
  · rintro ⟨rest, hrest, hpath⟩
    exact hs.above_of_path ha hb hpath hrest

theorem live_of_reflTransGen (ha : s.get? a = some ma) (h : Relation.ReflTransGen s.IsParent a b) :
    ∃ m, s.get? b = some m := by
  rcases Relation.reflTransGen_iff_eq_or_transGen.1 h with rfl | h
  · exact ⟨ma, ha⟩
  · exact Above.live_right h

theorem Consistent.pathTo_lt_of_above (hs : s.Consistent) (ha : s.get? a = some ma) (h : s.Above a b) :
    s.pathTo (some a) < s.pathTo (some b) := by
  obtain ⟨mb, hb⟩ := h.live_right
  obtain ⟨rest, hrest, hpath⟩ := hs.path_of_above ha hb h
  rw [pathTo_of_get? ha, pathTo_of_get? hb, hpath]
  exact lt_append_of_ne_nil hrest

theorem Consistent.pathTo_eq_append (hs : s.Consistent) (ha : s.get? a = some ma)
    (h : Relation.ReflTransGen s.IsParent a b) : ∃ rest, s.pathTo (some b) = ma.path.indices ++ rest := by
  rcases Relation.reflTransGen_iff_eq_or_transGen.1 h with rfl | h
  · exact ⟨[], by rw [pathTo_of_get? ha, List.append_nil]⟩
  · obtain ⟨mb, hb⟩ := Above.live_right h
    obtain ⟨rest, -, hpath⟩ := hs.path_of_above ha hb h
    exact ⟨rest, by rw [pathTo_of_get? hb, hpath]⟩

theorem Consistent.pathTo_lt_of_siblings (hs : s.Consistent) (ha : s.get? a = some ma)
    (hb : s.get? b = some mb) (hparent : ma.parent = mb.parent) (hlt : a < b)
    (hx : Relation.ReflTransGen s.IsParent a x) (hc : Relation.ReflTransGen s.IsParent b c) :
    s.pathTo (some x) < s.pathTo (some c) := by
  obtain ⟨rest, hrest⟩ := hs.pathTo_eq_append ha hx
  obtain ⟨rest', hrest'⟩ := hs.pathTo_eq_append hb hc
  rw [hrest, hrest', hs.path ha, hs.path hb, hparent, List.append_assoc, List.append_assoc]
  exact part_lt (hs.index_mono ha hb hparent hlt)

theorem Wired.exists_root (hs : s.Wired) (hx : s.get? x = some m) :
    ∃ r ∈ s.roots, Relation.ReflTransGen s.IsParent r x := by
  induction x using Nat.strong_induction_on generalizing m with
  | _ x ih =>
    cases hp : m.parent with
    | none =>
      have hlisted := hs.listed hx
      rw [hp] at hlisted
      exact ⟨x, hlisted, Relation.ReflTransGen.refl⟩
    | some p =>
      obtain ⟨owner, howner⟩ := hs.parent_live hx hp
      obtain ⟨r, hr, hrp⟩ := ih p (hs.parent_lt hx hp) howner
      exact ⟨r, hr, hrp.tail (isParent_iff.2 ⟨m, hx, hp⟩)⟩

end

/-- Some handles in turn, each followed by all that lies below it. -/
inductive Preorder (s : Store) : List Handle → List Handle → Prop
  | nil : Preorder s [] []
  | cons {h : Handle} {rest below after : List Handle} : Preorder s (s.children h) below →
      Preorder s rest after → Preorder s (h :: rest) (h :: (below ++ after))

/-- The loop of a traversal: until a stack is empty, a handle is taken off it, and its children are put in the
place. -/
inductive Drains (s : Store) : List Handle → List Handle → Prop
  | done : Drains s [] []
  | next {h : Handle} {stack order : List Handle} : Drains s (s.children h ++ stack) order →
      Drains s (h :: stack) (h :: order)

section
variable {s s' : Store} {h p x : Handle} {top stack order order' : List Handle}

theorem Drains.unique (h : s.Drains stack order) (h' : s.Drains stack order') : order = order' := by
  induction h generalizing order' with
  | done => cases h'; rfl
  | next _ ih =>
    cases h' with
    | next h' => rw [ih h']

theorem Drains.visit_eq {steps : Nat} (h : s.Drains stack order) (hsteps : order.length ≤ steps) :
    s.visit steps stack = order := by
  induction h generalizing steps with
  | done => cases steps <;> rfl
  | next _ ih =>
    cases steps with
    | zero => cases hsteps
    | succ steps =>
      unfold visit
      rw [ih (Nat.le_of_succ_le_succ hsteps)]

theorem Preorder.drains (h : s.Preorder top order) (hstack : s.Drains stack order') :
    s.Drains (top ++ stack) (order ++ order') := by
  induction h generalizing stack order' with
  | nil => exact hstack
  | cons _ _ ihbelow ihafter =>
    rw [List.cons_append, List.cons_append, List.append_assoc]
    exact Drains.next (ihbelow (ihafter hstack))

/-- The stack gives the recursive order, if there are steps for all of it. -/
theorem Preorder.visit_eq {steps : Nat} (h : s.Preorder top order) (hsteps : order.length ≤ steps) :
    s.visit steps top = order := by
  have hdrains := h.drains Drains.done
  rw [List.append_nil, List.append_nil] at hdrains
  exact hdrains.visit_eq hsteps

theorem Preorder.congr (h : s.Preorder top order) (heq : ∀ x ∈ order, s'.children x = s.children x) :
    s'.Preorder top order := by
  induction h with
  | nil => exact Preorder.nil
  | @cons h rest below after _ _ ihbelow ihafter =>
    have hchildren := heq h (List.mem_cons_self ..)
    refine Preorder.cons ?_ (ihafter fun x hx => heq x ?_)
    · rw [hchildren]
      exact ihbelow fun x hx => heq x (List.mem_cons_of_mem _ (List.mem_append_left _ hx))
    · exact List.mem_cons_of_mem _ (List.mem_append_right _ hx)

theorem exists_preorder_of_forall (h : ∀ x ∈ top, ∃ below, s.Preorder (s.children x) below) :
    ∃ order, s.Preorder top order := by
  induction top with
  | nil => exact ⟨[], Preorder.nil⟩
  | cons x rest ih =>
    obtain ⟨below, hbelow⟩ := h x (List.mem_cons_self ..)
    obtain ⟨after, hafter⟩ := ih fun y hy => h y (List.mem_cons_of_mem _ hy)
    exact ⟨_, hbelow.cons hafter⟩

theorem Wired.exists_preorder (hs : s.Wired) (top : List Handle) :
    ∃ order, s.Preorder top order := by
  -- children lie above their parent in the arena, so the free slots above a handle bound its depth
  have below : ∀ n x, s.slots.size ≤ x + n → ∃ below, s.Preorder (s.children x) below := by
    intro n
    induction n with
    | zero =>
      intro x hx
      refine ⟨[], ?_⟩
      rw [children_of_get?_none]
      · exact Preorder.nil
      · by_contra hne
        obtain ⟨m, hm⟩ := Option.ne_none_iff_exists'.1 hne
        exact absurd (lt_size_of_get? hm) (Nat.not_lt.2 hx)
    | succ n ih =>
      intro x hx
      refine exists_preorder_of_forall fun c hc => ih c ?_
      have hlt : x < c := hs.lt_of_isParent (hs.mem_children_iff.1 hc)
      exact hx.trans (by rw [Nat.add_succ, ← Nat.succ_add]; exact Nat.add_le_add_right hlt n)
  exact exists_preorder_of_forall fun x _ => below s.slots.size x (Nat.le_add_left ..)

theorem Wired.mem_preorder_iff (hs : s.Wired) (h : s.Preorder top order) :
    x ∈ order ↔ ∃ t ∈ top, Relation.ReflTransGen s.IsParent t x := by
  induction h with
  | nil => simp
  | @cons h rest below after _ _ ihbelow ihafter =>
    rw [List.mem_cons, List.mem_append, ihbelow, ihafter, List.exists_mem_cons_iff,
      Relation.ReflTransGen.cases_head_iff, or_assoc]
    simp only [hs.mem_children_iff, eq_comm]

theorem Wired.above_of_mem_preorder (hs : s.Wired) (h : s.Preorder (s.children p) order)
    (hx : x ∈ order) : s.Above p x := by
  obtain ⟨c, hc, hcx⟩ := (hs.mem_preorder_iff h).1 hx
  exact Relation.TransGen.head' (hs.mem_children_iff.1 hc) hcx

theorem Consistent.preorder_sorted (hs : s.Consistent) (h : s.Preorder top order) (parent : Option Handle)
    (htop : top.Sublist (s.siblings parent)) :
    order.Pairwise fun x y => s.pathTo (some x) < s.pathTo (some y) := by
  induction h generalizing parent with
  | nil => exact List.Pairwise.nil
  | @cons h rest below after hbelow hafter ihbelow ihafter =>
    have hsub := htop.subset
    obtain ⟨m, hm, hparent⟩ := hs.linked (hsub (List.mem_cons_self ..))
    have hsorted := (hs.sorted parent).sublist htop
    rw [List.pairwise_cons] at hsorted
    have hbefore : ∀ x ∈ h :: below, ∀ y ∈ after, s.pathTo (some x) < s.pathTo (some y) := by
      intro x hx y hy
      have hhx : Relation.ReflTransGen s.IsParent h x := by
        rcases List.mem_cons.1 hx with rfl | hx
        · exact Relation.ReflTransGen.refl
        · exact (hs.above_of_mem_preorder hbelow hx).to_reflTransGen
      obtain ⟨t, ht, hty⟩ := (hs.mem_preorder_iff hafter).1 hy
      obtain ⟨mt, hmt, hparent'⟩ := hs.linked (hsub (List.mem_cons_of_mem _ ht))
      exact hs.pathTo_lt_of_siblings hm hmt (hparent.trans hparent'.symm) (hsorted.1 t ht) hhx hty
    rw [List.pairwise_cons, List.pairwise_append]
    refine ⟨?_, ?_, ?_, ?_⟩
    · intro x hx
      rcases List.mem_append.1 hx with hx | hx
      · exact hs.pathTo_lt_of_above hm (hs.above_of_mem_preorder hbelow hx)
      · exact hbefore h (List.mem_cons_self ..) x hx
    · exact ihbelow (some h) (List.Sublist.refl _)
    · exact ihafter parent ((List.sublist_cons_self ..).trans htop)
    · exact fun x hx y hy => hbefore x (List.mem_cons_of_mem _ hx) y hy

theorem Wired.eq_of_siblings (hs : s.Wired) {a b : Handle} {ma mb : Model} (ha : s.get? a = some ma)
    (hb : s.get? b = some mb) (hparent : ma.parent = mb.parent)
    (hax : Relation.ReflTransGen s.IsParent a x) (hbx : Relation.ReflTransGen s.IsParent b x) : a = b := by
  -- neither lies below the other, as it would lie below the parent of both
  have apart : ∀ {a b : Handle} {ma mb : Model}, s.get? a = some ma → s.get? b = some mb →
      ma.parent = mb.parent → ¬ s.Above a b := by
    intro a b ma mb ha hb hparent hab
    obtain ⟨p, hap, hpb⟩ := Relation.TransGen.tail'_iff.1 hab
    obtain ⟨m, hm, hp⟩ := isParent_iff.1 hpb
    rw [hb] at hm
    cases hm
    have hpa : s.IsParent p a := isParent_iff.2 ⟨ma, ha, hparent.trans hp⟩
    exact lt_irrefl _ (hs.lt_of_above (Relation.TransGen.tail' hap hpa))
  induction hax with
  | refl =>
    rcases Relation.reflTransGen_iff_eq_or_transGen.1 hbx with rfl | hbx
    · rfl
    · exact absurd hbx (apart hb ha hparent.symm)
  | @tail y x hay hyx ih =>
    rcases hbx.cases_tail with rfl | ⟨z, hbz, hzx⟩
    · exact absurd (Relation.TransGen.tail' hay hyx) (apart ha hb hparent)
    · have hyz : y = z := Option.some.inj (hyx.symm.trans hzx)
      rw [← hyz] at hbz
      exact ih hbz

theorem Wired.nodup_preorder (hs : s.Wired) (h : s.Preorder top order) (parent : Option Handle)
    (htop : top.Sublist (s.siblings parent)) : order.Nodup := by
  induction h generalizing parent with
  | nil => exact List.nodup_nil
  | @cons h rest below after hbelow hafter ihbelow ihafter =>
    obtain ⟨m, hm, hparent⟩ := hs.linked (htop.subset (List.mem_cons_self ..))
    have hsorted := (hs.sorted parent).sublist htop
    have hafar : ∀ x, Relation.ReflTransGen s.IsParent h x → x ∉ after := by
      intro x hhx hx
      obtain ⟨t, ht, htx⟩ := (hs.mem_preorder_iff hafter).1 hx
      obtain ⟨mt, hmt, hparent'⟩ := hs.linked (htop.subset (List.mem_cons_of_mem _ ht))
      have heq := hs.eq_of_siblings hm hmt (hparent.trans hparent'.symm) hhx htx
      exact absurd (List.rel_of_pairwise_cons hsorted ht) (by rw [heq]; exact lt_irrefl _)
    rw [List.nodup_cons, List.mem_append, not_or, List.nodup_append']
    refine ⟨⟨fun hx => ?_, hafar h Relation.ReflTransGen.refl⟩, ?_, ?_, fun x hx hx' => ?_⟩
    · exact lt_irrefl _ (hs.lt_of_above (hs.above_of_mem_preorder hbelow hx))
    · exact ihbelow (some h) (List.Sublist.refl _)
    · exact ihafter parent ((List.sublist_cons_self ..).trans htop)
    · exact hafar x (hs.above_of_mem_preorder hbelow hx).to_reflTransGen hx'

theorem Wired.preorder_length_le (hs : s.Wired) (h : s.Preorder top order)
    (parent : Option Handle) (htop : top.Sublist (s.siblings parent)) : order.length ≤ s.slots.size := by
  have hnodup := hs.nodup_preorder h parent htop
  have hsub : order ⊆ List.range s.slots.size := by
    intro x hx
    obtain ⟨t, ht, htx⟩ := (hs.mem_preorder_iff h).1 hx
    obtain ⟨m, hm, -⟩ := hs.linked (htop.subset ht)
    obtain ⟨mx, hmx⟩ := live_of_reflTransGen hm htx
    exact List.mem_range.2 (lt_size_of_get? hmx)
  have hle := (List.subperm_of_subset hnodup hsub).length_le
  rwa [List.length_range] at hle

/-- What lies below a handle, or at and below the roots, comes out in the recursive order. -/
theorem Wired.subtrees_preorder (hs : s.Wired) (parent : Option Handle) :
    s.Preorder (s.siblings parent) (s.subtrees (s.siblings parent)) := by
  obtain ⟨order, horder⟩ := hs.exists_preorder (s.siblings parent)
  unfold subtrees
  rw [horder.visit_eq (hs.preorder_length_le horder parent (List.Sublist.refl _))]
  exact horder

theorem Wired.descendants_preorder (hs : s.Wired) (h : Handle) :
    s.Preorder (s.children h) (s.descendants h) := hs.subtrees_preorder (some h)

theorem Wired.walk_preorder (hs : s.Wired) : s.Preorder s.roots s.walk := hs.subtrees_preorder none

theorem Wired.mem_descendants_iff (hs : s.Wired) : x ∈ s.descendants h ↔ s.Above h x := by
  refine ⟨hs.above_of_mem_preorder (hs.descendants_preorder h), fun hx => ?_⟩
  obtain ⟨c, hc, hcx⟩ := Relation.TransGen.head'_iff.1 hx
  exact (hs.mem_preorder_iff (hs.descendants_preorder h)).2 ⟨c, hs.mem_children_iff.2 hc, hcx⟩

theorem Wired.mem_walk_iff (hs : s.Wired) : x ∈ s.walk ↔ ∃ m, s.get? x = some m := by
  rw [hs.mem_preorder_iff hs.walk_preorder]
  constructor
  · rintro ⟨r, hr, hrx⟩
    obtain ⟨m, hm, -⟩ := hs.linked (show r ∈ s.siblings none from hr)
    exact live_of_reflTransGen hm hrx
  · rintro ⟨m, hm⟩
    exact hs.exists_root hm

/-- The walk is in the lexicographic order of the paths. -/
theorem Consistent.walk_sorted (hs : s.Consistent) :
    s.walk.Pairwise fun x y => s.pathTo (some x) < s.pathTo (some y) :=
  hs.preorder_sorted hs.walk_preorder none (List.Sublist.refl _)

theorem Wired.nodup_walk (hs : s.Wired) : s.walk.Nodup :=
  hs.nodup_preorder hs.walk_preorder none (List.Sublist.refl _)

theorem Wired.nodup_descendants (hs : s.Wired) (h : Handle) : (s.descendants h).Nodup :=
  hs.nodup_preorder (hs.descendants_preorder h) (some h) (List.Sublist.refl _)

end

end Store

end Grove
