import Mathlib.Tactic
import Grove.Proofs.Forest.DocumentOrder
import Grove.Proofs.Forest.Planting
/-!
# Removing a subtree

A removal takes a model and all that lies below it, and nothing else: the walk skips them, their identifiers are
forgotten, and of the models that stay only the parent has one child less. No counter goes back, so an append that
is taken back leaves one mark, the step of a counter.
-/

set_option autoImplicit false

namespace Grove

namespace Store

def uidsOf (s : Store) (handles : List Handle) : List String := handles.filterMap fun x => (s.get? x).map Model.uid

/-- A model has been removed with all that lies below it. Identifiers are looked up, and models walked over, as
before but for those that are gone; counters stand where they stood. -/
structure Pruned (s : Store) (h : Handle) (gone : List Handle) (s' : Store) : Prop where
  options : s'.options = s.options
  isOpen : s'.isOpen = s.isOpen
  ids : s'.ids = s.ids
  roots : s'.roots = s.roots.filter (· != h)
  nextRoot : s'.nextRoot = s.nextRoot
  get?_eq : ∀ x, s'.get? x = if x ∈ gone then none
    else if s.parent? h = some x then (s.get? x).map (Model.disown · h) else s.get? x
  lookup : ∀ uid, s'.lookup? uid = if uid ∈ s.uidsOf gone then none else s.lookup? uid
  walk : s'.walk = s.walk.filter (· ∉ gone)

section
variable {s s' s₁ : Store} {h x : Handle} {m : Model} {parent par : Option Handle} {uid : String}
  {top order handles : List Handle} {d : Draft}

theorem Wired.mem_uidsOf_iff (hs : s.Wired) :
    uid ∈ s.uidsOf handles ↔ ∃ x ∈ handles, s.lookup? uid = some x := by
  unfold uidsOf
  simp only [List.mem_filterMap, Option.map_eq_some_iff, hs.lookup]

theorem Wired.forall₂_uidsOf (hs : s.Wired) (hlive : ∀ x ∈ handles, ∃ m, s.get? x = some m) :
    List.Forall₂ (fun x uid => s.lookup? uid = some x) handles (s.uidsOf handles) := by
  induction handles with
  | nil => exact List.Forall₂.nil
  | cons x rest ih =>
    obtain ⟨m, hm⟩ := hlive x (List.mem_cons_self ..)
    have huids : s.uidsOf (x :: rest) = m.uid :: s.uidsOf rest := List.filterMap_cons_some (by rw [hm]; rfl)
    rw [huids]
    exact List.Forall₂.cons (hs.lookup.2 ⟨m, hm, rfl⟩) (ih fun y hy => hlive y (List.mem_cons_of_mem _ hy))

theorem Wired.nodup_uidsOf (hs : s.Wired) (hnodup : handles.Nodup) : (s.uidsOf handles).Nodup := by
  refine hnodup.filterMap fun x y uid hx hy => ?_
  obtain ⟨m, hm, huid⟩ := Option.map_eq_some_iff.1 hx
  obtain ⟨m', hm', huid'⟩ := Option.map_eq_some_iff.1 hy
  exact hs.eq_of_uid_eq hm hm' (huid.trans huid'.symm)

theorem Removed.lookup (hr : s.Removed h m s') (hs : s.Wired) (uid : String) :
    s'.lookup? uid = if uid ∈ s.uidsOf (h :: s.descendants h) then none else s.lookup? uid := by
  refine Option.ext fun x => ?_
  rw [(hr.wired hs).lookup]
  constructor
  · rintro ⟨m', hm', rfl⟩
    obtain ⟨hgone, m₀, hm₀, heq⟩ := hr.cases_get? hm'
    have hlook := hs.lookup.2 ⟨m₀, hm₀, rfl⟩
    rw [(Removed.sameNode heq).uid, if_neg, hlook]
    -- the model that has the identifier is not among those that are gone
    rw [hs.mem_uidsOf_iff]
    rintro ⟨y, hy, hlook'⟩
    rw [hlook] at hlook'
    exact hgone (Option.some.inj hlook' ▸ hy)
  · intro hlook
    split at hlook
    · cases hlook
    · next hgone =>
      obtain ⟨m₀, hm₀, huid⟩ := hs.lookup.1 hlook
      have hx : x ∉ h :: s.descendants h := fun hx => hgone (hs.mem_uidsOf_iff.2 ⟨x, hx, hlook⟩)
      exact ⟨_, hr.get?_of_get? hm₀ hx, (Removed.sameNode rfl).uid.trans huid⟩

theorem Wired.filter_siblings (hs : s.Wired) (hm : s.get? h = some m) (hne : m.parent ≠ par) :
    (s.siblings par).filter (· != h) = s.siblings par := by
  refine List.filter_eq_self.2 fun x hx => bne_iff_ne.2 ?_
  rintro rfl
  obtain ⟨m', hm', hpar⟩ := hs.linked hx
  rw [hm] at hm'
  cases hm'
  exact hne hpar

theorem Removed.children_eq (hr : s.Removed h m s') (hs : s.Wired) (hx : x ∉ h :: s.descendants h) :
    s'.children x = (s.children x).filter (· != h) := by
  cases hm : s.get? x with
  | none =>
    have hm' : s'.get? x = none := by
      rw [hr.get?_eq, hm, Option.map_none, ite_self, ite_self]
    rw [children_of_get?_none hm, children_of_get?_none hm', List.filter_nil]
  | some m₀ =>
    have hlive : s'.IsLive (some x) := ⟨_, hr.get?_of_get? hm hx⟩
    have hsiblings := hr.siblings hlive
    change s'.children x = if m.parent = some x then (s.children x).filter (· != h) else s.children x at hsiblings
    rw [hsiblings]
    split
    · rfl
    · next hne => exact (hs.filter_siblings hr.live hne).symm

/-- Of an order that starts above the model, what is gone drops out. -/
theorem Removed.preorder (hr : s.Removed h m s') (hs : s.Wired) (horder : s.Preorder top order)
    (htop : ∀ x ∈ top, ¬ s.Above h x) :
    s'.Preorder (top.filter (· != h)) (order.filter (· ∉ h :: s.descendants h)) := by
  induction horder with
  | nil => exact Preorder.nil
  | @cons x rest below after hbelow hafter ihbelow ihafter =>
    have hrest := ihafter fun y hy => htop y (List.mem_cons_of_mem _ hy)
    by_cases hxh : x = h
    · subst hxh
      have hgone : below.filter (· ∉ x :: s.descendants x) = [] := by
        refine List.filter_eq_nil_iff.2 fun y hy => ?_
        rw [decide_eq_true_iff, not_not, List.mem_cons, hs.mem_descendants_iff]
        exact Or.inr (hs.above_of_mem_preorder hbelow hy)
      rw [List.filter_cons_of_neg (by simp), List.filter_cons_of_neg (by simp), List.filter_append, hgone,
        List.nil_append]
      exact hrest
    · have hx : x ∉ h :: s.descendants h := by
        rw [List.mem_cons, hs.mem_descendants_iff, not_or]
        exact ⟨hxh, htop x (List.mem_cons_self ..)⟩
      rw [List.filter_cons, if_pos (bne_iff_ne.2 hxh), List.filter_cons, if_pos (decide_eq_true hx),
        List.filter_append]
      refine Preorder.cons ?_ hrest
      rw [hr.children_eq hs hx]
      refine ihbelow fun y hy habove => hx ?_
      -- a child below the model would have its parent at or below it
      obtain ⟨p, hp, hpy⟩ := Relation.TransGen.tail'_iff.1 habove
      obtain rfl : p = x := Option.some.inj (hpy.symm.trans (hs.mem_children_iff.1 hy))
      exact (Removed.mem_gone_iff hs).2 hp

theorem Removed.roots_eq (hr : s.Removed h m s') (hs : s.Wired) : s'.roots = s.roots.filter (· != h) := by
  rw [hr.roots]
  split
  · rfl
  · next hne => exact (hs.filter_siblings hr.live hne).symm

theorem Removed.walk_eq (hr : s.Removed h m s') (hs : s.Wired) :
    s'.walk = s.walk.filter (· ∉ h :: s.descendants h) := by
  have horder := hr.preorder hs hs.walk_preorder fun r hr hhr => ?_
  · rw [← hr.roots_eq hs] at horder
    exact ((hr.wired hs).preorder_iff.1 horder).symm
  · -- nothing lies above a root
    obtain ⟨m, hm, hp⟩ := hs.linked (show r ∈ s.siblings none from hr)
    obtain ⟨p, -, hpr⟩ := Relation.TransGen.tail'_iff.1 hhr
    rw [IsParent, parent?_of_get? hm, hp] at hpr
    cases hpr

theorem Removed.pruned (hr : s.Removed h m s') (hs : s.Wired) : s.Pruned h (h :: s.descendants h) s' where
  options := hr.options
  isOpen := hr.isOpen
  ids := hr.ids
  roots := hr.roots_eq hs
  nextRoot := hr.nextRoot
  get?_eq := by
    rw [parent?_of_get? hr.live]
    exact hr.get?_eq
  lookup := hr.lookup hs
  walk := hr.walk_eq hs

theorem restored_remove (hs : s.Wired) (happ : s.append parent d = (.ok h, s₁)) :
    ∃ uids s', s₁.remove h = (.ok uids, s') ∧ s.Restored parent s' := by
  obtain ⟨s₀, hone, hchildren⟩ := append_eq_ok happ
  obtain ⟨m, hp, rfl, -⟩ := placed_of_appendOne hone
  obtain ⟨hc, hs₁⟩ := hp.confined_appendChildren hs d.children
  rw [hchildren] at hc hs₁
  have hopen : s₁.isOpen = true := by
    rw [hc.isOpen, hp.isOpen]
    exact isOpen_of_appendOne hone
  obtain ⟨m₁, hm₁, -⟩ := hc.same hp.get?_size
  obtain ⟨s', hremove, hr⟩ := remove_of_live hs₁ hopen hm₁
  exact ⟨_, s', hremove, hp.restored hs hc hs₁ hr⟩

end

/-- In an open store the removal of a live model succeeds and gives the identifiers of the model and of all that
lies below it, in the order of the traversal. Just these models go. An append that succeeds can be taken back: then
everything is as before, but for one step of one counter. -/
theorem pruned_of_remove {options : StoreOptions} {ids : IdSource} {s : Store} {paths : List SiblingPath}
    (hrun : (Store.new options ids).Run paths s) :
    (s.isOpen = true → ∀ h m, s.get? h = some m → ∃ uids s',
      s.remove h = (.ok uids, s') ∧ s.removeUid m.uid = (.ok uids, s') ∧
      List.Forall₂ (fun x uid => s.lookup? uid = some x) (h :: s.descendants h) uids ∧ uids.Nodup ∧
      s.Preorder (s.children h) (s.descendants h) ∧ s.Pruned h (h :: s.descendants h) s') ∧
    (∀ parent d h s₁, s.append parent d = (.ok h, s₁) →
      ∃ uids s', s₁.remove h = (.ok uids, s') ∧ s.Restored parent s') := by
  have hs := hrun.consistent_new.toWired
  refine ⟨fun hopen h m hm => ?_, fun parent d h s₁ happ => restored_remove hs happ⟩
  obtain ⟨s', hremove, hr⟩ := remove_of_live hs hopen hm
  have hlive : ∀ x ∈ h :: s.descendants h, ∃ m, s.get? x = some m := fun x hx =>
    live_of_reflTransGen hm ((Removed.mem_gone_iff hs).1 hx)
  have huid : s.removeUid m.uid = s.remove h := by
    unfold removeUid
    rw [hs.lookup.2 ⟨m, hm, rfl⟩]
  exact ⟨_, s', hremove, huid.trans hremove, hs.forall₂_uidsOf hlive, hs.nodup_uidsOf (hs.nodup_gone h),
    hs.descendants_preorder h, hr.pruned hs⟩

/-- Of two children the second is removed with the one below it; then a draft is appended below the first. -/
theorem pruned_of_remove_second_child :
    let below : Draft := ⟨"c", none, [], .emptyMap, [.ofTag "d"]⟩
    let draft : Draft := ⟨"a", none, [], .emptyMap, [.ofTag "b", below]⟩
    let s := (Store.new ⟨⟨1, 4⟩, 1⟩ .counting).after (.append none draft)
    let s₁ := s.after (.append (some 1) below)
    (∃ uids s', s.remove 2 = (.ok uids, s') ∧ uids.length = 2 ∧ s.Pruned 2 [2, 3] s') ∧
      ∃ uids s', s₁.remove 4 = (.ok uids, s') ∧ s.Restored (some 1) s' := by
  intro below draft s s₁
  obtain ⟨hopen, hlive, hdescendants, hresult⟩ : s.isOpen = true ∧ (s.get? 2).isSome ∧ s.descendants 2 = [3] ∧
      (s.append (some 1) below).1 = .ok 4 := by
    decide +kernel
  obtain ⟨m, hm⟩ := Option.isSome_iff_exists.1 hlive
  obtain ⟨hremove, happend⟩ := pruned_of_remove (Run.refl.update _)
  obtain ⟨uids, s', hok, -, huids, -, -, hpruned⟩ := hremove hopen 2 m hm
  rw [hdescendants] at huids hpruned
  exact ⟨⟨uids, s', hok, huids.length_eq.symm, hpruned⟩, happend _ _ _ _ (Prod.ext hresult rfl)⟩

end Store

end Grove
