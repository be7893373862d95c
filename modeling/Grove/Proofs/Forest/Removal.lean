import Mathlib.Tactic
import Grove.Proofs.Forest.Walk
/-!
# What a removal does

A removal empties the slots of a model and of everything below it, and takes the model from the children
of its parent. The identifiers come out in the order of the traversal, and consistency survives.
-/

set_option autoImplicit false

namespace Grove

namespace Store

/-- The index holds the identifiers of the live models, each with its own handle. -/
def Indexed (s : Store) : Prop :=
  ∀ {uid h}, s.lookup? uid = some h ↔ ∃ m, s.get? h = some m ∧ m.uid = uid

/-- Some slots have been emptied and their identifiers forgotten. -/
structure Emptied (s : Store) (gone : List Handle) (s' : Store) : Prop where
  options : s'.options = s.options
  isOpen : s'.isOpen = s.isOpen
  ids : s'.ids = s.ids
  drawn : s'.drawn = s.drawn
  size : s'.slots.size = s.slots.size
  roots : s'.roots = s.roots
  nextRoot : s'.nextRoot = s.nextRoot
  get?_eq : ∀ x, s'.get? x = if x ∈ gone then none else s.get? x
  indexed : s'.Indexed

def vacate (s : Store) (h : Handle) (uid : String) : Store :=
  { s with slots := s.slots.setIfInBounds h none, index := s.index.erase uid }

section
variable {s s' : Store} {gone : List Handle} {h x : Handle} {m m' : Model}

theorem kill_cons (hh : s.get? h = some m) : s.kill (h :: gone) =
    (m.uid :: ((s.vacate h m.uid).kill gone).1, ((s.vacate h m.uid).kill gone).2) := by
  conv_lhs => unfold kill
  rw [hh]
  rfl

theorem kill_cons_none (hh : s.get? h = none) : s.kill (h :: gone) = s.kill gone := by
  conv_lhs => unfold kill
  rw [hh]

theorem get?_vacate {uid : String} (hh : h < s.slots.size) :
    (s.vacate h uid).get? x = if x = h then none else s.get? x := by
  unfold vacate get?
  dsimp only
  rw [Array.getElem?_setIfInBounds]
  by_cases hxh : x = h
  · subst hxh
    simp [hh]
  · rw [if_neg (Ne.symm hxh), if_neg hxh]

theorem lookup?_vacate {uid uid' : String} :
    (s.vacate h uid).lookup? uid' = if uid = uid' then none else s.lookup? uid' := by
  unfold vacate lookup?
  dsimp only
  rw [Std.HashMap.getElem?_erase]
  by_cases huid : uid = uid'
  · rw [if_pos huid, if_pos (beq_iff_eq.2 huid)]
  · rw [if_neg huid, if_neg (mt beq_iff_eq.1 huid)]

theorem Indexed.vacate (hs : s.Indexed) (hh : s.get? h = some m) : (s.vacate h m.uid).Indexed := by
  intro uid x
  rw [lookup?_vacate, get?_vacate (lt_size_of_get? hh)]
  by_cases huid : m.uid = uid
  · rw [if_pos huid]
    refine ⟨nofun, ?_⟩
    rintro ⟨m', hm', huid'⟩
    split at hm'
    · cases hm'
    · next hne =>
      -- the identifier belongs to the handle that is given up
      have hx := hs.2 ⟨m', hm', huid'⟩
      rw [hs.2 ⟨m, hh, huid⟩] at hx
      exact absurd (Option.some.inj hx).symm hne
  · rw [if_neg huid]
    by_cases hxh : x = h
    · rw [if_pos hxh, hs, hxh]
      refine ⟨?_, fun ⟨_, hm', _⟩ => by cases hm'⟩
      rintro ⟨m', hm', huid'⟩
      rw [hh] at hm'
      cases hm'
      exact absurd huid' huid
    · rw [if_neg hxh]
      exact hs

theorem emptied_kill (hs : s.Indexed) (gone : List Handle) : s.Emptied gone (s.kill gone).2 := by
  induction gone generalizing s with
  | nil => exact ⟨rfl, rfl, rfl, rfl, rfl, rfl, rfl, fun x => by simp [kill], hs⟩
  | cons h gone ih =>
    cases hh : s.get? h with
    | none =>
      rw [kill_cons_none hh]
      have hrest := ih hs
      refine { hrest with get?_eq := fun x => ?_ }
      rw [hrest.get?_eq]
      by_cases hxh : x = h
      · subst hxh
        simp [hh]
      · simp [hxh]
    | some m =>
      rw [kill_cons hh]
      have hrest := ih (hs.vacate hh)
      refine
        { options := hrest.options, isOpen := hrest.isOpen, ids := hrest.ids, drawn := hrest.drawn
          size := hrest.size.trans (by simp [vacate]), roots := hrest.roots, nextRoot := hrest.nextRoot
          indexed := hrest.indexed, get?_eq := fun x => ?_ }
      dsimp only
      rw [hrest.get?_eq, get?_vacate (lt_size_of_get? hh)]
      by_cases hxh : x = h
      · simp [hxh]
      · simp [hxh]

theorem kill_uids (hgone : gone.Nodup) :
    (s.kill gone).1 = gone.filterMap fun x => (s.get? x).map Model.uid := by
  induction gone generalizing s with
  | nil => rfl
  | cons h gone ih =>
    rw [List.nodup_cons] at hgone
    cases hh : s.get? h with
    | none =>
      rw [kill_cons_none hh, ih hgone.2, List.filterMap_cons_none (by rw [hh]; rfl)]
    | some m =>
      rw [kill_cons hh, List.filterMap_cons_some (by rw [hh]; rfl)]
      dsimp only
      rw [ih hgone.2]
      congr 1
      refine List.filterMap_congr fun x hx => ?_
      rw [get?_vacate (lt_size_of_get? hh), if_neg (ne_of_mem_of_not_mem hx hgone.1)]

end

/-- The model `m` at `h` has been removed with all that lies below it. -/
structure Removed (s : Store) (h : Handle) (m : Model) (s' : Store) : Prop where
  live : s.get? h = some m
  options : s'.options = s.options
  isOpen : s'.isOpen = s.isOpen
  ids : s'.ids = s.ids
  drawn : s'.drawn = s.drawn
  size : s'.slots.size = s.slots.size
  roots : s'.roots = if m.parent = none then s.roots.filter (· != h) else s.roots
  nextRoot : s'.nextRoot = s.nextRoot
  get?_eq : ∀ x, s'.get? x = if x ∈ h :: s.descendants h then none
    else if m.parent = some x then (s.get? x).map (Model.disown · h) else s.get? x
  indexed : s'.Indexed

section
variable {s s' : Store} {h x : Handle} {m m₀ m' : Model} {uids : List String}

@[simp] theorem unlink_options : (s.unlink m.parent h).options = s.options := by
  unfold unlink; split <;> simp

@[simp] theorem unlink_isOpen : (s.unlink m.parent h).isOpen = s.isOpen := by unfold unlink; split <;> simp

@[simp] theorem unlink_ids : (s.unlink m.parent h).ids = s.ids := by unfold unlink; split <;> simp

@[simp] theorem unlink_drawn : (s.unlink m.parent h).drawn = s.drawn := by unfold unlink; split <;> simp

@[simp] theorem unlink_nextRoot : (s.unlink m.parent h).nextRoot = s.nextRoot := by
  unfold unlink; split <;> simp

@[simp] theorem unlink_index : (s.unlink m.parent h).index = s.index := by unfold unlink; split <;> simp

@[simp] theorem unlink_size : (s.unlink m.parent h).slots.size = s.slots.size := by
  unfold unlink; split <;> simp

theorem roots_unlink :
    (s.unlink m.parent h).roots = if m.parent = none then s.roots.filter (· != h) else s.roots := by
  unfold unlink
  split
  · next hp => rw [if_pos hp]
  · next hp => rw [hp, if_neg (Option.some_ne_none _), modify_roots]

theorem get?_unlink : (s.unlink m.parent h).get? x =
    if m.parent = some x then (s.get? x).map (Model.disown · h) else s.get? x := by
  unfold unlink
  cases hp : m.parent with
  | none => rfl
  | some p =>
    dsimp only
    rw [get?_modify]
    by_cases hx : x = p
    · rw [if_pos hx, if_pos (congrArg some hx.symm)]
      rfl
    · rw [if_neg hx, if_neg fun he => hx (Option.some.inj he).symm]

theorem indexed_unlink (hs : s.Wired) : (s.unlink m.parent h).Indexed := by
  intro uid x
  rw [lookup?, unlink_index, ← lookup?, hs.lookup, get?_unlink]
  split
  · cases hget : s.get? x with
    | none => rfl
    | some m₀ => simp [Model.disown]
  · rfl

theorem children_unlink (hx : m.parent ≠ some x) : (s.unlink m.parent h).children x = s.children x := by
  unfold children
  rw [get?_unlink, if_neg hx]

/-- Taking the model from its parent does not change what lies below it. -/
theorem descendants_unlink (hs : s.Wired) (hm : s.get? h = some m) :
    (s.unlink m.parent h).descendants h = s.descendants h := by
  have hne : ∀ x ∈ h :: s.descendants h, m.parent ≠ some x := by
    intro x hx hp
    have hlt := hs.parent_lt hm hp
    rcases List.mem_cons.1 hx with rfl | hx
    · exact lt_irrefl _ hlt
    · exact lt_asymm hlt (hs.lt_of_above (hs.mem_descendants_iff.1 hx))
  have horder := hs.descendants_preorder h
  have hcongr : (s.unlink m.parent h).Preorder (s.children h) (s.descendants h) :=
    horder.congr fun x hx => children_unlink (hne x (List.mem_cons_of_mem _ hx))
  have hlength := hs.preorder_length_le horder (some h) (List.Sublist.refl _)
  conv_lhs => unfold descendants subtrees
  rw [children_unlink (hne h (List.mem_cons_self ..)), unlink_size, hcongr.visit_eq hlength]

theorem Wired.nodup_gone (hs : s.Wired) (h : Handle) : (h :: s.descendants h).Nodup := by
  refine List.nodup_cons.2 ⟨fun hh => ?_, hs.nodup_descendants h⟩
  exact lt_irrefl _ (hs.lt_of_above (hs.mem_descendants_iff.1 hh))

theorem remove_eq (hs : s.Wired) (hopen : s.isOpen = true) (hm : s.get? h = some m) :
    s.remove h = (.ok ((s.unlink m.parent h).kill (h :: s.descendants h)).1,
      ((s.unlink m.parent h).kill (h :: s.descendants h)).2) := by
  unfold remove
  rw [hopen, hm]
  dsimp only
  rw [descendants_unlink hs hm]
  rfl

theorem removed_kill (hs : s.Wired) (hm : s.get? h = some m) :
    s.Removed h m ((s.unlink m.parent h).kill (h :: s.descendants h)).2 := by
  have hempty := emptied_kill (indexed_unlink hs (m := m) (h := h)) (h :: s.descendants h)
  exact
    { live := hm, options := by rw [hempty.options, unlink_options]
      isOpen := by rw [hempty.isOpen, unlink_isOpen], ids := by rw [hempty.ids, unlink_ids]
      drawn := by rw [hempty.drawn, unlink_drawn], size := by rw [hempty.size, unlink_size]
      nextRoot := by rw [hempty.nextRoot, unlink_nextRoot]
      roots := by rw [hempty.roots, roots_unlink]
      get?_eq := fun x => by rw [hempty.get?_eq, get?_unlink]
      indexed := hempty.indexed }

theorem remove_of_live (hs : s.Wired) (hopen : s.isOpen = true) (hm : s.get? h = some m) :
    ∃ s', s.remove h = (.ok ((h :: s.descendants h).filterMap fun x => (s.get? x).map Model.uid), s') ∧
      s.Removed h m s' := by
  refine ⟨_, ?_, removed_kill hs hm⟩
  rw [remove_eq hs hopen hm, kill_uids (hs.nodup_gone h)]
  congr 2
  refine List.filterMap_congr fun x _ => ?_
  rw [get?_unlink]
  split
  · cases s.get? x <;> rfl
  · rfl

theorem remove_cases (hs : s.Wired) (h : Handle) :
    (∃ e, s.remove h = (.error e, s)) ∨ ∃ uids m s', s.remove h = (.ok uids, s') ∧ s.Removed h m s' := by
  by_cases hopen : s.isOpen = true
  · cases hm : s.get? h with
    | none =>
      refine Or.inl ⟨.unknownModel, ?_⟩
      unfold remove
      rw [hopen, hm]
      rfl
    | some m =>
      obtain ⟨s', hs', hrem⟩ := remove_of_live hs hopen hm
      exact Or.inr ⟨_, m, s', hs', hrem⟩
  · refine Or.inl ⟨.closed, ?_⟩
    unfold remove
    rw [Bool.not_eq_true] at hopen
    rw [hopen]
    rfl

end

namespace Removed

section
variable {s s' : Store} {h x p : Handle} {m m₀ m' : Model} {par : Option Handle}

theorem mem_gone_iff (hs : s.Wired) :
    x ∈ h :: s.descendants h ↔ Relation.ReflTransGen s.IsParent h x := by
  rw [List.mem_cons, hs.mem_descendants_iff, Relation.reflTransGen_iff_eq_or_transGen]
  rfl

theorem get?_of_get? (hr : s.Removed h m s') (hx : s.get? x = some m₀) (hgone : x ∉ h :: s.descendants h) :
    s'.get? x = some (if m.parent = some x then m₀.disown h else m₀) := by
  rw [hr.get?_eq, if_neg hgone, hx]
  split <;> rfl

theorem cases_get? (hr : s.Removed h m s') (hx : s'.get? x = some m') : x ∉ h :: s.descendants h ∧
    ∃ m₀, s.get? x = some m₀ ∧ m' = if m.parent = some x then m₀.disown h else m₀ := by
  rw [hr.get?_eq] at hx
  split at hx
  · cases hx
  · next hgone =>
    refine ⟨hgone, ?_⟩
    cases hget : s.get? x with
    | none =>
      rw [hget] at hx
      split at hx <;> cases hx
    | some m₀ =>
      refine ⟨m₀, rfl, ?_⟩
      rw [hget] at hx
      split at hx
      · next hp => rw [if_pos hp]; exact (Option.some.inj hx).symm
      · next hp => rw [if_neg hp]; exact (Option.some.inj hx).symm

theorem sameContent (hx : m' = if m.parent = some x then m₀.disown p else m₀) : m₀.SameContent m' := by
  subst hx
  split
  · exact Model.sameContent_disown ..
  · exact Model.SameContent.refl ..

theorem sameNode (hx : m' = if m.parent = some x then m₀.disown p else m₀) : m₀.SameNode m' :=
  (sameContent hx).toSameNode

theorem not_gone_of_parent (hs : s.Wired) (hx : s.get? x = some m₀) (hp : m₀.parent = some p)
    (hgone : x ∉ h :: s.descendants h) : p ∉ h :: s.descendants h := by
  rw [mem_gone_iff hs] at hgone ⊢
  exact fun hhp => hgone (hhp.tail (isParent_iff.2 ⟨m₀, hx, hp⟩))

theorem isLive_parent (hr : s.Removed h m s') (hs : s.Wired) (hx : s.get? x = some m₀)
    (hgone : x ∉ h :: s.descendants h) : s'.IsLive m₀.parent := by
  cases hp : m₀.parent with
  | none => trivial
  | some p =>
    obtain ⟨owner, howner⟩ := hs.parent_live hx hp
    exact ⟨_, hr.get?_of_get? howner (not_gone_of_parent hs hx hp hgone)⟩

theorem isLive_of_isLive (hr : s.Removed h m s') (hlive : s'.IsLive par) : s.IsLive par := by
  cases par with
  | none => trivial
  | some x =>
    obtain ⟨m', hm'⟩ := hlive
    obtain ⟨-, m₀, hget, -⟩ := hr.cases_get? hm'
    exact ⟨m₀, hget⟩

theorem siblings (hr : s.Removed h m s') (hlive : s'.IsLive par) :
    s'.siblings par = if m.parent = par then (s.siblings par).filter (· != h) else s.siblings par := by
  cases par with
  | none => exact hr.roots
  | some x =>
    obtain ⟨m', hm'⟩ := hlive
    obtain ⟨-, m₀, hget, rfl⟩ := hr.cases_get? hm'
    change s'.children x = if m.parent = some x then (s.children x).filter (· != h) else s.children x
    rw [children_of_get? hm', children_of_get? hget]
    split <;> rfl

theorem pathTo (hr : s.Removed h m s') (hlive : s'.IsLive par) : s'.pathTo par = s.pathTo par := by
  cases par with
  | none => rfl
  | some x =>
    obtain ⟨m', hm'⟩ := hlive
    obtain ⟨-, m₀, hget, heq⟩ := hr.cases_get? hm'
    rw [pathTo_of_get? hm', pathTo_of_get? hget, (sameNode heq).path]

theorem spanOf (hr : s.Removed h m s') (hlive : s'.IsLive par) : s'.spanOf par = s.spanOf par := by
  cases par with
  | none => rfl
  | some x =>
    obtain ⟨m', hm'⟩ := hlive
    obtain ⟨-, m₀, hget, heq⟩ := hr.cases_get? hm'
    rw [spanOf_of_get? hm', spanOf_of_get? hget, (sameNode heq).span]

theorem nextIndex (hr : s.Removed h m s') (hlive : s'.IsLive par) :
    s'.nextIndex par = s.nextIndex par := by
  cases par with
  | none => exact hr.nextRoot
  | some x =>
    obtain ⟨m', hm'⟩ := hlive
    obtain ⟨-, m₀, hget, rfl⟩ := hr.cases_get? hm'
    rw [nextIndex_of_get? hm', nextIndex_of_get? hget]
    split <;> rfl

theorem samePlaces (hr : s.Removed h m s') (hlive : s'.IsLive par) : s.SamePlaces s' par :=
  ⟨hr.options, hr.pathTo hlive, hr.spanOf hlive, UInt64.le_of_eq (hr.nextIndex hlive).symm⟩

theorem inPlace (hr : s.Removed h m s') (hs : s.Consistent) (hx : s'.get? x = some m') :
    s'.InPlace m' := by
  obtain ⟨hgone, m₀, hget, heq⟩ := hr.cases_get? hx
  exact (hs.inPlace hget).of_sameNode (sameNode heq)
    (hr.samePlaces (hr.isLive_parent hs.toWired hget hgone))

theorem linked (hr : s.Removed h m s') (hs : s.Wired) (hx : x ∈ s'.siblings par) :
    ∃ m', s'.get? x = some m' ∧ m'.parent = par := by
  have hlive := isLive_of_mem_siblings hx
  rw [hr.siblings hlive] at hx
  have hold : x ∈ s.siblings par ∧ (m.parent = par → x ≠ h) := by
    split at hx
    · rw [List.mem_filter, bne_iff_ne] at hx
      exact ⟨hx.1, fun _ => hx.2⟩
    · next hne => exact ⟨hx, fun he => absurd he hne⟩
  obtain ⟨m₀, hget, hm₀⟩ := hs.linked hold.1
  have hgone : x ∉ h :: s.descendants h := by
    rw [mem_gone_iff hs]
    intro hhx
    rcases Relation.ReflTransGen.cases_tail hhx with rfl | ⟨p, hhp, hpx⟩
    · rw [hr.live] at hget
      cases hget
      exact hold.2 hm₀ rfl
    · -- the parent would be gone as well
      obtain ⟨m₁, hm₁, hp⟩ := isParent_iff.1 hpx
      rw [hget] at hm₁
      cases hm₁
      rw [hm₀] at hp
      rw [hp] at hlive
      obtain ⟨owner, howner⟩ := hlive
      exact (hr.cases_get? howner).1 ((mem_gone_iff hs).2 hhp)
  exact ⟨_, hr.get?_of_get? hget hgone, (sameNode rfl).parent.trans hm₀⟩

theorem wired (hr : s.Removed h m s') (hs : s.Wired) : s'.Wired where
  capacity := hr.size.trans_le hs.capacity
  drawn {x m'} hx := by
    obtain ⟨-, m₀, hget, heq⟩ := hr.cases_get? hx
    rw [hr.ids, hr.drawn, (sameNode heq).uid]
    exact hs.drawn hget
  lookup := hr.indexed
  listed {x m'} hx := by
    obtain ⟨hgone, m₀, hget, heq⟩ := hr.cases_get? hx
    have hlisted := hs.listed hget
    rw [(sameNode heq).parent, hr.siblings (hr.isLive_parent hs hget hgone)]
    split
    · rw [List.mem_filter, bne_iff_ne]
      exact ⟨hlisted, fun he => hgone (he ▸ List.mem_cons_self ..)⟩
    · exact hlisted
  linked := hr.linked hs
  sorted par := by
    by_cases hlive : s'.IsLive par
    · rw [hr.siblings hlive]
      split
      · exact (hs.sorted par).filter _
      · exact hs.sorted par
    · rw [List.eq_nil_iff_forall_not_mem.2 fun x hx => hlive (isLive_of_mem_siblings hx)]
      exact List.Pairwise.nil
  parent_lt {x m' p} hx hpar := by
    obtain ⟨-, m₀, hget, heq⟩ := hr.cases_get? hx
    exact hs.parent_lt hget ((sameNode heq).parent.symm.trans hpar)

theorem consistent (hr : s.Removed h m s') (hs : s.Consistent) : s'.Consistent where
  toWired := hr.wired hs.toWired
  index_mono {x₁ m₁ x₂ m₂} hx₁ hx₂ hpar hlt := by
    obtain ⟨-, m₁', hget₁, heq₁⟩ := hr.cases_get? hx₁
    obtain ⟨-, m₂', hget₂, heq₂⟩ := hr.cases_get? hx₂
    rw [(sameNode heq₁).parent, (sameNode heq₂).parent] at hpar
    rw [(sameNode heq₁).index, (sameNode heq₂).index]
    exact hs.index_mono hget₁ hget₂ hpar hlt
  first_le_next {x m'} hx := by
    obtain ⟨-, m₀, hget, rfl⟩ := hr.cases_get? hx
    have hfirst := hs.first_le_next hget
    rw [hr.options]
    split
    · exact hfirst
    · exact hfirst
  path hx := (hr.inPlace hs hx).path
  first_le hx := (hr.inPlace hs hx).first_le
  index_lt hx := (hr.inPlace hs hx).index_lt
  span hx := (hr.inPlace hs hx).span
  resolved hx := (hr.inPlace hs hx).resolved

end

end Removed

end Store

end Grove
