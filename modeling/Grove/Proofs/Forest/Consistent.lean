import Mathlib.Tactic
import Grove.Proofs.Forest.Step
/-!
# Consistent stores

The arena, the index, the child lists and the counters of a store tell the same story: every live model is
listed once by its parent, below it in the arena, at a sibling index that was handed out and never again,
and its span is that of its path. Consistency holds of a new store and survives the placing of a model.
-/

set_option autoImplicit false

namespace Grove

theorem SiblingPath.getLast_of_append {p : SiblingPath} {base : List UInt64} {i : UInt64}
    (h : p.indices = base ++ [i]) : p.indices.getLast p.nonempty = i := by
  simp only [h]
  exact List.getLast_append_singleton ..

theorem lt_add_one_of_toNat {i : UInt64} (h : i.toNat + 1 < UInt64.size) : i < i + 1 := by
  refine UInt64.lt_add_one ?_
  rintro rfl
  exact absurd h (by decide)

namespace Model

def index (m : Model) : UInt64 := m.path.indices.getLast m.path.nonempty

theorem index_eq {m : Model} {base : List UInt64} {i : UInt64} (h : m.path.indices = base ++ [i]) :
    m.index = i :=
  SiblingPath.getLast_of_append h

/-- Two states of one model: what places it in the forest is the same. -/
structure SameNode (m m' : Model) : Prop where
  uid : m'.uid = m.uid
  parent : m'.parent = m.parent
  path : m'.path = m.path
  span : m'.span = m.span

theorem SameNode.refl (m : Model) : m.SameNode m := ⟨rfl, rfl, rfl, rfl⟩

theorem SameNode.trans {m m' m'' : Model} (h : m.SameNode m') (h' : m'.SameNode m'') : m.SameNode m'' :=
  ⟨h'.uid.trans h.uid, h'.parent.trans h.parent, h'.path.trans h.path, h'.span.trans h.span⟩

theorem SameNode.index {m m' : Model} (h : m.SameNode m') : m'.index = m.index := by
  unfold Model.index
  simp only [h.path]

/-- Two states of one model between which only its children and its counter have changed. -/
structure SameContent (m m' : Model) : Prop extends m.SameNode m' where
  tag : m'.tag = m.tag
  id : m'.id = m.id
  classes : m'.classes = m.classes
  attrs : m'.attrs = m.attrs

theorem SameContent.refl (m : Model) : m.SameContent m := ⟨SameNode.refl m, rfl, rfl, rfl, rfl⟩

theorem SameContent.trans {m m' m'' : Model} (h : m.SameContent m') (h' : m'.SameContent m'') :
    m.SameContent m'' :=
  ⟨h.toSameNode.trans h'.toSameNode, h'.tag.trans h.tag, h'.id.trans h.id, h'.classes.trans h.classes,
    h'.attrs.trans h.attrs⟩

theorem sameContent_adopt (m : Model) (h : Handle) : m.SameContent (m.adopt h) :=
  ⟨⟨rfl, rfl, rfl, rfl⟩, rfl, rfl, rfl, rfl⟩

theorem sameContent_disown (m : Model) (h : Handle) : m.SameContent (m.disown h) :=
  ⟨⟨rfl, rfl, rfl, rfl⟩, rfl, rfl, rfl, rfl⟩

theorem SameContent.skeleton {m m' : Model} (h : m.SameContent m') : m'.skeleton = m.skeleton := by
  unfold Model.skeleton
  rw [h.uid, h.tag, h.span, h.classes]

/-- Two states of one model between which only content has changed: its links are the same too. -/
structure SameLinks (m m' : Model) : Prop extends m.SameNode m' where
  children : m'.children = m.children
  nextChild : m'.nextChild = m.nextChild

theorem SameLinks.refl (m : Model) : m.SameLinks m := ⟨SameNode.refl m, rfl, rfl⟩

end Model

namespace Store

/-- The arena, the index and the child lists fit together, whatever the counters do. -/
structure Wired (s : Store) : Prop where
  capacity : s.slots.size ≤ UInt32.size
  drawn : ∀ {h m}, s.get? h = some m → ∃ n < s.drawn, m.uid = s.ids.draw n
  lookup : ∀ {uid h}, s.lookup? uid = some h ↔ ∃ m, s.get? h = some m ∧ m.uid = uid
  listed : ∀ {h m}, s.get? h = some m → h ∈ s.siblings m.parent
  linked : ∀ {parent h}, h ∈ s.siblings parent → ∃ m, s.get? h = some m ∧ m.parent = parent
  sorted : ∀ parent, (s.siblings parent).Pairwise (· < ·)
  parent_lt : ∀ {h m p}, s.get? h = some m → m.parent = some p → p < h

structure Consistent (s : Store) : Prop extends s.Wired where
  path : ∀ {h m}, s.get? h = some m → m.path.indices = s.pathTo m.parent ++ [m.index]
  first_le : ∀ {h m}, s.get? h = some m → s.firstIndex m.parent ≤ m.index
  index_lt : ∀ {h m}, s.get? h = some m → m.index < s.nextIndex m.parent
  index_mono : ∀ {h₁ m₁ h₂ m₂}, s.get? h₁ = some m₁ → s.get? h₂ = some m₂ → m₁.parent = m₂.parent →
    h₁ < h₂ → m₁.index < m₂.index
  first_le_next : ∀ {h m}, s.get? h = some m → s.options.firstChildIndex ≤ m.nextChild
  span : ∀ {h m}, s.get? h = some m → m.path.span s.options.format = .ok m.span
  resolved : ∀ {h m}, s.get? h = some m → m.span.isResolved (s.spanOf m.parent) = true

/-- What the consistency of a store says of one model and its place. -/
structure InPlace (s : Store) (m : Model) : Prop where
  path : m.path.indices = s.pathTo m.parent ++ [m.index]
  first_le : s.firstIndex m.parent ≤ m.index
  index_lt : m.index < s.nextIndex m.parent
  span : m.path.span s.options.format = .ok m.span
  resolved : m.span.isResolved (s.spanOf m.parent) = true

/-- The places below a parent, or at the top, are the same; its counter may have grown. -/
structure SamePlaces (s s' : Store) (parent : Option Handle) : Prop where
  options : s'.options = s.options
  pathTo : s'.pathTo parent = s.pathTo parent
  spanOf : s'.spanOf parent = s.spanOf parent
  nextIndex_le : s.nextIndex parent ≤ s'.nextIndex parent

theorem firstIndex_congr {s s' : Store} (h : s'.options = s.options) (parent : Option Handle) :
    s'.firstIndex parent = s.firstIndex parent := by
  cases parent with
  | none => rfl
  | some x => exact congrArg StoreOptions.firstChildIndex h

theorem Consistent.inPlace {s : Store} {h : Handle} {m : Model} (hs : s.Consistent)
    (hm : s.get? h = some m) : s.InPlace m :=
  ⟨hs.path hm, hs.first_le hm, hs.index_lt hm, hs.span hm, hs.resolved hm⟩

theorem InPlace.of_sameNode {s s' : Store} {m m' : Model} (hi : s.InPlace m)
    (hsame : m.SameNode m') (hplaces : s.SamePlaces s' m.parent) : s'.InPlace m' where
  path := by
    rw [hsame.path, hsame.parent, hsame.index, hplaces.pathTo]
    exact hi.path
  first_le := by
    rw [hsame.parent, hsame.index, firstIndex_congr hplaces.options]
    exact hi.first_le
  index_lt := by
    rw [hsame.parent, hsame.index]
    exact UInt64.lt_of_lt_of_le hi.index_lt hplaces.nextIndex_le
  span := by
    rw [hsame.path, hsame.span, hplaces.options]
    exact hi.span
  resolved := by
    rw [hsame.span, hsame.parent, hplaces.spanOf]
    exact hi.resolved

theorem get?_new (options : StoreOptions) (ids : IdSource) (h : Handle) :
    (Store.new options ids).get? h = none := by
  simp [Store.new, get?]

theorem siblings_new (options : StoreOptions) (ids : IdSource) (parent : Option Handle) :
    (Store.new options ids).siblings parent = [] := by
  cases parent with
  | none => rfl
  | some p => exact children_of_get?_none (get?_new options ids p)

theorem consistent_new (options : StoreOptions) (ids : IdSource) : (Store.new options ids).Consistent where
  capacity := Nat.zero_le _
  drawn h := by simp [get?_new] at h
  lookup := by
    intro uid h
    rw [get?_new]
    simp [Store.new, lookup?]
  listed h := by simp [get?_new] at h
  linked h := by simp [siblings_new] at h
  sorted parent := by simp [siblings_new]
  parent_lt h := by simp [get?_new] at h
  path h := by simp [get?_new] at h
  first_le h := by simp [get?_new] at h
  index_lt h := by simp [get?_new] at h
  index_mono h := by simp [get?_new] at h
  first_le_next h := by simp [get?_new] at h
  span h := by simp [get?_new] at h
  resolved h := by simp [get?_new] at h

theorem eq_of_pathTo_eq {s : Store} {parent parent' : Option Handle} (hlive : s.IsLive parent)
    (hlive' : s.IsLive parent') (heq : s.pathTo parent = s.pathTo parent')
    (hone : ∀ {a b ma mb}, parent = some a → s.get? a = some ma → s.get? b = some mb →
      ma.path.indices = mb.path.indices → a = b) : parent = parent' := by
  cases parent with
  | none =>
    cases parent' with
    | none => rfl
    | some b =>
      obtain ⟨mb, hb⟩ := hlive'
      rw [pathTo_of_get? hb] at heq
      exact absurd heq.symm mb.path.nonempty
  | some a =>
    obtain ⟨ma, ha⟩ := hlive
    cases parent' with
    | none =>
      rw [pathTo_of_get? ha] at heq
      exact absurd heq ma.path.nonempty
    | some b =>
      obtain ⟨mb, hb⟩ := hlive'
      rw [pathTo_of_get? ha, pathTo_of_get? hb] at heq
      rw [hone rfl ha hb heq]

namespace Wired

section
variable {s : Store} {h h' p : Handle} {m m' : Model}

theorem isLive_parent (hs : s.Wired) (hm : s.get? h = some m) : s.IsLive m.parent :=
  isLive_of_mem_siblings (hs.listed hm)

theorem parent_live (hs : s.Wired) (hm : s.get? h = some m) (hp : m.parent = some p) :
    ∃ owner, s.get? p = some owner := by
  have hlive := hs.isLive_parent hm
  rw [hp] at hlive
  exact hlive

theorem eq_of_uid_eq (hs : s.Wired) (hm : s.get? h = some m) (hm' : s.get? h' = some m')
    (huid : m.uid = m'.uid) : h = h' := by
  have hlook := hs.lookup.2 ⟨m, hm, rfl⟩
  rw [huid, hs.lookup.2 ⟨m', hm', rfl⟩] at hlook
  exact (Option.some.inj hlook).symm

end

end Wired

namespace Consistent

section
variable {s : Store} {h h' p : Handle} {m m' : Model}

theorem path_child (hs : s.Consistent) (hm : s.get? h = some m) (hp : m.parent = some p)
    (hm' : s.get? p = some m') : m.path.indices = m'.path.indices ++ [m.index] := by
  rw [hs.path hm, hp, pathTo_of_get? hm']

theorem firstIndex_le_nextIndex {parent : Option Handle} (hs : s.Consistent) (hlive : s.IsLive parent) :
    s.firstIndex parent ≤ s.nextIndex parent := by
  cases parent with
  | none => exact UInt64.zero_le
  | some p =>
    obtain ⟨owner, howner⟩ := hlive
    rw [nextIndex_of_get? howner]
    exact hs.first_le_next howner

theorem eq_of_path_eq (hs : s.Consistent) (hm : s.get? h = some m) (hm' : s.get? h' = some m')
    (hpath : m.path.indices = m'.path.indices) : h = h' := by
  induction h using Nat.strong_induction_on generalizing h' m m' with
  | _ h ih =>
    rw [hs.path hm, hs.path hm'] at hpath
    obtain ⟨hbase, hindex⟩ := List.append_inj' hpath rfl
    have hindex : m.index = m'.index := List.head_eq_of_cons_eq hindex
    have hparent := eq_of_pathTo_eq (hs.isLive_parent hm) (hs.isLive_parent hm') hbase
      fun hp ha hb hab => ih _ (hs.parent_lt hm hp) ha hb hab
    rcases Nat.lt_trichotomy h h' with hlt | heq | hgt
    · exact absurd hindex (UInt64.ne_of_lt (hs.index_mono hm hm' hparent hlt))
    · exact heq
    · exact absurd hindex.symm (UInt64.ne_of_lt (hs.index_mono hm' hm hparent.symm hgt))

end

end Consistent

namespace Placed

section
variable {s s' : Store} {parent par : Option Handle} {m m₀ m' : Model} {x p : Handle}

theorem lt_add_one (hp : s.Placed parent m s') : s.nextIndex parent < s.nextIndex parent + 1 :=
  lt_add_one_of_toNat hp.room

theorem live_lt (hp : s.Placed parent m s') (hx : parent = some x) : x < s.slots.size := by
  have hlive := hp.live
  rw [hx] at hlive
  obtain ⟨owner, howner⟩ := hlive
  exact lt_size_of_get? howner

theorem get?_size (hp : s.Placed parent m s') : s'.get? s.slots.size = some m := by
  rw [hp.get?_eq, if_pos rfl]

theorem get?_of_get? (hp : s.Placed parent m s') (hx : s.get? x = some m₀) :
    s'.get? x = some (if parent = some x then m₀.adopt s.slots.size else m₀) := by
  rw [hp.get?_eq, if_neg (lt_size_of_get? hx).ne, hx]
  split <;> rfl

theorem cases_get? (hp : s.Placed parent m s') (hx : s'.get? x = some m') :
    (x = s.slots.size ∧ m' = m) ∨
      ∃ m₀, s.get? x = some m₀ ∧ m' = if parent = some x then m₀.adopt s.slots.size else m₀ := by
  by_cases hsize : x = s.slots.size
  · subst hsize
    rw [hp.get?_size] at hx
    exact Or.inl ⟨rfl, (Option.some.inj hx).symm⟩
  · rw [hp.get?_eq, if_neg hsize] at hx
    cases hget : s.get? x with
    | none =>
      rw [hget] at hx
      split at hx <;> cases hx
    | some m₀ =>
      refine Or.inr ⟨m₀, rfl, ?_⟩
      rw [hget] at hx
      split at hx
      · next h => rw [if_pos h]; exact (Option.some.inj hx).symm
      · next h => rw [if_neg h]; exact (Option.some.inj hx).symm

theorem sameContent (hx : m' = if parent = some x then m₀.adopt p else m₀) : m₀.SameContent m' := by
  subst hx
  split
  · exact Model.sameContent_adopt ..
  · exact Model.SameContent.refl ..

theorem sameNode (hx : m' = if parent = some x then m₀.adopt p else m₀) : m₀.SameNode m' :=
  (sameContent hx).toSameNode

theorem siblings (hp : s.Placed parent m s') (par : Option Handle) :
    s'.siblings par = if parent = par then s.siblings par ++ [s.slots.size] else s.siblings par := by
  cases par with
  | none => exact hp.roots
  | some x =>
    change s'.children x = if parent = some x then s.children x ++ [s.slots.size] else s.children x
    cases hget : s.get? x with
    | some m₀ =>
      rw [children_of_get? (hp.get?_of_get? hget), children_of_get? hget]
      split <;> rfl
    | none =>
      -- a dead handle is no parent; only the slot of the new model may be filled
      have hne : parent ≠ some x := by
        intro h
        have hlive := hp.live
        rw [h] at hlive
        obtain ⟨owner, howner⟩ := hlive
        rw [hget] at howner
        cases howner
      rw [if_neg hne, children_of_get?_none hget]
      by_cases hsize : x = s.slots.size
      · subst hsize
        rw [children_of_get? hp.get?_size, hp.childless]
      · apply children_of_get?_none
        rw [hp.get?_eq, if_neg hsize, if_neg hne, hget]

theorem pathTo (hp : s.Placed parent m s') (hlive : s.IsLive par) : s'.pathTo par = s.pathTo par := by
  cases par with
  | none => rfl
  | some x =>
    obtain ⟨owner, howner⟩ := hlive
    rw [pathTo_of_get? (hp.get?_of_get? howner), pathTo_of_get? howner]
    split <;> rfl

theorem spanOf (hp : s.Placed parent m s') (hlive : s.IsLive par) : s'.spanOf par = s.spanOf par := by
  cases par with
  | none => rfl
  | some x =>
    obtain ⟨owner, howner⟩ := hlive
    rw [spanOf_of_get? (hp.get?_of_get? howner), spanOf_of_get? howner]
    split <;> rfl

theorem nextIndex (hp : s.Placed parent m s') (hlive : s.IsLive par) :
    s'.nextIndex par = if parent = par then s.nextIndex par + 1 else s.nextIndex par := by
  cases par with
  | none => exact hp.nextRoot
  | some x =>
    obtain ⟨owner, howner⟩ := hlive
    rw [nextIndex_of_get? (hp.get?_of_get? howner), nextIndex_of_get? howner]
    split <;> rfl

theorem index (hp : s.Placed parent m s') : m.index = s.nextIndex parent := Model.index_eq hp.path

theorem nextIndex_le (hp : s.Placed parent m s') (hlive : s.IsLive par) : s.nextIndex par ≤ s'.nextIndex par := by
  rw [hp.nextIndex hlive]
  split
  · next h =>
    rw [← h]
    exact UInt64.le_of_lt hp.lt_add_one
  · exact UInt64.le_refl _

theorem lookup?_uid (hp : s.Placed parent m s') : s.lookup? m.uid = none := by
  rw [hp.uid]
  exact s.nextDraw_spec.2.1

theorem uid_ne (hp : s.Placed parent m s') (hs : s.Wired) (hx : s.get? x = some m₀) :
    m.uid ≠ m₀.uid := by
  intro huid
  have hfresh := hp.lookup?_uid
  rw [huid, hs.lookup.2 ⟨m₀, hx, rfl⟩] at hfresh
  cases hfresh

theorem samePlaces (hp : s.Placed parent m s') (hlive : s.IsLive par) : s.SamePlaces s' par :=
  ⟨hp.options, hp.pathTo hlive, hp.spanOf hlive, hp.nextIndex_le hlive⟩

theorem inPlace (hp : s.Placed parent m s') (hs : s.Consistent) (hx : s'.get? x = some m') :
    s'.InPlace m' := by
  rcases hp.cases_get? hx with ⟨rfl, rfl⟩ | ⟨m₀, hget, heq⟩
  · have hplaces := hp.samePlaces hp.live
    refine ⟨?_, ?_, ?_, ?_, ?_⟩
    · rw [hp.index, hp.parent_eq, hplaces.pathTo, hp.path]
    · rw [hp.parent_eq, hp.index, firstIndex_congr hp.options]
      exact hs.firstIndex_le_nextIndex hp.live
    · rw [hp.parent_eq, hp.index, hp.nextIndex hp.live, if_pos rfl]
      exact hp.lt_add_one
    · rw [hp.options]
      exact hp.span
    · rw [hp.parent_eq, hplaces.spanOf]
      exact hp.resolved
  · exact (hs.inPlace hget).of_sameNode (sameNode heq) (hp.samePlaces (hs.isLive_parent hget))

theorem lookup_iff (hp : s.Placed parent m s') (hs : s.Wired) {uid : String} :
    s'.lookup? uid = some x ↔ ∃ m', s'.get? x = some m' ∧ m'.uid = uid := by
  rw [hp.lookup]
  constructor
  · intro hlook
    by_cases huid : m.uid = uid
    · rw [if_pos huid] at hlook
      rw [← Option.some.inj hlook]
      exact ⟨m, hp.get?_size, huid⟩
    · rw [if_neg huid] at hlook
      obtain ⟨m₀, hget, hm₀⟩ := hs.lookup.1 hlook
      exact ⟨_, hp.get?_of_get? hget, (sameNode rfl).uid.trans hm₀⟩
  · rintro ⟨m', hx, huid⟩
    rcases hp.cases_get? hx with ⟨rfl, rfl⟩ | ⟨m₀, hget, heq⟩
    · rw [if_pos huid]
    · rw [(sameNode heq).uid] at huid
      rw [if_neg fun h => hp.uid_ne hs hget (h.trans huid.symm)]
      exact hs.lookup.2 ⟨m₀, hget, huid⟩

theorem linked (hp : s.Placed parent m s') (hs : s.Wired) (hx : x ∈ s'.siblings par) :
    ∃ m', s'.get? x = some m' ∧ m'.parent = par := by
  rw [hp.siblings] at hx
  by_cases hpar : parent = par
  · rw [if_pos hpar, List.mem_append, List.mem_singleton] at hx
    rcases hx with hx | rfl
    · obtain ⟨m₀, hget, hm₀⟩ := hs.linked hx
      exact ⟨_, hp.get?_of_get? hget, (sameNode rfl).parent.trans hm₀⟩
    · exact ⟨m, hp.get?_size, hp.parent_eq.trans hpar⟩
  · rw [if_neg hpar] at hx
    obtain ⟨m₀, hget, hm₀⟩ := hs.linked hx
    exact ⟨_, hp.get?_of_get? hget, (sameNode rfl).parent.trans hm₀⟩

theorem index_mono (hp : s.Placed parent m s') (hs : s.Consistent) {y : Handle} {my : Model}
    (hx : s'.get? x = some m') (hy : s'.get? y = some my) (hpar : m'.parent = my.parent) (hlt : x < y) :
    m'.index < my.index := by
  rcases hp.cases_get? hx with ⟨rfl, rfl⟩ | ⟨m₁, hget₁, heq₁⟩
  · -- no handle lies above that of the new model
    have hle := lt_size_of_get? hy
    rw [hp.size] at hle
    exact absurd hlt (Nat.not_lt.2 (Nat.le_of_lt_succ hle))
  · have hsame₁ := sameNode heq₁
    rw [hsame₁.parent] at hpar
    rw [hsame₁.index]
    rcases hp.cases_get? hy with ⟨rfl, rfl⟩ | ⟨m₂, hget₂, heq₂⟩
    · rw [hp.parent_eq] at hpar
      rw [hp.index, ← hpar]
      exact hs.index_lt hget₁
    · have hsame₂ := sameNode heq₂
      rw [hsame₂.parent] at hpar
      rw [hsame₂.index]
      exact hs.index_mono hget₁ hget₂ hpar hlt

theorem wired (hp : s.Placed parent m s') (hs : s.Wired) : s'.Wired where
  capacity := by
    rw [hp.size]
    exact hp.slot
  drawn {x m'} hx := by
    rw [hp.ids, hp.drawn]
    rcases hp.cases_get? hx with ⟨rfl, rfl⟩ | ⟨m₀, hget, heq⟩
    · exact ⟨s.nextDraw, Nat.lt_succ_self _, hp.uid⟩
    · obtain ⟨n, hn, huid⟩ := hs.drawn hget
      exact ⟨n, Nat.lt_succ_of_lt (hn.trans_le s.nextDraw_spec.1), (sameNode heq).uid.trans huid⟩
  lookup := hp.lookup_iff hs
  listed {x m'} hx := by
    rw [hp.siblings]
    rcases hp.cases_get? hx with ⟨rfl, rfl⟩ | ⟨m₀, hget, heq⟩
    · rw [if_pos hp.parent_eq.symm]
      simp
    · rw [(sameNode heq).parent]
      have hlisted := hs.listed hget
      split
      · exact List.mem_append_left _ hlisted
      · exact hlisted
  linked := hp.linked hs
  sorted par := by
    rw [hp.siblings]
    have hsorted := hs.sorted par
    split
    · rw [List.pairwise_append]
      refine ⟨hsorted, List.pairwise_singleton .., fun a ha b hb => ?_⟩
      obtain ⟨ma, hma, -⟩ := hs.linked ha
      rw [List.mem_singleton.1 hb]
      exact lt_size_of_get? hma
    · exact hsorted
  parent_lt {x m' p} hx hpar := by
    rcases hp.cases_get? hx with ⟨rfl, rfl⟩ | ⟨m₀, hget, heq⟩
    · exact hp.live_lt (hp.parent_eq.symm.trans hpar)
    · exact hs.parent_lt hget ((sameNode heq).parent.symm.trans hpar)

theorem consistent (hp : s.Placed parent m s') (hs : s.Consistent) : s'.Consistent where
  toWired := hp.wired hs.toWired
  index_mono := hp.index_mono hs
  first_le_next {x m'} hx := by
    rw [hp.options]
    rcases hp.cases_get? hx with ⟨rfl, rfl⟩ | ⟨m₀, hget, heq⟩
    · rw [hp.nextChild]
      exact UInt64.le_refl _
    · have hfirst := hs.first_le_next hget
      have hgrow := hp.nextIndex_le (show s.IsLive (some x) from ⟨m₀, hget⟩)
      rw [nextIndex_of_get? hget, nextIndex_of_get? hx] at hgrow
      exact UInt64.le_trans hfirst hgrow
  path hx := (hp.inPlace hs hx).path
  first_le hx := (hp.inPlace hs hx).first_le
  index_lt hx := (hp.inPlace hs hx).index_lt
  span hx := (hp.inPlace hs hx).span
  resolved hx := (hp.inPlace hs hx).resolved

end

end Placed

/-- At most the contents of models have changed, or whether the store is open. -/
structure Edited (s s' : Store) : Prop where
  options : s'.options = s.options
  ids : s'.ids = s.ids
  drawn : s'.drawn = s.drawn
  size : s'.slots.size = s.slots.size
  roots : s'.roots = s.roots
  nextRoot : s'.nextRoot = s.nextRoot
  lookup : ∀ uid, s'.lookup? uid = s.lookup? uid
  get?_eq : ∀ x, Option.Rel Model.SameLinks (s.get? x) (s'.get? x)

theorem edited_close (s : Store) : s.Edited s.close where
  options := rfl
  ids := rfl
  drawn := rfl
  size := rfl
  roots := rfl
  nextRoot := rfl
  lookup _ := rfl
  get?_eq x := by
    change Option.Rel Model.SameLinks (s.get? x) (s.get? x)
    cases s.get? x with
    | none => exact Option.Rel.none
    | some m => exact Option.Rel.some (Model.SameLinks.refl m)

theorem edited_put {s : Store} {h : Handle} {m m' : Model} (hm : s.get? h = some m)
    (hlinks : m.SameLinks m') : s.Edited (s.put h m') where
  options := rfl
  ids := rfl
  drawn := rfl
  size := by simp [put]
  roots := rfl
  nextRoot := rfl
  lookup _ := rfl
  get?_eq x := by
    rw [get?_put (lt_size_of_get? hm)]
    by_cases hx : x = h
    · rw [if_pos hx, hx, hm]
      exact Option.Rel.some hlinks
    · rw [if_neg hx]
      cases s.get? x with
      | none => exact Option.Rel.none
      | some m => exact Option.Rel.some (Model.SameLinks.refl m)

namespace Edited

section
variable {s s' : Store} {x : Handle} {m m' : Model} {par : Option Handle}

theorem get?_of_get? (he : s.Edited s') (hx : s.get? x = some m) :
    ∃ m', s'.get? x = some m' ∧ m.SameLinks m' := by
  have hrel := he.get?_eq x
  rw [hx] at hrel
  cases h : s'.get? x with
  | none =>
    rw [h] at hrel
    cases hrel
  | some m' =>
    rw [h] at hrel
    cases hrel with
    | some hlinks => exact ⟨m', rfl, hlinks⟩

theorem cases_get? (he : s.Edited s') (hx : s'.get? x = some m') :
    ∃ m, s.get? x = some m ∧ m.SameLinks m' := by
  have hrel := he.get?_eq x
  rw [hx] at hrel
  cases h : s.get? x with
  | none =>
    rw [h] at hrel
    cases hrel
  | some m =>
    rw [h] at hrel
    cases hrel with
    | some hlinks => exact ⟨m, rfl, hlinks⟩

theorem get?_eq_none (he : s.Edited s') (hx : s.get? x = none) : s'.get? x = none := by
  have hrel := he.get?_eq x
  rw [hx] at hrel
  cases h : s'.get? x with
  | none => rfl
  | some m' =>
    rw [h] at hrel
    cases hrel

theorem isLive_of_isLive (he : s.Edited s') (hlive : s'.IsLive par) : s.IsLive par := by
  cases par with
  | none => trivial
  | some x =>
    obtain ⟨m', hm'⟩ := hlive
    obtain ⟨m, hm, -⟩ := he.cases_get? hm'
    exact ⟨m, hm⟩

theorem siblings (he : s.Edited s') (par : Option Handle) : s'.siblings par = s.siblings par := by
  cases par with
  | none => exact he.roots
  | some x =>
    change s'.children x = s.children x
    cases h : s.get? x with
    | none => rw [children_of_get?_none h, children_of_get?_none (he.get?_eq_none h)]
    | some m =>
      obtain ⟨m', h', hlinks⟩ := he.get?_of_get? h
      rw [children_of_get? h, children_of_get? h', hlinks.children]

theorem samePlaces (he : s.Edited s') (hlive : s.IsLive par) : s.SamePlaces s' par := by
  cases par with
  | none => exact ⟨he.options, rfl, rfl, UInt64.le_of_eq he.nextRoot.symm⟩
  | some x =>
    obtain ⟨m, h⟩ := hlive
    obtain ⟨m', h', hlinks⟩ := he.get?_of_get? h
    refine ⟨he.options, ?_, ?_, ?_⟩
    · rw [pathTo_of_get? h, pathTo_of_get? h', hlinks.path]
    · rw [spanOf_of_get? h, spanOf_of_get? h', hlinks.span]
    · rw [nextIndex_of_get? h, nextIndex_of_get? h', hlinks.nextChild]
      exact UInt64.le_refl _

theorem inPlace (he : s.Edited s') (hs : s.Consistent) (hx : s'.get? x = some m') : s'.InPlace m' := by
  obtain ⟨m, hget, hlinks⟩ := he.cases_get? hx
  exact (hs.inPlace hget).of_sameNode hlinks.toSameNode (he.samePlaces (hs.isLive_parent hget))

theorem wired (he : s.Edited s') (hs : s.Wired) : s'.Wired where
  capacity := he.size.trans_le hs.capacity
  drawn {x m'} hx := by
    obtain ⟨m, hget, hlinks⟩ := he.cases_get? hx
    rw [he.ids, he.drawn, hlinks.uid]
    exact hs.drawn hget
  lookup {uid x} := by
    rw [he.lookup, hs.lookup]
    constructor
    · rintro ⟨m, hget, huid⟩
      obtain ⟨m', hx, hlinks⟩ := he.get?_of_get? hget
      exact ⟨m', hx, hlinks.uid.trans huid⟩
    · rintro ⟨m', hx, huid⟩
      obtain ⟨m, hget, hlinks⟩ := he.cases_get? hx
      exact ⟨m, hget, hlinks.uid.symm.trans huid⟩
  listed {x m'} hx := by
    obtain ⟨m, hget, hlinks⟩ := he.cases_get? hx
    rw [hlinks.parent, he.siblings]
    exact hs.listed hget
  linked {par x} hx := by
    rw [he.siblings] at hx
    obtain ⟨m, hget, hm⟩ := hs.linked hx
    obtain ⟨m', hx', hlinks⟩ := he.get?_of_get? hget
    exact ⟨m', hx', hlinks.parent.trans hm⟩
  sorted par := by
    rw [he.siblings]
    exact hs.sorted par
  parent_lt {x m' p} hx hpar := by
    obtain ⟨m, hget, hlinks⟩ := he.cases_get? hx
    exact hs.parent_lt hget (hlinks.parent.symm.trans hpar)

theorem consistent (he : s.Edited s') (hs : s.Consistent) : s'.Consistent where
  toWired := he.wired hs.toWired
  index_mono {x₁ m₁ x₂ m₂} hx₁ hx₂ hpar hlt := by
    obtain ⟨m₁', hget₁, hlinks₁⟩ := he.cases_get? hx₁
    obtain ⟨m₂', hget₂, hlinks₂⟩ := he.cases_get? hx₂
    rw [hlinks₁.parent, hlinks₂.parent] at hpar
    rw [hlinks₁.index, hlinks₂.index]
    exact hs.index_mono hget₁ hget₂ hpar hlt
  first_le_next {x m'} hx := by
    obtain ⟨m, hget, hlinks⟩ := he.cases_get? hx
    rw [he.options, hlinks.nextChild]
    exact hs.first_le_next hget
  path hx := (he.inPlace hs hx).path
  first_le hx := (he.inPlace hs hx).first_le
  index_lt hx := (he.inPlace hs hx).index_lt
  span hx := (he.inPlace hs hx).span
  resolved hx := (he.inPlace hs hx).resolved

end

end Edited

end Store

end Grove
