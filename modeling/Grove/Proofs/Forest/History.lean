import Mathlib.Logic.Relation
import Mathlib.Tactic
import Grove.Proofs.Forest.Boundaries
/-!
# Places of removed models

A sibling index is handed out once, so no path comes back after its model is removed. What a removed model
is remembered by therefore never leads to another model: nothing live lies in its span.
-/

set_option autoImplicit false

namespace Grove

namespace Store

/-- The indices on the way to a path are used up, so that no model placed from now on gets the path. -/
def Spent (s : Store) (path : SiblingPath) : Prop :=
  ∀ ⦃parent i rest⦄, s.IsLive parent → path.indices = s.pathTo parent ++ i :: rest →
    i < s.nextIndex parent

/-- The model `m₀` was placed at `h₀` at some time. If it is still live, it is at its place; in any case
no other model has its place or its identifier, or gets them later. -/
structure Issued (s : Store) (h₀ : Handle) (m₀ : Model) : Prop where
  lt : h₀ < s.slots.size
  span : m₀.path.span s.options.format = .ok m₀.span
  same : ∀ {m}, s.get? h₀ = some m → m₀.SameNode m
  own : ∀ {h m}, s.get? h = some m → m.path.indices = m₀.path.indices → h = h₀
  spent : s.Spent m₀.path
  uid_own : ∀ {h m}, s.get? h = some m → m.uid = m₀.uid → h = h₀
  uid_spent : ∀ {n}, s.drawn ≤ n → s.ids.draw n ≠ m₀.uid

section
variable {s s' : Store} {h h₀ : Handle} {m m₀ : Model} {parent par : Option Handle} {k : Handle}

theorem Consistent.eq_of_isLive (hs : s.Consistent) (hpar : s.IsLive par) (hparent : s.IsLive parent)
    (heq : s.pathTo par = s.pathTo parent) : par = parent :=
  eq_of_pathTo_eq hpar hparent heq fun _ ha hb hpath => hs.eq_of_path_eq ha hb hpath

theorem Consistent.lt_nextIndex_of_path (hs : s.Consistent) (hm : s.get? h = some m)
    (hlive : s.IsLive parent) {i : UInt64} {rest : List UInt64}
    (hpath : m.path.indices = s.pathTo parent ++ i :: rest) : i < s.nextIndex parent := by
  induction h using Nat.strong_induction_on generalizing m rest with
  | _ h ih =>
    rw [hs.path hm] at hpath
    rcases List.eq_nil_or_concat' rest with rfl | ⟨front, j, rfl⟩
    · obtain ⟨hbase, hi⟩ := List.append_inj' hpath rfl
      rw [← List.head_eq_of_cons_eq hi, ← hs.eq_of_isLive (hs.isLive_parent hm) hlive hbase]
      exact hs.index_lt hm
    · rw [← List.cons_append, ← List.append_assoc] at hpath
      obtain ⟨hbase, -⟩ := List.append_inj' hpath rfl
      cases hp : m.parent with
      | none =>
        rw [hp] at hbase
        exact absurd (List.append_eq_nil_iff.1 hbase.symm).2 (List.cons_ne_nil _ _)
      | some p =>
        obtain ⟨owner, howner⟩ := hs.parent_live hm hp
        rw [hp, pathTo_of_get? howner] at hbase
        exact ih p (hs.parent_lt hm hp) howner hbase

theorem Consistent.spent (hs : s.Consistent) (hm : s.get? h = some m) : s.Spent m.path :=
  fun _ _ _ hlive hpath => hs.lt_nextIndex_of_path hm hlive hpath

theorem Spent.ne_of_placed {path : SiblingPath} (hspent : s.Spent path) (hp : s.Placed parent m s') :
    m.path.indices ≠ path.indices := by
  intro hpath
  rw [hp.path] at hpath
  exact UInt64.lt_irrefl _ (hspent hp.live hpath.symm)

theorem Placed.spent {path : SiblingPath} (hp : s.Placed parent m s') (hspent : s.Spent path) :
    s'.Spent path := by
  intro par i rest hlive hpath
  cases par with
  | none =>
    have htop : s.IsLive none := trivial
    exact UInt64.lt_of_lt_of_le (hspent htop hpath) (hp.nextIndex_le htop)
  | some x =>
    obtain ⟨m', hm'⟩ := hlive
    rcases hp.cases_get? hm' with ⟨rfl, rfl⟩ | ⟨m₁, hget, -⟩
    · -- the path would lead through the new model, whose index would be used up
      rw [pathTo_of_get? hm', hp.path, List.append_assoc] at hpath
      exact absurd (hspent hp.live hpath) (UInt64.lt_irrefl _)
    · have hold : s.IsLive (some x) := ⟨m₁, hget⟩
      rw [hp.pathTo hold] at hpath
      exact UInt64.lt_of_lt_of_le (hspent hold hpath) (hp.nextIndex_le hold)

theorem Removed.spent {path : SiblingPath} (hr : s.Removed h m s') (hspent : s.Spent path) :
    s'.Spent path := by
  intro par i rest hlive hpath
  rw [hr.nextIndex hlive]
  rw [hr.pathTo hlive] at hpath
  exact hspent (hr.isLive_of_isLive hlive) hpath

theorem Edited.spent {path : SiblingPath} (he : s.Edited s') (hspent : s.Spent path) : s'.Spent path := by
  intro par i rest hlive hpath
  have hold : s.IsLive par := he.isLive_of_isLive hlive
  have hplaces := he.samePlaces hold
  rw [hplaces.pathTo] at hpath
  exact UInt64.lt_of_lt_of_le (hspent hold hpath) hplaces.nextIndex_le

theorem Consistent.issued (hs : s.Consistent) (hids : Function.Injective s.ids.draw)
    (hm : s.get? h = some m) : s.Issued h m where
  lt := lt_size_of_get? hm
  span := hs.span hm
  same hm' := by
    rw [hm] at hm'
    cases hm'
    exact Model.SameNode.refl m
  own hm' hpath := hs.eq_of_path_eq hm' hm hpath
  spent := hs.spent hm
  uid_own hm' huid := hs.eq_of_uid_eq hm' hm huid
  uid_spent hn huid := by
    obtain ⟨k, hk, hdraw⟩ := hs.drawn hm
    have heq := hids (huid.trans hdraw)
    omega

theorem Placed.issued (hp : s.Placed parent m s') (hi : s.Issued h₀ m₀) : s'.Issued h₀ m₀ where
  lt := by rw [hp.size]; exact hi.lt.trans (Nat.lt_succ_self _)
  span := by rw [hp.options]; exact hi.span
  same hm' := by
    rcases hp.cases_get? hm' with ⟨rfl, -⟩ | ⟨m₁, hget, heq⟩
    · exact absurd hi.lt (lt_irrefl _)
    · exact (hi.same hget).trans (sameNode heq)
  own hm' hpath := by
    rcases hp.cases_get? hm' with ⟨-, rfl⟩ | ⟨m₁, hget, heq⟩
    · exact absurd hpath (hi.spent.ne_of_placed hp)
    · rw [(sameNode heq).path] at hpath
      exact hi.own hget hpath
  spent := hp.spent hi.spent
  uid_own hm' huid := by
    rcases hp.cases_get? hm' with ⟨-, rfl⟩ | ⟨m₁, hget, heq⟩
    · exact absurd (hp.uid.symm.trans huid) (hi.uid_spent s.nextDraw_spec.1)
    · exact hi.uid_own hget ((sameNode heq).uid.symm.trans huid)
  uid_spent hn := by
    rw [hp.drawn] at hn
    rw [hp.ids]
    exact hi.uid_spent (s.nextDraw_spec.1.trans (Nat.le_of_succ_le hn))

theorem Removed.issued (hr : s.Removed h m s') (hi : s.Issued h₀ m₀) : s'.Issued h₀ m₀ where
  lt := by rw [hr.size]; exact hi.lt
  span := by rw [hr.options]; exact hi.span
  same hm' := by
    obtain ⟨-, m₁, hget, heq⟩ := hr.cases_get? hm'
    exact (hi.same hget).trans (sameNode heq)
  own hm' hpath := by
    obtain ⟨-, m₁, hget, heq⟩ := hr.cases_get? hm'
    rw [(sameNode heq).path] at hpath
    exact hi.own hget hpath
  spent := hr.spent hi.spent
  uid_own hm' huid := by
    obtain ⟨-, m₁, hget, heq⟩ := hr.cases_get? hm'
    exact hi.uid_own hget ((sameNode heq).uid.symm.trans huid)
  uid_spent hn := by
    rw [hr.drawn] at hn
    rw [hr.ids]
    exact hi.uid_spent hn

theorem Steps.issued (hi : s.Issued h₀ m₀) (h : s.Steps k s') : s'.Issued h₀ m₀ := by
  induction h with
  | refl => exact hi
  | tail _ h ih =>
    cases h with
    | place hp => exact hp.issued ih
    | remove _ hr => exact hr.issued ih

/-- Every beginning of the path of a live model is the path of a model at or above it. -/
theorem Consistent.exists_of_path (hs : s.Consistent) (hm : s.get? h = some m) {q rest : List UInt64}
    (hq : q ≠ []) (hpath : m.path.indices = q ++ rest) :
    ∃ a ma, s.get? a = some ma ∧ ma.path.indices = q := by
  induction h using Nat.strong_induction_on generalizing m rest with
  | _ h ih =>
    rcases List.eq_nil_or_concat' rest with rfl | ⟨front, j, rfl⟩
    · exact ⟨h, m, hm, by rw [hpath, List.append_nil]⟩
    · rw [hs.path hm, ← List.append_assoc] at hpath
      obtain ⟨hbase, -⟩ := List.append_inj' hpath rfl
      cases hp : m.parent with
      | none =>
        rw [hp] at hbase
        exact absurd (List.append_eq_nil_iff.1 hbase.symm).1 hq
      | some p =>
        obtain ⟨owner, howner⟩ := hs.parent_live hm hp
        rw [hp, pathTo_of_get? howner] at hbase
        exact ih p (hs.parent_lt hm hp) howner hbase

theorem Consistent.live_left (hs : s.Consistent) (h : s.Above h₀ h) : ∃ m, s.get? h₀ = some m := by
  obtain ⟨c, hc, -⟩ := Relation.TransGen.head'_iff.1 h
  obtain ⟨m, hm, hp⟩ := isParent_iff.1 hc
  exact hs.parent_live hm hp

/-- The span of an issued place encloses what lies below its model, and nothing once that is removed. -/
theorem Issued.containsEncoded_iff (hi : s.Issued h₀ m₀) (hs : s.Consistent)
    (hfirst : 1 ≤ s.options.firstChildIndex) (hm : s.get? h = some m) :
    m₀.span.containsEncoded m.span = true ↔ s.Above h₀ h := by
  constructor
  · intro hcontains
    have hexact := (Span.rendered_ofIndices hi.span).contains_of_containsEncoded (hs.rendered hm) hcontains
    obtain ⟨rest, hpath, -⟩ := (Span.contains_iff_exists hi.span (hs.span hm)).1 hexact
    obtain ⟨a, ma, ha, hpatha⟩ := hs.exists_of_path hm m₀.path.nonempty hpath
    have heq := hi.own ha hpatha
    subst heq
    rw [(hi.same ha).span.symm] at hexact
    exact (hs.contains_iff_above hfirst ha hm).1 hexact
  · intro habove
    obtain ⟨m', hm'⟩ := hs.live_left habove
    have hspan := (hi.same hm').span
    rw [← hspan]
    exact hs.containsEncoded_of_above hfirst hm' hm habove

end

end Store

end Grove
