import Mathlib.Tactic
import Grove.Proofs.Forest.Chains
import Grove.Proofs.Forest.Ledger
/-!
# Results across an update

Appends and removals, whether they succeed or not, leave the content, the parent and the path of every model
alone that is live before and after. The chains that end at such a model run through such models only, so a
selector without modifiers finds the same of them before and after, and in the same order.
-/

set_option autoImplicit false

namespace Grove

namespace Model

theorem SameContent.symm {m m' : Model} (h : m.SameContent m') : m'.SameContent m :=
  ⟨⟨h.uid.symm, h.parent.symm, h.path.symm, h.span.symm⟩, h.tag.symm, h.id.symm, h.classes.symm,
    h.attrs.symm⟩

theorem SameContent.satisfies {m m' : Model} (h : m.SameContent m') (phase : Phase) :
    m'.satisfies phase = m.satisfies phase := by
  unfold Model.satisfies Model.satisfiesTest Model.attr?
  rw [h.uid, h.tag, h.id, h.classes, h.attrs]

end Model

def Update.isRemoval : Update → Bool
  | .remove .. | .removeUid .. => true
  | _ => false

namespace Store

/-- Models that are live in both stores have the same content in both. -/
structure Agree (s s' : Store) : Prop where
  content : ∀ {x m m'}, s.get? x = some m → s'.get? x = some m' → m.SameContent m'

/-- Later on the models that are left have the content that they had. -/
structure Spares (s s' : Store) : Prop extends s.Persists s', s.Agree s'

section
variable {s s' s'' : Store} {h k x : Handle} {m : Model} {parent : Option Handle} {given : List SiblingPath}
variable {allowed : Option Handle → Prop}

theorem Spares.refl (s : Store) : s.Spares s where
  toPersists := Persists.refl s
  content hm hm' := by
    rw [hm] at hm'
    cases hm'
    exact Model.SameContent.refl _

theorem Spares.trans (h : s.Spares s') (h' : s'.Spares s'') : s.Spares s'' where
  toPersists := h.toPersists.trans h'.toPersists
  content hm hm'' := by
    obtain ⟨m', hm'⟩ := h.between h'.toPersists hm hm''
    exact (h.content hm hm').trans (h'.content hm' hm'')

theorem Placed.spares (hp : s.Placed parent m s') : s.Spares s' where
  toPersists := hp.persists
  content hm hm' := by
    rw [hp.get?_of_get? hm] at hm'
    exact Placed.sameContent (Option.some.inj hm').symm

theorem Removed.spares (hr : s.Removed h m s') : s.Spares s' where
  toPersists := hr.persists
  content hm hm' := by
    obtain ⟨-, m₀, hget, heq⟩ := hr.cases_get? hm'
    rw [hm] at hget
    cases hget
    exact Removed.sameContent heq

theorem Moves.spares (h : s.Moves allowed k given s') : s.Spares s' := by
  induction h with
  | refl => exact Spares.refl s
  | place _ _ hp ih => exact ih.trans hp.spares
  | remove _ _ hr ih => exact ih.trans hr.spares

theorem spares_after (hs : s.Wired) {u : Update} (hu : u.isStructural = true) : s.Spares (s.after u) :=
  Moves.spares (trace_after hs hu)

theorem Removed.mem_live_iff (hr : s.Removed h m s') (hs : s.Wired) :
    x ∈ s'.live ↔ x ∈ s.live ∧ x ≠ h ∧ ¬ s.Above h x := by
  rw [← hs.mem_descendants_iff, ← not_or, ← List.mem_cons, Store.mem_live_iff, Store.mem_live_iff]
  constructor
  · rintro ⟨m', hm'⟩
    obtain ⟨hgone, m₀, hget, -⟩ := hr.cases_get? hm'
    exact ⟨⟨m₀, hget⟩, hgone⟩
  · rintro ⟨⟨m₀, hget⟩, hgone⟩
    exact ⟨_, hr.get?_of_get? hget hgone⟩

theorem live_of_removal (hs : s.Wired) {u : Update} (hu : u.isRemoval = true) (hx : x ∈ (s.after u).live) :
    x ∈ s.live := by
  have hremove : ∀ h, x ∈ (s.remove h).2.live → x ∈ s.live := by
    intro h hx
    rcases remove_cases hs h with ⟨e, heq⟩ | ⟨uids, m, s', heq, hr⟩
    · rwa [heq] at hx
    · rw [heq] at hx
      exact ((hr.mem_live_iff hs).1 hx).1
  cases u with
  | remove h => exact hremove h hx
  | removeUid uid =>
    change x ∈ (s.removeUid uid).2.live at hx
    unfold removeUid at hx
    split at hx
    · exact hx
    · exact hremove _ hx
  | _ => cases hu

end

theorem Consistent.select_sublist {s : Store} (hs : s.Consistent) {scope : Scope} {selector : Selector} :
    (s.select scope selector).Sublist s.walk := by
  rw [select_eq_matchSteps]
  exact hs.matchSteps_sublist

theorem Consistent.live_of_mem_select {s : Store} (hs : s.Consistent) {scope : Scope} {selector : Selector}
    {x : Handle} (hx : x ∈ s.select scope selector) : x ∈ s.live :=
  mem_live_iff.2 (hs.mem_walk_iff.1 (hs.select_sublist.subset hx))

namespace Agree

section
variable {s s' : Store} {p x y : Handle} {scope : Scope} {combinator : Combinator} {phase : Phase}

theorem symm (ha : s.Agree s') : s'.Agree s := ⟨fun hm' hm => (ha.content hm hm').symm⟩

theorem parent? (ha : s.Agree s') (hx : x ∈ s.live) (hx' : x ∈ s'.live) : s'.parent? x = s.parent? x := by
  obtain ⟨m, hm⟩ := mem_live_iff.1 hx
  obtain ⟨m', hm'⟩ := mem_live_iff.1 hx'
  rw [parent?_of_get? hm, parent?_of_get? hm', (ha.content hm hm').parent]

theorem pathTo (ha : s.Agree s') (hx : x ∈ s.live) (hx' : x ∈ s'.live) :
    s'.pathTo (some x) = s.pathTo (some x) := by
  obtain ⟨m, hm⟩ := mem_live_iff.1 hx
  obtain ⟨m', hm'⟩ := mem_live_iff.1 hx'
  rw [pathTo_of_get? hm, pathTo_of_get? hm', (ha.content hm hm').path]

theorem meets (ha : s.Agree s') (hx : x ∈ s.live) (hx' : x ∈ s'.live) :
    s'.meets phase x = s.meets phase x := by
  obtain ⟨m, hm⟩ := mem_live_iff.1 hx
  obtain ⟨m', hm'⟩ := mem_live_iff.1 hx'
  unfold Store.meets
  rw [hm, hm', Option.any_some, Option.any_some, (ha.content hm hm').satisfies]

theorem isParent (ha : s.Agree s') (hx' : x ∈ s'.live) (h : s.IsParent p x) : s'.IsParent p x := by
  obtain ⟨m, hm, -⟩ := isParent_iff.1 h
  exact (ha.parent? (mem_live_iff.2 ⟨m, hm⟩) hx').trans h

theorem live_parent (hs' : s'.Wired) (h : s'.IsParent p x) : p ∈ s'.live := by
  obtain ⟨m, hm, hp⟩ := isParent_iff.1 h
  exact mem_live_iff.2 (hs'.parent_live hm hp)

theorem above (ha : s.Agree s') (hs' : s'.Wired) (hx' : x ∈ s'.live) (h : s.Above p x) : s'.Above p x := by
  induction h with
  | single h => exact Relation.TransGen.single (ha.isParent hx' h)
  | tail _ h ih =>
    have hparent := ha.isParent hx' h
    exact (ih (live_parent hs' hparent)).tail hparent

theorem leads (ha : s.Agree s') (hs' : s'.Wired) (hx : x ∈ s.live) (hx' : x ∈ s'.live)
    (h : s.Leads scope combinator x) : s'.Leads scope combinator x := by
  cases scope with
  | forest =>
    cases combinator with
    | child => exact (ha.parent? hx hx').trans h
    | descendant => trivial
  | models handles =>
    cases combinator with
    | child =>
      obtain ⟨p, hp, h⟩ := h
      exact ⟨p, hp, ha.isParent hx' h⟩
    | descendant =>
      obtain ⟨p, hp, h⟩ := h
      exact ⟨p, hp, ha.above hs' hx' h⟩

theorem live_of_leads (hs : s.Wired) (h : s.Leads (.models [x]) combinator y) : x ∈ s.live := by
  cases combinator with
  | child =>
    obtain ⟨p, hp, h⟩ := h
    rw [← List.mem_singleton.1 hp]
    exact live_parent hs h
  | descendant =>
    obtain ⟨p, hp, h⟩ := h
    rw [← List.mem_singleton.1 hp]
    obtain ⟨c, hc, -⟩ := Relation.TransGen.head'_iff.1 h
    exact live_parent hs hc

theorem chain (ha : s.Agree s') (hs' : s'.Wired) {steps : List (Combinator × Phase)}
    {handles : List Handle} (hchain : s.Chain scope steps handles) (hlast : handles.getLast? = some y)
    (hy' : y ∈ s'.live) :
    s'.Chain scope steps handles ∧ ∀ x ∈ handles.head?, x ∈ s'.live := by
  -- only the last model is known to stay, so the induction hands liveness back to the first
  induction steps generalizing scope handles with
  | nil =>
    cases handles with
    | nil => cases hlast
    | cons _ _ => exact hchain.elim
  | cons step steps ih =>
    obtain ⟨combinator, phase⟩ := step
    cases handles with
    | nil => exact hchain.elim
    | cons x rest =>
      obtain ⟨hmeets, hleads, hrest⟩ := hchain
      have hx : x ∈ s.live := mem_live_iff.2 (live_of_meets hmeets)
      have hboth : s'.Chain (.models [x]) steps rest ∧ x ∈ s'.live := by
        cases rest with
        | nil =>
          cases steps with
          | nil =>
            cases hlast
            exact ⟨trivial, hy'⟩
          | cons _ _ => exact hrest.elim
        | cons z rest =>
          rw [List.getLast?_cons_cons] at hlast
          obtain ⟨hrest', hz'⟩ := ih hrest hlast
          refine ⟨hrest', ?_⟩
          cases steps with
          | nil => exact hrest.elim
          | cons step steps => exact live_of_leads hs' hrest'.2.1
      refine ⟨⟨?_, ha.leads hs' hx hboth.2 hleads, hboth.1⟩, ?_⟩
      · rw [ha.meets hx hboth.2]
        exact hmeets
      · intro x' hx'
        cases hx'
        exact hboth.2

theorem mem_select_of_mem (ha : s.Agree s') (hs : s.Consistent) (hs' : s'.Consistent) {selector : Selector}
    (hplain : ∀ leg ∈ selector.legs, ∀ phase ∈ leg.phases, phase.modifier = none) (hx' : x ∈ s'.live)
    (hx : x ∈ s.select scope selector) : x ∈ s'.select scope selector := by
  have hsteps := Selector.modifier_steps hplain
  rw [select_eq_matchSteps] at hx ⊢
  by_cases hne : selector.steps = []
  · rw [hne] at hx
    cases hx
  · obtain ⟨chain, hchain, hlast⟩ := (hs.mem_matchSteps_iff hne hsteps).1 hx
    exact (hs'.mem_matchSteps_iff hne hsteps).2
      ⟨chain, (ha.chain hs'.toWired hchain hlast hx').1, hlast⟩

theorem select_eq (ha : s.Agree s') (hs : s.Consistent) (hs' : s'.Consistent) (scope : Scope) {selector : Selector}
    (hplain : ∀ leg ∈ selector.legs, ∀ phase ∈ leg.phases, phase.modifier = none) :
    (s.select scope selector).filter (· ∈ s'.live) = (s'.select scope selector).filter (· ∈ s.live) := by
  -- both are in the order of the paths, which are the same in both stores
  refine eq_of_pathTo_sorted (s := s) ((hs.walk_sorted.sublist hs.select_sublist).filter _) ?_ fun x => ?_
  · refine ((hs'.walk_sorted.sublist hs'.select_sublist).filter _).imp_of_mem fun {x y} hx hy hlt => ?_
    rw [List.mem_filter, decide_eq_true_iff] at hx hy
    rwa [ha.pathTo hx.2 (hs'.live_of_mem_select hx.1), ha.pathTo hy.2 (hs'.live_of_mem_select hy.1)] at hlt
  · rw [List.mem_filter, List.mem_filter, decide_eq_true_iff, decide_eq_true_iff]
    constructor
    · rintro ⟨hx, hx'⟩
      exact ⟨ha.mem_select_of_mem hs hs' hplain hx' hx, hs.live_of_mem_select hx⟩
    · rintro ⟨hx', hx⟩
      exact ⟨ha.symm.mem_select_of_mem hs' hs hplain hx hx', hs'.live_of_mem_select hx'⟩

end

end Agree

/-- An append or a removal, successful or not, leaves what a selector without modifiers finds among the models
that are live before and after; a removal takes nothing else from it than the removed models, and adds nothing. -/
theorem select_stable {options : StoreOptions} {ids : IdSource} {s : Store} {paths : List SiblingPath}
    (hrun : (Store.new options ids).Run paths s) (scope : Scope) {selector : Selector}
    (hplain : ∀ leg ∈ selector.legs, ∀ phase ∈ leg.phases, phase.modifier = none) {u : Update}
    (hu : u.isStructural = true) :
    (s.select scope selector).filter (· ∈ (s.after u).live) =
      ((s.after u).select scope selector).filter (· ∈ s.live) ∧
    (u.isRemoval = true → (s.after u).select scope selector =
      (s.select scope selector).filter (· ∈ (s.after u).live)) ∧
    ∀ h m, s.isOpen = true → s.get? h = some m →
      (u = .remove h ∨ ∃ uid, u = .removeUid uid ∧ s.lookup? uid = some h) →
      (s.after u).select scope selector =
        (s.select scope selector).filter fun x => x != h && !s.isAncestor h x := by
  have hs := hrun.consistent_new
  have hs' := (hrun.update u).consistent_new
  have hboth := (spares_after hs.toWired hu).toAgree.select_eq hs hs' scope hplain
  have hremoval : u.isRemoval = true → (s.after u).select scope selector =
      (s.select scope selector).filter (· ∈ (s.after u).live) := by
    intro hu
    rw [hboth, List.filter_eq_self.2 fun x hx => ?_]
    exact decide_eq_true (live_of_removal hs.toWired hu (hs'.live_of_mem_select hx))
  refine ⟨hboth, hremoval, fun h m hopen hm hu => ?_⟩
  obtain ⟨s', hremove, hr⟩ := remove_of_live hs.toWired hopen hm
  have hafter : u.isRemoval = true ∧ s.after u = s' := by
    rcases hu with rfl | ⟨uid, rfl, hlookup⟩
    · exact ⟨rfl, congrArg Prod.snd hremove⟩
    · refine ⟨rfl, ?_⟩
      change (s.removeUid uid).2 = s'
      unfold removeUid
      rw [hlookup]
      exact congrArg Prod.snd hremove
  rw [hremoval hafter.1, hafter.2]
  refine List.filter_congr fun x hx => ?_
  have hlive := hs.live_of_mem_select hx
  rw [Bool.eq_iff_iff, decide_eq_true_iff, hr.mem_live_iff hs.toWired, Bool.and_eq_true_iff, bne_iff_ne,
    Bool.not_eq_true', Bool.eq_false_iff, ne_eq, ne_eq, hs.isAncestor_iff]
  exact and_iff_right hlive

/-- A tree with a child is appended below the first root, or the model two levels below it is removed. -/
theorem select_stable_leaning :
    let selector : Selector := ⟨[⟨.any, []⟩, ⟨.any, []⟩]⟩
    let u : Update := .append (some 0) ⟨"g", none, [], .emptyMap, [.ofTag "h"]⟩
    (∃ paths, (Store.new ⟨⟨1, 4⟩, 0⟩ .counting).Run paths leaning) ∧
      (leaning.after u).live = [0, 1, 2, 3, 5, 6, 7] ∧
      ((leaning.after u).select .forest selector).filter (· ∈ leaning.live) = [1, 2, 3] ∧
      (leaning.after (.remove 2)).select .forest selector = [1] := by
  intro selector u
  obtain ⟨paths, hrun⟩ := run_leaning
  have hs := hrun.consistent_new
  have hlive : (leaning.after u).live = [0, 1, 2, 3, 5, 6, 7] := by decide +kernel
  have hplain : ∀ leg ∈ selector.legs, ∀ phase ∈ leg.phases, phase.modifier = none := by
    simp [selector, Leg.phases, Phase.any]
  have hfirst : leaning.matchStep .forest .descendant .any = [0, 1, 2, 3, 5] := by
    rw [hs.matchStep_eq]
    decide +kernel
  have hsecond : leaning.matchStep (.models [0, 1, 2, 3, 5]) .descendant .any = [1, 2, 3] := by
    rw [hs.matchStep_eq]
    decide +kernel
  have hselect : leaning.select .forest selector = [1, 2, 3] := by
    rw [← hsecond, ← hfirst]
    change leaning.matchLegs (leaning.matchStep .forest .descendant .any) [⟨.any, []⟩] = _
    rw [hfirst]
    rfl
  have hgrown := (select_stable hrun .forest hplain (u := u) rfl).1
  have hpruned := (select_stable hrun .forest hplain (u := .remove 2) rfl).2.2
  have hnode : ∃ m, leaning.get? 2 = some m := Option.isSome_iff_exists.1 (by decide +kernel)
  obtain ⟨m, hm⟩ := hnode
  refine ⟨⟨paths, hrun⟩, hlive, ?_, ?_⟩
  · rw [← hgrown, hselect, hlive]
    rfl
  · rw [hpruned 2 m (by decide +kernel) hm (Or.inl rfl), hselect]
    decide +kernel

end Store

end Grove
