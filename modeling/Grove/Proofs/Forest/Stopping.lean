import Mathlib.Tactic
import Grove.Proofs.Forest.Planting
import Grove.Proofs.Position.Overflow
/-!
# Where an append stops

An append goes through its draft in order until it comes to a node that cannot be placed. Below a live model of an
open store with a slot left that can only be for lack of a span: the words are too short for its fractions, or the
digits too few to tell them apart, and the depth reported is that of the node. Only a root can need too many digits
before the point, as whatever lies below a stored model lies between its boundaries.
-/

set_option autoImplicit false

namespace Grove

/-- The node of a draft at the end of a route, which tells for each level how many children come before. -/
def Draft.node? : Draft → List ℕ → Option Draft
  | d, [] => some d
  | d, k :: route => d.children[k]?.bind (node? · route)

namespace Store

/-- In the course of an append below a parent the turn comes to the node of the draft at the end of a route. All that
comes before it has been placed, which has led to the store `t`, and its parent there is `owner`. -/
inductive ComesTo : Store → Option Handle → Draft → List ℕ → Store → Option Handle → Draft → Prop
  | here {s : Store} {parent : Option Handle} {d : Draft} : ComesTo s parent d [] s parent d
  | inside {s s₁ s₂ t : Store} {parent owner : Option Handle} {d child node : Draft} {before after : List Draft}
      {h : Handle} {route : List ℕ} (happ : s.appendOne parent d.tag d.id d.classes d.attrs = .ok (h, s₁))
      (hchildren : d.children = before ++ child :: after) (hbefore : s₁.appendChildren h before = (.ok (), s₂))
      (hchild : ComesTo s₂ (some h) child route t owner node) :
      ComesTo s parent d (before.length :: route) t owner node

/-- The store takes models below a parent, as long as they have spans and slots. -/
structure Ready (s : Store) (parent : Option Handle) : Prop where
  isOpen : s.isOpen = true
  live : s.IsLive parent
  consistent : s.Consistent

section
variable {s s' s₁ t : Store} {parent owner : Option Handle} {h k : Handle} {m : Model} {d node : Draft}
  {drafts : List Draft} {route : List ℕ} {e : StoreError} {tag : String} {id : Option String}
  {classes : List String} {attrs : Attr}

theorem exists_nextPlace (hlive : s.IsLive parent) : ∃ path, s.nextPlace parent = .ok (path, s.spanOf parent) ∧
    path.indices = s.pathTo parent ++ [s.nextIndex parent] := by
  have hplace : ∃ place, s.nextPlace parent = .ok place := by
    cases parent with
    | none => exact ⟨_, rfl⟩
    | some p =>
      obtain ⟨owner, howner⟩ := hlive
      unfold nextPlace
      dsimp only
      rw [howner]
      exact ⟨_, rfl⟩
  obtain ⟨⟨path, above⟩, hplace⟩ := hplace
  obtain ⟨-, hpath, rfl⟩ := nextPlace_eq_ok hplace
  exact ⟨path, hplace, hpath⟩

theorem placeSpan_eq_error {path : SiblingPath} {above : Option Span} (h : s.placeSpan path above = .error e) :
    (∃ cause, path.span s.options.format = .error cause ∧ e = .encode cause) ∨
      e = .encode (.precisionExhausted (path.depth - 1)) := by
  unfold placeSpan at h
  split at h
  · next cause hspan =>
    cases h
    exact Or.inl ⟨cause, hspan, rfl⟩
  · next span hspan =>
    unfold Span.checkResolved at h
    split at h
    · next cause hcheck =>
      split at hcheck
      · cases hcheck
      · cases hcheck
        cases h
        exact Or.inr rfl
    · cases h

theorem Ready.appendOne_eq_error (hs : s.Ready parent)
    (h : s.appendOne parent tag id classes attrs = .error (.refused e)) :
    e = .encode (.overflow (s.pathTo parent).length) ∨ e = .encode (.precisionExhausted (s.pathTo parent).length) ∨
      (parent = none ∧ ∃ digits width, e = .encode (.integerPartTooWide digits width)) ∨
      e = .capacityExceeded ∧ UInt32.size ≤ s.slots.size := by
  obtain ⟨path, hplace, hpath⟩ := exists_nextPlace hs.live
  cases hspan : s.placeSpan path (s.spanOf parent) with
  | ok span =>
    rw [appendOne_of_placeSpan hs.isOpen hplace hspan] at h
    split at h
    · split at h
      · cases h
      · cases h
    · next hfull =>
      cases h
      exact Or.inr (Or.inr (Or.inr ⟨rfl, Nat.not_lt.1 hfull⟩))
  | error e' =>
    unfold appendOne at h
    rw [hs.isOpen, hplace] at h
    dsimp only at h
    rw [hspan] at h
    cases h
    rcases placeSpan_eq_error hspan with ⟨cause, hcause, rfl⟩ | rfl
    · -- the path above the node has a span, or is that of a root
      have hbase : s.pathTo parent = [] ∨ ∃ span, Span.ofIndices (s.pathTo parent) s.options.format = .ok span := by
        cases parent with
        | none => exact Or.inl rfl
        | some p =>
          obtain ⟨owner, howner⟩ := hs.live
          rw [pathTo_of_get? howner]
          exact Or.inr ⟨owner.span, hs.consistent.span howner⟩
      unfold SiblingPath.span at hcause
      rw [hpath] at hcause
      rcases Span.ofIndices_concat_eq_error hbase hcause with rfl | ⟨hroot, digits, width, rfl⟩
      · exact Or.inl rfl
      · refine Or.inr (Or.inr (Or.inl ⟨?_, digits, width, rfl⟩))
        cases parent with
        | none => rfl
        | some p =>
          obtain ⟨owner, howner⟩ := hs.live
          rw [pathTo_of_get? howner] at hroot
          exact absurd hroot owner.path.nonempty
    · refine Or.inr (Or.inl ?_)
      rw [SiblingPath.depth, hpath, List.length_append, List.length_singleton, Nat.add_sub_cancel]

theorem Ready.placed (hs : s.Ready parent) (happ : s.appendOne parent tag id classes attrs = .ok (h, s₁)) :
    s₁.Ready (some h) ∧ (s₁.pathTo (some h)).length = (s.pathTo parent).length + 1 := by
  obtain ⟨m, hp, rfl, -⟩ := placed_of_appendOne happ
  refine ⟨⟨hp.isOpen.trans hs.isOpen, ⟨m, hp.get?_size⟩, hp.consistent hs.consistent⟩, ?_⟩
  rw [pathTo_of_get? hp.get?_size, hp.path, List.length_append, List.length_singleton]

theorem Ready.appendChildren (hs : s.Ready (some h)) (happ : s.appendChildren h drafts = (.ok (), s')) :
    s'.Ready (some h) ∧ s'.pathTo (some h) = s.pathTo (some h) := by
  obtain ⟨handles, hplanted⟩ := planted_appendChildren drafts hs.live happ
  have hsteps : s.Steps 0 (s.appendChildren h drafts).2 := appendChildren_steps hs.consistent (Nat.zero_le _)
  rw [happ] at hsteps
  exact ⟨⟨hplanted.isOpen.trans hs.isOpen, hplanted.isLive hs.live, hsteps.consistent hs.consistent⟩,
    hplanted.pathTo hs.live⟩

theorem ComesTo.node? (h : s.ComesTo parent d route t owner node) : d.node? route = some node := by
  induction h with
  | here => rfl
  | inside _ hchildren _ _ ih =>
    rw [Draft.node?, hchildren, List.getElem?_append_right (Nat.le_refl _), Nat.sub_self]
    exact ih

theorem ComesTo.ready (h : s.ComesTo parent d route t owner node) (hs : s.Ready parent) :
    t.Ready owner ∧ (t.pathTo owner).length = (s.pathTo parent).length + route.length ∧
      (owner = none → parent = none ∧ route = []) := by
  induction h with
  | here => exact ⟨hs, rfl, fun hnone => ⟨hnone, rfl⟩⟩
  | inside happ _ hbefore _ ih =>
    obtain ⟨hplaced, hlength⟩ := hs.placed happ
    obtain ⟨hready, hpath⟩ := hplaced.appendChildren hbefore
    obtain ⟨hnode, hdepth, howner⟩ := ih hready
    refine ⟨hnode, ?_, fun hnone => absurd (howner hnone).1 (Option.some_ne_none _)⟩
    rw [hdepth, hpath, hlength, List.length_cons]
    omega

end

mutual

/-- An append that fails has come to a node that cannot be placed. -/
theorem exists_comesTo {s : Store} {parent : Option Handle} {f : Failure StoreError} (d : Draft) (hs : s.Wired)
    (hfail : (s.append parent d).1 = .error f) : ∃ route t owner node, s.ComesTo parent d route t owner node ∧
      t.appendOne owner node.tag node.id node.classes node.attrs = .error f := by
  rcases append_eq_error hs hfail with ⟨herror, -⟩ | ⟨h, s₁, happ, hbelow⟩
  · exact ⟨[], s, parent, d, .here, herror⟩
  · obtain ⟨m, hp, -⟩ := placed_of_appendOne happ
    obtain ⟨tag, id, classes, attrs, children⟩ := d
    obtain ⟨before, child, after, s₂, route, t, owner, node, hchildren, hbefore, hchild, herror⟩ :=
      exists_comesTo_child children (hp.wired hs) hbelow
    exact ⟨before.length :: route, t, owner, node, .inside happ hchildren hbefore hchild, herror⟩

theorem exists_comesTo_child {s : Store} {h : Handle} {f : Failure StoreError} (drafts : List Draft) (hs : s.Wired)
    (hfail : (s.appendChildren h drafts).1 = .error f) :
    ∃ before child after s' route t owner node, drafts = before ++ child :: after ∧
      s.appendChildren h before = (.ok (), s') ∧ s'.ComesTo (some h) child route t owner node ∧
      t.appendOne owner node.tag node.id node.classes node.attrs = .error f := by
  cases drafts with
  | nil =>
    unfold appendChildren at hfail
    cases hfail
  | cons d rest =>
    unfold appendChildren at hfail
    cases happ : s.append (some h) d with
    | mk result s₁ =>
      rw [happ] at hfail
      cases result with
      | error f' =>
        cases hfail
        obtain ⟨route, t, owner, node, hcomes, herror⟩ := exists_comesTo d hs (congrArg Prod.fst happ)
        exact ⟨[], d, rest, s, route, t, owner, node, rfl, by unfold appendChildren; rfl, hcomes, herror⟩
      | ok c =>
        -- the first draft is placed, so what fails is one of the others
        have hs₁ := wired_append (some h) d hs
        rw [happ] at hs₁
        obtain ⟨before, child, after, s', route, t, owner, node, rfl, hbefore, hcomes, herror⟩ :=
          exists_comesTo_child rest hs₁ hfail
        refine ⟨d :: before, child, after, s', route, t, owner, node, rfl, ?_, hcomes, herror⟩
        unfold appendChildren
        rw [happ]
        exact hbefore

end

/-- An append below a live parent of an open store fails at a node for lack of words or of digits, and the depth it
reports is that of the node. Too many digits before the point stop it at a root alone, and a lack of slots only
where all of the arena has been filled. -/
theorem append_stops_for_depth {options : StoreOptions} {ids : IdSource} {s : Store} {paths : List SiblingPath}
    (hrun : (Store.new options ids).Run paths s) (hopen : s.isOpen = true) {parent : Option Handle}
    (hlive : s.IsLive parent) {d : Draft} {e : StoreError} (hfail : s.failure? (.append parent d) = some e) :
    ∃ route t owner node, s.ComesTo parent d route t owner node ∧ d.node? route = some node ∧
      t.appendOne owner node.tag node.id node.classes node.attrs = .error (.refused e) ∧
      (t.pathTo owner).length = (s.pathTo parent).length + route.length ∧
      (e = .encode (.overflow ((s.pathTo parent).length + route.length)) ∨
        e = .encode (.precisionExhausted ((s.pathTo parent).length + route.length)) ∨
        (parent = none ∧ route = [] ∧ ∃ digits width, e = .encode (.integerPartTooWide digits width)) ∨
        e = .capacityExceeded ∧ UInt32.size ≤ t.slots.size) := by
  have hready : s.Ready parent := ⟨hopen, hlive, hrun.consistent_new⟩
  obtain ⟨route, t, owner, node, hcomes, herror⟩ :=
    exists_comesTo d hrun.consistent_new.toWired (refusal_eq_some_iff.1 hfail)
  obtain ⟨hnode, hdepth, howner⟩ := hcomes.ready hready
  refine ⟨route, t, owner, node, hcomes, hcomes.node?, herror, hdepth, ?_⟩
  rw [← hdepth]
  rcases hnode.appendOne_eq_error herror with hoverflow | hexhausted | ⟨hroot, hwide⟩ | hfull
  · exact Or.inl hoverflow
  · exact Or.inr (Or.inl hexhausted)
  · exact Or.inr (Or.inr (Or.inl ⟨(howner hroot).1, (howner hroot).2, hwide⟩))
  · exact Or.inr (Or.inr (Or.inr hfull))

/-- The digits run out two levels below the node that is appended, and three below the root. -/
theorem append_stops_for_depth_leaning :
    let below : Draft := ⟨"h", none, [], .emptyMap, List.replicate 10 (.ofTag "i")⟩
    let draft : Draft := ⟨"g", none, [], .emptyMap, [.ofTag "x", below]⟩
    (∃ paths, (Store.new ⟨⟨1, 4⟩, 0⟩ .counting).Run paths leaning) ∧ leaning.isOpen = true ∧
      leaning.IsLive (some 0) ∧
      leaning.failure? (.append (some 0) draft) = some (.encode (.precisionExhausted 3)) ∧
      ∃ route t owner node, leaning.ComesTo (some 0) draft route t owner node ∧ route.length = 2 ∧
        draft.node? route = some node := by
  intro below draft
  obtain ⟨paths, hrun⟩ := run_leaning
  have hopen : leaning.isOpen = true := by decide +kernel
  have hlive : leaning.IsLive (some 0) := Option.isSome_iff_exists.1 (by decide +kernel)
  have hpath : leaning.pathTo (some 0) = [0] := by decide +kernel
  have hfails : leaning.failure? (.append (some 0) draft) = some (.encode (.precisionExhausted 3)) := by
    decide +kernel
  obtain ⟨route, t, owner, node, hcomes, hnode, -, -, hcause⟩ :=
    append_stops_for_depth hrun hopen hlive hfails
  refine ⟨⟨paths, hrun⟩, hopen, hlive, hfails, route, t, owner, node, hcomes, ?_, hnode⟩
  rw [hpath, List.length_singleton] at hcause
  rcases hcause with hoverflow | hexhausted | ⟨hroot, -⟩ | ⟨hfull, -⟩
  · cases hoverflow
  · injection hexhausted with hexhausted
    injection hexhausted with hdepth
    omega
  · cases hroot
  · cases hfull

end Store

end Grove
