import Mathlib.Tactic
import Grove.Proofs.Forest.Numbering
import Grove.Proofs.Forest.Run
/-!
# Counters of a store

A store keeps the counter of a parent in its model. Placing a model gives out the next path, and removals and edits
raise no counter, so that all counters are ahead of the paths in any run. An append that runs into an overflow
leaves a store in which a counter stands at its largest value.
-/

set_option autoImplicit false

namespace Grove

namespace Store

def Overflows (s : Store) : Update → Prop
  | .append parent draft => (s.append parent draft).1 = .error .overflow
  | .appendAll parent drafts => (s.appendAll parent drafts).1 = .error .overflow
  | _ => False

/-- The next child of a parent has a place that the digits show, but the counter cannot be raised any more. -/
structure Stuck (s : Store) (parent : Option Handle) : Prop where
  live : s.IsLive parent
  place : ∃ path : SiblingPath, path.indices = s.pathTo parent ++ [s.nextIndex parent] ∧
    path.Shown s.options.format
  full : ¬ s.HasRoom parent

def numbering (s : Store) : Numbering (Option Handle) := fun parent path i =>
  s.IsLive parent ∧ path = s.pathTo parent ∧ i = s.nextIndex parent

section
variable {s s' : Store} {h k : Handle} {m : Model} {parent : Option Handle} {given paths : List SiblingPath}
  {allowed : Option Handle → Prop} {tag : String} {id : Option String} {classes : List String} {attrs : Attr}

theorem ahead_new (options : StoreOptions) (ids : IdSource) :
    (Store.new options ids).numbering.Ahead options [] := by
  refine Numbering.ahead_start none ?_
  rintro (_ | x) path i ⟨hlive, rfl, rfl⟩
  · exact ⟨rfl, rfl, rfl⟩
  · obtain ⟨m, hm⟩ := hlive
    rw [get?_new] at hm
    cases hm

theorem Placed.isLive_cases (hp : s.Placed parent m s') {par : Option Handle} (hlive : s'.IsLive par) :
    par = some s.slots.size ∨ s.IsLive par := by
  cases par with
  | none => exact Or.inr trivial
  | some x =>
    obtain ⟨m', hm'⟩ := hlive
    rcases hp.cases_get? hm' with ⟨rfl, -⟩ | ⟨m₀, hget, -⟩
    · exact Or.inl rfl
    · exact Or.inr ⟨m₀, hget⟩

theorem Placed.gives (hp : s.Placed parent m s') :
    s.numbering.Gives s.options.firstChildIndex parent (some s.slots.size) m.path s'.numbering where
  turn := ⟨hp.live, SiblingPath.base_of_append hp.path, SiblingPath.index_of_append hp.path⟩
  room := by
    rw [SiblingPath.index_of_append hp.path]
    exact hp.room
  cases {par path i} hpar := by
    obtain ⟨hlive, rfl, rfl⟩ := hpar
    rcases hp.isLive_cases hlive with rfl | hold
    · rw [pathTo_of_get? hp.get?_size, nextIndex_of_get? hp.get?_size]
      exact Or.inr (Or.inr ⟨rfl, rfl, hp.nextChild⟩)
    · rw [hp.pathTo hold, hp.nextIndex hold, SiblingPath.base_of_append hp.path,
        SiblingPath.index_of_append hp.path]
      by_cases heq : parent = par
      · rw [if_pos heq, heq]
        exact Or.inl ⟨rfl, rfl, rfl⟩
      · rw [if_neg heq]
        exact Or.inr (Or.inl ⟨Ne.symm heq, hold, rfl, rfl⟩)

theorem Placed.shown (hp : s.Placed parent m s') : m.path.Shown s.options.format :=
  ⟨m.span, hp.span, Span.encoding_left_lt_right hp.span hp.resolved⟩

theorem Removed.numbering (hr : s.Removed h m s') {path : List UInt64} {i : UInt64}
    (hpar : s'.numbering parent path i) : s.numbering parent path i := by
  obtain ⟨hlive, rfl, rfl⟩ := hpar
  exact ⟨hr.isLive_of_isLive hlive, hr.pathTo hlive, hr.nextIndex hlive⟩

theorem Edited.numbering (he : s.Edited s') {path : List UInt64} {i : UInt64}
    (hpar : s'.numbering parent path i) : s.numbering parent path i := by
  obtain ⟨hlive, rfl, rfl⟩ := hpar
  refine ⟨he.isLive_of_isLive hlive, (he.samePlaces (he.isLive_of_isLive hlive)).pathTo, ?_⟩
  cases parent with
  | none => exact he.nextRoot
  | some x =>
    obtain ⟨m', hm'⟩ := hlive
    obtain ⟨m₀, hget, hlinks⟩ := he.cases_get? hm'
    rw [nextIndex_of_get? hm', nextIndex_of_get? hget, hlinks.nextChild]

theorem Moves.ahead (hmoves : s.Moves allowed k paths s') (ha : s.numbering.Ahead s.options given) :
    s'.options = s.options ∧ s'.numbering.Ahead s.options (given ++ paths) := by
  induction hmoves with
  | refl =>
    rw [List.append_nil]
    exact ⟨rfl, ha⟩
  | place _ _ hp ih =>
    obtain ⟨hoptions, hahead⟩ := ih
    refine ⟨hp.options.trans hoptions, ?_⟩
    have hgives := hp.gives
    have hshown := hp.shown
    rw [hoptions] at hgives hshown
    rw [← List.append_assoc]
    exact hahead.give hgives hshown
  | remove _ _ hr ih => exact ⟨hr.options.trans ih.1, ih.2.keep hr.numbering⟩

theorem after_ahead (hs : s.Wired) (ha : s.numbering.Ahead s.options given) (u : Update) :
    (s.after u).options = s.options ∧ (s.after u).numbering.Ahead s.options (given ++ s.pathsGiven u) := by
  rcases after_cases hs u with htrace | ⟨hnone, he⟩
  · exact Moves.ahead htrace ha
  · rw [hnone, List.append_nil]
    exact ⟨he.options, ha.keep he.numbering⟩

theorem Run.ahead {options : StoreOptions} {ids : IdSource} (hrun : (Store.new options ids).Run paths s) :
    s.numbering.Ahead options paths := by
  induction hrun with
  | refl => exact ahead_new options ids
  | update u hrun ih =>
    have hahead := after_ahead hrun.consistent_new.toWired (hrun.options_new ▸ ih) u
    rw [hrun.options_new] at hahead
    exact hahead.2

theorem stuck_of_appendOne (h : s.appendOne parent tag id classes attrs = .error .overflow) : s.Stuck parent := by
  rcases appendOne_cases s parent tag id classes attrs with ⟨e, -, hrefused⟩ | ⟨path, span, hopen, hplace, hspan⟩
  · rw [hrefused] at h
    cases h
  · rw [appendOne_of_placeSpan hopen hplace hspan] at h
    obtain ⟨hlive, hpath, -⟩ := nextPlace_eq_ok hplace
    obtain ⟨hspan, hresolved⟩ := placeSpan_eq_ok hspan
    split at h
    · split at h
      · cases h
      · next hroom => exact ⟨hlive, ⟨path, hpath, span, hspan, Span.encoding_left_lt_right hspan hresolved⟩, hroom⟩
    · cases h

mutual

/-- Nothing is taken back after an overflow, so the counter that overflows is still there. -/
theorem stuck_of_append {s s' : Store} {parent : Option Handle} (d : Draft)
    (happ : s.append parent d = (.error .overflow, s')) : ∃ owner, s'.Stuck owner := by
  obtain ⟨tag, id, classes, attrs, children⟩ := d
  unfold append at happ
  split at happ
  · next hone =>
    cases happ
    exact ⟨parent, stuck_of_appendOne hone⟩
  · split at happ
    · cases happ
    · next hchildren =>
      cases happ
      exact stuck_of_appendChildren children hchildren
    · split at happ
      · cases happ
      · cases happ

theorem stuck_of_appendChildren {s s' : Store} {h : Handle} (drafts : List Draft)
    (happ : s.appendChildren h drafts = (.error .overflow, s')) : ∃ owner, s'.Stuck owner := by
  cases drafts with
  | nil =>
    unfold appendChildren at happ
    cases happ
  | cons d rest =>
    unfold appendChildren at happ
    split at happ
    · exact stuck_of_appendChildren rest happ
    · next hd =>
      cases happ
      exact stuck_of_append d hd

end

theorem stuck_of_appendAll {drafts : List Draft} (happ : s.appendAll parent drafts = (.error .overflow, s')) :
    ∃ owner, s'.Stuck owner := by
  induction drafts generalizing s with
  | nil =>
    unfold appendAll at happ
    cases happ
  | cons d rest ih =>
    unfold appendAll at happ
    split at happ
    · next hd =>
      cases happ
      exact stuck_of_append d hd
    · split at happ
      · next hrest =>
        cases happ
        exact ih hrest
      · cases happ

theorem stuck_of_overflows {u : Update} (hu : s.Overflows u) : ∃ owner, (s.after u).Stuck owner := by
  cases u with
  | append parent draft => exact stuck_of_append draft (Prod.ext hu rfl)
  | appendAll parent drafts => exact stuck_of_appendAll (Prod.ext hu rfl)
  | _ => cases hu

theorem Stuck.not_roomFor {options : StoreOptions} (hstuck : s.Stuck parent) (hoptions : s.options = options)
    (ha : s.numbering.Ahead options given) : ¬ options.RoomFor given.length := by
  intro hroom
  obtain ⟨path, hpath, hshown⟩ := hstuck.place
  rw [hoptions] at hshown
  have hturn : s.numbering parent path.base path.index :=
    ⟨hstuck.live, SiblingPath.base_of_append hpath, SiblingPath.index_of_append hpath⟩
  refine hstuck.full ?_
  have hnext := ha.index_room hturn hshown hroom
  rwa [SiblingPath.index_of_append hpath] at hnext

end

end Store

end Grove
