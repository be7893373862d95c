import Mathlib.Data.List.Forall2
import Mathlib.Tactic
import Grove.Proofs.Forest.Ledger
import Grove.Table.Basic
/-!
# A store and a table with the same models

The store counts sibling indices in the models and removes along links; the table counts them in a map of
its own and removes what a span encloses. A store and a table correspond when the live models are the
records, in the order in which they were made, and all counters agree. Adding one model and removing one
keep the correspondence, as long as the store has a slot for the model: the table has no such limit.
-/

set_option autoImplicit false

namespace Grove

theorem exists_mem_of_forall₂ {α β : Type} {r : α → β → Prop} {as : List α} {bs : List β} {b : β}
    (h : List.Forall₂ r as bs) (hb : b ∈ bs) : ∃ a ∈ as, r a b := by
  induction h with
  | nil => cases hb
  | @cons a b' as bs hr _ ih =>
    rcases List.mem_cons.1 hb with rfl | hb
    · exact ⟨a, List.mem_cons_self .., hr⟩
    · obtain ⟨a', ha, hr'⟩ := ih hb
      exact ⟨a', List.mem_cons_of_mem _ ha, hr'⟩

/-- A record holds what a store holds of a model; classes only once each. -/
structure Model.Recorded (m : Model) (parent : Option String) (r : Record) : Prop where
  uid : r.uid = m.uid
  parent : r.parent = parent
  tag : r.tag = m.tag
  id : r.id = m.id
  classes : m.classes = .ofList r.classes
  path : r.path = m.path
  span : r.span = m.span
  attrs : r.attrs = m.attrs

theorem Model.SameContent.recorded {m m' : Model} {parent : Option String} {r : Record}
    (h : m.SameContent m') (hr : m.Recorded parent r) : m'.Recorded parent r where
  uid := hr.uid.trans h.uid.symm
  parent := hr.parent
  tag := hr.tag.trans h.tag.symm
  id := hr.id.trans h.id.symm
  classes := h.classes.trans hr.classes
  path := hr.path.trans h.path.symm
  span := hr.span.trans h.span.symm
  attrs := hr.attrs.trans h.attrs.symm

namespace Store

section
variable {s s' : Store} {parent : Option Handle} {h x : Handle} {m m₀ : Model}

theorem Placed.live_eq (hp : s.Placed parent m s') : s'.live = s.live ++ [s.slots.size] := by
  unfold Store.live
  rw [hp.size, List.range_succ, List.filter_append, List.filter_singleton, hp.get?_size]
  dsimp only [Option.isSome_some, if_true]
  congr 1
  refine List.filter_congr fun x hx => ?_
  rw [hp.get?_eq, if_neg (List.mem_range.1 hx).ne]
  split
  · rw [Option.isSome_map]
  · rfl

theorem Removed.live_eq (hr : s.Removed h m s') :
    s'.live = s.live.filter (· ∉ h :: s.descendants h) := by
  unfold Store.live
  rw [hr.size, List.filter_filter]
  refine List.filter_congr fun x _ => ?_
  rw [hr.get?_eq]
  by_cases hgone : x ∈ h :: s.descendants h
  · simp [hgone]
  · rw [if_neg hgone]
    simp only [hgone, not_false_eq_true, decide_true, Bool.true_and]
    split
    · rw [Option.isSome_map]
    · rfl

theorem parentUid?_of_get? (hm : s.get? x = some m) :
    s.parentUid? x = m.parent.bind fun p => (s.get? p).map Model.uid := by
  unfold parentUid? parent?
  rw [hm, Option.bind_some]

theorem Placed.parentUid? (hp : s.Placed parent m s') (hs : s.Consistent) (hm : s.get? x = some m₀) :
    s'.parentUid? x = s.parentUid? x := by
  rw [parentUid?_of_get? (hp.get?_of_get? hm), parentUid?_of_get? hm, (Placed.sameNode rfl).parent]
  cases hpar : m₀.parent with
  | none => rfl
  | some p =>
    obtain ⟨owner, howner⟩ := hs.parent_live hm hpar
    rw [Option.bind_some, Option.bind_some, hp.get?_of_get? howner, howner, Option.map_some,
      Option.map_some, (Placed.sameNode rfl).uid]

theorem Removed.parentUid? (hr : s.Removed h m s') (hs : s.Consistent) (hm : s.get? x = some m₀)
    (hgone : x ∉ h :: s.descendants h) : s'.parentUid? x = s.parentUid? x := by
  rw [parentUid?_of_get? (hr.get?_of_get? hm hgone), parentUid?_of_get? hm,
    (Removed.sameNode rfl).parent]
  cases hpar : m₀.parent with
  | none => rfl
  | some p =>
    obtain ⟨owner, howner⟩ := hs.parent_live hm hpar
    rw [Option.bind_some, Option.bind_some,
      hr.get?_of_get? howner (Removed.not_gone_of_parent hs.toWired hm hpar hgone), howner,
      Option.map_some, Option.map_some, (Removed.sameNode rfl).uid]

end

def Records (s : Store) (h : Handle) (r : Record) : Prop :=
  ∃ m, s.get? h = some m ∧ m.Recorded (s.parentUid? h) r

section
variable {s s' : Store} {parent : Option Handle} {h x : Handle} {m : Model} {r : Record}

theorem Placed.records (hp : s.Placed parent m s') (hs : s.Consistent) (hr : s.Records x r) :
    s'.Records x r := by
  obtain ⟨m₀, hm₀, hrec⟩ := hr
  refine ⟨_, hp.get?_of_get? hm₀, ?_⟩
  rw [hp.parentUid? hs hm₀]
  exact (Placed.sameContent rfl).recorded hrec

theorem Removed.records (hr : s.Removed h m s') (hs : s.Consistent) (hx : s.Records x r)
    (hgone : x ∉ h :: s.descendants h) : s'.Records x r := by
  obtain ⟨m₀, hm₀, hrec⟩ := hx
  refine ⟨_, hr.get?_of_get? hm₀ hgone, ?_⟩
  rw [hr.parentUid? hs hm₀ hgone]
  exact (Removed.sameContent rfl).recorded hrec

end

end Store

namespace Table

section
variable {t : Table} {uid : String}

def counter (t : Table) : Option String → UInt64
  | none => t.nextRoot
  | some uid => t.nextIndex uid

/-- The counter of a parent, or of the top, can be raised once more. -/
def HasRoom (t : Table) (parent : Option String) : Prop := (t.counter parent).toNat + 1 < UInt64.size

instance (t : Table) (parent : Option String) : Decidable (t.HasRoom parent) :=
  inferInstanceAs (Decidable (_ < _))

def raise (t : Table) (owner : Option Owner) : Table :=
  match owner with
  | none => { t with nextRoot := t.nextRoot + 1 }
  | some o => { t with nextChild := t.nextChild.insert o.uid (t.nextIndex o.uid + 1) }

theorem advance_eq (t : Table) (owner : Option Owner) : t.advance owner =
    if t.HasRoom (owner.map Owner.uid) then .ok (t.raise owner) else .error .overflow := by
  have hnext : SiblingPath.nextIndex? (t.counter (owner.map Owner.uid)) =
      if t.HasRoom (owner.map Owner.uid) then some (t.counter (owner.map Owner.uid) + 1) else none := rfl
  unfold advance raise
  cases owner with
  | none =>
    dsimp only [Option.map_none, counter] at hnext ⊢
    by_cases hroom : t.HasRoom none
    · rw [hnext, if_pos hroom, if_pos hroom]
    · rw [hnext, if_neg hroom, if_neg hroom]
  | some o =>
    dsimp only [Option.map_some, counter] at hnext ⊢
    by_cases hroom : t.HasRoom (some o.uid)
    · rw [hnext, if_pos hroom, if_pos hroom]
    · rw [hnext, if_neg hroom, if_neg hroom]

@[simp] theorem raise_options {owner : Option Owner} : (t.raise owner).options = t.options := by
  cases owner <;> rfl

@[simp] theorem raise_ids {owner : Option Owner} : (t.raise owner).ids = t.ids := by cases owner <;> rfl

@[simp] theorem raise_records {owner : Option Owner} : (t.raise owner).records = t.records := by
  cases owner <;> rfl

@[simp] theorem raise_nextDraw {owner : Option Owner} : (t.raise owner).nextDraw = t.nextDraw := by
  cases owner <;> rfl

theorem appendOne_of_placeSpan {owner : Option Owner} {span : Span} (tag : String) (id : Option String)
    (classes : List String) (attrs : Attr) (hspan : t.placeSpan owner = .ok span) :
    t.appendOne owner tag id classes attrs = if t.HasRoom (owner.map Owner.uid) then
      .ok ((t.raise owner).insert owner (t.nextPath owner) span tag id classes attrs)
      else .error .overflow := by
  unfold appendOne
  rw [hspan, advance_eq]
  by_cases hroom : t.HasRoom (owner.map Owner.uid)
  · rw [if_pos hroom, if_pos hroom]
  · rw [if_neg hroom, if_neg hroom]

theorem nextIndex_raise (owner : Owner) : (t.raise (some owner)).nextIndex uid =
    if owner.uid = uid then t.nextIndex owner.uid + 1 else t.nextIndex uid := by
  unfold raise nextIndex
  dsimp only
  rw [Std.HashMap.getD_insert]
  by_cases huid : owner.uid = uid
  · rw [if_pos huid, if_pos (beq_iff_eq.2 huid)]
  · rw [if_neg huid, if_neg (mt beq_iff_eq.1 huid)]

theorem getD_foldl_erase (uids : List String) (counters : Std.HashMap String UInt64) (fallback : UInt64) :
    (uids.foldl (fun counters uid => counters.erase uid) counters).getD uid fallback =
      if uid ∈ uids then fallback else counters.getD uid fallback := by
  induction uids generalizing counters with
  | nil => simp
  | cons u rest ih =>
    rw [List.foldl_cons, ih, Std.HashMap.getD_erase]
    by_cases hu : u = uid
    · simp [hu]
    · simp [hu, Ne.symm hu]

theorem nextIndex_drop (picked : Record → Bool) : (t.drop picked).2.nextIndex uid =
    if uid ∈ (t.drop picked).1 then t.options.firstChildIndex else t.nextIndex uid :=
  getD_foldl_erase ..

end

end Table

/-- The live models are the records, and the counters of the roots and of all live models agree. -/
structure Corresponds (s : Store) (t : Table) : Prop where
  records : List.Forall₂ s.Records s.live t.records
  nextRoot : t.nextRoot = s.nextRoot
  nextChild : ∀ {h m}, s.get? h = some m → t.nextIndex m.uid = m.nextChild

/-- A store and a table that correspond and go on in step: they draw the same identifiers, and those that are not
in use have no counters. -/
structure Mirrors (s : Store) (t : Table) : Prop extends Corresponds s t where
  consistent : s.Consistent
  isOpen : s.isOpen = true
  first : 1 ≤ s.options.firstChildIndex
  options : t.options = s.options
  ids : t.ids = s.ids
  drawn : t.drawn = s.drawn
  unused : ∀ {uid}, s.lookup? uid = none → t.nextIndex uid = s.options.firstChildIndex

theorem mirrors_new {options : StoreOptions} (hfirst : 1 ≤ options.firstChildIndex) (ids : IdSource) :
    Mirrors (Store.new options ids) (Table.new options ids) where
  records := List.Forall₂.nil
  nextRoot := rfl
  nextChild h := by simp [Store.get?_new] at h
  consistent := Store.consistent_new options ids
  isOpen := rfl
  first := hfirst
  options := rfl
  ids := rfl
  drawn := rfl
  unused _ := Std.HashMap.getD_empty

namespace Mirrors

section
variable {s s' : Store} {t t' : Table} {h x : Handle} {m : Model} {r : Record} {uid : String}

theorem exists_handle (hm : Mirrors s t) (hr : r ∈ t.records) : ∃ x ∈ s.live, s.Records x r :=
  exists_mem_of_forall₂ hm.records hr

theorem exists_record (hm : Mirrors s t) (hx : x ∈ s.live) : ∃ r ∈ t.records, s.Records x r :=
  exists_mem_of_forall₂ hm.records.flip hx

theorem lookup_cases (hm : Mirrors s t) (uid : String) :
    (s.lookup? uid = none ∧ t.get? uid = none) ∨
      ∃ h m r, s.lookup? uid = some h ∧ s.get? h = some m ∧ m.uid = uid ∧ t.get? uid = some r ∧
        s.Records h r := by
  cases hr : t.get? uid with
  | none =>
    refine Or.inl ⟨?_, rfl⟩
    by_contra hne
    obtain ⟨h, hh⟩ := Option.ne_none_iff_exists'.1 hne
    obtain ⟨m, hget, huid⟩ := hm.consistent.lookup.1 hh
    obtain ⟨r, hmem, m', hm', hrec⟩ := hm.exists_record (Store.mem_live_iff.2 ⟨m, hget⟩)
    rw [hget] at hm'
    cases hm'
    exact List.find?_eq_none.1 hr r hmem (beq_iff_eq.2 (hrec.uid.trans huid))
  | some r =>
    obtain ⟨h, -, m, hget, hrec⟩ := hm.exists_handle (List.mem_of_find?_eq_some hr)
    have huid : m.uid = uid := by
      unfold Table.get? at hr
      have hpicked := List.find?_some hr
      exact hrec.uid.symm.trans (beq_iff_eq.1 hpicked)
    exact Or.inr ⟨h, m, r, hm.consistent.lookup.2 ⟨m, hget, huid⟩, hget, huid, rfl, m, hget, hrec⟩

theorem get?_of_get? (hm : Mirrors s t) (hh : s.get? h = some m) :
    ∃ r, t.get? m.uid = some r ∧ s.Records h r := by
  have hlook := hm.consistent.lookup.2 ⟨m, hh, rfl⟩
  rcases hm.lookup_cases m.uid with ⟨hnone, -⟩ | ⟨h', m', r, hlook', -, -, hr, hrec⟩
  · rw [hlook] at hnone
    cases hnone
  · rw [hlook] at hlook'
    cases hlook'
    exact ⟨r, hr, hrec⟩

theorem nextDraw (hm : Mirrors s t) : t.nextDraw = s.nextDraw := by
  have htaken : (fun uid => (t.get? uid).isSome) = (s.index.contains ·) := by
    funext uid
    rw [Std.HashMap.contains_eq_isSome_getElem?]
    change _ = (s.lookup? uid).isSome
    rcases hm.lookup_cases uid with ⟨hs, ht⟩ | ⟨h, m, r, hs, -, -, ht, -⟩
    · rw [hs, ht]
      rfl
    · rw [hs, ht]
      rfl
  have hcount : t.records.length = s.index.size := by
    rw [← hm.records.length_eq]
    exact hm.consistent.size_eq.symm
  unfold Table.nextDraw Store.nextDraw
  rw [htaken, hcount, hm.ids, hm.drawn]

end

end Mirrors

/-- A place below a live model and below its record, or at the top of both. -/
def Store.Owns (s : Store) : Option Handle → Option Owner → Prop :=
  Option.Rel fun p owner => ∃ m, s.get? p = some m ∧ owner.uid = m.uid ∧ owner.path = m.path

namespace Mirrors

section
variable {s s' : Store} {t t' : Table} {parent : Option Handle} {owner : Option Owner}

theorem nextPlace (hm : Mirrors s t) (how : s.Owns parent owner) :
    s.nextPlace parent = .ok (t.nextPath owner, s.spanOf parent) ∧
      t.ownerSpan owner = .ok (s.spanOf parent) := by
  cases how with
  | none =>
    refine ⟨?_, rfl⟩
    unfold Store.nextPlace Table.nextPath
    rw [hm.nextRoot]
    rfl
  | @some p o hp =>
    obtain ⟨m, hget, huid, hpath⟩ := hp
    constructor
    · unfold Store.nextPlace Table.nextPath
      dsimp only
      rw [hget, Store.spanOf_of_get? hget, huid, hm.nextChild hget, hpath]
    · unfold Table.ownerSpan
      dsimp only
      rw [hpath, hm.options, hm.consistent.span hget, Store.spanOf_of_get? hget]
      rfl

theorem placeSpan (hm : Mirrors s t) (how : s.Owns parent owner) :
    (∃ e, s.placeSpan (t.nextPath owner) (s.spanOf parent) = .error (.encode e) ∧
      t.placeSpan owner = .error e) ∨
    ∃ span, s.placeSpan (t.nextPath owner) (s.spanOf parent) = .ok span ∧
      t.placeSpan owner = .ok span := by
  unfold Store.placeSpan Table.placeSpan
  rw [hm.options, (hm.nextPlace how).2]
  cases (t.nextPath owner).span s.options.format with
  | error e => exact Or.inl ⟨e, rfl, rfl⟩
  | ok span =>
    dsimp only
    cases span.checkResolved (s.spanOf parent) ((t.nextPath owner).depth - 1) with
    | error e => exact Or.inl ⟨e, rfl, rfl⟩
    | ok _ => exact Or.inr ⟨span, rfl, rfl⟩

theorem hasRoom_iff (hm : Mirrors s t) (how : s.Owns parent owner) :
    t.HasRoom (owner.map Owner.uid) ↔ s.HasRoom parent := by
  have hcounter : t.counter (owner.map Owner.uid) = s.nextIndex parent := by
    cases how with
    | none => exact hm.nextRoot
    | some hown =>
      obtain ⟨m, howner, huid, -⟩ := hown
      rw [Store.nextIndex_of_get? howner, ← hm.nextChild howner, ← huid]
      rfl
  unfold Table.HasRoom Store.HasRoom
  rw [hcounter]

theorem nextChild_insert {m : Model} {path : SiblingPath} {span : Span} {tag : String}
    {id : Option String} {classes : List String} {attrs : Attr} (hm : Mirrors s t)
    (how : s.Owns parent owner) (hp : s.Placed parent m s') {x : Handle} {mx : Model}
    (hx : s'.get? x = some mx) :
    ((t.raise owner).insert owner path span tag id classes attrs).2.nextIndex mx.uid = mx.nextChild := by
  change (t.raise owner).nextIndex mx.uid = mx.nextChild
  rcases hp.cases_get? hx with ⟨rfl, rfl⟩ | ⟨m₀, hget, rfl⟩
  · -- the identifier is fresh, so it has no counter, and it is not that of the owner
    have hfresh := hm.unused hp.lookup?_uid
    rw [hp.nextChild]
    cases how with
    | none => exact hfresh
    | some hown =>
      obtain ⟨owner', howner, huid, -⟩ := hown
      rw [Table.nextIndex_raise, if_neg, hfresh]
      rw [huid]
      exact (hp.uid_ne hm.consistent.toWired howner).symm
  · have hold := hm.nextChild hget
    cases how with
    | none => exact hold
    | @some p o hown =>
      obtain ⟨owner', howner, huid, -⟩ := hown
      rw [Table.nextIndex_raise, huid]
      by_cases hpx : p = x
      · subst hpx
        rw [howner] at hget
        cases hget
        rw [if_pos rfl]
        exact (if_pos rfl).trans (congrArg (· + 1) hold)
      · rw [if_neg fun h => hpx (Option.some.inj h), if_neg, hold]
        exact fun h => hpx (hm.consistent.eq_of_uid_eq howner hget h)

/-- An identifier that is not in use has no counter: the one that is in use now is that of the new model. -/
theorem unused_insert {m : Model} {path : SiblingPath} {span : Span} {tag : String}
    {id : Option String} {classes : List String} {attrs : Attr} (hm : Mirrors s t)
    (how : s.Owns parent owner) (hp : s.Placed parent m s') {uid : String} (huid : s'.lookup? uid = none) :
    ((t.raise owner).insert owner path span tag id classes attrs).2.nextIndex uid =
      s.options.firstChildIndex := by
  have hold : s.lookup? uid = none := by
    rw [hp.lookup] at huid
    split at huid
    · cases huid
    · exact huid
  change (t.raise owner).nextIndex uid = _
  cases how with
  | none => exact hm.unused hold
  | some hown =>
    obtain ⟨owner', howner, howner_uid, -⟩ := hown
    rw [Table.nextIndex_raise, if_neg, hm.unused hold]
    rintro rfl
    rw [howner_uid, hm.consistent.lookup.2 ⟨owner', howner, rfl⟩] at hold
    cases hold

theorem placed {m : Model} {r : Record} {path : SiblingPath} {span : Span} {tag : String}
    {id : Option String} {classes : List String} {attrs : Attr} (hm : Mirrors s t)
    (how : s.Owns parent owner) (hp : s.Placed parent m s')
    (ht : (t.raise owner).insert owner path span tag id classes attrs = (r, t'))
    (hrec : s'.Records s.slots.size r) : Mirrors s' t' := by
  have hs := hm.consistent
  have ht' : t' = ((t.raise owner).insert owner path span tag id classes attrs).2 := by rw [ht]
  have hr : r = ((t.raise owner).insert owner path span tag id classes attrs).1 := by rw [ht]
  refine
    { records := ?_, nextRoot := ?_
      nextChild := fun hx => by rw [ht']; exact hm.nextChild_insert how hp hx
      consistent := hp.consistent hs, isOpen := hp.isOpen.trans hm.isOpen
      first := by rw [hp.options]; exact hm.first
      options := ?_, ids := ?_, drawn := ?_
      unused := fun huid => by rw [ht', hp.options]; exact hm.unused_insert how hp huid }
  · have hrecords : t'.records = t.records ++ [r] := by
      rw [ht', hr]
      cases owner <;> rfl
    rw [hp.live_eq, hrecords]
    exact List.rel_append (hm.records.imp fun _ _ h => hp.records hs h)
      (List.Forall₂.cons hrec List.Forall₂.nil)
  · rw [ht', hp.nextRoot]
    cases how with
    | none =>
      change t.nextRoot + 1 = _
      rw [hm.nextRoot]
      rfl
    | some _ => exact hm.nextRoot
  · rw [ht', hp.options, ← hm.options]
    exact Table.raise_options
  · rw [ht', hp.ids, ← hm.ids]
    exact Table.raise_ids
  · rw [ht', hp.drawn, ← hm.nextDraw]
    exact congrArg (· + 1) Table.raise_nextDraw

theorem records_insert {path : SiblingPath} {span : Span} {tag : String} {id : Option String}
    {classes : List String} {attrs : Attr} (hm : Mirrors s t) (how : s.Owns parent owner)
    (hp : s.Placed parent (s.newModel parent path span tag id classes attrs) s') :
    s'.Records s.slots.size ((t.raise owner).insert owner path span tag id classes attrs).1 := by
  refine ⟨_, hp.get?_size, ?_⟩
  have huid : (t.raise owner).ids.draw (t.raise owner).nextDraw = s.ids.draw s.nextDraw := by
    rw [Table.raise_ids, Table.raise_nextDraw, hm.ids, hm.nextDraw]
  have hparent : owner.map Owner.uid = s'.parentUid? s.slots.size := by
    rw [Store.parentUid?_of_get? hp.get?_size, hp.parent_eq]
    cases how with
    | none => rfl
    | some hown =>
      obtain ⟨m, howner, huid, -⟩ := hown
      rw [Option.bind_some, hp.get?_of_get? howner, Option.map_some, Option.map_some,
        (Store.Placed.sameNode rfl).uid, huid]
  exact
    { uid := huid, parent := hparent, tag := rfl, id := rfl, classes := rfl, path := rfl, span := rfl
      attrs := rfl }

/-- One more model in both, or one failure of both, or no slot is left for the model of the store. -/
theorem appendOne (hm : Mirrors s t) (how : s.Owns parent owner) (tag : String) (id : Option String)
    (classes : List String) (attrs : Attr) :
    (∃ e, s.appendOne parent tag id classes attrs = .error (.refused (.encode e)) ∧
      t.appendOne owner tag id classes attrs = .error (.refused (.encode e))) ∨
    (s.appendOne parent tag id classes attrs = .error .overflow ∧
      t.appendOne owner tag id classes attrs = .error .overflow) ∨
    (s.appendOne parent tag id classes attrs = .error (.refused .capacityExceeded) ∧
      s.slots.size = UInt32.size) ∨
    ∃ s' m r t', s.appendOne parent tag id classes attrs = .ok (s.slots.size, s') ∧
      t.appendOne owner tag id classes attrs = .ok (r, t') ∧ s.Placed parent m s' ∧
      s'.Records s.slots.size r ∧ Mirrors s' t' := by
  obtain ⟨hplace, -⟩ := hm.nextPlace how
  obtain ⟨hlive, hpath, -⟩ := Store.nextPlace_eq_ok hplace
  rcases hm.placeSpan how with ⟨e, hs, ht⟩ | ⟨span, hs, ht⟩
  · refine Or.inl ⟨e, ?_, ?_⟩
    · unfold Store.appendOne
      rw [hm.isOpen, hplace]
      dsimp only
      rw [hs]
      rfl
    · unfold Table.appendOne
      rw [ht]
  · obtain ⟨hspan, hresolved⟩ := Store.placeSpan_eq_ok hs
    rw [Store.appendOne_of_placeSpan hm.isOpen hplace hs, Table.appendOne_of_placeSpan tag id classes attrs ht]
    by_cases hslot : s.slots.size < UInt32.size
    · rw [if_pos hslot]
      by_cases hroom : s.HasRoom parent
      · rw [if_pos hroom, if_pos ((hm.hasRoom_iff how).2 hroom)]
        have hp := Store.placed_grow tag id classes attrs hslot hlive hroom hpath hspan hresolved
        have hrec := hm.records_insert how hp
        exact Or.inr (Or.inr (Or.inr ⟨_, _, _, _, rfl, rfl, hp, hrec, hm.placed how hp rfl hrec⟩))
      · rw [if_neg hroom, if_neg (mt (hm.hasRoom_iff how).1 hroom)]
        exact Or.inr (Or.inl ⟨rfl, rfl⟩)
    · rw [if_neg hslot]
      exact Or.inr (Or.inr (Or.inl ⟨rfl, Nat.le_antisymm hm.consistent.capacity (Nat.not_lt.1 hslot)⟩))

end

section
variable {s s' : Store} {t : Table} {h x : Handle} {m : Model} {r target : Record}

/-- The test by identifier and span picks the records of the models at and below the target. -/
theorem picked_iff (hm : Mirrors s t) (hh : s.get? h = some m) (htarget : s.Records h target)
    (hr : s.Records x r) :
    (r.uid == m.uid || target.span.contains r.span) = true ↔ x ∈ h :: s.descendants h := by
  have hs := hm.consistent
  obtain ⟨mh, hmh, hrech⟩ := htarget
  rw [hh] at hmh
  cases hmh
  obtain ⟨mx, hmx, hrecx⟩ := hr
  rw [Bool.or_eq_true, beq_iff_eq, hrecx.uid, hrecx.span, hrech.span,
    hs.contains_iff_above hm.first hh hmx, List.mem_cons, hs.mem_descendants_iff]
  refine or_congr_left ⟨hs.eq_of_uid_eq hmx hh, ?_⟩
  rintro rfl
  rw [hh] at hmx
  cases hmx
  rfl

theorem map_uid_eq {handles : List Handle} {records : List Record}
    (h : List.Forall₂ s.Records handles records) :
    records.map Record.uid = handles.filterMap fun x => (s.get? x).map Model.uid := by
  induction h with
  | nil => rfl
  | cons hr _ ih =>
    obtain ⟨m, hm, hrec⟩ := hr
    rw [List.map_cons, ih, List.filterMap_cons_some (by rw [hm]; rfl), hrec.uid]

variable {picked : Record → Bool}

theorem uid_mem_drop_iff (hm : Mirrors s t)
    (hpicked : ∀ {x r}, s.Records x r → (picked r = true ↔ x ∈ h :: s.descendants h))
    (hx : s.get? x = some m) : m.uid ∈ (t.drop picked).1 ↔ x ∈ h :: s.descendants h := by
  unfold Table.drop
  dsimp only
  rw [List.mem_map]
  constructor
  · rintro ⟨r, hr, huid⟩
    rw [List.mem_filter] at hr
    obtain ⟨y, -, hy⟩ := hm.exists_handle hr.1
    have hgone := (hpicked hy).1 hr.2
    obtain ⟨my, hmy, hrec⟩ := hy
    rwa [hm.consistent.eq_of_uid_eq hx hmy (huid.symm.trans hrec.uid)]
  · intro hgone
    obtain ⟨r, hr, hrx⟩ := hm.exists_record (Store.mem_live_iff.2 ⟨m, hx⟩)
    have hpick := (hpicked hrx).2 hgone
    obtain ⟨mx, hmx, hrec⟩ := hrx
    rw [hx] at hmx
    cases hmx
    exact ⟨r, List.mem_filter.2 ⟨hr, hpick⟩, hrec.uid⟩

theorem drop_uids_perm (hm : Mirrors s t) (hh : s.get? h = some m)
    (hpicked : ∀ {x r}, s.Records x r → (picked r = true ↔ x ∈ h :: s.descendants h)) :
    ((h :: s.descendants h).filterMap fun x => (s.get? x).map Model.uid).Perm (t.drop picked).1 := by
  have hs := hm.consistent
  have hdropped : (t.drop picked).1 =
      (s.live.filter (· ∈ h :: s.descendants h)).filterMap fun x => (s.get? x).map Model.uid := by
    refine map_uid_eq (List.rel_filter (fun x r hxr => ?_) hm.records)
    dsimp only
    rw [decide_eq_true_iff]
    exact (hpicked hxr).symm
  rw [hdropped]
  refine List.Perm.filterMap _ ?_
  rw [List.perm_ext_iff_of_nodup (hs.nodup_gone h) (s.nodup_live.filter _)]
  intro x
  rw [List.mem_filter, decide_eq_true_iff, Store.mem_live_iff]
  refine ⟨fun hx => ⟨?_, hx⟩, And.right⟩
  exact Store.live_of_reflTransGen hh ((Store.Removed.mem_gone_iff hs.toWired).1 hx)

theorem drop (hm : Mirrors s t) (hr : s.Removed h m s')
    (hpicked : ∀ {x r}, s.Records x r → (picked r = true ↔ x ∈ h :: s.descendants h)) :
    Mirrors s' (t.drop picked).2 where
  records := by
    have hs := hm.consistent
    have hkept : List.Forall₂ s.Records s'.live (t.drop picked).2.records := by
      rw [hr.live_eq]
      refine List.rel_filter (fun x r hxr => ?_) hm.records
      dsimp only
      rw [decide_eq_true_iff, Bool.not_eq_true', ← Bool.not_eq_true]
      exact not_congr (hpicked hxr).symm
    have hgone : ∀ x ∈ s'.live, x ∉ h :: s.descendants h := by
      intro x hx
      rw [hr.live_eq, List.mem_filter, decide_eq_true_iff] at hx
      exact hx.2
    exact ((List.forall₂_and_left _ _).2 ⟨hgone, hkept⟩).imp fun x r hxr => hr.records hs hxr.2 hxr.1
  nextRoot := hm.nextRoot.trans hr.nextRoot.symm
  nextChild {x m'} hx := by
    obtain ⟨hgone, m₀, hget, rfl⟩ := hr.cases_get? hx
    have hsame : (if m.parent = some x then m₀.disown h else m₀).uid = m₀.uid :=
      (Store.Removed.sameNode rfl).uid
    rw [Table.nextIndex_drop, hsame, if_neg (mt (hm.uid_mem_drop_iff hpicked hget).1 hgone),
      hm.nextChild hget]
    split <;> rfl
  consistent := hr.consistent hm.consistent
  isOpen := hr.isOpen.trans hm.isOpen
  first := by rw [hr.options]; exact hm.first
  options := hm.options.trans hr.options.symm
  ids := hm.ids.trans hr.ids.symm
  drawn := hm.drawn.trans hr.drawn.symm
  unused {uid} huid := by
    -- a counter that is forgotten with its record stands at the first index again
    rw [Table.nextIndex_drop, hr.options, hm.options]
    split
    · rfl
    · next hkept =>
      refine hm.unused (Option.eq_none_iff_forall_ne_some.2 fun x hx => ?_)
      obtain ⟨m₀, hget, rfl⟩ := hm.consistent.lookup.1 hx
      have hstays := mt (hm.uid_mem_drop_iff hpicked hget).2 hkept
      have hlook := (hr.wired hm.consistent.toWired).lookup.2
        ⟨_, hr.get?_of_get? hget hstays, (Store.Removed.sameNode rfl).uid⟩
      rw [hlook] at huid
      cases huid

theorem remove (hm : Mirrors s t) (hh : s.get? h = some m) :
    ∃ uids s' uids' t', s.remove h = (.ok uids, s') ∧ t.remove m.uid = (.ok uids', t') ∧
      uids.Perm uids' ∧ Mirrors s' t' := by
  obtain ⟨target, hget, htarget⟩ := hm.get?_of_get? hh
  obtain ⟨s', hremove, hr⟩ := Store.remove_of_live hm.consistent.toWired hm.isOpen hh
  have hpicked : ∀ {x r}, s.Records x r → ((r.uid == m.uid || target.span.contains r.span) = true ↔
      x ∈ h :: s.descendants h) := fun hxr => hm.picked_iff hh htarget hxr
  refine ⟨_, s', _, _, hremove, ?_, hm.drop_uids_perm hh hpicked, hm.drop hr hpicked⟩
  unfold Table.remove
  rw [hget]

end

end Mirrors

end Grove
