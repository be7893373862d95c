import Mathlib.Tactic
import Grove.Proofs.Forest.Counters
import Grove.Proofs.Table.Lineage
/-!
# Counters of a table

A table keeps the counters of parents beside its records, and forgets one with its parent. They stay ahead of the
paths that have been given out as the counters of a store do, so that in both the siblings come one after another.
Neither runs into an overflow where the counters have room for all models, or the digits run out first.
-/

set_option autoImplicit false

namespace Grove

namespace Table

/-- Who can get a child: the top, and every owner that the table holds. -/
def numbering (t : Table) : Numbering (Option String) := fun parent path i =>
  ∃ owner, t.Holds owner ∧ parent = owner.map Owner.uid ∧ path = basePath owner ∧ i = t.counter parent

/-- All counters are ahead, and those of identifiers that no record has have not moved. -/
structure Counted (t : Table) (given : List SiblingPath) : Prop extends t.Spanned where
  unused : ∀ uid, (∀ x ∈ t.records, x.uid ≠ uid) → t.nextIndex uid = t.options.firstChildIndex
  ahead : t.numbering.Ahead t.options given

section
variable {t t' : Table} {owner owner' : Option Owner} {r target : Record} {given : List SiblingPath}
  {added : List Record}

theorem counted_new (options : StoreOptions) (ids : IdSource) : (Table.new options ids).Counted [] where
  toSpanned := spanned_new options ids
  unused _ _ := Std.HashMap.getD_empty
  ahead := by
    refine Numbering.ahead_start none ?_
    rintro parent path i ⟨owner, howner, rfl, rfl, rfl⟩
    cases owner with
    | none => exact ⟨rfl, rfl, rfl⟩
    | some o =>
      obtain ⟨r, hr, -⟩ := howner o rfl
      cases hr

theorem Spanned.basePath_eq (hs : t.Spanned) (how : t.Holds owner) (how' : t.Holds owner')
    (huid : owner.map Owner.uid = owner'.map Owner.uid) : basePath owner = basePath owner' := by
  cases owner with
  | none =>
    cases owner' with
    | none => rfl
    | some o' => cases huid
  | some o =>
    cases owner' with
    | none => cases huid
    | some o' =>
      obtain ⟨r, hr, hruid, hrpath⟩ := how o rfl
      obtain ⟨r', hr', hruid', hrpath'⟩ := how' o' rfl
      have hsame : r = r' := hs.uid_inj hr hr' (by rw [hruid, hruid']; exact Option.some.inj huid)
      subst hsame
      exact congrArg SiblingPath.indices (hrpath.symm.trans hrpath')

theorem Holds.uid_ne (how : t.Holds owner) {uid : String} (hfree : ∀ x ∈ t.records, x.uid ≠ uid) :
    owner.map Owner.uid ≠ some uid := by
  intro huid
  obtain ⟨o, rfl, heq⟩ := Option.map_eq_some_iff.1 huid
  obtain ⟨r, hr, hruid, -⟩ := how o rfl
  exact hfree r hr (hruid.trans heq)

theorem Added.holds_cases (ha : t.Added owner r t') (how : t'.Holds owner') :
    owner' = some ⟨r.uid, r.path⟩ ∨ t.Holds owner' := by
  cases owner' with
  | none => exact Or.inr fun o ho => by cases ho
  | some o =>
    obtain ⟨x, hx, huid, hpath⟩ := how o rfl
    rcases ha.mem_iff.1 hx with hx | rfl
    · refine Or.inr ?_
      rintro o' ⟨⟩
      exact ⟨x, hx, huid, hpath⟩
    · rw [huid, hpath]
      exact Or.inl rfl

theorem Added.gives (ha : t.Added owner r t') (hc : t.Counted given) (how : t.Holds owner) :
    t.numbering.Gives t.options.firstChildIndex (owner.map Owner.uid) (some r.uid) r.path t'.numbering where
  turn := ⟨owner, how, rfl, SiblingPath.base_of_append ha.path_indices, SiblingPath.index_of_append ha.path_indices⟩
  room := by
    rw [SiblingPath.index_of_append ha.path_indices]
    exact ha.room
  cases {parent path i} hpar := by
    obtain ⟨owner', how', rfl, rfl, rfl⟩ := hpar
    rw [SiblingPath.base_of_append ha.path_indices, SiblingPath.index_of_append ha.path_indices, ha.counter]
    rcases ha.holds_cases how' with rfl | hold
    · -- the new record: the counter of its identifier has not moved
      refine Or.inr (Or.inr ⟨rfl, rfl, ?_⟩)
      rw [Option.map_some, if_neg (how.uid_ne ha.fresh)]
      exact hc.unused r.uid ha.fresh
    · -- one held before: if it has the identifier of the parent, it is the parent
      by_cases heq : owner.map Owner.uid = owner'.map Owner.uid
      · rw [if_pos heq, heq]
        exact Or.inl ⟨rfl, hc.basePath_eq hold how heq.symm, rfl⟩
      · rw [if_neg heq]
        exact Or.inr (Or.inl ⟨Ne.symm heq, owner', hold, rfl, rfl, rfl⟩)

theorem Added.shown (ha : t.Added owner r t') : r.path.Shown t.options.format := by
  obtain ⟨above, -, hresolved⟩ := ha.resolved
  exact ⟨r.span, ha.span, Span.encoding_left_lt_right ha.span hresolved⟩

theorem Added.counted (ha : t.Added owner r t') (hc : t.Counted given) (how : t.Holds owner) :
    t'.Counted (given ++ [r.path]) where
  toSpanned := ha.spanned hc.toSpanned how
  unused uid hfree := by
    have hfree' : ∀ x ∈ t.records, x.uid ≠ uid := fun x hx => hfree x (ha.subset hx)
    rw [ha.options]
    change t'.counter (some uid) = _
    rw [ha.counter, if_neg (how.uid_ne hfree')]
    exact hc.unused uid hfree'
  ahead := by
    rw [ha.options]
    exact hc.ahead.give (ha.gives hc how) ha.shown

theorem Dropped.holds (hd : t.Dropped target t') (how : t'.Holds owner) : t.Holds owner :=
  how.mono fun _ hx => (hd.mem_iff.1 hx).1

theorem Dropped.counter_eq (hd : t.Dropped target t') (hs : t.Spanned) (how : t'.Holds owner) :
    t'.counter (owner.map Owner.uid) = t.counter (owner.map Owner.uid) := by
  cases owner with
  | none => exact hd.nextRoot
  | some o =>
    obtain ⟨r, hr, hruid, -⟩ := how o rfl
    obtain ⟨hr, hstays⟩ := hd.mem_iff.1 hr
    change t'.nextIndex o.uid = t.nextIndex o.uid
    rw [hd.nextIndex, if_neg]
    intro hgone
    obtain ⟨q, hq, huid⟩ := List.mem_map.1 hgone
    rw [List.mem_filter] at hq
    rw [hs.uid_inj hq.1 hr (huid.trans hruid.symm)] at hq
    exact hstays hq.2

theorem Dropped.counted (hd : t.Dropped target t') (hc : t.Counted given) : t'.Counted given where
  toSpanned := hd.spanned hc.toSpanned
  unused uid hfree := by
    -- a counter that is forgotten with its record stands at the first index again
    rw [hd.options, hd.nextIndex]
    split
    · rfl
    · next hkept =>
      refine hc.unused uid fun x hx huid => ?_
      by_cases hgone : doomed target x = true
      · exact hkept (List.mem_map.2 ⟨x, List.mem_filter.2 ⟨hx, hgone⟩, huid⟩)
      · exact hfree x (hd.mem_iff.2 ⟨hx, hgone⟩) huid
  ahead := by
    rw [hd.options]
    refine hc.ahead.keep ?_
    rintro parent path i ⟨owner, how, rfl, rfl, rfl⟩
    exact ⟨owner, hd.holds how, rfl, rfl, hd.counter_eq hc.toSpanned how⟩

theorem Builds.counted (h : t.Builds added t') (hc : t.Counted given) :
    t'.options = t.options ∧ t'.Counted (given ++ added.map Record.path) := by
  induction h with
  | refl =>
    rw [List.map_nil, List.append_nil]
    exact ⟨rfl, hc⟩
  | add _ how ha ih =>
    refine ⟨ha.options.trans ih.1, ?_⟩
    rw [List.map_append, List.map_singleton, ← List.append_assoc]
    exact ha.counted ih.2 how
  | @remove added t' uid _ ih =>
    rcases remove_cases t' uid with heq | ⟨target, hd⟩
    · rw [heq]
      exact ih
    · exact ⟨hd.options.trans ih.1, hd.counted ih.2⟩

/-- The next record below an owner has a place that the digits show, but the counter cannot be raised any more. -/
structure Stuck (t : Table) (owner : Option Owner) : Prop where
  held : t.Holds owner
  shown : (t.nextPath owner).Shown t.options.format
  full : ¬ t.HasRoom (owner.map Owner.uid)

theorem stuck_of_appendOne {tag : String} {id : Option String} {classes : List String} {attrs : Attr}
    (how : t.Holds owner) (h : t.appendOne owner tag id classes attrs = .error .overflow) : t.Stuck owner := by
  rcases appendOne_cases t owner tag id classes attrs with ⟨e, hrefused⟩ | ⟨span, hplace⟩
  · rw [hrefused] at h
    cases h
  · rw [appendOne_of_placeSpan tag id classes attrs hplace] at h
    obtain ⟨hspan, above, -, hresolved⟩ := placeSpan_eq_ok hplace
    split at h
    · cases h
    · next hroom => exact ⟨how, ⟨span, hspan, Span.encoding_left_lt_right hspan hresolved⟩, hroom⟩

theorem append_of_full {span : Span} {d : Draft} (hplace : t.placeSpan owner = .ok span)
    (hfull : ¬ t.HasRoom (owner.map Owner.uid)) : t.append owner d = (.error .overflow, t) := by
  obtain ⟨tag, id, classes, attrs, children⟩ := d
  unfold append
  rw [appendOne_of_placeSpan _ _ _ _ hplace, if_neg hfull]

mutual

theorem stuck_of_append {t t' : Table} {owner : Option Owner} (d : Draft) (how : t.Holds owner)
    (happ : t.append owner d = (.error .overflow, t')) : ∃ o, t'.Stuck o := by
  obtain ⟨tag, id, classes, attrs, children⟩ := d
  unfold append at happ
  split at happ
  · next hone =>
    cases happ
    exact ⟨owner, stuck_of_appendOne how hone⟩
  · next hone =>
    split at happ
    · cases happ
    · next hchildren =>
      cases happ
      exact stuck_of_appendChildren children (added_of_appendOne hone).holds hchildren
    · split at happ
      · cases happ
      · cases happ

theorem stuck_of_appendChildren {t t' : Table} {owner : Owner} (drafts : List Draft) (how : t.Holds (some owner))
    (happ : t.appendChildren owner drafts = (.error .overflow, t')) : ∃ o, t'.Stuck o := by
  cases drafts with
  | nil =>
    unfold appendChildren at happ
    cases happ
  | cons d rest =>
    unfold appendChildren at happ
    split at happ
    · next hd => exact stuck_of_appendChildren rest (how.mono ((append_builds d how).2 hd)) happ
    · next hd =>
      cases happ
      exact stuck_of_append d how hd

end

theorem stuck_of_appendAll {drafts : List Draft} (how : t.Holds owner)
    (happ : t.appendAll owner drafts = (.error .overflow, t')) : ∃ o, t'.Stuck o := by
  induction drafts generalizing t with
  | nil =>
    unfold appendAll at happ
    cases happ
  | cons d rest ih =>
    unfold appendAll at happ
    split at happ
    · next hd =>
      cases happ
      exact stuck_of_append d how hd
    · next hd =>
      split at happ
      · next hrest =>
        cases happ
        exact ih (how.mono ((append_builds d how).2 hd)) hrest
      · cases happ

/-- Only an append ends in an overflow, and then it leaves the counter as it is. -/
theorem stuck_of_perform {call : Call} (h : (Backend.perform t call).1 = .error .overflow) :
    ∃ o, (Backend.perform t call).2.Stuck o := by
  cases call with
  | append target drafts =>
    change (t.appendBelow target drafts).1.map _ = _ at h
    change ∃ o, (t.appendBelow target drafts).2.Stuck o
    unfold appendBelow at h ⊢
    cases howner : t.owner? target with
    | error e =>
      rw [howner] at h
      cases h
    | ok owner =>
      rw [howner] at h
      refine stuck_of_appendAll (holds_of_owner? howner) (Prod.ext ?_ rfl)
      dsimp only at h
      generalize (t.appendAll owner drafts).1 = result at h ⊢
      cases result with
      | ok _ => cases h
      | error f =>
        cases h
        rfl
  | remove uid =>
    change ((t.remove uid).1.mapError _).map _ = _ at h
    generalize (t.remove uid).1 = result at h
    cases result <;> cases h

theorem Stuck.not_roomFor (hstuck : t.Stuck owner) (ha : t.numbering.Ahead t.options given) :
    ¬ t.options.RoomFor given.length := by
  intro hroom
  have hpath : (t.nextPath owner).indices = basePath owner ++ [t.counter (owner.map Owner.uid)] := nextPath_indices
  have hturn : t.numbering (owner.map Owner.uid) (t.nextPath owner).base (t.nextPath owner).index :=
    ⟨owner, hstuck.held, rfl, SiblingPath.base_of_append hpath, SiblingPath.index_of_append hpath⟩
  refine hstuck.full ?_
  have hnext := ha.index_room hturn hstuck.shown hroom
  rwa [SiblingPath.index_of_append hpath] at hnext

mutual

theorem length_recordsOf_le {t : Table} {owner : Option Owner} (d : Draft) :
    (t.recordsOf owner d).length ≤ d.size := by
  obtain ⟨tag, id, classes, attrs, children⟩ := d
  unfold recordsOf Draft.size
  split
  · exact Nat.zero_le _
  · next r t₁ _ =>
    have hle : (t₁.recordsOfAll (some ⟨r.uid, r.path⟩) children).length ≤ Draft.sizeAll children :=
      length_recordsOfAll_le children
    rw [List.length_cons]
    omega

theorem length_recordsOfAll_le {t : Table} {owner : Option Owner} (drafts : List Draft) :
    (t.recordsOfAll owner drafts).length ≤ Draft.sizeAll drafts := by
  cases drafts with
  | nil =>
    unfold recordsOfAll
    exact Nat.zero_le _
  | cons d rest =>
    have hle : (t.recordsOf owner d).length ≤ d.size := length_recordsOf_le d
    unfold recordsOfAll Draft.sizeAll
    rw [List.length_append]
    split
    · next t₁ _ =>
      have hrest : (t₁.recordsOfAll owner rest).length ≤ Draft.sizeAll rest := length_recordsOfAll_le rest
      omega
    · rw [List.length_nil]
      omega

end

theorem length_recordsGiven_le (call : Call) : (t.recordsGiven call).length ≤ described [call] := by
  cases call with
  | remove uid => exact Nat.le_refl 0
  | append target drafts =>
    change _ ≤ Draft.sizeAll drafts + 0
    unfold recordsGiven
    dsimp only
    split
    · exact Nat.zero_le _
    · exact length_recordsOfAll_le drafts

theorem length_recordsAfter_le (calls : List Call) : (t.recordsAfter calls).length ≤ described calls := by
  induction calls generalizing t with
  | nil => exact Nat.le_refl _
  | cons call rest ih =>
    rw [recordsAfter, List.length_append, described_cons]
    exact Nat.add_le_add (length_recordsGiven_le call) ih

end

end Table

/-- In any run of updates on a store and of calls on a table, the children of one parent, which are those whose
paths differ in the last index only, get larger and larger indices, come one after another in document order, and
leave room for one more. What is live has one of the paths given out. A counter overflows only if the models are
too many for it, counted from the first index on, and the positions have more than 36 digits after the point. -/
theorem siblings_rise (c : Config) (ids : IdSource) :
    (∀ given s, (Store.new c.storeOptions ids).Run given s →
      Rising c.format given ∧ (∀ p ∈ given, p.index.toNat + 1 < 2 ^ 64) ∧
      (∀ h m, s.get? h = some m → m.path ∈ given) ∧
      ∀ u, c.storeOptions.RoomFor (given ++ s.pathsGiven u).length → ¬ s.Overflows u) ∧
    ∀ calls,
      let t := Backend.afterCalls (Table.new c.storeOptions ids) calls
      let given := ((Table.new c.storeOptions ids).recordsAfter calls).map Record.path
      Rising c.format given ∧ (∀ p ∈ given, p.index.toNat + 1 < 2 ^ 64) ∧
      (∀ r ∈ t.records, r.path ∈ given) ∧
      ∀ call, c.storeOptions.RoomFor (given ++ (t.recordsGiven call).map Record.path).length →
        (Backend.perform t call).1 ≠ .error .overflow := by
  constructor
  · intro given s hrun
    have hahead := hrun.ahead
    refine ⟨hahead.rises, fun _ => hahead.room, fun h m hm => ?_, fun u hroom hover => ?_⟩
    · have hlive : s.IsLive (some h) := ⟨m, hm⟩
      exact hahead.mem_given m.path ⟨hlive, (Store.pathTo_of_get? hm).symm, rfl⟩
    · obtain ⟨owner, hstuck⟩ := Store.stuck_of_overflows hover
      have hafter := hrun.update u
      exact hstuck.not_roomFor hafter.options_new hafter.ahead hroom
  · intro calls t given
    have hbuilds : (Table.new c.storeOptions ids).Builds _ t := Table.afterCalls_builds calls
    obtain ⟨hoptions, hcounted⟩ := hbuilds.counted (Table.counted_new c.storeOptions ids)
    replace hoptions : t.options = c.storeOptions := hoptions
    have hahead : t.numbering.Ahead c.storeOptions given := hoptions ▸ hcounted.ahead
    refine ⟨hahead.rises, fun _ => hahead.room, fun r hr => ?_, fun call hroom hover => ?_⟩
    · refine hahead.mem_given r.path ⟨some ⟨r.uid, r.path⟩, ?_, rfl, rfl, rfl⟩
      rintro o ⟨⟩
      exact ⟨r, hr, rfl, rfl⟩
    · obtain ⟨owner, hstuck⟩ := Table.stuck_of_perform hover
      obtain ⟨hoptions', hcounted'⟩ := (Table.perform_builds call).counted hcounted
      refine hstuck.not_roomFor hcounted'.ahead ?_
      rw [hoptions', hoptions]
      exact hroom

def Draft.family : Draft := ⟨"a", none, [], .emptyMap, [.ofTag "b", .ofTag "c"]⟩

theorem siblings_rise_family :
    (∃ given s, (Store.new Config.standard.storeOptions .counting).Run given s ∧ s.live = [0, 2] ∧
      Rising Config.standard.format given ∧ ¬ s.Overflows (.append (some 0) (.ofTag "d"))) ∧
    (Backend.perform (Backend.afterCalls (Table.new Config.standard.storeOptions .counting)
      [.append none [.family], .remove (IdSource.counting.draw 1)])
      (.append (some (IdSource.counting.draw 0)) [.ofTag "d"])).1 ≠ .error .overflow := by
  constructor
  · have hrun := (Store.Run.refl (s := Store.new Config.standard.storeOptions .counting)).update
      (.append none .family) |>.update (.remove 1)
    obtain ⟨hrises, -, -, hnever⟩ := (siblings_rise .standard .counting).1 _ _ hrun
    exact ⟨_, _, hrun, by decide +kernel, hrises, hnever _ ⟨by decide +kernel, Or.inr (by decide)⟩⟩
  · refine ((siblings_rise .standard .counting).2 _).2.2.2 _ ⟨?_, Or.inr (by decide)⟩
    rw [List.length_append, List.length_map, List.length_map]
    refine Nat.lt_of_le_of_lt (Nat.succ_le_succ (Nat.add_le_add (Table.length_recordsAfter_le _)
      (Table.length_recordsGiven_le _))) ?_
    decide

/-- A valid configuration whose first child gets the largest index, with digits enough for it. -/
def Config.last : Config := ⟨1, 37, 0xffffffffffffffff, "info"⟩

/-- The first child of the first model already overflows the counter of its parent. -/
theorem not_siblings_rise : Config.last.validate = .ok () ∧
    (∃ given s, (Store.new Config.last.storeOptions .counting).Run given s ∧ given.length = 1 ∧ s.live = [0] ∧
      s.Overflows (.append (some 0) (.ofTag "b"))) ∧
    ∃ a, let t := Backend.afterCalls (Table.new Config.last.storeOptions .counting) [.append none [.ofTag "a"]]
      t.records = [a] ∧ (Backend.perform t (.append (some a.uid) [.ofTag "b"])).1 = .error .overflow := by
  refine ⟨rfl, ?_, ?_⟩
  · have hrun := (Store.Run.refl (s := Store.new Config.last.storeOptions .counting)).update
      (.append none (.ofTag "a"))
    refine ⟨_, _, hrun, by decide +kernel, by decide +kernel, ?_⟩
    change (Store.append _ _ _).1 = _
    decide +kernel
  · obtain ⟨a, t₁, happ, hrecords, -, hnext, hplace⟩ := Table.appendOne_first Config.last.storeOptions .counting
      rfl (by decide +kernel) rfl (by decide +kernel)
    have htop : (Table.new Config.last.storeOptions .counting).append none (.ofTag "a") = (.ok a.skeleton, t₁) :=
      Table.append_eq_ok happ Table.appendChildren_nil
    have hafter : Backend.afterCalls (Table.new Config.last.storeOptions .counting) [.append none [.ofTag "a"]] =
        t₁ := by
      change ((Table.new Config.last.storeOptions .counting).appendAll none [_]).2 = t₁
      unfold Table.appendAll
      rw [htop]
      rfl
    have howner : t₁.owner? (some a.uid) = .ok (some ⟨a.uid, a.path⟩) := by
      unfold Table.owner? Table.get?
      rw [hrecords]
      simp
    have hfull : ¬ t₁.HasRoom (some a.uid) := by
      change ¬ (t₁.nextIndex a.uid).toNat + 1 < UInt64.size
      rw [hnext]
      decide
    have hlast : t₁.appendBelow (some a.uid) [.ofTag "b"] = (.error .overflow, t₁) := by
      unfold Table.appendBelow
      rw [howner]
      dsimp only
      unfold Table.appendAll
      rw [Table.append_of_full hplace hfull]
    refine ⟨a, ?_⟩
    rw [hafter]
    exact ⟨hrecords, congrArg (fun r => r.1.map Reply.appended) hlast⟩

end Grove
