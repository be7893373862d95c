import Mathlib.Tactic
import Grove.Proofs.Table.WriteParity
/-!
# What calls do to a table

A table goes through its calls by adding one record at a time and by removing what a span encloses, also where
it takes back an append that fails. Each of the two is described once, and the calls are made of them. A record
is only ever added at the top or below one that is in the table.
-/

set_option autoImplicit false

namespace Grove

def Record.index (r : Record) : UInt64 := r.path.indices.getLast r.path.nonempty

theorem Record.index_eq {r : Record} {base : List UInt64} {i : UInt64} (h : r.path.indices = base ++ [i]) :
    r.index = i :=
  SiblingPath.getLast_of_append h

namespace Table

mutual

/-- The records that an append adds, also those that it takes back. -/
def recordsOf (t : Table) (owner : Option Owner) : Draft → List Record
  | ⟨tag, id, classes, attrs, children⟩ =>
    match t.appendOne owner tag id classes attrs with
    | .error _ => []
    | .ok (record, t') => record :: recordsOfAll t' (some ⟨record.uid, record.path⟩) children

def recordsOfAll (t : Table) (owner : Option Owner) : List Draft → List Record
  | [] => []
  | d :: rest =>
    recordsOf t owner d ++
      match t.append owner d with
      | (.ok _, t') => recordsOfAll t' owner rest
      | (.error _, _) => []

end

def recordsGiven (t : Table) : Call → List Record
  | .append target drafts =>
    match t.owner? target with
    | .error _ => []
    | .ok owner => t.recordsOfAll owner drafts
  | .remove _ => []

def recordsAfter (t : Table) : List Call → List Record
  | [] => []
  | call :: rest => t.recordsGiven call ++ recordsAfter (Backend.perform t call).2 rest

def basePath (owner : Option Owner) : List UInt64 := (owner.map fun o => o.path.indices).getD []

/-- The record `r` has been added below an owner, or at the top. -/
structure Added (t : Table) (owner : Option Owner) (r : Record) (t' : Table) : Prop where
  options : t'.options = t.options
  records : t'.records = t.records ++ [r]
  room : t.HasRoom (owner.map Owner.uid)
  counter : ∀ parent, t'.counter parent =
    if owner.map Owner.uid = parent then t.counter parent + 1 else t.counter parent
  fresh : ∀ x ∈ t.records, x.uid ≠ r.uid
  parent : r.parent = owner.map Owner.uid
  path : r.path = t.nextPath owner
  span : r.path.span t.options.format = .ok r.span
  resolved : ∃ above, t.ownerSpan owner = .ok above ∧ r.span.isResolved above = true

section
variable {t t' t'' : Table} {owner : Option Owner} {r target : Record} {uid : String} {d : Draft}
  {drafts rest : List Draft} {added added' : List Record}

theorem counter_raise (parent : Option String) : (t.raise owner).counter parent =
    if owner.map Owner.uid = parent then t.counter parent + 1 else t.counter parent := by
  cases owner with
  | none => cases parent <;> rfl
  | some o =>
    cases parent with
    | none => rfl
    | some uid =>
      change (t.raise (some o)).nextIndex uid = _
      rw [nextIndex_raise]
      by_cases huid : o.uid = uid
      · subst huid
        rw [if_pos rfl]
        exact (if_pos rfl).symm
      · rw [if_neg huid]
        exact (if_neg (mt Option.some.inj huid)).symm

theorem nextPath_indices :
    (t.nextPath owner).indices = basePath owner ++ [t.counter (owner.map Owner.uid)] := by
  cases owner <;> rfl

theorem Added.path_indices (ha : t.Added owner r t') :
    r.path.indices = basePath owner ++ [t.counter (owner.map Owner.uid)] := by
  rw [ha.path, nextPath_indices]

theorem placeSpan_eq_ok {span : Span} (h : t.placeSpan owner = .ok span) :
    (t.nextPath owner).span t.options.format = .ok span ∧
      ∃ above, t.ownerSpan owner = .ok above ∧ span.isResolved above = true := by
  unfold placeSpan at h
  split at h
  · cases h
  · next span' hspan =>
    split at h
    · cases h
    · next above habove =>
      unfold Span.checkResolved at h
      by_cases hres : span'.isResolved above = true
      · rw [if_pos hres] at h
        cases h
        exact ⟨hspan, above, habove, hres⟩
      · rw [if_neg hres] at h
        cases h

theorem eq_of_get? (h : t.get? uid = some target) : target ∈ t.records ∧ target.uid = uid := by
  have hpicked := List.find?_some h
  exact ⟨List.mem_of_find?_eq_some h, beq_iff_eq.1 hpicked⟩

theorem nextDraw_fresh (t : Table) : ∀ x ∈ t.records, x.uid ≠ t.ids.draw t.nextDraw := by
  have hused : ∀ uid, (t.get? uid).isSome = true → uid ∈ t.records.map Record.uid := by
    intro uid huid
    obtain ⟨r, hr⟩ := Option.isSome_iff_exists.1 huid
    obtain ⟨hmem, rfl⟩ := eq_of_get? hr
    exact List.mem_map_of_mem hmem
  have hcount : (t.records.map Record.uid).length = t.records.length := List.length_map ..
  obtain ⟨-, hfree, -⟩ := t.ids.next_spec t.drawn hused hcount
  intro x hx huid
  exact List.find?_eq_none.1 (Option.isNone_iff_eq_none.1 (Option.isSome_eq_false_iff.1 hfree)) x hx
    (beq_iff_eq.2 huid)

/-- Adding a record is refused, or the record has a place and a span. -/
theorem appendOne_cases (t : Table) (owner : Option Owner) (tag : String) (id : Option String)
    (classes : List String) (attrs : Attr) :
    (∃ e, t.appendOne owner tag id classes attrs = .error (.refused e)) ∨
      ∃ span, t.placeSpan owner = .ok span := by
  cases hspan : t.placeSpan owner with
  | error e =>
    refine Or.inl ⟨.encode e, ?_⟩
    unfold appendOne
    rw [hspan]
  | ok span => exact Or.inr ⟨span, rfl⟩

theorem added_of_appendOne {tag : String} {id : Option String} {classes : List String} {attrs : Attr}
    (h : t.appendOne owner tag id classes attrs = .ok (r, t')) : t.Added owner r t' := by
  rcases appendOne_cases t owner tag id classes attrs with ⟨e, hrefused⟩ | ⟨span, hspan⟩
  · rw [hrefused] at h
    cases h
  · rw [appendOne_of_placeSpan tag id classes attrs hspan] at h
    split at h
    · next hroom =>
      cases h
      exact
        { options := raise_options
          records := congrArg (· ++ [_]) raise_records
          room := hroom
          counter := counter_raise
          fresh := by
            change ∀ x ∈ t.records, x.uid ≠ (t.raise owner).ids.draw (t.raise owner).nextDraw
            rw [raise_ids, raise_nextDraw]
            exact t.nextDraw_fresh
          parent := rfl, path := rfl
          span := (placeSpan_eq_ok hspan).1, resolved := (placeSpan_eq_ok hspan).2 }
    · cases h

theorem placeSpan_of_resolved {span : Span} {above : Option Span}
    (hspan : (t.nextPath owner).span t.options.format = .ok span)
    (habove : t.ownerSpan owner = .ok above) (hresolved : span.isResolved above = true) :
    t.placeSpan owner = .ok span := by
  unfold placeSpan Span.checkResolved
  rw [hspan, habove]
  dsimp only
  rw [if_pos hresolved]

theorem appendOne_eq_ok {span : Span} {above : Option Span} (tag : String) (id : Option String)
    (classes : List String) (attrs : Attr) (hspan : (t.nextPath owner).span t.options.format = .ok span)
    (habove : t.ownerSpan owner = .ok above) (hresolved : span.isResolved above = true)
    (hroom : t.HasRoom (owner.map Owner.uid)) :
    ∃ r t', t.appendOne owner tag id classes attrs = .ok (r, t') := by
  rw [appendOne_of_placeSpan tag id classes attrs (placeSpan_of_resolved hspan habove hresolved), if_pos hroom]
  exact ⟨_, _, rfl⟩

theorem append_eq_ok {tag : String} {id : Option String} {classes : List String} {attrs : Attr}
    {children : List Draft} (h : t.appendOne owner tag id classes attrs = .ok (r, t'))
    (hchildren : t'.appendChildren ⟨r.uid, r.path⟩ children = (.ok (), t'')) :
    t.append owner ⟨tag, id, classes, attrs, children⟩ = (.ok r.skeleton, t'') := by
  unfold append
  rw [h]
  dsimp only
  rw [hchildren]

theorem appendChildren_nil {owner : Owner} : t.appendChildren owner [] = (.ok (), t) := by
  unfold appendChildren
  rfl

theorem appendChildren_single {owner : Owner} {skeleton : Skeleton}
    (h : t.append (some owner) d = (.ok skeleton, t')) : t.appendChildren owner [d] = (.ok (), t') := by
  unfold appendChildren
  rw [h]
  exact appendChildren_nil

/-- The record with an identifier, or one that its span encloses. -/
def doomed (target r : Record) : Bool := r.uid == target.uid || target.span.contains r.span

/-- The record `target` has been removed with all that its span encloses. -/
structure Dropped (t : Table) (target : Record) (t' : Table) : Prop where
  live : target ∈ t.records
  options : t'.options = t.options
  records : t'.records = t.records.filter (!doomed target ·)
  nextRoot : t'.nextRoot = t.nextRoot
  nextIndex : ∀ uid, t'.nextIndex uid = if uid ∈ (t.records.filter (doomed target)).map Record.uid
    then t.options.firstChildIndex else t.nextIndex uid

theorem remove_of_get? (h : t.get? uid = some target) : ∃ t',
    t.remove uid = (.ok ((t.records.filter (doomed target)).map Record.uid), t') ∧ t.Dropped target t' := by
  obtain ⟨hmem, rfl⟩ := eq_of_get? h
  refine ⟨(t.drop (doomed target)).2, ?_, ⟨hmem, rfl, rfl, rfl, fun uid => nextIndex_drop _⟩⟩
  unfold remove
  rw [h]
  rfl

theorem remove_cases (t : Table) (uid : String) :
    (t.remove uid).2 = t ∨ ∃ target, t.Dropped target (t.remove uid).2 := by
  cases h : t.get? uid with
  | none =>
    unfold remove
    rw [h]
    exact Or.inl rfl
  | some target =>
    obtain ⟨t', hremove, hdropped⟩ := remove_of_get? h
    rw [hremove]
    exact Or.inr ⟨target, hdropped⟩

def Holds (t : Table) (owner : Option Owner) : Prop :=
  ∀ o ∈ owner, ∃ r ∈ t.records, r.uid = o.uid ∧ r.path = o.path

theorem Holds.mono (how : t.Holds owner) (h : t.records ⊆ t'.records) : t'.Holds owner := by
  intro o ho
  obtain ⟨r, hr, heq⟩ := how o ho
  exact ⟨r, h hr, heq⟩

theorem Added.subset (ha : t.Added owner r t') : t.records ⊆ t'.records := by
  rw [ha.records]
  exact List.subset_append_left ..

theorem Added.holds (ha : t.Added owner r t') : t'.Holds (some ⟨r.uid, r.path⟩) := by
  rintro o ⟨⟩
  exact ⟨r, by rw [ha.records]; exact List.mem_append_right _ (List.mem_singleton_self r), rfl, rfl⟩

/-- Records added below those that are there, and removals, with the records added in order. -/
inductive Builds (t : Table) : List Record → Table → Prop
  | refl : Builds t [] t
  | add {added : List Record} {owner : Option Owner} {r : Record} {t' t'' : Table} : Builds t added t' →
      t'.Holds owner → t'.Added owner r t'' → Builds t (added ++ [r]) t''
  | remove {added : List Record} {t' : Table} (uid : String) : Builds t added t' → Builds t added (t'.remove uid).2

theorem Builds.trans (h : t.Builds added t') (h' : t'.Builds added' t'') : t.Builds (added ++ added') t'' := by
  induction h' with
  | refl => rwa [List.append_nil]
  | add _ how ha ih =>
    rw [← List.append_assoc]
    exact ih.add how ha
  | remove uid _ ih => exact ih.remove uid

mutual

theorem append_builds {t : Table} {owner : Option Owner} (d : Draft) (how : t.Holds owner) :
    t.Builds (t.recordsOf owner d) (t.append owner d).2 ∧
      ∀ {skeleton t'}, t.append owner d = (.ok skeleton, t') → t.records ⊆ t'.records := by
  obtain ⟨tag, id, classes, attrs, children⟩ := d
  unfold append recordsOf
  cases happ : t.appendOne owner tag id classes attrs with
  | error f => exact ⟨Builds.refl, fun h => by cases h⟩
  | ok added =>
    obtain ⟨r, t₁⟩ := added
    have ha := added_of_appendOne happ
    have hfirst : t.Builds [r] t₁ := Builds.refl.add how ha
    obtain ⟨hbuilds, hsub⟩ := appendChildren_builds children ha.holds
    have hboth := hfirst.trans hbuilds
    dsimp only
    split
    · next heq =>
      rw [heq] at hboth
      refine ⟨hboth, fun h => ?_⟩
      cases h
      exact List.Subset.trans ha.subset (hsub heq)
    · next heq =>
      rw [heq] at hboth
      exact ⟨hboth, fun h => by cases h⟩
    · next e t₂ heq =>
      rw [heq] at hboth
      have hremove := hboth.remove r.uid
      split
      · next heq' =>
        rw [heq'] at hremove
        exact ⟨hremove, fun h => by cases h⟩
      · next heq' =>
        rw [heq'] at hremove
        exact ⟨hremove, fun h => by cases h⟩

theorem appendChildren_builds {t : Table} {owner : Owner} (drafts : List Draft) (how : t.Holds (some owner)) :
    t.Builds (t.recordsOfAll (some owner) drafts) (t.appendChildren owner drafts).2 ∧
      ∀ {t'}, t.appendChildren owner drafts = (.ok (), t') → t.records ⊆ t'.records := by
  cases drafts with
  | nil =>
    unfold appendChildren recordsOfAll
    refine ⟨Builds.refl, fun h => ?_⟩
    cases h
    exact List.Subset.refl _
  | cons d rest =>
    obtain ⟨hbuilds, hsub⟩ := append_builds d how
    unfold appendChildren recordsOfAll
    cases happ : t.append (some owner) d with
    | mk result t₁ =>
      rw [happ] at hbuilds
      cases result with
      | error f =>
        dsimp only
        rw [List.append_nil]
        exact ⟨hbuilds, fun h => by cases h⟩
      | ok skeleton =>
        obtain ⟨hbuilds', hsub'⟩ := appendChildren_builds rest (how.mono (hsub happ))
        exact ⟨hbuilds.trans hbuilds', fun h => List.Subset.trans (hsub happ) (hsub' h)⟩

end

theorem appendAll_builds (how : t.Holds owner) :
    t.Builds (t.recordsOfAll owner drafts) (t.appendAll owner drafts).2 := by
  induction drafts generalizing t with
  | nil =>
    unfold appendAll recordsOfAll
    exact Builds.refl
  | cons d rest ih =>
    obtain ⟨hbuilds, hsub⟩ := append_builds d how
    unfold appendAll recordsOfAll
    cases happ : t.append owner d with
    | mk result t₁ =>
      rw [happ] at hbuilds
      cases result with
      | error f =>
        dsimp only
        rwa [List.append_nil]
      | ok skeleton =>
        have hboth := hbuilds.trans (ih (how.mono (hsub happ)))
        dsimp only
        split
        · next heq' =>
          rw [heq'] at hboth
          exact hboth
        · next heq' =>
          rw [heq'] at hboth
          exact hboth

theorem holds_of_owner? {target : Option String} (h : t.owner? target = .ok owner) : t.Holds owner := by
  unfold owner? at h
  split at h
  · cases h
    exact fun o ho => by cases ho
  · split at h
    · next r hr =>
      cases h
      rintro o ⟨⟩
      exact ⟨r, (eq_of_get? hr).1, rfl, rfl⟩
    · cases h

theorem perform_builds (call : Call) : t.Builds (t.recordsGiven call) (Backend.perform t call).2 := by
  cases call with
  | append target drafts =>
    change t.Builds _ (t.appendBelow target drafts).2
    unfold appendBelow recordsGiven
    dsimp only
    cases howner : t.owner? target with
    | error e => exact Builds.refl
    | ok owner => exact appendAll_builds (holds_of_owner? howner)
  | remove uid => exact Builds.refl.remove uid

theorem afterCalls_builds (calls : List Call) :
    t.Builds (t.recordsAfter calls) (Backend.afterCalls t calls) := by
  induction calls generalizing t with
  | nil => exact Builds.refl
  | cons call rest ih => exact (perform_builds call).trans ih

end

end Table

end Grove
