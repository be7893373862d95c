import Mathlib.Tactic
import Grove.Proofs.Attr.Writing
import Grove.Proofs.Forest.Matching
/-!
# Failed updates

An update that fails leaves the models, the lookups and the roots as they were. All but an append do so because
they change nothing before they succeed. An append that is refused below its root has placed models, all of them
at or below one new slot, and the removal of that slot takes back everything but the step of one counter. Slots
and identifiers are used up all the same.
-/

set_option autoImplicit false

namespace Grove

def failure {α : Type} : Except StoreError α → Option StoreError
  | .error e => some e
  | .ok _ => none

/-- The error that comes back; from an overflow nothing comes back. -/
def Failure.cause? {ε : Type} : Failure ε → Option ε
  | refused cause => some cause
  | overflow => none

def refusal {α : Type} : Except (Failure StoreError) α → Option StoreError
  | .error f => f.cause?
  | .ok _ => none

/-- A sibling index that no child gets. -/
def Model.skip (m : Model) : Model := { m with nextChild := m.nextChild + 1 }

def Update.isAppend : Update → Bool
  | .append .. | .appendAll .. => true
  | _ => false

namespace Store

def failure? (s : Store) : Update → Option StoreError
  | .append parent draft => refusal (s.append parent draft).1
  | .appendAll parent drafts => refusal (s.appendAll parent drafts).1
  | .remove h => failure (s.remove h).1
  | .removeUid uid => failure (s.removeUid uid).1
  | .setAttr h path value => failure (s.setAttr h path value).1
  | .addClass h name => failure (s.addClass h name).1
  | .removeClass h name => failure (s.removeClass h name).1
  | .setId h id => failure (s.setId h id).1
  | .close => none

section
variable {s s' s₁ s₂ : Store} {k h x : Handle} {m : Model} {parent : Option Handle} {paths : List SiblingPath}
  {e : StoreError}

def From (k : Handle) (parent : Option Handle) : Prop := ∃ p, parent = some p ∧ k ≤ p

theorem From.ne (h : From k parent) (hx : x < k) : parent ≠ some x := by
  obtain ⟨p, rfl, hp⟩ := h
  intro heq
  rw [Option.some.inj heq] at hp
  exact absurd hx (Nat.not_lt.2 hp)

theorem From.ne_none (h : From k parent) : parent ≠ none := by
  obtain ⟨p, rfl, -⟩ := h
  exact Option.some_ne_none p

/-- The live models above a slot have their parents from that slot on. -/
def Hangs (k : Handle) (s : Store) : Prop := ∀ {x m}, k < x → s.get? x = some m → From k m.parent

/-- Nothing below a slot has changed, the slot means the same model, and what lies above it in the arena hangs
from it. -/
structure Confined (k : Handle) (s s' : Store) : Prop where
  options : s'.options = s.options
  isOpen : s'.isOpen = s.isOpen
  ids : s'.ids = s.ids
  size : s.slots.size ≤ s'.slots.size
  roots : s'.roots = s.roots
  nextRoot : s'.nextRoot = s.nextRoot
  below : ∀ x < k, s'.get? x = s.get? x
  same : ∀ {m}, s.get? k = some m → ∃ m', s'.get? k = some m' ∧ m'.parent = m.parent
  hangs : s'.Hangs k

theorem Placed.confined (hp : s.Placed parent m s') (hparent : From k parent) (hk : k < s.slots.size)
    (hhangs : s.Hangs k) : s.Confined k s' where
  options := hp.options
  isOpen := hp.isOpen
  ids := hp.ids
  size := by rw [hp.size]; exact Nat.le_succ _
  roots := by rw [hp.roots, if_neg hparent.ne_none]
  nextRoot := by rw [hp.nextRoot, if_neg hparent.ne_none]
  below x hx := by rw [hp.get?_eq, if_neg (hx.trans hk).ne, if_neg (hparent.ne hx)]
  same hm := ⟨_, hp.get?_of_get? hm, (Placed.sameNode rfl).parent⟩
  hangs hx hm := by
    rcases hp.cases_get? hm with ⟨-, rfl⟩ | ⟨m₀, hget, heq⟩
    · rwa [hp.parent_eq]
    · rw [(Placed.sameNode heq).parent]
      exact hhangs hx hget

theorem Removed.confined (hr : s.Removed h m s') (hs : s.Wired) (hk : k < h) (hhangs : s.Hangs k) :
    s.Confined k s' := by
  have hparent := hhangs hk hr.live
  have hgone : ∀ x ≤ k, x ∉ h :: s.descendants h := by
    intro x hx hmem
    rw [List.mem_cons, hs.mem_descendants_iff] at hmem
    rcases hmem with rfl | habove
    · exact absurd hk (Nat.not_lt.2 hx)
    · exact absurd (hk.trans (hs.lt_of_above habove)) (Nat.not_lt.2 hx)
  exact
    { options := hr.options, isOpen := hr.isOpen, ids := hr.ids, size := hr.size.ge
      nextRoot := hr.nextRoot
      roots := by rw [hr.roots, if_neg hparent.ne_none]
      below := fun x hx => by rw [hr.get?_eq, if_neg (hgone x hx.le), if_neg (hparent.ne hx)]
      same := fun hm =>
        ⟨_, hr.get?_of_get? hm (hgone k (Nat.le_refl k)), (Removed.sameNode rfl).parent⟩
      hangs := fun hx hm => by
        obtain ⟨-, m₀, hget, heq⟩ := hr.cases_get? hm
        rw [(Removed.sameNode heq).parent]
        exact hhangs hx hget }

theorem Confined.trans (h : s.Confined k s₁) (h' : s₁.Confined k s₂) : s.Confined k s₂ where
  options := h'.options.trans h.options
  isOpen := h'.isOpen.trans h.isOpen
  ids := h'.ids.trans h.ids
  size := h.size.trans h'.size
  roots := h'.roots.trans h.roots
  nextRoot := h'.nextRoot.trans h.nextRoot
  below x hx := (h'.below x hx).trans (h.below x hx)
  same hm := by
    obtain ⟨m₁, hm₁, hparent₁⟩ := h.same hm
    obtain ⟨m₂, hm₂, hparent₂⟩ := h'.same hm₁
    exact ⟨m₂, hm₂, hparent₂.trans hparent₁⟩
  hangs := h'.hangs

theorem Moves.confined (h : s.Moves (From k) (k + 1) paths s') (hs : s.Wired) (hk : k < s.slots.size)
    (hhangs : s.Hangs k) : s.Confined k s' := by
  induction h with
  | refl => exact ⟨rfl, rfl, rfl, Nat.le_refl _, rfl, rfl, fun _ _ => rfl, fun hm => ⟨_, hm, rfl⟩, hhangs⟩
  | place hmoves hparent hp ih =>
    exact ih.trans (hp.confined hparent (hk.trans_le hmoves.size_le) ih.hangs)
  | remove hmoves hh hr ih => exact ih.trans (hr.confined (hmoves.wired hs) hh ih.hangs)

theorem Hangs.reflTransGen (hhangs : s.Hangs k) (hs : s.Wired) (hx : k ≤ x) (hm : s.get? x = some m) :
    Relation.ReflTransGen s.IsParent k x := by
  induction x using Nat.strong_induction_on generalizing m with
  | _ x ih =>
    rcases hx.eq_or_lt with rfl | hlt
    · exact Relation.ReflTransGen.refl
    · obtain ⟨p, hp, hkp⟩ := hhangs hlt hm
      obtain ⟨owner, howner⟩ := hs.parent_live hm hp
      exact (ih p (hs.parent_lt hm hp) hkp howner).tail (isParent_iff.2 ⟨m, hm, hp⟩)

/-- Everything is as before but for the counter of a parent, or of the roots, which has gone on by one, and the
slots that have been filled in between. -/
structure Restored (s : Store) (parent : Option Handle) (s' : Store) : Prop where
  options : s'.options = s.options
  isOpen : s'.isOpen = s.isOpen
  ids : s'.ids = s.ids
  size : s.slots.size < s'.slots.size
  roots : s'.roots = s.roots
  nextRoot : s'.nextRoot = if parent = none then s.nextRoot + 1 else s.nextRoot
  get?_eq : ∀ x, s'.get? x = if parent = some x then (s.get? x).map Model.skip else s.get? x
  lookup : ∀ uid, s'.lookup? uid = s.lookup? uid

theorem disown_adopt (hs : s.Wired) (hm : s.get? x = some m) :
    (m.adopt s.slots.size).disown s.slots.size = m.skip := by
  have hne : ∀ c ∈ m.children, (c != s.slots.size) = true := by
    intro c hc
    rw [← children_of_get? hm] at hc
    obtain ⟨mc, hmc, -⟩ := hs.linked (show c ∈ s.siblings (some x) from hc)
    exact bne_iff_ne.2 (lt_size_of_get? hmc).ne
  unfold Model.disown Model.adopt Model.skip
  simp only [List.filter_append, List.filter_eq_self.2 hne]
  simp

theorem filter_roots (hs : s.Wired) : (s.roots ++ [s.slots.size]).filter (· != s.slots.size) = s.roots := by
  have hne : ∀ r ∈ s.roots, (r != s.slots.size) = true := by
    intro r hr
    obtain ⟨m, hm, -⟩ := hs.linked (show r ∈ s.siblings none from hr)
    exact bne_iff_ne.2 (lt_size_of_get? hm).ne
  simp [List.filter_append, List.filter_eq_self.2 hne]

theorem Placed.parent_of_confined {m₂ : Model} (hp : s.Placed parent m s₁)
    (hc : s₁.Confined s.slots.size s₂) (hm₂ : s₂.get? s.slots.size = some m₂) : m₂.parent = parent := by
  obtain ⟨m', hm', hsame⟩ := hc.same hp.get?_size
  rw [hm₂] at hm'
  cases hm'
  exact hsame.trans hp.parent_eq

theorem Placed.get?_restored {m₂ : Model} (hp : s.Placed parent m s₁) (hs : s.Wired)
    (hc : s₁.Confined s.slots.size s₂) (hs₂ : s₂.Wired) (hr : s₂.Removed s.slots.size m₂ s') (x : Handle) :
    s'.get? x = if parent = some x then (s.get? x).map Model.skip else s.get? x := by
  rw [hr.get?_eq, hp.parent_of_confined hc hr.live]
  -- what was there before stays, and whatever is in a slot from the new one on hangs from it
  by_cases hx : x < s.slots.size
  · have hgone : x ∉ s.slots.size :: s₂.descendants s.slots.size := by
      rw [Removed.mem_gone_iff hs₂]
      intro h
      rcases Relation.reflTransGen_iff_eq_or_transGen.1 h with rfl | h
      · exact lt_irrefl _ hx
      · exact lt_asymm hx (hs₂.lt_of_above h)
    rw [if_neg hgone, hc.below x hx, hp.get?_eq, if_neg hx.ne]
    split
    · cases hm : s.get? x with
      | none => rfl
      | some m₀ => exact congrArg some (disown_adopt hs hm)
    · rfl
  · have hnone : s.get? x = none := Option.eq_none_iff_forall_ne_some.2 fun m hm =>
      hx (lt_size_of_get? hm)
    rw [hnone, Option.map_none, ite_self]
    cases hm : s₂.get? x with
    | none => simp
    | some m₀ =>
      have hgone := Hangs.reflTransGen hc.hangs hs₂ (Nat.not_lt.1 hx) hm
      rw [if_pos ((Removed.mem_gone_iff hs₂).2 hgone)]

/-- A removal of the placed model takes back all that has been placed below it since. -/
theorem Placed.restored {m₂ : Model} (hp : s.Placed parent m s₁) (hs : s.Wired)
    (hc : s₁.Confined s.slots.size s₂) (hs₂ : s₂.Wired) (hr : s₂.Removed s.slots.size m₂ s') :
    s.Restored parent s' := by
  have hget := hp.get?_restored hs hc hs₂ hr
  have hs' := hr.wired hs₂
  exact
    { options := by rw [hr.options, hc.options, hp.options]
      isOpen := by rw [hr.isOpen, hc.isOpen, hp.isOpen]
      ids := by rw [hr.ids, hc.ids, hp.ids]
      size := by
        rw [hr.size]
        exact hp.size.ge.trans hc.size
      nextRoot := by rw [hr.nextRoot, hc.nextRoot, hp.nextRoot]
      roots := by
        rw [hr.roots, hc.roots, hp.roots, hp.parent_of_confined hc hr.live]
        by_cases hroot : parent = none
        · rw [if_pos hroot, if_pos hroot, filter_roots hs]
        · rw [if_neg hroot, if_neg hroot]
      get?_eq := hget
      lookup := fun uid => by
        refine Option.ext fun x => ?_
        rw [hs'.lookup, hs.lookup, hget]
        split
        · cases s.get? x <;> simp [Model.skip]
        · rfl }

theorem Placed.confined_appendChildren (hp : s.Placed parent m s₁) (hs : s.Wired) (drafts : List Draft) :
    s₁.Confined s.slots.size (s₁.appendChildren s.slots.size drafts).2 ∧
      (s₁.appendChildren s.slots.size drafts).2.Wired := by
  have hs₁ := hp.wired hs
  have hmoves : s₁.Moves (From s.slots.size) (s.slots.size + 1) _ _ :=
    appendChildren_moves drafts hs₁ ⟨s.slots.size, rfl, Nat.le_refl _⟩
      (fun h hh => ⟨h, rfl, Nat.le_of_succ_le hh⟩) hp.size.ge
  refine ⟨hmoves.confined hs₁ ?_ ?_, hmoves.wired hs₁⟩
  · rw [hp.size]
    exact Nat.lt_succ_self _
  · intro x m' hx hm'
    have hlt := lt_size_of_get? hm'
    rw [hp.size] at hlt
    exact absurd hx (Nat.not_lt.2 (Nat.le_of_lt_succ hlt))

theorem restored_append {d : Draft} {h : Handle} (hs : s.Wired)
    (happ : s.appendOne parent d.tag d.id d.classes d.attrs = .ok (h, s₁))
    (hfail : refusal (s₁.appendChildren h d.children).1 = some e) :
    refusal (s.append parent d).1 = some e ∧ s.Restored parent (s.append parent d).2 := by
  obtain ⟨m, hp, rfl, -⟩ := placed_of_appendOne happ
  obtain ⟨hc, hs₂⟩ := hp.confined_appendChildren hs d.children
  obtain ⟨tag, id, classes, attrs, children⟩ := d
  dsimp only at happ hfail hc hs₂
  unfold append
  rw [happ]
  dsimp only
  generalize s₁.appendChildren s.slots.size children = outcome at *
  obtain ⟨result, s₂⟩ := outcome
  match result, hfail with
  | .error (.refused e'), hfail =>
    cases hfail
    have hopen : s₂.isOpen = true := by
      rw [hc.isOpen, hp.isOpen]
      exact isOpen_of_appendOne happ
    obtain ⟨m₂, hm₂, -⟩ := hc.same hp.get?_size
    obtain ⟨s', hremove, hr⟩ := remove_of_live hs₂ hopen hm₂
    dsimp only
    rw [hremove]
    exact ⟨rfl, hp.restored hs hc hs₂ hr⟩

theorem refusal_eq_some_iff {α : Type} {result : Except (Failure StoreError) α} :
    refusal result = some e ↔ result = .error (.refused e) := by
  cases result with
  | ok _ => simp [refusal]
  | error f => cases f <;> simp [refusal, Failure.cause?]

/-- An append fails as the root of its draft does, or as the drafts below it do. -/
theorem append_eq_error (hs : s.Wired) {d : Draft} {f : Failure StoreError}
    (h : (s.append parent d).1 = .error f) :
    (s.appendOne parent d.tag d.id d.classes d.attrs = .error f ∧ (s.append parent d).2 = s) ∨
      ∃ h s₁, s.appendOne parent d.tag d.id d.classes d.attrs = .ok (h, s₁) ∧
        (s₁.appendChildren h d.children).1 = .error f := by
  have hrefused : ∀ h₁ s₁ e, s.appendOne parent d.tag d.id d.classes d.attrs = .ok (h₁, s₁) →
      refusal (s₁.appendChildren h₁ d.children).1 = some e → refusal (s.append parent d).1 = some e :=
    fun _ _ _ happ hfail => (restored_append hs happ hfail).1
  rw [h] at hrefused
  obtain ⟨tag, id, classes, attrs, children⟩ := d
  unfold append at h ⊢
  cases happ : s.appendOne parent tag id classes attrs with
  | error f' =>
    rw [happ] at h
    cases h
    exact Or.inl ⟨rfl, rfl⟩
  | ok placed =>
    obtain ⟨h₁, s₁⟩ := placed
    refine Or.inr ⟨h₁, s₁, rfl, ?_⟩
    rw [happ] at h
    dsimp only at h
    split at h
    · cases h
    · next heq =>
      cases h
      rw [heq]
    · next e s₂ heq =>
      -- the removal succeeds, so that the error is that of the children
      have hresult : (s₁.appendChildren h₁ children).1 = .error (.refused e) := by rw [heq]
      have hfail := hrefused h₁ s₁ e happ (refusal_eq_some_iff.2 hresult)
      rw [hresult, Except.error.inj (refusal_eq_some_iff.1 hfail)]

theorem failure_append (hs : s.Wired) {d : Draft} (h : s.failure? (.append parent d) = some e) :
    (s.appendOne parent d.tag d.id d.classes d.attrs = .error (.refused e) ∧ s.after (.append parent d) = s) ∨
      ∃ h s₁, s.appendOne parent d.tag d.id d.classes d.attrs = .ok (h, s₁) ∧
        refusal (s₁.appendChildren h d.children).1 = some e ∧
        s.Restored parent (s.after (.append parent d)) := by
  rcases append_eq_error hs (refusal_eq_some_iff.1 h) with ⟨herror, heq⟩ | ⟨h₁, s₁, happ, hbelow⟩
  · exact Or.inl ⟨herror, heq⟩
  · have hbelow := refusal_eq_some_iff.2 hbelow
    exact Or.inr ⟨h₁, s₁, happ, hbelow, (restored_append hs happ hbelow).2⟩

theorem size_remove (hs : s.Wired) (h : Handle) : (s.remove h).2.slots.size = s.slots.size := by
  rcases remove_cases hs h with ⟨e, heq⟩ | ⟨uids, m, s', heq, hr⟩
  · rw [heq]
  · rw [heq]
    exact hr.size

theorem size_append (hs : s.Wired) {d : Draft}
    (happ : s.appendOne parent d.tag d.id d.classes d.attrs = .ok (h, s₁)) :
    (s.append parent d).2.slots.size = (s₁.appendChildren h d.children).2.slots.size := by
  obtain ⟨m, hp, rfl, -⟩ := placed_of_appendOne happ
  have hsize := size_remove (hp.confined_appendChildren hs d.children).2 s.slots.size
  obtain ⟨tag, id, classes, attrs, children⟩ := d
  dsimp only at happ hsize ⊢
  unfold append
  rw [happ]
  dsimp only
  generalize s₁.appendChildren s.slots.size children = outcome at *
  obtain ⟨result, s₂⟩ := outcome
  match result with
  | .ok _ => rfl
  | .error .overflow => rfl
  | .error (.refused e) =>
    dsimp only at hsize ⊢
    generalize s₂.remove s.slots.size = removal at *
    obtain ⟨result, s₃⟩ := removal
    cases result <;> exact hsize

theorem put_self (hm : s.get? h = some m) : s.put h m = s := by
  have hslots : s.slots.setIfInBounds h (some m) = s.slots := by
    refine Array.ext (by simp) fun i hi hi' => ?_
    rw [Array.getElem_setIfInBounds hi']
    split
    · next heq =>
      subst heq
      unfold get? at hm
      rw [Array.getElem?_eq_getElem hi', Option.join_some] at hm
      exact hm.symm
    · rfl
  unfold put
  rw [hslots]

theorem edit_eq_of_failure {change : Model → Except StoreError Unit × Model}
    (hchange : ∀ m e, (change m).1 = .error e → (change m).2 = m)
    (hfail : failure (s.edit h change).1 = some e) : (s.edit h change).2 = s := by
  unfold edit at hfail ⊢
  split
  · rfl
  · next hopen =>
    rw [if_neg hopen] at hfail
    cases hm : s.get? h with
    | none => rfl
    | some m =>
      rw [hm] at hfail
      dsimp only at hfail ⊢
      cases hresult : (change m).1 with
      | ok _ =>
        rw [hresult] at hfail
        cases hfail
      | error e' =>
        rw [hchange m e' hresult]
        exact put_self hm

theorem after_eq_of_failure (hs : s.Wired) {u : Update} (hfail : s.failure? u = some e)
    (hu : u.isAppend = false) : s.after u = s := by
  have hremove : ∀ h, failure (s.remove h).1 = some e → (s.remove h).2 = s := by
    intro h hfail
    rcases remove_cases hs h with ⟨e', heq⟩ | ⟨uids, m, s', heq, -⟩
    · rw [heq]
    · rw [heq] at hfail
      cases hfail
  cases u with
  | append | appendAll => cases hu
  | close => cases hfail
  | remove h => exact hremove h hfail
  | removeUid uid =>
    change failure (s.removeUid uid).1 = some e at hfail
    change (s.removeUid uid).2 = s
    unfold removeUid at hfail ⊢
    cases hlook : s.lookup? uid with
    | none => rfl
    | some h =>
      rw [hlook] at hfail
      exact hremove h hfail
  | setAttr h path value =>
    refine edit_eq_of_failure (fun m e h => ?_) hfail
    dsimp only at h ⊢
    cases hwrite : (m.attrs.write path value).1 with
    | ok _ =>
      rw [hwrite] at h
      cases h
    | error e' => rw [Attr.write_refused hwrite]
  | addClass h name => exact edit_eq_of_failure (fun m e h => by cases h) hfail
  | removeClass h name => exact edit_eq_of_failure (fun m e h => by cases h) hfail
  | setId h id => exact edit_eq_of_failure (fun m e h => by cases h) hfail

theorem appendAll_cons_error {d : Draft} {f : Failure StoreError} (rest : List Draft)
    (happ : s.append parent d = (.error f, s₁)) : s.appendAll parent (d :: rest) = (.error f, s₁) := by
  unfold appendAll
  rw [happ]

theorem appendAll_cons_ok {d : Draft} (rest : List Draft) (happ : s.append parent d = (.ok h, s₁)) :
    (s.appendAll parent (d :: rest)).1 = (s₁.appendAll parent rest).1.map (h :: ·) ∧
      (s.appendAll parent (d :: rest)).2 = (s₁.appendAll parent rest).2 := by
  conv in s.appendAll parent (d :: rest) => unfold appendAll
  conv in (s.appendAll parent (d :: rest)).2 => unfold appendAll
  rw [happ]
  dsimp only
  generalize s₁.appendAll parent rest = outcome
  obtain ⟨result, s₂⟩ := outcome
  cases result with
  | ok _ => exact ⟨rfl, rfl⟩
  | error f => exact ⟨rfl, rfl⟩

theorem refusal_map {α β : Type} (result : Except (Failure StoreError) α) (f : α → β) :
    refusal (result.map f) = refusal result := by
  cases result <;> rfl

theorem failure_appendAll {drafts : List Draft} (h : s.failure? (.appendAll parent drafts) = some e) :
    ∃ before d rest handles, drafts = before ++ d :: rest ∧ (s.appendAll parent before).1 = .ok handles ∧
      (s.after (.appendAll parent before)).failure? (.append parent d) = some e ∧
      s.after (.appendAll parent drafts) = (s.after (.appendAll parent before)).after (.append parent d) ∧
      s.after (.appendAll parent before) = before.foldl (fun s d => s.after (.append parent d)) s := by
  induction drafts generalizing s with
  | nil => cases h
  | cons d rest ih =>
    cases happ : s.append parent d with
    | mk result s₁ =>
      cases result with
      | error f =>
        have hall := appendAll_cons_error rest happ
        change refusal (s.appendAll parent (d :: rest)).1 = some e at h
        rw [hall] at h
        refine ⟨[], d, rest, [], rfl, rfl, ?_, ?_, rfl⟩
        · change refusal (s.append parent d).1 = some e
          rwa [happ]
        · change (s.appendAll parent (d :: rest)).2 = (s.append parent d).2
          rw [hall, happ]
      | ok h₁ =>
        obtain ⟨hresult, hafter⟩ := appendAll_cons_ok rest happ
        change refusal (s.appendAll parent (d :: rest)).1 = some e at h
        rw [hresult, refusal_map] at h
        obtain ⟨before, d', rest', handles, rfl, hbefore, hd, hall, hfold⟩ := ih h
        obtain ⟨hresult', hafter'⟩ := appendAll_cons_ok before happ
        have hmid : s.after (.appendAll parent (d :: before)) = s₁.after (.appendAll parent before) := hafter'
        refine ⟨d :: before, d', rest', h₁ :: handles, rfl, ?_, ?_, ?_, ?_⟩
        · rw [hresult', hbefore]
          rfl
        · rwa [hmid]
        · rw [hmid]
          exact hafter.trans hall
        · rw [hmid, hfold, List.foldl_cons]
          change _ = before.foldl _ (s.append parent d).2
          rw [happ]

mutual

/-- An append is refused for lack of a slot only once all of the arena has been filled. -/
theorem full_of_append {s : Store} (parent : Option Handle) (d : Draft) (hs : s.Wired)
    (hfail : (s.append parent d).1 = .error (.refused .capacityExceeded)) :
    UInt32.size ≤ (s.append parent d).2.slots.size := by
  rcases append_eq_error hs hfail with ⟨herror, hsame⟩ | ⟨h, s₁, happ, hbelow⟩
  · rw [hsame]
    exact full_of_appendOne herror
  · rw [size_append hs happ]
    obtain ⟨m, hp, -⟩ := placed_of_appendOne happ
    obtain ⟨tag, id, classes, attrs, children⟩ := d
    exact full_of_appendChildren children (hp.wired hs) hbelow

theorem full_of_appendChildren {s : Store} {h : Handle} (drafts : List Draft) (hs : s.Wired)
    (hfail : (s.appendChildren h drafts).1 = .error (.refused .capacityExceeded)) :
    UInt32.size ≤ (s.appendChildren h drafts).2.slots.size := by
  cases drafts with
  | nil =>
    unfold appendChildren at hfail
    cases hfail
  | cons d rest =>
    have hfirst := full_of_append (some h) d hs
    have hs₁ := wired_append (some h) d hs
    unfold appendChildren at hfail ⊢
    generalize s.append (some h) d = outcome at *
    obtain ⟨result, s₁⟩ := outcome
    cases result with
    | ok _ => exact full_of_appendChildren rest hs₁ hfail
    | error f =>
      cases hfail
      exact hfirst rfl

end

mutual

theorem size_append_le {s : Store} (parent : Option Handle) (d : Draft) (hs : s.Wired) :
    (s.append parent d).2.slots.size ≤ s.slots.size + d.size := by
  cases happ : s.appendOne parent d.tag d.id d.classes d.attrs with
  | error f =>
    obtain ⟨tag, id, classes, attrs, children⟩ := d
    unfold append
    rw [happ]
    exact Nat.le_add_right ..
  | ok placed =>
    obtain ⟨h, s₁⟩ := placed
    rw [size_append hs happ]
    obtain ⟨m, hp, -⟩ := placed_of_appendOne happ
    obtain ⟨tag, id, classes, attrs, children⟩ := d
    have hle := size_appendChildren_le (h := h) children (hp.wired hs)
    rw [hp.size] at hle
    unfold Draft.size
    dsimp only
    omega

theorem size_appendChildren_le {s : Store} {h : Handle} (drafts : List Draft) (hs : s.Wired) :
    (s.appendChildren h drafts).2.slots.size ≤ s.slots.size + Draft.sizeAll drafts := by
  cases drafts with
  | nil =>
    unfold appendChildren
    exact Nat.le_add_right ..
  | cons d rest =>
    have hfirst := size_append_le (some h) d hs
    have hs₁ := wired_append (some h) d hs
    unfold appendChildren Draft.sizeAll
    generalize s.append (some h) d = outcome at *
    obtain ⟨result, s₁⟩ := outcome
    dsimp only at hfirst hs₁
    cases result with
    | ok _ =>
      have hrest := size_appendChildren_le (h := h) rest hs₁
      dsimp only
      omega
    | error f =>
      dsimp only
      omega

end

theorem after_eq_of_closed (hopen : s.isOpen = false) (u : Update) : s.after u = s := by
  have happend : ∀ parent d, s.append parent d = (.error (.refused .closed), s) := by
    rintro parent ⟨tag, id, classes, attrs, children⟩
    have hone : s.appendOne parent tag id classes attrs = .error (.refused .closed) := by
      unfold appendOne
      rw [hopen]
      rfl
    unfold append
    rw [hone]
  have hremove : ∀ h, s.remove h = (.error .closed, s) := by
    intro h
    unfold remove
    rw [hopen]
    rfl
  have hedit : ∀ h change, s.edit h change = (.error .closed, s) := by
    intro h change
    unfold edit
    rw [hopen]
    rfl
  cases u with
  | append parent d => exact congrArg Prod.snd (happend parent d)
  | appendAll parent drafts =>
    cases drafts with
    | nil => rfl
    | cons d rest => exact congrArg Prod.snd (appendAll_cons_error rest (happend parent d))
  | remove h => exact congrArg Prod.snd (hremove h)
  | removeUid uid =>
    change (s.removeUid uid).2 = s
    unfold removeUid
    split
    · rfl
    · exact congrArg Prod.snd (hremove _)
  | setAttr | addClass | removeClass | setId => exact congrArg Prod.snd (hedit _ _)
  | close =>
    change { s with isOpen := false } = s
    rw [← hopen]

end

/-- An update that fails changes nothing, unless it is an append that has placed the root of its draft: then one
counter goes on. Of several drafts those before the one that fails are appended. A closed store stays as it is. -/
theorem restored_of_failure {options : StoreOptions} {ids : IdSource} {s : Store} {paths : List SiblingPath}
    (hrun : (Store.new options ids).Run paths s) :
    (∀ u e, s.failure? u = some e → u.isAppend = false → s.after u = s) ∧
    (∀ parent d e, s.failure? (.append parent d) = some e →
      (s.appendOne parent d.tag d.id d.classes d.attrs = .error (.refused e) ∧
        s.after (.append parent d) = s) ∨
      ∃ h s₁, s.appendOne parent d.tag d.id d.classes d.attrs = .ok (h, s₁) ∧
        refusal (s₁.appendChildren h d.children).1 = some e ∧
        s.Restored parent (s.after (.append parent d))) ∧
    (∀ parent drafts e, s.failure? (.appendAll parent drafts) = some e →
      ∃ before d rest handles, drafts = before ++ d :: rest ∧
        (s.appendAll parent before).1 = .ok handles ∧
        (s.after (.appendAll parent before)).failure? (.append parent d) = some e ∧
        s.after (.appendAll parent drafts) =
          (s.after (.appendAll parent before)).after (.append parent d) ∧
        s.after (.appendAll parent before) = before.foldl (fun s d => s.after (.append parent d)) s) ∧
    (s.isOpen = false → ∀ u, s.after u = s) := by
  have hs := hrun.consistent_new.toWired
  exact ⟨fun _ _ => after_eq_of_failure hs, fun _ _ _ => failure_append hs,
    fun _ _ _ => failure_appendAll, after_eq_of_closed⟩

/-- The digits do not tell a tenth child of the second child apart, after twelve models have been placed. -/
theorem restored_of_failure_leaning :
    let below : Draft := ⟨"h", none, [], .emptyMap, List.replicate 10 (.ofTag "i")⟩
    let draft : Draft := ⟨"g", none, [], .emptyMap, [.ofTag "x", below]⟩
    (∃ paths, (Store.new ⟨⟨1, 4⟩, 0⟩ .counting).Run paths leaning) ∧
      (leaning.failure? (.append (some 0) draft)).isSome ∧
      leaning.Restored (some 0) (leaning.after (.append (some 0) draft)) ∧
      leaning.after (.remove 4) = leaning ∧
      leaning.close.after (.appendAll none [draft]) = leaning.close := by
  intro below draft
  obtain ⟨paths, hrun⟩ := run_leaning
  obtain ⟨hsame, happend, -, -⟩ := restored_of_failure hrun
  have hfails : (leaning.failure? (.append (some 0) draft)).isSome := by decide +kernel
  have hplaced : refusal (leaning.appendOne (some 0) draft.tag draft.id draft.classes draft.attrs) = none := by
    decide +kernel
  obtain ⟨e, he⟩ := Option.isSome_iff_exists.1 hfails
  refine ⟨⟨paths, hrun⟩, hfails, ?_, hsame (.remove 4) .unknownModel (by decide +kernel) rfl, ?_⟩
  · rcases happend _ _ _ he with ⟨herror, -⟩ | ⟨h, s₁, -, -, hrestored⟩
    · rw [herror] at hplaced
      cases hplaced
    · exact hrestored
  · exact (restored_of_failure (hrun.update .close)).2.2.2 rfl _

end Store

end Grove
