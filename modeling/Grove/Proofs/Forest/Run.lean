import Mathlib.Logic.Relation
import Mathlib.Tactic
import Grove.Proofs.Forest.Removal
/-!
# Runs

Whatever updates a store goes through, and whether they succeed or not, it goes through edits of contents
and through steps that each place a model or remove one. What these preserve holds of every store that a
run reaches.
-/

set_option autoImplicit false

namespace Grove

inductive Update where
  | append (parent : Option Handle) (draft : Draft)
  | appendAll (parent : Option Handle) (drafts : List Draft)
  | remove (h : Handle)
  | removeUid (uid : String)
  | setAttr (h : Handle) (path : String) (value : Attr)
  | addClass (h : Handle) (name : String)
  | removeClass (h : Handle) (name : String)
  | setId (h : Handle) (id : Option String)
  | close

/-- Appends and removals; the other updates leave the forest as it is. -/
def Update.isStructural : Update → Bool
  | .append .. | .appendAll .. | .remove .. | .removeUid .. => true
  | _ => false

namespace Store

def after (s : Store) : Update → Store
  | .append parent draft => (s.append parent draft).2
  | .appendAll parent drafts => (s.appendAll parent drafts).2
  | .remove h => (s.remove h).2
  | .removeUid uid => (s.removeUid uid).2
  | .setAttr h path value => (s.setAttr h path value).2
  | .addClass h name => (s.addClass h name).2
  | .removeClass h name => (s.removeClass h name).2
  | .setId h id => (s.setId h id).2
  | .close => s.close

mutual

/-- The paths of the models that an append places, also of those that it takes back. -/
def pathsOf (s : Store) (parent : Option Handle) : Draft → List SiblingPath
  | ⟨tag, id, classes, attrs, children⟩ =>
    match s.appendOne parent tag id classes attrs with
    | .error _ => []
    | .ok (h, s') => ((s'.get? h).map Model.path).toList ++ pathsOfAll s' (some h) children

def pathsOfAll (s : Store) (parent : Option Handle) : List Draft → List SiblingPath
  | [] => []
  | d :: rest =>
    pathsOf s parent d ++
      match s.append parent d with
      | (.ok _, s') => pathsOfAll s' parent rest
      | (.error _, _) => []

end

def pathsGiven (s : Store) : Update → List SiblingPath
  | .append parent draft => s.pathsOf parent draft
  | .appendAll parent drafts => s.pathsOfAll parent drafts
  | _ => []

/-- A model is placed, or one from some slot on is removed. -/
inductive Step (k : Handle) (s : Store) : Store → Prop
  | place {parent : Option Handle} {m : Model} {s' : Store} : s.Placed parent m s' → Step k s s'
  | remove {h : Handle} {m : Model} {s' : Store} : k ≤ h → s.Removed h m s' → Step k s s'

def Steps (k : Handle) : Store → Store → Prop := Relation.ReflTransGen (Step k)

/-- Models placed and removed in turn, with the paths of those placed. They are placed only below parents that
are `allowed`, and removed only from some slot on. -/
inductive Moves (allowed : Option Handle → Prop) (k : Handle) (s : Store) : List SiblingPath → Store → Prop
  | refl : Moves allowed k s [] s
  | place {paths : List SiblingPath} {parent : Option Handle} {m : Model} {s' s'' : Store} :
      Moves allowed k s paths s' → allowed parent → s'.Placed parent m s'' →
      Moves allowed k s (paths ++ [m.path]) s''
  | remove {paths : List SiblingPath} {h : Handle} {m : Model} {s' s'' : Store} :
      Moves allowed k s paths s' → k ≤ h → s'.Removed h m s'' → Moves allowed k s paths s''

abbrev Trace (k : Handle) (s : Store) (paths : List SiblingPath) (s' : Store) : Prop :=
  s.Moves (fun _ => True) k paths s'

section
variable {s s' s'' : Store} {parent : Option Handle} {k h : Handle} {paths paths' : List SiblingPath}
  {allowed : Option Handle → Prop}

theorem Step.consistent (hs : s.Consistent) (h : s.Step k s') : s'.Consistent := by
  cases h with
  | place hp => exact hp.consistent hs
  | remove _ hr => exact hr.consistent hs

theorem Step.options (h : s.Step k s') : s'.options = s.options := by
  cases h with
  | place hp => exact hp.options
  | remove _ hr => exact hr.options

theorem Step.ids (h : s.Step k s') : s'.ids = s.ids := by
  cases h with
  | place hp => exact hp.ids
  | remove _ hr => exact hr.ids

theorem Steps.refl : s.Steps k s := Relation.ReflTransGen.refl

theorem Steps.consistent (hs : s.Consistent) (h : s.Steps k s') : s'.Consistent := by
  induction h with
  | refl => exact hs
  | tail _ h ih => exact h.consistent ih

theorem Steps.options (h : s.Steps k s') : s'.options = s.options := by
  induction h with
  | refl => rfl
  | tail _ h ih => exact h.options.trans ih

theorem Steps.ids (h : s.Steps k s') : s'.ids = s.ids := by
  induction h with
  | refl => rfl
  | tail _ h ih => exact h.ids.trans ih

theorem Moves.trans (h : s.Moves allowed k paths s') (h' : s'.Moves allowed k paths' s'') :
    s.Moves allowed k (paths ++ paths') s'' := by
  induction h' with
  | refl => rwa [List.append_nil]
  | place _ hparent hp ih =>
    rw [← List.append_assoc]
    exact ih.place hparent hp
  | remove _ hk hr ih => exact ih.remove hk hr

theorem Moves.wired (hs : s.Wired) (h : s.Moves allowed k paths s') : s'.Wired := by
  induction h with
  | refl => exact hs
  | place _ _ hp ih => exact hp.wired ih
  | remove _ _ hr ih => exact hr.wired ih

theorem Moves.size_le (h : s.Moves allowed k paths s') : s.slots.size ≤ s'.slots.size := by
  induction h with
  | refl => exact Nat.le_refl _
  | place _ _ hp ih => exact ih.trans (hp.size ▸ Nat.le_succ _)
  | remove _ _ hr ih => exact ih.trans hr.size.ge

theorem Trace.steps (h : s.Trace k paths s') : s.Steps k s' := by
  induction h with
  | refl => exact Steps.refl
  | place _ _ hp ih => exact ih.tail (Step.place hp)
  | remove _ hk hr ih => exact ih.tail (Step.remove hk hr)

theorem remove_moves (hs : s.Wired) (hk : k ≤ h) : s.Moves allowed k [] (s.remove h).2 := by
  rcases remove_cases hs h with ⟨e, heq⟩ | ⟨uids, m, s', heq, hr⟩
  · rw [heq]
    exact Moves.refl
  · rw [heq]
    exact Moves.refl.remove hk hr

theorem remove_steps (hs : s.Consistent) (hk : k ≤ h) : s.Steps k (s.remove h).2 :=
  Trace.steps (remove_moves hs.toWired hk)

mutual

theorem append_moves {s : Store} {parent : Option Handle} {k : Handle} (d : Draft) (hs : s.Wired)
    (hparent : allowed parent) (hnew : ∀ h, k ≤ h → allowed (some h)) (hk : k ≤ s.slots.size) :
    s.Moves allowed k (s.pathsOf parent d) (s.append parent d).2 := by
  obtain ⟨tag, id, classes, attrs, children⟩ := d
  unfold append pathsOf
  cases happ : s.appendOne parent tag id classes attrs with
  | error f => exact Moves.refl
  | ok placed =>
    obtain ⟨h, s₁⟩ := placed
    obtain ⟨m, hp, rfl, -⟩ := placed_of_appendOne happ
    have hfirst : s.Moves allowed k [m.path] s₁ := Moves.refl.place hparent hp
    have hboth := hfirst.trans (appendChildren_moves (h := s.slots.size) children (hp.wired hs) (hnew _ hk) hnew
      (hk.trans hfirst.size_le))
    dsimp only
    rw [hp.get?_size, Option.map_some, Option.toList_some]
    split
    · next heq =>
      rw [heq] at hboth
      exact hboth
    · next heq =>
      rw [heq] at hboth
      exact hboth
    · next heq =>
      rw [heq] at hboth
      have hremove := hboth.trans (remove_moves (hboth.wired hs) hk)
      rw [List.append_nil] at hremove
      split
      · next heq' =>
        rw [heq'] at hremove
        exact hremove
      · next heq' =>
        rw [heq'] at hremove
        exact hremove

theorem appendChildren_moves {s : Store} {h k : Handle} (drafts : List Draft) (hs : s.Wired)
    (hparent : allowed (some h)) (hnew : ∀ h, k ≤ h → allowed (some h)) (hk : k ≤ s.slots.size) :
    s.Moves allowed k (s.pathsOfAll (some h) drafts) (s.appendChildren h drafts).2 := by
  cases drafts with
  | nil =>
    unfold appendChildren pathsOfAll
    exact Moves.refl
  | cons d rest =>
    have hfirst := append_moves d hs hparent hnew hk
    unfold appendChildren pathsOfAll
    cases happ : s.append (some h) d with
    | mk result s₁ =>
      rw [happ] at hfirst
      cases result with
      | ok c =>
        exact hfirst.trans (appendChildren_moves rest (hfirst.wired hs) hparent hnew (hk.trans hfirst.size_le))
      | error f =>
        dsimp only
        rwa [List.append_nil]

end

theorem appendAll_moves {drafts : List Draft} (hs : s.Wired) (hparent : allowed parent)
    (hnew : ∀ h, k ≤ h → allowed (some h)) (hk : k ≤ s.slots.size) :
    s.Moves allowed k (s.pathsOfAll parent drafts) (s.appendAll parent drafts).2 := by
  induction drafts generalizing s with
  | nil =>
    unfold appendAll pathsOfAll
    exact Moves.refl
  | cons d rest ih =>
    have hfirst := append_moves d hs hparent hnew hk
    unfold appendAll pathsOfAll
    cases happ : s.append parent d with
    | mk result s₁ =>
      rw [happ] at hfirst
      cases result with
      | error f =>
        dsimp only
        rwa [List.append_nil]
      | ok h =>
        have hboth := hfirst.trans (ih (hfirst.wired hs) (hk.trans hfirst.size_le))
        dsimp only
        split
        · next heq' =>
          rw [heq'] at hboth
          exact hboth
        · next heq' =>
          rw [heq'] at hboth
          exact hboth

theorem wired_append (parent : Option Handle) (d : Draft) (hs : s.Wired) : (s.append parent d).2.Wired := by
  have htrace : s.Trace 0 (s.pathsOf parent d) (s.append parent d).2 :=
    append_moves d hs trivial (fun _ _ => trivial) (Nat.zero_le _)
  exact Moves.wired hs htrace

theorem append_steps {d : Draft} (hs : s.Consistent) (hk : k ≤ s.slots.size) :
    s.Steps k (s.append parent d).2 :=
  Trace.steps (append_moves d hs.toWired trivial (fun _ _ => trivial) hk)

theorem appendChildren_steps {drafts : List Draft} (hs : s.Consistent) (hk : k ≤ s.slots.size) :
    s.Steps k (s.appendChildren h drafts).2 :=
  Trace.steps (appendChildren_moves drafts hs.toWired trivial (fun _ _ => trivial) hk)

theorem appendAll_steps {drafts : List Draft} (hs : s.Consistent) (hk : k ≤ s.slots.size) :
    s.Steps k (s.appendAll parent drafts).2 :=
  Trace.steps (appendAll_moves hs.toWired trivial (fun _ _ => trivial) hk)

theorem edited_refl (s : Store) : s.Edited s where
  options := rfl
  ids := rfl
  drawn := rfl
  size := rfl
  roots := rfl
  nextRoot := rfl
  lookup _ := rfl
  get?_eq := (edited_close s).get?_eq

theorem edited_edit {change : Model → Except StoreError Unit × Model}
    (hchange : ∀ m : Model, m.SameLinks (change m).2) : s.Edited (s.edit h change).2 := by
  unfold edit
  split
  · exact edited_refl s
  · split
    · exact edited_refl s
    · next m hm => exact edited_put hm (hchange m)

theorem trace_after (hs : s.Wired) {u : Update} (hu : u.isStructural = true) :
    s.Trace 0 (s.pathsGiven u) (s.after u) := by
  cases u with
  | append parent draft => exact append_moves draft hs trivial (fun _ _ => trivial) (Nat.zero_le _)
  | appendAll parent drafts => exact appendAll_moves hs trivial (fun _ _ => trivial) (Nat.zero_le _)
  | remove h => exact remove_moves hs (Nat.zero_le _)
  | removeUid uid =>
    change s.Moves (fun _ => True) 0 [] (s.removeUid uid).2
    unfold removeUid
    split
    · exact Moves.refl
    · exact remove_moves hs (Nat.zero_le _)
  | _ => cases hu

theorem edited_after {u : Update} (hu : u.isStructural = false) :
    s.pathsGiven u = [] ∧ s.Edited (s.after u) := by
  cases u with
  | setAttr h path value =>
    refine ⟨rfl, edited_edit fun m => ?_⟩
    exact ⟨⟨rfl, rfl, rfl, rfl⟩, rfl, rfl⟩
  | addClass h name =>
    refine ⟨rfl, edited_edit fun m => ?_⟩
    exact ⟨⟨rfl, rfl, rfl, rfl⟩, rfl, rfl⟩
  | removeClass h name =>
    refine ⟨rfl, edited_edit fun m => ?_⟩
    exact ⟨⟨rfl, rfl, rfl, rfl⟩, rfl, rfl⟩
  | setId h id =>
    refine ⟨rfl, edited_edit fun m => ?_⟩
    exact ⟨⟨rfl, rfl, rfl, rfl⟩, rfl, rfl⟩
  | close => exact ⟨rfl, edited_close s⟩
  | _ => cases hu

/-- Every update is made of moves or edits contents, whether it succeeds or fails. -/
theorem after_cases (hs : s.Wired) (u : Update) :
    s.Trace 0 (s.pathsGiven u) (s.after u) ∨ s.pathsGiven u = [] ∧ s.Edited (s.after u) := by
  cases hu : u.isStructural with
  | true => exact Or.inl (trace_after hs hu)
  | false => exact Or.inr (edited_after hu)

end

/-- Runs of updates from a store, with the paths given out on the way. -/
inductive Run (s : Store) : List SiblingPath → Store → Prop
  | refl : Run s [] s
  | update {paths : List SiblingPath} {s' : Store} (u : Update) : Run s paths s' →
      Run s (paths ++ s'.pathsGiven u) (s'.after u)

section
variable {s s' : Store} {o : StoreOptions} {ids : IdSource} {paths : List SiblingPath}

theorem Run.consistent (h : s.Run paths s') (hs : s.Consistent) : s'.Consistent := by
  induction h with
  | refl => exact hs
  | update u _ ih =>
    rcases after_cases ih.toWired u with htrace | ⟨-, he⟩
    · exact (Trace.steps htrace).consistent ih
    · exact he.consistent ih

theorem Run.options (h : s.Run paths s') (hs : s.Consistent) : s'.options = s.options := by
  induction h with
  | refl => rfl
  | update u hrun ih =>
    rcases after_cases (hrun.consistent hs).toWired u with htrace | ⟨-, he⟩
    · exact (Trace.steps htrace).options.trans ih
    · exact he.options.trans ih

theorem Run.ids_eq (h : s.Run paths s') (hs : s.Consistent) : s'.ids = s.ids := by
  induction h with
  | refl => rfl
  | update u hrun ih =>
    rcases after_cases (hrun.consistent hs).toWired u with htrace | ⟨-, he⟩
    · exact (Trace.steps htrace).ids.trans ih
    · exact he.ids.trans ih

theorem Run.consistent_new (h : (Store.new o ids).Run paths s) : s.Consistent :=
  h.consistent (Store.consistent_new o ids)

theorem Run.options_new (h : (Store.new o ids).Run paths s) : s.options = o :=
  h.options (Store.consistent_new o ids)

theorem Run.ids_new (h : (Store.new o ids).Run paths s) : s.ids = ids :=
  h.ids_eq (Store.consistent_new o ids)

end

/-- Models below some slot stay, and only their children and their counter may change. -/
def Keeps (k : Handle) (s s' : Store) : Prop :=
  ∀ x m, x < k → s.get? x = some m → ∃ m', s'.get? x = some m' ∧ m.SameContent m'

section
variable {s s' : Store} {k : Handle}

theorem Step.keeps (hs : s.Consistent) (h : s.Step k s') : s.Keeps k s' := by
  intro x m hx hm
  cases h with
  | place hp => exact ⟨_, hp.get?_of_get? hm, Placed.sameContent rfl⟩
  | @remove h _ _ hk hr =>
    have hgone : x ∉ h :: s.descendants h := by
      rw [List.mem_cons, hs.mem_descendants_iff, not_or]
      refine ⟨(hx.trans_le hk).ne, fun habove => ?_⟩
      exact lt_asymm (hs.lt_of_above habove) (hx.trans_le hk)
    exact ⟨_, hr.get?_of_get? hm hgone, Removed.sameContent rfl⟩

theorem Steps.keeps (hs : s.Consistent) (h : s.Steps k s') : s.Keeps k s' := by
  induction h with
  | refl => exact fun x m _ hm => ⟨m, hm, Model.SameContent.refl m⟩
  | tail hsteps h ih =>
    intro x m hx hm
    obtain ⟨m₁, hm₁, hsame₁⟩ := ih x m hx hm
    obtain ⟨m₂, hm₂, hsame₂⟩ := h.keeps (Steps.consistent hs hsteps) x m₁ hx hm₁
    exact ⟨m₂, hm₂, hsame₁.trans hsame₂⟩

end

end Store

end Grove
