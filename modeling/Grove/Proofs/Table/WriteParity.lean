import Mathlib.Data.List.Forall2
import Mathlib.Tactic
import Grove.Engine.Backend
import Grove.Proofs.Forest.Rollback
import Grove.Proofs.Table.Correspondence
/-!
# Writing to a store and to a table

Calls that append drafts and remove models keep a store and a table in correspondence, whether they succeed
or fail, and both answer alike, also where a sibling counter overflows. This needs sibling indices that start
above zero, and an arena that is not full: from there on the store refuses what the table takes. The slots
suffice for calls that describe fewer models than there are words of 32 bits.
-/

set_option autoImplicit false

namespace Grove

inductive Call where
  | append (target : Option String) (drafts : List Draft)
  | remove (uid : String)

inductive Reply where
  | appended (skeletons : List Skeleton)
  | removed (uids : List String)
  deriving DecidableEq

namespace Backend

section
variable {σ : Type} [Backend σ]

/-- The reply to a call, and the backend after it. -/
def perform (backend : σ) : Call → Except (Failure EngineError) Reply × σ
  | .append target drafts =>
    ((append backend target drafts).1.map Reply.appended, (append backend target drafts).2)
  | .remove uid =>
    (((remove backend uid).1.mapError Failure.refused).map Reply.removed, (remove backend uid).2)

def afterCalls (backend : σ) (calls : List Call) : σ :=
  calls.foldl (fun backend call => (perform backend call).2) backend

theorem afterCalls_append (backend : σ) (calls rest : List Call) :
    afterCalls backend (calls ++ rest) = afterCalls (afterCalls backend calls) rest :=
  List.foldl_append

end

end Backend

def described : List Call → ℕ
  | [] => 0
  | .append _ drafts :: rest => Draft.sizeAll drafts + described rest
  | .remove _ :: rest => described rest

theorem described_cons (call : Call) (rest : List Call) :
    described (call :: rest) = described [call] + described rest := by
  cases call with
  | append => rfl
  | remove => exact (Nat.zero_add _).symm

namespace Store

/-- None of some calls is refused because all slots are filled. -/
def Serves (s : Store) : List Call → Prop
  | [] => True
  | call :: rest => (Backend.perform s call).1 ≠ .error (.refused (.store .capacityExceeded)) ∧
      Serves (Backend.perform s call).2 rest

section
variable {s : Store} {calls : List Call} {call : Call}

theorem serves_concat (h : s.Serves (calls ++ [call])) : s.Serves calls ∧
    (Backend.perform (Backend.afterCalls s calls) call).1 ≠ .error (.refused (.store .capacityExceeded)) := by
  induction calls generalizing s with
  | nil => exact ⟨trivial, h.1⟩
  | cons c rest ih =>
    obtain ⟨hrest, hlast⟩ := ih h.2
    exact ⟨⟨h.1, hrest⟩, hlast⟩

theorem appendBelow_of_target? {target : Option String} {parent : Option Handle}
    (h : s.target? target = .ok parent) (drafts : List Draft) :
    (s.appendBelow target drafts).2 = (s.appendAll parent drafts).2 := by
  unfold appendBelow
  rw [h]
  dsimp only
  generalize s.appendAll parent drafts = outcome
  obtain ⟨result, s'⟩ := outcome
  cases result <;> rfl

theorem appendBelow_of_target?_error {target : Option String} {e : EngineError}
    (h : s.target? target = .error e) (drafts : List Draft) :
    s.appendBelow target drafts = (.error (.refused e), s) := by
  unfold appendBelow
  rw [h]

theorem removeBelow_of_lookup? {uid : String} {x : Handle} (h : s.lookup? uid = some x) :
    (s.removeBelow uid).2 = (s.remove x).2 := by
  unfold removeBelow
  rw [h]
  dsimp only
  generalize s.remove x = outcome
  obtain ⟨result, s'⟩ := outcome
  cases result <;> rfl

theorem removeBelow_of_lookup?_none {uid : String} (h : s.lookup? uid = none) :
    s.removeBelow uid = (.error (.unknownTarget uid), s) := by
  unfold removeBelow
  rw [h]

theorem perform_steps (hs : s.Consistent) (call : Call) : s.Steps 0 (Backend.perform s call).2 := by
  cases call with
  | append target drafts =>
    change s.Steps 0 (s.appendBelow target drafts).2
    cases htarget : s.target? target with
    | error e =>
      rw [appendBelow_of_target?_error htarget]
      exact Steps.refl
    | ok parent =>
      rw [appendBelow_of_target? htarget]
      exact appendAll_steps hs (Nat.zero_le _)
  | remove uid =>
    change s.Steps 0 (s.removeBelow uid).2
    cases hlookup : s.lookup? uid with
    | none =>
      rw [removeBelow_of_lookup?_none hlookup]
      exact Steps.refl
    | some h =>
      rw [removeBelow_of_lookup? hlookup]
      exact remove_steps hs (Nat.zero_le _)

theorem afterCalls_steps (hs : s.Consistent) (calls : List Call) : s.Steps 0 (Backend.afterCalls s calls) := by
  induction calls generalizing s with
  | nil => exact Steps.refl
  | cons call rest ih =>
    have hfirst := perform_steps hs call
    exact Relation.ReflTransGen.trans hfirst (ih (hfirst.consistent hs))

end

end Store

/-- Skeletons of one model: the classes are the same, each at its first place. -/
structure Skeleton.Alike (a b : Skeleton) : Prop where
  uid : a.uid = b.uid
  tag : a.tag = b.tag
  left : a.left = b.left
  right : a.right = b.right
  classes : ClassSet.ofList a.classes = ClassSet.ofList b.classes

/-- What a store and a table reply to one call. The store wraps the errors of its updates. -/
inductive Reply.Agree : Except (Failure EngineError) Reply → Except (Failure EngineError) Reply → Prop
  | appended {as bs : List Skeleton} : List.Forall₂ Skeleton.Alike as bs →
      Agree (.ok (.appended as)) (.ok (.appended bs))
  | removed {as bs : List String} : as.Perm bs → Agree (.ok (.removed as)) (.ok (.removed bs))
  | encode (cause : EncodeError) :
      Agree (.error (.refused (.store (.encode cause)))) (.error (.refused (.encode cause)))
  | unknownTarget (uid : String) :
      Agree (.error (.refused (.unknownTarget uid))) (.error (.refused (.unknownTarget uid)))
  | overflow : Agree (.error .overflow) (.error .overflow)

theorem Skeleton.Alike.refl (a : Skeleton) : a.Alike a := ⟨rfl, rfl, rfl, rfl, rfl⟩

theorem Model.Recorded.alike {m : Model} {parent : Option String} {r : Record} (h : m.Recorded parent r) :
    m.skeleton.Alike r.skeleton := by
  unfold Model.skeleton Record.skeleton
  rw [h.span]
  exact ⟨h.uid.symm, h.tag.symm, rfl, rfl, (ClassSet.ofList_names m.classes).trans h.classes⟩

/-- Two outcomes of an append: both succeed, or both fail with one encoding error or with an overflow. -/
inductive Matched {α β : Type} (agree : α → β → Prop) :
    Except (Failure StoreError) α → Except (Failure EngineError) β → Prop
  | ok {a : α} {b : β} : agree a b → Matched agree (.ok a) (.ok b)
  | encode (cause : EncodeError) :
      Matched agree (.error (.refused (.encode cause))) (.error (.refused (.encode cause)))
  | overflow : Matched agree (.error .overflow) (.error .overflow)

/-- A handle of a live model with a skeleton. -/
def Store.Shows (s : Store) (h : Handle) (skeleton : Skeleton) : Prop :=
  ∃ m, s.get? h = some m ∧ m.skeleton.Alike skeleton

theorem Store.Shows.lt_size {s : Store} {h : Handle} {skeleton : Skeleton} (hshows : s.Shows h skeleton) :
    h < s.slots.size := by
  obtain ⟨m, hm, -⟩ := hshows
  exact lt_size_of_get? hm

theorem Store.Keeps.shows {s s' : Store} {k h : Handle} {skeleton : Skeleton} (hkeeps : s.Keeps k s')
    (hk : h < k) (hshows : s.Shows h skeleton) : s'.Shows h skeleton := by
  obtain ⟨m, hm, halike⟩ := hshows
  obtain ⟨m', hm', hsame⟩ := hkeeps h m hk hm
  exact ⟨m', hm', hsame.skeleton ▸ halike⟩

theorem Store.Keeps.owns {s s' : Store} {k : Handle} {parent : Option Handle} {owner : Option Owner}
    (hkeeps : s.Keeps k s') (hk : s.slots.size ≤ k) (how : s.Owns parent owner) : s'.Owns parent owner := by
  cases how with
  | none => exact Option.Rel.none
  | some hown =>
    obtain ⟨m, hm, huid, hpath⟩ := hown
    obtain ⟨m', hm', hsame⟩ := hkeeps _ m ((Store.lt_size_of_get? hm).trans_le hk) hm
    exact Option.Rel.some ⟨m', hm', huid.trans hsame.uid.symm, hpath.trans hsame.path.symm⟩

namespace Mirrors

mutual

/-- Both take a draft, or both refuse it and take it back, or both stop at an overflow; or the store has no slot
left. -/
theorem append {s : Store} {t : Table} {parent : Option Handle} {owner : Option Owner} (d : Draft)
    (hm : Mirrors s t) (how : s.Owns parent owner) :
    (s.append parent d).1 = .error (.refused .capacityExceeded) ∨
      Mirrors (s.append parent d).2 (t.append owner d).2 ∧
        Matched (s.append parent d).2.Shows (s.append parent d).1 (t.append owner d).1 := by
  have htaken : ∀ h₁ s₁, s.appendOne parent d.tag d.id d.classes d.attrs = .ok (h₁, s₁) →
      (s₁.appendChildren h₁ d.children).1 = .error (.refused .capacityExceeded) →
      (s.append parent d).1 = .error (.refused .capacityExceeded) := fun _ _ happ hbelow =>
    Store.refusal_eq_some_iff.1
      (Store.restored_append hm.consistent.toWired happ (Store.refusal_eq_some_iff.2 hbelow)).1
  obtain ⟨tag, id, classes, attrs, children⟩ := d
  rcases hm.appendOne how tag id classes attrs with
    ⟨e, hs, ht⟩ | ⟨hs, ht⟩ | ⟨hs, -⟩ | ⟨s₁, m, r, t₁, hs, ht, hp, hrec, hm₁⟩
  · unfold Store.append Table.append
    rw [hs, ht]
    exact Or.inr ⟨hm, Matched.encode e⟩
  · unfold Store.append Table.append
    rw [hs, ht]
    exact Or.inr ⟨hm, Matched.overflow⟩
  · unfold Store.append
    rw [hs]
    exact Or.inl rfl
  · obtain ⟨m₁, hget, hrecorded⟩ := hrec
    have how₁ : s₁.Owns (some s.slots.size) (some ⟨r.uid, r.path⟩) :=
      Option.Rel.some ⟨m₁, hget, hrecorded.uid, hrecorded.path⟩
    rcases appendChildren children hm₁ how₁ with hfull | ⟨hm₂, hmatch⟩
    · exact Or.inl (htaken _ _ hs hfull)
    refine Or.inr ?_
    -- the children leave the new model in its place
    have hsteps : s₁.Steps s₁.slots.size (s₁.appendChildren s.slots.size children).2 :=
      Store.appendChildren_steps hm₁.consistent (Nat.le_refl _)
    obtain ⟨m₂, hget₂, hsame⟩ := hsteps.keeps hm₁.consistent _ m₁ (Store.lt_size_of_get? hget) hget
    unfold Store.append Table.append
    rw [hs, ht]
    dsimp only
    generalize s₁.appendChildren s.slots.size children = atStore at *
    generalize t₁.appendChildren ⟨r.uid, r.path⟩ children = atTable at *
    obtain ⟨rs, s₂⟩ := atStore
    obtain ⟨rt, t₂⟩ := atTable
    cases hmatch with
    | ok _ => exact ⟨hm₂, Matched.ok ⟨m₂, hget₂, hsame.skeleton ▸ hrecorded.alike⟩⟩
    | overflow => exact ⟨hm₂, Matched.overflow⟩
    | encode e =>
      obtain ⟨uids, s₃, uids', t₃, hs₃, ht₃, -, hm₃⟩ := hm₂.remove hget₂
      rw [hsame.uid, ← hrecorded.uid] at ht₃
      dsimp only
      rw [hs₃, ht₃]
      exact ⟨hm₃, Matched.encode e⟩

theorem appendChildren {s : Store} {t : Table} {h : Handle} {owner : Owner} (drafts : List Draft)
    (hm : Mirrors s t) (how : s.Owns (some h) (some owner)) :
    (s.appendChildren h drafts).1 = .error (.refused .capacityExceeded) ∨
      Mirrors (s.appendChildren h drafts).2 (t.appendChildren owner drafts).2 ∧
        Matched (fun _ _ => True) (s.appendChildren h drafts).1 (t.appendChildren owner drafts).1 := by
  cases drafts with
  | nil =>
    unfold Store.appendChildren Table.appendChildren
    exact Or.inr ⟨hm, Matched.ok trivial⟩
  | cons d rest =>
    have hfirst := append d hm how
    have hsteps : s.Steps s.slots.size (s.append (some h) d).2 :=
      Store.append_steps hm.consistent (Nat.le_refl _)
    have how₁ := (hsteps.keeps hm.consistent).owns (Nat.le_refl _) how
    unfold Store.appendChildren Table.appendChildren
    cases hs : s.append (some h) d with
    | mk rs s₁ =>
      cases ht : t.append (some owner) d with
      | mk rt t₁ =>
        rw [hs, ht] at hfirst
        rw [hs] at how₁
        rcases hfirst with hfull | ⟨hm₁, hmatch⟩
        · obtain rfl : rs = .error (.refused .capacityExceeded) := hfull
          exact Or.inl rfl
        · cases hmatch with
          | ok _ => exact appendChildren rest hm₁ how₁
          | encode e => exact Or.inr ⟨hm₁, Matched.encode e⟩
          | overflow => exact Or.inr ⟨hm₁, Matched.overflow⟩

end

theorem appendAll {s : Store} {t : Table} {parent : Option Handle} {owner : Option Owner}
    {drafts : List Draft} (hm : Mirrors s t) (how : s.Owns parent owner) :
    (s.appendAll parent drafts).1 = .error (.refused .capacityExceeded) ∨
      Mirrors (s.appendAll parent drafts).2 (t.appendAll owner drafts).2 ∧
        Matched (List.Forall₂ (s.appendAll parent drafts).2.Shows) (s.appendAll parent drafts).1
          (t.appendAll owner drafts).1 := by
  induction drafts generalizing s t with
  | nil => exact Or.inr ⟨hm, Matched.ok List.Forall₂.nil⟩
  | cons d rest ih =>
    have hfirst := hm.append d how
    have hsteps : s.Steps s.slots.size (s.append parent d).2 :=
      Store.append_steps hm.consistent (Nat.le_refl _)
    have how₁ := (hsteps.keeps hm.consistent).owns (Nat.le_refl _) how
    unfold Store.appendAll Table.appendAll
    cases hs : s.append parent d with
    | mk rs s₁ =>
      cases ht : t.append owner d with
      | mk rt t₁ =>
        rw [hs, ht] at hfirst
        rw [hs] at how₁
        rcases hfirst with hfull | ⟨hm₁, hmatch⟩
        · obtain rfl : rs = .error (.refused .capacityExceeded) := hfull
          exact Or.inl rfl
        cases hmatch with
        | encode e => exact Or.inr ⟨hm₁, Matched.encode e⟩
        | overflow => exact Or.inr ⟨hm₁, Matched.overflow⟩
        | @ok h skeleton hshows =>
          have hall := ih hm₁ how₁
          -- the drafts that follow leave the model of this one in its place
          have hsteps₁ : s₁.Steps s₁.slots.size (s₁.appendAll parent rest).2 :=
            Store.appendAll_steps hm₁.consistent (Nat.le_refl _)
          have hshows₂ := (hsteps₁.keeps hm₁.consistent).shows hshows.lt_size hshows
          dsimp only
          generalize s₁.appendAll parent rest = atStore at *
          generalize t₁.appendAll owner rest = atTable at *
          obtain ⟨rs₂, s₂⟩ := atStore
          obtain ⟨rt₂, t₂⟩ := atTable
          rcases hall with hfull | ⟨hm₂, hmatch₂⟩
          · obtain rfl : rs₂ = .error (.refused .capacityExceeded) := hfull
            exact Or.inl rfl
          cases hmatch₂ with
          | encode e => exact Or.inr ⟨hm₂, Matched.encode e⟩
          | overflow => exact Or.inr ⟨hm₂, Matched.overflow⟩
          | ok hall => exact Or.inr ⟨hm₂, Matched.ok (List.Forall₂.cons hshows₂ hall)⟩

end Mirrors

theorem Store.forall₂_skeletons {α : Type} {r : Skeleton → α → Prop} {s : Store} {handles : List Handle}
    {others : List α} (h : List.Forall₂ (fun x other => ∃ m, s.get? x = some m ∧ r m.skeleton other)
      handles others) : List.Forall₂ r (handles.filterMap s.skeleton?) others := by
  induction h with
  | nil => exact List.Forall₂.nil
  | @cons x _ _ _ hr _ ih =>
    obtain ⟨m, hm, hr⟩ := hr
    rw [List.filterMap_cons_some (skeleton?_of_get? hm)]
    exact List.Forall₂.cons hr ih

namespace Mirrors

section
variable {s : Store} {t : Table}

theorem target (hm : Mirrors s t) (target : Option String) :
    (∃ uid, s.target? target = .error (.unknownTarget uid) ∧
      t.owner? target = .error (.unknownTarget uid)) ∨
    ∃ parent owner, s.target? target = .ok parent ∧ t.owner? target = .ok owner ∧
      s.Owns parent owner := by
  cases target with
  | none => exact Or.inr ⟨none, none, rfl, rfl, Option.Rel.none⟩
  | some uid =>
    unfold Store.target? Table.owner?
    dsimp only
    rcases hm.lookup_cases uid with ⟨hs, ht⟩ | ⟨h, m, r, hs, hget, huid, ht, m', hm', hrec⟩
    · rw [hs, ht]
      exact Or.inl ⟨uid, rfl, rfl⟩
    · rw [hs, ht]
      exact Or.inr ⟨_, _, rfl, rfl, Option.Rel.some ⟨m', hm', hrec.uid, hrec.path⟩⟩

theorem perform_append (hm : Mirrors s t) {target : Option String} {drafts : List Draft} :
    (s.appendBelow target drafts).1 = .error (.refused (.store .capacityExceeded)) ∨
      Mirrors (s.appendBelow target drafts).2 (t.appendBelow target drafts).2 ∧
        Reply.Agree ((s.appendBelow target drafts).1.map .appended)
          ((t.appendBelow target drafts).1.map .appended) := by
  unfold Store.appendBelow Table.appendBelow
  rcases hm.target target with ⟨uid, hs, ht⟩ | ⟨parent, owner, hs, ht, how⟩
  · rw [hs, ht]
    exact Or.inr ⟨hm, Reply.Agree.unknownTarget uid⟩
  · rw [hs, ht]
    dsimp only
    have hall : _ ∨ Mirrors (s.appendAll parent drafts).2 (t.appendAll owner drafts).2 ∧ _ := hm.appendAll how
    generalize s.appendAll parent drafts = atStore at *
    generalize t.appendAll owner drafts = atTable at *
    obtain ⟨rs, s₁⟩ := atStore
    obtain ⟨rt, t₁⟩ := atTable
    rcases hall with hfull | ⟨hm₁, hmatch⟩
    · obtain rfl : rs = .error (.refused .capacityExceeded) := hfull
      exact Or.inl rfl
    cases hmatch with
    | encode e => exact Or.inr ⟨hm₁, Reply.Agree.encode e⟩
    | overflow => exact Or.inr ⟨hm₁, Reply.Agree.overflow⟩
    | ok hall => exact Or.inr ⟨hm₁, Reply.Agree.appended (Store.forall₂_skeletons hall)⟩

theorem perform_remove (hm : Mirrors s t) (uid : String) :
    Mirrors (s.removeBelow uid).2 (t.remove uid).2 ∧
      Reply.Agree (((s.removeBelow uid).1.mapError .refused).map .removed)
        (((t.remove uid).1.mapError .refused).map .removed) := by
  rcases hm.lookup_cases uid with ⟨hs, ht⟩ | ⟨h, m, -, hs, hget, rfl, -, -⟩
  · unfold Store.removeBelow Table.remove
    rw [hs, ht]
    exact ⟨hm, Reply.Agree.unknownTarget uid⟩
  · obtain ⟨uids, s', uids', t', hs', ht', hperm, hm'⟩ := hm.remove hget
    unfold Store.removeBelow
    rw [hs, ht']
    dsimp only
    rw [hs']
    exact ⟨hm', Reply.Agree.removed hperm⟩

theorem perform (hm : Mirrors s t) (call : Call) :
    (Backend.perform s call).1 = .error (.refused (.store .capacityExceeded)) ∨
      Mirrors (Backend.perform s call).2 (Backend.perform t call).2 ∧
        Reply.Agree (Backend.perform s call).1 (Backend.perform t call).1 := by
  cases call with
  | append target drafts =>
    rcases hm.perform_append with hfull | hboth
    · exact Or.inl (congrArg (Except.map Reply.appended) hfull)
    · exact Or.inr hboth
  | remove uid => exact Or.inr (hm.perform_remove uid)

theorem afterCalls (hm : Mirrors s t) {calls : List Call} (hserves : s.Serves calls) :
    Mirrors (Backend.afterCalls s calls) (Backend.afterCalls t calls) := by
  induction calls generalizing s t with
  | nil => exact hm
  | cons call rest ih => exact ih ((hm.perform call).resolve_left hserves.1).1 hserves.2

end

end Mirrors

end Grove
