import Mathlib.Data.List.Forall2
import Mathlib.Tactic
import Grove.Proofs.Engine.Lockstep
import Grove.Proofs.Forest.History
import Grove.Proofs.Forest.Matching
import Grove.Proofs.Table.Conditions
import Grove.Proofs.Table.WriteParity
/-!
# Reading from a store and from a table

A store follows its links and sorts by exact values; a table compares digits with those of the context and
sorts by digits. After the same calls both find the same models in the same order, for selectors that do
not ask for the table's own columns and for contexts handed out at any time before.
-/

set_option autoImplicit false

namespace Grove

/-- A phase that reads the same in a store and in a table: a table takes a star as a tag literally, and
some fields for its columns. -/
def Phase.Portable (p : Phase) : Prop :=
  p.tag ≠ some "*" ∧ ∀ test ∈ p.tests, ∀ c : Column, test.field ≠ c.field

def Selector.Portable (selector : Selector) : Prop :=
  ∀ leg ∈ selector.legs, ∀ phase ∈ leg.phases, phase.Portable

section
variable {m : Model} {r : Record} {parent : Option String} {phase : Phase}

theorem Model.Recorded.sameData (h : m.Recorded parent r) : m.SameData r where
  uid := h.uid
  tag := h.tag
  id := h.id
  classes name := by rw [h.classes, ClassSet.mem_ofList]
  attrs := h.attrs

/-- The compiled conditions hold of a record when the phase is satisfied by its model. -/
theorem Model.Recorded.searchOf_eq (h : m.Recorded parent r) (hphase : phase.Portable) :
    (Query.searchOf phase).all r.satisfies = m.satisfies phase := by
  have hreserved : (phase.tests.filter Predicate.isReserved).all r.satisfies = true :=
    r.satisfies_reserved.2 fun test htest c hc => absurd hc (hphase.2 test htest c)
  rw [h.sameData.all_searchOf hphase.1, Phase.unreserved_eq hphase.2, hreserved, Bool.and_true]

end

/-- A skeleton of a model that has been placed at some time. -/
def Store.Remembers (s : Store) (skeleton : Skeleton) : Prop :=
  ∃ h₀ m₀, s.Issued h₀ m₀ ∧ skeleton.uid = m₀.uid ∧ skeleton.left = .text m₀.span.left.encoding ∧
    skeleton.right = .text m₀.span.right.encoding

section
variable {s : Store} {t : Table} {h h₀ : Handle} {m m₀ : Model} {r : Record} {skeleton : Skeleton}

theorem Store.Consistent.remembers (hs : s.Consistent) (hids : Function.Injective s.ids.draw)
    (hm : s.get? h = some m) : s.Remembers m.skeleton := ⟨h, m, hs.issued hids hm, rfl, rfl, rfl⟩

theorem Store.Issued.lookup?_eq_some_iff (hi : s.Issued h₀ m₀) (hs : s.Consistent) :
    s.lookup? m₀.uid = some h ↔ h = h₀ ∧ ∃ m, s.get? h₀ = some m := by
  rw [hs.lookup]
  constructor
  · rintro ⟨m, hm, huid⟩
    have heq := hi.uid_own hm huid
    subst heq
    exact ⟨rfl, m, hm⟩
  · rintro ⟨rfl, m, hm⟩
    exact ⟨m, hm, (hi.same hm).uid⟩

theorem compare_text_eq_lt_iff {a b : String} : compare a b = .lt ↔ a < b := by
  change compareOfLessAndEq a b = .lt ↔ a < b
  exact compareOfLessAndEq_eq_lt

theorem compare_text_eq_gt_iff {a b : String} : compare a b = .gt ↔ b < a := by
  change compareOfLessAndEq a b = .gt ↔ b < a
  unfold compareOfLessAndEq
  split
  · next h => simp [String.lt_asymm h]
  · next h =>
    split
    · next heq => simp [heq]
    · next hne => simpa using mt (String.le_antisymm (String.not_lt.1 h)) (Ne.symm hne)

theorem Record.satisfies_greater (r : Record) (encoding : String) :
    r.satisfies ⟨Column.left.field, .greater, .text encoding⟩ = true ↔ encoding < r.left.encoding := by
  rw [Record.satisfies_column]
  unfold columnSatisfies positionSatisfies orderWith
  dsimp only
  rw [beq_iff_eq, compare_text_eq_gt_iff]

theorem Record.satisfies_less (r : Record) (encoding : String) :
    r.satisfies ⟨Column.right.field, .less, .text encoding⟩ = true ↔ r.right.encoding < encoding := by
  rw [Record.satisfies_column]
  unfold columnSatisfies positionSatisfies orderWith
  dsimp only
  rw [beq_iff_eq, compare_text_eq_lt_iff]

theorem Record.satisfies_parent (r : Record) (uid : String) :
    r.satisfies (Column.parent.equals uid) = true ↔ r.parent = some uid := by
  rw [Record.satisfies_equals]
  unfold columnSatisfies
  cases r.parent with
  | none => simp
  | some p => simp [Record.textSatisfies_equals]

theorem Store.Issued.parent_iff (hi : s.Issued h₀ m₀) (hs : s.Consistent) (hm : s.get? h = some m)
    (hr : m.Recorded (s.parentUid? h) r) : r.parent = some m₀.uid ↔ s.IsParent h₀ h := by
  rw [hr.parent, Store.parentUid?_of_get? hm, Store.isParent_iff, Option.bind_eq_some_iff]
  constructor
  · rintro ⟨p, hp, huid⟩
    obtain ⟨owner, howner, huid⟩ := Option.map_eq_some_iff.1 huid
    rw [hi.uid_own howner huid] at hp
    exact ⟨m, hm, hp⟩
  · rintro ⟨m', hm', hp⟩
    rw [hm] at hm'
    cases hm'
    obtain ⟨owner, howner⟩ := hs.parent_live hm hp
    exact ⟨h₀, hp, by rw [howner, Option.map_some, (hi.same howner).uid]⟩

theorem Store.Issued.groupOf_iff (hi : s.Issued h₀ m₀) (hs : s.Consistent)
    (hfirst : 1 ≤ s.options.firstChildIndex) (huid : skeleton.uid = m₀.uid)
    (hleft : skeleton.left = .text m₀.span.left.encoding)
    (hright : skeleton.right = .text m₀.span.right.encoding) (hr : s.Records h r)
    (combinator : Combinator) :
    (Query.groupOf combinator skeleton).all r.satisfies = true ↔
      s.Leads (.models [h₀]) combinator h := by
  obtain ⟨m, hm, hrec⟩ := hr
  have hcontains : (r.satisfies ⟨Column.left.field, .greater, skeleton.left⟩ = true ∧
      r.satisfies ⟨Column.right.field, .less, skeleton.right⟩ = true) ↔ s.Above h₀ h := by
    rw [← hi.containsEncoded_iff hs hfirst hm, ← hrec.span, Span.containsEncoded_iff, hleft, hright,
      Record.satisfies_greater, Record.satisfies_less]
    rfl
  unfold Query.groupOf Store.Leads
  rw [List.all_append, Bool.and_eq_true_iff]
  cases combinator with
  | descendant =>
    simp only [List.all_cons, List.all_nil, Bool.and_true, Bool.and_eq_true_iff, hcontains, and_true,
      List.mem_singleton, exists_eq_left]
  | child =>
    simp only [List.all_cons, List.all_nil, Bool.and_true, Bool.and_eq_true_iff, hcontains,
      List.mem_singleton, exists_eq_left, huid, Record.satisfies_parent, hi.parent_iff hs hm hrec]
    exact ⟨And.right, fun h => ⟨Relation.TransGen.single h, h⟩⟩

theorem Store.leads_cons {p : Handle} {handles : List Handle} {combinator : Combinator} :
    s.Leads (.models (p :: handles)) combinator h ↔
      s.Leads (.models [p]) combinator h ∨ s.Leads (.models handles) combinator h := by
  cases combinator with
  | descendant => simp [Leads]
  | child => simp [Leads]

theorem Store.Consistent.live_of_leads (hs : s.Consistent) {p : Handle} {combinator : Combinator}
    (hleads : s.Leads (.models [p]) combinator h) : ∃ m, s.get? p = some m := by
  cases combinator with
  | descendant =>
    obtain ⟨q, hq, habove⟩ := hleads
    rw [List.mem_singleton.1 hq] at habove
    exact hs.live_left habove
  | child =>
    obtain ⟨q, hq, hparent⟩ := hleads
    rw [List.mem_singleton.1 hq] at hparent
    exact hs.live_left (Relation.TransGen.single hparent)

/-- Contexts that both sides use for one another: of one model each, placed at some time. -/
def Store.Shares (s : Store) (a b : Skeleton) : Prop := s.Remembers a ∧ a.Alike b

variable {context context' : List Skeleton}

/-- The groups of a context hold where its live models lead. -/
theorem Mirrors.groups_iff (hm : Mirrors s t) (hctx : List.Forall₂ s.Shares context context')
    (hr : s.Records h r) (combinator : Combinator) :
    (context'.map (Query.groupOf combinator)).any (fun group => group.all r.satisfies) = true ↔
      s.Leads (.models (context.filterMap fun a => s.lookup? a.uid)) combinator h := by
  have hs := hm.consistent
  induction hctx with
  | nil => cases combinator <;> simp [Store.Leads]
  | @cons a b as bs hab _ ih =>
    obtain ⟨⟨h₀, m₀, hi, huid, hleft, hright⟩, halike⟩ := hab
    have hgroup := hi.groupOf_iff hs hm.first (halike.uid.symm.trans huid) (halike.left.symm.trans hleft)
      (halike.right.symm.trans hright) hr combinator
    rw [List.map_cons, List.any_cons, Bool.or_eq_true, List.filterMap_cons]
    refine (or_congr hgroup ih).trans ?_
    cases hlook : s.lookup? a.uid with
    | some p =>
      rw [huid] at hlook
      obtain ⟨rfl, -⟩ := (hi.lookup?_eq_some_iff hs).1 hlook
      rw [← huid] at hlook
      exact Store.leads_cons.symm
    | none =>
      refine or_iff_right fun hleads => ?_
      have hlive := (hi.lookup?_eq_some_iff hs).2 ⟨rfl, hs.live_of_leads hleads⟩
      rw [← huid, hlook] at hlive
      cases hlive

theorem Mirrors.isNone_parent_iff (hm : Mirrors s t) (hr : s.Records h r) :
    r.parent.isNone = true ↔ s.parent? h = none := by
  obtain ⟨m, hget, hrec⟩ := hr
  rw [hrec.parent, Store.parentUid?_of_get? hget, Store.parent?_of_get? hget]
  cases hp : m.parent with
  | none => simp
  | some p =>
    obtain ⟨owner, howner⟩ := hm.consistent.parent_live hget hp
    simp [howner]

theorem Mirrors.reach_iff (hm : Mirrors s t) (hctx : List.Forall₂ s.Shares context context')
    (hr : s.Records h r) (phase : Phase) (combinator : Combinator) :
    (Table.inReach ⟨phase, combinator, context'⟩ r &&
      (!(Query.ofStep phase combinator context').isScoped ||
        (Query.ofStep phase combinator context').groups.any (fun group => group.all r.satisfies))) = true ↔
      s.Leads (s.scopeOf ⟨phase, combinator, context⟩) combinator h := by
  have hgroups := hm.groups_iff hctx hr combinator
  unfold Table.inReach Query.ofStep Query.isScoped Store.scopeOf
  cases hctx with
  | nil =>
    cases combinator with
    | descendant => simp [Store.Leads]
    | child => simpa [Store.Leads] using hm.isNone_parent_iff hr
  | cons _ _ => simpa using hgroups

end

section
variable {s : Store} {t : Table} {a b : Handle} {ra rb : Record}

theorem Store.Consistent.record_order_of_lt (hs : s.Consistent) (hfirst : 1 ≤ s.options.firstChildIndex)
    (ha : s.Records a ra) (hb : s.Records b rb) (hlt : s.pathTo (some a) < s.pathTo (some b)) :
    Table.documentOrder ra rb = .lt ∧ Table.documentOrder rb ra = .gt := by
  obtain ⟨ma, hma, hra⟩ := ha
  obtain ⟨mb, hmb, hrb⟩ := hb
  have henc : ra.left.encoding < rb.left.encoding := by
    change ra.span.left.encoding < rb.span.left.encoding
    rw [hra.span, hrb.span]
    exact hs.encoding_lt_of_pathTo_lt hfirst hma hmb hlt
  unfold Table.documentOrder
  rw [compare_text_eq_lt_iff.2 henc, compare_text_eq_gt_iff.2 henc]
  exact ⟨rfl, rfl⟩

theorem Store.Consistent.record_order_self (hs : s.Consistent) (ha : s.Records a ra)
    (hb : s.Records a rb) : Table.documentOrder ra rb = .eq := by
  obtain ⟨m, hm, hra⟩ := ha
  obtain ⟨m', hm', hrb⟩ := hb
  rw [hm] at hm'
  cases hm'
  have hleft : ra.left = rb.left := congrArg Span.left (hra.span.trans hrb.span.symm)
  have hr : Position.Rendered s.options.format rb.left := by
    change Position.Rendered s.options.format rb.span.left
    rw [hrb.span]
    exact (hs.rendered hm).left
  unfold Table.documentOrder
  rw [hleft, hra.path, hrb.path, hr.order_eq hr]
  simp

theorem Mirrors.record_order (hm : Mirrors s t) (ha : s.Records a ra) (hb : s.Records b rb) :
    (Table.documentOrder ra rb).isLE = s.pathLE a b := by
  have hs := hm.consistent
  obtain ⟨ma, hma, -⟩ := id ha
  obtain ⟨mb, hmb, -⟩ := id hb
  refine hs.isLE_eq_pathLE hma hmb (fun h => (hs.record_order_of_lt hm.first ha hb h).1)
    (fun h => (hs.record_order_of_lt hm.first hb ha h).2) ?_
  rintro rfl
  exact hs.record_order_self ha hb

theorem forall₂_mergeSort {α β : Type} {r : α → β → Prop} {as : List α} {bs : List β} {le : α → α → Bool}
    {le' : β → β → Bool} (h : List.Forall₂ r as bs)
    (hle : ∀ {a a' b b'}, r a b → r a' b' → le' b b' = le a a') :
    List.Forall₂ r (as.mergeSort le) (bs.mergeSort le') := by
  have hpairs : ∀ x ∈ as.zip bs, r x.1 x.2 := fun x hx => List.forall₂_zip h hx
  -- sorting the pairs sorts both lists
  have hfst : ((as.zip bs).mergeSort fun x y => le x.1 y.1).map Prod.fst =
      ((as.zip bs).map Prod.fst).mergeSort le := List.map_mergeSort fun _ _ _ _ => rfl
  have hsnd : ((as.zip bs).mergeSort fun x y => le x.1 y.1).map Prod.snd =
      ((as.zip bs).map Prod.snd).mergeSort le' :=
    List.map_mergeSort fun x hx y hy => (hle (hpairs x hx) (hpairs y hy)).symm
  rw [List.map_fst_zip h.length_eq.le] at hfst
  rw [List.map_snd_zip h.length_eq.ge] at hsnd
  rw [← hfst, ← hsnd, List.forall₂_map_left_iff, List.forall₂_map_right_iff, List.forall₂_same]
  exact fun x hx => hpairs x (List.mem_mergeSort.1 hx)

theorem Mirrors.sorted_records (hm : Mirrors s t) {pick : Record → Bool} {keep : Handle → Bool}
    (hpick : ∀ {h r}, s.Records h r → pick r = keep h) :
    List.Forall₂ s.Records (s.walk.filter keep)
      ((t.records.filter pick).mergeSort fun a b => (Table.documentOrder a b).isLE) := by
  have hs := hm.consistent
  have hkept : List.Forall₂ s.Records (s.live.filter keep) (t.records.filter pick) := by
    refine List.rel_filter ?_ hm.records
    intro h r hr
    exact (Bool.eq_iff_iff.1 (hpick hr)).symm
  have hwalk : s.walk.filter keep = (s.live.filter keep).mergeSort s.pathLE := by
    rw [hs.mergeSort_eq (fun h hh => Store.mem_live_iff.1 (List.mem_filter.1 hh).1)
      (s.nodup_live.filter _)]
    refine List.filter_congr fun h hh => ?_
    rw [Bool.eq_iff_iff, decide_eq_true_iff, List.mem_filter, Store.mem_live_iff, ← hs.mem_walk_iff]
    exact (and_iff_right hh).symm
  rw [hwalk]
  exact forall₂_mergeSort hkept hm.record_order

theorem forall₂_applyTo {α β : Type} {r : α → β → Prop} {as : List α} {bs : List β}
    (modifier : Option Modifier) (h : List.Forall₂ r as bs) :
    List.Forall₂ r (Modifier.applyTo modifier as) (Modifier.applyTo modifier bs) := by
  unfold Modifier.applyTo
  cases modifier with
  | none => exact h
  | some m =>
    cases m with
    | first => exact List.forall₂_take 1 h
    | limit count => exact List.forall₂_take count.toNat h
    | last =>
      unfold Modifier.apply
      dsimp only
      rw [List.getLast?_eq_head?_reverse, List.getLast?_eq_head?_reverse]
      have hreverse := List.forall₂_reverse_iff.2 h
      generalize as.reverse = as at hreverse ⊢
      generalize bs.reverse = bs at hreverse ⊢
      cases hreverse with
      | nil => exact List.Forall₂.nil
      | cons hr _ => exact List.Forall₂.cons hr List.Forall₂.nil

variable {context context' : List Skeleton} {phase : Phase}

theorem Mirrors.picks_eq (hm : Mirrors s t) (hphase : phase.Portable)
    (hctx : List.Forall₂ s.Shares context context') (hr : s.Records a ra) (combinator : Combinator) :
    (Table.inReach ⟨phase, combinator, context'⟩ ra &&
      ra.satisfiesQuery (Query.ofStep phase combinator context')) =
    ((s.candidates (s.scopeOf ⟨phase, combinator, context⟩) combinator).contains a &&
      s.meets phase a) := by
  have hreach := hm.reach_iff hctx hr phase combinator
  obtain ⟨m, hget, hrec⟩ := hr
  rw [← hm.consistent.mem_candidates_iff hget, ← List.contains_iff_mem, ← Bool.eq_iff_iff] at hreach
  have hsearch : (Query.ofStep phase combinator context').search.all ra.satisfies = s.meets phase a := by
    unfold Store.meets
    rw [hget, Option.any_some]
    exact hrec.searchOf_eq hphase
  unfold Record.satisfiesQuery
  rw [hsearch, ← hreach, Bool.and_left_comm, Bool.and_comm (s.meets phase a)]

/-- Both answer a request alike, with what they can be asked about again. -/
theorem Mirrors.answer (hm : Mirrors s t) (hids : Function.Injective s.ids.draw) (hphase : phase.Portable)
    (hctx : List.Forall₂ s.Shares context context') (combinator : Combinator) :
    List.Forall₂ s.Shares (s.answer ⟨phase, combinator, context⟩)
      (t.answer ⟨phase, combinator, context'⟩) := by
  have hs := hm.consistent
  have hrecords := hm.sorted_records fun hr => hm.picks_eq hphase hctx hr combinator
  unfold Store.answer Table.answer Table.query
  dsimp only
  rw [hs.matchStep_eq]
  refine Store.forall₂_skeletons ?_
  rw [List.forall₂_map_right_iff]
  refine (forall₂_applyTo phase.modifier hrecords).imp fun h r hr => ?_
  obtain ⟨m, hget, hrec⟩ := hr
  exact ⟨m, hget, hs.remembers hids hget, hrec.alike⟩

theorem Mirrors.inLockstep (hm : Mirrors s t) (hids : Function.Injective s.ids.draw) :
    Engine.InLockstep s.Shares Phase.Portable (Backend.answer s) (Backend.answer t) := by
  intro phase combinator context context' hphase hctx
  exact ⟨_, _, rfl, rfl, hm.answer hids hphase hctx combinator⟩

end

end Grove
