import Mathlib.Tactic
import Grove.Proofs.Position.Containment
import Grove.Proofs.Table.Moves
/-!
# Descent in a table

Descent is named by the identifiers of parents, but a removal follows spans. The two are one as long as sibling
indices start above zero: then a removal takes a whole subtree, and no record is left without its parent. A
child at index zero shares the left boundary of its parent, whose span does not enclose it, so it outlives a
removal of the parent.
-/

set_option autoImplicit false

namespace Grove

namespace Table

/-- The parents of a record lead to an identifier, each in the table up to the last. -/
inductive Beneath (t : Table) (uid : String) : Record → Prop
  | child {r : Record} : r.parent = some uid → Beneath t uid r
  | further {r q : Record} : q ∈ t.records → r.parent = some q.uid → Beneath t uid q → Beneath t uid r

/-- Every record has the span of its path, which goes on from that of its parent. Only a record at index zero
may have lost its parent. -/
structure Spanned (t : Table) : Prop where
  uid_inj : ∀ {r r'}, r ∈ t.records → r' ∈ t.records → r.uid = r'.uid → r = r'
  span : ∀ {r}, r ∈ t.records → r.path.span t.options.format = .ok r.span
  parent : ∀ {r p}, r ∈ t.records → r.parent = some p → (∃ owner ∈ t.records,
    owner.uid = p ∧ r.path.indices = owner.path.indices ++ [r.index]) ∨ r.index = 0

section
variable {t t' : Table} {owner : Option Owner} {r target : Record}
  {added : List Record}

theorem spanned_new (options : StoreOptions) (ids : IdSource) : (Table.new options ids).Spanned where
  uid_inj h := by cases h
  span h := by cases h
  parent h := by cases h

theorem Added.mem_iff (ha : t.Added owner r t') {x : Record} : x ∈ t'.records ↔ x ∈ t.records ∨ x = r := by
  rw [ha.records, List.mem_append, List.mem_singleton]

theorem Added.spanned (ha : t.Added owner r t') (hs : t.Spanned) (how : t.Holds owner) : t'.Spanned where
  uid_inj {x y} hx hy hxy := by
    rw [ha.mem_iff] at hx hy
    rcases hx with hx | rfl
    · rcases hy with hy | rfl
      · exact hs.uid_inj hx hy hxy
      · exact absurd hxy (ha.fresh x hx)
    · rcases hy with hy | rfl
      · exact absurd hxy.symm (ha.fresh y hy)
      · rfl
  span hx := by
    rw [ha.options]
    rcases ha.mem_iff.1 hx with hx | rfl
    · exact hs.span hx
    · exact ha.span
  parent {x p} hx hp := by
    rcases ha.mem_iff.1 hx with hx | rfl
    · refine (hs.parent hx hp).imp_left ?_
      rintro ⟨q, hq, hrest⟩
      exact ⟨q, ha.subset hq, hrest⟩
    · rw [ha.parent, Option.map_eq_some_iff] at hp
      obtain ⟨o, rfl, rfl⟩ := hp
      obtain ⟨q, hq, huid, hpath⟩ := how o rfl
      have hindices := ha.path_indices
      refine Or.inl ⟨q, ha.subset hq, huid, ?_⟩
      rw [Record.index_eq hindices, hindices, hpath]
      rfl

/-- What a removal takes, told by the paths. -/
theorem Spanned.doomed_iff (hs : t.Spanned) (htarget : target ∈ t.records) (hr : r ∈ t.records) :
    doomed target r = true ↔ r.uid = target.uid ∨
      ∃ rest, r.path.indices = target.path.indices ++ rest ∧ ∃ i ∈ rest, i ≠ 0 := by
  unfold doomed
  rw [Bool.or_eq_true, beq_iff_eq, Span.contains_iff_exists (hs.span htarget) (hs.span hr)]

theorem Dropped.mem_iff (hd : t.Dropped target t') :
    r ∈ t'.records ↔ r ∈ t.records ∧ ¬ doomed target r = true := by
  rw [hd.records, List.mem_filter, Bool.not_eq_true', Bool.not_eq_true]

/-- What goes on from a record that goes is gone as well, unless it is a child at index zero of the target. -/
theorem Spanned.doomed_child {q : Record} (hs : t.Spanned) (htarget : target ∈ t.records) (hr : r ∈ t.records)
    (hq : q ∈ t.records) (hpath : r.path.indices = q.path.indices ++ [r.index])
    (hgone : doomed target q = true) : doomed target r = true ∨ r.index = 0 := by
  by_cases hzero : r.index = 0
  · exact Or.inr hzero
  · refine Or.inl ((hs.doomed_iff htarget hr).2 (Or.inr ?_))
    rcases (hs.doomed_iff htarget hq).1 hgone with huid | ⟨rest, hrest, -⟩
    · rw [hs.uid_inj hq htarget huid] at hpath
      exact ⟨_, hpath, r.index, List.mem_singleton_self _, hzero⟩
    · rw [hrest, List.append_assoc] at hpath
      exact ⟨_, hpath, r.index, by simp, hzero⟩

theorem Dropped.spanned (hd : t.Dropped target t') (hs : t.Spanned) : t'.Spanned where
  uid_inj hx hy := hs.uid_inj (hd.mem_iff.1 hx).1 (hd.mem_iff.1 hy).1
  span hx := by
    rw [hd.options]
    exact hs.span (hd.mem_iff.1 hx).1
  parent {x p} hx hp := by
    obtain ⟨hx, hstays⟩ := hd.mem_iff.1 hx
    rcases hs.parent hx hp with ⟨q, hq, huid, hpath⟩ | hzero
    · by_cases hgone : doomed target q = true
      · exact Or.inr ((hs.doomed_child hd.live hx hq hpath hgone).resolve_left hstays)
      · exact Or.inl ⟨q, hd.mem_iff.2 ⟨hq, hgone⟩, huid, hpath⟩
    · exact Or.inr hzero

theorem Builds.spanned (h : t.Builds added t') (hs : t.Spanned) : t'.Spanned := by
  induction h with
  | refl => exact hs
  | add _ how ha ih => exact ha.spanned ih how
  | @remove _ t' uid _ ih =>
    rcases remove_cases t' uid with heq | ⟨target, hd⟩
    · rwa [heq]
    · exact hd.spanned ih

end

/-- No index below the root level is zero, and counters are above the indices that they have handed out. -/
structure Lineal (t : Table) : Prop extends t.Spanned where
  first : 1 ≤ t.options.firstChildIndex
  first_le : ∀ uid, t.options.firstChildIndex ≤ t.nextIndex uid
  index_pos : ∀ {r p}, r ∈ t.records → r.parent = some p → 1 ≤ r.index
  index_lt : ∀ {r}, r ∈ t.records → r.index < t.counter r.parent
  root : ∀ {r}, r ∈ t.records → r.parent = none → r.path.indices = [r.index]
  path_inj : ∀ {r r'}, r ∈ t.records → r' ∈ t.records → r.path.indices = r'.path.indices → r = r'

section
variable {t t' : Table} {owner : Option Owner} {r target : Record} {uid p : String}

theorem lineal_new {options : StoreOptions} (hfirst : 1 ≤ options.firstChildIndex) (ids : IdSource) :
    (Table.new options ids).Lineal where
  toSpanned := spanned_new options ids
  first := hfirst
  first_le _ := by
    change options.firstChildIndex ≤ (∅ : Std.HashMap String UInt64).getD _ options.firstChildIndex
    rw [Std.HashMap.getD_empty]
    exact UInt64.le_refl _
  index_pos h := by cases h
  index_lt h := by cases h
  root h := by cases h
  path_inj h := by cases h

theorem ne_zero_of_one_le {i : UInt64} (h : 1 ≤ i) : i ≠ 0 := by
  rintro rfl
  exact absurd h (by decide)

theorem Lineal.exists_parent (hs : t.Lineal) (hr : r ∈ t.records) (hp : r.parent = some p) :
    ∃ owner ∈ t.records, owner.uid = p ∧ r.path.indices = owner.path.indices ++ [r.index] :=
  (hs.parent hr hp).resolve_right (ne_zero_of_one_le (hs.index_pos hr hp))

theorem Lineal.path_ne (hs : t.Lineal) (how : t.Holds owner) (hr : r ∈ t.records) :
    r.path.indices ≠ basePath owner ++ [t.counter (owner.map Owner.uid)] := by
  intro hpath
  -- a record with that path would be a child of the owner, at an index that the counter has passed
  have hindex := Record.index_eq hpath
  have hlt := hs.index_lt hr
  have hparent : r.parent = owner.map Owner.uid := by
    cases hp : r.parent with
    | none =>
      rw [hs.root hr hp] at hpath
      cases owner with
      | none => rfl
      | some o =>
        have hnil := (List.append_inj' (show [] ++ [r.index] = _ from hpath) rfl).1
        exact absurd hnil.symm o.path.nonempty
    | some p =>
      obtain ⟨q, hq, rfl, hqpath⟩ := hs.exists_parent hr hp
      rw [hqpath] at hpath
      have hbase := (List.append_inj' hpath rfl).1
      cases owner with
      | none => exact absurd hbase q.path.nonempty
      | some o =>
        obtain ⟨ro, hro, huid, hropath⟩ := how o rfl
        have hsame : q = ro := hs.path_inj hq hro (hbase.trans (congrArg SiblingPath.indices hropath.symm))
        rw [hsame, huid]
        rfl
  rw [hindex, hparent] at hlt
  exact UInt64.lt_irrefl _ hlt

theorem Added.lt_add_one (ha : t.Added owner r t') :
    t.counter (owner.map Owner.uid) < t.counter (owner.map Owner.uid) + 1 := lt_add_one_of_toNat ha.room

theorem Added.lineal (ha : t.Added owner r t') (hs : t.Lineal) (how : t.Holds owner) : t'.Lineal where
  toSpanned := ha.spanned hs.toSpanned how
  first := by rw [ha.options]; exact hs.first
  first_le uid := by
    have hle : t.options.firstChildIndex ≤ t.counter (some uid) := hs.first_le uid
    rw [ha.options]
    change _ ≤ t'.counter (some uid)
    rw [ha.counter]
    split
    · next heq =>
      have hgrow := ha.lt_add_one
      rw [heq] at hgrow
      exact UInt64.le_trans hle (UInt64.le_of_lt hgrow)
    · exact hle
  index_pos {x p} hx hp := by
    rcases ha.mem_iff.1 hx with hx | rfl
    · exact hs.index_pos hx hp
    · rw [Record.index_eq ha.path_indices, ← ha.parent, hp]
      exact UInt64.le_trans hs.first (hs.first_le p)
  index_lt {x} hx := by
    have hgrow := ha.lt_add_one
    rw [ha.counter]
    rcases ha.mem_iff.1 hx with hx | rfl
    · have hlt := hs.index_lt hx
      split
      · next heq =>
        rw [heq] at hgrow
        exact UInt64.lt_trans hlt hgrow
      · exact hlt
    · rw [if_pos ha.parent.symm, Record.index_eq ha.path_indices, ha.parent]
      exact hgrow
  root {x} hx hp := by
    rcases ha.mem_iff.1 hx with hx | rfl
    · exact hs.root hx hp
    · rw [ha.parent, Option.map_eq_none_iff] at hp
      subst hp
      rw [Record.index_eq ha.path_indices]
      exact ha.path_indices
  path_inj {x y} hx hy hxy := by
    rw [ha.mem_iff] at hx hy
    rcases hx with hx | rfl
    · rcases hy with hy | rfl
      · exact hs.path_inj hx hy hxy
      · exact absurd (hxy.trans ha.path_indices) (hs.path_ne how hx)
    · rcases hy with hy | rfl
      · exact absurd (hxy.symm.trans ha.path_indices) (hs.path_ne how hy)
      · rfl

/-- The counter of a parent outlives a removal that leaves one of its children. -/
theorem Dropped.counter (hd : t.Dropped target t') (hs : t.Lineal) (hr : r ∈ t'.records) :
    t'.counter r.parent = t.counter r.parent := by
  obtain ⟨hr, hstays⟩ := hd.mem_iff.1 hr
  cases hp : r.parent with
  | none => exact hd.nextRoot
  | some p =>
    obtain ⟨q, hq, rfl, hpath⟩ := hs.exists_parent hr hp
    change t'.nextIndex q.uid = t.nextIndex q.uid
    rw [hd.nextIndex, if_neg]
    -- a counter starts anew only when its parent goes, and then the child goes with it
    intro hgone
    obtain ⟨q', hq', huid⟩ := List.mem_map.1 hgone
    rw [List.mem_filter] at hq'
    rw [hs.uid_inj hq'.1 hq huid] at hq'
    rcases hs.doomed_child hd.live hr hq hpath hq'.2 with hdoomed | hzero
    · exact hstays hdoomed
    · exact ne_zero_of_one_le (hs.index_pos hr hp) hzero

theorem Dropped.lineal (hd : t.Dropped target t') (hs : t.Lineal) : t'.Lineal where
  toSpanned := hd.spanned hs.toSpanned
  first := by rw [hd.options]; exact hs.first
  first_le uid := by
    rw [hd.options, hd.nextIndex]
    split
    · exact UInt64.le_refl _
    · exact hs.first_le uid
  index_pos hx := hs.index_pos (hd.mem_iff.1 hx).1
  index_lt hx := by
    rw [hd.counter hs hx]
    exact hs.index_lt (hd.mem_iff.1 hx).1
  root hx := hs.root (hd.mem_iff.1 hx).1
  path_inj hx hy := hs.path_inj (hd.mem_iff.1 hx).1 (hd.mem_iff.1 hy).1

theorem Builds.lineal {added : List Record} (h : t.Builds added t') (hs : t.Lineal) : t'.Lineal := by
  induction h with
  | refl => exact hs
  | add _ how ha ih => exact ha.lineal ih how
  | @remove _ t' uid _ ih =>
    rcases remove_cases t' uid with heq | ⟨target, hd⟩
    · rwa [heq]
    · exact hd.lineal ih

theorem Lineal.beneath_of_path (hs : t.Lineal) (htarget : target ∈ t.records) {rest : List UInt64}
    (hr : r ∈ t.records) (hpath : r.path.indices = target.path.indices ++ rest) (hrest : rest ≠ []) :
    t.Beneath target.uid r := by
  induction rest using List.reverseRecOn generalizing r with
  | nil => exact absurd rfl hrest
  | append_singleton front i ih =>
    rw [← List.append_assoc] at hpath
    cases hp : r.parent with
    | none =>
      rw [hs.root hr hp] at hpath
      have hnil := (List.append_inj' (show [] ++ [r.index] = _ from hpath) rfl).1
      exact absurd (List.append_eq_nil_iff.1 hnil.symm).1 target.path.nonempty
    | some p =>
      obtain ⟨q, hq, rfl, hqpath⟩ := hs.exists_parent hr hp
      rw [hqpath] at hpath
      have hbase := (List.append_inj' hpath rfl).1
      by_cases hfront : front = []
      · rw [hfront, List.append_nil] at hbase
        rw [hs.path_inj hq htarget hbase] at hp
        exact Beneath.child hp
      · exact Beneath.further hq hp (ih hq hbase hfront)

theorem Lineal.path_of_beneath (hs : t.Lineal) (htarget : target ∈ t.records)
    (h : t.Beneath target.uid r) (hr : r ∈ t.records) :
    ∃ rest, r.path.indices = target.path.indices ++ rest ∧ ∃ i ∈ rest, i ≠ 0 := by
  induction h with
  | child hp =>
    obtain ⟨q, hq, huid, hpath⟩ := hs.exists_parent hr hp
    rw [hs.uid_inj hq htarget huid] at hpath
    exact ⟨_, hpath, _, List.mem_singleton_self _, ne_zero_of_one_le (hs.index_pos hr hp)⟩
  | @further r q hq hp _ ih =>
    obtain ⟨q', hq', huid, hpath⟩ := hs.exists_parent hr hp
    rw [hs.uid_inj hq' hq huid] at hpath
    obtain ⟨rest, hrest, i, hi, hne⟩ := ih hq
    rw [hrest, List.append_assoc] at hpath
    exact ⟨_, hpath, i, List.mem_append_left _ hi, hne⟩

theorem Lineal.doomed_iff_beneath (hs : t.Lineal) (htarget : target ∈ t.records) (hr : r ∈ t.records) :
    doomed target r = true ↔ r.uid = target.uid ∨ t.Beneath target.uid r := by
  rw [hs.doomed_iff htarget hr]
  refine or_congr_right ⟨?_, fun h => hs.path_of_beneath htarget h hr⟩
  rintro ⟨rest, hrest, i, hi, -⟩
  exact hs.beneath_of_path htarget hr hrest (List.ne_nil_of_mem hi)

end

/-- A removal takes the record and those whose path goes on from its path by more than zeros. So long as sibling
indices start above zero, those are the records whose parents lead to it, and every parent is in the table.
Where they start at zero, a record may have lost its parent, but only if its own index is zero. -/
theorem remove_beneath (options : StoreOptions) (ids : IdSource) (calls : List Call) :
    let t := Backend.afterCalls (Table.new options ids) calls
    (∀ uid target, t.get? uid = some target → ∃ uids t', t.remove uid = (.ok uids, t') ∧
      (∀ r, r ∈ t'.records ↔ r ∈ t.records ∧ r.uid ≠ uid ∧
        ¬ ∃ rest, r.path.indices = target.path.indices ++ rest ∧ ∃ i ∈ rest, i ≠ 0) ∧
      (1 ≤ options.firstChildIndex →
        ∀ r, r ∈ t'.records ↔ r ∈ t.records ∧ r.uid ≠ uid ∧ ¬ t.Beneath uid r)) ∧
    (∀ r ∈ t.records, ∀ p, r.parent = some p → (∃ owner ∈ t.records, owner.uid = p) ∨ r.index = 0) ∧
    (1 ≤ options.firstChildIndex →
      ∀ r ∈ t.records, ∀ p, r.parent = some p → ∃ owner ∈ t.records, owner.uid = p) := by
  intro t
  have hbuilds : (Table.new options ids).Builds _ t := afterCalls_builds calls
  have hs : t.Spanned := hbuilds.spanned (spanned_new options ids)
  have hlineal : 1 ≤ options.firstChildIndex → t.Lineal := fun hfirst =>
    hbuilds.lineal (lineal_new hfirst ids)
  refine ⟨fun uid target htarget => ?_, fun r hr p hp => ?_, fun hfirst r hr p hp => ?_⟩
  · obtain ⟨t', hremove, hd⟩ := remove_of_get? htarget
    obtain ⟨hmem, rfl⟩ := eq_of_get? htarget
    refine ⟨_, t', hremove, fun r => ?_, fun hfirst r => ?_⟩
    · rw [hd.mem_iff]
      refine and_congr_right fun hr => ?_
      rw [hs.doomed_iff hmem hr, not_or]
    · rw [hd.mem_iff]
      refine and_congr_right fun hr => ?_
      rw [(hlineal hfirst).doomed_iff_beneath hmem hr, not_or]
  · refine (hs.parent hr hp).imp_left ?_
    rintro ⟨owner, howner, huid, -⟩
    exact ⟨owner, howner, huid⟩
  · obtain ⟨owner, howner, huid, -⟩ := (hlineal hfirst).exists_parent hr hp
    exact ⟨owner, howner, huid⟩

def pair : List Call := [.append none [⟨"a", none, [], .emptyMap, [.ofTag "b"]⟩]]

section
variable (options : StoreOptions) {sa sb : Span}

theorem appendOne_first (ids : IdSource) (ha : (SiblingPath.root 0).span options.format = .ok sa)
    (hra : sa.isResolved none = true)
    (hb : ((SiblingPath.root 0).child options.firstChildIndex).span options.format = .ok sb)
    (hrb : sb.isResolved (some sa) = true) :
    ∃ a t₁, (Table.new options ids).appendOne none "a" none [] .emptyMap = .ok (a, t₁) ∧ t₁.records = [a] ∧
      a.path = .root 0 ∧ t₁.nextIndex a.uid = options.firstChildIndex ∧
      t₁.placeSpan (some ⟨a.uid, a.path⟩) = .ok sb := by
  have hfirst : ∃ a t₁, (Table.new options ids).appendOne none "a" none [] .emptyMap = .ok (a, t₁) :=
    appendOne_eq_ok _ _ _ _ ha rfl hra (show (0 : UInt64).toNat + 1 < UInt64.size by decide)
  obtain ⟨a, t₁, happ⟩ := hfirst
  have hadd := added_of_appendOne happ
  have hpath : a.path = SiblingPath.root 0 := hadd.path
  have hnext : t₁.nextIndex a.uid = options.firstChildIndex := by
    change t₁.counter (some a.uid) = _
    rw [hadd.counter, if_neg (by simp)]
    exact Std.HashMap.getD_empty
  refine ⟨a, t₁, happ, hadd.records, hpath, hnext, placeSpan_of_resolved ?_ ?_ hrb⟩
  · change (a.path.child (t₁.nextIndex a.uid)).span t₁.options.format = _
    rw [hnext, hpath, hadd.options]
    exact hb
  · change (a.path.span t₁.options.format).map some = _
    rw [hpath, hadd.options]
    exact congrArg (Except.map some) ha

/-- The two records of the tree, the second at the first index below the first. -/
theorem afterCalls_pair (ids : IdSource) (ha : (SiblingPath.root 0).span options.format = .ok sa)
    (hra : sa.isResolved none = true)
    (hb : ((SiblingPath.root 0).child options.firstChildIndex).span options.format = .ok sb)
    (hrb : sb.isResolved (some sa) = true) (hroom : options.firstChildIndex.toNat + 1 < UInt64.size) :
    ∃ a b, (Backend.afterCalls (Table.new options ids) pair).records = [a, b] ∧ b.uid ≠ a.uid ∧
      a.path.indices = [0] ∧ b.parent = some a.uid ∧ b.path.indices = [0, options.firstChildIndex] := by
  obtain ⟨a, t₁, h₁, hrecords, hpath, hnext, hplace⟩ := appendOne_first options ids ha hra hb hrb
  have hsecond : ∃ b t₂, t₁.appendOne (some ⟨a.uid, a.path⟩) "b" none [] .emptyMap = .ok (b, t₂) := by
    rw [appendOne_of_placeSpan "b" none [] .emptyMap hplace, if_pos]
    · exact ⟨_, _, rfl⟩
    · change (t₁.nextIndex a.uid).toNat + 1 < UInt64.size
      rw [hnext]
      exact hroom
  obtain ⟨b, t₂, h₂⟩ := hsecond
  have hadd₂ := added_of_appendOne h₂
  have hleaf : t₁.append (some ⟨a.uid, a.path⟩) (.ofTag "b") = (.ok b.skeleton, t₂) :=
    append_eq_ok h₂ appendChildren_nil
  have happ : (Table.new options ids).append none ⟨"a", none, [], .emptyMap, [.ofTag "b"]⟩ =
      (.ok a.skeleton, t₂) := append_eq_ok h₁ (appendChildren_single hleaf)
  have hafter : Backend.afterCalls (Table.new options ids) pair = t₂ := by
    change ((Table.new options ids).appendAll none [_]).2 = t₂
    unfold appendAll
    rw [happ]
    rfl
  refine ⟨a, b, ?_, ?_, congrArg SiblingPath.indices hpath, hadd₂.parent, ?_⟩
  · rw [hafter, hadd₂.records, hrecords]
    rfl
  · refine (hadd₂.fresh a ?_).symm
    rw [hrecords]
    exact List.mem_singleton_self a
  · rw [hadd₂.path_indices, basePath, Option.map_some, Option.map_some, Option.getD_some, hpath]
    change [0] ++ [t₁.nextIndex a.uid] = _
    rw [hnext]
    rfl

end

theorem get?_of_records {t : Table} {a b : Record} (h : t.records = [a, b]) : t.get? a.uid = some a := by
  unfold get?
  rw [h]
  exact List.find?_cons_of_pos (beq_self_eq_true _)

/-- With indices from one on the child goes with its parent. -/
theorem remove_beneath_pair :
    let t := Backend.afterCalls (Table.new ⟨⟨1, 4⟩, 1⟩ .counting) pair
    ∃ a b uids t', t.records = [a, b] ∧ b.parent = some a.uid ∧ t.remove a.uid = (.ok uids, t') ∧
      t'.records = [] := by
  intro t
  obtain ⟨a, b, hrecords, -, -, hparent, -⟩ := afterCalls_pair ⟨⟨1, 4⟩, 1⟩
    .counting rfl (by decide +kernel) rfl (by decide +kernel) (by decide)
  obtain ⟨uids, t', hremove, -, hexact⟩ :=
    (remove_beneath ⟨⟨1, 4⟩, 1⟩ .counting pair).1 a.uid a (get?_of_records hrecords)
  have hbeneath : t.Beneath a.uid b := Beneath.child hparent
  refine ⟨a, b, uids, t', hrecords, hparent, hremove, ?_⟩
  refine List.eq_nil_iff_forall_not_mem.2 fun r hr => ?_
  obtain ⟨hmem, hne, hstays⟩ := (hexact (by decide) r).1 hr
  rw [hrecords, List.mem_cons, List.mem_singleton] at hmem
  rcases hmem with rfl | rfl
  · exact hne rfl
  · exact hstays hbeneath

/-- With indices from zero on the child outlives its parent, which is not in the table any more. -/
theorem not_remove_beneath :
    let t := Backend.afterCalls (Table.new ⟨⟨1, 4⟩, 0⟩ .counting) pair
    ∃ a b uids t', t.records = [a, b] ∧ t.Beneath a.uid b ∧ t.remove a.uid = (.ok uids, t') ∧
      t'.records = [b] ∧ b.parent = some a.uid ∧ b.uid ≠ a.uid := by
  intro t
  obtain ⟨a, b, hrecords, hne, hpath, hparent, hpath'⟩ := afterCalls_pair ⟨⟨1, 4⟩, 0⟩
    .counting rfl (by decide +kernel) rfl (by decide +kernel) (by decide)
  have hs : t.Spanned := (afterCalls_builds pair).spanned (spanned_new _ _)
  have hmem : a ∈ t.records ∧ b ∈ t.records := by
    rw [hrecords]
    exact ⟨List.mem_cons_self .., List.mem_cons_of_mem _ (List.mem_singleton_self b)⟩
  have hstays : doomed a b = false := by
    rw [← Bool.not_eq_true, hs.doomed_iff hmem.1 hmem.2]
    rintro (huid | ⟨rest, hrest, i, hi, hzero⟩)
    · exact hne huid
    · rw [hpath, hpath'] at hrest
      cases hrest
      exact hzero (List.mem_singleton.1 hi)
  obtain ⟨t', hremove, hd⟩ := remove_of_get? (get?_of_records hrecords)
  have hgone : doomed a a = true := by
    unfold doomed
    rw [beq_self_eq_true, Bool.true_or]
  refine ⟨a, b, _, t', hrecords, Beneath.child hparent, hremove, ?_, hparent, hne⟩
  rw [hd.records, hrecords]
  simp [hgone, hstays]

end Table

end Grove
