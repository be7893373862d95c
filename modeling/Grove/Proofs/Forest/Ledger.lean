import Mathlib.Tactic
import Grove.Proofs.Forest.History
/-!
# Whole runs

A run gives one path to each slot that it fills, and gives none twice, whatever it takes back or removes
later. At every moment the arena, the index, the child lists and the counters of the store agree, and what
is dead stays dead.
-/

set_option autoImplicit false

namespace Grove

namespace Store

/-- The paths given out so far, one for each slot in turn. -/
structure Ledger (s : Store) (paths : List SiblingPath) : Prop where
  length : paths.length = s.slots.size
  nodup : paths.Nodup
  path : ∀ {h m}, s.get? h = some m → paths[h]? = some m.path
  spent : ∀ path ∈ paths, s.Spent path

section
variable {s s' : Store} {h k : Handle} {m : Model} {parent : Option Handle} {paths given : List SiblingPath}

theorem Placed.ledger (hp : s.Placed parent m s') (hs : s.Consistent) (hl : s.Ledger paths) : s'.Ledger (paths ++ [m.path]) where
  length := by simp [hp.size, hl.length]
  nodup := by
    rw [List.nodup_append]
    refine ⟨hl.nodup, List.nodup_singleton _, fun path hpath path' hpath' heq => ?_⟩
    rw [heq, List.mem_singleton.1 hpath'] at hpath
    exact (hl.spent _ hpath).ne_of_placed hp rfl
  path {x m'} hx := by
    rcases hp.cases_get? hx with ⟨rfl, rfl⟩ | ⟨m₀, hget, heq⟩
    · simp [← hl.length]
    · rw [(Placed.sameNode heq).path, List.getElem?_append_left, hl.path hget]
      rw [hl.length]
      exact lt_size_of_get? hget
  spent path hpath := by
    rcases List.mem_append.1 hpath with hold | hnew
    · exact hp.spent (hl.spent path hold)
    · rw [List.mem_singleton.1 hnew]
      exact (hp.consistent hs).spent hp.get?_size

theorem Removed.ledger (hr : s.Removed h m s') (hl : s.Ledger paths) : s'.Ledger paths where
  length := hl.length.trans hr.size.symm
  nodup := hl.nodup
  path hx := by
    obtain ⟨-, m₀, hget, heq⟩ := hr.cases_get? hx
    rw [(Removed.sameNode heq).path, hl.path hget]
  spent path hpath := hr.spent (hl.spent path hpath)

theorem Edited.ledger (he : s.Edited s') (hl : s.Ledger paths) : s'.Ledger paths where
  length := hl.length.trans he.size.symm
  nodup := hl.nodup
  path hx := by
    obtain ⟨m₀, hget, hlinks⟩ := he.cases_get? hx
    rw [hlinks.path, hl.path hget]
  spent path hpath := he.spent (hl.spent path hpath)

theorem Trace.ledger (h : s.Trace k given s') (hs : s.Consistent) (hl : s.Ledger paths) :
    s'.Ledger (paths ++ given) := by
  induction h with
  | refl => rwa [List.append_nil]
  | place htrace _ hp ih =>
    rw [← List.append_assoc]
    exact hp.ledger ((Trace.steps htrace).consistent hs) ih
  | remove _ _ hr ih => exact hr.ledger ih

theorem Run.ledger (h : s.Run given s') (hs : s.Consistent) (hl : s.Ledger paths) :
    s'.Ledger (paths ++ given) := by
  induction h with
  | refl => rwa [List.append_nil]
  | update u hrun ih =>
    rw [← List.append_assoc]
    rcases after_cases (hrun.consistent hs).toWired u with htrace | ⟨hnone, he⟩
    · exact htrace.ledger (hrun.consistent hs) ih
    · rw [hnone, List.append_nil]
      exact he.ledger ih

theorem ledger_new (options : StoreOptions) (ids : IdSource) : (Store.new options ids).Ledger [] where
  length := rfl
  nodup := List.nodup_nil
  path hm := by simp [get?_new] at hm
  spent _ hpath := by cases hpath

end

/-- Later on a handle means the same model or none, and one that means none never means any again. -/
structure Persists (s s' : Store) : Prop where
  size_le : s.slots.size ≤ s'.slots.size
  same : ∀ {x m m'}, s.get? x = some m → s'.get? x = some m' → m.SameNode m'
  dead : ∀ {x}, x < s.slots.size → s.get? x = none → s'.get? x = none

section
variable {s s' s'' : Store} {h k x : Handle} {m : Model} {parent : Option Handle} {given : List SiblingPath}

theorem Persists.refl (s : Store) : s.Persists s where
  size_le := Nat.le_refl _
  same hm hm' := by
    rw [hm] at hm'
    cases hm'
    exact Model.SameNode.refl _
  dead _ hx := hx

theorem Persists.between {m'' : Model} (h : s.Persists s') (h' : s'.Persists s'') (hm : s.get? x = some m)
    (hm'' : s''.get? x = some m'') : ∃ m', s'.get? x = some m' := by
  refine Option.ne_none_iff_exists'.1 fun hx => ?_
  rw [h'.dead ((lt_size_of_get? hm).trans_le h.size_le) hx] at hm''
  cases hm''

theorem Persists.trans (h : s.Persists s') (h' : s'.Persists s'') : s.Persists s'' where
  size_le := h.size_le.trans h'.size_le
  same hm hm'' := by
    obtain ⟨m', hm'⟩ := h.between h' hm hm''
    exact (h.same hm hm').trans (h'.same hm' hm'')
  dead hlt hx := h'.dead (hlt.trans_le h.size_le) (h.dead hlt hx)

theorem Placed.persists (hp : s.Placed parent m s') : s.Persists s' where
  size_le := hp.size ▸ Nat.le_succ _
  same hm hm' := by
    rw [hp.get?_of_get? hm] at hm'
    exact Placed.sameNode (Option.some.inj hm').symm
  dead hlt hx := by
    rw [hp.get?_eq, if_neg hlt.ne, hx]
    split <;> rfl

theorem Removed.persists (hr : s.Removed h m s') : s.Persists s' where
  size_le := hr.size.ge
  same hm hm' := by
    obtain ⟨-, m₀, hget, heq⟩ := hr.cases_get? hm'
    rw [hm] at hget
    cases hget
    exact Removed.sameNode heq
  dead _ hx := by
    rw [hr.get?_eq, hx]
    simp

theorem Edited.persists (he : s.Edited s') : s.Persists s' where
  size_le := he.size.ge
  same hm hm' := by
    obtain ⟨m₀, hget, hlinks⟩ := he.cases_get? hm'
    rw [hm] at hget
    cases hget
    exact hlinks.toSameNode
  dead _ hx := he.get?_eq_none hx

theorem Moves.persists {allowed : Option Handle → Prop} (h : s.Moves allowed k given s') : s.Persists s' := by
  induction h with
  | refl => exact Persists.refl s
  | place _ _ hp ih => exact ih.trans hp.persists
  | remove _ _ hr ih => exact ih.trans hr.persists

theorem Run.persists (h : s.Run given s') (hs : s.Consistent) : s.Persists s' := by
  induction h with
  | refl => exact Persists.refl s
  | update u hrun ih =>
    rcases after_cases (hrun.consistent hs).toWired u with htrace | ⟨-, he⟩
    · exact ih.trans htrace.persists
    · exact ih.trans he.persists

end

/-- The arena, the index, the child lists and the counters agree. -/
structure Sound (s : Store) : Prop where
  handle : ∀ {h m}, s.get? h = some m → h < UInt32.size
  lookup : ∀ uid h, s.lookup? uid = some h ↔ ∃ m, s.get? h = some m ∧ m.uid = uid
  size : s.size = s.live.length
  uid : ∀ {h h' m m'}, s.get? h = some m → s.get? h' = some m' → m.uid = m'.uid → h = h'
  /-- once by its parent, and nowhere else -/
  listed : ∀ {h m}, s.get? h = some m → ∀ parent,
    (s.siblings parent).count h = if m.parent = parent then 1 else 0
  linked : ∀ {parent h}, h ∈ s.siblings parent → ∃ m, s.get? h = some m ∧ m.parent = parent
  parent : ∀ {h m p}, s.get? h = some m → m.parent = some p → p < h ∧ ∃ owner, s.get? p = some owner
  path_child : ∀ {h m p owner}, s.get? h = some m → m.parent = some p → s.get? p = some owner →
    ∃ i, m.path.indices = owner.path.indices ++ [i] ∧
      s.options.firstChildIndex ≤ i ∧ i < owner.nextChild
  path_root : ∀ {h m}, s.get? h = some m → m.parent = none →
    ∃ i, m.path.indices = [i] ∧ i < s.nextRoot
  rising : ∀ parent, (s.siblings parent).Pairwise fun h h' => ∀ m m', s.get? h = some m →
    s.get? h' = some m' → m.index < m'.index
  span : ∀ {h m}, s.get? h = some m → m.path.span s.options.format = .ok m.span

theorem Wired.size_eq {s : Store} (hs : s.Wired) : s.size = s.live.length := by
  let uidAt (h : Handle) : String := ((s.get? h).map Model.uid).getD ""
  have huid : ∀ {h m}, s.get? h = some m → uidAt h = m.uid := by
    intro h m hm
    simp [uidAt, hm]
  have hnodup : (s.live.map uidAt).Nodup := by
    refine s.nodup_live.map_on fun h hh h' hh' heq => ?_
    obtain ⟨m, hm⟩ := mem_live_iff.1 hh
    obtain ⟨m', hm'⟩ := mem_live_iff.1 hh'
    rw [huid hm, huid hm'] at heq
    exact hs.eq_of_uid_eq hm hm' heq
  -- the keys of the index are the identifiers of the live models, in some order
  have hperm : s.index.keys.Perm (s.live.map uidAt) := by
    refine (List.perm_ext_iff_of_nodup Std.HashMap.nodup_keys hnodup).2 fun uid => ?_
    have hkey : uid ∈ s.index.keys ↔ ∃ h, s.lookup? uid = some h := by
      rw [Std.HashMap.mem_keys, Std.HashMap.mem_iff_isSome_getElem?, Option.isSome_iff_exists]
      rfl
    simp only [hkey, hs.lookup, List.mem_map, mem_live_iff]
    constructor
    · rintro ⟨h, m, hm, rfl⟩
      exact ⟨h, ⟨m, hm⟩, huid hm⟩
    · rintro ⟨h, ⟨m, hm⟩, rfl⟩
      exact ⟨h, m, hm, (huid hm).symm⟩
  calc
    s.size = s.index.keys.length := Std.HashMap.length_keys.symm
    _ = (s.live.map uidAt).length := hperm.length_eq
    _ = s.live.length := List.length_map _

namespace Consistent

section
variable {s : Store} {h p : Handle} {m owner : Model} {parent : Option Handle}

theorem count_siblings (hs : s.Consistent) (hm : s.get? h = some m) (parent : Option Handle) :
    (s.siblings parent).count h = if m.parent = parent then 1 else 0 := by
  have hnodup : (s.siblings parent).Nodup := (hs.sorted parent).imp fun hlt => hlt.ne
  split
  · next hp =>
    have hlisted := hs.listed hm
    rw [hp] at hlisted
    exact List.count_eq_one_of_mem hnodup hlisted
  · next hp =>
    refine List.count_eq_zero_of_not_mem fun hmem => hp ?_
    obtain ⟨m', hm', hp'⟩ := hs.linked hmem
    rw [hm] at hm'
    cases hm'
    exact hp'

theorem path_child_bounded (hs : s.Consistent) (hm : s.get? h = some m) (hp : m.parent = some p)
    (howner : s.get? p = some owner) : ∃ i, m.path.indices = owner.path.indices ++ [i] ∧
      s.options.firstChildIndex ≤ i ∧ i < owner.nextChild := by
  have hfirst := hs.first_le hm
  have hlt := hs.index_lt hm
  rw [hp] at hfirst hlt
  rw [nextIndex_of_get? howner] at hlt
  exact ⟨m.index, hs.path_child hm hp howner, hfirst, hlt⟩

theorem path_root_bounded (hs : s.Consistent) (hm : s.get? h = some m) (hp : m.parent = none) :
    ∃ i, m.path.indices = [i] ∧ i < s.nextRoot := by
  have hpath := hs.path hm
  have hlt := hs.index_lt hm
  rw [hp] at hpath hlt
  exact ⟨m.index, hpath, hlt⟩

theorem siblings_rising (hs : s.Consistent) (parent : Option Handle) :
    (s.siblings parent).Pairwise fun h h' => ∀ m m', s.get? h = some m →
      s.get? h' = some m' → m.index < m'.index := by
  refine (hs.sorted parent).imp_of_mem fun {h h'} hh hh' hlt m m' hm hm' => ?_
  obtain ⟨m₁, hm₁, hp⟩ := hs.linked hh
  obtain ⟨m₂, hm₂, hp'⟩ := hs.linked hh'
  rw [hm] at hm₁
  rw [hm'] at hm₂
  cases hm₁
  cases hm₂
  exact hs.index_mono hm hm' (hp.trans hp'.symm) hlt

theorem sound (hs : s.Consistent) : s.Sound where
  handle hm := (lt_size_of_get? hm).trans_le hs.capacity
  lookup _ _ := hs.lookup
  size := hs.size_eq
  uid := hs.eq_of_uid_eq
  listed := hs.count_siblings
  linked := hs.linked
  parent hm hp := ⟨hs.parent_lt hm hp, hs.parent_live hm hp⟩
  path_child := hs.path_child_bounded
  path_root := hs.path_root_bounded
  rising := hs.siblings_rising
  span := hs.span

end

end Consistent

/-- At every moment of a run the store is sound, the paths given out so far are all different, and no handle
comes to mean another model, or any model once it is dead. -/
theorem sound_of_run {options : StoreOptions} {ids : IdSource} {s s' : Store}
    {paths later : List SiblingPath} (h : (Store.new options ids).Run paths s) (h' : s.Run later s') :
    s.options = options ∧ s.Sound ∧ s.Ledger paths ∧ s.Persists s' := by
  have hs := h.consistent_new
  have hnew := consistent_new options ids
  exact ⟨h.options hnew, hs.sound, h.ledger hnew (ledger_new options ids), h'.persists hs⟩

def pruned : Store := grown.after (.remove 0)

def regrown : Store := pruned.after (.append none (.ofTag "f"))

/-- The third tree gets neither a handle nor a path that a model has had, also none of those taken back. -/
theorem sound_of_run_regrown : ∃ paths later,
    (Store.new .twoDigits .counting).Run paths pruned ∧ pruned.Run later regrown ∧
      paths.map SiblingPath.indices = [[0], [0, 1], [1], [0, 1, 1]] ∧
      later.map SiblingPath.indices = [[2]] ∧ regrown.live = [2, 4] ∧
      pruned.Sound ∧ pruned.Ledger paths ∧ regrown.get? 0 = none := by
  have hrun : (Store.new .twoDigits .counting).Run _ pruned :=
    ((Run.refl.update (.appendAll none [⟨"a", none, [], .emptyMap, [.ofTag "b"]⟩, .ofTag "c"])).update
      (.append (some 1) ⟨"d", none, [], .emptyMap, [.ofTag "e"]⟩)).update (.remove 0)
  have hlater : pruned.Run _ regrown := Run.refl.update (.append none (.ofTag "f"))
  obtain ⟨-, hsound, hledger, hpersists⟩ := sound_of_run hrun hlater
  exact ⟨_, _, hrun, hlater, by decide +kernel, by decide +kernel, by decide +kernel, hsound, hledger,
    hpersists.dead (by decide +kernel) (by decide +kernel)⟩

end Store

end Grove
