import Mathlib.Tactic
import Grove.Proofs.Attr.Tracks
import Grove.Proofs.Attr.Writing
/-!
# What a removal along a path changes

A removal splits its path at the last dot and walks to the container before it, while a reader goes segment by segment
from the front. They come to the same place: what is taken out is what a reader would have found, as long as it is
an entry of a map. Afterwards nothing is found at the path or further on, a path that leaves the track at some container
leads to where it led before, and every container on the track keeps the order of what it holds. A removal that takes
nothing out leaves the tree as it was.
-/

set_option autoImplicit false

namespace Grove

section
variable {cs front last : List Char}

theorem splitDots_ne_nil (cs : List Char) : splitDots cs ≠ [] := by
  cases cs with
  | nil => exact List.cons_ne_nil _ _
  | cons c rest =>
    unfold splitDots
    split
    · exact List.cons_ne_nil _ _
    · split <;> exact List.cons_ne_nil _ _

theorem splitDots_eq_singleton (h : '.' ∉ cs) : splitDots cs = [cs] := by
  induction cs with
  | nil => rfl
  | cons c rest ih =>
    rw [List.mem_cons, not_or] at h
    rw [splitDots, if_neg (Ne.symm h.1), ih h.2]

theorem splitDots_append (front last : List Char) :
    splitDots (front ++ '.' :: last) = splitDots front ++ splitDots last := by
  induction front with
  | nil => rfl
  | cons c front ih =>
    rw [List.cons_append, splitDots, splitDots, ih]
    split
    · rfl
    · obtain ⟨piece, pieces, hsplit⟩ := List.exists_cons_of_ne_nil (splitDots_ne_nil front)
      rw [hsplit]
      rfl

theorem notMem_of_splitLastDot (h : splitLastDot cs = none) : '.' ∉ cs := by
  induction cs with
  | nil => exact List.not_mem_nil
  | cons c rest ih =>
    unfold splitLastDot at h
    split at h
    · cases h
    · next hrest =>
      split at h
      · cases h
      · next hc =>
        rw [List.mem_cons, not_or]
        exact ⟨Ne.symm hc, ih hrest⟩

theorem splitLastDot_eq_some (h : splitLastDot cs = some (front, last)) :
    cs = front ++ '.' :: last ∧ '.' ∉ last := by
  induction cs generalizing front with
  | nil => cases h
  | cons c rest ih =>
    unfold splitLastDot at h
    split at h
    · next hrest =>
      cases h
      obtain ⟨rfl, hlast⟩ := ih hrest
      exact ⟨rfl, hlast⟩
    · next hrest =>
      split at h
      · next hc =>
        cases h
        exact ⟨by rw [hc, List.nil_append], notMem_of_splitLastDot hrest⟩
      · cases h

end

theorem pathSegments_append (path more : String) :
    pathSegments (path ++ "." ++ more) = pathSegments path ++ pathSegments more := by
  have hlist : (path ++ "." ++ more).toList = path.toList ++ '.' :: more.toList := by simp
  rw [pathSegments, hlist, splitDots_append, List.map_append]
  rfl

namespace Attr

/-- What a removal along segments makes of a tree in which they lead to an entry of a map. -/
inductive Removes (old : Attr) : List String → Attr → Attr → Prop
  | entry {key : String} {entries : List (String × Attr)} (hold : entries.lookup key = some old) :
      Removes old [key] (map entries) (map (drop key entries))
  | inside {segment : String} {rest : List String} {target inner inner' : Attr}
      (hstep : target.step? segment = some inner) (hinner : Removes old rest inner inner') :
      Removes old (segment :: rest) target (target.replace segment inner')

/-- What a container on the track keeps, where the path goes on with a segment: a map its keys in their order, but
for the last segment of the path, and a list its items but for the one on the track. -/
structure KeepsOrder (segment : String) (last : Bool) (container container' : Attr) : Prop where
  keys : ∀ {entries}, container = map entries → ∃ entries', container' = map entries' ∧
    entries'.map Prod.fst =
      if last then (entries.map Prod.fst).filter (· != segment) else entries.map Prod.fst
  items : ∀ {items}, container = list items → ∃ items', container' = list items' ∧
    items'.length = items.length ∧ ∀ j, segmentIndex? segment ≠ some j → items'[j]? = items[j]?

section
variable {old tree rest container kept inner inner' : Attr} {segments front after other : List String}
  {segment key : String} {entries : List (String × Attr)}

theorem lookup_drop_self (key : String) (entries : List (String × Attr)) : (drop key entries).lookup key = none := by
  unfold drop
  induction entries with
  | nil => rfl
  | cons entry entries ih =>
    obtain ⟨k, v⟩ := entry
    by_cases hk : k = key
    · rwa [List.filter_cons_of_neg (by simpa using hk)]
    · rw [List.filter_cons_of_pos (by simpa using hk), List.lookup_cons, beq_eq_false_iff_ne.2 (Ne.symm hk)]
      exact ih

theorem lookup_drop_of_ne {other : String} (hne : other ≠ key) (entries : List (String × Attr)) :
    (drop key entries).lookup other = entries.lookup other := by
  unfold drop
  induction entries with
  | nil => rfl
  | cons entry entries ih =>
    obtain ⟨k, v⟩ := entry
    by_cases hk : k = key
    · subst hk
      rw [List.filter_cons_of_neg (by simp), List.lookup_cons, beq_eq_false_iff_ne.2 hne]
      exact ih
    · rw [List.filter_cons_of_pos (by simpa using hk), List.lookup_cons, List.lookup_cons, ih]

theorem drop_eq_self (h : entries.lookup key = none) : drop key entries = entries := by
  refine List.filter_eq_self.2 fun entry hentry => ?_
  have hne : key ≠ entry.1 := by simpa using List.lookup_eq_none_iff.1 h entry hentry
  exact bne_iff_ne.2 hne.symm

theorem keys_drop (key : String) (entries : List (String × Attr)) :
    (drop key entries).map Prod.fst = (entries.map Prod.fst).filter (· != key) := by
  unfold drop
  rw [List.filter_map]
  rfl

theorem mem_keys_of_lookup (h : entries.lookup key = some inner) : key ∈ entries.map Prod.fst := by
  by_contra hmem
  have hnone : entries.lookup key = none := by
    refine List.lookup_eq_none_iff.2 fun entry hentry => ?_
    simpa using fun heq : key = entry.1 => hmem (heq ▸ List.mem_map_of_mem hentry)
  rw [h] at hnone
  cases hnone

theorem step?_replace (h : tree.step? segment = some inner) : (tree.replace segment inner').step? segment = some inner' := by
  cases tree with
  | map entries => exact lookup_put_self segment inner' entries
  | list items =>
    obtain ⟨index, hindex, hitem⟩ := Option.bind_eq_some_iff.1 h
    unfold replace
    rw [hindex]
    dsimp only
    rw [step?_list hindex, List.getElem?_set_self (List.getElem?_eq_some_iff.1 hitem).1]
  | _ => cases h

theorem replace_self (h : tree.step? segment = some inner) : tree.replace segment inner = tree := by
  cases tree with
  | map entries => exact congrArg map (put_eq_self h)
  | list items =>
    obtain ⟨index, hindex, hitem⟩ := Option.bind_eq_some_iff.1 h
    obtain ⟨hlt, rfl⟩ := List.getElem?_eq_some_iff.1 hitem
    unfold replace
    rw [hindex]
    exact congrArg list (List.set_getElem_self hlt)
  | _ => cases h

theorem getSegments_append (front after : List String) (tree : Attr) :
    getSegments (front ++ after) tree = (getSegments front tree).bind (getSegments after) := by
  induction front generalizing tree with
  | nil => rfl
  | cons segment front ih =>
    rw [List.cons_append, getSegments, getSegments, Option.bind_assoc]
    exact congrArg _ (funext ih)

section
variable {change : Attr → Option Attr × Attr}

theorem changeAt_fst (change : Attr → Option Attr × Attr) (segments : List String) (tree : Attr) :
    (changeAt change segments tree).1 = (getSegments segments tree).bind fun target => (change target).1 := by
  induction segments generalizing tree with
  | nil => rfl
  | cons segment rest ih =>
    unfold changeAt getSegments
    cases tree.step? segment with
    | none => rfl
    | some inner => exact ih inner

theorem changeAt_snd_of_none (hchange : ∀ target, (change target).1 = none → (change target).2 = target)
    (h : (changeAt change segments tree).1 = none) : (changeAt change segments tree).2 = tree := by
  induction segments generalizing tree with
  | nil => exact hchange tree h
  | cons segment rest ih =>
    unfold changeAt at h ⊢
    cases hstep : tree.step? segment with
    | none => rfl
    | some inner =>
      rw [hstep] at h
      dsimp only at h ⊢
      rw [ih h, replace_self hstep]

end

theorem takeEntry_fst (key : String) (target : Attr) : (takeEntry key target).1 = some old ↔
    ∃ entries, target = map entries ∧ entries.lookup key = some old := by
  cases target with
  | map entries => simp [takeEntry]
  | _ => simp [takeEntry]

theorem takeEntry_snd_of_none (target : Attr) (h : (takeEntry key target).1 = none) :
    (takeEntry key target).2 = target := by
  cases target with
  | map entries => exact congrArg map (drop_eq_self h)
  | _ => rfl

theorem removes_of_changeAt (h : changeAt (takeEntry key) front tree = (some old, rest)) :
    Removes old (front ++ [key]) tree rest := by
  induction front generalizing tree rest with
  | nil =>
    obtain ⟨entries, rfl, hold⟩ := (takeEntry_fst key tree).1 (congrArg Prod.fst h)
    obtain rfl : map (drop key entries) = rest := congrArg Prod.snd h
    exact .entry hold
  | cons segment front ih =>
    unfold changeAt at h
    cases hstep : tree.step? segment with
    | none =>
      rw [hstep] at h
      cases h
    | some inner =>
      rw [hstep] at h
      obtain ⟨houtcome, rfl⟩ := Prod.mk.inj h
      exact .inside hstep (ih (Prod.ext houtcome rfl))

theorem take_eq (tree : Attr) (path : String) :
    ∃ front key, pathSegments path = front ++ [key] ∧ tree.take path = changeAt (takeEntry key) front tree := by
  unfold take
  cases hsplit : splitLastDot path.toList with
  | none =>
    refine ⟨[], path, ?_, rfl⟩
    rw [pathSegments, splitDots_eq_singleton (notMem_of_splitLastDot hsplit), List.map_singleton, String.ofList_toList]
    rfl
  | some parts =>
    obtain ⟨before, last⟩ := parts
    obtain ⟨hpath, hlast⟩ := splitLastDot_eq_some hsplit
    refine ⟨pathSegments (String.ofList before), String.ofList last, ?_, rfl⟩
    rw [pathSegments, pathSegments, hpath, splitDots_append, splitDots_eq_singleton hlast, List.map_append,
      List.map_singleton, String.toList_ofList]

theorem getSegments_of_removes (h : Removes old segments tree rest) (more : List String) :
    getSegments (segments ++ more) rest = none := by
  induction h with
  | entry hold =>
    rw [List.singleton_append, getSegments, step?, lookup_drop_self]
    rfl
  | inside hstep _ ih =>
    rw [List.cons_append, getSegments, step?_replace hstep]
    exact ih

theorem getSegments_of_removes_of_departs (h : Removes old segments tree rest) (hdeparts : Departs tree segments other) :
    getSegments other rest = getSegments other tree := by
  induction h generalizing other with
  | entry hold =>
    cases hdeparts with
    | key hne =>
      rw [getSegments, getSegments, step?, step?, lookup_drop_of_ne hne]
    | belowKey hinner hrest => cases hrest
  | inside hstep _ ih =>
    cases hdeparts with
    | key hne =>
      rw [replace, getSegments, getSegments, step?, step?, lookup_put_of_ne _ _ hne]
    | index hi hj hne =>
      rw [replace, hi, getSegments, getSegments, step?_list hj, step?_list hj, List.getElem?_set_ne (Ne.symm hne)]
    | belowKey hinner hrest =>
      obtain rfl := Option.some.inj (hinner.symm.trans hstep)
      rw [getSegments, getSegments, step?_replace hstep, hstep]
      exact ih hrest
    | belowIndex hi hj hinner hrest =>
      obtain rfl := Option.some.inj (hinner.symm.trans ((step?_list hi).symm.trans hstep))
      have hother : (list _).step? _ = some _ := (step?_list hj).trans hinner
      rw [getSegments, getSegments, hother]
      rw [replace, hi, step?_list hj, List.getElem?_set_self (List.getElem?_eq_some_iff.1 hinner).1]
      exact ih hrest

/-- The removal reaches each container on the track as a removal along the rest of the path. -/
theorem removes_after (h : Removes old (front ++ segment :: after) tree rest)
    (hget : getSegments front tree = some container) : ∃ container', getSegments front rest = some container' ∧
      Removes old (segment :: after) container container' := by
  induction front generalizing tree rest with
  | nil =>
    cases hget
    exact ⟨rest, rfl, h⟩
  | cons first front ih =>
    obtain ⟨inner, hfirst, hinside⟩ := Option.bind_eq_some_iff.1 hget
    rw [List.cons_append] at h
    generalize htail : front ++ segment :: after = tail at h
    cases h with
    | entry hold => cases (List.append_eq_nil_iff.1 htail).2
    | inside hstep hinner =>
      obtain rfl := Option.some.inj (hfirst.symm.trans hstep)
      rw [getSegments, step?_replace hstep]
      exact ih (htail ▸ hinner) hinside

theorem keepsOrder_of_removes {container' : Attr} (h : Removes old (segment :: after) container container') :
    KeepsOrder segment after.isEmpty container container' := by
  constructor
  · rintro entries rfl
    cases h with
    | entry hold => exact ⟨_, rfl, keys_drop ..⟩
    | inside hstep hinner =>
      refine ⟨_, rfl, ?_⟩
      rw [keys_put, if_pos (mem_keys_of_lookup hstep)]
      cases after with
      | nil => cases hinner
      | cons next after => rfl
  · rintro items rfl
    cases h with
    | inside hstep hinner =>
      obtain ⟨index, hindex, -⟩ := Option.bind_eq_some_iff.1 hstep
      unfold replace
      rw [hindex]
      refine ⟨_, rfl, List.length_set, fun j hj => List.getElem?_set_ne ?_⟩
      rintro rfl
      exact hj rfl

/-- A removal takes out what is read at the path, if the last segment is a key of a map. Then nothing is read at the
path any more, nor at an extension of it; every path that leaves its track at some container leads to what it led
to, and the containers on the track keep their order. Where nothing is taken out the tree is left as it was. -/
theorem take_undoes_get (tree : Attr) (path : String) :
    (∀ old, (tree.take path).1 = some old ↔ tree.get? path = some old ∧
      ∃ front key entries, pathSegments path = front ++ [key] ∧ getSegments front tree = some (map entries)) ∧
    (∀ old rest, tree.take path = (some old, rest) →
      rest.get? path = none ∧ (∀ more, rest.get? (path ++ "." ++ more) = none) ∧
      (∀ other, Departs tree (pathSegments path) (pathSegments other) → rest.get? other = tree.get? other) ∧
      ∀ front segment after container, pathSegments path = front ++ segment :: after →
        getSegments front tree = some container →
        ∃ container', getSegments front rest = some container' ∧
          KeepsOrder segment after.isEmpty container container') ∧
    ((tree.take path).1 = none → (tree.take path).2 = tree) := by
  obtain ⟨front, key, hpath, htake⟩ := take_eq tree path
  rw [htake]
  refine ⟨fun old => ?_, fun old rest h => ?_, changeAt_snd_of_none takeEntry_snd_of_none⟩
  · rw [changeAt_fst, get?, hpath, getSegments_append, Option.bind_eq_some_iff, Option.bind_eq_some_iff]
    constructor
    · rintro ⟨target, hfront, hout⟩
      obtain ⟨entries, rfl, hold⟩ := (takeEntry_fst key target).1 hout
      refine ⟨⟨map entries, hfront, ?_⟩, front, key, entries, rfl, hfront⟩
      rw [getSegments, step?, hold]
      rfl
    · rintro ⟨⟨target, hfront, hold⟩, front', key', entries, heq, hfront'⟩
      obtain ⟨rfl, -⟩ := List.append_inj' heq rfl
      obtain rfl := Option.some.inj (hfront.symm.trans hfront')
      obtain ⟨inner, hinner, hout⟩ := Option.bind_eq_some_iff.1 hold
      cases hout
      exact ⟨_, hfront, (takeEntry_fst key _).2 ⟨entries, rfl, hinner⟩⟩
  · have hremoves := removes_of_changeAt h
    rw [← hpath] at hremoves
    refine ⟨?_, fun more => ?_, fun other => getSegments_of_removes_of_departs hremoves, ?_⟩
    · have hgone := getSegments_of_removes hremoves []
      rwa [List.append_nil] at hgone
    · rw [get?, pathSegments_append]
      exact getSegments_of_removes hremoves _
    · intro before segment after container hsplit hget
      rw [hsplit] at hremoves
      obtain ⟨container', hget', hafter⟩ := removes_after hremoves hget
      exact ⟨container', hget', keepsOrder_of_removes hafter⟩

end

/-- The entry under the empty key of a map that is the second item of a list. -/
theorem take_undoes_get_empty_key :
    let tree := map [("sizes", list [null, map [("a", bool true), ("", text "x"), ("b", null)]]), ("name", text "y")]
    ∃ rest, tree.take "sizes.+1." = (some (text "x"), rest) ∧ tree.get? "sizes.+1." = some (text "x") ∧
      rest.get? "sizes.+1." = none ∧ rest.get? "sizes.+1..z" = none ∧ rest.get? "sizes.01.b" = some null ∧
      (tree.take "sizes.1").2 = tree := by
  intro tree
  have h : tree.take "sizes.+1." = (some (text "x"), map [("sizes", list [null, map [("a", bool true), ("b", null)]]),
      ("name", text "y")]) := rfl
  have hdeparts : Departs tree ["sizes", "+1", ""] ["sizes", "01", "b"] :=
    .belowKey rfl (.belowIndex (i := 1) rfl rfl rfl (.key (by decide)))
  obtain ⟨hiff, hafter, -⟩ := take_undoes_get tree "sizes.+1."
  obtain ⟨hgone, hbeyond, hother, -⟩ := hafter _ _ h
  exact ⟨_, h, ((hiff _).1 rfl).1, hgone, hbeyond "z", hother "sizes.01.b" hdeparts,
    (take_undoes_get tree "sizes.1").2.2 rfl⟩

end Attr

end Grove
