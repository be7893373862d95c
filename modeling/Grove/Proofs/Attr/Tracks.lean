import Mathlib.Tactic
import Grove.Attr.Path
import Grove.Proofs.Attr.Wire
/-!
# What a write along a path changes

A write that is not refused goes down the tree by the steps that a reader of the path takes afterwards, so the reader
finds the value. A path that leaves this track at some container, by another key of a map or by another index of a
list, leads to where it led before. Of the containers on the track a map keeps its keys in place, with a new one at
the end, and a list its items, with nulls up to an index past the end; only a list that is addressed by no index is
given up for a map.
-/

set_option autoImplicit false

namespace Grove.Attr

def padded (items : List Attr) (index : Nat) : List Attr := items ++ List.replicate (index + 1 - items.length) null

/-- What a write of a value along segments makes of a tree, when nothing refuses it. -/
inductive Writes (value : Attr) : List String → Attr → Attr → Prop
  | here {target : Attr} : Writes value [] target value
  | item {segment : String} {index : Nat} {rest : List String} {items : List Attr} {inner : Attr}
      (hindex : segmentIndex? segment = some index)
      (hinner : Writes value rest (items[index]?.getD null) inner) :
      Writes value (segment :: rest) (list items) (list ((padded items index).set index inner))
  | entry {segment : String} {rest : List String} {target inner : Attr}
      (hno : ∀ items, target = list items → segmentIndex? segment = none)
      (hinner : Writes value rest ((target.entriesOf.lookup segment).getD null) inner) :
      Writes value (segment :: rest) target (map (put segment inner target.entriesOf))

/-- The second path leaves the track of the first one at some container of a tree: at a map by another key, or at a
list by another index. Up to there it takes the same steps. -/
inductive Departs : Attr → List String → List String → Prop
  | key {entries : List (String × Attr)} {segment other : String} {rest rest' : List String} (hne : other ≠ segment) :
      Departs (map entries) (segment :: rest) (other :: rest')
  | index {items : List Attr} {segment other : String} {i j : Nat} {rest rest' : List String}
      (hi : segmentIndex? segment = some i) (hj : segmentIndex? other = some j) (hne : j ≠ i) :
      Departs (list items) (segment :: rest) (other :: rest')
  | belowKey {entries : List (String × Attr)} {key : String} {inner : Attr} {rest rest' : List String}
      (hinner : entries.lookup key = some inner) (hrest : Departs inner rest rest') :
      Departs (map entries) (key :: rest) (key :: rest')
  | belowIndex {items : List Attr} {segment other : String} {i : Nat} {inner : Attr} {rest rest' : List String}
      (hi : segmentIndex? segment = some i) (hj : segmentIndex? other = some i) (hinner : items[i]? = some inner)
      (hrest : Departs inner rest rest') :
      Departs (list items) (segment :: rest) (other :: rest')

/-- What a container on the track keeps, where the path goes on with a segment: a map its keys, and a list its items
but for the one at the index. -/
structure KeepsPlaces (segment : String) (container container' : Attr) : Prop where
  keys : ∀ {entries}, container = map entries → ∃ entries', container' = map entries' ∧
    entries'.map Prod.fst =
      if segment ∈ entries.map Prod.fst then entries.map Prod.fst else entries.map Prod.fst ++ [segment]
  items : ∀ {items index}, container = list items → segmentIndex? segment = some index →
    ∃ items', container' = list items' ∧ ∀ j ≠ index, items'[j]? = (padded items index)[j]?

section
variable {value tree written container kept : Attr} {segments front rest other : List String} {segment : String}

theorem eq_padded_of_padTo {items items' : List Attr} {index : Nat} (h : padTo items index = .ok items') :
    items' = padded items index := by
  unfold padTo at h
  split at h
  · next hlt =>
    cases h
    rw [padded, Nat.sub_eq_zero_of_le hlt, List.replicate_zero, List.append_nil]
  · split at h
    · exact (Except.ok.inj h).symm
    · cases h

theorem getElem?_padded {items : List Attr} {index j : Nat} {item : Attr} (h : items[j]? = some item) :
    (padded items index)[j]? = some item := by
  rw [padded, List.getElem?_append_left (List.getElem?_eq_some_iff.1 h).1, h]

theorem getD_padded (items : List Attr) (index : Nat) :
    (padded items index)[index]?.getD null = items[index]?.getD null := by
  cases hitem : items[index]? with
  | some item => rw [getElem?_padded hitem]
  | none =>
    rw [padded, List.getElem?_append_right (List.getElem?_eq_none_iff.1 hitem), List.getElem?_replicate]
    split <;> rfl

theorem lt_length_padded (items : List Attr) (index : Nat) : index < (padded items index).length := by
  rw [padded, List.length_append, List.length_replicate]
  omega

theorem keys_put (key : String) (item : Attr) (entries : List (String × Attr)) :
    (put key item entries).map Prod.fst =
      if key ∈ entries.map Prod.fst then entries.map Prod.fst else entries.map Prod.fst ++ [key] := by
  split
  · next hmem =>
    induction entries with
    | nil => cases hmem
    | cons entry rest ih =>
      obtain ⟨k, v⟩ := entry
      unfold put
      split
      · rfl
      · next hk =>
        rw [List.map_cons, List.map_cons, ih ((List.mem_cons.1 hmem).resolve_left (Ne.symm hk))]
  · next hmem =>
    rw [put_of_notMem hmem, List.map_append]
    rfl

theorem writes_of_writeSegments (h : writeSegments segments tree value = (.ok (), written)) :
    Writes value segments tree written := by
  induction segments generalizing tree written with
  | nil =>
    cases h
    exact .here
  | cons segment rest ih =>
    unfold writeSegments at h
    split at h
    · next items index hindex =>
      cases hpad : padTo items index with
      | error e =>
        rw [hpad] at h
        cases h
      | ok padded =>
        rw [hpad] at h
        obtain ⟨houtcome, rfl⟩ := Prod.mk.inj h
        rw [eq_padded_of_padTo hpad, getD_padded] at houtcome ⊢
        exact .item hindex (ih (Prod.ext houtcome rfl))
    · next target hno =>
      obtain ⟨houtcome, rfl⟩ := Prod.mk.inj h
      refine .entry (fun items hitems => ?_) (ih (Prod.ext houtcome rfl))
      exact Option.eq_none_iff_forall_ne_some.2 fun index hindex => hno items index hitems hindex

theorem writes_of_set {path : String} (h : tree.set path value = .ok written) :
    Writes value (pathSegments path) tree written := by
  unfold set at h
  split at h
  · next houtcome =>
    cases h
    exact writes_of_writeSegments houtcome
  · cases h

theorem step?_list {items : List Attr} {index : Nat} (hindex : segmentIndex? segment = some index) :
    (list items).step? segment = items[index]? := by
  unfold step?
  rw [hindex]
  rfl

theorem getSegments_of_writes (h : Writes value segments tree written) : getSegments segments written = some value := by
  induction h with
  | here => rfl
  | item hindex _ ih =>
    rw [getSegments, step?_list hindex, List.getElem?_set_self (lt_length_padded _ _)]
    exact ih
  | entry _ _ ih =>
    rw [getSegments, step?, lookup_put_self]
    exact ih

theorem getSegments_of_departs (h : Writes value segments tree written) (hdeparts : Departs tree segments other)
    (hget : getSegments other tree = some kept) : getSegments other written = some kept := by
  -- as far as the tracks agree, the write goes on below the value that the other path goes on below
  induction h generalizing other with
  | here => cases hdeparts
  | item hindex _ ih =>
    cases hdeparts with
    | index hi hj hne =>
      cases hindex.symm.trans hi
      obtain ⟨item, hitem, hget⟩ := Option.bind_eq_some_iff.1 hget
      rw [step?_list hj] at hitem
      rw [getSegments, step?_list hj, List.getElem?_set_ne (Ne.symm hne), getElem?_padded hitem]
      exact hget
    | belowIndex hi hj hinner hrest =>
      cases hindex.symm.trans hi
      rw [getSegments, step?_list hj, hinner] at hget
      rw [getSegments, step?_list hj, List.getElem?_set_self (lt_length_padded _ _)]
      rw [hinner] at ih
      exact ih hrest hget
  | entry hno _ ih =>
    cases hdeparts with
    | key hne =>
      rw [getSegments, step?, lookup_put_of_ne _ _ hne]
      exact hget
    | index hi => cases (hno _ rfl).symm.trans hi
    | belowKey hinner hrest =>
      rw [getSegments, step?, hinner] at hget
      rw [getSegments, step?, lookup_put_self]
      rw [entriesOf, hinner] at ih
      exact ih hrest hget
    | belowIndex hi => cases (hno _ rfl).symm.trans hi

theorem writes_below (h : Writes value (front ++ rest) tree written) (hget : getSegments front tree = some container) :
    ∃ container', getSegments front written = some container' ∧ Writes value rest container container' := by
  induction front generalizing tree written with
  | nil =>
    cases hget
    exact ⟨written, rfl, h⟩
  | cons segment front ih =>
    obtain ⟨inner, hstep, hinside⟩ := Option.bind_eq_some_iff.1 hget
    cases h with
    | item hindex hinner =>
      rw [step?_list hindex] at hstep
      rw [hstep] at hinner
      rw [getSegments, step?_list hindex, List.getElem?_set_self (lt_length_padded _ _)]
      exact ih hinner hinside
    | entry hno hinner =>
      cases tree with
      | map entries =>
        rw [entriesOf, show entries.lookup segment = some inner from hstep] at hinner
        rw [getSegments, step?, lookup_put_self]
        exact ih hinner hinside
      | list items =>
        unfold step? at hstep
        rw [hno items rfl] at hstep
        cases hstep
      | _ => cases hstep

theorem keepsPlaces_of_writes {container' : Attr} (h : Writes value (segment :: rest) container container') :
    KeepsPlaces segment container container' := by
  constructor
  · rintro entries rfl
    cases h with
    | entry _ _ => exact ⟨_, rfl, keys_put ..⟩
  · rintro items index rfl hindex
    cases h with
    | item hindex' _ =>
      cases hindex'.symm.trans hindex
      exact ⟨_, rfl, fun j hj => List.getElem?_set_ne (Ne.symm hj)⟩
    | entry hno _ => cases (hno items rfl).symm.trans hindex

/-- What is written along a path is read along it. Every path that leaves its track at some container still leads to
the value that it led to, and the containers on the track keep their places. -/
theorem set_seen_alone {path : String} (h : tree.set path value = .ok written) :
    written.get? path = some value ∧
    (∀ other kept, Departs tree (pathSegments path) (pathSegments other) →
      tree.get? other = some kept → written.get? other = some kept) ∧
    ∀ front segment rest container, pathSegments path = front ++ segment :: rest →
      getSegments front tree = some container →
      ∃ container', getSegments front written = some container' ∧ KeepsPlaces segment container container' := by
  have hwrites := writes_of_set h
  refine ⟨getSegments_of_writes hwrites, fun other kept => getSegments_of_departs hwrites, ?_⟩
  intro front segment rest container hpath hget
  rw [hpath] at hwrites
  obtain ⟨container', hget', hbelow⟩ := writes_below hwrites hget
  exact ⟨container', hget', keepsPlaces_of_writes hbelow⟩

end

/-- A write past the end of a list, to an index with a plus sign. -/
theorem set_seen_alone_padded :
    ∃ written, set (map [("sizes", list [bool true]), ("name", text "x")]) "sizes.+2" (text "new") = .ok written ∧
      written.get? "sizes.+2" = some (text "new") ∧ written.get? "sizes.00" = some (bool true) ∧
      written.get? "name" = some (text "x") ∧
      ∃ sizes, getSegments ["sizes"] written = some sizes ∧ KeepsPlaces "+2" (list [bool true]) sizes := by
  have h : set (map [("sizes", list [bool true]), ("name", text "x")]) "sizes.+2" (text "new") =
      .ok (map [("sizes", list [bool true, null, text "new"]), ("name", text "x")]) := rfl
  have hsizes : Departs (map [("sizes", list [bool true]), ("name", text "x")]) ["sizes", "+2"] ["sizes", "00"] :=
    .belowKey rfl (.index (i := 2) (j := 0) rfl rfl (by decide))
  obtain ⟨hread, hother, htrack⟩ := set_seen_alone h
  exact ⟨_, h, hread, hother "sizes.00" _ hsizes rfl, hother "name" _ (.key (by decide)) rfl,
    htrack ["sizes"] "+2" [] _ rfl rfl⟩

end Grove.Attr
