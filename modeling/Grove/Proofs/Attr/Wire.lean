import Grove.Attr.Wire
import Grove.Proofs.Json.Fields
import Grove.Proofs.Json.Text
/-!
# Attribute trees and JSON trees

What is written of an attribute tree reads back as that tree. Two things are needed of it: a map names each of
its keys once, as an ordered map always does, and its numbers are finite, for others have no JSON form. A tree of
which a reader has given up a part that is nested too deep is not read at all.
-/

set_option autoImplicit false

namespace Grove.Attr

mutual

/-- True of a tree if something is true of every value in it, the tree included. -/
def all (p : Attr → Bool) : Attr → Bool
  | list items => p (list items) && allItems p items
  | map entries => p (map entries) && allEntries p entries
  | a => p a

def allItems (p : Attr → Bool) : List Attr → Bool
  | [] => true
  | item :: rest => all p item && allItems p rest

def allEntries (p : Attr → Bool) : List (String × Attr) → Bool
  | [] => true
  | (_, item) :: rest => all p item && allEntries p rest

end

def hasDistinctKeys : Attr → Bool
  | map entries => decide (entries.map Prod.fst).Nodup
  | _ => true

def isFiniteNumber : Attr → Bool
  | number n => n.isFinite
  | _ => true

/-- Every map in the tree names each of its keys once. -/
def IsKeyed (a : Attr) : Prop := a.all hasDistinctKeys = true

/-- Every number in the tree is finite. -/
def IsFinite (a : Attr) : Prop := a.all isFiniteNumber = true

instance (a : Attr) : Decidable a.IsKeyed := inferInstanceAs (Decidable (_ = true))

instance (a : Attr) : Decidable a.IsFinite := inferInstanceAs (Decidable (_ = true))

theorem isKeyed_emptyMap : emptyMap.IsKeyed := rfl

theorem isFinite_emptyMap : emptyMap.IsFinite := rfl

section
variable {p : Attr → Bool} {key : String} {item : Attr} {items rest : List Attr} {entries read : List (String × Attr)}

theorem all_list : (list items).all p = true ↔ p (list items) = true ∧ allItems p items = true := Bool.and_eq_true_iff

theorem all_map : (map entries).all p = true ↔ p (map entries) = true ∧ allEntries p entries = true :=
  Bool.and_eq_true_iff

theorem allItems_cons : allItems p (item :: rest) = true ↔ item.all p = true ∧ allItems p rest = true :=
  Bool.and_eq_true_iff

theorem allEntries_cons :
    allEntries p ((key, item) :: entries) = true ↔ item.all p = true ∧ allEntries p entries = true :=
  Bool.and_eq_true_iff

theorem self_of_all {a : Attr} (h : a.all p = true) : p a = true := by
  cases a with
  | list items => exact (all_list.1 h).1
  | map entries => exact (all_map.1 h).1
  | _ => exact h

theorem put_of_notMem (h : key ∉ entries.map Prod.fst) : put key item entries = entries ++ [(key, item)] := by
  induction entries with
  | nil => rfl
  | cons entry rest ih =>
    obtain ⟨k, v⟩ := entry
    rw [List.map_cons, List.mem_cons, not_or] at h
    unfold put
    rw [if_neg (Ne.symm h.1), ih h.2]
    rfl

end

mutual

theorem ofJson?_toJson {a : Attr} (hkeys : a.IsKeyed) (hfinite : a.IsFinite) : ofJson? a.toJson = some a := by
  cases a with
  | null => rfl
  | bool b => rfl
  | text s => rfl
  | number n =>
    have hn : n.isFinite = true := hfinite
    unfold toJson Json.ofNumber
    rw [if_pos hn]
    rfl
  | list items =>
    unfold toJson ofJson?
    rw [itemsOfJson?_itemsToJson (all_list.1 hkeys).2 (all_list.1 hfinite).2]
    rfl
  | map entries =>
    have hdistinct : (([] ++ entries).map Prod.fst).Nodup := of_decide_eq_true (all_map.1 hkeys).1
    unfold toJson ofJson?
    rw [entriesOfJson?_entriesToJson hdistinct (all_map.1 hkeys).2 (all_map.1 hfinite).2]
    rfl

theorem itemsOfJson?_itemsToJson {items : List Attr} (hkeys : allItems hasDistinctKeys items = true)
    (hfinite : allItems isFiniteNumber items = true) : itemsOfJson? (itemsToJson items) = some items := by
  cases items with
  | nil => rfl
  | cons item rest =>
    obtain ⟨hitem, hrest⟩ := allItems_cons.1 hkeys
    obtain ⟨hitem', hrest'⟩ := allItems_cons.1 hfinite
    unfold itemsToJson itemsOfJson?
    rw [ofJson?_toJson hitem hitem', itemsOfJson?_itemsToJson hrest hrest']
    rfl

theorem entriesOfJson?_entriesToJson {read entries : List (String × Attr)}
    (hdistinct : ((read ++ entries).map Prod.fst).Nodup) (hkeys : allEntries hasDistinctKeys entries = true)
    (hfinite : allEntries isFiniteNumber entries = true) :
    entriesOfJson? read (entriesToJson entries) = some (read ++ entries) := by
  cases entries with
  | nil =>
    rw [List.append_nil]
    rfl
  | cons entry rest =>
    obtain ⟨key, item⟩ := entry
    obtain ⟨hitem, hrest⟩ := allEntries_cons.1 hkeys
    obtain ⟨hitem', hrest'⟩ := allEntries_cons.1 hfinite
    have hnew : key ∉ read.map Prod.fst := by
      rw [List.map_append, List.map_cons] at hdistinct
      exact fun hmem => (List.nodup_append.1 hdistinct).2.2 key hmem key (List.mem_cons_self ..) rfl
    rw [List.append_cons] at hdistinct ⊢
    unfold entriesToJson entriesOfJson?
    rw [ofJson?_toJson hitem hitem']
    change entriesOfJson? (put key item read) (entriesToJson rest) = _
    rw [put_of_notMem hnew]
    exact entriesOfJson?_entriesToJson hdistinct hrest hrest'

end

section
variable {key : String} {item : Attr} {entries : List (String × Attr)}

theorem mem_keys_put {other : String} :
    other ∈ (put key item entries).map Prod.fst ↔ other = key ∨ other ∈ entries.map Prod.fst := by
  induction entries with
  | nil => simp [put]
  | cons entry rest ih =>
    obtain ⟨k, v⟩ := entry
    by_cases hk : k = key
    · simp [put, hk]
    · rw [put, if_neg hk, List.map_cons, List.map_cons, List.mem_cons, List.mem_cons, ih]
      tauto

theorem nodup_keys_put (h : (entries.map Prod.fst).Nodup) : ((put key item entries).map Prod.fst).Nodup := by
  induction entries with
  | nil => exact List.nodup_singleton key
  | cons entry rest ih =>
    obtain ⟨k, v⟩ := entry
    rw [List.map_cons, List.nodup_cons] at h
    unfold put
    split
    · exact List.nodup_cons.2 h
    · next hk =>
      refine List.nodup_cons.2 ⟨fun hmem => ?_, ih h.2⟩
      exact (mem_keys_put.1 hmem).elim hk h.1

theorem allEntries_put {p : Attr → Bool} (hitem : item.all p = true) (h : allEntries p entries = true) :
    allEntries p (put key item entries) = true := by
  induction entries with
  | nil => exact allEntries_cons.2 ⟨hitem, rfl⟩
  | cons entry rest ih =>
    obtain ⟨k, v⟩ := entry
    obtain ⟨hv, hrest⟩ := allEntries_cons.1 h
    unfold put
    split
    · exact allEntries_cons.2 ⟨hitem, hrest⟩
    · exact allEntries_cons.2 ⟨hv, ih hrest⟩

end

mutual

theorem isWritable_toJson {a : Attr} : a.toJson.isWritable = true := by
  cases a with
  | number n =>
    unfold toJson Json.ofNumber
    split
    · next hn => exact hn
    · rfl
  | list items => exact areWritable_itemsToJson
  | map entries => exact entriesWritable_entriesToJson
  | _ => rfl

theorem areWritable_itemsToJson {items : List Attr} : Json.areWritable (itemsToJson items) = true := by
  cases items with
  | nil => rfl
  | cons item rest => exact Bool.and_eq_true_iff.2 ⟨isWritable_toJson, areWritable_itemsToJson⟩

theorem entriesWritable_entriesToJson {entries : List (String × Attr)} :
    Json.entriesWritable (entriesToJson entries) = true := by
  cases entries with
  | nil => rfl
  | cons entry rest =>
    obtain ⟨key, item⟩ := entry
    exact Bool.and_eq_true_iff.2 ⟨isWritable_toJson, entriesWritable_entriesToJson⟩

end

mutual

theorem ofJson?_cut {tree : Json} {room : ℕ} (h : room < tree.depth) : ofJson? (Json.cut room tree) = none := by
  cases tree with
  | array items =>
    cases room with
    | zero => rfl
    | succ room => exact Option.map_eq_none_iff.2 (itemsOfJson?_cutItems (Nat.lt_of_succ_lt_succ h))
  | object entries =>
    cases room with
    | zero => rfl
    | succ room => exact Option.map_eq_none_iff.2 (entriesOfJson?_cutEntries (Nat.lt_of_succ_lt_succ h))
  | _ => cases h

theorem itemsOfJson?_cutItems {items : List Json} {room : ℕ} (h : room < Json.itemsDepth items) :
    itemsOfJson? (Json.cutItems room items) = none := by
  cases items with
  | nil => cases h
  | cons item rest =>
    unfold Json.cutItems itemsOfJson?
    rcases lt_max_iff.1 h with hitem | hrest
    · rw [ofJson?_cut hitem]
      rfl
    · rw [itemsOfJson?_cutItems hrest]
      cases ofJson? (Json.cut room item) <;> rfl

theorem entriesOfJson?_cutEntries {entries : List (String × Json)} {read : List (String × Attr)} {room : ℕ}
    (h : room < Json.entriesDepth entries) : entriesOfJson? read (Json.cutEntries room entries) = none := by
  cases entries with
  | nil => cases h
  | cons entry rest =>
    obtain ⟨key, item⟩ := entry
    unfold Json.cutEntries entriesOfJson?
    rcases lt_max_iff.1 h with hitem | hrest
    · rw [ofJson?_cut hitem]
      rfl
    · cases ofJson? (Json.cut room item) with
      | none => rfl
      | some a => exact entriesOfJson?_cutEntries hrest

end

mutual

/-- A map that was read names each of its keys once, however often they were written. -/
theorem isKeyed_of_ofJson? {tree : Json} {a : Attr} (h : ofJson? tree = some a) : a.IsKeyed := by
  cases tree with
  | null => cases h; rfl
  | bool b => cases h; rfl
  | integer i => cases h; rfl
  | real x => cases h; rfl
  | string s => cases h; rfl
  | unreadable => cases h
  | array trees =>
    obtain ⟨items, hitems, rfl⟩ := Option.map_eq_some_iff.1 h
    exact all_list.2 ⟨rfl, allItems_of_itemsOfJson? hitems⟩
  | object trees =>
    obtain ⟨entries, hentries, rfl⟩ := Option.map_eq_some_iff.1 h
    have hempty : (([] : List (String × Attr)).map Prod.fst).Nodup := List.nodup_nil
    obtain ⟨hdistinct, hkeys⟩ := allEntries_of_entriesOfJson? hempty rfl hentries
    exact all_map.2 ⟨decide_eq_true hdistinct, hkeys⟩

theorem allItems_of_itemsOfJson? {trees : List Json} {items : List Attr} (h : itemsOfJson? trees = some items) :
    allItems hasDistinctKeys items = true := by
  cases trees with
  | nil => cases h; rfl
  | cons tree rest =>
    obtain ⟨item, hitem, h⟩ := Option.bind_eq_some_iff.1 h
    obtain ⟨others, hothers, h⟩ := Option.bind_eq_some_iff.1 h
    cases h
    exact allItems_cons.2 ⟨isKeyed_of_ofJson? hitem, allItems_of_itemsOfJson? hothers⟩

theorem allEntries_of_entriesOfJson? {trees : List (String × Json)} {read entries : List (String × Attr)}
    (hdistinct : (read.map Prod.fst).Nodup) (hkeys : allEntries hasDistinctKeys read = true)
    (h : entriesOfJson? read trees = some entries) :
    (entries.map Prod.fst).Nodup ∧ allEntries hasDistinctKeys entries = true := by
  cases trees with
  | nil => cases h; exact ⟨hdistinct, hkeys⟩
  | cons tree rest =>
    obtain ⟨key, tree⟩ := tree
    obtain ⟨item, hitem, h⟩ := Option.bind_eq_some_iff.1 h
    exact allEntries_of_entriesOfJson? (nodup_keys_put hdistinct)
      (allEntries_put (isKeyed_of_ofJson? hitem) hkeys) h

end

end Grove.Attr
