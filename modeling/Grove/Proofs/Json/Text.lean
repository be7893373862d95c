import Mathlib.Tactic
import Grove.Proofs.Json.Scalars
/-!
# Trees in JSON text

What is written of a tree is read as that tree, so long as the reader may open as many containers inside each
other as the tree has. What is nested deeper is read as having no value.
-/

set_option autoImplicit false

namespace Grove.Json

mutual

/-- Every number in the tree has a text that is read as a number of its kind. -/
def isWritable : Json → Bool
  | integer i => isLong i
  | real x => x.isFinite
  | unreadable => false
  | array items => areWritable items
  | object entries => entriesWritable entries
  | _ => true

def areWritable : List Json → Bool
  | [] => true
  | item :: rest => isWritable item && areWritable rest

def entriesWritable : List (String × Json) → Bool
  | [] => true
  | (_, item) :: rest => isWritable item && entriesWritable rest

end

mutual

/-- How many containers enclose each other. -/
def depth : Json → ℕ
  | array items => itemsDepth items + 1
  | object entries => entriesDepth entries + 1
  | _ => 0

def itemsDepth : List Json → ℕ
  | [] => 0
  | item :: rest => max (depth item) (itemsDepth rest)

def entriesDepth : List (String × Json) → ℕ
  | [] => 0
  | (_, item) :: rest => max (depth item) (entriesDepth rest)

end

mutual

/-- The tree with nothing in the place of containers that more than `room` others enclose. -/
def cut : ℕ → Json → Json
  | 0, array _ => unreadable
  | 0, object _ => unreadable
  | room + 1, array items => array (cutItems room items)
  | room + 1, object entries => object (cutEntries room entries)
  | _, tree => tree

def cutItems (room : ℕ) : List Json → List Json
  | [] => []
  | item :: rest => cut room item :: cutItems room rest

def cutEntries (room : ℕ) : List (String × Json) → List (String × Json)
  | [] => []
  | (key, item) :: rest => (key, cut room item) :: cutEntries room rest

end

section
variable {fuel room : ℕ} {rest : List Char} {key : String} {item : Json} {items : List Json}
  {entries : List (String × Json)}

theorem toList_writeString (s : String) :
    (writeString s).toList = '\"' :: (s.toList.flatMap escape ++ ['\"']) := String.toList_ofList

theorem toList_write_array : (write (array items)).toList = '[' :: ((writeItems items).toList ++ [']']) := by
  unfold write
  rw [String.toList_append, String.toList_append]
  rfl

theorem toList_write_object :
    (write (object entries)).toList = '\x7b' :: ((writeEntries entries).toList ++ ['\x7d']) := by
  unfold write
  rw [String.toList_append, String.toList_append]
  rfl

theorem toList_writeItems_cons (hne : items ≠ []) : (writeItems (item :: items)).toList =
    (write item).toList ++ ',' :: (writeItems items).toList := by
  rw [writeItems, String.toList_append, String.toList_append, List.append_assoc]
  · rfl
  · exact hne

theorem toList_writeEntries_singleton : (writeEntries [(key, item)]).toList =
    (writeString key).toList ++ ':' :: (write item).toList := by
  rw [writeEntries, String.toList_append, String.toList_append, List.append_assoc]
  rfl

theorem toList_writeEntries_cons (hne : entries ≠ []) : (writeEntries ((key, item) :: entries)).toList =
    (writeString key).toList ++ ':' :: ((write item).toList ++ ',' :: (writeEntries entries).toList) := by
  rw [writeEntries, String.toList_append, String.toList_append, String.toList_append, String.toList_append]
  · simp
  · exact hne

theorem exists_head_number (negative : Bool) (n : ℕ) (t : List Char) : ∃ c u,
    (if negative then ['-'] else []) ++ (Decimal.natDigits n ++ t) = c :: u ∧ isSpace c = false ∧ c ≠ ']' := by
  cases negative with
  | true => exact ⟨'-', _, rfl, rfl, by decide⟩
  | false =>
    obtain ⟨c, hc, hdigit⟩ := head_natDigits n t
    cases hn : Decimal.natDigits n ++ t with
    | nil =>
      rw [hn] at hc
      cases hc
    | cons d u =>
      rw [hn] at hc
      cases hc
      exact ⟨c, u, rfl, isSpace_of_isDigit hdigit, ne_of_isDigit hdigit rfl⟩

theorem exists_head_write {tree : Json} (hw : tree.isWritable = true) :
    ∃ c t, (write tree).toList = c :: t ∧ isSpace c = false ∧ c ≠ ']' := by
  cases tree with
  | null => exact ⟨'n', _, rfl, rfl, by decide⟩
  | bool b =>
    cases b with
    | true => exact ⟨'t', _, rfl, rfl, by decide⟩
    | false => exact ⟨'f', _, rfl, rfl, by decide⟩
  | integer i =>
    have h := exists_head_number (decide (i < 0)) i.natAbs []
    rw [List.append_nil, ← Decimal.intDigits_eq] at h
    unfold write
    rwa [String.toList_ofList]
  | real x =>
    replace hw : x.isFinite = true := hw
    obtain ⟨s, whole, fraction, -, -, htext, -⟩ := Decimal.pointed_eq hw
    unfold write writeReal
    rw [if_pos hw, String.toList_ofList, htext]
    exact exists_head_number s whole _
  | string s => exact ⟨_, _, toList_writeString s, rfl, by decide⟩
  | array items => exact ⟨_, _, toList_write_array, rfl, by decide⟩
  | object entries => exact ⟨_, _, toList_write_object, rfl, by decide⟩
  | unreadable => cases hw

theorem length_le_flatMap_escape (cs : List Char) : cs.length ≤ (cs.flatMap escape).length := by
  induction cs with
  | nil => exact Nat.le_refl _
  | cons c cs ih =>
    have hpos : 0 < (escape c).length := by
      unfold escape
      split_ifs <;> exact Nat.succ_pos _
    rw [List.flatMap_cons, List.length_append, List.length_cons]
    omega

theorem readString_write (rest : List Char) (s : String) (hfuel : (writeString s).toList.length ≤ fuel + 1) :
    ∃ t, (writeString s).toList = '\"' :: t ∧
      readString fuel (some []) (t ++ rest) = some (some s.toList.reverse, rest) := by
  refine ⟨_, toList_writeString s, ?_⟩
  have hlength := length_le_flatMap_escape s.toList
  rw [toList_writeString, List.length_cons, List.length_append, List.length_singleton] at hfuel
  rw [List.append_assoc, List.singleton_append, readString_flatMap (by omega), List.append_nil]

theorem arrayAt_cutItems (room : ℕ) (items : List Json) :
    arrayAt room (cutItems (room - 1) items) = cut room (array items) := by
  cases room <;> rfl

theorem objectAt_cutEntries (room : ℕ) (entries : List (String × Json)) :
    objectAt room (some (cutEntries (room - 1) entries)) = cut room (object entries) := by
  cases room <;> rfl

theorem readValue_bracket {c : Char} {t : List Char} (hspace : isSpace c = false) (hc : c ≠ ']') :
    readValue (fuel + 1) room ('[' :: c :: t) =
      (readItems fuel (room - 1) (c :: t)).map fun r => (arrayAt room r.1, r.2) := by
  unfold readValue
  rw [skipSpace_cons rfl]
  dsimp only
  rw [if_neg (by decide), if_neg (by decide), if_neg (by decide), if_neg (by decide), if_pos rfl,
    skipSpace_cons hspace]
  split
  · next heq =>
    cases heq
    exact absurd rfl hc
  · rfl

theorem exists_head_writeItems (hw : areWritable items = true) (hne : items ≠ []) :
    ∃ c t, (writeItems items).toList = c :: t ∧ isSpace c = false ∧ c ≠ ']' := by
  cases items with
  | nil => exact absurd rfl hne
  | cons item more =>
    obtain ⟨c, t, hhead, hc⟩ := exists_head_write (Bool.and_eq_true_iff.1 hw).1
    by_cases hlast : more = []
    · subst hlast
      exact ⟨c, t, hhead, hc⟩
    · rw [toList_writeItems_cons hlast, hhead]
      exact ⟨c, _, rfl, hc⟩

theorem exists_head_writeEntries (hne : entries ≠ []) : ∃ t, (writeEntries entries).toList = '\"' :: t := by
  cases entries with
  | nil => exact absurd rfl hne
  | cons entry more =>
    obtain ⟨key, item⟩ := entry
    by_cases hlast : more = []
    · subst hlast
      rw [toList_writeEntries_singleton, toList_writeString]
      exact ⟨_, rfl⟩
    · rw [toList_writeEntries_cons hlast, toList_writeString]
      exact ⟨_, rfl⟩

theorem readEntries_entry {value : Json} {text after : List Char} (hfuel : (writeString key).toList.length ≤ fuel + 2)
    (hitem : readValue fuel room text = some (value, after)) {c : Char} {t : List Char} (hafter : after = c :: t)
    (hspace : isSpace c = false) :
    readEntries (fuel + 1) room ((writeString key).toList ++ ':' :: text) =
      if c = '\x7d' then some (some [(key, value)], t)
      else if c = ',' then (readEntries fuel room t).map fun r => (r.1.map ((key, value) :: ·), r.2)
      else none := by
  obtain ⟨u, htext, hread⟩ := readString_write (':' :: text) key hfuel
  rw [htext, List.cons_append, readEntries.eq_def]
  dsimp only
  rw [skipSpace_cons rfl]
  split
  · next heq =>
    cases heq
    rw [hread]
    dsimp only
    rw [skipSpace_cons rfl]
    split
    · next heq =>
      cases heq
      rw [hitem]
      dsimp only
      rw [hafter, skipSpace_cons hspace, Option.map_some, List.reverse_reverse, String.ofList_toList]
      rfl
    · next hcolon => exact absurd rfl (hcolon text)
  · next hquote => exact absurd rfl (hquote _)

mutual

theorem readValue_write {tree : Json} (hw : tree.isWritable = true) {fuel room : ℕ} {rest : List Char}
    (hfuel : (write tree).toList.length < fuel) (hrest : Text.Stops isNumberPart rest) :
    readValue fuel room ((write tree).toList ++ rest) = some (cut room tree, rest) := by
  obtain ⟨fuel, rfl⟩ := Nat.exists_eq_succ_of_ne_zero (Nat.ne_of_gt (Nat.zero_lt_of_lt hfuel))
  cases tree with
  | null => cases room <;> rfl
  | bool b => cases b <;> cases room <;> rfl
  | integer i =>
    unfold write
    rw [String.toList_ofList, readValue_intDigits hw hrest]
    cases room <;> rfl
  | real x =>
    replace hw : x.isFinite = true := hw
    unfold write writeReal
    rw [if_pos hw, String.toList_ofList, readValue_pointed hw hrest]
    cases room <;> rfl
  | string s =>
    have hlength : (writeString s).toList.length ≤ fuel + 2 := Nat.le_of_lt (Nat.lt_succ_of_lt hfuel)
    obtain ⟨t, htext, hread⟩ := readString_write rest s hlength
    unfold write
    rw [htext]
    change (readString (fuel + 1) (some []) (t ++ rest)).map _ = _
    rw [hread, Option.map_some]
    unfold stringOf
    dsimp only
    rw [List.reverse_reverse, String.ofList_toList]
    cases room <;> rfl
  | array items =>
    rw [toList_write_array, List.length_cons, List.length_append, List.length_singleton] at hfuel
    rw [toList_write_array, List.cons_append, List.append_assoc, List.singleton_append]
    by_cases hne : items = []
    · subst hne
      change some (arrayAt room (cutItems (room - 1) []), rest) = _
      rw [arrayAt_cutItems]
    · have hread : readItems fuel (room - 1) _ = some (_, rest) := readItems_write hw hne (by omega)
      obtain ⟨c, t, hhead, hspace, hc⟩ := exists_head_writeItems hw hne
      rw [hhead, List.cons_append] at hread ⊢
      rw [readValue_bracket hspace hc, hread, Option.map_some, arrayAt_cutItems]
  | object entries =>
    rw [toList_write_object, List.length_cons, List.length_append, List.length_singleton] at hfuel
    rw [toList_write_object, List.cons_append, List.append_assoc, List.singleton_append]
    by_cases hne : entries = []
    · subst hne
      change some (objectAt room (some (cutEntries (room - 1) [])), rest) = _
      rw [objectAt_cutEntries]
    · have hread : readEntries fuel (room - 1) _ = some (some _, rest) := readEntries_write hw hne (by omega)
      obtain ⟨t, hhead⟩ := exists_head_writeEntries hne
      rw [hhead, List.cons_append] at hread ⊢
      change (readEntries fuel (room - 1) ('\"' :: (t ++ '\x7d' :: rest))).map _ = _
      rw [hread, Option.map_some, objectAt_cutEntries]
  | unreadable => cases hw

theorem readItems_write {items : List Json} (hw : areWritable items = true) (hne : items ≠ []) {fuel room : ℕ}
    {rest : List Char} (hfuel : (writeItems items).toList.length + 1 < fuel) :
    readItems fuel room ((writeItems items).toList ++ ']' :: rest) = some (cutItems room items, rest) := by
  obtain ⟨fuel, rfl⟩ := Nat.exists_eq_succ_of_ne_zero (Nat.ne_of_gt (Nat.zero_lt_of_lt hfuel))
  cases items with
  | nil => exact absurd rfl hne
  | cons item more =>
    obtain ⟨hitem, hmore⟩ := Bool.and_eq_true_iff.1 hw
    by_cases hlast : more = []
    · subst hlast
      have hlength : (write item).toList.length < fuel := Nat.lt_of_succ_lt_succ hfuel
      change readItems (fuel + 1) room ((write item).toList ++ ']' :: rest) = _
      unfold readItems
      rw [readValue_write hitem hlength (Text.stops_cons.2 rfl)]
      dsimp only
      rw [skipSpace_cons rfl]
      rfl
    · rw [toList_writeItems_cons hlast, List.length_append, List.length_cons] at hfuel
      rw [toList_writeItems_cons hlast, List.append_assoc, List.cons_append]
      unfold readItems
      rw [readValue_write hitem (by omega) (Text.stops_cons.2 rfl)]
      dsimp only
      rw [skipSpace_cons rfl]
      change (readItems fuel room ((writeItems more).toList ++ ']' :: rest)).map _ = _
      rw [readItems_write hmore hlast (by omega)]
      rfl

theorem readEntries_write {entries : List (String × Json)} (hw : entriesWritable entries = true)
    (hne : entries ≠ []) {fuel room : ℕ} {rest : List Char}
    (hfuel : (writeEntries entries).toList.length + 1 < fuel) :
    readEntries fuel room ((writeEntries entries).toList ++ '\x7d' :: rest) =
      some (some (cutEntries room entries), rest) := by
  obtain ⟨fuel, rfl⟩ := Nat.exists_eq_succ_of_ne_zero (Nat.ne_of_gt (Nat.zero_lt_of_lt hfuel))
  cases entries with
  | nil => exact absurd rfl hne
  | cons entry more =>
    obtain ⟨key, item⟩ := entry
    obtain ⟨hitem, hmore⟩ := Bool.and_eq_true_iff.1 hw
    by_cases hlast : more = []
    · subst hlast
      rw [toList_writeEntries_singleton, List.length_append, List.length_cons] at hfuel
      rw [toList_writeEntries_singleton, List.append_assoc, List.cons_append]
      have hread : readValue fuel room ((write item).toList ++ '\x7d' :: rest) = some (cut room item, _) :=
        readValue_write hitem (by omega) (Text.stops_cons.2 rfl)
      rw [readEntries_entry (by omega) hread rfl rfl]
      rfl
    · rw [toList_writeEntries_cons hlast, List.length_append, List.length_cons, List.length_append,
        List.length_cons] at hfuel
      rw [toList_writeEntries_cons hlast, List.append_assoc, List.cons_append, List.append_assoc, List.cons_append]
      have hread : readValue fuel room ((write item).toList ++ ',' ::
          ((writeEntries more).toList ++ '\x7d' :: rest)) = some (cut room item, _) :=
        readValue_write hitem (by omega) (Text.stops_cons.2 rfl)
      rw [readEntries_entry (by omega) hread rfl rfl, if_neg (by decide), if_pos rfl,
        readEntries_write hmore hlast (by omega)]
      rfl

end

mutual

theorem cut_eq_self {tree : Json} {room : ℕ} (h : tree.depth ≤ room) : cut room tree = tree := by
  cases tree with
  | array items =>
    cases room with
    | zero => exact absurd h (Nat.not_succ_le_zero _)
    | succ room => exact congrArg array (cutItems_eq_self (Nat.le_of_succ_le_succ h))
  | object entries =>
    cases room with
    | zero => exact absurd h (Nat.not_succ_le_zero _)
    | succ room => exact congrArg object (cutEntries_eq_self (Nat.le_of_succ_le_succ h))
  | _ => cases room <;> rfl

theorem cutItems_eq_self {items : List Json} {room : ℕ} (h : itemsDepth items ≤ room) :
    cutItems room items = items := by
  cases items with
  | nil => rfl
  | cons item rest =>
    obtain ⟨hitem, hrest⟩ := Nat.max_le.1 h
    rw [cutItems, cut_eq_self hitem, cutItems_eq_self hrest]

theorem cutEntries_eq_self {entries : List (String × Json)} {room : ℕ} (h : entriesDepth entries ≤ room) :
    cutEntries room entries = entries := by
  cases entries with
  | nil => rfl
  | cons entry rest =>
    obtain ⟨key, item⟩ := entry
    obtain ⟨hitem, hrest⟩ := Nat.max_le.1 h
    rw [cutEntries, cut_eq_self hitem, cutEntries_eq_self hrest]

end

theorem areWritable_map {α : Type} {f : α → Json} (h : ∀ a, (f a).isWritable = true) (as : List α) :
    areWritable (as.map f) = true := by
  induction as with
  | nil => rfl
  | cons a as ih => exact Bool.and_eq_true_iff.2 ⟨h a, ih⟩

theorem itemsDepth_map {α : Type} {f : α → Json} (h : ∀ a, (f a).depth = 0) (as : List α) :
    itemsDepth (as.map f) = 0 := by
  induction as with
  | nil => rfl
  | cons a as ih => exact Nat.max_eq_zero_iff.2 ⟨h a, ih⟩

/-- The text of a tree is read as the tree, with nothing in the place of what is nested too deep. -/
theorem ofString?_write {tree : Json} (hw : tree.isWritable = true) :
    ofString? (write tree) = some (cut nestingLimit tree) := by
  have hfuel : (write tree).toList.length < (write tree).toList.length + 2 := Nat.lt_add_of_pos_right (by decide)
  have hread : readValue _ nestingLimit _ = some (_, []) := readValue_write hw hfuel Text.stops_nil
  rw [List.append_nil] at hread
  unfold ofString? ofChars?
  rw [hread]
  rfl

end

end Grove.Json
