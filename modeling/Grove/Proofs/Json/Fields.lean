import Mathlib.Tactic
import Grove.Json.Fields
/-!
# Reading back what was written

A record is written as an object that names each of its fields once. Reading it goes on, field by field, with
what was written there. The scalars and the lists that fields hold are read back as they were.
-/

set_option autoImplicit false

namespace Grove.Json

def Fields.ofEntries (entries : List (String × Json)) : Fields :=
  ⟨fun name => (entries.find? fun e => e.1 == name).map Prod.snd, false⟩

section
variable {α β : Type} {names : List String} {entries : List (String × Json)} {read? : Json → Option α}

theorem length_filter_key_le (h : (entries.map Prod.fst).Nodup) (name : String) :
    (entries.filter fun e => e.1 == name).length ≤ 1 := by
  have hcount : (entries.filter fun e => e.1 == name).length = (entries.map Prod.fst).count name := by
    rw [List.count_eq_countP, List.countP_map, List.countP_eq_length_filter]
    rfl
  rw [hcount]
  exact List.nodup_iff_count_le_one.1 h name

theorem fields?_object (h : (entries.map Prod.fst).Nodup) :
    fields? names (object entries) = some (.ofEntries entries) :=
  if_pos (List.all_eq_true.2 fun name _ => decide_eq_true (length_filter_key_le h name))

/-- Reading goes on with the fields of an object that names none of them twice. -/
theorem fields?_bind {next : Fields → Option β} (h : (entries.map Prod.fst).Nodup) :
    (fields? names (object entries) >>= next) = next (.ofEntries entries) := by
  rw [fields?_object h]
  rfl

theorem list?_map {write : α → Json} {items : List α}
    (h : ∀ item ∈ items, read? (write item) = some item) :
    list? read? (array (items.map write)) = some items := by
  change (items.map write).mapM read? = some items
  induction items with
  | nil => rfl
  | cons item rest ih =>
    rw [List.forall_mem_cons] at h
    rw [List.map_cons, List.mapM_cons, h.1, ih h.2]
    rfl

theorem string?_string (s : String) : string? (string s) = some s := rfl

theorem list?_string (names : List String) : list? string? (array (names.map string)) = some names :=
  list?_map fun _ _ => rfl

theorem option?_ofOption (s : Option String) : option? string? (ofOption s) = some s := by
  cases s <;> rfl

theorem word?_ofWord (n : UInt64) : word? (ofWord n) = some n := by
  have hlt : (n.toNat : Int) < UInt64.size := Int.ofNat_lt.2 n.toNat_lt
  unfold word? ofWord
  dsimp only
  rw [if_pos ⟨Int.natCast_nonneg _, hlt⟩, Int.toNat_natCast, UInt64.ofNat_toNat]

theorem number?_ofNumber {x : Binary64} (h : x.isFinite = true) : number? (ofNumber x) = some x := by
  unfold ofNumber
  rw [if_pos h]
  rfl

end

namespace Fields

section
variable {α β : Type} {fields : Fields} {name : String} {read? : Json → Option α} {tree : Json}
  {value default : α} {next : α → Option β}

theorem required_bind (hget : fields.get? name = some tree) (hread : read? tree = some value) :
    (fields.required name read? >>= next) = next value := by
  unfold required
  rw [hget, Option.bind_some, hread]
  rfl

theorem required_bind_none (hget : fields.get? name = some tree) (hread : read? tree = none) :
    (fields.required name read? >>= next) = none := by
  unfold required
  rw [hget, Option.bind_some, hread]
  rfl

theorem withDefault_bind (hget : fields.get? name = some tree) (hread : read? tree = some value) :
    (fields.withDefault name default read? >>= next) = next value := by
  unfold withDefault
  rw [hget]
  dsimp only
  rw [hread]
  rfl

theorem withDefault_bind_none (hget : fields.get? name = none) :
    (fields.withDefault name default read? >>= next) = next default := by
  unfold withDefault
  rw [hget]
  rfl

theorem optional_bind {value : Option α} {next : Option α → Option β} (hget : fields.get? name = some tree)
    (hread : option? read? tree = some value) : (fields.optional name read? >>= next) = next value := by
  unfold optional
  rw [hget]
  dsimp only
  rw [hread]
  rfl

end

end Fields

end Grove.Json
