/-!
# Sets of class names in insertion order
-/

set_option autoImplicit false

namespace Grove

/-- Class names without repeats, in the order of their first insertion. -/
structure ClassSet where
  names : List String
  nodup : names.Nodup
  deriving DecidableEq

namespace ClassSet

def empty : ClassSet := ⟨[], List.nodup_nil⟩

instance : Inhabited ClassSet := ⟨empty⟩

def contains (s : ClassSet) (name : String) : Bool := s.names.contains name

def isEmpty (s : ClassSet) : Bool := s.names.isEmpty

def insert (s : ClassSet) (name : String) : ClassSet :=
  if h : name ∈ s.names then s
  else ⟨s.names ++ [name], by
    refine List.nodup_append.2 ⟨s.nodup, by simp, fun a ha b hb => ?_⟩
    rintro rfl
    exact h (List.mem_singleton.1 hb ▸ ha)⟩

def erase (s : ClassSet) (name : String) : ClassSet :=
  ⟨s.names.erase name, s.nodup.erase name⟩

def ofList (names : List String) : ClassSet := names.foldl insert empty

/-- The same names, whatever their order. -/
def agrees (s t : ClassSet) : Bool :=
  s.names.length == t.names.length && s.names.all t.contains

theorem names_insert (s : ClassSet) (name : String) :
    (s.insert name).names = if name ∈ s.names then s.names else s.names ++ [name] := by
  unfold insert
  split <;> rfl

theorem mem_insert {s : ClassSet} {name other : String} :
    other ∈ (s.insert name).names ↔ other ∈ s.names ∨ other = name := by
  rw [names_insert]
  split
  · next h => exact ⟨Or.inl, fun h' => h'.elim id (fun e => e ▸ h)⟩
  · simp

theorem mem_erase {s : ClassSet} {name other : String} :
    other ∈ (s.erase name).names ↔ other ≠ name ∧ other ∈ s.names :=
  s.nodup.mem_erase_iff

theorem mem_foldl_insert {names : List String} {s : ClassSet} {other : String} :
    other ∈ (names.foldl insert s).names ↔ other ∈ s.names ∨ other ∈ names := by
  induction names generalizing s with
  | nil => simp
  | cons name rest ih => simp [ih, mem_insert, or_assoc]

theorem mem_ofList {names : List String} {other : String} :
    other ∈ (ofList names).names ↔ other ∈ names := by
  simp [ofList, mem_foldl_insert, empty]

theorem names_foldl_insert {names : List String} {s : ClassSet} (h : (s.names ++ names).Nodup) :
    (names.foldl insert s).names = s.names ++ names := by
  induction names generalizing s with
  | nil => simp
  | cons name rest ih =>
    have hnew : name ∉ s.names := fun hmem =>
      (List.nodup_append.1 h).2.2 name hmem name (List.mem_cons_self ..) rfl
    have hinsert : (s.insert name).names = s.names ++ [name] := by
      rw [names_insert, if_neg hnew]
    rw [List.foldl_cons, ih]
    · rw [hinsert, List.append_assoc]
      rfl
    · rwa [hinsert, List.append_assoc]

theorem ofList_names (s : ClassSet) : ofList s.names = s := by
  have h : (ofList s.names).names = s.names := names_foldl_insert s.nodup
  cases hs : ofList s.names with
  | mk names nodup =>
    rw [hs] at h
    cases h
    rfl

theorem agrees_refl (s : ClassSet) : s.agrees s = true := by
  simp [agrees, contains]

end ClassSet

end Grove
