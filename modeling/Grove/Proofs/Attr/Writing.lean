import Mathlib.Tactic
import Grove.Attr.Path
/-!
# Refused writes

A write goes down a tree in place, and only a list further down can refuse it. What it has done on the way is
then nothing: it pads a list, or makes a key, only where it goes on below a null, and there nothing refuses it.
-/

set_option autoImplicit false

namespace Grove.Attr

section
variable {key : String} {entries : List (String × Attr)} {item value target : Attr} {segments : List String}
  {e : ListOverrun}

theorem put_eq_self (h : entries.lookup key = some item) : put key item entries = entries := by
  induction entries with
  | nil => cases h
  | cons entry rest ih =>
    obtain ⟨k, v⟩ := entry
    unfold put
    by_cases hk : k = key
    · subst hk
      rw [List.lookup_cons_self] at h
      rw [if_pos rfl, Option.some.inj h]
    · rw [List.lookup_cons, beq_eq_false_iff_ne.2 (Ne.symm hk)] at h
      rw [if_neg hk, ih h]

theorem writeSegments_null : (writeSegments segments null value).1 = .ok () := by
  induction segments with
  | nil => rfl
  | cons segment rest ih => exact ih

theorem padTo_eq_ok {items padded : List Attr} {index : Nat} (h : padTo items index = .ok padded) :
    (padded = items ∧ index < items.length) ∨ padded[index]? = some null := by
  unfold padTo at h
  split at h
  · next hlt =>
    cases h
    exact Or.inl ⟨rfl, hlt⟩
  · next hge =>
    split at h
    · cases h
      refine Or.inr ?_
      rw [List.getElem?_append_right (Nat.not_lt.1 hge), List.getElem?_replicate, if_pos (by omega)]
    · cases h

theorem writeSegments_refused (h : (writeSegments segments target value).1 = .error e) :
    (writeSegments segments target value).2 = target := by
  induction segments generalizing target with
  | nil => cases h
  | cons segment rest ih =>
    unfold writeSegments at h ⊢
    split at h
    · next items index hindex =>
      dsimp only
      cases hpad : padTo items index with
      | error e => rfl
      | ok padded =>
        simp only [hpad] at h ⊢
        rcases padTo_eq_ok hpad with ⟨rfl, hlt⟩ | hnull
        · rw [ih h, List.getElem?_eq_getElem hlt, Option.getD_some, List.set_getElem_self]
        · rw [hnull, Option.getD_some, writeSegments_null] at h
          cases h
    · next target _ _ _ =>
      dsimp only at h ⊢
      cases hlookup : target.entriesOf.lookup segment with
      | none =>
        rw [hlookup, Option.getD_none, writeSegments_null] at h
        cases h
      | some inner =>
        rw [hlookup, Option.getD_some] at h
        rw [Option.getD_some, ih h, put_eq_self hlookup]
        -- only a map has entries
        cases target with
        | map entries => rfl
        | _ => cases hlookup

theorem write_refused {path : String} (h : (target.write path value).1 = .error e) :
    (target.write path value).2 = target := writeSegments_refused h

end

end Grove.Attr
