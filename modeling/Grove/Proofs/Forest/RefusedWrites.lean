import Mathlib.Tactic
import Grove.Proofs.Attr.Writing
import Grove.Proofs.Forest.Rollback
/-!
# Which writes are refused

A write of an attribute is refused exactly if its path leads, through entries and items that are there, to a list and
goes on with an index too far past its end. The refusal tells this index and the length of this list, and the tree is
left as it was, also in a draft and in a model.
-/

set_option autoImplicit false

namespace Grove

namespace Attr

/-- Segments lead, through entries and items that are there, to a list of some length and go on with an index that is
too far past its end. -/
inductive Overruns (e : ListOverrun) : List String → Attr → Prop
  | here {segment : String} {rest : List String} {items : List Attr} (hindex : segmentIndex? segment = some e.index)
      (hlength : items.length = e.length) (hfar : e.length + maxListPadding ≤ e.index) :
      Overruns e (segment :: rest) (list items)
  | inside {segment : String} {rest : List String} {target inner : Attr} (hstep : target.step? segment = some inner)
      (hinner : Overruns e rest inner) : Overruns e (segment :: rest) target

/-- Padding with lengths and indices in words of 64 bits. After the largest index there is no place. -/
def padToChecked (items : List Attr) (index : UInt64) : Except ListOverrun (List Attr) :=
  let length := UInt64.ofNat items.length
  if index < length then .ok items
  else if UInt64.size ≤ index.toNat + 1 then .error ⟨index.toNat, length.toNat⟩
  else if (index + 1 - length).toNat ≤ maxListPadding then
    .ok (items ++ List.replicate (index + 1 - length).toNat null)
  else .error ⟨index.toNat, length.toNat⟩

section
variable {tree value written : Attr} {segments : List String} {items : List Attr} {index : Nat} {e : ListOverrun}

theorem padTo_eq_error_iff : padTo items index = .error e ↔
    e = ⟨index, items.length⟩ ∧ items.length + maxListPadding ≤ index := by
  unfold padTo
  split
  · next hlt =>
    constructor
    · intro h
      cases h
    · rintro ⟨-, hfar⟩
      omega
  · next hge =>
    split
    · next hnear =>
      constructor
      · intro h
        cases h
      · rintro ⟨-, hfar⟩
        omega
    · next hfar =>
      constructor
      · intro h
        cases h
        exact ⟨rfl, by omega⟩
      · rintro ⟨rfl, -⟩
        rfl

theorem padToChecked_eq (h : items.length + maxListPadding < UInt64.size) (index : UInt64) :
    padToChecked items index = padTo items index.toNat := by
  have hlength : (UInt64.ofNat items.length).toNat = items.length :=
    UInt64.toNat_ofNat_of_lt' (by omega)
  unfold padToChecked padTo
  simp only [UInt64.lt_iff_toNat_lt, hlength]
  split
  · rfl
  · next hge =>
    split
    · next hlargest =>
      rw [if_neg (by omega)]
    · next hplace =>
      have hnext : (index + 1).toNat = index.toNat + 1 :=
        (UInt64.toNat_add ..).trans (Nat.mod_eq_of_lt (Nat.not_le.1 hplace))
      have hgrowth : (index + 1 - UInt64.ofNat items.length).toNat = index.toNat + 1 - items.length := by
        rw [UInt64.toNat_sub_of_le, hnext, hlength]
        rw [UInt64.le_iff_toNat_le, hnext, hlength]
        omega
      rw [hgrowth]

theorem overruns_of_refused (h : (writeSegments segments tree value).1 = .error e) : Overruns e segments tree := by
  induction segments generalizing tree with
  | nil => cases h
  | cons segment rest ih =>
    unfold writeSegments at h
    split at h
    · next items index hindex =>
      cases hpad : padTo items index with
      | error e' =>
        rw [hpad] at h
        cases h
        obtain ⟨rfl, hfar⟩ := padTo_eq_error_iff.1 hpad
        exact .here hindex rfl hfar
      | ok padded =>
        rw [hpad] at h
        dsimp only at h
        -- nothing refuses a write below a null that pads the list
        rcases padTo_eq_ok hpad with ⟨rfl, hlt⟩ | hnull
        · rw [List.getElem?_eq_getElem hlt, Option.getD_some] at h
          refine .inside ?_ (ih h)
          rw [step?, hindex, Option.bind_some, List.getElem?_eq_getElem hlt]
        · rw [hnull, Option.getD_some, writeSegments_null] at h
          cases h
    · next target _ _ _ =>
      dsimp only at h
      cases hlookup : target.entriesOf.lookup segment with
      | none =>
        rw [hlookup, Option.getD_none, writeSegments_null] at h
        cases h
      | some inner =>
        rw [hlookup, Option.getD_some] at h
        refine .inside ?_ (ih h)
        -- only a map has entries
        cases target with
        | map entries => exact hlookup
        | _ => cases hlookup

theorem refused_of_overruns (h : Overruns e segments tree) : (writeSegments segments tree value).1 = .error e := by
  induction h with
  | @here segment rest items hindex hlength hfar =>
    have hpad : padTo items e.index = .error e := padTo_eq_error_iff.2 ⟨by rw [hlength], hlength ▸ hfar⟩
    unfold writeSegments
    rw [hindex]
    dsimp only
    rw [hpad]
  | @inside segment rest target inner hstep _ ih =>
    cases target with
    | map entries =>
      have hlookup : entries.lookup segment = some inner := hstep
      unfold writeSegments
      dsimp only
      rw [entriesOf, hlookup, Option.getD_some]
      exact ih
    | list items =>
      obtain ⟨index, hindex, hitem⟩ := Option.bind_eq_some_iff.1 hstep
      have hpad : padTo items index = .ok items := if_pos (List.getElem?_eq_some_iff.1 hitem).1
      unfold writeSegments
      rw [hindex]
      dsimp only
      rw [hpad]
      dsimp only
      rw [hitem, Option.getD_some]
      exact ih
    | _ => cases hstep

theorem write_eq_error_iff {path : String} : tree.write path value = (.error e, written) ↔
    Overruns e (pathSegments path) tree ∧ written = tree := by
  constructor
  · intro h
    have hrefused : (tree.write path value).1 = .error e := congrArg Prod.fst h
    exact ⟨overruns_of_refused hrefused, (congrArg Prod.snd h).symm.trans (write_refused hrefused)⟩
  · rintro ⟨hoverruns, rfl⟩
    have hrefused : (written.write path value).1 = .error e := refused_of_overruns hoverruns
    exact Prod.ext hrefused (write_refused hrefused)

end

end Attr

open Attr (Overruns)

section
variable {path : String} {value : Attr} {e : ListOverrun}

theorem Draft.withAttr_eq_self {d : Draft} (h : Overruns e (pathSegments path) d.attrs) :
    d.withAttr path value = d := by
  obtain ⟨tag, id, classes, attrs, children⟩ := d
  unfold withAttr
  rw [Attr.write_eq_error_iff.2 ⟨h, rfl⟩]

theorem Store.setAttr_of_get? {s : Store} {h : Handle} {m : Model} (hopen : s.isOpen = true) (hm : s.get? h = some m) :
    s.setAttr h path value = ((m.attrs.write path value).1.mapError (.listOverrun path),
      s.put h { m with attrs := (m.attrs.write path value).2 }) := by
  unfold setAttr edit
  rw [hopen, hm]
  rfl

theorem Store.setAttr_eq_error_iff {s after : Store} {h : Handle} {m : Model} {error : StoreError}
    (hopen : s.isOpen = true) (hm : s.get? h = some m) : s.setAttr h path value = (.error error, after) ↔
    ∃ e, error = .listOverrun path e ∧ Overruns e (pathSegments path) m.attrs ∧ after = s := by
  rw [setAttr_of_get? hopen hm]
  constructor
  · intro heq
    obtain ⟨herror, rfl⟩ := Prod.mk.inj heq
    cases houtcome : (m.attrs.write path value).1 with
    | ok _ =>
      rw [houtcome] at herror
      cases herror
    | error e =>
      rw [houtcome] at herror
      cases herror
      have hwrite : m.attrs.write path value = (.error e, (m.attrs.write path value).2) := Prod.ext houtcome rfl
      obtain ⟨hoverruns, hsame⟩ := Attr.write_eq_error_iff.1 hwrite
      refine ⟨e, rfl, hoverruns, ?_⟩
      rw [hsame]
      exact put_self hm
  · rintro ⟨e, rfl, hoverruns, rfl⟩
    rw [Attr.write_eq_error_iff.2 ⟨hoverruns, rfl⟩]
    exact Prod.ext rfl (put_self hm)

/-- A write is refused exactly if it overruns a list that is there, with that index and that length, and then nothing
has changed: neither the tree, nor a draft or a model whose attributes it is. In words of 64 bits the same lists are
refused, up to the largest index, if there is room for the padding. -/
theorem write_refused_iff (path : String) (value : Attr) :
    (∀ tree written e, tree.write path value = (.error e, written) ↔
      Overruns e (pathSegments path) tree ∧ written = tree) ∧
    (∀ (d : Draft) e, Overruns e (pathSegments path) d.attrs → d.withAttr path value = d) ∧
    (∀ (s after : Store) h m error, s.isOpen = true → s.get? h = some m →
      (s.setAttr h path value = (.error error, after) ↔
        ∃ e, error = .listOverrun path e ∧ Overruns e (pathSegments path) m.attrs ∧ after = s)) ∧
    ∀ items index, items.length + maxListPadding < UInt64.size →
      Attr.padToChecked items index = Attr.padTo items index.toNat :=
  ⟨fun _ _ _ => Attr.write_eq_error_iff, fun _ _ => Draft.withAttr_eq_self,
    fun _ _ _ _ _ => Store.setAttr_eq_error_iff, fun _ index hroom => Attr.padToChecked_eq hroom index⟩

end

/-- Below an item of a list, a write at the first place that is too far past the end of a shorter list, and one at the
largest index there is. -/
theorem write_refused_iff_largest :
    let tree := Attr.map [("a", .list [.null, .map [("b", .list [.bool true, .null])]])]
    let far : ListOverrun := ⟨1026, 2⟩
    let largest : ListOverrun := ⟨0xffffffffffffffff, 2⟩
    let d : Draft := { Draft.ofTag "x" with attrs := tree }
    tree.write "a.+1.b.1026.c" .null = (.error far, tree) ∧
      d.withAttr "a.1.b.18446744073709551615" .null = d ∧
      (tree.write "a.1.b.1025" .null).1 = .ok () ∧
      Attr.padToChecked [.bool true, .null] 0xffffffffffffffff = .error largest := by
  intro tree far largest d
  have hfar : Overruns far ["a", "+1", "b", "1026", "c"] tree :=
    .inside rfl (.inside rfl (.inside rfl (.here rfl rfl (by decide))))
  have hlargest : Overruns largest ["a", "1", "b", "18446744073709551615"] d.attrs :=
    .inside rfl (.inside rfl (.inside rfl (.here rfl rfl (by decide))))
  obtain ⟨-, hdraft, -, hchecked⟩ := write_refused_iff "a.1.b.18446744073709551615" .null
  exact ⟨((write_refused_iff "a.+1.b.1026.c" .null).1 tree tree far).2 ⟨hfar, rfl⟩, hdraft d largest hlargest, rfl,
    hchecked [.bool true, .null] 0xffffffffffffffff (by decide)⟩

end Grove
