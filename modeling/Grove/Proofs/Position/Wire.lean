import Mathlib.Tactic
import Grove.Position.Wire
import Grove.Proofs.Json.Fields
import Grove.Proofs.Json.Text
/-!
# Positions, paths and JSON trees

A position reads back as it was written. A path is written as signed words with the bits of its indices, and no
negative word is read: a path comes back exactly if all its indices have a sign bit of zero, and every list of
words that is read is the one that the path is written as.
-/

set_option autoImplicit false

namespace Grove

namespace Json

theorem long?_toNat (w : Word) : long? (.integer w.toNat) = some w := by
  have hlt : (w.toNat : Int) < Word.size := Int.ofNat_lt.2 (Word.toNat_lt_size w)
  unfold long?
  dsimp only
  rw [if_pos ⟨Int.natCast_nonneg _, hlt⟩, Int.toNat_natCast, BitVec.ofNat_toNat, BitVec.setWidth_eq]

theorem signed?_toInt (i : Int64) : signed? (.integer i.toInt) = some i := by
  unfold signed?
  dsimp only
  rw [if_pos ⟨i.minValue_le_toInt, i.toInt_le⟩, Int64.ofInt_toInt]

end Json

theorem Position.ofJson?_toJson (p : Position) : ofJson? p.toJson = some p := by
  unfold ofJson? toJson
  rw [Json.fields?_bind (by simp), Json.Fields.required_bind rfl (Json.long?_toNat _),
    Json.Fields.required_bind rfl (Json.long?_toNat _), Json.Fields.required_bind rfl (Json.string?_string _)]
  rfl

theorem Position.isWritable_toJson (p : Position) : p.toJson.isWritable = true := by
  have hlong : ∀ w : Word, Json.isLong w.toNat = true := by
    intro w
    have hlt : w.toNat < 2 ^ 128 := w.isLt
    exact Bool.and_eq_true_iff.2 ⟨decide_eq_true (by omega), decide_eq_true (by omega)⟩
  unfold toJson
  simp only [Json.isWritable, Json.entriesWritable, hlong, Bool.and_self]

namespace SiblingPath

/-- Every index is one that a signed word can hold. -/
def Signable (p : SiblingPath) : Prop := ∀ i ∈ p.indices, i.toNat < 2 ^ 63

section
variable {values : List Int64} {indices : List UInt64} {p : SiblingPath}

theorem not_neg_iff (value : Int64) : ¬ value < 0 ↔ value.toUInt64.toNat < 2 ^ 63 := by
  have hneg : value < 0 ↔ 2 ^ 64 ≤ 2 * value.toUInt64.toNat := by
    rw [Int64.lt_iff_toInt_lt, Int64.toInt_zero]
    exact BitVec.toInt_neg_iff
  rw [hneg]
  omega

theorem checkSigned_eq_ok (depth : ℕ) : checkSigned depth values = .ok indices ↔
    indices.map UInt64.toInt64 = values ∧ ∀ i ∈ indices, i.toNat < 2 ^ 63 := by
  induction values generalizing depth indices with
  | nil =>
    rw [List.map_eq_nil_iff]
    constructor
    · intro h
      cases h
      exact ⟨rfl, fun i hi => by cases hi⟩
    · rintro ⟨rfl, -⟩
      rfl
  | cons value rest ih =>
    unfold checkSigned
    split
    · next hneg =>
      constructor
      · intro h
        cases h
      · rintro ⟨hmap, hall⟩
        obtain ⟨i, others, rfl, rfl, -⟩ := List.map_eq_cons_iff.1 hmap
        refine absurd hneg ((not_neg_iff _).2 ?_)
        rw [UInt64.toUInt64_toInt64]
        exact hall i (List.mem_cons_self ..)
    · next hpos =>
      rw [not_neg_iff] at hpos
      constructor
      · intro h
        split at h
        · cases h
        · next others hothers =>
          cases h
          obtain ⟨hmap, hall⟩ := (ih _).1 hothers
          rw [List.map_cons, hmap, Int64.toInt64_toUInt64]
          exact ⟨rfl, List.forall_mem_cons.2 ⟨hpos, hall⟩⟩
      · rintro ⟨hmap, hall⟩
        obtain ⟨i, others, rfl, rfl, hrest⟩ := List.map_eq_cons_iff.1 hmap
        rw [(ih _).2 ⟨hrest, (List.forall_mem_cons.1 hall).2⟩, UInt64.toUInt64_toInt64]

theorem toSigned_injective : Function.Injective toSigned := by
  intro p q heq
  have hword : Function.Injective UInt64.toInt64 := Function.LeftInverse.injective UInt64.toUInt64_toInt64
  obtain ⟨indices, nonempty⟩ := p
  obtain ⟨indices', nonempty'⟩ := q
  have hindices : indices = indices' := List.map_injective_iff.2 hword heq
  subst hindices
  rfl

theorem ofSigned_eq_ok : ofSigned values = .ok p ↔ p.toSigned = values ∧ p.Signable := by
  unfold toSigned Signable
  rw [← checkSigned_eq_ok 0]
  unfold ofSigned ofIndices
  constructor
  · intro h
    split at h
    · cases h
    · next indices hindices =>
      split at h
      · cases h
      · cases h
        exact hindices
  · intro h
    rw [h]
    exact dif_neg p.nonempty

theorem ofSigned_toSigned : ofSigned p.toSigned = .ok p ↔ p.Signable := by
  rw [ofSigned_eq_ok]
  exact and_iff_right rfl

theorem ofJson?_toJson (p : SiblingPath) : ofJson? p.toJson = (ofSigned p.toSigned).toOption := by
  have hvalues : Json.list? Json.signed? p.toJson = some p.toSigned :=
    Json.list?_map fun value _ => Json.signed?_toInt value
  unfold ofJson?
  rw [hvalues]
  rfl

theorem isWritable_toJson (p : SiblingPath) : p.toJson.isWritable = true := by
  refine Json.areWritable_map (fun value => ?_) p.toSigned
  have hlow := value.minValue_le_toInt
  have hhigh := value.toInt_le
  rw [Int64.toInt_minValue] at hlow
  rw [Int64.toInt_maxValue] at hhigh
  exact Bool.and_eq_true_iff.2 ⟨decide_eq_true (by omega), decide_eq_true (by omega)⟩

theorem ofJson?_toJson_eq_some : ofJson? p.toJson = some p ↔ p.Signable := by
  rw [ofJson?_toJson, ← ofSigned_toSigned]
  cases ofSigned p.toSigned with
  | error e => simp [Except.toOption]
  | ok q => simp [Except.toOption]

theorem ofJson?_toJson_eq_none : ofJson? p.toJson = none ↔ ¬ p.Signable := by
  rw [ofJson?_toJson, ← ofSigned_toSigned]
  cases hread : ofSigned p.toSigned with
  | error e => simp [Except.toOption]
  | ok q =>
    -- what is read is written as the same words, so it is no other path
    have heq : q = p := toSigned_injective (ofSigned_eq_ok.1 hread).1
    simp [Except.toOption, heq]

end

end SiblingPath

end Grove
