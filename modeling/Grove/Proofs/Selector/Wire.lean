import Grove.Selector.Wire
import Grove.Proofs.Json.Fields
import Grove.Proofs.Selector.Printing
/-!
# Selectors and JSON trees

What is written of a selector reads back as that selector. A literal is written without its type and keeps it: a
finite number is written as a number, and a text of digits stays a text.
-/

set_option autoImplicit false

namespace Grove

namespace Literal

instance (l : Literal) : Decidable l.Finite :=
  match l with
  | .number n => inferInstanceAs (Decidable (n.isFinite = true))
  | .text _ => inferInstanceAs (Decidable True)

theorem ofJson?_toJson {l : Literal} (h : l.Finite) : ofJson? l.toJson = some l := by
  cases l with
  | text s => rfl
  | number n =>
    unfold toJson ofJson?
    rw [Json.number?_ofNumber h]

end Literal

namespace Operator

theorem ofJson?_toJson (o : Operator) : ofJson? o.toJson = some o := by
  have htoken : ofToken? (String.ofList o.spell).toList = some o := by
    rw [String.toList_ofList]
    exact ofToken?_eq_some_iff.2 rfl
  exact htoken

end Operator

namespace Predicate

theorem ofJson?_toJson {p : Predicate} (h : p.value.Finite) : ofJson? p.toJson = some p := by
  unfold ofJson? toJson
  rw [Json.fields?_bind (by simp), Json.Fields.required_bind rfl (Json.string?_string _),
    Json.Fields.required_bind rfl (Operator.ofJson?_toJson _),
    Json.Fields.required_bind rfl (Literal.ofJson?_toJson h)]
  rfl

theorem list?_toJson {ps : List Predicate} (h : ∀ p ∈ ps, p.value.Finite) :
    Json.list? ofJson? (.array (ps.map toJson)) = some ps :=
  Json.list?_map fun p hp => ofJson?_toJson (h p hp)

end Predicate

namespace Modifier

theorem ofJson?_toJson (m : Modifier) : ofJson? m.toJson = some m := by
  cases m with
  | first => rfl
  | last => rfl
  | limit count =>
    have hcount : (Json.word? (Json.ofWord count)).map limit = some (limit count) := by
      rw [Json.word?_ofWord]
      rfl
    exact hcount

theorem option?_toJson (m : Option Modifier) :
    Json.option? ofJson? ((m.map toJson).getD .null) = some m := by
  cases m with
  | none => rfl
  | some m =>
    have hread : Json.option? ofJson? m.toJson = (ofJson? m.toJson).map some := by cases m <;> rfl
    rw [Option.map_some, Option.getD_some, hread, ofJson?_toJson]
    rfl

end Modifier

theorem Combinator.ofJson?_toJson (c : Combinator) : ofJson? c.toJson = some c := by cases c <;> rfl

theorem ClassSet.ofJson?_toJson (s : ClassSet) : ofJson? s.toJson = some s := by
  unfold ofJson? toJson
  rw [Json.list?_string, Option.map_some, ofList_names]

namespace Phase

def Finite (p : Phase) : Prop := ∀ test ∈ p.tests, test.value.Finite

instance (p : Phase) : Decidable p.Finite := by unfold Finite; infer_instance

theorem ofJson?_toJson {p : Phase} (h : p.Finite) : ofJson? p.toJson = some p := by
  unfold ofJson? toJson
  rw [Json.fields?_bind (by simp), Json.Fields.withDefault_bind rfl (Json.option?_ofOption _),
    Json.Fields.withDefault_bind rfl (Json.option?_ofOption _),
    Json.Fields.withDefault_bind rfl (Json.option?_ofOption _),
    Json.Fields.withDefault_bind rfl (ClassSet.ofJson?_toJson _),
    Json.Fields.withDefault_bind rfl (Predicate.list?_toJson h),
    Json.Fields.withDefault_bind rfl (Modifier.option?_toJson _)]
  rfl

end Phase

theorem stepOfJson?_stepToJson {step : Combinator × Phase} (h : step.2.Finite) :
    stepOfJson? (stepToJson step) = some step := by
  unfold stepOfJson? stepToJson
  dsimp only
  rw [Combinator.ofJson?_toJson, Phase.ofJson?_toJson h]
  rfl

namespace Leg

def Finite (leg : Leg) : Prop := leg.head.Finite ∧ ∀ step ∈ leg.tail, step.2.Finite

instance (leg : Leg) : Decidable leg.Finite := by unfold Finite; infer_instance

theorem ofJson?_toJson {leg : Leg} (h : leg.Finite) : ofJson? leg.toJson = some leg := by
  unfold ofJson? toJson
  rw [Json.fields?_bind (by simp), Json.Fields.required_bind rfl (Phase.ofJson?_toJson h.1),
    Json.Fields.required_bind rfl (Json.list?_map fun step hstep => stepOfJson?_stepToJson (h.2 step hstep))]
  rfl

end Leg

namespace Selector

def Finite (s : Selector) : Prop := ∀ leg ∈ s.legs, leg.Finite

instance (s : Selector) : Decidable s.Finite := by unfold Finite; infer_instance

theorem ofJson?_toJson {s : Selector} (h : s.Finite) : ofJson? s.toJson = some s := by
  unfold ofJson? toJson
  rw [Json.fields?_bind (by simp),
    Json.Fields.required_bind rfl (Json.list?_map fun leg hleg => Leg.ofJson?_toJson (h leg hleg))]
  rfl

end Selector

end Grove
