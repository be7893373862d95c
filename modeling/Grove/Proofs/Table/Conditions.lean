import Mathlib.Tactic
import Grove.Forest.Model
import Grove.Proofs.Selector.RoundTrip
import Grove.Table.Record
/-!
# Compiled conditions

What a phase asks of a model becomes a list of predicates over the columns and attributes of its record.
Both ask the same, except that a test on a field that stands for a column is about that column in the
record and about an attribute of that path in the model.
-/

set_option autoImplicit false

namespace Grove

/-- A test on a field that stands for a column. -/
def Predicate.isReserved (test : Predicate) : Bool := (Column.ofField? test.field).isSome

def Phase.unreserved (p : Phase) : Phase := { p with tests := p.tests.filter fun test => !test.isReserved }

/-- A model and a record with the same identity, classes and attributes. -/
structure Model.SameData (m : Model) (r : Record) : Prop where
  uid : r.uid = m.uid
  tag : r.tag = m.tag
  id : r.id = m.id
  classes : ∀ name, name ∈ r.classes ↔ name ∈ m.classes.names
  attrs : r.attrs = m.attrs

section
variable {test : Predicate} {p : Phase}

theorem Column.ofField?_eq_some_iff {field : String} {c : Column} : ofField? field = some c ↔ field = c.field := by
  constructor
  · intro h
    unfold ofField? at h
    have hfield := List.find?_some h
    exact (beq_iff_eq.1 hfield).symm
  · rintro rfl
    exact ofField?_field c

theorem Predicate.isReserved_iff : test.isReserved = true ↔ ∃ c : Column, test.field = c.field := by
  simp [isReserved, Option.isSome_iff_exists, Column.ofField?_eq_some_iff]

theorem Phase.unreserved_eq (h : ∀ test ∈ p.tests, ∀ c : Column, test.field ≠ c.field) : p.unreserved = p := by
  have hkeep : p.tests.filter (fun test => !test.isReserved) = p.tests := by
    rw [List.filter_eq_self]
    intro test htest
    rw [Bool.not_eq_true', Bool.eq_false_iff, Ne, Predicate.isReserved_iff]
    rintro ⟨c, hc⟩
    exact h test htest c hc
  unfold unreserved
  rw [hkeep]

theorem Record.satisfies_column (r : Record) (c : Column) (operator : Operator) (value : Literal) :
    r.satisfies ⟨c.field, operator, value⟩ = r.columnSatisfies c operator value := by
  unfold satisfies
  rw [Column.ofField?_field]

theorem Record.satisfies_equals (r : Record) (c : Column) (value : String) :
    r.satisfies (c.equals value) = r.columnSatisfies c .equals (.text value) := r.satisfies_column ..

theorem Record.textSatisfies_equals (text value : String) :
    textSatisfies text .equals (.text value) = (text == value) := rfl

theorem Record.satisfies_reserved (r : Record) : (p.tests.filter Predicate.isReserved).all r.satisfies = true ↔
    ∀ test ∈ p.tests, ∀ c : Column, test.field = c.field →
      r.columnSatisfies c test.operator test.value = true := by
  rw [List.all_eq_true]
  constructor
  · rintro h ⟨field, operator, value⟩ htest c rfl
    rw [← satisfies_column]
    exact h _ (List.mem_filter.2 ⟨htest, Predicate.isReserved_iff.2 ⟨c, rfl⟩⟩)
  · rintro h ⟨field, operator, value⟩ htest
    obtain ⟨htest, hreserved⟩ := List.mem_filter.1 htest
    obtain ⟨c, rfl⟩ := Predicate.isReserved_iff.1 hreserved
    rw [satisfies_column]
    exact h _ htest c rfl

end

namespace Model.SameData

variable {m : Model} {r : Record} {p : Phase}

theorem satisfies_class (h : m.SameData r) (name : String) :
    r.satisfies (Column.classes.equals name) = m.classes.contains name := by
  rw [Record.satisfies_equals, Bool.eq_iff_iff]
  unfold Record.columnSatisfies ClassSet.contains
  dsimp only
  rw [List.any_eq_true, List.contains_iff_mem, ← h.classes]
  simp [Record.textSatisfies_equals]

theorem satisfies_test (h : m.SameData r) {test : Predicate} (htest : test.isReserved = false) :
    r.satisfies test = m.satisfiesTest test := by
  have hnone : Column.ofField? test.field = none := by simpa [Predicate.isReserved] using htest
  unfold Model.satisfiesTest Model.attr? Record.satisfies
  rw [hnone, h.attrs]

theorem satisfies_tag (h : m.SameData r) (hstar : p.tag ≠ some "*") :
    (p.tag.map Column.tag.equals).toList.all r.satisfies = p.tag.all (fun tag => tag == "*" || tag == m.tag) := by
  cases htag : p.tag with
  | none => rfl
  | some t =>
    have hne : (t == "*") = false := beq_false_of_ne fun he => hstar (htag.trans (congrArg some he))
    simp [Record.satisfies_equals, Record.columnSatisfies, Record.textSatisfies_equals, h.tag, hne, Bool.beq_comm]

theorem satisfies_id (h : m.SameData r) (id? : Option String) :
    (id?.map Column.id.equals).toList.all r.satisfies = id?.all (fun id => m.id == some id) := by
  cases id? with
  | none => rfl
  | some i =>
    simp only [Option.map_some, Option.toList_some, List.all_cons, List.all_nil, Bool.and_true,
      Record.satisfies_equals, Record.columnSatisfies, Record.textSatisfies_equals, h.id, Option.all_some]
    cases m.id with
    | none => rfl
    | some j => exact Option.some_beq_some.symm

theorem satisfies_uid (h : m.SameData r) (uid? : Option String) :
    (uid?.map Column.uid.equals).toList.all r.satisfies = uid?.all (· == m.uid) := by
  cases uid? with
  | none => rfl
  | some u => simp [Record.satisfies_equals, Record.columnSatisfies, Record.textSatisfies_equals, h.uid, eq_comm]

theorem satisfies_tests (h : m.SameData r) (tests : List Predicate) : tests.all r.satisfies =
    ((tests.filter fun test => !test.isReserved).all m.satisfiesTest &&
      (tests.filter Predicate.isReserved).all r.satisfies) := by
  induction tests with
  | nil => rfl
  | cons test tests ih =>
    rw [List.all_cons, ih]
    cases hreserved : test.isReserved with
    | true => simp [hreserved, Bool.and_left_comm]
    | false => simp [hreserved, h.satisfies_test hreserved, Bool.and_assoc]

/-- The conditions of a phase hold of a record if its model satisfies the phase without the tests on reserved
fields and the record those tests. A star as the text of a tag is left out: only a model takes it for any tag. -/
theorem all_searchOf (h : m.SameData r) (hstar : p.tag ≠ some "*") :
    (Query.searchOf p).all r.satisfies =
      (m.satisfies p.unreserved && (p.tests.filter Predicate.isReserved).all r.satisfies) := by
  have hclasses : (p.classes.names.map (Column.equals .classes)).all r.satisfies =
      p.classes.names.all m.classes.contains := by
    rw [List.all_map]
    congr 1
    funext name
    exact h.satisfies_class name
  unfold Query.searchOf Model.satisfies
  rw [List.all_append, List.all_append, List.all_append, List.all_append, h.satisfies_tag hstar, h.satisfies_id,
    h.satisfies_uid, hclasses, h.satisfies_tests]
  simp only [Phase.unreserved, Bool.and_assoc]

end Model.SameData

theorem Phase.tag_ne_star {p : Phase} (h : p.WellFormed) : p.tag ≠ some "*" := by
  intro htag
  have hword := (h.tag _ htag).1
  exact absurd (hword.2 '*' (by decide)) (by decide +kernel)

/-- The query compiled from a text without contexts holds of a record exactly if the model with the same data
satisfies the phase, reserved fields apart: a test on one of those is about the record's column. -/
theorem satisfiesQuery_ofPhase_iff {text : String} {p : Phase} {m : Model} {r : Record}
    (hread : Phase.ofString text = .ok p) (h : m.SameData r) :
    (r.satisfiesQuery (Query.ofPhase p []) = true ↔ m.satisfies p.unreserved = true ∧
      ∀ test ∈ p.tests, ∀ c : Column, test.field = c.field →
        r.columnSatisfies c test.operator test.value = true) ∧
    ((∀ test ∈ p.tests, ∀ c : Column, test.field ≠ c.field) →
      (r.satisfiesQuery (Query.ofPhase p []) = true ↔ m.satisfies p = true)) := by
  obtain ⟨-, t, -, -, hphase, -, -⟩ := Phase.ofString_eq_ok_iff_phaseText.1 hread
  have hsearch := h.all_searchOf (Phase.tag_ne_star hphase.wellFormed)
  have hquery : r.satisfiesQuery (Query.ofPhase p []) = (Query.searchOf p).all r.satisfies := by
    simp [Record.satisfiesQuery, Query.ofPhase, Query.ofStep, Query.isScoped]
  have hiff : r.satisfiesQuery (Query.ofPhase p []) = true ↔ m.satisfies p.unreserved = true ∧
      ∀ test ∈ p.tests, ∀ c : Column, test.field = c.field →
        r.columnSatisfies c test.operator test.value = true := by
    rw [hquery, hsearch, Bool.and_eq_true, Record.satisfies_reserved]
  refine ⟨hiff, fun hfields => ?_⟩
  rw [hiff, Phase.unreserved_eq hfields]
  exact and_iff_left fun test htest c hc => absurd hc (hfields test htest c)

def Model.oldCity : Model where
  uid := "17"
  tag := "city"
  id := none
  classes := ⟨["old"], by decide⟩
  attrs := .map [("name", .text "Ulm")]
  children := []
  parent := none
  path := ⟨[0], by decide⟩
  span := ⟨⟨0, 1, "0"⟩, ⟨1, 1, "1"⟩⟩
  nextChild := 1

def Record.oldCity : Record where
  uid := "17"
  parent := none
  tag := "city"
  id := none
  classes := ["old"]
  path := ⟨[0], by decide⟩
  left := ⟨0, 1, "0"⟩
  right := ⟨1, 1, "1"⟩
  attrs := .map [("name", .text "Ulm")]

theorem Model.sameData_oldCity : Model.oldCity.SameData Record.oldCity :=
  ⟨rfl, rfl, rfl, fun _ => Iff.rfl, rfl⟩

theorem satisfiesQuery_ofPhase_iff_oldCity :
    (Phase.ofString "city[_digger.class=old]" =
        .ok { Phase.any with tag := some "city", tests := [⟨"_digger.class", .equals, .text "old"⟩] } ∧
      Record.oldCity.satisfiesQuery (Query.ofPhase
        { Phase.any with tag := some "city", tests := [⟨"_digger.class", .equals, .text "old"⟩] } []) = true) ∧
    Phase.ofString ".old[name^=U]" =
        .ok { Phase.any with classes := .ofList ["old"], tests := [⟨"name", .begins, .text "U"⟩] } ∧
      Record.oldCity.satisfiesQuery (Query.ofPhase
        { Phase.any with classes := .ofList ["old"], tests := [⟨"name", .begins, .text "U"⟩] } []) = true := by
  have hclass : Phase.ofString "city[_digger.class=old]" =
      .ok { Phase.any with tag := some "city", tests := [⟨"_digger.class", .equals, .text "old"⟩] } := by
    decide +kernel
  have hname : Phase.ofString ".old[name^=U]" =
      .ok { Phase.any with classes := .ofList ["old"], tests := [⟨"name", .begins, .text "U"⟩] } := by
    decide +kernel
  refine ⟨⟨hclass, (satisfiesQuery_ofPhase_iff hclass Model.sameData_oldCity).1.2 ⟨by decide +kernel, ?_⟩⟩, hname,
    ((satisfiesQuery_ofPhase_iff hname Model.sameData_oldCity).2 ?_).2 (by decide +kernel)⟩
  · intro test htest c hc
    obtain rfl := List.mem_singleton.1 htest
    cases c <;> first | decide +kernel | exact absurd hc (by decide)
  · intro test htest c
    obtain rfl := List.mem_singleton.1 htest
    cases c <;> decide

/-- A test on a reserved field is about a column, of which the model's attributes know nothing. -/
theorem not_satisfiesQuery_ofPhase_iff : ¬ ∀ (text : String) (p : Phase) (m : Model) (r : Record),
    Phase.ofString text = .ok p → m.SameData r →
      (r.satisfiesQuery (Query.ofPhase p []) = true ↔ m.satisfies p = true) := by
  intro h
  have hread : Phase.ofString "[_digger.tag=city]" =
      .ok { Phase.any with tests := [⟨"_digger.tag", .equals, .text "city"⟩] } := by decide +kernel
  have hiff := h _ _ _ _ hread Model.sameData_oldCity
  exact absurd (hiff.1 (by decide +kernel)) (by decide +kernel)

end Grove
