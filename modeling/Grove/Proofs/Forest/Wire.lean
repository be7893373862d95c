import Grove.Forest.Draft
import Grove.Proofs.Attr.Wire
/-!
# Drafts and JSON trees

What is written of a draft reads back as that draft. Null attributes are written as null and read as null;
only attributes that are left out would be read as an empty map.
-/

set_option autoImplicit false

namespace Grove

namespace Draft

mutual

def all (p : Attr → Bool) : Draft → Bool
  | ⟨_, _, _, attrs, children⟩ => attrs.all p && allChildren p children

def allChildren (p : Attr → Bool) : List Draft → Bool
  | [] => true
  | d :: rest => all p d && allChildren p rest

end

/-- Every map in the attributes names each of its keys once. -/
def IsKeyed (d : Draft) : Prop := d.all Attr.hasDistinctKeys = true

/-- Every number in the attributes is finite. -/
def IsFinite (d : Draft) : Prop := d.all Attr.isFiniteNumber = true

instance (d : Draft) : Decidable d.IsKeyed := inferInstanceAs (Decidable (_ = true))

instance (d : Draft) : Decidable d.IsFinite := inferInstanceAs (Decidable (_ = true))

section
variable {p : Attr → Bool} {tag : String} {id : Option String} {classes : List String} {attrs : Attr}
  {d : Draft} {rest children : List Draft} {tree : Json}

theorem all_mk :
    (Draft.mk tag id classes attrs children).all p = true ↔ attrs.all p = true ∧ allChildren p children = true :=
  Bool.and_eq_true_iff

theorem allChildren_cons : allChildren p (d :: rest) = true ↔ d.all p = true ∧ allChildren p rest = true :=
  Bool.and_eq_true_iff

theorem childrenOfEntries?_written {written : Json} :
    childrenOfEntries? [("tag", .string tag), ("id", Json.ofOption id), ("class", .array (classes.map .string)),
      ("attrs", tree), ("children", written)] = listOfJson? written := by
  simp [childrenOfEntries?]

theorem ofFields?_written {written : Json} (hattrs : Attr.ofJson? tree = some attrs) :
    ofFields? (.object [("tag", .string tag), ("id", Json.ofOption id), ("class", .array (classes.map .string)),
      ("attrs", tree), ("children", written)]) children = some ⟨tag, id, classes, attrs, children⟩ := by
  unfold ofFields?
  rw [Json.fields?_bind (by simp), Json.Fields.withDefault_bind rfl (Json.string?_string _),
    Json.Fields.withDefault_bind rfl (Json.option?_ofOption _),
    Json.Fields.withDefault_bind rfl (Json.list?_string _), Json.Fields.withDefault_bind rfl hattrs]
  rfl

end

mutual

theorem ofJson?_toJson {d : Draft} (hkeys : d.IsKeyed) (hfinite : d.IsFinite) : ofJson? d.toJson = some d := by
  cases d with
  | mk tag id classes attrs children =>
    obtain ⟨hattrs, hchildren⟩ := all_mk.1 hkeys
    obtain ⟨hattrs', hchildren'⟩ := all_mk.1 hfinite
    have hread : listOfJson? (.array (toJsonAll children)) = some children :=
      draftsOfItems?_toJsonAll hchildren hchildren'
    unfold toJson ofJson?
    rw [childrenOfEntries?_written, hread]
    exact ofFields?_written (Attr.ofJson?_toJson hattrs hattrs')

theorem draftsOfItems?_toJsonAll {ds : List Draft} (hkeys : allChildren Attr.hasDistinctKeys ds = true)
    (hfinite : allChildren Attr.isFiniteNumber ds = true) : draftsOfItems? (toJsonAll ds) = some ds := by
  cases ds with
  | nil => rfl
  | cons d rest =>
    obtain ⟨hd, hrest⟩ := allChildren_cons.1 hkeys
    obtain ⟨hd', hrest'⟩ := allChildren_cons.1 hfinite
    unfold toJsonAll draftsOfItems?
    rw [ofJson?_toJson hd hd', draftsOfItems?_toJsonAll hrest hrest']
    rfl

end

end Draft

/-- Attribute trees and drafts come back from the JSON trees written for them, with the keys of every map in their
order, repeated classes repeated and null attributes null. -/
theorem attrs_and_drafts_read_back :
    (∀ a : Attr, a.IsKeyed → a.IsFinite → Attr.ofJson? a.toJson = some a) ∧
      ∀ d : Draft, d.IsKeyed → d.IsFinite → Draft.ofJson? d.toJson = some d :=
  ⟨fun _ => Attr.ofJson?_toJson, fun _ => Draft.ofJson?_toJson⟩

/-- A map whose keys are out of order, with a list of a null, a text of digits and an empty map. -/
def Attr.measures : Attr :=
  .map [("width", .number (.ofInt 3)), ("depth", .list [.null, .text "12", .emptyMap]), ("lit", .bool false)]

/-- A tower without attributes and the room in it, one class given twice. -/
def Draft.tower : Draft := ⟨"tower", some "keep", ["old", "old"], .null, [⟨"room", none, [], .measures, []⟩]⟩

theorem attrs_and_drafts_read_back_tower :
    Attr.ofJson? Attr.measures.toJson = some Attr.measures ∧ Draft.ofJson? Draft.tower.toJson = some Draft.tower :=
  ⟨attrs_and_drafts_read_back.1 Attr.measures (by decide +kernel) (by decide +kernel),
    attrs_and_drafts_read_back.2 Draft.tower (by decide +kernel) (by decide +kernel)⟩

end Grove
