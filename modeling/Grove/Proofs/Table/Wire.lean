import Mathlib.Tactic
import Grove.Proofs.Forest.Wire
import Grove.Proofs.Position.Wire
import Grove.Proofs.Table.Lineage
/-!
# Records and JSON texts

A record takes its attributes from a draft, so what holds of every value in the drafts holds of every value in the
records. A record in a table is written as a text that reads back as it was, exactly if its path does and if its
attributes are not nested deeper than the reader goes.
-/

set_option autoImplicit false

namespace Grove

namespace Record

/-- The tree of a record with some tree in the place of its attributes. -/
def toJsonWith (r : Record) (attrs : Json) : Json :=
  .object [("diggerid", .string r.uid), ("parentid", Json.ofOption r.parent), ("tag", .string r.tag),
    ("id", Json.ofOption r.id), ("class", .array (r.classes.map .string)), ("path", r.path.toJson),
    ("left", r.left.toJson), ("right", r.right.toJson), ("attrs", attrs)]

section
variable {r : Record} {room : ℕ}

/-- A record comes back with the path and the attributes that are read, and is not read if one of them is not. -/
theorem ofJson?_toJsonWith (attrs : Json) : Record.ofJson? (r.toJsonWith attrs) =
    (SiblingPath.ofJson? r.path.toJson).bind fun path =>
      (Attr.ofJson? attrs).map fun attrs => { r with path, attrs } := by
  unfold ofJson? toJsonWith
  rw [Json.fields?_bind (by simp), Json.Fields.required_bind rfl (Json.string?_string _),
    Json.Fields.optional_bind rfl (Json.option?_ofOption _), Json.Fields.required_bind rfl (Json.string?_string _),
    Json.Fields.optional_bind rfl (Json.option?_ofOption _), Json.Fields.required_bind rfl (Json.list?_string _)]
  cases hpath : SiblingPath.ofJson? r.path.toJson with
  | none => rw [Json.Fields.required_bind_none rfl hpath, Option.bind_none]
  | some path =>
    rw [Json.Fields.required_bind rfl hpath, Json.Fields.required_bind rfl (Position.ofJson?_toJson _),
      Json.Fields.required_bind rfl (Position.ofJson?_toJson _), Option.bind_some]
    cases hattrs : Attr.ofJson? attrs with
    | none => rw [Json.Fields.required_bind_none rfl hattrs, Option.map_none]
    | some a =>
      rw [Json.Fields.required_bind rfl hattrs]
      rfl

theorem isWritable_toJson : r.toJson.isWritable = true := by
  have hoption : ∀ s, (Json.ofOption s).isWritable = true := by
    intro s
    cases s <;> rfl
  have hclasses : Json.areWritable (r.classes.map .string) = true := Json.areWritable_map (fun _ => rfl) _
  unfold toJson
  simp only [Json.isWritable, Json.entriesWritable, hoption, hclasses, SiblingPath.isWritable_toJson,
    Position.isWritable_toJson, Attr.isWritable_toJson, Bool.and_self]

theorem cut_toJson : Json.cut (room + 2) r.toJson = r.toJsonWith (Json.cut (room + 1) r.attrs.toJson) := by
  have htext : ∀ s, Json.cut (room + 1) (.string s) = .string s := fun _ => rfl
  have hoption : ∀ s, Json.cut (room + 1) (Json.ofOption s) = Json.ofOption s := by
    intro s
    cases s <;> rfl
  have hlist : ∀ {α : Type} {f : α → Json} (as : List α), (∀ a, (f a).depth = 0) →
      Json.cut (room + 1) (.array (as.map f)) = .array (as.map f) := fun as hf =>
    Json.cut_eq_self (Nat.succ_le_succ ((Json.itemsDepth_map hf as).trans_le (Nat.zero_le _)))
  have hclasses : Json.cut (room + 1) (.array (r.classes.map .string)) = .array (r.classes.map .string) :=
    hlist _ fun _ => rfl
  have hpath : Json.cut (room + 1) r.path.toJson = r.path.toJson := hlist _ fun _ => rfl
  have hposition : ∀ p : Position, Json.cut (room + 1) p.toJson = p.toJson := fun p =>
    Json.cut_eq_self (Nat.succ_le_succ (Nat.zero_le _))
  change Json.object (Json.cutEntries (room + 1) _) = _
  simp only [Json.cutEntries, htext, hoption, hclasses, hpath, hposition]
  rfl

/-- The text of a record is read as its path is, unless the attributes are nested too deep. -/
theorem ofString?_write (hkeys : r.attrs.IsKeyed) (hfinite : r.attrs.IsFinite) :
    (Json.ofString? r.toJson.write).bind Record.ofJson? = if r.attrs.toJson.depth < Json.nestingLimit then
      (SiblingPath.ofJson? r.path.toJson).map fun path => { r with path } else none := by
  have hcut : Json.cut Json.nestingLimit r.toJson = r.toJsonWith (Json.cut 126 r.attrs.toJson) := cut_toJson
  rw [Json.ofString?_write isWritable_toJson, Option.bind_some, hcut, ofJson?_toJsonWith]
  split
  · next hdepth =>
    rw [Json.cut_eq_self (Nat.le_of_lt_succ hdepth), Attr.ofJson?_toJson hkeys hfinite]
    cases SiblingPath.ofJson? r.path.toJson <;> rfl
  · next hdepth =>
    rw [Attr.ofJson?_cut (Nat.lt_of_succ_le (Nat.le_of_not_lt hdepth))]
    cases SiblingPath.ofJson? r.path.toJson <;> rfl

theorem map_path_eq_some : ((SiblingPath.ofJson? r.path.toJson).map fun path => { r with path }) = some r ↔
    r.path.Signable := by
  rw [Option.map_eq_some_iff, ← SiblingPath.ofJson?_toJson_eq_some]
  constructor
  · rintro ⟨path, hread, hr⟩
    rw [hread, ← congrArg Record.path hr]
  · exact fun hread => ⟨r.path, hread, rfl⟩

theorem ofString?_write_eq_some (hkeys : r.attrs.IsKeyed) (hfinite : r.attrs.IsFinite) :
    (Json.ofString? r.toJson.write).bind Record.ofJson? = some r ↔
      r.path.Signable ∧ r.attrs.toJson.depth < Json.nestingLimit := by
  rw [ofString?_write hkeys hfinite]
  split
  · next hdepth => rw [map_path_eq_some, and_iff_left hdepth]
  · next hdepth => exact iff_of_false (fun h => by cases h) fun h => hdepth h.2

theorem ofString?_write_eq_none (hkeys : r.attrs.IsKeyed) (hfinite : r.attrs.IsFinite) :
    (Json.ofString? r.toJson.write).bind Record.ofJson? = none ↔
      ¬ (r.path.Signable ∧ r.attrs.toJson.depth < Json.nestingLimit) := by
  rw [ofString?_write hkeys hfinite]
  split
  · next hdepth =>
    rw [Option.map_eq_none_iff, SiblingPath.ofJson?_toJson_eq_none, and_iff_left hdepth]
  · next hdepth => exact iff_of_true rfl fun h => hdepth h.2

end

end Record

def Call.all (p : Attr → Bool) : Call → Bool
  | .append _ drafts => Draft.allChildren p drafts
  | .remove _ => true

def Call.IsKeyed (call : Call) : Prop := call.all Attr.hasDistinctKeys = true

namespace Table

section
variable {t t' : Table} {owner : Option Owner} {r : Record} {added : List Record} {p : Attr → Bool}

theorem attrs_of_appendOne {tag : String} {id : Option String} {classes : List String} {attrs : Attr}
    (h : t.appendOne owner tag id classes attrs = .ok (r, t')) :
    r.attrs = if attrs.isNull then .emptyMap else attrs := by
  rcases appendOne_cases t owner tag id classes attrs with ⟨e, hrefused⟩ | ⟨span, hspan⟩
  · rw [hrefused] at h
    cases h
  · rw [appendOne_of_placeSpan tag id classes attrs hspan] at h
    split at h
    · cases h
      rfl
    · cases h

mutual

theorem all_recordsOf {t : Table} {owner : Option Owner} {d : Draft} (hempty : Attr.emptyMap.all p = true)
    (hd : d.all p = true) : ∀ r ∈ t.recordsOf owner d, r.attrs.all p = true := by
  obtain ⟨tag, id, classes, attrs, children⟩ := d
  obtain ⟨hattrs, hchildren⟩ := Draft.all_mk.1 hd
  unfold recordsOf
  cases happ : t.appendOne owner tag id classes attrs with
  | error e =>
    intro r hr
    cases hr
  | ok added =>
    refine List.forall_mem_cons.2 ⟨?_, all_recordsOfAll hempty hchildren⟩
    rw [attrs_of_appendOne happ]
    split
    · exact hempty
    · exact hattrs

theorem all_recordsOfAll {t : Table} {owner : Option Owner} {drafts : List Draft}
    (hempty : Attr.emptyMap.all p = true) (hdrafts : Draft.allChildren p drafts = true) :
    ∀ r ∈ t.recordsOfAll owner drafts, r.attrs.all p = true := by
  cases drafts with
  | nil =>
    unfold recordsOfAll
    intro r hr
    cases hr
  | cons d rest =>
    obtain ⟨hd, hrest⟩ := Draft.allChildren_cons.1 hdrafts
    unfold recordsOfAll
    refine List.forall_mem_append.2 ⟨all_recordsOf hempty hd, ?_⟩
    split
    · exact all_recordsOfAll hempty hrest
    · intro r hr
      cases hr

end

theorem all_recordsGiven {call : Call} (hempty : Attr.emptyMap.all p = true) (hcall : call.all p = true) :
    ∀ r ∈ t.recordsGiven call, r.attrs.all p = true := by
  cases call with
  | remove uid =>
    intro r hr
    cases hr
  | append target drafts =>
    unfold recordsGiven
    dsimp only
    split
    · intro r hr
      cases hr
    · exact all_recordsOfAll hempty hcall

theorem all_recordsAfter {calls : List Call} (hempty : Attr.emptyMap.all p = true)
    (hcalls : ∀ call ∈ calls, call.all p = true) : ∀ r ∈ t.recordsAfter calls, r.attrs.all p = true := by
  induction calls generalizing t with
  | nil =>
    intro r hr
    cases hr
  | cons call rest ih =>
    rw [List.forall_mem_cons] at hcalls
    exact List.forall_mem_append.2 ⟨all_recordsGiven hempty hcalls.1, ih hcalls.2⟩

theorem Builds.records_subset (h : t.Builds added t') : t'.records ⊆ t.records ++ added := by
  induction h with
  | refl => exact List.subset_append_left ..
  | add _ _ ha ih =>
    rw [ha.records, ← List.append_assoc]
    exact List.append_subset.2 ⟨List.subset_append_of_subset_left _ ih, List.subset_append_right ..⟩
  | @remove added t' uid _ ih =>
    rcases remove_cases t' uid with heq | ⟨target, hd⟩
    · rwa [heq]
    · exact fun x hx => ih (hd.mem_iff.1 hx).1

theorem all_afterCalls (options : StoreOptions) (ids : IdSource) {calls : List Call}
    (hempty : Attr.emptyMap.all p = true) (hcalls : ∀ call ∈ calls, call.all p = true) :
    ∀ r ∈ (Backend.afterCalls (Table.new options ids) calls).records, r.attrs.all p = true := by
  intro r hr
  have hbuilds : (Table.new options ids).Builds _ (Backend.afterCalls (Table.new options ids) calls) :=
    afterCalls_builds calls
  exact all_recordsAfter hempty hcalls r (hbuilds.records_subset hr)

end

end Table

/-- A path that is written as signed words is read back exactly if no index needs the sign bit, and no words are
read but those that a path is written as. So the text that is written of a record of a table, whatever calls it
has gone through, reads back as the record exactly if no index of its path needs the sign bit and the record has
no more containers inside each other than the reader allows; otherwise it cannot be read. -/
theorem paths_and_records_read_back (options : StoreOptions) (ids : IdSource) {calls : List Call}
    (hcalls : ∀ call ∈ calls, call.IsKeyed) :
    (∀ p : SiblingPath, SiblingPath.ofSigned p.toSigned = .ok p ↔ ∀ i ∈ p.indices, i.toNat < 2 ^ 63) ∧
    (∀ values p, SiblingPath.ofSigned values = .ok p → p.toSigned = values) ∧
    ∀ r ∈ (Backend.afterCalls (Table.new options ids) calls).records, r.attrs.IsFinite →
      let readable := (∀ i ∈ r.path.indices, i.toNat < 2 ^ 63) ∧ r.attrs.toJson.depth < Json.nestingLimit
      ((Json.ofString? r.toJson.write).bind Record.ofJson? = some r ↔ readable) ∧
      ((Json.ofString? r.toJson.write).bind Record.ofJson? = none ↔ ¬ readable) := by
  refine ⟨fun _ => SiblingPath.ofSigned_toSigned, fun _ _ h => (SiblingPath.ofSigned_eq_ok.1 h).1, ?_⟩
  intro r hr hfinite
  have hkeys : r.attrs.IsKeyed := Table.all_afterCalls options ids Attr.isKeyed_emptyMap hcalls r hr
  exact ⟨Record.ofString?_write_eq_some hkeys hfinite, Record.ofString?_write_eq_none hkeys hfinite⟩

/-- The two records of a tree with indices from one on. -/
theorem paths_and_records_read_back_pair :
    ∃ a b, (Backend.afterCalls (Table.new ⟨⟨1, 4⟩, 1⟩ .counting) Table.pair).records = [a, b] ∧
      a.path.indices = [0] ∧ b.path.indices = [0, 1] ∧
      (Json.ofString? a.toJson.write).bind Record.ofJson? = some a ∧
      (Json.ofString? b.toJson.write).bind Record.ofJson? = some b := by
  obtain ⟨a, b, hrecords, -, ha, -, hb⟩ := Table.afterCalls_pair ⟨⟨1, 4⟩, 1⟩
    .counting rfl (by decide +kernel) rfl (by decide +kernel) (by decide)
  have hall : ∀ p : Attr → Bool, Attr.emptyMap.all p = true → ∀ call ∈ Table.pair, call.all p = true := by
    intro p hp
    rw [Table.pair, List.forall_mem_singleton]
    simp [Call.all, Draft.allChildren, Draft.all, Draft.ofTag, hp]
  have hattrs : ∀ p : Attr → Bool, Attr.emptyMap.all p = true → ∀ r ∈ [a, b], r.attrs.all p = true := by
    intro p hp
    rw [← hrecords]
    exact Table.all_afterCalls _ _ hp (hall p hp)
  have hflat : ∀ r ∈ [a, b], r.attrs.toJson.depth < Json.nestingLimit := by
    intro r hr
    have hdepth := hattrs (fun value => value.toJson.depth ≤ 1) (by decide) r hr
    exact (of_decide_eq_true (Attr.self_of_all hdepth)).trans_lt (by decide)
  have hread := (paths_and_records_read_back ⟨⟨1, 4⟩, 1⟩ .counting (hall _ Attr.isKeyed_emptyMap)).2.2
  rw [hrecords] at hread
  refine ⟨a, b, hrecords, ha, hb, ((hread a (by simp)) (hattrs _ Attr.isFinite_emptyMap a (by simp))).1.2 ⟨?_, ?_⟩,
    ((hread b (by simp)) (hattrs _ Attr.isFinite_emptyMap b (by simp))).1.2 ⟨?_, ?_⟩⟩
  · rw [ha, List.forall_mem_singleton]
    decide
  · exact hflat a (by simp)
  · rw [hb, List.forall_mem_cons, List.forall_mem_singleton]
    decide
  · exact hflat b (by simp)

/-- The path of the first root that needs the sign bit is written as a negative word, which is not read. -/
theorem not_paths_read_back :
    SiblingPath.ofIndices [0x8000000000000000] = .ok (.root 0x8000000000000000) ∧
    (SiblingPath.root 0x8000000000000000).toSigned = [-0x8000000000000000] ∧
    SiblingPath.ofSigned [-0x8000000000000000] = .error (.negativeIndex 0 (-0x8000000000000000)) := by
  decide +kernel

end Grove
