import Grove.Query.Wire
import Grove.Proofs.Selector.Wire
/-!
# Queries and JSON trees

What is written of a skeleton, a query or a request reads back as it was. A unique identifier is always written as
a text, so that one that looks like a number stays a text.
-/

set_option autoImplicit false

namespace Grove

namespace Skeleton

/-- Boundaries that are numbers are finite. -/
def Finite (s : Skeleton) : Prop := s.left.Finite ∧ s.right.Finite

instance (s : Skeleton) : Decidable s.Finite := by unfold Finite; infer_instance

theorem ofJson?_toJson {s : Skeleton} (h : s.Finite) : ofJson? s.toJson = some s := by
  have huid : uidOfJson? (.string s.uid) = some s.uid := rfl
  unfold ofJson? toJson
  rw [Json.fields?_bind (by simp), Json.Fields.required_bind rfl huid,
    Json.Fields.withDefault_bind rfl (Json.string?_string _),
    Json.Fields.required_bind rfl (Literal.ofJson?_toJson h.1),
    Json.Fields.required_bind rfl (Literal.ofJson?_toJson h.2),
    Json.Fields.withDefault_bind rfl (Json.list?_string _)]
  rfl

end Skeleton

namespace Query

/-- Every number of the conditions is finite. -/
structure Finite (q : Query) : Prop where
  search : ∀ p ∈ q.search, p.value.Finite
  groups : ∀ group ∈ q.groups, ∀ p ∈ group, p.value.Finite

theorem ofJson?_toJson {q : Query} (h : q.Finite) : ofJson? q.toJson = some q := by
  obtain ⟨search, groups, modifier⟩ := q
  have hgroups : Json.list? (Json.list? Predicate.ofJson?)
      (.array (groups.map fun group => .array (group.map Predicate.toJson))) = some groups :=
    Json.list?_map fun group hgroup => Predicate.list?_toJson (h.groups group hgroup)
  unfold ofJson? toJson
  cases modifier with
  | none =>
    dsimp only [Option.map_none, Option.toList_none, List.append_nil]
    rw [Json.fields?_bind (by simp), Json.Fields.required_bind rfl (Predicate.list?_toJson h.search),
      Json.Fields.required_bind rfl hgroups, Json.Fields.withDefault_bind_none rfl]
    rfl
  | some m =>
    dsimp only [Option.map_some, Option.toList_some, List.cons_append, List.nil_append]
    rw [Json.fields?_bind (by simp), Json.Fields.required_bind rfl (Predicate.list?_toJson h.search),
      Json.Fields.required_bind rfl hgroups,
      Json.Fields.withDefault_bind rfl (Modifier.option?_toJson (some m))]
    rfl

section
variable {phase : Phase} {combinator : Combinator} {context : Skeleton} {contexts : List Skeleton}

theorem finite_searchOf (h : phase.Finite) : ∀ p ∈ searchOf phase, p.value.Finite := by
  intro p hp
  simp only [searchOf, List.mem_append, Option.mem_toList, Option.map_eq_some_iff, List.mem_map] at hp
  -- a shortcut is a test on a text
  rcases hp with (((⟨_, _, rfl⟩ | ⟨_, _, rfl⟩) | ⟨_, _, rfl⟩) | ⟨_, _, rfl⟩) | htest
  · trivial
  · trivial
  · trivial
  · trivial
  · exact h p htest

theorem finite_groupOf (h : context.Finite) : ∀ p ∈ groupOf combinator context, p.value.Finite := by
  cases combinator with
  | descendant => exact List.forall_mem_cons.2 ⟨h.1, List.forall_mem_singleton.2 h.2⟩
  | child =>
    exact List.forall_mem_cons.2 ⟨h.1, List.forall_mem_cons.2 ⟨h.2, List.forall_mem_singleton.2 trivial⟩⟩

theorem finite_ofStep (hphase : phase.Finite) (hcontexts : ∀ s ∈ contexts, s.Finite) :
    (ofStep phase combinator contexts).Finite where
  search := finite_searchOf hphase
  groups := by
    intro group hgroup
    obtain ⟨s, hs, rfl⟩ := List.mem_map.1 hgroup
    exact finite_groupOf (hcontexts s hs)

end

end Query

namespace Request

def Finite (r : Request) : Prop := r.phase.Finite ∧ ∀ s ∈ r.context, s.Finite

instance (r : Request) : Decidable r.Finite := by unfold Finite; infer_instance

theorem ofJson?_toJson {r : Request} (h : r.Finite) : ofJson? r.toJson = some r := by
  unfold ofJson? toJson
  rw [Json.fields?_bind (by simp), Json.Fields.required_bind rfl (Phase.ofJson?_toJson h.1),
    Json.Fields.withDefault_bind rfl (Combinator.ofJson?_toJson _),
    Json.Fields.withDefault_bind rfl (Json.list?_map fun s hs => Skeleton.ofJson?_toJson (h.2 s hs))]
  rfl

end Request

/-- Selectors, skeletons and requests come back from the JSON trees written for them, and so does every query made
of a phase. -/
theorem selectors_and_queries_read_back :
    (∀ s : Selector, s.Finite → Selector.ofJson? s.toJson = some s) ∧
    (∀ s : Skeleton, s.Finite → Skeleton.ofJson? s.toJson = some s) ∧
    (∀ r : Request, r.Finite → Request.ofJson? r.toJson = some r) ∧
    ∀ (phase : Phase) (combinator : Combinator) (contexts : List Skeleton), phase.Finite →
      (∀ s ∈ contexts, s.Finite) →
      Query.ofJson? (Query.ofStep phase combinator contexts).toJson = some (Query.ofStep phase combinator contexts) :=
  ⟨fun _ => Selector.ofJson?_toJson, fun _ => Skeleton.ofJson?_toJson, fun _ => Request.ofJson?_toJson,
    fun _ _ _ hphase hcontexts => Query.ofJson?_toJson (Query.finite_ofStep hphase hcontexts)⟩

/-- At most two rooms of the name of a number, with a number and a text of digits among the tests. -/
def Phase.numbered : Phase :=
  ⟨some "room", none, some "12", ⟨["warm", "dry"], by decide⟩,
    [⟨"depth", .less, .number (.ofInt 3)⟩, ⟨"depth", .begins, .text "3"⟩], some (.limit 2)⟩

/-- The room twelve, its boundaries given as a text and as a number. -/
def Skeleton.room : Skeleton := ⟨"12", "room", .text "12", .number (.ofInt 13), ["warm", "warm"]⟩

theorem selectors_and_queries_read_back_numbered :
    Selector.ofJson? (Selector.toJson ⟨[⟨.any, [(.child, .numbered)]⟩]⟩) = some ⟨[⟨.any, [(.child, .numbered)]⟩]⟩ ∧
    Skeleton.ofJson? Skeleton.room.toJson = some .room ∧
    Request.ofJson? (Request.toJson ⟨.numbered, .child, [.room]⟩) = some ⟨.numbered, .child, [.room]⟩ ∧
    Query.ofJson? (Query.ofStep .numbered .child [.room]).toJson = some (Query.ofStep .numbered .child [.room]) :=
  ⟨selectors_and_queries_read_back.1 _ (by decide +kernel),
    selectors_and_queries_read_back.2.1 _ (by decide +kernel),
    selectors_and_queries_read_back.2.2.1 _ (by decide +kernel),
    selectors_and_queries_read_back.2.2.2 _ _ _ (by decide +kernel) (by decide +kernel)⟩

end Grove
