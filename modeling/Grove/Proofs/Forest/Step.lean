import Mathlib.Tactic
import Grove.Forest.Store
/-!
# What one step of an update does

Every update of a forest is made of two steps: one model is placed below a parent, or a model is removed
with all that lies below it. Each step is described once, by what it leaves at every handle, and later
modules look at steps through these descriptions only.
-/

set_option autoImplicit false

namespace Grove

namespace Model

def adopt (m : Model) (h : Handle) : Model :=
  { m with children := m.children ++ [h], nextChild := m.nextChild + 1 }

def disown (m : Model) (h : Handle) : Model := { m with children := m.children.filter (· != h) }

end Model

namespace Store

def siblings (s : Store) : Option Handle → List Handle
  | none => s.roots
  | some p => s.children p

/-- The path of a model; above the roots there are no indices. -/
def pathTo (s : Store) : Option Handle → List UInt64
  | none => []
  | some p => ((s.get? p).map fun m => m.path.indices).getD []

def spanOf (s : Store) : Option Handle → Option Span
  | none => none
  | some p => (s.get? p).map Model.span

def nextIndex (s : Store) : Option Handle → UInt64
  | none => s.nextRoot
  | some p => ((s.get? p).map Model.nextChild).getD 0

def firstIndex (s : Store) : Option Handle → UInt64
  | none => 0
  | some _ => s.options.firstChildIndex

/-- The live handles, in the order in which their models were made. -/
def live (s : Store) : List Handle := (List.range s.slots.size).filter fun h => (s.get? h).isSome

def IsLive (s : Store) : Option Handle → Prop
  | none => True
  | some p => ∃ m, s.get? p = some m

section
variable {s : Store} {h p : Handle} {m : Model}

theorem children_of_get? (hp : s.get? p = some m) : s.children p = m.children := by
  unfold children
  rw [hp]

theorem children_of_get?_none (hp : s.get? p = none) : s.children p = [] := by
  unfold children
  rw [hp]

theorem pathTo_of_get? (hp : s.get? p = some m) : s.pathTo (some p) = m.path.indices := by
  simp only [pathTo, hp, Option.map_some, Option.getD_some]

theorem nextIndex_of_get? (hp : s.get? p = some m) : s.nextIndex (some p) = m.nextChild := by
  simp only [nextIndex, hp, Option.map_some, Option.getD_some]

theorem spanOf_of_get? (hp : s.get? p = some m) : s.spanOf (some p) = some m.span := by
  simp only [spanOf, hp, Option.map_some]

theorem parent?_of_get? (hm : s.get? h = some m) : s.parent? h = m.parent := by
  rw [parent?, hm, Option.bind_some]

theorem skeleton?_of_get? (hm : s.get? h = some m) : s.skeleton? h = some m.skeleton := by
  rw [skeleton?, hm, Option.map_some]

theorem isLive_of_mem_siblings {parent : Option Handle} (hh : h ∈ s.siblings parent) :
    s.IsLive parent := by
  cases parent with
  | none => trivial
  | some p =>
    change h ∈ s.children p at hh
    cases hp : s.get? p with
    | none =>
      rw [children_of_get?_none hp] at hh
      cases hh
    | some owner => exact ⟨owner, hp⟩

end

section
variable {s : Store} {h x : Handle} {m : Model} {f : Model → Model}

theorem lt_size_of_get? (hx : s.get? x = some m) : x < s.slots.size := by
  by_contra hge
  rw [get?, Array.getElem?_eq_none (not_lt.1 hge)] at hx
  cases hx

theorem get?_eq_none_of_size_le (hx : s.slots.size ≤ x) : s.get? x = none := by
  rw [get?, Array.getElem?_eq_none hx]
  rfl

theorem mem_live_iff : x ∈ s.live ↔ ∃ m, s.get? x = some m := by
  unfold live
  rw [List.mem_filter, List.mem_range, Option.isSome_iff_exists]
  exact ⟨And.right, fun ⟨m, hm⟩ => ⟨lt_size_of_get? hm, m, hm⟩⟩

theorem nodup_live (s : Store) : s.live.Nodup := List.nodup_range.filter _

theorem get?_put (hh : h < s.slots.size) :
    (s.put h m).get? x = if x = h then some m else s.get? x := by
  unfold put get?
  dsimp only
  rw [Array.getElem?_setIfInBounds]
  by_cases hxh : x = h
  · subst hxh
    simp [hh]
  · rw [if_neg (Ne.symm hxh), if_neg hxh]

theorem get?_modify : (s.modify h f).get? x = if x = h then (s.get? x).map f else s.get? x := by
  unfold modify
  split
  · next m hm =>
    rw [get?_put (lt_size_of_get? hm)]
    split
    · next hxh => rw [hxh, hm, Option.map_some]
    · rfl
  · next hnone =>
    split
    · next hxh => rw [hxh, hnone, Option.map_none]
    · rfl

@[simp] theorem modify_options : (s.modify h f).options = s.options := by unfold modify; split <;> rfl

@[simp] theorem modify_isOpen : (s.modify h f).isOpen = s.isOpen := by unfold modify; split <;> rfl

@[simp] theorem modify_ids : (s.modify h f).ids = s.ids := by unfold modify; split <;> rfl

@[simp] theorem modify_drawn : (s.modify h f).drawn = s.drawn := by unfold modify; split <;> rfl

@[simp] theorem modify_roots : (s.modify h f).roots = s.roots := by unfold modify; split <;> rfl

@[simp] theorem modify_nextRoot : (s.modify h f).nextRoot = s.nextRoot := by unfold modify; split <;> rfl

@[simp] theorem modify_index : (s.modify h f).index = s.index := by unfold modify; split <;> rfl

@[simp] theorem modify_size : (s.modify h f).slots.size = s.slots.size := by
  unfold modify
  split
  · simp [put]
  · rfl

def newModel (s : Store) (parent : Option Handle) (path : SiblingPath) (span : Span) (tag : String)
    (id : Option String) (classes : List String) (attrs : Attr) : Model :=
  { uid := s.ids.draw s.nextDraw, tag := tag, id := id, classes := .ofList classes
    attrs := if attrs.isNull then .emptyMap else attrs
    children := [], parent := parent, path := path, span := span
    nextChild := s.options.firstChildIndex }

theorem get?_insert {parent : Option Handle} {path : SiblingPath} {span : Span} {tag : String}
    {id : Option String} {classes : List String} {attrs : Attr} :
    (s.insert h parent path span tag id classes attrs).get? x =
      if x = s.slots.size then some (s.newModel parent path span tag id classes attrs)
      else s.get? x := by
  unfold insert get?
  dsimp only
  rw [Array.getElem?_push]
  split <;> rfl

end

/-- The counter of a parent, or of the roots, can be raised once more. -/
def HasRoom (s : Store) (parent : Option Handle) : Prop := (s.nextIndex parent).toNat + 1 < UInt64.size

instance (s : Store) (parent : Option Handle) : Decidable (s.HasRoom parent) :=
  inferInstanceAs (Decidable (_ < _))

/-- The model `m` has been placed as the last child of a parent, or as the last root. -/
structure Placed (s : Store) (parent : Option Handle) (m : Model) (s' : Store) : Prop where
  options : s'.options = s.options
  isOpen : s'.isOpen = s.isOpen
  ids : s'.ids = s.ids
  drawn : s'.drawn = s.nextDraw + 1
  slot : s.slots.size < UInt32.size
  size : s'.slots.size = s.slots.size + 1
  live : s.IsLive parent
  room : s.HasRoom parent
  uid : m.uid = s.ids.draw s.nextDraw
  parent_eq : m.parent = parent
  childless : m.children = []
  nextChild : m.nextChild = s.options.firstChildIndex
  path : m.path.indices = s.pathTo parent ++ [s.nextIndex parent]
  span : m.path.span s.options.format = .ok m.span
  resolved : m.span.isResolved (s.spanOf parent) = true
  get?_eq : ∀ x, s'.get? x = if x = s.slots.size then some m
    else if parent = some x then (s.get? x).map (Model.adopt · s.slots.size) else s.get? x
  roots : s'.roots = if parent = none then s.roots ++ [s.slots.size] else s.roots
  nextRoot : s'.nextRoot = if parent = none then s.nextRoot + 1 else s.nextRoot
  lookup : ∀ uid, s'.lookup? uid = if m.uid = uid then some s.slots.size else s.lookup? uid

theorem nextDraw_spec (s : Store) : s.drawn ≤ s.nextDraw ∧ s.lookup? (s.ids.draw s.nextDraw) = none ∧
    ∀ k, s.drawn ≤ k → k < s.nextDraw → ∃ h, s.lookup? (s.ids.draw k) = some h := by
  have hused : ∀ uid, s.index.contains uid = true → uid ∈ s.index.keys :=
    fun _ huid => Std.HashMap.mem_keys.2 (Std.HashMap.contains_iff_mem.1 huid)
  obtain ⟨hle, hfree, htaken⟩ :=
    s.ids.next_spec s.drawn hused Std.HashMap.length_keys
  refine ⟨hle, Std.HashMap.getElem?_eq_none_of_contains_eq_false hfree, fun k hk hlt => ?_⟩
  have hk := htaken k hk hlt
  rw [Std.HashMap.contains_eq_isSome_getElem?] at hk
  exact Option.isSome_iff_exists.1 hk

theorem placeSpan_eq_ok {s : Store} {path : SiblingPath} {above : Option Span} {span : Span}
    (h : s.placeSpan path above = .ok span) :
    path.span s.options.format = .ok span ∧ span.isResolved above = true := by
  unfold placeSpan at h
  split at h
  · cases h
  · next span' hspan =>
    unfold Span.checkResolved at h
    by_cases hres : span'.isResolved above = true
    · rw [if_pos hres] at h
      cases h
      exact ⟨hspan, hres⟩
    · rw [if_neg hres] at h
      cases h

theorem nextPlace_eq_ok {s : Store} {parent : Option Handle} {path : SiblingPath} {above : Option Span}
    (h : s.nextPlace parent = .ok (path, above)) :
    s.IsLive parent ∧ path.indices = s.pathTo parent ++ [s.nextIndex parent] ∧ above = s.spanOf parent := by
  unfold nextPlace at h
  cases parent with
  | none =>
    cases h
    exact ⟨trivial, rfl, rfl⟩
  | some p =>
    dsimp only at h
    split at h
    · cases h
    · next owner howner =>
      cases h
      refine ⟨⟨owner, howner⟩, ?_, ?_⟩
      · simp [pathTo, nextIndex, howner, SiblingPath.child]
      · simp [spanOf, howner]

theorem lookup?_insert (s : Store) (h : Handle) (parent : Option Handle) (path : SiblingPath) (span : Span)
    (tag : String) (id : Option String) (classes : List String) (attrs : Attr) (uid : String) :
    (s.insert h parent path span tag id classes attrs).lookup? uid =
      if s.ids.draw s.nextDraw = uid then some h else s.lookup? uid := by
  unfold insert lookup?
  dsimp only
  rw [Std.HashMap.getElem?_insert]
  by_cases huid : s.ids.draw s.nextDraw = uid
  · rw [if_pos huid, if_pos (beq_iff_eq.2 huid)]
  · rw [if_neg huid, if_neg (mt beq_iff_eq.1 huid)]

def raise (s : Store) (parent : Option Handle) : Store :=
  match parent with
  | none => { s with nextRoot := s.nextRoot + 1 }
  | some p => s.modify p fun m => { m with nextChild := m.nextChild + 1 }

theorem advance_eq {s : Store} {parent : Option Handle} (hlive : s.IsLive parent) :
    s.advance parent = if s.HasRoom parent then .ok (s.raise parent) else .error .overflow := by
  have hnext : SiblingPath.nextIndex? (s.nextIndex parent) =
      if s.HasRoom parent then some (s.nextIndex parent + 1) else none := rfl
  cases parent with
  | none =>
    rw [nextIndex] at hnext
    unfold advance raise
    dsimp only
    by_cases hroom : s.HasRoom none
    · rw [hnext, if_pos hroom, if_pos hroom]
    · rw [hnext, if_neg hroom, if_neg hroom]
  | some p =>
    obtain ⟨owner, howner⟩ := hlive
    rw [nextIndex_of_get? howner] at hnext
    unfold advance raise modify
    dsimp only
    rw [howner]
    dsimp only
    by_cases hroom : s.HasRoom (some p)
    · rw [hnext, if_pos hroom, if_pos hroom]
    · rw [hnext, if_neg hroom, if_neg hroom]

@[simp] theorem raise_options {s : Store} {parent : Option Handle} : (s.raise parent).options = s.options := by
  cases parent <;> simp [raise]

@[simp] theorem raise_isOpen {s : Store} {parent : Option Handle} : (s.raise parent).isOpen = s.isOpen := by
  cases parent <;> simp [raise]

@[simp] theorem raise_ids {s : Store} {parent : Option Handle} : (s.raise parent).ids = s.ids := by
  cases parent <;> simp [raise]

@[simp] theorem raise_roots {s : Store} {parent : Option Handle} : (s.raise parent).roots = s.roots := by
  cases parent <;> simp [raise]

@[simp] theorem raise_size {s : Store} {parent : Option Handle} :
    (s.raise parent).slots.size = s.slots.size := by
  cases parent <;> simp [raise]

@[simp] theorem raise_lookup? {s : Store} {parent : Option Handle} {uid : String} :
    (s.raise parent).lookup? uid = s.lookup? uid := by
  cases parent <;> simp [raise, lookup?]

@[simp] theorem raise_nextDraw {s : Store} {parent : Option Handle} :
    (s.raise parent).nextDraw = s.nextDraw := by
  cases parent <;> simp [raise, nextDraw]

@[simp] theorem raise_newModel {s : Store} {parent par : Option Handle} {path : SiblingPath} {span : Span}
    {tag : String} {id : Option String} {classes : List String} {attrs : Attr} :
    (s.raise parent).newModel par path span tag id classes attrs =
      s.newModel par path span tag id classes attrs := by
  unfold newModel
  rw [raise_ids, raise_nextDraw, raise_options]

/-- The store with one model more, whose place is given. -/
def grow (s : Store) (parent : Option Handle) (path : SiblingPath) (span : Span) (tag : String)
    (id : Option String) (classes : List String) (attrs : Attr) : Store :=
  ((s.raise parent).insert s.slots.size parent path span tag id classes attrs).link parent s.slots.size

/-- What is left to go wrong where a new model has a place and a span. -/
theorem appendOne_of_placeSpan {s : Store} {parent : Option Handle} {path : SiblingPath} {above : Option Span}
    {span : Span} {tag : String} {id : Option String} {classes : List String} {attrs : Attr}
    (hopen : s.isOpen = true) (hplace : s.nextPlace parent = .ok (path, above))
    (hspan : s.placeSpan path above = .ok span) :
    s.appendOne parent tag id classes attrs =
      if s.slots.size < UInt32.size then
        if s.HasRoom parent then .ok (s.slots.size, s.grow parent path span tag id classes attrs)
        else .error .overflow
      else .error (.refused .capacityExceeded) := by
  unfold appendOne Handle.ofSlot?
  rw [hopen, hplace]
  dsimp only
  rw [hspan, advance_eq (nextPlace_eq_ok hplace).1]
  by_cases hslot : s.slots.size < UInt32.size
  · rw [if_pos hslot, if_pos hslot]
    by_cases hroom : s.HasRoom parent
    · rw [if_pos hroom, if_pos hroom]
      rfl
    · rw [if_neg hroom, if_neg hroom]
      rfl
  · rw [if_neg hslot, if_neg hslot]
    rfl

theorem placed_grow {s : Store} {parent : Option Handle} {path : SiblingPath} {span : Span} (tag : String)
    (id : Option String) (classes : List String) (attrs : Attr) (hslot : s.slots.size < UInt32.size)
    (hlive : s.IsLive parent) (hroom : s.HasRoom parent)
    (hpath : path.indices = s.pathTo parent ++ [s.nextIndex parent])
    (hspan : path.span s.options.format = .ok span)
    (hresolved : span.isResolved (s.spanOf parent) = true) :
    s.Placed parent (s.newModel parent path span tag id classes attrs)
      (s.grow parent path span tag id classes attrs) where
  options := by cases parent <;> simp [grow, insert, link]
  isOpen := by cases parent <;> simp [grow, insert, link]
  ids := by cases parent <;> simp [grow, insert, link]
  drawn := by cases parent <;> simp [grow, insert, link]
  slot := hslot
  size := by cases parent <;> simp [grow, insert, link]
  live := hlive
  room := hroom
  uid := rfl
  parent_eq := rfl
  childless := rfl
  nextChild := rfl
  path := hpath
  span := hspan
  resolved := hresolved
  get?_eq x := by
    cases parent with
    | none =>
      rw [if_neg (show ¬ (none : Option Handle) = some x by simp)]
      exact get?_insert (s := s.raise none) (h := s.slots.size)
    | some p =>
      obtain ⟨owner, howner⟩ := hlive
      rw [grow, link, get?_modify, get?_insert, raise_size, raise_newModel, raise, get?_modify]
      by_cases hx : x = p
      · subst hx
        simp [(lt_size_of_get? howner).ne, Option.map_map, Function.comp_def, Model.adopt]
      · simp [hx, Ne.symm hx]
  roots := by cases parent <;> simp [grow, insert, link]
  nextRoot := by cases parent <;> simp [grow, insert, link, raise]
  lookup uid := by
    have hinsert := lookup?_insert (s.raise parent) s.slots.size parent path span tag id classes attrs uid
    rw [raise_ids, raise_nextDraw, raise_lookup?] at hinsert
    cases parent with
    | none => exact hinsert
    | some p =>
      rw [grow, link, lookup?, modify_index]
      exact hinsert

theorem placeSpan_ne_capacityExceeded {s : Store} {path : SiblingPath} {above : Option Span} :
    s.placeSpan path above ≠ .error .capacityExceeded := by
  unfold placeSpan
  split
  · simp
  · split <;> simp

theorem nextPlace_ne_capacityExceeded {s : Store} {parent : Option Handle} :
    s.nextPlace parent ≠ .error .capacityExceeded := by
  unfold nextPlace
  split
  · simp
  · split <;> simp

/-- An append of one model is refused before the arena is asked, or the model has a place and a span. -/
theorem appendOne_cases (s : Store) (parent : Option Handle) (tag : String) (id : Option String)
    (classes : List String) (attrs : Attr) :
    (∃ e, e ≠ .capacityExceeded ∧ s.appendOne parent tag id classes attrs = .error (.refused e)) ∨
      ∃ path span, s.isOpen = true ∧ s.nextPlace parent = .ok (path, s.spanOf parent) ∧
        s.placeSpan path (s.spanOf parent) = .ok span := by
  cases hopen : s.isOpen with
  | false =>
    refine Or.inl ⟨.closed, by simp, ?_⟩
    unfold appendOne
    rw [hopen]
    rfl
  | true =>
    cases hplace : s.nextPlace parent with
    | error e =>
      refine Or.inl ⟨e, fun he => nextPlace_ne_capacityExceeded (he ▸ hplace), ?_⟩
      unfold appendOne
      rw [hopen, hplace]
      rfl
    | ok place =>
      obtain ⟨path, above⟩ := place
      obtain ⟨-, -, rfl⟩ := nextPlace_eq_ok hplace
      cases hspan : s.placeSpan path (s.spanOf parent) with
      | error e =>
        refine Or.inl ⟨e, fun he => placeSpan_ne_capacityExceeded (he ▸ hspan), ?_⟩
        unfold appendOne
        rw [hopen, hplace]
        dsimp only
        rw [hspan]
        rfl
      | ok span => exact Or.inr ⟨path, span, rfl, rfl, hspan⟩

theorem isOpen_of_appendOne {s : Store} {parent : Option Handle} {tag : String} {id : Option String}
    {classes : List String} {attrs : Attr} {placed : Handle × Store}
    (happ : s.appendOne parent tag id classes attrs = .ok placed) : s.isOpen = true := by
  rcases appendOne_cases s parent tag id classes attrs with ⟨e, -, hrefused⟩ | ⟨path, span, hopen, -⟩
  · rw [hrefused] at happ
    cases happ
  · exact hopen

theorem full_of_appendOne {s : Store} {parent : Option Handle} {tag : String} {id : Option String}
    {classes : List String} {attrs : Attr}
    (h : s.appendOne parent tag id classes attrs = .error (.refused .capacityExceeded)) :
    UInt32.size ≤ s.slots.size := by
  rcases appendOne_cases s parent tag id classes attrs with
    ⟨e, hother, hrefused⟩ | ⟨path, span, hopen, hplace, hspan⟩
  · rw [hrefused] at h
    cases h
    exact absurd rfl hother
  · rw [appendOne_of_placeSpan hopen hplace hspan] at h
    split at h
    · split at h <;> cases h
    · next hfull => exact Nat.not_lt.1 hfull

/-- Appending one model places it, with the content of its draft. -/
theorem placed_of_appendOne {s s' : Store} {parent : Option Handle} {tag : String} {id : Option String}
    {classes : List String} {attrs : Attr} {h : Handle}
    (happ : s.appendOne parent tag id classes attrs = .ok (h, s')) :
    ∃ m, s.Placed parent m s' ∧ h = s.slots.size ∧ m.tag = tag ∧ m.id = id ∧
      m.classes = .ofList classes ∧ m.attrs = if attrs.isNull then .emptyMap else attrs := by
  rcases appendOne_cases s parent tag id classes attrs with ⟨e, -, hrefused⟩ | ⟨path, span, hopen, hplace, hspan⟩
  · rw [hrefused] at happ
    cases happ
  · rw [appendOne_of_placeSpan hopen hplace hspan] at happ
    obtain ⟨hlive, hpath, -⟩ := nextPlace_eq_ok hplace
    obtain ⟨hspan, hresolved⟩ := placeSpan_eq_ok hspan
    split at happ
    · next hslot =>
      split at happ
      · next hroom =>
        cases happ
        exact ⟨_, placed_grow tag id classes attrs hslot hlive hroom hpath hspan hresolved, rfl, rfl, rfl, rfl,
          rfl⟩
      · cases happ
    · cases happ

end Store

end Grove
