import Grove.Attr.Path
import Grove.Attr.Wire
/-!
# Drafts

A draft describes a model and everything below it before it is placed in a forest. Its classes may
repeat; they become a set when the model is made.
-/

set_option autoImplicit false

namespace Grove

structure Draft where
  tag : String
  id : Option String
  classes : List String
  attrs : Attr
  children : List Draft

namespace Draft

def ofTag (tag : String) : Draft := ⟨tag, none, [], .emptyMap, []⟩

instance : Inhabited Draft := ⟨ofTag ""⟩

def withId (d : Draft) (id : String) : Draft := { d with id := some id }

def withClass (d : Draft) (name : String) : Draft :=
  if name ∈ d.classes then d else { d with classes := d.classes ++ [name] }

/-- A refused list write leaves the draft as it was. -/
def withAttr (d : Draft) (path : String) (value : Attr) : Draft :=
  { d with attrs := (d.attrs.write path value).2 }

def withChild (d : Draft) (child : Draft) : Draft := { d with children := d.children ++ [child] }

mutual

def size : Draft → Nat
  | ⟨_, _, _, _, children⟩ => 1 + sizeAll children

def sizeAll : List Draft → Nat
  | [] => 0
  | d :: rest => size d + sizeAll rest

end

mutual

def agrees : Draft → Draft → Bool
  | ⟨tag, id, classes, attrs, children⟩, e =>
    tag == e.tag && id == e.id && classes == e.classes && attrs.agrees e.attrs
      && agreeAll children e.children

def agreeAll : List Draft → List Draft → Bool
  | [], [] => true
  | d :: ds, e :: es => agrees d e && agreeAll ds es
  | _, _ => false

end

mutual

def toJson : Draft → Json
  | ⟨tag, id, classes, attrs, children⟩ =>
    .object [("tag", .string tag), ("id", Json.ofOption id), ("class", .array (classes.map .string)),
      ("attrs", attrs.toJson), ("children", .array (toJsonAll children))]

def toJsonAll : List Draft → List Json
  | [] => []
  | d :: rest => toJson d :: toJsonAll rest

end

/-- A draft from a tree that gives its fields, apart from the children. -/
def ofFields? (tree : Json) (children : List Draft) : Option Draft := do
  let fields ← Json.fields? ["tag", "id", "class", "attrs", "children"] tree
  let tag ← fields.withDefault "tag" "" Json.string?
  let id ← fields.withDefault "id" none (Json.option? Json.string?)
  let classes ← fields.withDefault "class" [] (Json.list? Json.string?)
  let attrs ← fields.withDefault "attrs" .emptyMap Attr.ofJson?
  pure ⟨tag, id, classes, attrs, children⟩

mutual

/-- Every field has a default; attributes that are not given are an empty map. -/
def ofJson? : Json → Option Draft
  | .object entries => (childrenOfEntries? entries).bind (ofFields? (.object entries))
  | .array items => (childrenOfItems? 4 items).bind (ofFields? (.array items))
  | _ => none

def listOfJson? : Json → Option (List Draft)
  | .array items => draftsOfItems? items
  | _ => none

def draftsOfItems? : List Json → Option (List Draft)
  | [] => some []
  | item :: rest => do
    let d ← ofJson? item
    let ds ← draftsOfItems? rest
    pure (d :: ds)

def childrenOfEntries? : List (String × Json) → Option (List Draft)
  | [] => some []
  | (key, item) :: rest => if key = "children" then listOfJson? item else childrenOfEntries? rest

/-- The drafts after a number of other fields. -/
def childrenOfItems? : Nat → List Json → Option (List Draft)
  | _, [] => some []
  | 0, item :: _ => listOfJson? item
  | n + 1, _ :: rest => childrenOfItems? n rest

end

end Draft

end Grove
