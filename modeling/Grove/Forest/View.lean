import Grove.Forest.Match
import Grove.Selector.Reader
/-!
# Views

An ordered list of handles into one store. A view changes nothing; handles of removed models stay in it
and are passed over by everything that looks at models.
-/

set_option autoImplicit false

namespace Grove

structure View where
  store : Store
  handles : List Handle

namespace View

def ofRoots (s : Store) : View := ⟨s, s.roots⟩

def count (v : View) : Nat := v.handles.length

def isEmpty (v : View) : Bool := v.handles.isEmpty

def derive (v : View) (handles : List Handle) : View := { v with handles := handles }

def get? (v : View) (i : Nat) : Option Model := v.handles[i]?.bind v.store.get?

/-- The view of one place, empty beyond the end. -/
def eq (v : View) (i : Nat) : View := v.derive v.handles[i]?.toList

def first (v : View) : View := v.eq 0

def last (v : View) : View := v.derive v.handles.getLast?.toList

def children (v : View) : View := v.derive (v.handles.flatMap v.store.children)

def descendants (v : View) : View := v.derive (v.handles.flatMap v.store.descendants)

def filter (v : View) (keep : Model → Bool) : View :=
  v.derive (v.handles.filter fun h => (v.store.get? h).any keep)

def models (v : View) : List Model := v.handles.filterMap v.store.get?

def attr? (v : View) (path : String) : Option Attr := (v.get? 0).bind (·.attr? path)

def tag? (v : View) : Option String := (v.get? 0).map Model.tag

def uid? (v : View) : Option String := (v.get? 0).map Model.uid

def is (v : View) (tag : String) : Bool := v.tag? == some tag

def hasClass (v : View) (name : String) : Bool := (v.get? 0).any (·.classes.contains name)

def classNames (v : View) : List String :=
  match v.get? 0 with
  | some m => m.classes.names
  | none => []

def summary (v : View) : List Char :=
  match v.get? 0 with
  | some m => m.summary
  | none => []

def skeletons (v : View) : List Skeleton := v.models.map Model.skeleton

/-- What a selector finds below the models of a view. -/
def select (v : View) (selector : Selector) : View :=
  v.derive (v.store.select (.models v.handles) selector)

def find (v : View) (text : String) : Except SyntaxError View :=
  (Selector.ofString text).map v.select

end View

def Store.view (s : Store) (selector : Selector) : View := ⟨s, s.select .forest selector⟩

def Store.find (s : Store) (text : String) : Except SyntaxError View :=
  (Selector.ofString text).map s.view

end Grove
