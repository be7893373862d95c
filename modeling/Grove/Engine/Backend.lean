import Grove.Engine.Error
import Grove.Forest.Match
import Grove.Table.Basic
/-!
# Backends

A backend answers one phase at a time with the skeletons of the models that the phase reaches, in
document order, and takes drafts and removals by unique identifier. Two are given: the store, which
follows its links, and the table, which runs compiled queries.
-/

set_option autoImplicit false

namespace Grove

class Backend (σ : Type) where
  name : String
  answer : σ → Request → Except EngineError (List Skeleton)
  /-- Appends drafts below a target, or at the top; the skeletons are those of the topmost models. -/
  append : σ → Option String → List Draft → Except (Failure EngineError) (List Skeleton) × σ
  remove : σ → String → Except EngineError (List String) × σ

namespace Store

/-- Where a request starts. Context models that the store does not know are passed over, and if it
knows none of them, nothing is found. -/
def scopeOf (s : Store) (request : Request) : Scope :=
  if request.context.isEmpty then .forest
  else .models (request.context.filterMap fun skeleton => s.lookup? skeleton.uid)

def answer (s : Store) (request : Request) : List Skeleton :=
  (s.matchStep (s.scopeOf request) request.combinator request.phase).filterMap s.skeleton?

def target? (s : Store) : Option String → Except EngineError (Option Handle)
  | none => .ok none
  | some uid =>
    match s.lookup? uid with
    | some h => .ok (some h)
    | none => .error (.unknownTarget uid)

def appendBelow (s : Store) (target : Option String) (drafts : List Draft) :
    Except (Failure EngineError) (List Skeleton) × Store :=
  match s.target? target with
  | .error e => (.error (.refused e), s)
  | .ok parent =>
    match s.appendAll parent drafts with
    | (.error f, s) => (.error (f.map .store), s)
    | (.ok handles, s) => (.ok (handles.filterMap s.skeleton?), s)

def removeBelow (s : Store) (uid : String) : Except EngineError (List String) × Store :=
  match s.lookup? uid with
  | none => (.error (.unknownTarget uid), s)
  | some h =>
    match s.remove h with
    | (.error e, s) => (.error (.store e), s)
    | (.ok uids, s) => (.ok uids, s)

instance : Backend Store where
  name := "memory"
  answer s request := .ok (s.answer request)
  append := appendBelow
  remove := removeBelow

end Store

namespace Table

def answer (t : Table) (request : Request) : List Skeleton := (t.query request).map Record.skeleton

def owner? (t : Table) : Option String → Except EngineError (Option Owner)
  | none => .ok none
  | some uid =>
    match t.get? uid with
    | some r => .ok (some ⟨r.uid, r.path⟩)
    | none => .error (.unknownTarget uid)

def appendBelow (t : Table) (target : Option String) (drafts : List Draft) :
    Except (Failure EngineError) (List Skeleton) × Table :=
  match t.owner? target with
  | .error e => (.error (.refused e), t)
  | .ok owner => t.appendAll owner drafts

instance : Backend Table where
  name := "nestedset"
  answer t request := .ok (t.answer request)
  append := appendBelow
  remove := remove

end Table

end Grove
