import Grove.Engine.Backend
import Grove.Selector.Reader
/-!
# The engine

Runs selectors against any backend, one phase at a time. What a phase finds is the context of the next
phase, and what a leg finds is the context of the next leg.
-/

set_option autoImplicit false

namespace Grove

/-- An engine has a configuration that passes validation. -/
structure Engine where
  config : Config
  valid : config.validate = .ok ()

namespace Engine

def ofConfig (config : Config) : Except EngineError Engine :=
  match h : config.validate with
  | .error e => .error (.config e)
  | .ok () => .ok ⟨config, h⟩

def newStore (engine : Engine) (ids : IdSource) : Store := .new engine.config.storeOptions ids

def newTable (engine : Engine) (ids : IdSource) : Table := .new engine.config.storeOptions ids

/-- What answers a request: the skeletons found, or an error that ends the search. -/
abbrev Answering := Request → Except EngineError (List Skeleton)

def runTail (answering : Answering) (found : List Skeleton) :
    List (Combinator × Phase) → Except EngineError (List Skeleton)
  | [] => .ok found
  | (combinator, phase) :: rest =>
    if found.isEmpty then .ok found
    else
      match answering ⟨phase, combinator, found⟩ with
      | .error e => .error e
      | .ok next => runTail answering next rest

/-- Runs one leg; its head is searched at any depth below the context. -/
def runLeg (answering : Answering) (context : List Skeleton) (leg : Leg) :
    Except EngineError (List Skeleton) :=
  match answering ⟨leg.head, .descendant, context⟩ with
  | .error e => .error e
  | .ok found => runTail answering found leg.tail

def runLegs (answering : Answering) (found : List Skeleton) :
    List Leg → Except EngineError (List Skeleton)
  | [] => .ok found
  | leg :: rest =>
    if found.isEmpty then .ok found
    else
      match runLeg answering found leg with
      | .error e => .error e
      | .ok next => runLegs answering next rest

/-- Runs a selector below context models, or in the whole forest if there are none. -/
def run (answering : Answering) (selector : Selector) (context : List Skeleton) :
    Except EngineError (List Skeleton) :=
  match selector.legs with
  | [] => .ok context
  | leg :: rest =>
    match runLeg answering context leg with
    | .error e => .error e
    | .ok found => runLegs answering found rest

def select {σ : Type} [Backend σ] (backend : σ) (selector : Selector) (context : List Skeleton) :
    Except EngineError (List Skeleton) :=
  run (Backend.answer backend) selector context

def selectText {σ : Type} [Backend σ] (backend : σ) (text : String) (context : List Skeleton) :
    Except EngineError (List Skeleton) :=
  match Selector.ofString text with
  | .error e => .error (.selector e)
  | .ok selector => select backend selector context

end Engine

end Grove
