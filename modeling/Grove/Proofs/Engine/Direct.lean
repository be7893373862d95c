import Mathlib.Data.List.Forall2
import Mathlib.Tactic
import Grove.Engine.Basic
import Grove.Proofs.Forest.Chains
/-!
# The engine on a store

The engine hands the matches of each phase back as skeletons, which the store looks up again by their
identifiers. On a store it therefore finds the skeletons of what the store finds on its own, and once a
phase finds nothing, the search is over. Neither of them minds where one leg ends and the next begins.
-/

set_option autoImplicit false

namespace Grove

namespace Engine

section
variable {answering : Answering} {context found : List Skeleton}

def runSteps (answering : Answering) (context : List Skeleton) :
    List (Combinator × Phase) → Except EngineError (List Skeleton)
  | [] => .ok context
  | (combinator, phase) :: rest =>
    match answering ⟨phase, combinator, context⟩ with
    | .error e => .error e
    | .ok found => runTail answering found rest

theorem runTail_nil (steps : List (Combinator × Phase)) : runTail answering [] steps = .ok [] := by
  cases steps <;> rfl

theorem runTail_eq_runSteps (a : Skeleton) (steps : List (Combinator × Phase)) :
    runTail answering (a :: found) steps = runSteps answering (a :: found) steps := by
  cases steps <;> rfl

theorem runTail_append (steps rest : List (Combinator × Phase)) :
    runTail answering found (steps ++ rest) =
      (runTail answering found steps).bind fun next => runTail answering next rest := by
  induction steps generalizing found with
  | nil => rfl
  | cons step steps ih =>
    obtain ⟨combinator, phase⟩ := step
    cases found with
    | nil => simp only [runTail_nil, Except.bind]
    | cons a found =>
      rw [List.cons_append, runTail, runTail]
      cases answering ⟨phase, combinator, a :: found⟩ with
      | error e => rfl
      | ok next => exact ih

theorem runSteps_append {steps : List (Combinator × Phase)} (hsteps : steps ≠ [])
    (rest : List (Combinator × Phase)) : runSteps answering context (steps ++ rest) =
      (runSteps answering context steps).bind fun found => runTail answering found rest := by
  obtain ⟨⟨combinator, phase⟩, steps, rfl⟩ := List.exists_cons_of_ne_nil hsteps
  rw [List.cons_append, runSteps, runSteps]
  cases answering ⟨phase, combinator, context⟩ with
  | error e => rfl
  | ok found => exact runTail_append ..

theorem run_cons (leg : Leg) (legs : List Leg) : run answering ⟨leg :: legs⟩ context =
    (runSteps answering context leg.steps).bind fun found => runLegs answering found legs := by
  have hleg : runLeg answering context leg = runSteps answering context leg.steps := rfl
  rw [← hleg]
  unfold run
  dsimp only
  cases runLeg answering context leg <;> rfl

/-- As long as there are matches, the legs that follow run as a selector of their own. -/
theorem runLegs_eq_run (a : Skeleton) (leg : Leg) (legs : List Leg) :
    runLegs answering (a :: found) (leg :: legs) = run answering ⟨leg :: legs⟩ (a :: found) := rfl

theorem runLegs_eq (legs : List Leg) :
    runLegs answering found legs = runTail answering found (legs.flatMap Leg.steps) := by
  induction legs generalizing found with
  | nil => rfl
  | cons leg legs ih =>
    cases found with
    | nil => rw [runTail_nil]; rfl
    | cons a found =>
      rw [runLegs_eq_run, run_cons, runTail_eq_runSteps, List.flatMap_cons,
        runSteps_append leg.steps_ne_nil]
      simp only [ih]

theorem run_eq_runSteps (selector : Selector) :
    run answering selector context = runSteps answering context selector.steps := by
  obtain ⟨legs⟩ := selector
  cases legs with
  | nil => rfl
  | cons leg legs =>
    rw [run_cons, Selector.steps, List.flatMap_cons, runSteps_append leg.steps_ne_nil]
    simp only [runLegs_eq]

end

end Engine

namespace Store

/-- The skeletons of some handles, all of them live, in the same order. -/
def SkeletonsOf (s : Store) (handles : List Handle) (skeletons : List Skeleton) : Prop :=
  List.Forall₂ (fun h a => s.skeleton? h = some a) handles skeletons

section
variable {s : Store} {handles : List Handle} {skeletons : List Skeleton} {context : List Skeleton}

theorem skeletonsOf_filterMap (hlive : ∀ h ∈ handles, ∃ m, s.get? h = some m) :
    s.SkeletonsOf handles (handles.filterMap s.skeleton?) := by
  induction handles with
  | nil => exact List.Forall₂.nil
  | cons h handles ih =>
    obtain ⟨m, hm⟩ := hlive h (List.mem_cons_self ..)
    have hskeleton := skeleton?_of_get? hm
    rw [List.filterMap_cons_some hskeleton]
    exact List.Forall₂.cons hskeleton (ih fun x hx => hlive x (List.mem_cons_of_mem _ hx))

theorem Consistent.lookup_skeletons (hs : s.Consistent) (h : s.SkeletonsOf handles skeletons) :
    (skeletons.filterMap fun a => s.lookup? a.uid) = handles := by
  induction h with
  | nil => rfl
  | @cons x a handles skeletons hx _ ih =>
    obtain ⟨m, hm, rfl⟩ := Option.map_eq_some_iff.1 hx
    have hlookup : s.lookup? m.skeleton.uid = some x := hs.lookup.2 ⟨m, hm, rfl⟩
    simp only [List.filterMap_cons, hlookup, ih]

theorem Consistent.skeletonsOf_answer (hs : s.Consistent) (request : Request) :
    s.SkeletonsOf (s.matchStep (s.scopeOf request) request.combinator request.phase)
      (s.answer request) :=
  skeletonsOf_filterMap fun _ hh => hs.mem_walk_iff.1 (hs.matchStep_sublist.mem hh)

theorem Consistent.runTail (hs : s.Consistent) {steps : List (Combinator × Phase)}
    (h : s.SkeletonsOf handles skeletons) :
    ∃ found, Engine.runTail (Backend.answer s) skeletons steps = .ok found ∧
      s.SkeletonsOf (s.matchTail handles steps) found := by
  induction steps generalizing handles skeletons with
  | nil => exact ⟨skeletons, rfl, h⟩
  | cons step steps ih =>
    obtain ⟨combinator, phase⟩ := step
    cases h with
    | nil => exact ⟨[], rfl, List.Forall₂.nil⟩
    | @cons x a handles skeletons hx hrest =>
      -- with matches at hand the context is not empty, so the store looks them up
      have hanswer := hs.skeletonsOf_answer ⟨phase, combinator, a :: skeletons⟩
      have hscope : s.scopeOf ⟨phase, combinator, a :: skeletons⟩ = .models (x :: handles) :=
        congrArg Scope.models (hs.lookup_skeletons (List.Forall₂.cons hx hrest))
      rw [hscope] at hanswer
      exact ih hanswer

theorem Consistent.runSteps (hs : s.Consistent) {steps : List (Combinator × Phase)} (hsteps : steps ≠ [])
    {scope : Scope} (hscope : ∀ phase combinator, s.scopeOf ⟨phase, combinator, context⟩ = scope) :
    ∃ found, Engine.runSteps (Backend.answer s) context steps = .ok found ∧
      s.SkeletonsOf (s.matchSteps scope steps) found := by
  obtain ⟨⟨combinator, phase⟩, steps, rfl⟩ := List.exists_cons_of_ne_nil hsteps
  have hanswer := hs.skeletonsOf_answer ⟨phase, combinator, context⟩
  rw [hscope] at hanswer
  exact hs.runTail hanswer

/-- On a store the engine finds the skeletons of what the store finds, in the whole forest without context,
and below the models that it knows of a context. What finds nothing finds nothing with more steps either. -/
theorem engine_select_eq {options : StoreOptions} {ids : IdSource} {paths : List SiblingPath}
    (hrun : (Store.new options ids).Run paths s) {selector : Selector} (hlegs : selector.legs ≠ []) :
    (∃ found, Engine.select s selector [] = .ok found ∧
      s.SkeletonsOf (s.select .forest selector) found) ∧
    (∀ context, context ≠ [] → ∃ found, Engine.select s selector context = .ok found ∧
      s.SkeletonsOf (s.select (.models (context.filterMap fun a => s.lookup? a.uid)) selector) found) ∧
    ∀ context longer more, longer.steps = selector.steps ++ more →
      Engine.select s selector context = .ok [] → Engine.select s longer context = .ok [] := by
  have hs := hrun.consistent_new
  have hsteps := selector.steps_ne_nil hlegs
  simp only [Engine.select, Engine.run_eq_runSteps, select_eq_matchSteps]
  refine ⟨hs.runSteps hsteps fun _ _ => rfl, fun context hcontext => ?_, ?_⟩
  · obtain ⟨a, context, rfl⟩ := List.exists_cons_of_ne_nil hcontext
    exact hs.runSteps hsteps fun _ _ => rfl
  · intro context longer more hlonger hnone
    rw [hlonger, Engine.runSteps_append hsteps, hnone]
    exact Engine.runTail_nil more

end

/-- A context that the store does not know is still a context: nothing lies below it. -/
theorem engine_select_eq_leaning :
    let selector : Selector := ⟨[⟨.any, []⟩, ⟨.any, [(.child, { Phase.any with tag := some "d" })]⟩]⟩
    let stranger : Skeleton := ⟨"elsewhere", "a", .text "00000", .text "10000", []⟩
    (∃ paths, (Store.new ⟨⟨1, 4⟩, 0⟩ .counting).Run paths leaning) ∧ selector.legs ≠ [] ∧
      (∃ found, Engine.select leaning selector [] = .ok found ∧
        leaning.SkeletonsOf (leaning.select .forest selector) found) ∧
      leaning.lookup? stranger.uid = none ∧
      ∃ found, Engine.select leaning selector [stranger] = .ok found ∧
        leaning.SkeletonsOf (leaning.select (.models []) selector) found := by
  intro selector stranger
  obtain ⟨paths, hrun⟩ := run_leaning
  have hlegs : selector.legs ≠ [] := List.cons_ne_nil _ _
  obtain ⟨hforest, hbelow, -⟩ := engine_select_eq hrun hlegs
  have hunknown : leaning.lookup? stranger.uid = none := by
    refine Option.eq_none_iff_forall_ne_some.2 fun h hlook => ?_
    obtain ⟨m, hm, huid⟩ := hrun.consistent_new.lookup.1 hlook
    obtain ⟨n, -, hdraw⟩ := hrun.consistent_new.drawn hm
    rw [huid, hrun.ids_new] at hdraw
    have hletter : "elsewhere".toList.head? = some 'f' := by
      change stranger.uid.toList.head? = _
      rw [hdraw]
      change (String.ofList (IdSource.padded n)).toList.head? = _
      rw [String.toList_ofList]
      rfl
    exact absurd hletter (by decide)
  obtain ⟨found, hfound, hskeletons⟩ := hbelow [stranger] (List.cons_ne_nil _ _)
  simp only [List.filterMap_cons, hunknown, List.filterMap_nil] at hskeletons
  exact ⟨⟨paths, hrun⟩, hlegs, hforest, hunknown, found, hfound, hskeletons⟩

end Store

/-- A selector finds what its legs joined into one find, modifiers and all: a store from any scope, and the engine
from any context, errors included, whatever answers its requests. -/
theorem select_joinAll (leg : Leg) (legs : List Leg) :
    (∀ (s : Store) (scope : Scope), s.select scope ⟨leg :: legs⟩ = s.select scope ⟨[leg.joinAll legs]⟩) ∧
    (∀ (answering : Engine.Answering) (context : List Skeleton),
      Engine.run answering ⟨leg :: legs⟩ context = Engine.run answering ⟨[leg.joinAll legs]⟩ context) ∧
    ∀ (σ : Type) [Backend σ] (backend : σ) (context : List Skeleton),
      Engine.select backend ⟨leg :: legs⟩ context = Engine.select backend ⟨[leg.joinAll legs]⟩ context := by
  have hsteps := Selector.steps_joinAll leg legs
  have hrun (answering : Engine.Answering) (context : List Skeleton) :
      Engine.run answering ⟨leg :: legs⟩ context = Engine.run answering ⟨[leg.joinAll legs]⟩ context := by
    rw [Engine.run_eq_runSteps, Engine.run_eq_runSteps, hsteps]
  refine ⟨fun s scope => ?_, hrun, fun _ _ _ _ => hrun _ _⟩
  rw [Store.select_eq_matchSteps, Store.select_eq_matchSteps, hsteps]

end Grove
