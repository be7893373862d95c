import Mathlib.Data.List.Forall2
import Mathlib.Tactic
import Grove.Engine.Basic
/-!
# Two ways of answering, phase by phase

If two ways of answering requests keep their results related one by one from each phase to the next, whole
selectors have related results: what is empty for one is empty for the other.
-/

set_option autoImplicit false

namespace Grove

namespace Engine

def BothFind (r : Skeleton → Skeleton → Prop) (a b : Except EngineError (List Skeleton)) : Prop :=
  ∃ found found', a = .ok found ∧ b = .ok found' ∧ List.Forall₂ r found found'

/-- Related contexts have related answers, for the phases of a kind. -/
def InLockstep (r : Skeleton → Skeleton → Prop) (kind : Phase → Prop) (f g : Answering) : Prop :=
  ∀ {phase combinator context context'}, kind phase → List.Forall₂ r context context' →
    BothFind r (f ⟨phase, combinator, context⟩) (g ⟨phase, combinator, context'⟩)

section
variable {r : Skeleton → Skeleton → Prop} {kind : Phase → Prop} {f g : Answering}
variable {context context' : List Skeleton}

theorem isEmpty_eq (h : List.Forall₂ r context context') : context.isEmpty = context'.isEmpty := by
  cases h with
  | nil => rfl
  | cons _ _ => rfl

theorem InLockstep.runTail (h : InLockstep r kind f g) {steps : List (Combinator × Phase)}
    (hkind : ∀ step ∈ steps, kind step.2) (hctx : List.Forall₂ r context context') :
    BothFind r (runTail f context steps) (runTail g context' steps) := by
  induction steps generalizing context context' with
  | nil => exact ⟨context, context', rfl, rfl, hctx⟩
  | cons step rest ih =>
    unfold Engine.runTail
    rw [isEmpty_eq hctx]
    split
    · exact ⟨context, context', rfl, rfl, hctx⟩
    · obtain ⟨found, found', hf, hg, hfound⟩ := h (hkind step (List.mem_cons_self ..)) hctx
      rw [hf, hg]
      exact ih (fun s hs => hkind s (List.mem_cons_of_mem _ hs)) hfound

theorem InLockstep.runLeg (h : InLockstep r kind f g) {leg : Leg} (hkind : ∀ phase ∈ leg.phases, kind phase)
    (hctx : List.Forall₂ r context context') : BothFind r (runLeg f context leg) (runLeg g context' leg) := by
  unfold Engine.runLeg
  obtain ⟨found, found', hf, hg, hfound⟩ := h (hkind leg.head (List.mem_cons_self ..)) hctx
  rw [hf, hg]
  refine h.runTail (fun step hstep => hkind step.2 ?_) hfound
  exact List.mem_cons_of_mem _ (List.mem_map_of_mem hstep)

theorem InLockstep.runLegs (h : InLockstep r kind f g) {legs : List Leg}
    (hkind : ∀ leg ∈ legs, ∀ phase ∈ leg.phases, kind phase) (hctx : List.Forall₂ r context context') :
    BothFind r (runLegs f context legs) (runLegs g context' legs) := by
  induction legs generalizing context context' with
  | nil => exact ⟨context, context', rfl, rfl, hctx⟩
  | cons leg rest ih =>
    unfold Engine.runLegs
    rw [isEmpty_eq hctx]
    split
    · exact ⟨context, context', rfl, rfl, hctx⟩
    · obtain ⟨found, found', hf, hg, hfound⟩ := h.runLeg (hkind leg (List.mem_cons_self ..)) hctx
      rw [hf, hg]
      exact ih (fun l hl => hkind l (List.mem_cons_of_mem _ hl)) hfound

theorem InLockstep.run (h : InLockstep r kind f g) {selector : Selector}
    (hkind : ∀ leg ∈ selector.legs, ∀ phase ∈ leg.phases, kind phase)
    (hctx : List.Forall₂ r context context') : BothFind r (run f selector context) (run g selector context') := by
  unfold Engine.run
  cases hlegs : selector.legs with
  | nil => exact ⟨context, context', rfl, rfl, hctx⟩
  | cons leg rest =>
    rw [hlegs] at hkind
    obtain ⟨found, found', hf, hg, hfound⟩ := h.runLeg (hkind leg (List.mem_cons_self ..)) hctx
    dsimp only
    rw [hf, hg]
    exact h.runLegs (fun l hl => hkind l (List.mem_cons_of_mem _ hl)) hfound

theorem forall_mem_run {good : Skeleton → Prop} {selector : Selector} {found : List Skeleton}
    (hanswer : ∀ request, ∃ answered, f request = .ok answered ∧ ∀ a ∈ answered, good a)
    (hctx : ∀ a ∈ context, good a) (hrun : run f selector context = .ok found) :
    ∀ a ∈ found, good a := by
  have hstep : InLockstep (fun a b => a = b ∧ good a) (fun _ => True) f f := by
    intro phase combinator context context' _ hrel
    have heq : List.Forall₂ Eq context context' := hrel.imp fun _ _ h => h.1
    rw [List.forall₂_eq_eq_eq] at heq
    subst heq
    obtain ⟨answered, hf, hall⟩ := hanswer ⟨phase, combinator, context⟩
    exact ⟨answered, answered, hf, hf, List.forall₂_same.2 fun a ha => ⟨rfl, hall a ha⟩⟩
  have hrel : List.Forall₂ (fun a b => a = b ∧ good a) context context :=
    List.forall₂_same.2 fun a ha => ⟨rfl, hctx a ha⟩
  obtain ⟨found₁, found₂, h₁, h₂, hfound⟩ := hstep.run (fun _ _ _ _ => trivial) hrel
  rw [hrun] at h₁ h₂
  cases h₁
  cases h₂
  intro a ha
  exact (List.forall₂_same.1 hfound a ha).2

end

end Engine

end Grove
