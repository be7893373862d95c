import Mathlib.Tactic
import Grove.Proofs.Forest.Matching
/-!
# Chains of matches

A selector without modifiers finds the ends of chains: one live model for each step, each reached from the
one before it. Where one leg ends and the next begins makes no difference to the steps.
-/

set_option autoImplicit false

namespace Grove

namespace Leg

theorem steps_ne_nil (leg : Leg) : leg.steps ≠ [] := List.cons_ne_nil _ _

/-- One leg for two: the head of the second is searched at any depth below what the first finds. -/
def join (leg next : Leg) : Leg := ⟨leg.head, leg.tail ++ (.descendant, next.head) :: next.tail⟩

theorem steps_join (leg next : Leg) : (leg.join next).steps = leg.steps ++ next.steps := rfl

def joinAll (leg : Leg) (legs : List Leg) : Leg := legs.foldl join leg

theorem steps_joinAll (leg : Leg) (legs : List Leg) :
    (leg.joinAll legs).steps = leg.steps ++ legs.flatMap steps := by
  induction legs generalizing leg with
  | nil => rw [List.flatMap_nil, List.append_nil]; rfl
  | cons next legs ih =>
    calc
      ((leg.join next).joinAll legs).steps
        = (leg.join next).steps ++ legs.flatMap steps := ih (leg.join next)
      _ = leg.steps ++ (next :: legs).flatMap steps := by
        rw [steps_join, List.append_assoc, List.flatMap_cons]

end Leg

namespace Selector

def steps (selector : Selector) : List (Combinator × Phase) := selector.legs.flatMap Leg.steps

theorem steps_ne_nil (selector : Selector) (h : selector.legs ≠ []) : selector.steps ≠ [] := by
  obtain ⟨leg, legs, hcons⟩ := List.exists_cons_of_ne_nil h
  rw [steps, hcons, List.flatMap_cons]
  exact List.append_ne_nil_of_left_ne_nil leg.steps_ne_nil _

theorem steps_joinAll (leg : Leg) (legs : List Leg) :
    (⟨[leg.joinAll legs]⟩ : Selector).steps = (⟨leg :: legs⟩ : Selector).steps := by
  rw [steps, List.flatMap_singleton, Leg.steps_joinAll]
  rfl

theorem modifier_steps {selector : Selector} {modifier : Option Modifier}
    (h : ∀ leg ∈ selector.legs, ∀ phase ∈ leg.phases, phase.modifier = modifier) :
    ∀ step ∈ selector.steps, step.2.modifier = modifier := by
  intro step hstep
  obtain ⟨leg, hleg, hstep⟩ := List.mem_flatMap.1 hstep
  refine h leg hleg step.2 ?_
  have hphases : leg.phases = leg.steps.map Prod.snd := rfl
  rw [hphases]
  exact List.mem_map_of_mem hstep

end Selector

namespace Store

section
variable {s : Store} {found : List Handle} {scope : Scope}

def matchSteps (s : Store) (scope : Scope) : List (Combinator × Phase) → List Handle
  | [] => []
  | (combinator, phase) :: rest => s.matchTail (s.matchStep scope combinator phase) rest

theorem matchTail_nil (steps : List (Combinator × Phase)) : s.matchTail [] steps = [] := by
  cases steps <;> rfl

theorem matchTail_append (steps rest : List (Combinator × Phase)) :
    s.matchTail found (steps ++ rest) = s.matchTail (s.matchTail found steps) rest := by
  induction steps generalizing found with
  | nil => rfl
  | cons step steps ih =>
    cases found with
    | nil => simp only [matchTail_nil]
    | cons x found => exact ih

theorem matchLegs_eq (legs : List Leg) :
    s.matchLegs found legs = s.matchTail found (legs.flatMap Leg.steps) := by
  induction legs generalizing found with
  | nil => rfl
  | cons leg legs ih =>
    cases found with
    | nil => rw [matchTail_nil]; rfl
    | cons x found =>
      calc
        s.matchLegs (x :: found) (leg :: legs)
          = s.matchTail (s.matchLeg (.models (x :: found)) leg) (legs.flatMap Leg.steps) := ih
        _ = s.matchTail (s.matchStep (.models (x :: found)) .descendant leg.head)
              (leg.tail ++ legs.flatMap Leg.steps) := (matchTail_append ..).symm
        _ = s.matchTail (x :: found) ((leg :: legs).flatMap Leg.steps) := rfl

theorem select_eq_matchSteps (selector : Selector) :
    s.select scope selector = s.matchSteps scope selector.steps := by
  obtain ⟨legs⟩ := selector
  cases legs with
  | nil => rfl
  | cons leg legs => exact (matchLegs_eq legs).trans (matchTail_append ..).symm

end

/-- One model for each step: it is live and satisfies the phase, and the combinator leads to it from the
model before, or from the scope to the first. -/
def Chain (s : Store) : Scope → List (Combinator × Phase) → List Handle → Prop
  | _, [], [] => True
  | scope, (combinator, phase) :: steps, h :: chain =>
    s.meets phase h = true ∧ s.Leads scope combinator h ∧ Chain s (.models [h]) steps chain
  | _, _, _ => False

section
variable {s : Store} {found : List Handle} {scope : Scope} {h x : Handle} {m : Model}
variable {combinator : Combinator} {phase : Phase} {steps : List (Combinator × Phase)}

theorem leads_models_iff : s.Leads (.models found) combinator h ↔
    ∃ x ∈ found, s.Leads (.models [x]) combinator h := by
  cases combinator <;> simp [Leads]

theorem live_of_meets (hmeets : s.meets phase h = true) : ∃ m, s.get? h = some m := by
  obtain ⟨m, hm, -⟩ := (Option.any_eq_true ..).1 hmeets
  exact ⟨m, hm⟩

theorem Consistent.mem_matchStep_iff (hs : s.Consistent) (hplain : phase.modifier = none) :
    h ∈ s.matchStep scope combinator phase ↔ s.meets phase h = true ∧ s.Leads scope combinator h := by
  rw [hs.matchStep_eq, hplain]
  change h ∈ s.walk.filter _ ↔ _
  rw [List.mem_filter, Bool.and_eq_true_iff, List.contains_iff_mem]
  constructor
  · rintro ⟨-, hcand, hmeets⟩
    obtain ⟨m, hm⟩ := live_of_meets hmeets
    exact ⟨hmeets, (hs.mem_candidates_iff hm).1 hcand⟩
  · rintro ⟨hmeets, hleads⟩
    obtain ⟨m, hm⟩ := live_of_meets hmeets
    exact ⟨hs.mem_walk_iff.2 ⟨m, hm⟩, (hs.mem_candidates_iff hm).2 hleads, hmeets⟩

theorem Consistent.mem_matchTail_iff (hs : s.Consistent) (hplain : ∀ step ∈ steps, step.2.modifier = none) :
    h ∈ s.matchTail found steps ↔
      ∃ x ∈ found, ∃ chain, s.Chain (.models [x]) steps chain ∧ (x :: chain).getLast? = some h := by
  induction steps generalizing found with
  | nil =>
    constructor
    · exact fun hh => ⟨h, hh, [], trivial, rfl⟩
    · rintro ⟨x, hx, chain, hchain, hlast⟩
      cases chain with
      | nil =>
        rw [List.getLast?_singleton] at hlast
        cases hlast
        exact hx
      | cons _ _ => exact hchain.elim
  | cons step steps ih =>
    obtain ⟨combinator, phase⟩ := step
    have hstep := hplain _ (List.mem_cons_self ..)
    have hrest : ∀ step ∈ steps, step.2.modifier = none :=
      fun step hmem => hplain step (List.mem_cons_of_mem _ hmem)
    constructor
    · intro hh
      cases found with
      | nil =>
        rw [matchTail_nil] at hh
        cases hh
      | cons f found =>
        obtain ⟨y, hy, chain, hchain, hlast⟩ := (ih hrest).1 hh
        obtain ⟨hmeets, hleads⟩ := (hs.mem_matchStep_iff hstep).1 hy
        obtain ⟨x, hx, hleads⟩ := leads_models_iff.1 hleads
        exact ⟨x, hx, y :: chain, ⟨hmeets, hleads, hchain⟩, by rwa [List.getLast?_cons_cons]⟩
    · rintro ⟨x, hx, chain, hchain, hlast⟩
      cases chain with
      | nil => exact hchain.elim
      | cons y chain =>
        obtain ⟨hmeets, hleads, hchain⟩ := hchain
        rw [List.getLast?_cons_cons] at hlast
        have hy : y ∈ s.matchStep (.models found) combinator phase :=
          (hs.mem_matchStep_iff hstep).2 ⟨hmeets, leads_models_iff.2 ⟨x, hx, hleads⟩⟩
        cases found with
        | nil => cases hx
        | cons f found => exact (ih hrest).2 ⟨y, hy, chain, hchain, hlast⟩

theorem Consistent.mem_matchSteps_iff (hs : s.Consistent) (hsteps : steps ≠ [])
    (hplain : ∀ step ∈ steps, step.2.modifier = none) :
    h ∈ s.matchSteps scope steps ↔ ∃ chain, s.Chain scope steps chain ∧ chain.getLast? = some h := by
  obtain ⟨⟨combinator, phase⟩, steps, rfl⟩ := List.exists_cons_of_ne_nil hsteps
  have hstep := hplain _ (List.mem_cons_self ..)
  have hrest : ∀ step ∈ steps, step.2.modifier = none :=
    fun step hmem => hplain step (List.mem_cons_of_mem _ hmem)
  refine (hs.mem_matchTail_iff hrest).trans ?_
  simp only [hs.mem_matchStep_iff hstep]
  constructor
  · rintro ⟨x, ⟨hmeets, hleads⟩, chain, hchain, hlast⟩
    exact ⟨x :: chain, ⟨hmeets, hleads, hchain⟩, hlast⟩
  · rintro ⟨chain, hchain, hlast⟩
    cases chain with
    | nil => exact hchain.elim
    | cons x chain => exact ⟨x, ⟨hchain.1, hchain.2.1⟩, chain, hchain.2.2, hlast⟩

theorem Consistent.matchTail_sublist (hs : s.Consistent) (hfound : found.Sublist s.walk) :
    (s.matchTail found steps).Sublist s.walk := by
  induction steps generalizing found with
  | nil => exact hfound
  | cons step steps ih =>
    cases found with
    | nil => exact hfound
    | cons x found => exact ih hs.matchStep_sublist

theorem Consistent.matchSteps_sublist (hs : s.Consistent) :
    (s.matchSteps scope steps).Sublist s.walk := by
  cases steps with
  | nil => exact List.nil_sublist _
  | cons step steps => exact hs.matchTail_sublist hs.matchStep_sublist

/-- A selector without modifiers finds the ends of the chains of its steps, each once and in pre-order. -/
theorem mem_select_iff_chain {options : StoreOptions} {ids : IdSource} {paths : List SiblingPath}
    (hrun : (Store.new options ids).Run paths s) (scope : Scope) {selector : Selector}
    (hlegs : selector.legs ≠ [])
    (hplain : ∀ leg ∈ selector.legs, ∀ phase ∈ leg.phases, phase.modifier = none) :
    (∀ h, h ∈ s.select scope selector ↔
      ∃ chain, s.Chain scope selector.steps chain ∧ chain.getLast? = some h) ∧
    (s.select scope selector).Nodup ∧
    (s.select scope selector).Sublist s.walk ∧
    s.Preorder s.roots s.walk := by
  have hs := hrun.consistent_new
  rw [select_eq_matchSteps]
  exact ⟨fun h => hs.mem_matchSteps_iff (selector.steps_ne_nil hlegs) (Selector.modifier_steps hplain),
    hs.nodup_walk.sublist hs.matchSteps_sublist, hs.matchSteps_sublist, hs.walk_preorder⟩

end

/-- The second leg starts below what the first one found. -/
theorem mem_select_iff_chain_leaning :
    let selector : Selector := ⟨[⟨.any, []⟩, ⟨.any, [(.child, { Phase.any with tag := some "d" })]⟩]⟩
    (∃ paths, (Store.new ⟨⟨1, 4⟩, 0⟩ .counting).Run paths leaning) ∧
      leaning.Chain (.models [4, 0]) selector.steps [1, 2, 3] ∧
      3 ∈ leaning.select (.models [4, 0]) selector ∧ (leaning.select (.models [4, 0]) selector).Nodup := by
  intro selector
  obtain ⟨paths, hrun⟩ := run_leaning
  have hs := hrun.consistent_new
  have hchain : leaning.Chain (.models [4, 0]) selector.steps [1, 2, 3] := by
    refine ⟨by decide +kernel, ?_, by decide +kernel, ?_, by decide +kernel, ?_, trivial⟩
    all_goals
      rw [← hs.leadsTo_iff]
      decide +kernel
  have hplain : ∀ leg ∈ selector.legs, ∀ phase ∈ leg.phases, phase.modifier = none := by
    simp [selector, Leg.phases, Phase.any]
  obtain ⟨hmem, hnodup, -⟩ := mem_select_iff_chain hrun (.models [4, 0]) (List.cons_ne_nil _ _) hplain
  exact ⟨⟨paths, hrun⟩, hchain, (hmem 3).2 ⟨_, hchain, rfl⟩, hnodup⟩

end Store

end Grove
