import Mathlib.Data.List.Forall2
import Mathlib.Tactic
import Grove.Proofs.Table.ReadParity
/-!
# Selectors on a store and on a table

In the course of the same calls a store and a table hand out skeletons, of what is appended and of what is
found. Below any of them, also below those of models removed since, a selector finds the same in both.
-/

set_option autoImplicit false

namespace Grove

namespace Store

section
variable {s s' : Store} {k : Handle} {call : Call} {a b skeleton : Skeleton}

theorem Remembers.of_steps (hremembers : s.Remembers a) (h : s.Steps k s') : s'.Remembers a := by
  obtain ⟨h₀, m₀, hi, hrest⟩ := hremembers
  exact ⟨h₀, m₀, h.issued hi, hrest⟩

theorem Remembers.of_alike (hremembers : s.Remembers a) (halike : a.Alike b) : s.Remembers b := by
  obtain ⟨h₀, m₀, hi, huid, hleft, hright⟩ := hremembers
  exact ⟨h₀, m₀, hi, halike.uid.symm.trans huid, halike.left.symm.trans hleft,
    halike.right.symm.trans hright⟩

theorem Consistent.remembers_of_skeleton? (hs : s.Consistent) (hids : Function.Injective s.ids.draw) {h : Handle}
    (hskeleton : s.skeleton? h = some skeleton) : s.Remembers skeleton := by
  unfold skeleton? at hskeleton
  obtain ⟨m, hm, rfl⟩ := Option.map_eq_some_iff.1 hskeleton
  exact hs.remembers hids hm

theorem Consistent.remembers_appended {skeletons : List Skeleton}
    (hs : (Backend.perform s call).2.Consistent) (hids : Function.Injective (Backend.perform s call).2.ids.draw)
    (hreply : (Backend.perform s call).1 = .ok (.appended skeletons)) (hmem : skeleton ∈ skeletons) :
    (Backend.perform s call).2.Remembers skeleton := by
  cases call with
  | append target drafts =>
    change (s.appendBelow target drafts).2.Consistent at hs
    change Function.Injective (s.appendBelow target drafts).2.ids.draw at hids
    change (s.appendBelow target drafts).1.map _ = _ at hreply
    change (s.appendBelow target drafts).2.Remembers skeleton
    unfold appendBelow at hs hids hreply ⊢
    cases htarget : s.target? target with
    | error e =>
      rw [htarget] at hreply
      cases hreply
    | ok parent =>
      rw [htarget] at hs hids hreply
      dsimp only at hs hids hreply ⊢
      generalize s.appendAll parent drafts = outcome at *
      obtain ⟨result, s'⟩ := outcome
      cases result with
      | error e => cases hreply
      | ok handles =>
        cases hreply
        obtain ⟨h, -, hskeleton⟩ := List.mem_filterMap.1 hmem
        exact hs.remembers_of_skeleton? hids hskeleton
  | remove uid =>
    change ((s.removeBelow uid).1.mapError _).map _ = _ at hreply
    cases hresult : (s.removeBelow uid).1 <;> rw [hresult] at hreply <;> cases hreply

theorem Consistent.remembers_answer (hs : s.Consistent) (hids : Function.Injective s.ids.draw) {request : Request}
    (hmem : skeleton ∈ s.answer request) : s.Remembers skeleton := by
  obtain ⟨h, -, hskeleton⟩ := List.mem_filterMap.1 hmem
  exact hs.remembers_of_skeleton? hids hskeleton

end

end Store

namespace Mirrors

section
variable {s : Store} {t : Table} {skeleton : Skeleton}

theorem remembers_answer (hm : Mirrors s t) (hids : Function.Injective s.ids.draw) {request : Request} (hmem : skeleton ∈ t.answer request) :
    s.Remembers skeleton := by
  unfold Table.answer Table.query at hmem
  dsimp only at hmem
  obtain ⟨r, hr, rfl⟩ := List.mem_map.1 hmem
  have hfound := (Modifier.applyTo_sublist _ _).mem hr
  rw [List.mem_mergeSort, List.mem_filter] at hfound
  obtain ⟨h, -, m, hget, hrec⟩ := hm.exists_handle hfound.1
  exact (hm.consistent.remembers hids hget).of_alike hrec.alike

theorem select (hm : Mirrors s t) (hids : Function.Injective s.ids.draw) {selector : Selector} (hselector : selector.Portable)
    {context context' : List Skeleton} (hctx : List.Forall₂ s.Shares context context') :
    Engine.BothFind Skeleton.Alike (Engine.select s selector context)
      (Engine.select t selector context') := by
  obtain ⟨found, found', hf, hg, hfound⟩ := Engine.InLockstep.run (hm.inLockstep hids) hselector hctx
  exact ⟨found, found', hf, hg, hfound.imp fun _ _ h => h.2⟩

end

end Mirrors

/-- A skeleton that a store or a table has handed out in the course of some calls, or between them: in a
reply, or as found by any selector below skeletons handed out before. -/
inductive HandedOut (options : StoreOptions) (ids : IdSource) : List Call → Skeleton → Prop
  | appended {calls : List Call} {call : Call} {skeletons : List Skeleton} {skeleton : Skeleton} :
      (Backend.perform (Backend.afterCalls (Store.new options ids) calls) call).1 =
          .ok (.appended skeletons) ∨
        (Backend.perform (Backend.afterCalls (Table.new options ids) calls) call).1 =
          .ok (.appended skeletons) →
      skeleton ∈ skeletons → HandedOut options ids (calls ++ [call]) skeleton
  | found {calls : List Call} {selector : Selector} {context skeletons : List Skeleton}
      {skeleton : Skeleton} :
      (∀ a ∈ context, HandedOut options ids calls a) →
      Engine.select (Backend.afterCalls (Store.new options ids) calls) selector context = .ok skeletons ∨
        Engine.select (Backend.afterCalls (Table.new options ids) calls) selector context =
          .ok skeletons →
      skeleton ∈ skeletons → HandedOut options ids calls skeleton
  | before {calls : List Call} {call : Call} {skeleton : Skeleton} :
      HandedOut options ids calls skeleton → HandedOut options ids (calls ++ [call]) skeleton

section
variable {options : StoreOptions} {ids : IdSource} {calls : List Call} {skeleton : Skeleton}

theorem injective_afterCalls (options : StoreOptions) (hids : Function.Injective ids.draw) (calls : List Call) :
    Function.Injective (Backend.afterCalls (Store.new options ids) calls).ids.draw := by
  rw [(Store.afterCalls_steps (Store.consistent_new options ids) calls).ids]
  exact hids

theorem HandedOut.remembers (h : HandedOut options ids calls skeleton) (hfirst : 1 ≤ options.firstChildIndex)
    (hids : Function.Injective ids.draw) (hserves : (Store.new options ids).Serves calls) :
    (Backend.afterCalls (Store.new options ids) calls).Remembers skeleton := by
  have hinjective := injective_afterCalls options hids
  induction h with
  | @appended calls call skeletons skeleton hreply hmem =>
    obtain ⟨hcalls, hcall⟩ := Store.serves_concat hserves
    have hids' := hinjective (calls ++ [call])
    rw [Backend.afterCalls_append] at hids' ⊢
    have hm := (mirrors_new hfirst ids).afterCalls hcalls
    obtain ⟨hm', hagree⟩ := (hm.perform call).resolve_left hcall
    rcases hreply with hreply | hreply
    · exact hm'.consistent.remembers_appended hids' hreply hmem
    · -- the store gave a skeleton like it
      rw [hreply] at hagree
      generalize hstore : (Backend.perform (Backend.afterCalls (Store.new options ids) calls) call).1 =
        reply at hagree
      cases hagree with
      | appended hall =>
        obtain ⟨a, ha, halike⟩ := exists_mem_of_forall₂ hall hmem
        exact (hm'.consistent.remembers_appended hids' hstore ha).of_alike halike
  | @found calls selector context skeletons skeleton _ hfound hmem ih =>
    have hm := (mirrors_new hfirst ids).afterCalls hserves
    have hctx : ∀ a ∈ context, (Backend.afterCalls (Store.new options ids) calls).Remembers a :=
      fun a ha => ih a ha hserves
    rcases hfound with hfound | hfound
    · refine Engine.forall_mem_run (fun request => ⟨_, rfl, ?_⟩) hctx hfound skeleton hmem
      exact fun a ha => hm.consistent.remembers_answer (hinjective calls) ha
    · refine Engine.forall_mem_run (fun request => ⟨_, rfl, ?_⟩) hctx hfound skeleton hmem
      exact fun a ha => hm.remembers_answer (hinjective calls) ha
  | @before calls call skeleton _ ih =>
    obtain ⟨hcalls, -⟩ := Store.serves_concat hserves
    have hm := (mirrors_new hfirst ids).afterCalls hcalls
    rw [Backend.afterCalls_append]
    exact (ih hcalls).of_steps (Store.perform_steps hm.consistent call)

end

end Grove
