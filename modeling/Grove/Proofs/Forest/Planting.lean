import Mathlib.Tactic
import Grove.Proofs.Forest.Ledger
import Grove.Proofs.Forest.Rollback
import Grove.Proofs.Selector.Acceptance
/-!
# What an append leaves

A successful append fills as many new slots as the draft has models. From the last child of the parent down they
have the shape and the contents of the draft, and each of them counts its children up from the first index. Of the
models that were there before, only the parent changes: it has one more child, and its counter goes on by one.
-/

set_option autoImplicit false

namespace Grove

theorem ClassSet.names_ofList (names : List String) : (ofList names).names = names.eraseDups := by
  induction names using List.reverseRecOn with
  | nil => rfl
  | append_singleton names name ih =>
    have hstep : ofList (names ++ [name]) = (ofList names).insert name := by
      unfold ofList
      rw [List.foldl_append, List.foldl_cons, List.foldl_nil]
    rw [hstep, names_insert, ih, Selector.eraseDups_concat]
    simp only [List.mem_eraseDups]

namespace Draft

mutual

/-- A draft and all those below it, each before its children. -/
def inOrder : Draft → List Draft
  | ⟨tag, id, classes, attrs, children⟩ => ⟨tag, id, classes, attrs, children⟩ :: inOrderAll children

def inOrderAll : List Draft → List Draft
  | [] => []
  | d :: rest => inOrder d ++ inOrderAll rest

end

end Draft

namespace Model

/-- The content is that of a draft: classes at their first places, and a map where the attributes are null. -/
structure Fulfils (m : Model) (d : Draft) : Prop where
  tag : m.tag = d.tag
  id : m.id = d.id
  classes : m.classes.names = d.classes.eraseDups
  attrs : m.attrs = if d.attrs.isNull then .emptyMap else d.attrs

theorem SameContent.fulfils {m m' : Model} {d : Draft} (h : m.SameContent m') (hm : m.Fulfils d) :
    m'.Fulfils d where
  tag := h.tag.trans hm.tag
  id := h.id.trans hm.id
  classes := by rw [h.classes, hm.classes]
  attrs := h.attrs.trans hm.attrs

def adoptAll (m : Model) (handles : List Handle) : Model := handles.foldl adopt m

theorem children_adoptAll (m : Model) (handles : List Handle) :
    (m.adoptAll handles).children = m.children ++ handles := by
  induction handles generalizing m with
  | nil => exact (List.append_nil _).symm
  | cons h rest ih =>
    change ((m.adopt h).adoptAll rest).children = m.children ++ h :: rest
    rw [ih, adopt, List.append_assoc]
    rfl

theorem sameContent_adoptAll (m : Model) (handles : List Handle) : m.SameContent (m.adoptAll handles) := by
  induction handles generalizing m with
  | nil => exact SameContent.refl m
  | cons h rest ih => exact (sameContent_adopt m h).trans (ih (m.adopt h))

end Model

namespace Store

mutual

/-- The model at a handle, with all that lies below it, is like a draft. -/
def Mirrors (s : Store) (parent : Option Handle) (path : List UInt64) (h : Handle) : Draft → Prop
  | ⟨tag, id, classes, attrs, children⟩ =>
    ∃ m, s.get? h = some m ∧ m.Fulfils ⟨tag, id, classes, attrs, children⟩ ∧ m.parent = parent ∧
      m.path.indices = path ∧
      MirrorAll s (some h) path s.options.firstChildIndex m.nextChild m.children children

/-- The models at some handles are like some drafts in turn. They are children of one parent, with the sibling
indices from one number up to, but not including, another, which is never past the largest word. -/
def MirrorAll (s : Store) (parent : Option Handle) (path : List UInt64) (i next : UInt64)
    (handles : List Handle) : List Draft → Prop
  | [] => handles = [] ∧ i = next
  | d :: rest => ∃ h after, handles = h :: after ∧ i.toNat + 1 < UInt64.size ∧
      Mirrors s parent (path ++ [i]) h d ∧ MirrorAll s parent path (i + 1) next after rest

end

section
variable {s s' : Store} {parent : Option Handle} {path : List UInt64} {h x : Handle} {i next : UInt64}
  {handles below order : List Handle}

mutual

theorem Mirrors.congr {parent : Option Handle} {path : List UInt64} {h : Handle} {below : List Handle} {d : Draft}
    (hd : s.Mirrors parent path h d) (hbelow : s.Preorder (s.children h) below)
    (hoptions : s'.options = s.options) (hsame : ∀ x ∈ h :: below, s'.get? x = s.get? x) :
    s'.Mirrors parent path h d := by
  obtain ⟨tag, id, classes, attrs, children⟩ := d
  unfold Mirrors at hd ⊢
  obtain ⟨m, hm, hfulfils, hparent, hpath, hchildren⟩ := hd
  rw [children_of_get? hm] at hbelow
  refine ⟨m, (hsame h (List.mem_cons_self ..)).trans hm, hfulfils, hparent, hpath, ?_⟩
  rw [hoptions]
  exact hchildren.congr hbelow hoptions fun x hx => hsame x (List.mem_cons_of_mem _ hx)

theorem MirrorAll.congr {parent : Option Handle} {path : List UInt64} {i next : UInt64}
    {handles order : List Handle} {drafts : List Draft} (hall : s.MirrorAll parent path i next handles drafts)
    (horder : s.Preorder handles order) (hoptions : s'.options = s.options)
    (hsame : ∀ x ∈ order, s'.get? x = s.get? x) : s'.MirrorAll parent path i next handles drafts := by
  cases drafts with
  | nil =>
    unfold MirrorAll at hall ⊢
    exact hall
  | cons d rest =>
    unfold MirrorAll at hall ⊢
    obtain ⟨h, after, rfl, hi, hd, hrest⟩ := hall
    cases horder with
    | cons hbelow hafter =>
      refine ⟨h, after, rfl, hi, hd.congr hbelow hoptions fun x hx => hsame x ?_,
        hrest.congr hafter hoptions fun x hx => hsame x ?_⟩
      · rw [← List.cons_append]
        exact List.mem_append_left _ hx
      · exact List.mem_cons_of_mem _ (List.mem_append_right _ hx)

end

mutual

theorem Mirrors.forall₂ {parent : Option Handle} {path : List UInt64} {h : Handle} {below : List Handle} {d : Draft}
    (hd : s.Mirrors parent path h d) (hbelow : s.Preorder (s.children h) below) :
    List.Forall₂ (fun x e => ∃ parent path, s.Mirrors parent path x e) (h :: below) d.inOrder := by
  obtain ⟨tag, id, classes, attrs, children⟩ := d
  have hself := hd
  unfold Mirrors at hd
  unfold Draft.inOrder
  obtain ⟨m, hm, -, -, -, hchildren⟩ := hd
  rw [children_of_get? hm] at hbelow
  exact List.Forall₂.cons ⟨parent, path, hself⟩ (hchildren.forall₂ hbelow)

theorem MirrorAll.forall₂ {parent : Option Handle} {path : List UInt64} {i next : UInt64}
    {handles order : List Handle} {drafts : List Draft} (hall : s.MirrorAll parent path i next handles drafts)
    (horder : s.Preorder handles order) :
    List.Forall₂ (fun x e => ∃ parent path, s.Mirrors parent path x e) order (Draft.inOrderAll drafts) := by
  cases drafts with
  | nil =>
    unfold MirrorAll at hall
    obtain ⟨rfl, -⟩ := hall
    cases horder
    exact List.Forall₂.nil
  | cons d rest =>
    unfold MirrorAll at hall
    unfold Draft.inOrderAll
    obtain ⟨h, after, rfl, -, hd, hrest⟩ := hall
    cases horder with
    | cons hbelow hafter =>
      rw [← List.cons_append]
      exact List.rel_append (hd.forall₂ hbelow) (hrest.forall₂ hafter)

end

theorem Mirrors.exists_get? {d : Draft} (hd : s.Mirrors parent path h d) :
    ∃ m, s.get? h = some m ∧ m.path.indices = path := by
  obtain ⟨tag, id, classes, attrs, children⟩ := d
  unfold Mirrors at hd
  obtain ⟨m, hm, -, -, hpath, -⟩ := hd
  exact ⟨m, hm, hpath⟩

theorem MirrorAll.getElem? {drafts : List Draft} {k : Nat}
    (hall : s.MirrorAll parent path i next handles drafts) (hk : handles[k]? = some x) :
    ∃ e j, drafts[k]? = some e ∧ j.toNat = i.toNat + k ∧ s.Mirrors parent (path ++ [j]) x e := by
  induction drafts generalizing i handles k with
  | nil =>
    unfold MirrorAll at hall
    obtain ⟨rfl, -⟩ := hall
    cases hk
  | cons d rest ih =>
    unfold MirrorAll at hall
    obtain ⟨h, after, rfl, hi, hd, hrest⟩ := hall
    cases k with
    | zero =>
      obtain rfl := Option.some.inj hk
      exact ⟨d, i, rfl, rfl, hd⟩
    | succ k =>
      obtain ⟨e, j, hk', hj, he⟩ := ih hrest hk
      rw [UInt64.toNat_add, UInt64.toNat_one, Nat.mod_eq_of_lt hi] at hj
      exact ⟨e, j, hk', by omega, he⟩

end

theorem preorder_singleton {s : Store} {h : Handle} {order : List Handle} (horder : s.Preorder [h] order) :
    ∃ below, s.Preorder (s.children h) below ∧ order = h :: below := by
  cases horder with
  | cons hbelow hafter =>
    cases hafter
    exact ⟨_, hbelow, by rw [List.append_nil]⟩

/-- Drafts have become the last children of a parent, or the last roots, in new slots. -/
structure Planted (s : Store) (parent : Option Handle) (handles : List Handle) (drafts : List Draft)
    (s' : Store) : Prop where
  options : s'.options = s.options
  isOpen : s'.isOpen = s.isOpen
  ids : s'.ids = s.ids
  size : s'.slots.size = s.slots.size + Draft.sizeAll drafts
  before : ∀ x < s.slots.size, s'.get? x =
    if parent = some x then (s.get? x).map (Model.adoptAll · handles) else s.get? x
  roots : s'.roots = if parent = none then s.roots ++ handles else s.roots
  nextRoot : parent ≠ none → s'.nextRoot = s.nextRoot
  mirrors : s'.MirrorAll parent (s.pathTo parent) (s.nextIndex parent) (s'.nextIndex parent) handles drafts
  order : s'.Preorder handles (List.range' s.slots.size (Draft.sizeAll drafts))

section
variable {s s' s₁ : Store} {parent par : Option Handle} {h x : Handle} {m : Model} {handles : List Handle}
  {d : Draft} {drafts : List Draft}

theorem Placed.isLive (hp : s.Placed parent m s') (hlive : s.IsLive par) : s'.IsLive par := by
  cases par with
  | none => trivial
  | some x =>
    obtain ⟨m₀, hm₀⟩ := hlive
    exact ⟨_, hp.get?_of_get? hm₀⟩

theorem planted_nil (s : Store) (parent : Option Handle) : s.Planted parent [] [] s where
  options := rfl
  isOpen := rfl
  ids := rfl
  size := by simp [Draft.sizeAll]
  before x _ := by
    split
    · cases s.get? x <;> rfl
    · rfl
  roots := by simp
  nextRoot _ := rfl
  mirrors := by
    unfold MirrorAll
    exact ⟨rfl, rfl⟩
  order := by
    unfold Draft.sizeAll
    exact Preorder.nil

theorem IsLive.lt_size (hlive : s.IsLive (some x)) : x < s.slots.size := by
  obtain ⟨m, hm⟩ := hlive
  exact lt_size_of_get? hm

namespace Planted

theorem size_one (hp : s.Planted parent [h] [d] s') : s'.slots.size = s.slots.size + d.size := by
  rw [hp.size, Draft.sizeAll, Draft.sizeAll, Nat.add_zero]

theorem mirrors_one (hp : s.Planted parent [h] [d] s') :
    s.HasRoom parent ∧ s'.Mirrors parent (s.pathTo parent ++ [s.nextIndex parent]) h d ∧
      s'.nextIndex parent = s.nextIndex parent + 1 := by
  have hmirrors := hp.mirrors
  unfold MirrorAll at hmirrors
  obtain ⟨_, _, heq, hroom, hd, hnext⟩ := hmirrors
  obtain ⟨rfl, rfl⟩ := List.cons.inj heq
  unfold MirrorAll at hnext
  exact ⟨hroom, hd, hnext.2.symm⟩

theorem order_one (hp : s.Planted parent [h] [d] s') :
    ∃ below, s'.Preorder (s'.children h) below ∧ List.range' s.slots.size d.size = h :: below := by
  have horder := hp.order
  rw [Draft.sizeAll, Draft.sizeAll, Nat.add_zero] at horder
  exact preorder_singleton horder

theorem exists_get? (hp : s.Planted parent handles drafts s') (hm : s.get? x = some m) :
    ∃ m', s'.get? x = some m' ∧ m.SameContent m' ∧ (parent ≠ some x → m' = m) := by
  rw [hp.before x (lt_size_of_get? hm), hm]
  split
  · next h => exact ⟨_, rfl, Model.sameContent_adoptAll .., fun hne => absurd h hne⟩
  · exact ⟨m, rfl, Model.SameContent.refl m, fun _ => rfl⟩

theorem isLive (hp : s.Planted parent handles drafts s') (hlive : s.IsLive par) : s'.IsLive par := by
  cases par with
  | none => trivial
  | some x =>
    obtain ⟨m, hm⟩ := hlive
    obtain ⟨m', hm', -⟩ := hp.exists_get? hm
    exact ⟨m', hm'⟩

theorem pathTo (hp : s.Planted parent handles drafts s') (hlive : s.IsLive par) :
    s'.pathTo par = s.pathTo par := by
  cases par with
  | none => rfl
  | some x =>
    obtain ⟨m, hm⟩ := hlive
    obtain ⟨m', hm', hsame, -⟩ := hp.exists_get? hm
    rw [pathTo_of_get? hm', pathTo_of_get? hm, hsame.path]

theorem nextIndex_of_ne (hp : s.Planted parent handles drafts s') (hlive : s.IsLive par) (hne : parent ≠ par) :
    s'.nextIndex par = s.nextIndex par := by
  cases par with
  | none => exact hp.nextRoot hne
  | some x =>
    obtain ⟨m, hm⟩ := hlive
    obtain ⟨m', hm', -, heq⟩ := hp.exists_get? hm
    rw [nextIndex_of_get? hm', nextIndex_of_get? hm, heq hne]

theorem cons {rest : List Draft} (hp : s.Planted parent [h] [d] s₁) (hlive : s.IsLive parent)
    (hrest : s₁.Planted parent handles rest s') : s.Planted parent (h :: handles) (d :: rest) s' := by
  have hsize₁ := hp.size_one
  obtain ⟨hroom, hd, hnext⟩ := hp.mirrors_one
  obtain ⟨below, hbelow, hrange⟩ := hp.order_one
  have hsame : ∀ x ∈ h :: below, s'.get? x = s₁.get? x := by
    intro x hx
    rw [← hrange] at hx
    obtain ⟨hle, hlt⟩ := List.mem_range'_1.1 hx
    rw [hrest.before x (hsize₁ ▸ hlt), if_neg]
    rintro rfl
    exact absurd hlive.lt_size (Nat.not_lt.2 hle)
  have hchildren : ∀ x ∈ h :: below, s'.children x = s₁.children x := fun x hx => by
    unfold children
    rw [hsame x hx]
  exact
    { options := hrest.options.trans hp.options
      isOpen := hrest.isOpen.trans hp.isOpen
      ids := hrest.ids.trans hp.ids
      size := by rw [hrest.size, hsize₁, Draft.sizeAll, Nat.add_assoc]
      before := fun x hx => by
        rw [hrest.before x (hx.trans_le (hsize₁ ▸ Nat.le_add_right ..)), hp.before x hx]
        split
        · rw [Option.map_map]
          rfl
        · rfl
      roots := by
        rw [hrest.roots, hp.roots]
        split
        · rw [List.append_assoc, List.singleton_append]
        · rfl
      nextRoot := fun hne => (hrest.nextRoot hne).trans (hp.nextRoot hne)
      mirrors := by
        unfold MirrorAll
        refine ⟨h, handles, rfl, hroom, hd.congr hbelow hrest.options hsame, ?_⟩
        rw [← hnext, ← hp.pathTo hlive]
        exact hrest.mirrors
      order := by
        rw [Draft.sizeAll, ← List.range'_append_1, hrange, List.cons_append, ← hsize₁]
        refine Preorder.cons ?_ hrest.order
        rw [hchildren h (List.mem_cons_self ..)]
        exact hbelow.congr fun x hx => hchildren x (List.mem_cons_of_mem _ hx) }

end Planted

theorem Placed.planted (hp : s.Placed parent m s₁) (hm : m.Fulfils d)
    (hchildren : s₁.Planted (some s.slots.size) handles d.children s') :
    s.Planted parent [s.slots.size] [d] s' := by
  obtain ⟨tag, id, classes, attrs, children⟩ := d
  dsimp only at hchildren
  have hlt : s.slots.size < s₁.slots.size := hp.size ▸ Nat.lt_succ_self _
  have hget : s'.get? s.slots.size = some (m.adoptAll handles) := by
    rw [hchildren.before _ hlt, if_pos rfl, hp.get?_size]
    rfl
  have hsame := m.sameContent_adoptAll handles
  have hchildren' : s'.children s.slots.size = handles := by
    rw [children_of_get? hget, Model.children_adoptAll, hp.childless, List.nil_append]
  exact
    { options := hchildren.options.trans hp.options
      isOpen := hchildren.isOpen.trans hp.isOpen
      ids := hchildren.ids.trans hp.ids
      size := by
        rw [hchildren.size, hp.size]
        simp only [Draft.sizeAll, Draft.size]
        omega
      before := fun x hx => by
        rw [hchildren.before x (hx.trans hlt), if_neg fun h => hx.ne (Option.some.inj h).symm, hp.get?_eq,
          if_neg hx.ne]
        rfl
      roots := by rw [hchildren.roots, if_neg (Option.some_ne_none _), hp.roots]
      nextRoot := fun hne => by rw [hchildren.nextRoot (Option.some_ne_none _), hp.nextRoot, if_neg hne]
      mirrors := by
        unfold MirrorAll
        refine ⟨_, _, rfl, hp.room, ?_, ?_⟩
        · unfold Mirrors
          refine ⟨_, hget, hsame.fulfils hm, hsame.parent.trans hp.parent_eq, ?_, ?_⟩
          · rw [hsame.path, hp.path]
          · have hmirrors := hchildren.mirrors
            rw [pathTo_of_get? hp.get?_size, hp.path, nextIndex_of_get? hp.get?_size, hp.nextChild,
              nextIndex_of_get? hget] at hmirrors
            rw [Model.children_adoptAll, hp.childless, hchildren.options, hp.options]
            exact hmirrors
        · unfold MirrorAll
          refine ⟨rfl, ?_⟩
          have hne : some s.slots.size ≠ parent := fun h => (hp.live_lt h.symm).ne rfl
          rw [hchildren.nextIndex_of_ne (hp.isLive hp.live) hne, hp.nextIndex hp.live, if_pos rfl]
      order := by
        have hbelow := hchildren.order
        rw [hp.size] at hbelow
        rw [Draft.sizeAll, Draft.sizeAll, Nat.add_zero, Draft.size, Nat.add_comm 1, List.range'_succ,
          ← List.append_nil (List.range' ..)]
        exact Preorder.cons (hchildren' ▸ hbelow) Preorder.nil }

theorem append_eq_ok (happ : s.append parent d = (.ok h, s')) :
    ∃ s₁, s.appendOne parent d.tag d.id d.classes d.attrs = .ok (h, s₁) ∧
      s₁.appendChildren h d.children = (.ok (), s') := by
  obtain ⟨tag, id, classes, attrs, children⟩ := d
  unfold append at happ
  split at happ
  · cases happ
  · next x s₁ hone =>
    split at happ
    · next s₂ hchildren =>
      cases happ
      exact ⟨s₁, hone, hchildren⟩
    · cases happ
    · split at happ
      · cases happ
      · cases happ

theorem appendChildren_cons_eq_ok {rest : List Draft}
    (happ : s.appendChildren h (d :: rest) = (.ok (), s')) :
    ∃ c s₁, s.append (some h) d = (.ok c, s₁) ∧ s₁.appendChildren h rest = (.ok (), s') := by
  unfold appendChildren at happ
  split at happ
  · next c s₁ hd => exact ⟨c, s₁, hd, happ⟩
  · cases happ

end

mutual

/-- A draft whose append succeeds has been planted, from the next slot on. -/
theorem planted_append {s s' : Store} {parent : Option Handle} {h : Handle} (d : Draft)
    (happ : s.append parent d = (.ok h, s')) :
    h = s.slots.size ∧ s.IsLive parent ∧ s.Planted parent [h] [d] s' := by
  obtain ⟨s₁, hone, hchildren⟩ := append_eq_ok happ
  obtain ⟨tag, id, classes, attrs, children⟩ := d
  obtain ⟨m, hp, rfl, htag, hid, hclasses, hattrs⟩ := placed_of_appendOne hone
  have hm : m.Fulfils ⟨tag, id, classes, attrs, children⟩ :=
    ⟨htag, hid, by rw [hclasses, ClassSet.names_ofList], hattrs⟩
  obtain ⟨handles, hplanted⟩ := planted_appendChildren children ⟨m, hp.get?_size⟩ hchildren
  exact ⟨rfl, hp.live, hp.planted hm hplanted⟩

theorem planted_appendChildren {s s' : Store} {h : Handle} (drafts : List Draft) (hlive : s.IsLive (some h))
    (happ : s.appendChildren h drafts = (.ok (), s')) : ∃ handles, s.Planted (some h) handles drafts s' := by
  cases drafts with
  | nil =>
    unfold appendChildren at happ
    cases happ
    exact ⟨[], planted_nil s (some h)⟩
  | cons d rest =>
    obtain ⟨c, s₁, hd, hrest⟩ := appendChildren_cons_eq_ok happ
    obtain ⟨-, -, hfirst⟩ := planted_append d hd
    obtain ⟨handles, hplanted⟩ := planted_appendChildren rest (hfirst.isLive hlive) hrest
    exact ⟨c :: handles, hfirst.cons hlive hplanted⟩

end

/-- The children of a model have the sibling indices from the first one on, without a gap. -/
def Gapless (s : Store) (m : Model) : Prop :=
  ∀ k c, m.children[k]? = some c →
    ∃ mc, s.get? c = some mc ∧ mc.index.toNat = s.options.firstChildIndex.toNat + k

/-- Besides what lies at and below a new model, at most its parent has changed. The model is its last child, and
its counter has gone on by one. -/
structure Adopted (s : Store) (parent : Option Handle) (h : Handle) (s' : Store) : Prop where
  options : s'.options = s.options
  isOpen : s'.isOpen = s.isOpen
  ids : s'.ids = s.ids
  roots : s'.roots = if parent = none then s.roots ++ [h] else s.roots
  nextRoot : s'.nextRoot = if parent = none then s.nextRoot + 1 else s.nextRoot
  get?_eq : ∀ x, x ∉ h :: s'.descendants h →
    s'.get? x = if parent = some x then (s.get? x).map (Model.adopt · h) else s.get? x

section
variable {s s' : Store} {parent : Option Handle} {path : List UInt64} {h x : Handle} {d : Draft}
  {handles order order' : List Handle} {drafts : List Draft}

theorem Preorder.unique (h : s.Preorder handles order) (h' : s.Preorder handles order') : order = order' := by
  have hdrains := h.drains Drains.done
  have hdrains' := h'.drains Drains.done
  rw [List.append_nil, List.append_nil] at hdrains hdrains'
  exact hdrains.unique hdrains'

theorem Mirrors.gapless (hd : s.Mirrors parent path x d) : ∃ m, s.get? x = some m ∧ s.Gapless m := by
  obtain ⟨tag, id, classes, attrs, children⟩ := d
  unfold Mirrors at hd
  obtain ⟨m, hm, -, -, -, hchildren⟩ := hd
  refine ⟨m, hm, fun k c hk => ?_⟩
  obtain ⟨e, j, -, hj, hc⟩ := hchildren.getElem? hk
  obtain ⟨mc, hmc, hpath⟩ := hc.exists_get?
  exact ⟨mc, hmc, by rw [Model.index_eq hpath, hj]⟩

namespace Planted

theorem siblings (hp : s.Planted parent handles drafts s') (hlive : s.IsLive parent) :
    s'.siblings parent = s.siblings parent ++ handles := by
  cases parent with
  | none => exact hp.roots
  | some p =>
    obtain ⟨m, hm⟩ := hlive
    have hm' := hp.before p (lt_size_of_get? hm)
    rw [if_pos rfl, hm, Option.map_some] at hm'
    change s'.children p = s.children p ++ handles
    rw [children_of_get? hm', children_of_get? hm, Model.children_adoptAll]

theorem live (hp : s.Planted parent handles drafts s')
    (hnew : ∀ x ∈ List.range' s.slots.size (Draft.sizeAll drafts), ∃ m, s'.get? x = some m) :
    s'.live = s.live ++ List.range' s.slots.size (Draft.sizeAll drafts) := by
  unfold Store.live
  rw [hp.size, List.range_eq_range', List.range_eq_range', ← List.range'_append_1, List.filter_append, Nat.zero_add]
  congr 1
  · refine List.filter_congr fun x hx => ?_
    rw [hp.before x (by simpa using hx)]
    split
    · rw [Option.isSome_map]
    · rfl
  · refine List.filter_eq_self.2 fun x hx => ?_
    exact Option.isSome_iff_exists.2 (hnew x hx)

end Planted

theorem Planted.cons_descendants (hp : s.Planted parent [h] [d] s') (hs' : s'.Wired) :
    h :: s'.descendants h = List.range' s.slots.size d.size := by
  obtain ⟨below, hbelow, hrange⟩ := hp.order_one
  rw [hrange, hbelow.unique (hs'.descendants_preorder h)]

theorem Planted.live_of_mem (hp : s.Planted parent [h] [d] s') (hs' : s'.Wired)
    (hx : x ∈ h :: s'.descendants h) : ∃ m, s'.get? x = some m := by
  obtain ⟨m, hm, -⟩ := hp.mirrors_one.2.1.exists_get?
  exact live_of_reflTransGen hm ((Removed.mem_gone_iff hs').1 hx)

theorem Planted.size_add (hp : s.Planted parent [h] [d] s') (hs : s.Wired) (hs' : s'.Wired) :
    s'.size = s.size + d.size := by
  have hlive := hp.live
  simp only [Draft.sizeAll, Nat.add_zero, ← hp.cons_descendants hs'] at hlive
  have hlength := congrArg List.length (hlive fun _ => hp.live_of_mem hs')
  rw [hp.cons_descendants hs', List.length_append, List.length_range'] at hlength
  rw [hs.size_eq, hs'.size_eq, hlength]

theorem Planted.adopted (hp : s.Planted parent [h] [d] s') (hs' : s'.Wired) : s.Adopted parent h s' where
  options := hp.options
  isOpen := hp.isOpen
  ids := hp.ids
  roots := hp.roots
  nextRoot := by
    split
    · next h =>
      subst h
      exact hp.mirrors_one.2.2
    · next h => exact hp.nextRoot h
  get?_eq x hx := by
    rw [hp.cons_descendants hs', List.mem_range'_1] at hx
    by_cases hlt : x < s.slots.size
    · exact hp.before x hlt
    · -- beyond the new slots there are none
      have hle := Nat.not_lt.1 hlt
      have hle' : s'.slots.size ≤ x := by
        rw [hp.size_one]
        exact Nat.not_lt.1 fun hlt' => hx ⟨hle, hlt'⟩
      rw [get?_eq_none_of_size_le hle, get?_eq_none_of_size_le hle', Option.map_none, ite_self]

/-- A successful append stores the draft, and nothing else: at and below the last child of the parent there are as
many new models as the draft has, like the draft in shape and content, and one by one in the order of the traversal.
The children of each of them are numbered from the first index on without a gap. -/
theorem mirrors_of_append {options : StoreOptions} {ids : IdSource} {paths : List SiblingPath}
    (hrun : (Store.new options ids).Run paths s) (happ : s.append parent d = (.ok h, s')) :
    s'.siblings parent = s.siblings parent ++ [h] ∧ s'.size = s.size + d.size ∧
    s'.Mirrors parent (s.pathTo parent ++ [s.nextIndex parent]) h d ∧
    List.Forall₂ (fun x e => (∃ parent path, s'.Mirrors parent path x e) ∧
        ∃ m, s'.get? x = some m ∧ s'.Gapless m)
      (h :: s'.descendants h) d.inOrder ∧
    (∀ x ∈ h :: s'.descendants h, s.get? x = none) ∧ s.Adopted parent h s' := by
  have hs := hrun.consistent_new.toWired
  have hs' := (hrun.update (.append parent d)).consistent_new.toWired
  change (s.append parent d).2.Wired at hs'
  rw [happ] at hs'
  obtain ⟨rfl, hlive, hp⟩ := planted_append d happ
  have hd := hp.mirrors_one.2.1
  refine ⟨hp.siblings hlive, hp.size_add hs hs', hd, ?_, fun x hx => ?_, hp.adopted hs'⟩
  · refine (hd.forall₂ (hs'.descendants_preorder _)).imp fun x e he => ?_
    obtain ⟨above, path, he⟩ := he
    exact ⟨⟨above, path, he⟩, he.gapless⟩
  · rw [hp.cons_descendants hs', List.mem_range'_1] at hx
    exact get?_eq_none_of_size_le hx.1

end

/-- A draft with a repeated class, null attributes and two generations below it becomes the child of a root. -/
theorem mirrors_of_append_second_tree :
    let below : Draft := ⟨"q", none, [], .emptyMap, [.ofTag "r"]⟩
    let draft : Draft := ⟨"g", some "n", ["x", "y", "x"], .null, [.ofTag "p", below]⟩
    let s := (Store.new ⟨⟨1, 4⟩, 1⟩ .counting).after (.append none (.ofTag "a"))
    let s' := s.after (.append (some 0) draft)
    s.append (some 0) draft = (.ok 1, s') ∧ s'.children 0 = [1] ∧ s'.size = s.size + 4 ∧
      s'.Mirrors (some 0) [0, 1] 1 draft ∧ s.get? 1 = none ∧ s.Adopted (some 0) 1 s' := by
  intro below draft s s'
  obtain ⟨hresult, hchildless, hplace⟩ : (s.append (some 0) draft).1 = .ok 1 ∧ s.siblings (some 0) = [] ∧
      s.pathTo (some 0) ++ [s.nextIndex (some 0)] = [0, 1] := by
    decide +kernel
  have happ : s.append (some 0) draft = (.ok 1, s') := Prod.ext hresult rfl
  obtain ⟨hsiblings, hsize, hmirrors, -, hnew, hadopted⟩ := mirrors_of_append (Run.refl.update _) happ
  rw [hchildless] at hsiblings
  rw [hplace] at hmirrors
  exact ⟨happ, hsiblings, hsize, hmirrors, hnew 1 (List.mem_cons_self ..), hadopted⟩

end Store

end Grove
