import Mathlib.Tactic
import Grove.Proofs.Forest.Consistent
import Grove.Proofs.Position.Resolution
/-!
# Counting siblings

A store and a table count sibling indices in different places but in one way: a child gets the index at which the
counter of its parent stands, and the counter goes up by one. So the children of one parent get larger and larger
indices, and no path is given out twice. What can stop that is a counter that stands at its largest value. None
comes to do so if the first index is far enough below that value, or if the digits run out before it is reached.
-/

set_option autoImplicit false

namespace Grove

namespace SiblingPath

def base (p : SiblingPath) : List UInt64 := p.indices.dropLast

def index (p : SiblingPath) : UInt64 := p.indices.getLast p.nonempty

/-- The digits of the span tell its boundaries apart. -/
def Shown (format : Format) (p : SiblingPath) : Prop :=
  ∃ s, p.span format = .ok s ∧ s.left.encoding < s.right.encoding

section
variable {format : Format} {p q : SiblingPath} {base : List UInt64} {i : UInt64}

theorem base_of_append (h : p.indices = base ++ [i]) : p.base = base := by
  unfold SiblingPath.base
  rw [h, List.dropLast_concat]

theorem index_of_append (h : p.indices = base ++ [i]) : p.index = i := getLast_of_append h

theorem base_append_index (p : SiblingPath) : p.base ++ [p.index] = p.indices :=
  List.dropLast_append_getLast p.nonempty

theorem Shown.encoding_lt (hp : p.Shown format) (hq : q.Shown format) (hbase : p.base = q.base)
    (hlt : p.index < q.index) : ∃ s t, p.span format = .ok s ∧ q.span format = .ok t ∧
      s.left.encoding < t.left.encoding := by
  obtain ⟨s, hs, hshown⟩ := hp
  obtain ⟨t, ht, -⟩ := hq
  refine ⟨s, t, hs, ht, ?_⟩
  unfold span at hs ht
  rw [← base_append_index] at hs ht
  rw [← hbase] at ht
  exact Span.encoding_left_lt_left hs ht hlt hshown

end

end SiblingPath

/-- Later siblings have larger indices, and the digits of their left boundaries come later as texts. -/
def Rising (format : Format) (given : List SiblingPath) : Prop :=
  given.Pairwise fun p q => p.base = q.base → p.index < q.index ∧
    ∃ s t, p.span format = .ok s ∧ q.span format = .ok t ∧ s.left.encoding < t.left.encoding

/-- So many models never bring a counter to its largest value. -/
structure StoreOptions.RoomFor (o : StoreOptions) (count : ℕ) : Prop where
  roots : count + 1 < 2 ^ 64
  children : o.firstChildIndex.toNat + count < 2 ^ 64 ∨ o.format.fractionDigits.toNat ≤ 36

/-- Who can get a child: `n k path i` says that `k` has this path, and that its next child gets the index `i`. -/
abbrev Numbering (κ : Type) := κ → List UInt64 → UInt64 → Prop

namespace Numbering

section
variable {κ : Type} {n n' : Numbering κ} {options : StoreOptions} {given : List SiblingPath} {parent child : κ}
  {p : SiblingPath} {base : List UInt64} {i : UInt64}

/-- The path `p` is given to a child at the counter of a parent, which goes up; the child gets a counter. -/
structure Gives (n : Numbering κ) (first : UInt64) (parent child : κ) (p : SiblingPath) (n' : Numbering κ) :
    Prop where
  turn : n parent p.base p.index
  room : p.index.toNat + 1 < 2 ^ 64
  cases : ∀ {k b j}, n' k b j → k = parent ∧ b = p.base ∧ j = p.index + 1 ∨ k ≠ parent ∧ n k b j ∨
    k = child ∧ b = p.indices ∧ j = first

/-- All counters are ahead of the paths that have been given out, and nobody has the path of another. -/
structure Ahead (options : StoreOptions) (n : Numbering κ) (given : List SiblingPath) : Prop where
  inj : ∀ {k k' b i i'}, n k b i → n k' b i' → k = k'
  path_given : ∀ {k b i}, n k b i → b = [] ∨ ∃ q ∈ given, q.indices = b
  base_given : ∀ {q}, q ∈ given → q.base = [] ∨ ∃ q' ∈ given, q'.indices = q.base
  index_lt : ∀ {k b i q}, n k b i → q ∈ given → q.base = b → q.index < i
  root_le : ∀ {k i}, n k [] i → i.toNat ≤ given.length
  child_lt : ∀ {k b i}, n k b i → b ≠ [] → i.toNat < options.firstChildIndex.toNat + given.length
  shown : ∀ {q}, q ∈ given → q.Shown options.format
  room : ∀ {q}, q ∈ given → q.index.toNat + 1 < 2 ^ 64
  rising : given.Pairwise fun q q' => q.base = q'.base → q.index < q'.index

theorem ahead_start (top : κ) (htop : ∀ {k b j}, n k b j → k = top ∧ b = [] ∧ j = 0) : n.Ahead options [] where
  inj hx hy := (htop hx).1.trans (htop hy).1.symm
  path_given hx := Or.inl (htop hx).2.1
  base_given hq := by cases hq
  index_lt _ hq := by cases hq
  root_le hx := by
    rw [(htop hx).2.2]
    exact Nat.zero_le _
  child_lt hx hb := absurd (htop hx).2.1 hb
  shown hq := by cases hq
  room hq := by cases hq
  rising := List.Pairwise.nil

theorem Ahead.rises (h : n.Ahead options given) : Rising options.format given := by
  refine h.rising.imp_of_mem fun {q q'} hq hq' hlt hbase => ?_
  exact ⟨hlt hbase, (h.shown hq).encoding_lt (h.shown hq') hbase (hlt hbase)⟩

theorem Ahead.mem_given (h : n.Ahead options given) (p : SiblingPath) {k : κ} (hk : n k p.indices i) : p ∈ given := by
  obtain ⟨q, hq, hpath⟩ := (h.path_given hk).resolve_left p.nonempty
  obtain ⟨indices, nonempty⟩ := q
  subst hpath
  exact hq

theorem Ahead.not_given (h : n.Ahead options given) (hg : n.Gives options.firstChildIndex parent child p n') :
    ¬ ∃ q ∈ given, q.indices = p.indices := by
  rintro ⟨q, hq, hpath⟩
  rw [← p.base_append_index] at hpath
  have hlt := h.index_lt hg.turn hq (SiblingPath.base_of_append hpath)
  rw [SiblingPath.index_of_append hpath] at hlt
  exact UInt64.lt_irrefl _ hlt

theorem Ahead.not_path (h : n.Ahead options given) (hg : n.Gives options.firstChildIndex parent child p n') {k : κ}
    {b : List UInt64} {j : UInt64} (hk : n k b j) : b ≠ p.indices := by
  rintro rfl
  rcases h.path_given hk with hnil | hgiven
  · exact p.nonempty hnil
  · exact h.not_given hg hgiven

theorem Ahead.base_ne (h : n.Ahead options given) (hg : n.Gives options.firstChildIndex parent child p n')
    {q : SiblingPath} (hq : q ∈ given) : q.base ≠ p.indices := by
  intro hbase
  have hgiven := h.base_given hq
  rw [hbase] at hgiven
  exact hgiven.elim p.nonempty (h.not_given hg)

theorem base_ne_indices (p : SiblingPath) : p.base ≠ p.indices := by
  intro heq
  have hlength := congrArg List.length p.base_append_index
  rw [heq, List.length_append, List.length_singleton] at hlength
  omega

/-- Where there is room and the digits show the next path, the counter that gives it is not at its largest value. -/
theorem Ahead.index_room (h : n.Ahead options given) (hturn : n parent p.base p.index)
    (hshown : p.Shown options.format) (hroom : options.RoomFor given.length) : p.index.toNat + 1 < 2 ^ 64 := by
  have hroots := hroom.roots
  by_cases hbase : p.base = []
  · rw [hbase] at hturn
    have hle := h.root_le hturn
    omega
  · have hlt := h.child_lt hturn hbase
    rcases hroom.children with hcount | hdigits
    · omega
    · -- at the largest index the digits would not tell the boundaries apart
      obtain ⟨s, hs, hlt⟩ := hshown
      unfold SiblingPath.span at hs
      rw [← p.base_append_index] at hs
      have hword := p.index.toNat_lt
      by_contra hfull
      have hlast : p.index.toNat = 2 ^ 64 - 1 := by omega
      exact absurd (Span.fractionDigits_of_largest_index hbase hlast hs hlt) (not_lt.2 hdigits)

theorem toNat_add_one {i : UInt64} (h : i.toNat + 1 < 2 ^ 64) : (i + 1).toNat = i.toNat + 1 := by
  rw [UInt64.toNat_add, UInt64.toNat_one, Nat.mod_eq_of_lt h]

theorem Ahead.inj_give (h : n.Ahead options given) (hg : n.Gives options.firstChildIndex parent child p n')
    {k k' : κ} {b : List UInt64} {j j' : UInt64} (hk : n' k b j) (hk' : n' k' b j') : k = k' := by
  -- each of the two is the parent, or one whose counter is left as it was, or the new child
  rcases hg.cases hk with ⟨rfl, rfl, -⟩ | ⟨-, hold⟩ | ⟨rfl, rfl, -⟩
  · rcases hg.cases hk' with ⟨rfl, -, -⟩ | ⟨-, hold'⟩ | ⟨-, hnew, -⟩
    · rfl
    · exact h.inj hg.turn hold'
    · exact absurd hnew (base_ne_indices p)
  · rcases hg.cases hk' with ⟨rfl, rfl, -⟩ | ⟨-, hold'⟩ | ⟨-, hnew, -⟩
    · exact h.inj hold hg.turn
    · exact h.inj hold hold'
    · exact absurd hnew (h.not_path hg hold)
  · rcases hg.cases hk' with ⟨-, hnew, -⟩ | ⟨-, hold'⟩ | ⟨rfl, -, -⟩
    · exact absurd hnew.symm (base_ne_indices p)
    · exact absurd rfl (h.not_path hg hold')
    · rfl

theorem Ahead.path_give (h : n.Ahead options given) (hg : n.Gives options.firstChildIndex parent child p n')
    {k : κ} {b : List UInt64} {j : UInt64} (hk : n' k b j) : b = [] ∨ ∃ q ∈ given ++ [p], q.indices = b := by
  have hmono : (∃ q ∈ given, q.indices = b) → ∃ q ∈ given ++ [p], q.indices = b :=
    fun ⟨q, hq, hpath⟩ => ⟨q, List.mem_append_left _ hq, hpath⟩
  rcases hg.cases hk with ⟨-, rfl, -⟩ | ⟨-, hold⟩ | ⟨-, rfl, -⟩
  · exact (h.path_given hg.turn).imp_right hmono
  · exact (h.path_given hold).imp_right hmono
  · exact Or.inr ⟨p, List.mem_append_right _ (List.mem_singleton_self p), rfl⟩

theorem Ahead.index_lt_give (h : n.Ahead options given)
    (hg : n.Gives options.firstChildIndex parent child p n') {k : κ} {j : UInt64} {q : SiblingPath}
    (hk : n' k q.base j) (hq : q ∈ given ++ [p]) : q.index < j := by
  have hraise : p.index < p.index + 1 := lt_add_one_of_toNat hg.room
  rcases List.mem_append.1 hq with hq | hq
  · rcases hg.cases hk with ⟨-, hb, rfl⟩ | ⟨-, hold⟩ | ⟨-, hb, -⟩
    · -- an earlier child of the same parent
      exact UInt64.lt_trans (h.index_lt hg.turn hq hb) hraise
    · exact h.index_lt hold hq rfl
    · exact absurd hb (h.base_ne hg hq)
  · rw [List.mem_singleton.1 hq] at hk ⊢
    rcases hg.cases hk with ⟨-, -, rfl⟩ | ⟨hne, hold⟩ | ⟨-, hb, -⟩
    · exact hraise
    · exact absurd (h.inj hold hg.turn) hne
    · exact absurd hb (base_ne_indices p)

theorem Ahead.root_le_give (h : n.Ahead options given) (hg : n.Gives options.firstChildIndex parent child p n')
    {k : κ} {j : UInt64} (hk : n' k [] j) : j.toNat ≤ given.length + 1 := by
  rcases hg.cases hk with ⟨-, hb, rfl⟩ | ⟨-, hold⟩ | ⟨-, hb, -⟩
  · have hturn := hg.turn
    rw [← hb] at hturn
    rw [toNat_add_one hg.room]
    exact Nat.succ_le_succ (h.root_le hturn)
  · exact (h.root_le hold).trans (Nat.le_succ _)
  · exact absurd hb.symm p.nonempty

theorem Ahead.child_lt_give (h : n.Ahead options given) (hg : n.Gives options.firstChildIndex parent child p n')
    {k : κ} {b : List UInt64} {j : UInt64} (hk : n' k b j) (hb : b ≠ []) :
    j.toNat < options.firstChildIndex.toNat + (given.length + 1) := by
  rcases hg.cases hk with ⟨-, rfl, rfl⟩ | ⟨-, hold⟩ | ⟨-, -, rfl⟩
  · rw [toNat_add_one hg.room]
    exact Nat.succ_lt_succ (h.child_lt hg.turn hb)
  · exact (h.child_lt hold hb).trans (Nat.lt_succ_self _)
  · omega

theorem Ahead.give (h : n.Ahead options given) (hg : n.Gives options.firstChildIndex parent child p n')
    (hshown : p.Shown options.format) : n'.Ahead options (given ++ [p]) where
  inj := h.inj_give hg
  path_given := h.path_give hg
  base_given {q} hq := by
    have hold : q.base = [] ∨ ∃ q' ∈ given, q'.indices = q.base := by
      rcases List.mem_append.1 hq with hq | hq
      · exact h.base_given hq
      · rw [List.mem_singleton.1 hq]
        exact h.path_given hg.turn
    exact hold.imp_right fun ⟨q', hq', hpath⟩ => ⟨q', List.mem_append_left _ hq', hpath⟩
  index_lt hk hq hbase := by
    subst hbase
    exact h.index_lt_give hg hk hq
  root_le hk := by
    rw [List.length_append, List.length_singleton]
    exact h.root_le_give hg hk
  child_lt hk hb := by
    rw [List.length_append, List.length_singleton]
    exact h.child_lt_give hg hk hb
  shown {q} hq := by
    rcases List.mem_append.1 hq with hq | hq
    · exact h.shown hq
    · rwa [List.mem_singleton.1 hq]
  room {q} hq := by
    rcases List.mem_append.1 hq with hq | hq
    · exact h.room hq
    · rw [List.mem_singleton.1 hq]
      exact hg.room
  rising := by
    rw [List.pairwise_append]
    refine ⟨h.rising, List.pairwise_singleton _ _, fun q hq q' hq' hbase => ?_⟩
    rw [List.mem_singleton.1 hq'] at hbase ⊢
    exact h.index_lt hg.turn hq hbase

theorem Ahead.keep (h : n.Ahead options given) (hk : ∀ {k b j}, n' k b j → n k b j) : n'.Ahead options given where
  inj hx hy := h.inj (hk hx) (hk hy)
  path_given hx := h.path_given (hk hx)
  base_given := h.base_given
  index_lt hx := h.index_lt (hk hx)
  root_le hx := h.root_le (hk hx)
  child_lt hx := h.child_lt (hk hx)
  shown := h.shown
  room := h.room
  rising := h.rising

end

end Numbering

end Grove
