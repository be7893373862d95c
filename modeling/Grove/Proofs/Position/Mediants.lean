import Mathlib.Tactic
import Grove.Proofs.Position.Interval
/-!
# One mediant at a time

An index stands for as many single mediants of the lower end, and one of the upper end after them. The interval
takes them in closed form, with words. Over unbounded numbers both ways lead to the same fractions; and since
numerators and denominators only grow on the way, the closed form leaves the words exactly when some single mediant
does.
-/

set_option autoImplicit false

namespace Grove

abbrev Ratio := ℕ × ℕ

namespace Ratio

def mediant (a b : Ratio) : Ratio := (a.1 + b.1, a.2 + b.2)

def InWords (a : Ratio) : Prop := a.1 < Word.size ∧ a.2 < Word.size

instance (a : Ratio) : Decidable a.InWords := inferInstanceAs (Decidable (_ ∧ _))

theorem InWords.of_le {a b : Ratio} (hb : b.InWords) (hab : a ≤ b) : a.InWords :=
  ⟨hab.1.trans_lt hb.1, hab.2.trans_lt hb.2⟩

end Ratio

def Fraction.ratio (a : Fraction) : Ratio := (a.numerator.toNat, a.denominator.toNat)

theorem Fraction.inWords_ratio (a : Fraction) : a.ratio.InWords :=
  ⟨Word.toNat_lt_size _, Word.toNat_lt_size _⟩

/-- The ends of an interval on a walk of single mediants. -/
structure Ends where
  lower : Ratio
  upper : Ratio
  deriving DecidableEq

namespace Ends

def start : Ends := ⟨(0, 1), (1, 0)⟩

def ofFractions (lo hi : Fraction) : Ends := ⟨lo.ratio, hi.ratio⟩

/-- One mediant of the lower end, towards the upper one. -/
def raise (e : Ends) : Ends := ⟨e.lower.mediant e.upper, e.upper⟩

/-- One mediant of the upper end, towards the lower one. -/
def sink (e : Ends) : Ends := ⟨e.lower, e.lower.mediant e.upper⟩

/-- The ends after the mediants of one index. -/
def descend (e : Ends) : ℕ → Ends
  | 0 => e.sink
  | k + 1 => e.raise.descend k

/-- The ends after every single mediant of one index. -/
def met (e : Ends) : ℕ → List Ends
  | 0 => [e.sink]
  | k + 1 => e.raise :: e.raise.met k

/-- The ends after a path. -/
def walk (e : Ends) : List UInt64 → Ends
  | [] => e
  | index :: rest => (e.descend index.toNat).walk rest

/-- The ends after every single mediant of a path. -/
def trail (e : Ends) : List UInt64 → List Ends
  | [] => []
  | index :: rest => e.met index.toNat ++ (e.descend index.toNat).trail rest

def InWords (e : Ends) : Prop := e.lower.InWords ∧ e.upper.InWords

instance (e : Ends) : Decidable e.InWords := inferInstanceAs (Decidable (_ ∧ _))

def Below (e e' : Ends) : Prop := e.lower ≤ e'.lower ∧ e.upper ≤ e'.upper

section
variable {e e' e'' : Ends}

theorem Below.refl (e : Ends) : e.Below e := ⟨le_rfl, le_rfl⟩

theorem Below.trans (h : e.Below e') (h' : e'.Below e'') : e.Below e'' :=
  ⟨h.1.trans h'.1, h.2.trans h'.2⟩

theorem InWords.of_below (h' : e'.InWords) (h : e.Below e') : e.InWords :=
  ⟨h'.1.of_le h.1, h'.2.of_le h.2⟩

theorem inWords_ofFractions (lo hi : Fraction) : (ofFractions lo hi).InWords :=
  ⟨lo.inWords_ratio, hi.inWords_ratio⟩

theorem below_raise (e : Ends) : e.Below e.raise :=
  ⟨⟨Nat.le_add_right .., Nat.le_add_right ..⟩, le_rfl⟩

theorem below_sink (e : Ends) : e.Below e.sink :=
  ⟨le_rfl, ⟨Nat.le_add_left .., Nat.le_add_left ..⟩⟩

theorem below_descend (e : Ends) (k : ℕ) : e.Below (e.descend k) := by
  induction k generalizing e with
  | zero => exact e.below_sink
  | succ k ih => exact e.below_raise.trans (ih e.raise)

theorem below_of_mem_met {k : ℕ} (h : e' ∈ e.met k) : e'.Below (e.descend k) := by
  induction k generalizing e with
  | zero =>
    rw [List.mem_singleton.1 h]
    exact Below.refl _
  | succ k ih =>
    rcases List.mem_cons.1 h with rfl | h
    · exact below_descend _ k
    · exact ih h

theorem descend_mem_met (e : Ends) (k : ℕ) : e.descend k ∈ e.met k := by
  induction k generalizing e with
  | zero => exact List.mem_singleton_self _
  | succ k ih => exact List.mem_cons_of_mem _ (ih e.raise)

/-- The last mediants of an index decide whether all of them fit. -/
theorem inWords_met_iff {k : ℕ} : (∀ e' ∈ e.met k, e'.InWords) ↔ (e.descend k).InWords :=
  ⟨fun h => h _ (e.descend_mem_met k), fun h _ he' => h.of_below (below_of_mem_met he')⟩

/-- The closed form of the mediants of an index. -/
theorem descend_eq (e : Ends) (k : ℕ) : e.descend k =
    sink ⟨(e.lower.1 + k * e.upper.1, e.lower.2 + k * e.upper.2), e.upper⟩ := by
  induction k generalizing e with
  | zero => simp [descend]
  | succ k ih =>
    rw [descend, ih]
    simp only [raise, Ratio.mediant, Nat.succ_mul]
    congr 3 <;> omega

end

end Ends

section
variable {lo hi lo' hi' : Fraction} {depth : ℕ} {index : UInt64} {rest : List UInt64}

theorem Word.exists_add? {a b : Word} (h : a.toNat + b.toNat < Word.size) : ∃ c, Word.add? a b = some c :=
  ⟨a + b, if_pos h⟩

theorem Word.exists_mul? {a b : Word} (h : a.toNat * b.toNat < Word.size) : ∃ c, Word.mul? a b = some c :=
  ⟨a * b, if_pos h⟩

theorem Fraction.exists_mediant? {a b : Fraction} (h : (a.ratio.mediant b.ratio).InWords) :
    ∃ c, a.mediant? b = some c := by
  obtain ⟨n, hn⟩ := Word.exists_add? h.1
  obtain ⟨d, hd⟩ := Word.exists_add? h.2
  exact ⟨⟨n, d⟩, by simp [mediant?, hn, hd]⟩

theorem Fraction.exists_mediantSteps? {a toward : Fraction} {k : UInt64}
    (h : Ratio.InWords (a.ratio.1 + k.toNat * toward.ratio.1, a.ratio.2 + k.toNat * toward.ratio.2)) :
    ∃ c, a.mediantSteps? toward k = some c ∧
      c.ratio = (a.ratio.1 + k.toNat * toward.ratio.1, a.ratio.2 + k.toNat * toward.ratio.2) := by
  have hsum : ∀ {x y : Word}, x.toNat + k.toNat * y.toNat < Word.size →
      ∃ p s, (Word.ofIndex k).mul? y = some p ∧ x.add? p = some s ∧ s.toNat = x.toNat + k.toNat * y.toNat := by
    intro x y hxy
    rw [← Word.toNat_ofIndex k] at hxy ⊢
    obtain ⟨p, hp⟩ := Word.exists_mul? (lt_of_le_of_lt (Nat.le_add_left ..) hxy)
    rw [← Word.mul?_eq_some_iff.1 hp] at hxy ⊢
    obtain ⟨s, hs⟩ := Word.exists_add? hxy
    exact ⟨p, s, hp, hs, Word.add?_eq_some_iff.1 hs⟩
  obtain ⟨p, n, hp, hn, hnsum⟩ := hsum h.1
  obtain ⟨q, d, hq, hd, hdsum⟩ := hsum h.2
  exact ⟨⟨n, d⟩, by simp [mediantSteps?, hp, hn, hq, hd], Prod.ext hnsum hdsum⟩

theorem ofFractions_of_refine (h : refine lo hi depth index = .ok (lo', hi')) :
    Ends.ofFractions lo' hi' = (Ends.ofFractions lo hi).descend index.toNat := by
  obtain ⟨hln, hld, hhn, hhd⟩ := refine_eq_ok h
  rw [Ends.descend_eq]
  simp only [Ends.ofFractions, Ends.sink, Fraction.ratio, Ratio.mediant, hln, hld, hhn, hhd]

theorem exists_refine (depth : ℕ) (h : ((Ends.ofFractions lo hi).descend index.toNat).InWords) :
    ∃ lo' hi', refine lo hi depth index = .ok (lo', hi') := by
  rw [Ends.descend_eq] at h
  obtain ⟨lo', hlo, hratio⟩ := Fraction.exists_mediantSteps? h.1
  obtain ⟨hi', hhi⟩ := Fraction.exists_mediant? (a := lo') (b := hi) (hratio ▸ h.2)
  refine ⟨lo', hi', ?_⟩
  unfold refine
  rw [hlo]
  dsimp only
  rw [hhi]

theorem refine_eq_overflow (h : ¬ ((Ends.ofFractions lo hi).descend index.toNat).InWords) :
    refine lo hi depth index = .error (.overflow depth) := by
  cases hstep : refine lo hi depth index with
  | ok ends =>
    obtain ⟨lo', hi'⟩ := ends
    rw [← ofFractions_of_refine hstep] at h
    exact absurd (Ends.inWords_ofFractions lo' hi') h
  | error e =>
    unfold refine at hstep
    split at hstep
    · exact hstep.symm
    · split at hstep
      · exact hstep.symm
      · cases hstep

theorem Ends.mem_trail_cons {e e' : Ends} :
    e' ∈ e.trail (index :: rest) ↔ e' ∈ e.met index.toNat ∨ e' ∈ (e.descend index.toNat).trail rest :=
  List.mem_append

theorem exists_refineAll (lo hi : Fraction) (depth : ℕ)
    (h : ∀ e ∈ (Ends.ofFractions lo hi).trail rest, e.InWords) :
    ∃ lo' hi', refineAll lo hi depth rest = .ok (lo', hi') ∧
      Ends.ofFractions lo' hi' = (Ends.ofFractions lo hi).walk rest := by
  induction rest generalizing lo hi depth with
  | nil => exact ⟨lo, hi, rfl, rfl⟩
  | cons index rest ih =>
    have hfirst := Ends.inWords_met_iff.1 fun e he => h e (Ends.mem_trail_cons.2 (Or.inl he))
    obtain ⟨lo₁, hi₁, hstep⟩ := exists_refine depth hfirst
    have hends := ofFractions_of_refine hstep
    obtain ⟨lo', hi', hrest, hwalk⟩ := ih lo₁ hi₁ (depth + 1) fun e he =>
      h e (Ends.mem_trail_cons.2 (Or.inr (hends ▸ he)))
    refine ⟨lo', hi', refineAll_cons_eq_ok.2 ⟨lo₁, hi₁, hstep, hrest⟩, ?_⟩
    rw [hwalk, hends, Ends.walk]

/-- The walk breaks off at the first index on which some number does not fit. -/
theorem refineAll_eq_overflow (lo hi : Fraction) (depth : ℕ)
    (h : ∃ e ∈ (Ends.ofFractions lo hi).trail rest, ¬ e.InWords) :
    ∃ n < rest.length, refineAll lo hi depth rest = .error (.overflow (depth + n)) ∧
      (∀ e ∈ (Ends.ofFractions lo hi).trail (rest.take n), e.InWords) ∧
      ∃ e ∈ (Ends.ofFractions lo hi).trail (rest.take (n + 1)), ¬ e.InWords := by
  induction rest generalizing lo hi depth with
  | nil =>
    obtain ⟨e, he, -⟩ := h
    cases he
  | cons index rest ih =>
    by_cases hfirst : ((Ends.ofFractions lo hi).descend index.toNat).InWords
    · obtain ⟨lo₁, hi₁, hstep⟩ := exists_refine depth hfirst
      have hends := ofFractions_of_refine hstep
      have hmet := Ends.inWords_met_iff.2 hfirst
      have hrest : ∃ e ∈ (Ends.ofFractions lo₁ hi₁).trail rest, ¬ e.InWords := by
        obtain ⟨e, he, hbad⟩ := h
        rw [hends]
        exact ⟨e, (Ends.mem_trail_cons.1 he).resolve_left fun hm => hbad (hmet e hm), hbad⟩
      obtain ⟨n, hn, herror, hgood, e, he, hbad⟩ := ih lo₁ hi₁ (depth + 1) hrest
      rw [hends] at hgood he
      refine ⟨n + 1, Nat.succ_lt_succ hn, ?_, fun e he => ?_, e, Ends.mem_trail_cons.2 (Or.inr he), hbad⟩
      · rw [refineAll, hstep]
        dsimp only
        rw [herror, Nat.add_assoc, Nat.add_comm 1]
      · exact (Ends.mem_trail_cons.1 he).elim (hmet e) (hgood e)
    · refine ⟨0, Nat.succ_pos _, ?_, fun e he => absurd he List.not_mem_nil, _, ?_, hfirst⟩
      · rw [refineAll, refine_eq_overflow hfirst]
        rfl
      · exact Ends.mem_trail_cons.2 (Or.inl (Ends.descend_mem_met _ _))

end

/-- The interval of a path is where the walk by single mediants over unbounded numbers ends, if all the numbers on
the way fit a word. If not, it is an overflow at the first index on which one does not. Only the empty path has no
walk. -/
theorem interval_eq_walk (path : List UInt64) :
    (interval path = .error .emptyPath ↔ path = []) ∧
    (path ≠ [] → (∀ e ∈ Ends.start.trail path, e.InWords) →
      ∃ lo hi, interval path = .ok (lo, hi) ∧ Ends.ofFractions lo hi = Ends.start.walk path) ∧
    ((∃ e ∈ Ends.start.trail path, ¬ e.InWords) →
      ∃ depth < path.length, interval path = .error (.overflow depth) ∧
        (∀ e ∈ Ends.start.trail (path.take depth), e.InWords) ∧
        ∃ e ∈ Ends.start.trail (path.take (depth + 1)), ¬ e.InWords) := by
  cases path with
  | nil =>
    refine ⟨iff_of_true rfl rfl, fun hne => absurd rfl hne, ?_⟩
    rintro ⟨e, he, -⟩
    cases he
  | cons index rest =>
    -- both ways start at the same ends
    have hok := @exists_refineAll (index :: rest) .zero .infinity 0
    have herror := @refineAll_eq_overflow (index :: rest) .zero .infinity 0
    simp only [Nat.zero_add] at herror
    refine ⟨iff_of_false (fun hempty => ?_) (List.cons_ne_nil _ _), fun _ => hok, herror⟩
    by_cases hall : ∀ e ∈ Ends.start.trail (index :: rest), e.InWords
    · obtain ⟨lo, hi, hint, -⟩ := hok hall
      cases hint.symm.trans hempty
    · simp only [not_forall, exists_prop] at hall
      obtain ⟨depth, -, hint, -⟩ := herror hall
      cases hint.symm.trans hempty

/-- A path four deep, and one of a hundred first children that is too deep for words. -/
theorem interval_eq_walk_deep :
    (∃ lo hi, interval [45, 3, 4, 5] = .ok (lo, hi) ∧ Ends.ofFractions lo hi = ⟨(7739, 169), (9067, 198)⟩) ∧
      ∃ depth < 100, interval (List.replicate 100 1) = .error (.overflow depth) := by
  have hfit : ∀ e ∈ Ends.start.trail [45, 3, 4, 5], e.InWords := by decide +kernel
  have hbreak : ∃ e ∈ Ends.start.trail (List.replicate 100 1), ¬ e.InWords := by decide +kernel
  have hwalk : Ends.start.walk [45, 3, 4, 5] = ⟨(7739, 169), (9067, 198)⟩ := by decide
  obtain ⟨depth, hdepth, herror, -⟩ := (interval_eq_walk _).2.2 hbreak
  rw [← hwalk]
  exact ⟨(interval_eq_walk _).2.1 (List.cons_ne_nil _ _) hfit, depth, hdepth, herror⟩

end Grove
