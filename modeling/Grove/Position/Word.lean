/-!
# Words of 128 bits

Sums and products that do not fit have no value; every other operation of this library on words stays
below their bound.
-/

set_option autoImplicit false

namespace Grove

abbrev Word := BitVec 128

namespace Word

def size : Nat := Nat.pow 2 128

theorem toNat_lt_size (a : Word) : a.toNat < size := a.isLt

def add? (a b : Word) : Option Word :=
  if a.toNat + b.toNat < size then some (a + b) else none

def mul? (a b : Word) : Option Word :=
  if a.toNat * b.toNat < size then some (a * b) else none

def ofIndex (k : UInt64) : Word := BitVec.ofNat 128 k.toNat

theorem toNat_add_of_lt {a b : Word} (h : a.toNat + b.toNat < size) :
    (a + b).toNat = a.toNat + b.toNat :=
  (BitVec.toNat_add a b).trans (Nat.mod_eq_of_lt h)

theorem toNat_mul_of_lt {a b : Word} (h : a.toNat * b.toNat < size) :
    (a * b).toNat = a.toNat * b.toNat :=
  (BitVec.toNat_mul a b).trans (Nat.mod_eq_of_lt h)

theorem add?_eq_some_iff {a b c : Word} : add? a b = some c ↔ c.toNat = a.toNat + b.toNat := by
  unfold add?
  constructor
  · intro h
    split at h
    · next hlt => cases h; exact toNat_add_of_lt hlt
    · cases h
  · intro h
    have hlt : a.toNat + b.toNat < size := h ▸ toNat_lt_size c
    rw [if_pos hlt, Option.some_inj]
    exact BitVec.eq_of_toNat_eq ((toNat_add_of_lt hlt).trans h.symm)

theorem mul?_eq_some_iff {a b c : Word} : mul? a b = some c ↔ c.toNat = a.toNat * b.toNat := by
  unfold mul?
  constructor
  · intro h
    split at h
    · next hlt => cases h; exact toNat_mul_of_lt hlt
    · cases h
  · intro h
    have hlt : a.toNat * b.toNat < size := h ▸ toNat_lt_size c
    rw [if_pos hlt, Option.some_inj]
    exact BitVec.eq_of_toNat_eq ((toNat_mul_of_lt hlt).trans h.symm)

theorem toNat_ofIndex (k : UInt64) : (ofIndex k).toNat = k.toNat := by
  unfold ofIndex
  rw [BitVec.toNat_ofNat, Nat.mod_eq_of_lt]
  exact Nat.lt_of_lt_of_le k.toNat_lt (by decide)

end Word

end Grove
