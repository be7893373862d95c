import Grove.Position.Error
import Grove.Position.Fraction
/-!
# Intervals of sibling paths

A walk through the Stern-Brocot tree from the interval between zero and infinity. An index `k` moves the
lower end by `k` mediants towards the upper one, and then the upper end by one mediant towards the lower.
The intervals of consecutive siblings touch, and those of the children of a node lie within its own.
-/

set_option autoImplicit false

namespace Grove

/-- An interval after one more index at some depth. -/
def refine (lo hi : Fraction) (depth : Nat) (index : UInt64) : Except EncodeError (Fraction × Fraction) :=
  match lo.mediantSteps? hi index with
  | none => .error (.overflow depth)
  | some lo' =>
    match lo'.mediant? hi with
    | none => .error (.overflow depth)
    | some hi' => .ok (lo', hi')

def refineAll (lo hi : Fraction) (depth : Nat) : List UInt64 → Except EncodeError (Fraction × Fraction)
  | [] => .ok (lo, hi)
  | index :: rest =>
    match refine lo hi depth index with
    | .error e => .error e
    | .ok (lo', hi') => refineAll lo' hi' (depth + 1) rest

def interval : List UInt64 → Except EncodeError (Fraction × Fraction)
  | [] => .error .emptyPath
  | path => refineAll .zero .infinity 0 path

end Grove
