/-!
# Masks

A mask is a set of lanes or slots below 64, one bit each. `Mask.indices` lists it from below by
clearing the lowest bit again and again.
-/

set_option autoImplicit false

namespace TwoChoice

/-- A set of numbers below 64, bit `i` standing for `i`. -/
abbrev Mask : Type := UInt64

namespace Mask

/-- The mask of `i` alone. -/
def bit (i : Nat) : Mask := 1 <<< UInt64.ofNat i

/-- Whether `i` is in the mask. -/
def has (m : Mask) (i : Nat) : Bool := m &&& bit i != 0

/-- The least element of a mask that is not empty: `m &&& -m` has that bit alone. -/
def lowest (m : Mask) : Nat := (m &&& (0 - m)).log2.toNat

/-- The mask without its least element. -/
def dropLowest (m : Mask) : Mask := m &&& (m - 1)

/-- At most `n` elements of the mask, in ascending order. -/
def indicesUpTo : Nat → Mask → List Nat
  | 0, _ => []
  | n + 1, m => if m == 0 then [] else lowest m :: indicesUpTo n (dropLowest m)

/-- The elements of the mask in ascending order. -/
def indices (m : Mask) : List Nat := indicesUpTo 64 m

/-- The number of elements. -/
def count (m : Mask) : Nat := (List.range 64).countP m.has

end Mask

end TwoChoice
