import TwoChoice.Describe

/-!
# Probe counts

A probe is a scan of the tags or live slots of a bucket, an attempt to claim a tag, or a look at one
candidate slot. A `ProbeCount` adds them up in 64 bits.
-/

set_option autoImplicit false

namespace TwoChoice

/-- The probes counted so far, modulo 2^64. -/
structure ProbeCount where
  probes : UInt64 := 0
  deriving DecidableEq, Repr

namespace ProbeCount

/-- Counts `n` more probes. -/
def add (c : ProbeCount) (n : UInt64) : ProbeCount := ⟨c.probes + n⟩

/-- The count, and a counter that starts again. -/
def reset (c : ProbeCount) : UInt64 × ProbeCount := (c.probes, ⟨0⟩)

/-- The counter as a record. -/
def describe (c : ProbeCount) : Description where
  name := "ProbeCount"
  fields := [("probes", .number c.probes.toNat)]

end ProbeCount

end TwoChoice
