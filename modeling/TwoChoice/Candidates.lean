/-!
# Candidate buckets

A key may lie in two buckets, its primary and its secondary one, which can be the same.
-/

set_option autoImplicit false

namespace TwoChoice

/-- The two buckets in which a key may lie. -/
structure Candidates (ι : Type) where
  /-- The bucket that is tried first, and whose lock protects the key. -/
  primary : ι
  /-- The alternative. -/
  secondary : ι
  deriving DecidableEq, Repr

namespace Candidates

/-- The buckets without repetition, in the order in which they are searched. -/
def distinct {ι : Type} [DecidableEq ι] (c : Candidates ι) : List ι :=
  if c.secondary = c.primary then [c.primary] else [c.primary, c.secondary]

/-- The same choice under other names. -/
def map {ι κ : Type} (f : ι → κ) (c : Candidates ι) : Candidates κ :=
  ⟨f c.primary, f c.secondary⟩

/-- The low half of the hash chooses the primary bucket, the high half the secondary one. -/
def ofHash {n : Nat} (hash : UInt64) (pos : 0 < n) : Candidates (Fin n) where
  primary := ⟨hash.toNat % UInt32.size % n, Nat.mod_lt _ pos⟩
  secondary := ⟨hash.toNat / UInt32.size % n, Nat.mod_lt _ pos⟩

/-- The candidates among `n` buckets, none if there is no bucket. -/
def ofHash? (hash : UInt64) (n : Nat) : Option (Candidates Nat) :=
  if h : 0 < n then some ((ofHash hash h).map Fin.val) else none

end Candidates

end TwoChoice
