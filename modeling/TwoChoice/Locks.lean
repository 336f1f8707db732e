import TwoChoice.Lanes

/-!
# Bucket locks

One lock bit for each bucket, 64 to a word. `Locks.withLocks` holds the locks of some buckets while
a program runs and releases them on every way out of it. `Guarded` is a lock table together with
the locks that were taken and are still to be released.
-/

set_option autoImplicit false

namespace TwoChoice

/-- The lock bits of `n` buckets. -/
structure Locks (n : Nat) where
  words : Vector UInt64 ((n + 63) / 64)
  deriving DecidableEq

namespace Locks

variable {n : Nat} {σ α : Type}

/-- Every bucket is unlocked. -/
def fresh : Locks n := ⟨Vector.replicate _ 0⟩

/-- Resets every word. -/
def clear (t : Locks n) : Locks n := ⟨t.words.map fun _ => 0⟩

/-- The bit of a bucket in its word. -/
def bitOf (bucket : Nat) : UInt64 := Mask.bit (bucket % 64)

/-- The word that a bucket has its bit in. -/
def wordOf (t : Locks n) (bucket : Nat) : UInt64 := t.words[bucket / 64]?.getD 0

/-- Whether the bucket is locked. -/
def isLocked (t : Locks n) (bucket : Nat) : Bool := t.wordOf bucket &&& bitOf bucket != 0

/-- The table after the bit of a bucket was set. -/
def acquire (t : Locks n) (bucket : Nat) : Locks n :=
  ⟨t.words.setIfInBounds (bucket / 64) (t.wordOf bucket ||| bitOf bucket)⟩

/-- The table after the bit of a bucket was cleared. -/
def release (t : Locks n) (bucket : Nat) : Locks n :=
  ⟨t.words.setIfInBounds (bucket / 64) (t.wordOf bucket &&& ~~~bitOf bucket)⟩

/-- The buckets below `n` that are locked, in ascending order. -/
def locked (t : Locks n) : List Nat := (List.range n).filter t.isLocked

/-- The bucket has a bit in a table of `n` buckets. The last word may have room for more. -/
def covers (n bucket : Nat) : Prop := bucket / 64 < (n + 63) / 64

instance (n bucket : Nat) : Decidable (covers n bucket) := Nat.decLt ..

/-- Whether the bucket is locked at this moment. -/
def check (bucket : Nat) : Prog (Locks n) Bool := do
  Prog.require (covers n bucket) (.noSuchBucket bucket)
  Prog.gets (·.isLocked bucket)

/-- Locks the bucket unless it is locked. -/
def tryLock (bucket : Nat) : Prog (Locks n) Bool := do
  if ← check bucket then
    return false
  else
    Prog.modify (·.acquire bucket)
    return true

variable (g : Lanes)

/-- Locks the bucket, or waits for it. All lanes go on together. -/
def lock (bucket : Nat) : Prog (Locks n) Unit := do
  g.elect 0 fun _ => do
    if ← tryLock bucket then pure () else .halt (.waiting bucket)
  Prog.pause

/-- Releases the lock of the bucket after all lanes are ready for it. -/
def unlock (bucket : Nat) : Prog (Locks n) Unit := do
  Prog.pause
  g.elect 0 fun _ => do
    let held ← check bucket
    Prog.modify (·.release bucket)
    Prog.require (held = true) (.notLocked bucket)

/-- Runs `body` while the locks of the buckets are held. They are taken and released in the order of
the list, and released also when `body` ends with a fault. -/
def withLocks (l : Lens σ (Locks n)) (buckets : List Nat) (body : Prog σ α) : Prog σ α := do
  buckets.forM fun b => (lock g b).zoom l
  let result ← body.attempt
  buckets.forM fun b => (unlock g b).zoom l
  Prog.ofExcept result

/-- The order in which two locks are taken: ascending, and a shared one once. -/
def order (first second : Nat) : List Nat :=
  if first = second then [first]
  else if first < second then [first, second]
  else [second, first]

/-- A lock table and the buckets whose locks are held by a guard. -/
structure Guarded (n : Nat) where
  table : Locks n := fresh
  guards : List Nat := []

namespace Guarded

/-- The lock table itself. -/
def tableLens : Lens (Guarded n) (Locks n) where
  get s := s.table
  set t s := { s with table := t }
  get_set _ _ := rfl
  set_get _ := rfl
  set_set _ _ _ := rfl

/-- Locks the bucket and keeps a guard for it. -/
def lock (bucket : Nat) : Prog (Guarded n) Unit := do
  (Locks.lock g bucket).zoom tableLens
  Prog.modify fun s => { s with guards := s.guards ++ [bucket] }

/-- Drops the guard of the bucket, if there is one. -/
def drop (bucket : Nat) : Prog (Guarded n) Bool := do
  if (← Prog.gets (·.guards)).contains bucket then
    Prog.modify fun s => { s with guards := s.guards.erase bucket }
    (unlock g bucket).zoom tableLens
    return true
  else
    return false

/-- Drops all guards and releases every lock. -/
def clear : Prog (Guarded n) Unit := do
  (← Prog.gets (·.guards)).forM fun b => discard (drop g b)
  Prog.modify fun s => { s with table := s.table.clear }

end Guarded

end Locks

end TwoChoice
