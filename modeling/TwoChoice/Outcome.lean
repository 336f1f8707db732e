/-!
# Outcomes

How a call can end without success. A `TableError` is a refusal. A `Fault` is a broken precondition:
the caller or the table itself violated what an operation relies on. A `Halt` is the end of a
program that gives no answer.
-/

set_option autoImplicit false

namespace TwoChoice

/-- Why a call was refused. -/
inductive TableError where
  /-- Neither candidate bucket of the key has a free slot. -/
  | tableFull
  /-- The key to be inserted is present. -/
  | occupied
  /-- The key to be inserted is a reserved one. -/
  | reservedKey
  /-- The offset leaves no room for three distinct reserved keys. -/
  | invalidTombstoneOffset (offset : UInt64)
  deriving DecidableEq, Repr

/-- The wording of a refusal. -/
def TableError.message : TableError → String
  | .tableFull => "both candidate buckets of the key are full"
  | .occupied => "the key is already present"
  | .reservedKey => "the key is reserved by the table"
  | .invalidTombstoneOffset offset =>
    s!"tombstone offset {offset} leaves no room for the reserved keys"

/-- A precondition that was violated. -/
inductive Fault where
  /-- A reserved key was to be stored. -/
  | reservedKey (key : Nat)
  /-- The lane elected is not in the group. -/
  | noSuchLane (lane : Nat)
  /-- The poll is on more than 64 indices. -/
  | pollTooLong (len : Nat)
  /-- The slot is past the end of its bucket. -/
  | noSuchSlot (index : Nat)
  /-- The bucket is past the end of the table. -/
  | noSuchBucket (bucket : Nat)
  /-- A bucket was released that nobody holds. -/
  | notLocked (bucket : Nat)
  /-- A sum or a difference leaves the range of its type. -/
  | overflow
  deriving DecidableEq, Repr

/-- The text that goes with the fault, where there is a fixed one. -/
def Fault.message? : Fault → Option String
  | .reservedKey key => some s!"{key} is reserved"
  | _ => none

/-- Why a program ended without an answer. -/
inductive Halt where
  | fault (f : Fault)
  /-- It waits for the lock of a bucket that is held. -/
  | waiting (bucket : Nat)
  /-- It used up its passes over the candidate buckets. -/
  | starved
  deriving DecidableEq, Repr

end TwoChoice
