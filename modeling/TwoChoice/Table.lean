import TwoChoice.Schedule

/-!
# Tables as values

A `Table` is a configuration with its cells. It is made by a `Builder`; whoever has it alone may
clear or reseed it, and calls run on it under a schedule.
-/

set_option autoImplicit false

namespace TwoChoice

/-- A table with keys of width `k` and values of width `v`. -/
structure Table (k v : Width) where
  config : Config k
  cells : Cells k v config.shape
  /-- Somebody counts the probes. -/
  counting : Bool

namespace Table

variable {k v : Width}

/-- A new table for at least `capacity` pairs. The capacity is rounded up by a sum in 64 bits, and a
sum that does not fit is a fault. -/
def create (len : BucketLen) (capacity : Nat) (seed : UInt64) (reserved : ReservedKeys k)
    (counting : Bool) : Except Fault (Table k v × List LogRecord) :=
  if capacity + len.slots < UInt64.size then
    let shape := Shape.ofCapacity len capacity
    .ok ({ config := { shape, seed, reserved }, cells := Cells.fresh reserved, counting },
      [.allocated shape.count len.slots seed])
  else .error .overflow

/-- Removes every entry and releases every lock. -/
def clear (t : Table k v) : Table k v × List LogRecord :=
  ({ t with cells := t.cells.clear t.config.reserved }, [.cleared t.config.shape.count])

/-- Gives the table another seed. The entries lie where the old seed put them, so they go. -/
def reseed (t : Table k v) (seed : UInt64) : Table k v × List LogRecord :=
  let (t, records) := t.clear
  ({ t with config := { t.config with seed }, cells := t.cells },
    records ++ [.reseeded t.config.shape.count])

end Table

/-- What is asked of a table by its owner. -/
inductive Request (k v : Width) where
  | call (c : Call k v)
  | clear
  | reseed (seed : UInt64)

/-- What there is to tell after a request. -/
structure Report (k v : Width) where
  /-- The answer to a call; `clear` and `reseed` have none. -/
  outcome : Except Halt (Option (Reply k v))
  /-- The probes that were counted. -/
  probes : UInt64 := 0
  records : List LogRecord := []
  trace : List Act := []
  intruded : List (Intruded k v) := []

namespace Table

variable {k v : Width}

/-- Carries a request out. A clearing or a reseeding has no pauses, so it leaves the schedule
unused. -/
def handle (t : Table k v) (lanes : Lanes) (schedule : List (Intrusion k v)) :
    Request k v → Report k v × Table k v
  | .call c =>
    let (outcome, scene, cells) := Scene.run t.config lanes c schedule t.cells
    ({ outcome := outcome.map some
       probes := if t.counting then scene.tally.probes.probes else 0
       records := scene.tally.records.toList
       trace := scene.trace.toList
       intruded := scene.intruded.toList },
      { t with cells })
  | .clear => let (t, records) := t.clear; ({ outcome := .ok none, records }, t)
  | .reseed seed => let (t, records) := t.reseed seed; ({ outcome := .ok none, records }, t)

/-- The live entries with the bucket and the slot they lie in. -/
def placed (t : Table k v) : List (Nat × Nat × Word k × Word v) :=
  (t.cells.placed t.config.reserved).map fun e => (e.1.val, e.2)

/-- All words of the tags, bucket by bucket. -/
def tagWords (t : Table k v) : List UInt64 :=
  t.cells.buckets.toList.flatMap fun b => b.tags.words.toList

/-- The buckets that are locked. -/
def locked (t : Table k v) : List Nat := t.cells.locks.locked

/-- For each bucket the number of slots that are taken by their tag. -/
def occupancies (t : Table k v) : List Nat := t.cells.buckets.toList.map (·.tags.occupancy)

/-- The number of live entries. -/
def size (t : Table k v) : Nat := t.cells.size t.config.reserved

end Table

end TwoChoice
