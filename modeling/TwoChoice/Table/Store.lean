import TwoChoice.Table.Basic

/-!
# Looking up and storing

A store makes passes over the candidate buckets of its key. In each pass it scans the tags, looks
for the key among the slots with its tag, and otherwise claims a free slot: in the primary bucket
while that is loaded below the cutoff, else in the less loaded of the two. A pass fails only if
other groups were faster at every free slot it saw.
-/

set_option autoImplicit false

namespace TwoChoice

/-- A group of lanes at work. -/
structure Group extends Lanes where
  /-- The passes a store may make before it gives up. Each pass beyond the first follows one in
  which other groups took every free slot. -/
  passes : Nat := 1

/-- How a store ended. -/
inductive Stored where
  /-- The key was absent and now has an entry. -/
  | inserted
  /-- The key was present. -/
  | present
  /-- The key was absent and both buckets were full. -/
  | full
  deriving DecidableEq, Repr

namespace Config

variable {k v : Width} (c : Config k) (g : Group)

/-- The value of the key, if it is present. -/
def find? (key : Word k) : Prog (Cells k v c.shape) (Option (Word v)) :=
  (c.candidates key).distinct.findSomeM? fun b => do
    let census ← c.atTags b (Tags.scan g.toLanes (Tag.ofKey key))
    if census.matching == 0 then
      return none
    else
      c.atSlots b (Slots.find? g.toLanes key census.matching)

/-- Whether the key is present. -/
def contains (key : Word k) : Prog (Cells k v c.shape) Bool := do
  return (← find? (v := v) c g key).isSome

/-- Whether the bucket holds the key in a slot that had its tag in the scan; with `replace` that
slot gets the value. -/
def lookFor (b : Fin c.shape.count) (key : Word k) (value : Word v) (census : Census)
    (replace : Bool) : Prog (Cells k v c.shape) Bool := do
  if census.matching == 0 then
    return false
  else
    let found ← c.atSlots b <|
      if replace then Slots.overwrite g.toLanes key value census.matching
      else Slots.findIndex? g.toLanes key census.matching
    return found.isSome

/-- Claims a slot of the bucket that was free in the scan, tombstones first, and publishes the pair
in it. -/
def place (b : Fin c.shape.count) (key : Word k) (value : Word v) (census : Census) :
    Prog (Cells k v c.shape) Bool := do
  if census.free == 0 then
    return false
  else
    let tag := Tag.ofKey key
    let claimed ←
      match ← c.atTags b (Tags.claimTombstone g.toLanes tag census.tombstone) with
      | some index => pure (some index)
      | none => c.atTags b (Tags.claimEmpty g.toLanes tag census.empty)
    match claimed with
    | none => return false
    | some index =>
      c.atSlots b (Slots.publish g.toLanes c.reserved index key value)
      return true

/-- The buckets in which a new key is placed, with their scans, the preferred one first: below the
cutoff the primary bucket alone, else the less loaded one before the other. -/
def preference (cands : Candidates (Fin c.shape.count)) (primary secondary : Census)
    (primaryLoad secondaryLoad : Nat) : List (Fin c.shape.count × Census) :=
  if primaryLoad < c.shape.len.cutoff then [(cands.primary, primary)]
  else if primaryLoad ≤ secondaryLoad then
    [(cands.primary, primary), (cands.secondary, secondary)]
  else [(cands.secondary, secondary), (cands.primary, primary)]

/-- The second half of a pass, once the key is known to be in neither bucket. -/
def placeNew (key : Word k) (value : Word v) (primary secondary : Census) :
    Prog (Cells k v c.shape) (Option Stored) := do
  let cands := c.candidates key
  if primary.free == 0 && secondary.free == 0 then
    Prog.log (.full cands.primary cands.secondary key.toNat)
    return some .full
  else
    let primaryLoad ← primary.load c.shape.len.slots
    let secondaryLoad ← secondary.load c.shape.len.slots
    let order := preference c cands primary secondary primaryLoad secondaryLoad
    if ← order.anyM fun (b, census) => place c g b key value census then
      return some .inserted
    else
      Prog.log (.lostRaces key.toNat)
      return none

/-- One pass of a store; no answer if other groups took every free slot that it saw. A bucket that
is its own alternative has nothing more to offer, so it is scanned once. -/
def storePass (key : Word k) (value : Word v) (replace : Bool) :
    Prog (Cells k v c.shape) (Option Stored) := do
  let cands := c.candidates key
  let primary ← c.atTags cands.primary (Tags.scan g.toLanes (Tag.ofKey key))
  if ← lookFor c g cands.primary key value primary replace then
    return some .present
  else if cands.secondary = cands.primary then
    placeNew c g key value primary {}
  else
    let secondary ← c.atTags cands.secondary (Tags.scan g.toLanes (Tag.ofKey key))
    if ← lookFor c g cands.secondary key value secondary replace then
      return some .present
    else
      placeNew c g key value primary secondary

/-- Passes until one of them answers, `n` at most. -/
def storePasses (key : Word k) (value : Word v) (replace : Bool) :
    Nat → Prog (Cells k v c.shape) Stored
  | 0 => .halt .starved
  | n + 1 => do
    match ← storePass c g key value replace with
    | some stored => return stored
    | none => storePasses key value replace n

/-- Stores a pair, holding the lock of the primary bucket if `locked`. A key that is present gets
the value if `replace`, and keeps its own otherwise. -/
def store (key : Word k) (value : Word v) (replace locked : Bool) :
    Prog (Cells k v c.shape) Stored := do
  Prog.require (c.reserved.isReserved key = false) (.reservedKey key.toNat)
  c.withLocks g.toLanes (if locked then [(c.candidates key).primary.val] else [])
    (storePasses c g key value replace g.passes)

/-- Gives the key a value, whether it is present or not. It fails only if the key is absent and both
of its buckets are full. -/
def upsert (key : Word k) (value : Word v) (locked : Bool) : Prog (Cells k v c.shape) Bool := do
  return (← store c g key value true locked) != .full

/-- Stores a pair whose key must be absent. -/
def insertNew (key : Word k) (value : Word v) :
    Prog (Cells k v c.shape) (Except TableError Unit) := do
  if c.reserved.isReserved key then
    return .error .reservedKey
  else
    match ← store c g key value false true with
    | .inserted => return .ok ()
    | .present => return .error .occupied
    | .full => return .error .tableFull

end Config

end TwoChoice
