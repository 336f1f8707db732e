import TwoChoice.Lanes
import TwoChoice.Reserved
import TwoChoice.Tags

/-!
# Slots

The pairs of a bucket. A slot is written only by the owner of its tag or by the lock holder of the
key in it. A reader checks the key before and after it reads the value, and a writer puts the
holding key in place before it changes the value.
-/

set_option autoImplicit false

namespace TwoChoice

/-- A key and a value. -/
structure Slot (k v : Width) where
  key : Word k
  value : Word v
  deriving DecidableEq

/-- The slots of a bucket. -/
structure Slots (k v : Width) (L : BucketLen) where
  toVector : Vector (Slot k v) L.slots
  deriving DecidableEq

namespace Slots

variable {k v : Width} {L : BucketLen}

/-- Every slot holds the empty key and zero. -/
def fresh (r : ReservedKeys k) : Slots k v L := ⟨Vector.replicate L.slots ⟨r.empty, 0#v.bits⟩⟩

/-- Resets every slot. -/
def clear (r : ReservedKeys k) (s : Slots k v L) : Slots k v L :=
  ⟨s.toVector.map fun _ => ⟨r.empty, 0#v.bits⟩⟩

/-- The live pairs with their indices, in slot order. -/
def live (r : ReservedKeys k) (s : Slots k v L) : List (Nat × Word k × Word v) :=
  s.toVector.toList.zipIdx.filterMap fun (c, i) =>
    if r.isReserved c.key then none else some (i, c.key, c.value)

/-- The slot at an index. -/
def slotAt (index : Nat) : Prog (Slots k v L) (Slot k v) :=
  .read fun s =>
    if h : index < L.slots then .done s.toVector[index] else Prog.fault (.noSuchSlot index)

/-- The key in a slot. -/
def keyAt (index : Nat) : Prog (Slots k v L) (Word k) := do return (← slotAt index).key

/-- The value in a slot. -/
def valueAt (index : Nat) : Prog (Slots k v L) (Word v) := do return (← slotAt index).value

/-- Puts another slot in the place of one. -/
def update (index : Nat) (f : Slot k v → Slot k v) : Prog (Slots k v L) Unit := do
  Prog.require (index < L.slots) (.noSuchSlot index)
  Prog.modify fun s =>
    if h : index < L.slots then ⟨s.toVector.set index (f s.toVector[index])⟩ else s

/-- Writes the key of a slot. -/
def setKey (index : Nat) (key : Word k) : Prog (Slots k v L) Unit :=
  update index fun c => { c with key }

/-- Writes the value of a slot. -/
def setValue (index : Nat) (value : Word v) : Prog (Slots k v L) Unit :=
  update index fun c => { c with value }

/-- Replaces the key of a slot if it still is `current`. -/
def exchangeKey (index : Nat) (current new : Word k) : Prog (Slots k v L) Bool := do
  match Word.compareExchange (← keyAt index) current new with
  | (.ok _, key) => setKey index key; return true
  | (.error _, _) => return false

/-- The value of a slot that holds the key before and after the value is read. -/
def valueOf (index : Nat) (key : Word k) : Prog (Slots k v L) (Option (Word v)) := do
  if (← keyAt index) != key then
    return none
  let value ← valueAt index
  return if (← keyAt index) == key then some value else none

variable (g : Lanes)

/-- A vote on the candidates that hold the key. -/
def pollKey (key : Word k) (candidates : Mask) : Prog (Slots k v L) Mask := do
  Prog.probe candidates.count
  let hits ← g.poll L.slots fun i => do
    if candidates.has i then return (← keyAt i) == key else return false
  Prog.pause
  return hits

/-- The value of the first candidate that holds the key. -/
def find? (key : Word k) (candidates : Mask) : Prog (Slots k v L) (Option (Word v)) := do
  let hits ← pollKey g key candidates
  hits.indices.findSomeM? fun index => g.elect (g.owner index) fun _ => valueOf index key

/-- The first candidate that holds the key. -/
def findIndex? (key : Word k) (candidates : Mask) : Prog (Slots k v L) (Option Nat) := do
  let hits ← pollKey g key candidates
  return hits.indices.head?

/-- The elected lane of each candidate that holds the key tries `act`; the first success counts and
is followed by a pause. -/
def actOnKey (key : Word k) (candidates : Mask) (act : Nat → Prog (Slots k v L) Bool) :
    Prog (Slots k v L) (Option Nat) := do
  let hits ← pollKey g key candidates
  hits.indices.findSomeM? fun index => do
    if ← g.elect (g.owner index) fun _ => act index then
      Prog.pause
      return some index
    else
      return none

/-- Gives the key another value in the first candidate that still holds it. -/
def overwrite (key : Word k) (value : Word v) (candidates : Mask) :
    Prog (Slots k v L) (Option Nat) :=
  actOnKey g key candidates fun index => do
    if ← exchangeKey index key key then
      setValue index value
      return true
    else
      return false

/-- Replaces the key in the first candidate that holds it with an accepted value. -/
def rekey (key replacement : Word k) (accept : Word v → Bool) (candidates : Mask) :
    Prog (Slots k v L) (Option Nat) :=
  actOnKey g key candidates fun index => do
    if accept (← valueAt index) then exchangeKey index key replacement else return false

variable (r : ReservedKeys k)

/-- Removes the key. -/
def erase (key : Word k) (candidates : Mask) : Prog (Slots k v L) (Option Nat) :=
  rekey g key r.tombstone (fun _ => true) candidates

/-- Removes the key if it has that value. -/
def erasePair (key : Word k) (value : Word v) (candidates : Mask) :
    Prog (Slots k v L) (Option Nat) :=
  rekey g key r.tombstone (· == value) candidates

/-- Takes the slot of a pair over. The caller publishes another pair in it. -/
def takePair (key : Word k) (value : Word v) (candidates : Mask) :
    Prog (Slots k v L) (Option Nat) :=
  rekey g key r.holding (· == value) candidates

/-- A vote on the slots that hold a pair. -/
def pollLive : Prog (Slots k v L) Mask := do
  Prog.probe 1
  let live ← g.poll L.slots fun i => do return !r.isReserved (← keyAt i)
  Prog.pause
  return live

/-- The pair in a slot, if there is one. -/
def readPair (index : Nat) : Prog (Slots k v L) (Option (Word k × Word v)) :=
  g.elect (g.owner index) fun _ => do
    let key ← keyAt index
    if r.isReserved key then
      return none
    else
      return (← valueOf index key).map (key, ·)

/-- Publishes a pair in a slot that the caller owns. -/
def publish (index : Nat) (key : Word k) (value : Word v) : Prog (Slots k v L) Unit := do
  g.elect (g.owner index) fun _ => do
    setKey index r.holding
    setValue index value
    setKey index key
  Prog.pause

end Slots

end TwoChoice
