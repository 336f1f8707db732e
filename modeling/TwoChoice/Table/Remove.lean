import TwoChoice.Table.Store

/-!
# Removing and exchanging

A removal swaps the key in its slot for the tombstone key and then buries the tag. An exchange hands
the slot of one pair over to another: the old key gives way to the holding key, the slot gets the
tag of the new key, and the new pair is published in it.
-/

set_option autoImplicit false

namespace TwoChoice

namespace Config

variable {k v : Width} (c : Config k) (g : Group)

/-- Removes the key, or only the given pair of it, holding the lock of the primary bucket if
`locked`. -/
def erase (key : Word k) (value : Option (Word v)) (locked : Bool) :
    Prog (Cells k v c.shape) Bool :=
  let cands := c.candidates key
  c.withLocks g.toLanes (if locked then [cands.primary.val] else []) do
    let erased ← cands.distinct.findSomeM? fun b => do
      let census ← c.atTags b (Tags.scan g.toLanes (Tag.ofKey key))
      if census.matching == 0 then
        return none
      else
        let erased ← c.atSlots b <|
          match value with
          | none => Slots.erase g.toLanes c.reserved key census.matching
          | some value => Slots.erasePair g.toLanes c.reserved key value census.matching
        match erased with
        | none => return none
        | some index =>
          c.atTags b (Tags.bury g.toLanes index)
          return some index
    return erased.isSome

/-- Hands the slot of the old pair over to the new one, if the candidate buckets of the new key hold
the old pair. -/
def handOver (key : Word k) (value : Word v) (oldKey : Word k) (oldValue : Word v) :
    Prog (Cells k v c.shape) Bool := do
  let taken ← (c.candidates key).distinct.findSomeM? fun b => do
    let census ← c.atTags b (Tags.scan g.toLanes (Tag.ofKey oldKey))
    if census.matching == 0 then
      return none
    else
      match ← c.atSlots b
          (Slots.takePair g.toLanes c.reserved oldKey oldValue census.matching) with
      | none => return none
      | some index =>
        c.atTags b (Tags.retag g.toLanes index (Tag.ofKey key))
        c.atSlots b (Slots.publish g.toLanes c.reserved index key value)
        return some index
  return taken.isSome

/-- Stores a pair in the slot of the old pair. A key that is present gets the value in place if
`update`, and nothing happens otherwise. The locks of both keys are held. -/
def exchange (key : Word k) (value : Word v) (oldKey : Word k) (oldValue : Word v)
    (update : Bool) : Prog (Cells k v c.shape) Bool := do
  Prog.require (c.reserved.isReserved key = false) (.reservedKey key.toNat)
  let cands := c.candidates key
  c.withLocks g.toLanes
      (Locks.order cands.primary.val (c.candidates oldKey).primary.val) do
    if ← cands.distinct.anyM fun b => do
        let census ← c.atTags b (Tags.scan g.toLanes (Tag.ofKey key))
        lookFor c g b key value census update then
      return update
    else
      handOver c g key value oldKey oldValue

end Config

end TwoChoice
