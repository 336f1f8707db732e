import TwoChoice.Table.Store

/-!
# Picking entries

Two ways to pick an entry from the candidate buckets of a key, for instance to make room for it: at
random by a salt, or the one whose key has the smallest hash.
-/

set_option autoImplicit false

namespace TwoChoice

namespace Config

variable {k v : Width} (c : Config k) (g : Group)

/-- A live entry of the candidate buckets: the search starts at the one that the salt chooses and
goes round. Entries that were removed since the vote are passed over. -/
def pick (key : Word k) (salt : UInt64) :
    Prog (Cells k v c.shape) (Option (Word k × Word v)) := do
  let cands := c.candidates key
  let primary ← c.atSlots cands.primary (Slots.pollLive (v := v) g.toLanes c.reserved)
  let secondary ←
    if cands.secondary = cands.primary then pure 0
    else c.atSlots cands.secondary (Slots.pollLive (v := v) g.toLanes c.reserved)
  let live := primary.indices.map (cands.primary, ·) ++ secondary.indices.map (cands.secondary, ·)
  if live.isEmpty then
    return none
  else
    let start := (Word.hash (w := .w64) salt.toBitVec c.seed).toNat % live.length
    (live.drop start ++ live.take start).findSomeM? fun (b, index) =>
      c.atSlots b (Slots.readPair g.toLanes c.reserved index)

/-- The first of the two whose hash is not larger. -/
def lesser (a : Option (UInt64 × Word k × Word v)) (b : UInt64 × Word k × Word v) :
    Option (UInt64 × Word k × Word v) :=
  match a with
  | none => some b
  | some a => if b.1 < a.1 then some b else some a

/-- The entry of the candidate buckets with the smallest hash, if that is below the hash of the
key. -/
def pickSmaller (key : Word k) : Prog (Cells k v c.shape) (Option (Word k × Word v)) := do
  let smallest ← (c.candidates key).distinct.foldlM (fun smallest b => do
    let live ← c.atSlots b (Slots.pollLive (v := v) g.toLanes c.reserved)
    live.indices.foldlM (fun smallest index => do
      match ← c.atSlots b (Slots.readPair g.toLanes c.reserved index) with
      | none => return smallest
      | some (key, value) => return lesser smallest (Word.hash key c.seed, key, value)) smallest)
    none
  return (smallest.filter fun e => e.1 < Word.hash key c.seed).map (·.2)

end Config

end TwoChoice
