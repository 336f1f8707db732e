import TwoChoice.Lanes
import TwoChoice.Word

/-!
# Tags

Every slot of a bucket has a 16-bit tag: empty, tombstone, or the tag of the key whose pair the slot
holds or is about to hold. Four tags share a 64-bit word. A scan reads all tags at once and votes
on them; a claim turns a free tag into that of a key and so reserves the slot.
-/

set_option autoImplicit false

namespace TwoChoice

/-- The length of a bucket: a multiple of four slots, up to 64, counted in words of four tags. -/
structure BucketLen where
  words : Nat
  pos : 0 < words
  le : words ≤ 16
  deriving DecidableEq

namespace BucketLen

/-- The number of slots. -/
def slots (L : BucketLen) : Nat := 4 * L.words

/-- The length with that many slots, if there is one. -/
def ofSlots? (n : Nat) : Option BucketLen :=
  if h : n % 4 = 0 ∧ 4 ≤ n ∧ n ≤ 64 then some ⟨n / 4, by omega, by omega⟩ else none

/-- The load below which a primary bucket takes every new key: three quarters of its slots. -/
def cutoff (L : BucketLen) : Nat := L.slots * 3 / 4

theorem slots_le (L : BucketLen) : L.slots ≤ 64 := by
  have := L.le
  unfold slots
  omega

end BucketLen

/-- The mark of a slot. -/
abbrev Tag : Type := UInt16

namespace Tag

/-- The tag of a slot that was never used. -/
def empty : Tag := 0

/-- The tag of a slot whose pair was removed. -/
def tombstone : Tag := 1

/-- The tag of a key: its low 16 bits, moved past the tags with a meaning of their own. -/
def ofKey {w : Width} (key : Word w) : Tag :=
  let low := UInt16.ofNat key.toNat
  if low = empty ∨ low = tombstone then 2 else low

/-- How far a tag is from the low end of its word. -/
def shift (index : Nat) : UInt64 := UInt64.ofNat (index % 4 * 16)

/-- The tag at `index` in its word. -/
def inWord (word : UInt64) (index : Nat) : Tag := (word >>> shift index).toUInt16

/-- The word with another tag at `index`. -/
def putInWord (word : UInt64) (index : Nat) (tag : Tag) : UInt64 :=
  (word &&& ~~~(0xFFFF <<< shift index)) ||| (tag.toUInt64 <<< shift index)

end Tag

/-- The tags of a bucket, four to a word. -/
structure Tags (L : BucketLen) where
  words : Vector UInt64 L.words
  deriving DecidableEq

/-- What a scan of the tags tells about the slots of a bucket. -/
structure Census where
  /-- Slots that were never used. -/
  empty : Mask := 0
  /-- Slots whose pair was removed. -/
  tombstone : Mask := 0
  /-- Slots with the tag of the key. -/
  matching : Mask := 0
  deriving DecidableEq, Repr

namespace Census

/-- The slots that a new pair may take. -/
def free (b : Census) : Mask := b.empty ||| b.tombstone

/-- The number of slots out of `len` that are not free. -/
def occupancy (b : Census) (len : Nat) : Nat := len - b.free.count

/-- The occupancy, where the free slots are no more than the slots. -/
def load {σ : Type} (b : Census) (len : Nat) : Prog σ Nat := do
  Prog.require (b.free.count ≤ len) .overflow
  return b.occupancy len

end Census

namespace Tags

variable {L : BucketLen}

/-- All tags empty. -/
def fresh : Tags L := ⟨Vector.replicate L.words 0⟩

/-- Resets every word. -/
def clear (t : Tags L) : Tags L := ⟨t.words.map fun _ => 0⟩

/-- The tag of a slot; past the end it is empty. -/
def get (t : Tags L) (index : Nat) : Tag := Tag.inWord (t.words[index / 4]?.getD 0) index

/-- The tags with another one for a slot. -/
def set (t : Tags L) (index : Nat) (tag : Tag) : Tags L :=
  ⟨t.words.setIfInBounds (index / 4) (Tag.putInWord (t.words[index / 4]?.getD 0) index tag)⟩

/-- The number of slots that are neither empty nor a tombstone. -/
def occupancy (t : Tags L) : Nat :=
  (List.range L.slots).countP fun i => t.get i != Tag.empty && t.get i != Tag.tombstone

variable (g : Lanes)

/-- Reads all tags once and votes on the empty, the tombstone and the matching ones. -/
def scan (tag : Tag) : Prog (Tags L) Census := do
  let tags ← Prog.gets id
  Prog.probe 1
  let empty ← g.poll L.slots fun i => pure (tags.get i == Tag.empty)
  let tombstone ← g.poll L.slots fun i => pure (tags.get i == Tag.tombstone)
  let matching ← g.poll L.slots fun i => pure (tags.get i == tag)
  Prog.pause
  return { empty, tombstone, matching }

/-- Replaces the tag of one slot if it still is `expected`. -/
def compareExchange (index : Nat) (expected new : Tag) : Prog (Tags L) Bool := do
  if (← Prog.gets (·.get index)) = expected then
    Prog.modify (·.set index new)
    return true
  else
    return false

/-- Tries the candidates from below until one of them has the `expected` tag, and turns that into
`tag`. -/
def claimFirst (expected tag : Tag) : List Nat → Prog (Tags L) (Option Nat)
  | [] => return none
  | index :: rest => do
    Prog.require (index < L.slots) (.noSuchSlot index)
    Prog.probe 1
    if ← g.elect (g.owner index) fun _ => compareExchange index expected tag then
      return some index
    else
      claimFirst expected tag rest

/-- Claims the first candidate that is still empty. -/
def claimEmpty (tag : Tag) (candidates : Mask) : Prog (Tags L) (Option Nat) :=
  claimFirst g Tag.empty tag candidates.indices

/-- Claims the first candidate that is still a tombstone. -/
def claimTombstone (tag : Tag) (candidates : Mask) : Prog (Tags L) (Option Nat) :=
  claimFirst g Tag.tombstone tag candidates.indices

/-- Gives a slot another tag. The caller owns the slot. -/
def retag (index : Nat) (tag : Tag) : Prog (Tags L) Unit := do
  g.elect (g.owner index) fun _ => do
    Prog.require (index < L.slots) (.noSuchSlot index)
    Prog.modify (·.set index tag)
  Prog.pause

/-- Marks a slot as one whose pair was removed. -/
def bury (index : Nat) : Prog (Tags L) Unit := retag g index Tag.tombstone

/-- The tag of a slot of the bucket. -/
def tagAt (index : Nat) : Prog (Tags L) Tag := do
  Prog.require (index < L.slots) (.noSuchSlot index)
  Prog.gets (·.get index)

end Tags

end TwoChoice
