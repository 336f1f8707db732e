import TwoChoice.Candidates
import TwoChoice.Murmur
import TwoChoice.Locks
import TwoChoice.Slots

/-!
# Tables

A table is a fixed number of buckets with the lock bits of these buckets. `Config` is what stays the
same while operations run: the shape, the seed of the hash and the reserved keys. `Cells` is
what they change. The views (`placed`, `entries`, `size`, `occupancy`, `holds`) say what a table
holds without running any operation.
-/

set_option autoImplicit false

namespace TwoChoice

/-- The number and the length of the buckets. -/
structure Shape where
  len : BucketLen
  count : Nat
  pos : 0 < count

/-- The number of slots. -/
def Shape.capacity (sh : Shape) : Nat := sh.count * sh.len.slots

/-- The buckets that hold at least `capacity` pairs, one bucket at least. -/
def Shape.ofCapacity (len : BucketLen) (capacity : Nat) : Shape where
  len := len
  count := max ((capacity + len.slots - 1) / len.slots) 1
  pos := by omega

/-- What stays the same while operations run. -/
structure Config (k : Width) where
  shape : Shape
  /-- The seed of the hash that chooses the candidate buckets. -/
  seed : UInt64
  reserved : ReservedKeys k

/-- A bucket: its tags, and its slots. -/
structure Bucket (k v : Width) (L : BucketLen) where
  tags : Tags L
  slots : Slots k v L
  deriving DecidableEq

namespace Bucket

variable {k v : Width} {L : BucketLen}

/-- A bucket that was never used. -/
def fresh (r : ReservedKeys k) : Bucket k v L := ⟨Tags.fresh, Slots.fresh r⟩

/-- Resets every slot and every tag. -/
def clear (r : ReservedKeys k) (b : Bucket k v L) : Bucket k v L := ⟨b.tags.clear, b.slots.clear r⟩

/-- The tags of a bucket. -/
def tagsLens : Lens (Bucket k v L) (Tags L) where
  get b := b.tags
  set t b := { b with tags := t }
  get_set _ _ := rfl
  set_get _ := rfl
  set_set _ _ _ := rfl

/-- The slots of a bucket. -/
def slotsLens : Lens (Bucket k v L) (Slots k v L) where
  get b := b.slots
  set s b := { b with slots := s }
  get_set _ _ := rfl
  set_get _ := rfl
  set_set _ _ _ := rfl

end Bucket

/-- What operations change: the buckets and their locks. -/
structure Cells (k v : Width) (sh : Shape) where
  buckets : Vector (Bucket k v sh.len) sh.count
  locks : Locks sh.count
  deriving DecidableEq

namespace Cells

variable {k v : Width} {sh : Shape}

/-- No entries and no locks. -/
def fresh (r : ReservedKeys k) : Cells k v sh :=
  ⟨Vector.replicate sh.count (Bucket.fresh r), Locks.fresh⟩

/-- Removes every entry and releases every lock. -/
def clear (r : ReservedKeys k) (s : Cells k v sh) : Cells k v sh :=
  ⟨s.buckets.map (Bucket.clear r), s.locks.clear⟩

/-- The buckets of a table. -/
def bucketsLens : Lens (Cells k v sh) (Vector (Bucket k v sh.len) sh.count) where
  get s := s.buckets
  set b s := { s with buckets := b }
  get_set _ _ := rfl
  set_get _ := rfl
  set_set _ _ _ := rfl

/-- The locks of a table. -/
def locksLens : Lens (Cells k v sh) (Locks sh.count) where
  get s := s.locks
  set t s := { s with locks := t }
  get_set _ _ := rfl
  set_get _ := rfl
  set_set _ _ _ := rfl

/-- One bucket. -/
def bucketLens (b : Fin sh.count) : Lens (Cells k v sh) (Bucket k v sh.len) :=
  bucketsLens.comp (Lens.index b)

/-- The tags of one bucket. -/
def tagsLens (b : Fin sh.count) : Lens (Cells k v sh) (Tags sh.len) :=
  (bucketLens b).comp Bucket.tagsLens

/-- The slots of one bucket. -/
def slotsLens (b : Fin sh.count) : Lens (Cells k v sh) (Slots k v sh.len) :=
  (bucketLens b).comp Bucket.slotsLens

/-- A bucket of a table. -/
def bucket (s : Cells k v sh) (b : Fin sh.count) : Bucket k v sh.len := s.buckets[b]

/-- The live entries as bucket, slot, key and value, bucket by bucket and in slot order. -/
def placed (r : ReservedKeys k) (s : Cells k v sh) :
    List (Fin sh.count × Nat × Word k × Word v) :=
  (List.finRange sh.count).flatMap fun b => (s.buckets[b].slots.live r).map (b, ·)

/-- The live entries. -/
def entries (r : ReservedKeys k) (s : Cells k v sh) : List (Word k × Word v) :=
  (s.placed r).map (·.2.2)

/-- The number of live entries. -/
def size (r : ReservedKeys k) (s : Cells k v sh) : Nat := (s.entries r).length

/-- The entries by key, those of one key by value. -/
def sortedEntries (r : ReservedKeys k) (s : Cells k v sh) : List (Word k × Word v) :=
  (s.entries r).mergeSort fun a b =>
    decide (a.1.toNat < b.1.toNat) || (a.1 == b.1 && decide (a.2.toNat ≤ b.2.toNat))

/-- The number of slots of a bucket that are neither empty nor a tombstone by their tag. -/
def occupancy (s : Cells k v sh) (b : Fin sh.count) : Nat := s.buckets[b].tags.occupancy

/-- Whether the bucket holds the key as a live entry. -/
def holds (r : ReservedKeys k) (s : Cells k v sh) (b : Fin sh.count) (key : Word k) : Bool :=
  (s.buckets[b].slots.live r).any fun e => e.2.1 == key

end Cells

namespace Config

variable {k v : Width} {α : Type} (c : Config k)

/-- The candidate buckets of a key. -/
def candidates (key : Word k) : Candidates (Fin c.shape.count) :=
  .ofHash (Word.hash key c.seed) c.shape.pos

/-- A program on the tags of a bucket. -/
def atTags (b : Fin c.shape.count) (p : Prog (Tags c.shape.len) α) :
    Prog (Cells k v c.shape) α :=
  p.zoom (Cells.tagsLens b)

/-- A program on the slots of a bucket. -/
def atSlots (b : Fin c.shape.count) (p : Prog (Slots k v c.shape.len) α) :
    Prog (Cells k v c.shape) α :=
  p.zoom (Cells.slotsLens b)

/-- Holds the locks of the buckets while `body` runs. -/
def withLocks (g : Lanes) (buckets : List Nat) (body : Prog (Cells k v c.shape) α) :
    Prog (Cells k v c.shape) α :=
  Locks.withLocks g Cells.locksLens buckets body

/-- The candidate bucket that holds the key as a live entry. -/
def locate? (key : Word k) (s : Cells k v c.shape) : Option (Fin c.shape.count) :=
  (c.candidates key).distinct.find? fun b => s.holds c.reserved b key

end Config

end TwoChoice
