import TwoChoice.Table.Basic
import TwoChoice.Proofs.Tags
import TwoChoice.Proofs.Locks

/-!
# Tables place by place

A `Place` is a slot of a table. The cells of a table are read by the tag and the slot at each place
(`Cells.tag`, `Cells.slot`) and changed by `Cells.putTag` and `Cells.putSlot`, which touch one place
and no lock.
-/

set_option autoImplicit false

namespace TwoChoice

/-- A slot of a table. -/
@[ext]
structure Place (sh : Shape) where
  bucket : Fin sh.count
  index : Fin sh.len.slots
  deriving DecidableEq

/-- The slot at an index. -/
def Slots.get {k v : Width} {L : BucketLen} (t : Slots k v L) (i : Fin L.slots) : Slot k v :=
  t.toVector[i]

/-- The slots with another one at an index. -/
def Slots.put {k v : Width} {L : BucketLen} (t : Slots k v L) (i : Fin L.slots) (x : Slot k v) :
    Slots k v L :=
  ⟨t.toVector.set i x⟩

theorem get_set_fin {α : Type} {n : Nat} (xs : Vector α n) (i j : Fin n) (x : α) :
    (xs.set i x i.isLt).get j = if i = j then x else xs.get j := by
  refine (Vector.getElem_set i.isLt j.isLt).trans ?_
  by_cases h : i = j
  · rw [if_pos (congrArg Fin.val h), if_pos h]
  · rw [if_neg fun he => h (Fin.ext he), if_neg h]
    rfl

theorem Slots.get_put {k v : Width} {L : BucketLen} (t : Slots k v L) (i j : Fin L.slots)
    (x : Slot k v) : (t.put i x).get j = if i = j then x else t.get j :=
  get_set_fin t.toVector i j x

theorem Slots.put_get_self {k v : Width} {L : BucketLen} (t : Slots k v L) (i : Fin L.slots) :
    t.put i (t.get i) = t :=
  congrArg Slots.mk (Vector.set_getElem_self i.isLt)

namespace Cells

variable {k v : Width} {sh : Shape}

/-- The tag at a place. -/
def tag (s : Cells k v sh) (p : Place sh) : Tag := (s.bucket p.bucket).tags.get p.index

/-- The slot at a place. -/
def slot (s : Cells k v sh) (p : Place sh) : Slot k v := (s.bucket p.bucket).slots.get p.index

/-- The key at a place. -/
def key (s : Cells k v sh) (p : Place sh) : Word k := (s.slot p).key

/-- The value at a place. -/
def value (s : Cells k v sh) (p : Place sh) : Word v := (s.slot p).value

/-- The cells with another tag at a place. -/
def putTag (s : Cells k v sh) (p : Place sh) (t : Tag) : Cells k v sh :=
  (tagsLens p.bucket).set ((s.bucket p.bucket).tags.set p.index t) s

/-- The cells with another slot at a place. -/
def putSlot (s : Cells k v sh) (p : Place sh) (x : Slot k v) : Cells k v sh :=
  (slotsLens p.bucket).set ((s.bucket p.bucket).slots.put p.index x) s

/-- The cells with other locks. -/
def setLocks (s : Cells k v sh) (l : Locks sh.count) : Cells k v sh := { s with locks := l }

/-! ## Equality -/

/-- Cells with the same buckets and the same locks are the same. -/
theorem ext_buckets {s s' : Cells k v sh} (hbuckets : ∀ b, s'.bucket b = s.bucket b)
    (hlocks : s'.locks = s.locks) : s' = s := by
  obtain ⟨buckets, locks⟩ := s
  obtain ⟨buckets', locks'⟩ := s'
  obtain rfl : locks' = locks := hlocks
  congr 1
  apply Vector.ext
  intro i hi
  exact hbuckets ⟨i, hi⟩

/-- Cells that are the same at every place and have the same locks are the same. -/
theorem ext_places {s s' : Cells k v sh} (htag : ∀ p, s'.tag p = s.tag p)
    (hslot : ∀ p, s'.slot p = s.slot p) (hlocks : s'.locks = s.locks) : s' = s := by
  refine ext_buckets (fun b => ?_) hlocks
  have htags : (s'.bucket b).tags = (s.bucket b).tags :=
    Tags.ext_get fun i hi => htag ⟨b, ⟨i, hi⟩⟩
  have hslots : (s'.bucket b).slots = (s.bucket b).slots :=
    congrArg Slots.mk (Vector.ext fun i hi => hslot ⟨b, ⟨i, hi⟩⟩)
  calc s'.bucket b = ⟨(s'.bucket b).tags, (s'.bucket b).slots⟩ := rfl
    _ = ⟨(s.bucket b).tags, (s.bucket b).slots⟩ := by rw [htags, hslots]
    _ = s.bucket b := rfl

/-! ## Reading after writing -/

variable (s : Cells k v sh)

theorem bucket_set (b : Fin sh.count) (x : Bucket k v sh.len) (b' : Fin sh.count) :
    ((bucketLens b).set x s).bucket b' = if b = b' then x else s.bucket b' :=
  get_set_fin s.buckets b b' x

theorem bucket_putTag (p : Place sh) (t : Tag) (b : Fin sh.count) :
    (s.putTag p t).bucket b = if p.bucket = b then
      ⟨(s.bucket p.bucket).tags.set p.index t, (s.bucket p.bucket).slots⟩ else s.bucket b :=
  bucket_set s p.bucket _ b

theorem bucket_putSlot (p : Place sh) (x : Slot k v) (b : Fin sh.count) :
    (s.putSlot p x).bucket b = if p.bucket = b then
      ⟨(s.bucket p.bucket).tags, (s.bucket p.bucket).slots.put p.index x⟩ else s.bucket b :=
  bucket_set s p.bucket _ b

@[simp] theorem tag_putTag (p q : Place sh) (t : Tag) :
    (s.putTag p t).tag q = if p = q then t else s.tag q := by
  rw [tag, bucket_putTag]
  by_cases hb : p.bucket = q.bucket
  · rw [if_pos hb, Tags.get_set _ p.index.isLt]
    by_cases hi : p.index = q.index
    · rw [if_pos (congrArg Fin.val hi), if_pos (Place.ext hb hi)]
    · rw [if_neg fun h => hi (Fin.ext h), if_neg (by rintro rfl; exact hi rfl), tag, hb]
  · rw [if_neg hb, if_neg (by rintro rfl; exact hb rfl), tag]

@[simp] theorem slot_putTag (p q : Place sh) (t : Tag) : (s.putTag p t).slot q = s.slot q := by
  rw [slot, bucket_putTag, slot]
  by_cases hb : p.bucket = q.bucket
  · rw [if_pos hb, hb]
  · rw [if_neg hb]

@[simp] theorem tag_putSlot (p q : Place sh) (x : Slot k v) : (s.putSlot p x).tag q = s.tag q := by
  rw [tag, bucket_putSlot, tag]
  by_cases hb : p.bucket = q.bucket
  · rw [if_pos hb, hb]
  · rw [if_neg hb]

@[simp] theorem slot_putSlot (p q : Place sh) (x : Slot k v) :
    (s.putSlot p x).slot q = if p = q then x else s.slot q := by
  rw [slot, bucket_putSlot]
  by_cases hb : p.bucket = q.bucket
  · rw [if_pos hb, Slots.get_put]
    by_cases hi : p.index = q.index
    · rw [if_pos hi, if_pos (Place.ext hb hi)]
    · rw [if_neg hi, if_neg (by rintro rfl; exact hi rfl), slot, hb]
  · rw [if_neg hb, if_neg (by rintro rfl; exact hb rfl), slot]

@[simp] theorem key_putTag (p q : Place sh) (t : Tag) : (s.putTag p t).key q = s.key q := by
  rw [key, slot_putTag, key]

@[simp] theorem key_putSlot (p q : Place sh) (x : Slot k v) :
    (s.putSlot p x).key q = if p = q then x.key else s.key q := by
  rw [key, slot_putSlot, key]
  split <;> rfl

@[simp] theorem locks_putTag (p : Place sh) (t : Tag) : (s.putTag p t).locks = s.locks := rfl

@[simp] theorem locks_putSlot (p : Place sh) (x : Slot k v) : (s.putSlot p x).locks = s.locks := rfl

@[simp] theorem tag_setLocks (l : Locks sh.count) (p : Place sh) : (s.setLocks l).tag p = s.tag p :=
  rfl

@[simp] theorem slot_setLocks (l : Locks sh.count) (p : Place sh) :
    (s.setLocks l).slot p = s.slot p := rfl

@[simp] theorem key_setLocks (l : Locks sh.count) (p : Place sh) : (s.setLocks l).key p = s.key p :=
  rfl

@[simp] theorem locks_setLocks (l : Locks sh.count) : (s.setLocks l).locks = l := rfl

theorem setLocks_setLocks (l l' : Locks sh.count) :
    (s.setLocks l).setLocks l' = s.setLocks l' := rfl

theorem setLocks_self : s.setLocks s.locks = s := rfl

/-! ## Writing after writing -/

theorem putSlot_putSlot (p : Place sh) (x y : Slot k v) :
    (s.putSlot p x).putSlot p y = s.putSlot p y := by
  have h : (s.putSlot p x).bucket p.bucket =
      ⟨(s.bucket p.bucket).tags, (s.bucket p.bucket).slots.put p.index x⟩ := by
    rw [bucket_putSlot, if_pos rfl]
  rw [putSlot, h]
  show (slotsLens p.bucket).set _ ((slotsLens p.bucket).set _ s) = _
  rw [Lens.set_set]
  simp only [Slots.put, Vector.set_set]
  rfl

theorem putSlot_putTag (p : Place sh) (x : Slot k v) (t : Tag) :
    (s.putSlot p x).putTag p t = (s.putTag p t).putSlot p x := by
  have hs : (s.putSlot p x).bucket p.bucket =
      ⟨(s.bucket p.bucket).tags, (s.bucket p.bucket).slots.put p.index x⟩ := by
    rw [bucket_putSlot, if_pos rfl]
  have ht : (s.putTag p t).bucket p.bucket =
      ⟨(s.bucket p.bucket).tags.set p.index t, (s.bucket p.bucket).slots⟩ := by
    rw [bucket_putTag, if_pos rfl]
  rw [putTag, hs]
  conv => rhs; rw [putSlot, ht]
  simp only [putSlot, putTag, slotsLens, tagsLens, Lens.comp, bucketLens, bucketsLens, Lens.index,
    Bucket.slotsLens, Bucket.tagsLens, Vector.set_set, Fin.getElem_fin, Vector.getElem_set_self]

theorem putSlot_self (p : Place sh) : s.putSlot p (s.slot p) = s := by
  have h : (s.bucket p.bucket).slots.put p.index (s.slot p) = (slotsLens p.bucket).get s :=
    Slots.put_get_self _ p.index
  rw [putSlot, h, Lens.set_get]

theorem putTag_self (p : Place sh) : s.putTag p (s.tag p) = s := by
  have h : (s.bucket p.bucket).tags.set p.index (s.tag p) = (tagsLens p.bucket).get s :=
    Tags.set_get _ p.index.isLt
  rw [putTag, h, Lens.set_get]

end Cells

end TwoChoice
