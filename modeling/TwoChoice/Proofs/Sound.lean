import Mathlib.Order.BooleanAlgebra.Set
import Mathlib.Logic.Relation
import TwoChoice.Proofs.Cells

/-!
# Sound tables

`c.Sound T s`: every slot outside `T` is settled, that is, free with the reserved key that goes with
its tag, or the only slot of a live key, in a candidate bucket of it and with its tag; the slots in
`T` are in transit between two pairs.

`c.Deed may s s'` is the effect of one complete operation that finds the right moment: it overwrites
a value, fills a free slot, empties one or hands one over, and it stores and removes keys in `may`
only. Deeds keep a table sound (`Deeds.sound`), leave slots in transit alone (`Deeds.same_of_mem`)
and do not touch other keys (`Deeds.same_of_key`, `Deeds.absent`).
-/

set_option autoImplicit false

namespace TwoChoice

namespace Cells

variable {k v : Width} {sh : Shape}

/-- The tag at the place says that the slot may be taken. -/
def Free (s : Cells k v sh) (p : Place sh) : Prop :=
  s.tag p = Tag.empty ∨ s.tag p = Tag.tombstone

instance (s : Cells k v sh) (p : Place sh) : Decidable (s.Free p) :=
  inferInstanceAs (Decidable (_ ∨ _))

/-- No slot holds the key. -/
def Absent (s : Cells k v sh) (key : Word k) : Prop := ∀ p, s.key p ≠ key

/-- The cells with a pair and its tag at a place. -/
def fill (s : Cells k v sh) (p : Place sh) (key : Word k) (value : Word v) : Cells k v sh :=
  (s.putTag p (Tag.ofKey key)).putSlot p ⟨key, value⟩

/-- The cells with another key at a place; the value and the tag stay. -/
def vacate (s : Cells k v sh) (p : Place sh) (key : Word k) : Cells k v sh :=
  s.putSlot p ⟨key, s.value p⟩

@[simp] theorem tag_fill (s : Cells k v sh) (p q : Place sh) (key : Word k) (value : Word v) :
    (s.fill p key value).tag q = if p = q then Tag.ofKey key else s.tag q := by
  simp [fill]

@[simp] theorem slot_fill (s : Cells k v sh) (p q : Place sh) (key : Word k) (value : Word v) :
    (s.fill p key value).slot q = if p = q then ⟨key, value⟩ else s.slot q := by
  simp [fill]

@[simp] theorem key_fill (s : Cells k v sh) (p q : Place sh) (key : Word k) (value : Word v) :
    (s.fill p key value).key q = if p = q then key else s.key q := by
  simp [fill]

@[simp] theorem locks_fill (s : Cells k v sh) (p : Place sh) (key : Word k) (value : Word v) :
    (s.fill p key value).locks = s.locks := rfl

@[simp] theorem tag_vacate (s : Cells k v sh) (p q : Place sh) (key : Word k) :
    (s.vacate p key).tag q = s.tag q := by
  simp [vacate]

@[simp] theorem slot_vacate (s : Cells k v sh) (p q : Place sh) (key : Word k) :
    (s.vacate p key).slot q = if p = q then ⟨key, s.value p⟩ else s.slot q := by
  simp [vacate]

@[simp] theorem key_vacate (s : Cells k v sh) (p q : Place sh) (key : Word k) :
    (s.vacate p key).key q = if p = q then key else s.key q := by
  simp [vacate]

@[simp] theorem locks_vacate (s : Cells k v sh) (p : Place sh) (key : Word k) :
    (s.vacate p key).locks = s.locks := rfl

theorem key_eq_of_slot_eq {s s' : Cells k v sh} {p : Place sh} (h : s'.slot p = s.slot p) :
    s'.key p = s.key p := congrArg Slot.key h

end Cells

namespace Config

variable {k v : Width} (c : Config k)

/-- The key may name an entry. -/
def Live (key : Word k) : Prop := c.reserved.isReserved key = false

instance (key : Word k) : Decidable (c.Live key) := inferInstanceAs (Decidable (_ = _))

/-- The key may lie in the bucket. -/
def MayLie (key : Word k) (b : Fin c.shape.count) : Prop := b ∈ (c.candidates key).distinct

instance (key : Word k) (b : Fin c.shape.count) : Decidable (c.MayLie key b) :=
  inferInstanceAs (Decidable (_ ∈ _))

variable {c}

theorem live_iff {key : Word k} :
    c.Live key ↔
      key ≠ c.reserved.empty ∧ key ≠ c.reserved.tombstone ∧ key ≠ c.reserved.holding := by
  simp [Live, ReservedKeys.isReserved, and_assoc]

theorem Live.ne_empty {key : Word k} (h : c.Live key) : key ≠ c.reserved.empty := (live_iff.1 h).1

theorem Live.ne_tombstone {key : Word k} (h : c.Live key) : key ≠ c.reserved.tombstone :=
  (live_iff.1 h).2.1

theorem Live.ne_holding {key : Word k} (h : c.Live key) : key ≠ c.reserved.holding :=
  (live_iff.1 h).2.2

theorem mayLie_iff {key : Word k} {b : Fin c.shape.count} :
    c.MayLie key b ↔ b = (c.candidates key).primary ∨ b = (c.candidates key).secondary := by
  rw [MayLie, Candidates.distinct]
  split
  · rename_i h
    simp [h]
  · simp

variable (c)

/-- A slot at rest: its tag, its key and its bucket go together. -/
inductive Settled (s : Cells k v c.shape) (p : Place c.shape) : Prop
  | empty (tag : s.tag p = Tag.empty) (key : s.key p = c.reserved.empty)
  | tombstone (tag : s.tag p = Tag.tombstone) (key : s.key p = c.reserved.tombstone)
  | entry (live : c.Live (s.key p)) (tag : s.tag p = Tag.ofKey (s.key p))
      (bucket : c.MayLie (s.key p) p.bucket)

/-- A slot between two pairs: nobody may take it and nobody finds a pair in it. -/
structure InTransit (s : Cells k v c.shape) (p : Place c.shape) : Prop where
  taken : ¬ s.Free p
  key : s.key p = c.reserved.tombstone ∨ s.key p = c.reserved.holding

/-- All slots but those in `T` are at rest, and a live key has one slot at most. -/
structure Sound (T : Set (Place c.shape)) (s : Cells k v c.shape) : Prop where
  settled : ∀ p, p ∉ T → c.Settled s p
  transit : ∀ p, p ∈ T → c.InTransit s p
  unique : ∀ p q, c.Live (s.key p) → s.key p = s.key q → p = q

variable {c}

theorem not_live_tombstone : ¬ c.Live c.reserved.tombstone := fun h => h.ne_tombstone rfl

theorem not_live_holding : ¬ c.Live c.reserved.holding := fun h => h.ne_holding rfl

theorem not_live_empty : ¬ c.Live c.reserved.empty := fun h => h.ne_empty rfl

theorem InTransit.not_live {s : Cells k v c.shape} {p : Place c.shape} (h : c.InTransit s p) :
    ¬ c.Live (s.key p) := by
  rcases h.key with hk | hk
  · rw [hk]
    exact not_live_tombstone
  · rw [hk]
    exact not_live_holding

namespace Sound

variable {T T' : Set (Place c.shape)} {s s' : Cells k v c.shape} {p q : Place c.shape}

/-- A slot with a live key is at rest. -/
theorem not_mem_of_live (h : c.Sound T s) (hl : c.Live (s.key p)) : p ∉ T :=
  fun hp => (h.transit p hp).not_live hl

theorem tag_eq (h : c.Sound T s) (hl : c.Live (s.key p)) : s.tag p = Tag.ofKey (s.key p) := by
  cases h.settled p (h.not_mem_of_live hl) with
  | empty _ hk => exact absurd (hk ▸ hl) not_live_empty
  | tombstone _ hk => exact absurd (hk ▸ hl) not_live_tombstone
  | entry _ ht _ => exact ht

theorem mayLie (h : c.Sound T s) (hl : c.Live (s.key p)) : c.MayLie (s.key p) p.bucket := by
  cases h.settled p (h.not_mem_of_live hl) with
  | empty _ hk => exact absurd (hk ▸ hl) not_live_empty
  | tombstone _ hk => exact absurd (hk ▸ hl) not_live_tombstone
  | entry _ _ hb => exact hb

theorem not_free_of_live (h : c.Sound T s) (hl : c.Live (s.key p)) : ¬ s.Free p := by
  rw [Cells.Free, h.tag_eq hl]
  exact fun hf => hf.elim (Tag.ofKey_ne_empty _) (Tag.ofKey_ne_tombstone _)

/-- A free slot is at rest and holds no pair. -/
theorem not_mem_of_free (h : c.Sound T s) (hf : s.Free p) : p ∉ T :=
  fun hp => (h.transit p hp).taken hf

theorem not_live_of_free (h : c.Sound T s) (hf : s.Free p) : ¬ c.Live (s.key p) :=
  fun hl => h.not_free_of_live hl hf

/-- A slot at rest that may not be taken holds a pair. -/
theorem live_of_not_free (h : c.Sound T s) (hp : p ∉ T) (hf : ¬ s.Free p) : c.Live (s.key p) := by
  cases h.settled p hp with
  | empty ht _ => exact absurd (.inl ht) hf
  | tombstone ht _ => exact absurd (.inr ht) hf
  | entry hl _ _ => exact hl

/-- **A change of one slot keeps a table sound** if the slot is then what it should be and shares no
live key with another slot. -/
theorem update (h : c.Sound T s)
    (hsame : ∀ q, q ≠ p → s'.tag q = s.tag q ∧ s'.slot q = s.slot q)
    (hT : ∀ q, q ≠ p → (q ∈ T' ↔ q ∈ T)) (hrest : p ∉ T' → c.Settled s' p)
    (hin : p ∈ T' → c.InTransit s' p)
    (huniq : c.Live (s'.key p) → ∀ q, q ≠ p → s.key q ≠ s'.key p) : c.Sound T' s' := by
  have hkey : ∀ q, q ≠ p → s'.key q = s.key q := fun q hq =>
    Cells.key_eq_of_slot_eq (hsame q hq).2
  refine ⟨fun q hq => ?_, fun q hq => ?_, fun q r hl hqr => ?_⟩
  · by_cases hqp : q = p
    · subst hqp
      exact hrest hq
    · cases h.settled q (fun hm => hq ((hT q hqp).2 hm)) with
      | empty ht hk => exact .empty (by rw [(hsame q hqp).1, ht]) (by rw [hkey q hqp, hk])
      | tombstone ht hk => exact .tombstone (by rw [(hsame q hqp).1, ht]) (by rw [hkey q hqp, hk])
      | entry hl ht hb =>
        refine .entry ?_ ?_ ?_
        · rwa [hkey q hqp]
        · rw [(hsame q hqp).1, hkey q hqp, ht]
        · rwa [hkey q hqp]
  · by_cases hqp : q = p
    · subst hqp
      exact hin hq
    · obtain ⟨hfree, hk⟩ := h.transit q ((hT q hqp).1 hq)
      exact ⟨by rwa [Cells.Free, (hsame q hqp).1], by rwa [hkey q hqp]⟩
  · by_cases hqp : q = p
    · subst hqp
      apply Classical.byContradiction
      intro hne
      have hr : r ≠ q := fun he => hne he.symm
      exact huniq hl r hr (by rw [hqr, hkey r hr])
    · by_cases hrp : r = p
      · subst hrp
        exact absurd (by rw [← hkey q hqp, hqr]) (huniq (hqr ▸ hl) q hqp)
      · rw [hkey q hqp] at hl hqr
        rw [hkey r hrp] at hqr
        exact h.unique q r hl hqr

/-- A table stays sound when its locks change. -/
theorem setLocks (h : c.Sound T s) (l : Locks c.shape.count) : c.Sound T (s.setLocks l) :=
  h.update (p := ⟨⟨0, c.shape.pos⟩, ⟨0, by have := c.shape.len.pos; unfold BucketLen.slots; omega⟩⟩)
    (fun _ _ => ⟨rfl, rfl⟩) (fun _ _ => Iff.rfl)
    (fun hp => by
      cases h.settled _ hp with
      | empty ht hk => exact .empty ht hk
      | tombstone ht hk => exact .tombstone ht hk
      | entry hl ht hb => exact .entry hl ht hb)
    (fun hp => ⟨(h.transit _ hp).1, (h.transit _ hp).2⟩)
    (fun hl q hq he => hq (h.unique _ _ hl he.symm).symm)

/-! ### One slot changes -/

theorem overwrite (h : c.Sound T s) (hl : c.Live (s.key p)) (value : Word v) :
    c.Sound T (s.putSlot p ⟨s.key p, value⟩) := by
  have hp := h.not_mem_of_live hl
  refine h.update (p := p) (fun q hq => ?_) (fun _ _ => Iff.rfl) (fun _ => ?_)
    (fun hm => absurd hm hp) (fun _ q hq he => ?_)
  · simp [Ne.symm hq]
  · refine .entry ?_ ?_ ?_
    · simpa using hl
    · simpa using h.tag_eq hl
    · simpa using h.mayLie hl
  · simp only [Cells.key_putSlot, if_true] at he
    exact hq (h.unique p q hl he.symm).symm

/-- A slot in transit or free takes a pair whose key no other slot holds. -/
theorem fill (h : c.Sound T s) {key : Word k} (value : Word v) (hl : c.Live key)
    (hb : c.MayLie key p.bucket) (habs : ∀ q, q ≠ p → s.key q ≠ key) :
    c.Sound (T \ {p}) (s.fill p key value) := by
  refine h.update (p := p) (fun q hq => ?_) (fun q hq => ?_) (fun _ => ?_)
    (fun hm => absurd rfl hm.2) (fun _ q hq => ?_)
  · simp [Ne.symm hq]
  · simp [hq]
  · refine .entry ?_ ?_ ?_
    · simpa using hl
    · simp
    · simpa using hb
  · simpa using habs q hq

/-- A slot with a live key gives it up and is in transit then. -/
theorem vacate (h : c.Sound T s) (hl : c.Live (s.key p)) {key : Word k}
    (hk : key = c.reserved.tombstone ∨ key = c.reserved.holding) :
    c.Sound (insert p T) (s.vacate p key) := by
  refine h.update (p := p) (fun q hq => ?_) (fun q hq => ?_) (fun hm => absurd ?_ hm)
    (fun _ => ⟨?_, ?_⟩) (fun hl' => ?_)
  · simp [Ne.symm hq]
  · simp [hq]
  · exact Set.mem_insert p T
  · simpa [Cells.Free] using h.not_free_of_live hl
  · simpa using hk
  · exfalso
    simp only [Cells.key_vacate, if_true] at hl'
    rcases hk with rfl | rfl
    · exact not_live_tombstone hl'
    · exact not_live_holding hl'

/-- A slot in transit with the tombstone key comes to rest under the tombstone tag. -/
theorem bury (h : c.Sound T s) (hk : s.key p = c.reserved.tombstone) :
    c.Sound (T \ {p}) (s.putTag p Tag.tombstone) := by
  refine h.update (p := p) (fun q hq => ?_) (fun q hq => ?_) (fun _ => ?_)
    (fun hm => absurd rfl hm.2) (fun hl' => ?_)
  · simp [Ne.symm hq]
  · simp [hq]
  · exact .tombstone (by simp) (by simpa using hk)
  · exfalso
    rw [Cells.key_putTag, hk] at hl'
    exact not_live_tombstone hl'

/-- A slot in transit stays so under the tag of another key. -/
theorem retag (h : c.Sound T s) (hp : p ∈ T) (key : Word k) :
    c.Sound T (s.putTag p (Tag.ofKey key)) := by
  refine h.update (p := p) (fun q hq => ?_) (fun _ _ => Iff.rfl) (fun hm => absurd hp hm)
    (fun _ => ⟨?_, ?_⟩) (fun hl' => ?_)
  · simp [Ne.symm hq]
  · simp [Cells.Free, Tag.ofKey_ne_empty, Tag.ofKey_ne_tombstone]
  · simpa using (h.transit p hp).key
  · rw [Cells.key_putTag] at hl'
    exact absurd hl' (h.transit p hp).not_live

end Sound

/-! ## Deeds -/

variable (c)

/-- What one complete operation does to a table, if it does anything. It stores and removes only
keys in `may`. -/
inductive Deed (may : Word k → Prop) : Cells k v c.shape → Cells k v c.shape → Prop
  | overwrite {s : Cells k v c.shape} {p : Place c.shape} (value : Word v) (allowed : may (s.key p))
      (live : c.Live (s.key p)) : Deed may s (s.putSlot p ⟨s.key p, value⟩)
  | insert {s : Cells k v c.shape} {p : Place c.shape} {key : Word k} (value : Word v)
      (allowed : may key) (live : c.Live key) (absent : s.Absent key) (free : s.Free p)
      (bucket : c.MayLie key p.bucket) : Deed may s (s.fill p key value)
  | remove {s : Cells k v c.shape} {p : Place c.shape} (allowed : may (s.key p))
      (live : c.Live (s.key p)) :
      Deed may s ((s.vacate p c.reserved.tombstone).putTag p Tag.tombstone)
  | handOver {s : Cells k v c.shape} {p : Place c.shape} {key : Word k} (value : Word v)
      (old : may (s.key p)) (oldLive : c.Live (s.key p)) (allowed : may key) (live : c.Live key)
      (absent : s.Absent key) (bucket : c.MayLie key p.bucket) : Deed may s (s.fill p key value)

/-- Some deeds, one after the other. -/
abbrev Deeds (may : Word k → Prop) : Cells k v c.shape → Cells k v c.shape → Prop :=
  Relation.ReflTransGen (c.Deed may)

variable {c}
variable {may : Word k → Prop} {T : Set (Place c.shape)} {s s' : Cells k v c.shape}

theorem Deed.mono {may' : Word k → Prop} (h : c.Deed may s s') (hm : ∀ key, may key → may' key) :
    c.Deed may' s s' := by
  cases h with
  | overwrite value ha hl => exact .overwrite value (hm _ ha) hl
  | insert value ha hl habs hf hb => exact .insert value (hm _ ha) hl habs hf hb
  | remove ha hl => exact .remove (hm _ ha) hl
  | handOver value ho hol ha hl habs hb => exact .handOver value (hm _ ho) hol (hm _ ha) hl habs hb

theorem Deed.locks (h : c.Deed may s s') : s'.locks = s.locks := by
  cases h <;> simp

theorem Deed.sound (h : c.Deed may s s') (hs : c.Sound T s) : c.Sound T s' := by
  cases h with
  | overwrite value ha hl => exact hs.overwrite hl value
  | @insert p key value ha hl habs hf hb =>
    have := hs.fill value hl hb (fun q _ => habs q)
    rwa [Set.sdiff_singleton_eq_self (hs.not_mem_of_free hf)] at this
  | @remove p ha hl =>
    have := (hs.vacate hl (.inl rfl)).bury (p := p) (by simp)
    rwa [Set.insert_sdiff_of_mem _ (Set.mem_singleton p),
      Set.sdiff_singleton_eq_self (hs.not_mem_of_live hl)] at this
  | @handOver p key value ho hol ha hl habs hb =>
    have := hs.fill value hl hb (fun q _ => habs q)
    rwa [Set.sdiff_singleton_eq_self (hs.not_mem_of_live hol)] at this

/-- A deed changes the slot of a key it may store or remove, or a free one. -/
theorem Deed.same (h : c.Deed may s s') {q : Place c.shape} (hf : ¬ s.Free q)
    (hq : c.Live (s.key q) → ¬ may (s.key q)) : s'.tag q = s.tag q ∧ s'.slot q = s.slot q := by
  have other : ∀ {p : Place c.shape}, c.Live (s.key p) → may (s.key p) → p ≠ q := by
    rintro p hl ha rfl
    exact hq hl ha
  cases h with
  | overwrite value ha hl => simp [other hl ha]
  | @insert p key value ha hl habs hfree hb =>
    have hpq : p ≠ q := by
      rintro rfl
      exact hf hfree
    simp [hpq]
  | remove ha hl => simp [other hl ha]
  | handOver value ho hol ha hl habs hb => simp [other hol ho]

theorem Deed.absent (h : c.Deed may s s') {key : Word k} (hl : c.Live key) (hm : ¬ may key)
    (habs : s.Absent key) : s'.Absent key := by
  intro q
  cases h with
  | @overwrite p value ha _ =>
    rw [Cells.key_putSlot]
    split
    · exact fun he => hm (he ▸ ha)
    · exact habs q
  | insert value ha _ _ _ _ =>
    rw [Cells.key_fill]
    split
    · exact fun he => hm (he ▸ ha)
    · exact habs q
  | remove ha _ =>
    rw [Cells.key_putTag, Cells.key_vacate]
    split
    · exact hl.ne_tombstone.symm
    · exact habs q
  | handOver value _ _ ha _ _ _ =>
    rw [Cells.key_fill]
    split
    · exact fun he => hm (he ▸ ha)
    · exact habs q

namespace Deeds

theorem locks (h : c.Deeds may s s') : s'.locks = s.locks := by
  induction h with
  | refl => rfl
  | tail _ hd ih => rw [hd.locks, ih]

theorem sound (h : c.Deeds may s s') (hs : c.Sound T s) : c.Sound T s' := by
  induction h with
  | refl => exact hs
  | tail _ hd ih => exact hd.sound ih

theorem mono {may' : Word k → Prop} (h : c.Deeds may s s') (hm : ∀ key, may key → may' key) :
    c.Deeds may' s s' :=
  Relation.ReflTransGen.mono (fun _ _ hd => Deed.mono hd hm) _ _ h

/-- Slots in transit stay as they are. -/
theorem same_of_mem (h : c.Deeds may s s') (hs : c.Sound T s) {q : Place c.shape} (hq : q ∈ T) :
    s'.tag q = s.tag q ∧ s'.slot q = s.slot q := by
  induction h with
  | refl => exact ⟨rfl, rfl⟩
  | tail hds hd ih =>
    have hin := (Deeds.sound hds hs).transit q hq
    obtain ⟨ht, hslot⟩ := hd.same hin.taken fun hl => absurd hl hin.not_live
    exact ⟨by rw [ht, ih.1], by rw [hslot, ih.2]⟩

/-- The slot of a key that must not be stored or removed stays as it is. -/
theorem same_of_key (h : c.Deeds may s s') (hs : c.Sound T s) {q : Place c.shape}
    (hl : c.Live (s.key q)) (hm : ¬ may (s.key q)) :
    s'.tag q = s.tag q ∧ s'.slot q = s.slot q := by
  induction h with
  | refl => exact ⟨rfl, rfl⟩
  | tail hds hd ih =>
    have hkey := Cells.key_eq_of_slot_eq ih.2
    obtain ⟨ht, hslot⟩ := hd.same ((Deeds.sound hds hs).not_free_of_live (hkey ▸ hl))
      fun _ => by rwa [hkey]
    exact ⟨by rw [ht, ih.1], by rw [hslot, ih.2]⟩

theorem absent (h : c.Deeds may s s') {key : Word k} (hl : c.Live key) (hm : ¬ may key)
    (habs : s.Absent key) : s'.Absent key := by
  induction h with
  | refl => exact habs
  | tail _ hd ih => exact hd.absent hl hm ih

/-- A key that must not be stored or removed keeps its place, or stays absent. -/
theorem key_iff (h : c.Deeds may s s') (hs : c.Sound T s) {key : Word k} (hl : c.Live key)
    (hm : ¬ may key) {p : Place c.shape} : s'.key p = key ↔ s.key p = key := by
  by_cases hex : ∃ q, s.key q = key
  · obtain ⟨q, rfl⟩ := hex
    have hq := Cells.key_eq_of_slot_eq (Deeds.same_of_key h hs hl hm).2
    constructor
    · intro hp
      have hpq : p = q := (Deeds.sound h hs).unique p q (by rwa [hp]) (by rw [hp, hq])
      rw [hpq]
    · intro hp
      rw [hs.unique p q (hp ▸ hl) hp, hq]
  · have habs : s.Absent key := fun q hq => hex ⟨q, hq⟩
    exact ⟨fun hp => absurd hp (Deeds.absent h hl hm habs p), fun hp => absurd hp (habs p)⟩

end Deeds

end Config

end TwoChoice
