import TwoChoice.Proofs.Seats

/-!
# Keys that no table holds

A slot whose tag is that of a key holds a live key. So with nobody else there a reserved key is
never taken out of a slot, not even where its tag matches: a removal of it removes nothing
(`erase_reserved`), and an exchange against it comes to nothing unless the new key is present
(`exchange_against_reserved`).

A call adds to a table (`Call.Adds`) or it does not. One that does not uses the same slots
afterwards (`Call.spares_alone`), and one that does changes no slot but the one that it seats a new
key in (`Call.added_alone`), whatever keys they are called with.
-/

set_option autoImplicit false

namespace TwoChoice

variable {k v : Width} {c : Config k} {s s' : Cells k v c.shape} {key oldKey mark : Word k}
variable {value oldValue : Word v} {update replace locked : Bool} {r : Unit}
variable {E : Halt → Unit → Cells k v c.shape → Prop}

namespace Config

/-! ## Reserved keys -/

/-- The slots that a scan finds for a key hold live keys. -/
theorem live_of_matching (hs : c.Sound ∅ s) {b : Fin c.shape.count} {i : Fin c.shape.len.slots}
    (h : ((s.bucket b).tags.census (Tag.ofKey key)).matching.has i = true) :
    c.Live (s.key ⟨b, i⟩) := by
  rw [Tags.has_matching _ _ i.isLt, beq_iff_eq] at h
  have htag : s.tag ⟨b, i⟩ = Tag.ofKey key := h
  refine hs.live_of_not_free (Set.notMem_empty _) fun hf => ?_
  rw [Cells.Free, htag] at hf
  exact hf.elim (Tag.ofKey_ne_empty _) (Tag.ofKey_ne_tombstone _)

/-- The locks that are held in between do not show. -/
theorem Kept.unlock {l : Locks c.shape.count} (h : Kept key value replace (s.setLocks l) s') :
    Kept key value replace s (s'.setLocks s.locks) := by
  obtain ⟨p, hp, rfl⟩ := h
  refine ⟨p, hp, ?_⟩
  cases replace <;> rfl

section
variable (g : Group) (hs : c.Sound ∅ s)
include hs

theorem takeOut_reserved (hkey : ¬ c.Live key) {accept : Word v → Bool}
    {after : Fin c.shape.count → Nat → Prog (Cells k v c.shape) Unit}
    (buckets : List (Fin c.shape.count)) :
    (buckets.findSomeM? (takeFrom g key mark accept after)).Ensures (World.alone _) E r s
      fun taken _ s' => taken = none ∧ s' = s := by
  refine Prog.ensures_findSomeM? (fun _ _ s' => s' = s) (fun b rest r' s' h => ?_)
    (fun _ _ h => ⟨rfl, h⟩) buckets rfl
  subst h
  rw [takeFrom, Prog.ensures_bind]
  refine scan_ensures g.toLanes _ trivial fun r₁ s₁ h₁ => ?_
  obtain rfl := Company.turn_alone h₁
  split
  · rfl
  rw [Prog.ensures_bind]
  refine actOnKey_ensures_none g.toLanes (fun i hi he => ?_) trivial fun r₂ s₂ h₂ => ?_
  · exact hkey (he ▸ live_of_matching hs hi)
  · exact Company.turn_alone h₂

/-- A removal of a reserved key removes nothing. -/
theorem erase_reserved (hkey : ¬ c.Live key) {wanted : Option (Word v)}
    (hfree : locked = true → s.locks.isLocked (c.candidates key).primary = false) :
    (c.erase g key wanted locked).Ensures (World.alone _) E r s fun erased _ s' =>
      erased = false ∧ s' = s := by
  rw [erase_eq]
  refine guarded_ensures (C := Company.alone c v) g.toLanes (fun _ _ _ => trivial) hs hfree
    fun r₁ s₁ h₁ => ?_
  obtain rfl := (Company.turn_alone h₁)
  rw [Prog.ensures_bind]
  refine (takeOut_reserved g (hs.setLocks _) hkey _).mono fun taken r₂ s₂ h₂ => ?_
  obtain ⟨rfl, rfl⟩ := h₂
  refine ⟨⟨hs.setLocks _, rfl⟩, fun r₃ s₃ h₃ => ⟨rfl, ?_⟩⟩
  rw [Company.turn_alone h₃, Cells.setLocks_setLocks, Cells.setLocks_self]

/-- The slot of a reserved key is handed over to no other key. -/
theorem handOver_reserved (hold : ¬ c.Live oldKey) :
    (c.handOver g key value oldKey oldValue).Ensures (World.alone _) E r s fun done _ s' =>
      done = false ∧ s' = s := by
  rw [handOver_eq, Prog.ensures_bind]
  refine (takeOut_reserved g hs hold _).mono fun taken r' s' h => ?_
  obtain ⟨rfl, rfl⟩ := h
  exact ⟨rfl, rfl⟩

/-- An exchange against a reserved key treats a key that is present as any exchange does, and gives
an absent key no slot. -/
theorem exchange_against_reserved (hl : c.Live key) (hold : ¬ c.Live oldKey)
    (hfree : s.locks.isLocked (c.candidates key).primary = false)
    (hfree' : s.locks.isLocked (c.candidates oldKey).primary = false) :
    (c.exchange g key value oldKey oldValue update).Ensures (World.alone _) E r s fun done _ s' =>
      done = update ∧ Kept key value update s s' ∨ s.Absent key ∧ done = false ∧ s' = s := by
  have hG : (Company.alone c v).Ground ∅ (c.holdBoth key oldKey s.locks) key :=
    Company.ground_alone hl
  rw [exchange]
  refine (Prog.yields_require (c := c.reserved.isReserved key = false) hl _ s).ensures_bind ?_
  refine bothLocks_ensures (C := Company.alone c v) g.toLanes (fun _ _ _ => trivial) hs hfree hfree'
    fun l₁ l₂ r₁ s₁ r₂ s₂ _ _ h₁ h₂ => ?_
  have hs₁ : s₂ = s.setLocks (c.holdBoth key oldKey s.locks) := by
    rw [Company.turn_alone h₂, Company.turn_alone h₁, Cells.setLocks_setLocks]
  have hs₂ : c.Calm ∅ (c.holdBoth key oldKey s.locks) s₂ := hs₁ ▸ ⟨hs.setLocks _, rfl⟩
  rw [Prog.ensures_bind]
  refine search_ensures g hG hs₂ (fun r₃ s₃ h₃ => ?_) fun r₃ s₃ h₃ habs => ?_
  · have hkept := Company.around_alone h₃
    refine ⟨hkept.calm hl hs₂, fun r₄ s₄ r₅ s₅ h₄ h₅ => .inl ⟨rfl, ?_⟩⟩
    rw [Company.turn_alone h₅, Company.turn_alone h₄, Cells.setLocks_setLocks]
    rw [hs₁] at hkept
    exact hkept.unlock
  · have habs' : s.Absent key := fun p => by
      have := habs p
      rwa [hs₁, Cells.key_setLocks] at this
    rw [Company.turn_alone h₃]
    refine (handOver_reserved g hs₂.sound hold).mono fun done r₄ s₄ h₄ => ?_
    obtain ⟨rfl, he⟩ := h₄
    refine ⟨he ▸ hs₂, fun r₅ s₅ r₆ s₆ h₅ h₆ => .inr ⟨habs', rfl, ?_⟩⟩
    have hs₆ : s₆ = s.setLocks l₂ := by
      rw [Company.turn_alone h₆, Company.turn_alone h₅, he, hs₁, Cells.setLocks_setLocks]
    rw [hs₆, Cells.setLocks_setLocks, Cells.setLocks_self]

/-- **Alone, a removal** buries the slot of a live key with an accepted value, or it changes
nothing. -/
theorem erase_erased {wanted : Option (Word v)}
    (hfree : locked = true → s.locks.isLocked (c.candidates key).primary = false) :
    (c.erase g key wanted locked).Ensures (World.alone _) E r s fun erased _ s' =>
      c.Erased s key wanted erased s' := by
  by_cases hl : c.Live key
  · exact erase_alone g hs hl hfree
  · refine (erase_reserved g hs hl hfree).mono fun _ _ _ h => ?_
    obtain ⟨rfl, rfl⟩ := h
    exact .kept fun hl' => absurd hl' hl

/-- **Alone, an exchange** changes the value of a key that is present, gives an absent key the slot
of the old pair, or changes nothing. -/
theorem exchange_exchanged (hl : c.Live key)
    (hfree : s.locks.isLocked (c.candidates key).primary = false)
    (hfree' : s.locks.isLocked (c.candidates oldKey).primary = false) :
    (c.exchange g key value oldKey oldValue update).Ensures (World.alone _) E r s fun done _ s' =>
      c.Exchanged s key value oldKey oldValue update done s' := by
  by_cases hold : c.Live oldKey
  · exact exchange_alone g hs hl hold hfree hfree'
  · refine (exchange_against_reserved g hs hl hold hfree hfree').mono fun done _ s' h => ?_
    rcases h with ⟨rfl, hkept⟩ | ⟨habs, rfl, rfl⟩
    · exact .of_kept hkept
    · exact .refused habs fun hl' => absurd hl' hold

end

/-! ## What is used stays in use -/

/-- Deeds that leave the free slots as they are, and no slot as if it was never used. -/
structure Spares (may : Word k → Prop) (s s' : Cells k v c.shape) : Prop where
  deeds : c.Deeds may s s'
  free : ∀ p, s.Free p → s'.tag p = s.tag p
  used : ∀ p, s'.tag p = Tag.empty → s.tag p = Tag.empty

namespace Spares

variable {may : Word k → Prop} {s'' : Cells k v c.shape}

theorem refl : Spares may s s := ⟨.refl, fun _ _ => rfl, fun _ h => h⟩

theorem trans (h : Spares may s s') (h' : Spares may s' s'') : Spares may s s'' := by
  refine ⟨h.deeds.trans h'.deeds, fun p hp => ?_, fun p hp => h.used p (h'.used p hp)⟩
  have hfree : s'.Free p := by rwa [Cells.Free, h.free p hp]
  rw [h'.free p hfree, h.free p hp]

theorem mono {may' : Word k → Prop} (h : Spares may s s') (hm : ∀ key, may key → may' key) :
    Spares may' s s' :=
  ⟨h.deeds.mono hm, h.free, h.used⟩

theorem tag_eq_empty (h : Spares may s s') (p : Place c.shape) :
    s'.tag p = Tag.empty ↔ s.tag p = Tag.empty :=
  ⟨h.used p, fun ht => (h.free p (.inl ht)).trans ht⟩

end Spares

theorem Kept.key_eq (h : Kept key value replace s s') (p : Place c.shape) :
    s'.key p = s.key p := by
  obtain ⟨q, hq, rfl⟩ := h
  cases replace with
  | false => rfl
  | true =>
    simp only [if_true, Cells.key_putSlot]
    split
    · rename_i hqp
      rw [← hqp, hq]
    · rfl

theorem Kept.tag_eq (h : Kept key value replace s s') (p : Place c.shape) :
    s'.tag p = s.tag p := by
  obtain ⟨q, -, rfl⟩ := h
  split <;> simp

theorem Kept.spares (hl : c.Live key) (h : Kept key value replace s s') :
    Spares (· = key) s s' :=
  ⟨(h.acts hl).deeds, fun p _ => h.tag_eq p, fun p ht => (h.tag_eq p).symm.trans ht⟩

theorem remove_spares (hs : c.Sound ∅ s) {p : Place c.shape} (hk : s.key p = key)
    (hl : c.Live key) :
    Spares (· = key) s ((s.vacate p c.reserved.tombstone).putTag p Tag.tombstone) := by
  refine ⟨(remove_acts hk hl).deeds, fun q hq => ?_, fun q hq => ?_⟩
  · have hpq : p ≠ q := by
      rintro rfl
      exact hs.not_free_of_live (hk ▸ hl) hq
    simp [hpq]
  · rw [Cells.tag_putTag] at hq
    split at hq
    · exact absurd hq.symm Tag.empty_ne_tombstone
    · simpa using hq

theorem handOver_spares (hs : c.Sound ∅ s) {p : Place c.shape} (hk : s.key p = oldKey)
    (hl' : c.Live oldKey) (hl : c.Live key) (habs : s.Absent key) (hb : c.MayLie key p.bucket) :
    Spares (fun x => x = key ∨ x = oldKey) s (s.fill p key value) := by
  refine ⟨(handOver_acts hk hl' hl habs hb).deeds, fun q hq => ?_, fun q hq => ?_⟩
  · have hpq : p ≠ q := by
      rintro rfl
      exact hs.not_free_of_live (hk ▸ hl') hq
    rw [Cells.tag_fill, if_neg hpq]
  · rw [Cells.tag_fill] at hq
    split at hq
    · exact absurd hq (Tag.ofKey_ne_empty _)
    · exact hq

theorem Erased.spares (hs : c.Sound ∅ s) {wanted : Option (Word v)} {erased : Bool}
    (h : c.Erased s key wanted erased s') : Spares (· = key) s s' := by
  cases h with
  | erased live found _ => exact remove_spares hs found live
  | kept => exact .refl

theorem Exchanged.spares (hs : c.Sound ∅ s) (hl : c.Live key) {done : Bool}
    (h : c.Exchanged s key value oldKey oldValue update done s') :
    Spares (fun x => x = key ∨ x = oldKey) s s' := by
  cases h with
  | @present p found =>
    have hkept : Kept key value update s (if update then s.putSlot p ⟨key, value⟩ else s) :=
      ⟨p, found, rfl⟩
    exact (hkept.spares hl).mono fun _ he => .inl he
  | moved absent live pair bucket =>
    exact handOver_spares hs (congrArg Slot.key pair) live hl absent bucket
  | refused => exact .refl

theorem exchange_spares (g : Group) (hs : c.Sound ∅ s)
    (hfree : s.locks.isLocked (c.candidates key).primary = false)
    (hfree' : s.locks.isLocked (c.candidates oldKey).primary = false) :
    (c.exchange g key value oldKey oldValue update).Ensures (World.alone _)
      (fun _ _ => Spares (fun x => x = key ∨ x = oldKey) s) r s
      fun _ _ => Spares (fun x => x = key ∨ x = oldKey) s := by
  by_cases hl : c.Live key
  · exact (exchange_exchanged g hs hl hfree hfree').mono fun _ _ _ h => h.spares hs hl
  · rw [exchange, Prog.require, if_neg (by simpa [Live] using hl)]
    exact Spares.refl

/-! ## What is added -/

/-- What a store does alone, whatever its key is: it gives a new key its seat, or it gives no slot
another key. -/
inductive Added (c : Config k) (may : Word k → Prop) (s : Cells k v c.shape) :
    Cells k v c.shape → Prop
  | kept {after : Cells k v c.shape} (spares : Spares may s after)
      (keys : ∀ p, after.key p = s.key p) (tags : ∀ p, after.tag p = s.tag p) : Added c may s after
  | seated {p : Place c.shape} {new : Word k} (value : Word v) (allowed : may new)
      (live : c.Live new) (absent : s.Absent new) (seat : c.Seat s new p) :
      Added c may s (s.fill p new value)

namespace Added

variable {may : Word k → Prop}

theorem refl : Added c may s s := .kept .refl (fun _ => rfl) fun _ => rfl

theorem deeds (h : Added c may s s') : c.Deeds may s s' := by
  cases h with
  | kept spares _ _ => exact spares.deeds
  | seated value allowed live absent seat =>
    exact .single (.insert value allowed live absent seat.next.free
      (seat.bucket ▸ mayLie_chosen s _))

end Added

theorem Seated.added {stored : Stored} {may : Word k → Prop} (hm : may key) (hl : c.Live key)
    (h : c.Seated s key value replace stored s') : Added c may s s' := by
  cases h with
  | @present p found =>
    have hkept : Kept key value replace s (if replace then s.putSlot p ⟨key, value⟩ else s) :=
      ⟨p, found, rfl⟩
    exact .kept ((hkept.spares hl).mono fun _ he => he ▸ hm) hkept.key_eq hkept.tag_eq
  | inserted absent seat => exact .seated value hm hl absent seat
  | full => exact .refl

end Config

namespace Call

open Config

variable {g : Group} {x call : Call k v} {may : Word k → Prop}

/-- The call stores pairs and does nothing else. -/
def Adds : Call k v → Prop
  | .upsert .. | .insertNew .. | .upsertAll _ | .upsertEach _ | .insertEach _
  | .upsertInChunks .. => True
  | _ => False

theorem adds_of_mem_parts (hx : x ∈ call.parts) : x.Adds ↔ call.Adds := by
  cases call with
  | upsertAll | upsertEach | insertEach | eraseEach | upsertInChunks | findAll | findInChunks
  | pickEach =>
    obtain ⟨y, -, rfl⟩ := List.mem_map.1 hx
    exact Iff.rfl
  | _ =>
    obtain rfl := List.mem_singleton.1 hx
    exact Iff.rfl

section
variable (hx : ¬ x.Bulk) (hmay : ∀ key ∈ x.writes, may key) (hs : c.Sound ∅ s)
variable (hfree : ∀ b ∈ x.locks c, s.locks.isLocked b.val = false)
include hx hmay hs hfree

/-- Alone, a call that stores nothing takes no free slot. -/
theorem spares_alone (hadds : ¬ x.Adds) :
    (x.run c g).Ensures (World.alone _) (fun _ _ => Spares may s) () s
      fun _ _ => Spares may s := by
  have herase : ∀ {key wanted locked}, IsErase c x key wanted locked →
      (x.run c g).Ensures (World.alone _) (fun _ _ => Spares may s) () s
        fun _ _ => Spares may s := fun h =>
    h.run ((erase_erased g hs (h.free_iff.1 hfree)).mono fun _ _ _ herased =>
      (herased.spares hs).mono fun _ he => he ▸ hmay _ h.mem_writes)
  cases x with
  | erase key locked => exact herase (isErase_erase key locked)
  | erasePair key value => exact herase (isErase_erasePair key value)
  | exchange key value oldKey oldValue update =>
    have hkeys : ∀ y, y = key ∨ y = oldKey → may y := by
      rintro _ (rfl | rfl)
      · exact hmay _ (by simp [Call.writes])
      · exact hmay _ (by simp [Call.writes])
    have hfree₁ := hfree (c.candidates key).primary (by simp [Call.locks])
    have hfree₂ := hfree (c.candidates oldKey).primary (by simp [Call.locks])
    exact Prog.ensures_map.2 (((exchange_spares g hs hfree₁ hfree₂).mono fun _ _ _ hspares =>
      hspares.mono hkeys).mono_halt fun _ _ _ hspares => hspares.mono hkeys)
  | upsert | insertNew => exact absurd trivial hadds
  | upsertAll | upsertEach | insertEach | eraseEach | upsertInChunks => exact absurd trivial hx
  | _ =>
    have hsame : ∀ {s'}, s' = s → Spares may s s' := by
      rintro _ rfl
      exact .refl
    exact ((read_alone hx rfl).mono fun _ _ _ => hsame).mono_halt fun _ _ _ => hsame

/-- Alone, a call that stores a pair gives the key its seat, or it gives no slot another key. -/
theorem added_alone (hadds : x.Adds) (hg : 0 < g.passes) :
    (x.run c g).Ensures (World.alone _) (fun _ _ => Added c may s) () s
      fun _ _ => Added c may s := by
  have hstore : ∀ {key value replace locked reply}, IsStore c x key value replace locked reply →
      c.Live key → (x.run c g).Ensures (World.alone _) (fun _ _ => Added c may s) () s
        fun _ _ => Added c may s := fun h hl =>
    h.run hl ((store_seated g hg hs hl (h.free_iff.1 hfree)).mono fun _ _ _ hseated =>
      hseated.added (hmay _ h.mem_writes) hl)
  cases x with
  | upsert key value locked =>
    by_cases hl : c.Live key
    · exact hstore (isStore_upsert key value locked) hl
    · refine Prog.ensures_map.2 (Prog.ensures_bind.2 ?_)
      rw [store, Prog.require, if_neg (by simpa [Live] using hl)]
      exact Added.refl
  | insertNew key value =>
    by_cases hl : c.Live key
    · exact hstore (isStore_insertNew key value) hl
    · refine Prog.ensures_map.2 ?_
      rw [Config.insertNew, if_pos (by simpa [Live] using hl)]
      exact Added.refl
  | upsertAll | upsertEach | insertEach | upsertInChunks => exact absurd trivial hx
  | _ => exact hadds.elim

end

/-- **Alone, a call that is not a bulk call** takes no free slot, or it gives one key its seat at
most. -/
theorem solo_cases (hx : ¬ x.Bulk) (hg : 0 < g.passes) (hs : c.Sound ∅ s)
    (hfree : ∀ b ∈ x.locks c, s.locks.isLocked b.val = false) :
    Spares (· ∈ x.writes) s ((x.run c g).solo s).2 ∨
      x.Adds ∧ Added c (· ∈ x.writes) s ((x.run c g).solo s).2 := by
  by_cases hadds : x.Adds
  · have hrun := (added_alone hx (fun _ h => h) hs hfree hadds hg).solo
    split at hrun <;> rename_i heq <;> rw [heq] <;> exact .inr ⟨hadds, hrun⟩
  · have hrun := (spares_alone (g := g) hx (fun _ h => h) hs hfree hadds).solo
    split at hrun <;> rename_i heq <;> rw [heq] <;> exact .inl hrun

end Call

end TwoChoice
