import TwoChoice.Proofs.Reachable

/-!
# The structure of a table

At every pause of a call under an admissible schedule, after every intrusion and after every call,
the slots of a table are in order (`Config.Orderly`). One slot at most is detached: taken by its
tag, and without a pair. There is such a slot only while a removal or an exchange is interrupted
that has taken the old key out.
-/

set_option autoImplicit false

namespace TwoChoice

variable {k v : Width}

namespace ReservedKeys

variable (r : ReservedKeys k)

theorem toNat_one : (1#k.bits).toNat = 1 := by
  have := k.le_bits
  exact BitVec.toNat_one (by omega)

theorem empty_ne_holding : r.empty ≠ r.holding := by
  intro h
  have hone : r.tombstone = 1#k.bits := by
    rw [holding, empty, eq_comm, BitVec.sub_eq_iff_eq_add, BitVec.zero_add] at h
    exact h
  have := r.two_le
  rw [hone, toNat_one] at this
  omega

theorem tombstone_ne_holding : r.tombstone ≠ r.holding := by
  intro h
  have hle : (1#k.bits).toNat ≤ r.tombstone.toNat := by
    have := r.two_le
    rw [toNat_one]
    omega
  have hsub : r.tombstone.toNat = r.tombstone.toNat - 1 := by
    conv_lhs => rw [h, holding, BitVec.toNat_sub_of_le hle, toNat_one]
  have := r.two_le
  omega

end ReservedKeys

namespace Config

/-- The keys, the tags and the buckets of a table go together. -/
structure Orderly (c : Config k) (s : Cells k v c.shape) : Prop where
  /-- One slot of the whole table holds a key that may name an entry. -/
  unique : ∀ p q, c.Live (s.key p) → s.key p = s.key q → p = q
  /-- It lies in a candidate bucket of the key. -/
  bucket : ∀ p, c.Live (s.key p) → p.bucket = (c.candidates (s.key p)).primary ∨
    p.bucket = (c.candidates (s.key p)).secondary
  /-- It has the tag of the key. -/
  tag : ∀ p, c.Live (s.key p) → s.tag p = Tag.ofKey (s.key p)
  empty : ∀ p, s.tag p = Tag.empty → s.key p = c.reserved.empty
  tombstone : ∀ p, s.tag p = Tag.tombstone → s.key p = c.reserved.tombstone

/-- The slot is taken by its tag, and it holds no pair. -/
def Detached (c : Config k) (s : Cells k v c.shape) (p : Place c.shape) : Prop :=
  s.tag p ≠ Tag.empty ∧ s.tag p ≠ Tag.tombstone ∧ ¬ c.Live (s.key p)

instance (c : Config k) (s : Cells k v c.shape) (p : Place c.shape) : Decidable (c.Detached s p) :=
  inferInstanceAs (Decidable (_ ∧ _ ∧ _))

variable {c : Config k} {T : Set (Place c.shape)} {s : Cells k v c.shape} {p : Place c.shape}

theorem Sound.orderly (h : c.Sound T s) : c.Orderly s where
  unique := h.unique
  bucket p hl := mayLie_iff.1 (h.mayLie hl)
  tag p hl := h.tag_eq hl
  empty p ht := by
    cases h.settled p (h.not_mem_of_free (.inl ht)) with
    | empty _ hk => exact hk
    | tombstone ht' _ => exact absurd (ht.symm.trans ht') Tag.empty_ne_tombstone
    | entry _ ht' _ => exact absurd (ht'.symm.trans ht) (Tag.ofKey_ne_empty _)
  tombstone p ht := by
    cases h.settled p (h.not_mem_of_free (.inr ht)) with
    | empty ht' _ => exact absurd (ht'.symm.trans ht) Tag.empty_ne_tombstone
    | tombstone _ hk => exact hk
    | entry _ ht' _ => exact absurd (ht'.symm.trans ht) (Tag.ofKey_ne_tombstone _)

/-- Only slots in transit are detached. -/
theorem Sound.mem_of_detached (h : c.Sound T s) (hp : c.Detached s p) : p ∈ T := by
  apply Classical.byContradiction
  intro hm
  exact hp.2.2 (h.live_of_not_free hm fun hf => hf.elim hp.1 hp.2.1)

theorem Sound.key_ne_holding (h : c.Sound ∅ s) (p : Place c.shape) :
    s.key p ≠ c.reserved.holding := by
  cases h.settled p (Set.notMem_empty p) with
  | empty _ hk => exact hk ▸ c.reserved.empty_ne_holding
  | tombstone _ hk => exact hk ▸ c.reserved.tombstone_ne_holding
  | entry hl _ _ => exact hl.ne_holding

end Config

namespace Scene

variable {c : Config k} {lanes : Lanes} {call : Call k v} {schedule : List (Intrusion k v)}
variable {s : Cells k v c.shape} {p q : Place c.shape}

theorem Midway.orderly (h : Midway c call schedule s) : c.Orderly s := by
  rcases h with h | ⟨_, _, _, _, h, _⟩
  · exact h.orderly
  · exact h.orderly

theorem Midway.eq_of_detached (h : Midway c call schedule s) (hp : c.Detached s p)
    (hq : c.Detached s q) : p = q := by
  rcases h with h | ⟨_, _, _, _, h, _⟩
  · exact absurd (h.mem_of_detached hp) (Set.notMem_empty p)
  · have hp' := Set.mem_singleton_iff.1 (h.mem_of_detached hp)
    have hq' := Set.mem_singleton_iff.1 (h.mem_of_detached hq)
    rw [hp', hq']

/-- A slot is detached for a call that has taken its key out. -/
theorem Midway.vacates_of_detached (h : Midway c call schedule s) (hp : c.Detached s p) :
    ∃ old mark, call.Vacates c old mark ∧ s.Absent old ∧ s.key p = mark := by
  rcases h with h | ⟨p', old, mark, hv, h, hk, habs, _⟩
  · exact absurd (h.mem_of_detached hp) (Set.notMem_empty p)
  · obtain rfl := Set.mem_singleton_iff.1 (h.mem_of_detached hp)
    exact ⟨old, mark, hv, habs, hk⟩

end Scene

namespace Table

/-- **The structure of a table** at every instant that can be observed. Between calls no slot is
detached, none has the holding key and no bucket is locked. At a pause of a call and after an
intrusion one slot at most is detached, for the call that was interrupted. -/
theorem Reachable.structured {t : Table k v} (h : t.Reachable) :
    (t.config.Orderly t.cells ∧ (∀ p, ¬ t.config.Detached t.cells p) ∧
      (∀ p, t.cells.key p ≠ t.config.reserved.holding) ∧
      ∀ b, t.cells.locks.isLocked b = false) ∧
    ∀ (lanes : Lanes) (call : Call k v) (schedule : List (Intrusion k v)),
      call.Admissible t.config schedule →
      ∀ x ∈ Scene.sights t.config lanes schedule call t.cells,
        t.config.Orderly x.cells ∧
        (∀ p q, t.config.Detached x.cells p → t.config.Detached x.cells q → p = q) ∧
        ∀ p, t.config.Detached x.cells p →
          ∃ old mark, call.Vacates t.config old mark ∧ x.cells.Absent old ∧
            x.cells.key p = mark := by
  have hquiet := h.quiet
  refine ⟨⟨hquiet.sound.orderly, fun p hp => ?_, hquiet.sound.key_ne_holding, hquiet.unlocked⟩,
    fun lanes call schedule adm x hx => ?_⟩
  · exact absurd (hquiet.sound.mem_of_detached hp) (Set.notMem_empty p)
  · have hmid := (Scene.watch_calm lanes adm hquiet).1.fine x hx
    exact ⟨hmid.orderly, fun _ _ => hmid.eq_of_detached, fun _ => hmid.vacates_of_detached⟩

/-- Another group stores a key before it is removed, and the removal is seen with the slot of the
key detached. -/
theorem Reachable.structured_eraseEach :
    ∃ x ∈ Scene.sights small.config ⟨4, by decide, by decide⟩ [⟨2, .upsert 5 1 true⟩]
        (.eraseEach [6, 5]) small.cells,
      small.config.Orderly x.cells ∧ ∃ p old mark, small.config.Detached x.cells p ∧
        (Call.eraseEach (v := .w16) [6, 5]).Vacates small.config old mark ∧
        x.cells.Absent old := by
  have adm : (Call.eraseEach (v := .w16) [6, 5]).Admissible small.config
      [⟨2, .upsert 5 1 true⟩] := by decide +kernel
  have hseen : ∃ x ∈ Scene.sights small.config ⟨4, by decide, by decide⟩
      [⟨2, .upsert (v := .w16) 5 1 true⟩] (.eraseEach [6, 5]) small.cells,
      small.config.Detached x.cells ⟨⟨0, by decide +kernel⟩, ⟨0, by decide +kernel⟩⟩ := by
    decide +kernel
  obtain ⟨x, hx, hp⟩ := hseen
  obtain ⟨horderly, -, hdetached⟩ := reachable_small.structured.2 _ _ _ adm x hx
  obtain ⟨old, mark, hvacates, habs, -⟩ := hdetached _ hp
  exact ⟨x, hx, horderly, _, old, mark, hp, hvacates, habs⟩

end Table

end TwoChoice
