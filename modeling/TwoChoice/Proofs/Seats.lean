import TwoChoice.Proofs.Batches
import TwoChoice.Proofs.Reachable

/-!
# Where a store puts a key

With nobody else there, a store of a key that is present changes the value in its slot, and a store
of an absent key fills the slot that `Config.Seat` names: the bucket is the primary one below the
cutoff, and the less loaded one above it, and in the bucket the lowest tombstone comes first, and
then the lowest empty slot (`store_seated`). Loads are counted by live slots (`Config.population`),
which is what the scans see of a sound table (`occupancy_census_eq`).
-/

set_option autoImplicit false

namespace TwoChoice

variable {k v : Width}

/-- The slot of its bucket that is to be taken next. -/
inductive Cells.NextFree {sh : Shape} (s : Cells k v sh) (p : Place sh) : Prop
  | tombstone (tag : s.tag p = Tag.tombstone)
    (first : ∀ i < p.index, s.tag ⟨p.bucket, i⟩ ≠ Tag.tombstone)
  | empty (gone : ∀ i, s.tag ⟨p.bucket, i⟩ ≠ Tag.tombstone) (tag : s.tag p = Tag.empty)
    (first : ∀ i < p.index, s.tag ⟨p.bucket, i⟩ ≠ Tag.empty)

theorem Cells.NextFree.free {sh : Shape} {s : Cells k v sh} {p : Place sh} (h : s.NextFree p) :
    s.Free p := by
  cases h with
  | tombstone tag _ => exact .inr tag
  | empty _ tag _ => exact .inl tag

namespace Config

/-- The number of live slots of a bucket. -/
def population (c : Config k) (s : Cells k v c.shape) (b : Fin c.shape.count) : Nat :=
  (List.finRange c.shape.len.slots).countP fun i => decide (c.Live (s.key ⟨b, i⟩))

/-- The bucket in which an absent key is placed. -/
def chosen (c : Config k) (s : Cells k v c.shape) (key : Word k) : Fin c.shape.count :=
  let cands := c.candidates key
  if c.population s cands.primary < c.shape.len.slots * 3 / 4 ∨ cands.primary = cands.secondary ∨
      c.population s cands.primary ≤ c.population s cands.secondary then
    cands.primary
  else cands.secondary

/-- The slot that an absent key gets. -/
structure Seat (c : Config k) (s : Cells k v c.shape) (key : Word k) (p : Place c.shape) : Prop where
  bucket : p.bucket = c.chosen s key
  next : s.NextFree p

/-- How a store ends that nobody interferes with. -/
inductive Seated (c : Config k) (s : Cells k v c.shape) (key : Word k) (value : Word v)
    (replace : Bool) : Stored → Cells k v c.shape → Prop
  | present {p} (found : s.key p = key) :
    Seated c s key value replace .present (if replace then s.putSlot p ⟨key, value⟩ else s)
  | inserted {p} (absent : s.Absent key) (seat : c.Seat s key p) :
    Seated c s key value replace .inserted (s.fill p key value)
  | full (absent : s.Absent key) (primary : Crowded s (c.candidates key).primary)
    (secondary : Crowded s (c.candidates key).secondary) : Seated c s key value replace .full s

variable {c : Config k} {s s' : Cells k v c.shape} {b : Fin c.shape.count} {p : Place c.shape}
variable {key : Word k} {value : Word v} {replace locked : Bool}

/-! ## Loads -/

theorem population_le (s : Cells k v c.shape) (b : Fin c.shape.count) :
    c.population s b ≤ c.shape.len.slots := by
  have := List.countP_le_length (p := fun i => decide (c.Live (s.key ⟨b, i⟩)))
    (l := List.finRange c.shape.len.slots)
  rwa [List.length_finRange] at this

/-- In a sound table the live slots are those that are not free. -/
theorem live_iff_not_free (hs : c.Sound ∅ s) (p : Place c.shape) :
    c.Live (s.key p) ↔ ¬ s.Free p :=
  ⟨hs.not_free_of_live, hs.live_of_not_free (Set.notMem_empty p)⟩

/-- A scan of a bucket counts its live slots. -/
theorem occupancy_census_eq (hs : c.Sound ∅ s) (b : Fin c.shape.count) (tag : Tag) :
    ((s.bucket b).tags.census tag).occupancy c.shape.len.slots = c.population s b := by
  rw [Tags.occupancy_census, Tags.occupancy, ← List.map_coe_finRange_eq_range, List.countP_map,
    population]
  refine List.countP_congr fun i _ => ?_
  have hfree := live_iff_not_free hs ⟨b, i⟩
  rw [Cells.Free, not_or] at hfree
  simp only [Function.comp, Bool.and_eq_true, bne_iff_ne, decide_eq_true_eq]
  exact hfree.symm

theorem population_eq_slots (hs : c.Sound ∅ s) :
    c.population s b = c.shape.len.slots ↔ Crowded s b := by
  have hcount := List.countP_eq_length (p := fun i => decide (c.Live (s.key ⟨b, i⟩)))
    (l := List.finRange c.shape.len.slots)
  rw [List.length_finRange] at hcount
  rw [population, hcount]
  constructor
  · intro h i
    exact (live_iff_not_free hs _).1 (of_decide_eq_true (h i (List.mem_finRange i)))
  · intro h i _
    exact decide_eq_true ((live_iff_not_free hs _).2 (h i))

/-- If there is no room in the chosen bucket, there is none in the other one. -/
theorem crowded_of_chosen (hs : c.Sound ∅ s) (h : Crowded s (c.chosen s key)) :
    Crowded s (c.candidates key).primary ∧ Crowded s (c.candidates key).secondary := by
  have hprimary := population_le s (c.candidates key).primary
  have hsecondary := population_le s (c.candidates key).secondary
  have hpos : 0 < c.shape.len.slots := Nat.mul_pos (by decide) c.shape.len.pos
  rw [chosen] at h
  split at h
  · rename_i hchoice
    have hfull := (population_eq_slots hs).2 h
    refine ⟨h, ?_⟩
    rcases hchoice with hcut | heq | hle
    · omega
    · rwa [← heq]
    · exact (population_eq_slots hs).1 (by omega)
  · rename_i hchoice
    have hfull := (population_eq_slots hs).2 h
    omega

/-! ## Slots -/

/-- A placement that sees the bucket as it is takes the slot that is next. -/
theorem Claims.nextFree {tag : Tag} {i : Fin c.shape.len.slots}
    (h : Claims s b ((s.bucket b).tags.census tag) i) : s.NextFree ⟨b, i⟩ := by
  have htomb : ∀ j : Fin c.shape.len.slots, s.tag ⟨b, j⟩ = Tag.tombstone →
      ((s.bucket b).tags.census tag).tombstone.has j = true := fun j hj =>
    (Mask.mem_indices.1 ((Tags.mem_tombstone _ _).2 ⟨j.isLt, hj⟩)).2
  have hempty : ∀ j : Fin c.shape.len.slots, s.tag ⟨b, j⟩ = Tag.empty →
      ((s.bucket b).tags.census tag).empty.has j = true := fun j hj =>
    (Mask.mem_indices.1 ((Tags.mem_empty _ _).2 ⟨j.isLt, hj⟩)).2
  cases h with
  | tombstone _ ht hfirst => exact .tombstone ht fun j hlt hj => hfirst j hlt (htomb j hj) hj
  | empty hgone _ ht hfirst =>
    exact .empty (fun j hj => hgone j (htomb j hj) hj) ht
      fun j hlt hj => hfirst j hlt (hempty j hj) hj

/-- Alone, a pass considers the chosen bucket first, as it is. -/
theorem considered_chosen (hs : c.Sound ∅ s) {primary secondary : Census} {r r' : Unit}
    (hscan : Scanned (Company.alone c v) key r s primary secondary r' s') :
    ∃ rest, considered c key primary secondary =
      (c.chosen s key, (s.bucket (c.chosen s key)).tags.census (Tag.ofKey key)) :: rest := by
  have hcut : c.shape.len.cutoff = c.shape.len.slots * 3 / 4 := rfl
  have hprimary := population_le s (c.candidates key).primary
  cases hscan with
  | one same h =>
    -- a bucket that is its own alternative stands against a full one, so it comes first
    have hload : Census.occupancy {} c.shape.len.slots = c.shape.len.slots := by
      rw [Census.occupancy, show Census.free {} = 0 from rfl, Mask.count_zero, Nat.sub_zero]
    rw [chosen, if_pos (.inr (.inl same.symm)), considered, preference, occupancy_census_eq hs,
      hload, if_pos hprimary]
    split <;> exact ⟨_, rfl⟩
  | two other h h' =>
    obtain rfl := (Company.turn_alone h).symm
    rw [considered, preference, occupancy_census_eq hs, occupancy_census_eq hs, chosen]
    by_cases hlt : c.population s (c.candidates key).primary < c.shape.len.slots * 3 / 4
    · rw [if_pos (hcut ▸ hlt), if_pos (.inl hlt)]
      exact ⟨_, rfl⟩
    rw [if_neg (hcut ▸ hlt)]
    by_cases hle : c.population s (c.candidates key).primary ≤
        c.population s (c.candidates key).secondary
    · rw [if_pos hle, if_pos (.inr (.inr hle))]
      exact ⟨_, rfl⟩
    · rw [if_neg hle, if_neg fun h => h.elim hlt fun h => h.elim (fun he => other he.symm) hle]
      exact ⟨_, rfl⟩

/-! ## Stores -/

/-- Alone, a pass over an absent key gives it its seat, or finds both buckets full. -/
theorem placeNew_seated {E : Halt → Unit → Cells k v c.shape → Prop} (g : Group)
    (hs : c.Sound ∅ s) (habs : s.Absent key) {primary secondary : Census} {r r' : Unit}
    (hscan : Scanned (Company.alone c v) key r s primary secondary r' s') :
    (c.placeNew g key value primary secondary).Ensures (World.alone _) E r' s' fun stored _ s' =>
      ∃ ended, stored = some ended ∧ c.Seated s key value replace ended s' := by
  obtain ⟨rest, hfirst⟩ := considered_chosen hs hscan
  obtain rfl := (Company.turn_alone hscan.turn).symm
  have hmissed : Missed s (c.chosen s key)
      ((s.bucket (c.chosen s key)).tags.census (Tag.ofKey key)) →
      Crowded s (c.candidates key).primary ∧ Crowded s (c.candidates key).secondary := fun h =>
    crowded_of_chosen hs (crowded_of_free_eq_zero h.free_eq_zero)
  have hbounded := hscan.bounded
  refine placeNew_claims g hbounded.1 hbounded.2 (fun hz hz' => ⟨_, rfl, ?_⟩)
    (fun before b census after i horder hbefore hclaims => ⟨trivial, fun r'' s'' ht => ?_⟩)
    fun hz hall => absurd ?_ hz
  · cases hscan with
    | one same _ =>
      have hc := crowded_of_free_eq_zero hz
      exact .full habs hc (same ▸ hc)
    | two _ h _ =>
      obtain rfl := (Company.turn_alone h).symm
      exact .full habs (crowded_of_free_eq_zero hz) (crowded_of_free_eq_zero hz')
  · obtain rfl := (Company.turn_alone ht).symm
    refine ⟨_, rfl, .inserted habs ?_⟩
    rw [hfirst] at horder
    cases before with
    | nil =>
      cases horder
      exact ⟨rfl, hclaims.nextFree⟩
    | cons x before =>
      obtain ⟨rfl, -⟩ := List.cons.inj horder
      obtain ⟨hp, hq⟩ := hmissed (hbefore _ (List.mem_cons_self ..))
      have hmem : (b, census) ∈ considered c key primary secondary := by
        rw [hfirst, horder]
        simp
      rcases mem_preference hmem with he | he <;> cases he
      · exact absurd hclaims.free (hp i)
      · exact absurd hclaims.free (hq i)
  · obtain ⟨hp, hq⟩ := hmissed (hall _ (hfirst ▸ List.mem_cons_self ..))
    cases hscan with
    | one => exact ⟨free_eq_zero_of_crowded hp, rfl⟩
    | two _ h _ =>
      obtain rfl := (Company.turn_alone h).symm
      exact ⟨free_eq_zero_of_crowded hp, free_eq_zero_of_crowded hq⟩

theorem mayLie_chosen (s : Cells k v c.shape) (key : Word k) : c.MayLie key (c.chosen s key) := by
  rw [mayLie_iff, chosen]
  split
  · exact .inl rfl
  · exact .inr rfl

namespace Seated

variable {stored : Stored}

theorem acts (h : c.Seated s key value replace stored s') (hl : c.Live key) :
    Acts (· = key) s s' := by
  cases h with
  | @present p found =>
    have hkept : Kept key value replace s (if replace then s.putSlot p ⟨key, value⟩ else s) :=
      ⟨p, found, rfl⟩
    exact hkept.acts hl
  | @inserted p absent seat =>
    have hentered : Entered key value s (s.fill p key value) :=
      ⟨p, absent, seat.next.free, seat.bucket ▸ mayLie_chosen s key, rfl⟩
    exact hentered.acts hl
  | full => exact .refl

theorem calm {l : Locks c.shape.count} (h : c.Seated s key value replace stored s')
    (hl : c.Live key) (hs : c.Calm ∅ l s) : c.Calm ∅ l s' :=
  ⟨Deeds.sound (h.acts hl).deeds hs.sound, (h.acts hl).locks.trans hs.locks⟩

/-- The lock that the store takes does not show. -/
theorem unlock {l : Locks c.shape.count} (h : c.Seated (s.setLocks l) key value replace stored s') :
    c.Seated s key value replace stored (s'.setLocks s.locks) := by
  cases h with
  | @present p found =>
    have hkept : c.Seated s key value replace .present
        (if replace then s.putSlot p ⟨key, value⟩ else s) := .present found
    cases replace with
    | true => exact hkept
    | false => exact hkept
  | inserted absent seat =>
    have hnext := seat.next
    refine .inserted (s := s) absent ⟨seat.bucket, ?_⟩
    cases hnext with
    | tombstone tag first => exact .tombstone tag first
    | empty gone tag first => exact .empty gone tag first
  | full absent primary secondary => exact .full (s := s) absent primary secondary

end Seated

/-- Alone, a pass ends a store. -/
theorem storePass_seated (g : Group) {l : Locks c.shape.count} (hs : c.Calm ∅ l s)
    (hl : c.Live key) {r : Unit} :
    (c.storePass g key value replace).Ensures (World.alone _) Never r s fun stored _ s' =>
      ∃ ended, stored = some ended ∧ c.Seated s key value replace ended s' := by
  have hG : (Company.alone c v).Ground ∅ l key := Company.ground_alone hl
  by_cases hp : ∃ p, s.key p = key
  · obtain ⟨p, hp⟩ := hp
    refine (storePass_present g hG hs hp).mono fun stored r' s' h => ?_
    obtain ⟨rfl, hkept⟩ := h
    obtain ⟨q, hq, rfl⟩ := Company.around_alone hkept
    exact ⟨_, rfl, .present hq⟩
  · have habs : s.Absent key := fun p he => hp ⟨p, he⟩
    exact storePass_scans g hG hs habs fun _ _ _ _ hscan => placeNew_seated g hs.sound habs hscan

/-- **Alone, a store** changes the value of a key that is present, and gives an absent key its seat
or finds no room for it. -/
theorem store_seated {E : Halt → Unit → Cells k v c.shape → Prop} (g : Group) (hg : 0 < g.passes)
    (hs : c.Sound ∅ s) (hl : c.Live key)
    (hfree : locked = true → s.locks.isLocked (c.candidates key).primary = false) {r : Unit} :
    (c.store g key value replace locked).Ensures (World.alone _) E r s fun stored _ s' =>
      c.Seated s key value replace stored s' := by
  rw [store]
  refine (Prog.yields_require (c := c.reserved.isReserved key = false) hl _ s).ensures_bind ?_
  have hs₀ : c.Calm ∅ (c.hold key locked s.locks) (s.setLocks (c.hold key locked s.locks)) :=
    ⟨hs.setLocks _, rfl⟩
  refine guarded_ensures (C := Company.alone c v) g.toLanes (fun _ _ _ => trivial) hs hfree
    fun r' s' h => ?_
  obtain rfl := (Company.turn_alone h).symm
  obtain ⟨n, hn⟩ : ∃ n, g.passes = n + 1 := ⟨g.passes - 1, by omega⟩
  rw [hn, storePasses, Prog.ensures_bind]
  refine (storePass_seated g hs₀ hl).mono fun stored r'' s'' hpass => ?_
  obtain ⟨ended, rfl, hseated⟩ := hpass
  refine ⟨hseated.calm hl hs₀, fun r₃ s₃ h₃ => ?_⟩
  obtain rfl := (Company.turn_alone h₃).symm
  exact hseated.unlock

/-! ## What decides -/

/-- A bucket has one slot at most that is next. -/
theorem nextFree_unique {q : Place c.shape} (hp : s.NextFree p) (hq : s.NextFree q)
    (hb : p.bucket = q.bucket) : p = q := by
  obtain ⟨b, i⟩ := p
  obtain ⟨b', j⟩ := q
  obtain rfl : b = b' := hb
  have least : ∀ {t : Tag}, s.tag ⟨b, i⟩ = t → (∀ x < i, s.tag ⟨b, x⟩ ≠ t) → s.tag ⟨b, j⟩ = t →
      (∀ x < j, s.tag ⟨b, x⟩ ≠ t) → i = j := fun hi hbelow hj hbelow' =>
    le_antisymm (not_lt.1 fun hlt => hbelow j hlt hj) (not_lt.1 fun hlt => hbelow' i hlt hi)
  cases hp with
  | tombstone tag first =>
    cases hq with
    | tombstone tag' first' => rw [least tag first tag' first']
    | empty gone _ _ => exact absurd tag (gone i)
  | empty gone tag first =>
    cases hq with
    | tombstone tag' _ => exact absurd tag' (gone j)
    | empty _ tag' first' => rw [least tag first tag' first']

theorem Seat.unique {q : Place c.shape} (hp : c.Seat s key p) (hq : c.Seat s key q) : p = q :=
  nextFree_unique hp.next hq.next (hp.bucket.trans hq.bucket.symm)

theorem Seat.not_crowded (h : c.Seat s key p)
    (hprimary : Crowded s (c.candidates key).primary) : ¬ Crowded s (c.candidates key).secondary := by
  intro hsecondary
  rcases mayLie_iff.1 (mayLie_chosen s key) with he | he
  · exact hprimary p.index (he ▸ h.bucket ▸ h.next.free)
  · exact hsecondary p.index (he ▸ h.bucket ▸ h.next.free)

namespace Seated

variable {stored : Stored} (h : c.Seated s key value replace stored s')
include h

theorem of_present (hs : c.Sound ∅ s) (hl : c.Live key) (hp : s.key p = key) :
    stored = .present ∧ s' = if replace then s.putSlot p ⟨key, value⟩ else s := by
  cases h with
  | @present q found =>
    obtain rfl := hs.unique p q (hp ▸ hl) (hp.trans found.symm)
    exact ⟨rfl, rfl⟩
  | inserted absent => exact absurd hp (absent p)
  | full absent => exact absurd hp (absent p)

theorem of_seat (habs : s.Absent key) (hp : c.Seat s key p) :
    stored = .inserted ∧ s' = s.fill p key value := by
  cases h with
  | present found => exact absurd found (habs _)
  | inserted _ seat =>
    obtain rfl := hp.unique seat
    exact ⟨rfl, rfl⟩
  | full _ primary secondary => exact absurd secondary (hp.not_crowded primary)

theorem of_crowded (habs : s.Absent key) (hprimary : Crowded s (c.candidates key).primary)
    (hsecondary : Crowded s (c.candidates key).secondary) : stored = .full ∧ s' = s := by
  cases h with
  | present found => exact absurd found (habs _)
  | inserted _ seat => exact absurd hsecondary (seat.not_crowded hprimary)
  | full => exact ⟨rfl, rfl⟩

end Seated

end Config

namespace Table

open Config

variable {t : Table k v} {key : Word k} {value : Word v}

theorem handle_seated (h : t.Reachable) (lanes : Lanes) (hl : t.config.Live key) {call : Call k v}
    {replace locked : Bool} {reply : Stored → Reply k v}
    (hcall : call.IsStore t.config key value replace locked reply) :
    ∃ stored s', t.config.Seated t.cells key value replace stored s' ∧
      (t.handle lanes [] (.call call)).1.outcome = .ok (some (reply stored)) ∧
      (t.handle lanes [] (.call call)).2.cells = s' := by
  have hrun : (call.run t.config { lanes with passes := 1 }).Ensures (World.alone _)
      (fun _ _ _ => False) () t.cells fun x _ s' =>
        ∃ stored, x = reply stored ∧ t.config.Seated t.cells key value replace stored s' :=
    hcall.run hl ((store_seated _ Nat.zero_lt_one h.quiet.sound hl
      fun _ => h.quiet.unlocked _).mono fun stored _ _ hseated => ⟨stored, rfl, hseated⟩)
  obtain ⟨_, houtcome, stored, rfl, hseated⟩ := handle_alone lanes hrun
  exact ⟨stored, _, hseated, houtcome, rfl⟩

/-- **What a store does with nobody else there.** A key that is present keeps its slot, and an
upsert changes the value there. An absent key gets its seat: that slot gets the pair and the tag of
the key, and nothing else is changed. If it has no seat, both of its buckets are full, the store says
so and changes nothing. -/
theorem Reachable.store_exact (h : t.Reachable) (lanes : Lanes) (hl : t.config.Live key)
    (value : Word v) :
    let upserted := fun locked => t.handle lanes [] (.call (.upsert key value locked))
    let inserted := t.handle lanes [] (.call (.insertNew key value))
    (∀ p, t.cells.key p = key →
      (∀ locked, (upserted locked).1.outcome = .ok (some (.flag true)) ∧
        (upserted locked).2.cells = t.cells.putSlot p ⟨key, value⟩) ∧
      inserted.1.outcome = .ok (some (.insertion (.error .occupied))) ∧
        inserted.2.cells = t.cells) ∧
    (t.cells.Absent key →
      (∃ p, t.config.Seat t.cells key p ∧
        (∀ locked, (upserted locked).1.outcome = .ok (some (.flag true)) ∧
          (upserted locked).2.cells = t.cells.fill p key value) ∧
        inserted.1.outcome = .ok (some (.insertion (.ok ()))) ∧
          inserted.2.cells = t.cells.fill p key value) ∨
      (Crowded t.cells (t.config.candidates key).primary ∧
        Crowded t.cells (t.config.candidates key).secondary ∧
        (∀ locked, (upserted locked).1.outcome = .ok (some (.flag false)) ∧
          (upserted locked).2.cells = t.cells) ∧
        inserted.1.outcome = .ok (some (.insertion (.error .tableFull))) ∧
          inserted.2.cells = t.cells)) := by
  intro upserted inserted
  have hupserted := fun locked => handle_seated h lanes hl (Call.isStore_upsert key value locked)
  obtain ⟨result, after, hinserted, hresult, hafter⟩ :=
    handle_seated h lanes hl (Call.isStore_insertNew (c := t.config) key value)
  refine ⟨fun p hp => ⟨fun locked => ?_, ?_⟩, fun habs => ?_⟩
  · obtain ⟨stored, s', hseated, houtcome, hcells⟩ := hupserted locked
    obtain ⟨rfl, rfl⟩ := hseated.of_present h.quiet.sound hl hp
    exact ⟨houtcome, hcells⟩
  · obtain ⟨rfl, rfl⟩ := hinserted.of_present h.quiet.sound hl hp
    exact ⟨hresult, hafter⟩
  cases hinserted with
  | present found => exact absurd found (habs _)
  | inserted _ seat =>
    refine .inl ⟨_, seat, fun locked => ?_, hresult, hafter⟩
    obtain ⟨stored, s', hseated, houtcome, hcells⟩ := hupserted locked
    obtain ⟨rfl, rfl⟩ := hseated.of_seat habs seat
    exact ⟨houtcome, hcells⟩
  | full _ primary secondary =>
    refine .inr ⟨primary, secondary, fun locked => ?_, hresult, hafter⟩
    obtain ⟨stored, s', hseated, houtcome, hcells⟩ := hupserted locked
    obtain ⟨rfl, rfl⟩ := hseated.of_crowded habs primary secondary
    exact ⟨houtcome, hcells⟩

/-- The small table with three keys in bucket 1, of which the middle one was removed. -/
def gapped : Table .w16 .w16 :=
  let filled := (small.handle fourLanes [] (.call (.upsertAll [(1, 1), (4, 4), (6, 6)]))).2
  (filled.handle fourLanes [] (.call (.erase 4 true))).2

theorem reachable_gapped : gapped.Reachable :=
  (reachable_small.call fourLanes (by decide +kernel)).call fourLanes (by decide +kernel)

/-- A present key gets another value, and an absent one gets the tombstone although a slot of the
bucket was never used. -/
theorem Reachable.store_exact_gapped :
    let lanes : Lanes := ⟨4, by decide, by decide⟩
    let changed := gapped.handle lanes [] (.call (.upsert 6 9 false))
    let inserted := gapped.handle lanes [] (.call (.insertNew 11 9))
    gapped.placed = [(1, 0, 1, 1), (1, 2, 6, 6)] ∧
    changed.1.outcome = .ok (some (.flag true)) ∧
    changed.2.placed = [(1, 0, 1, 1), (1, 2, 6, 9)] ∧
    (∃ p, gapped.config.Seat gapped.cells 11 p) ∧
    inserted.1.outcome = .ok (some (.insertion (.ok ()))) ∧
    inserted.2.placed = [(1, 0, 1, 1), (1, 1, 11, 9), (1, 2, 6, 6)] := by
  intro lanes changed inserted
  have hlive : gapped.config.Live 6 := by decide +kernel
  have hpresent := (reachable_gapped.store_exact lanes hlive 9).1
    ⟨⟨1, by decide +kernel⟩, ⟨2, by decide +kernel⟩⟩ (by decide +kernel)
  have habs : gapped.cells.Absent 11 := by
    have hall : ∀ b i, gapped.cells.key ⟨b, i⟩ ≠ 11 := by decide +kernel
    exact fun p => hall p.bucket p.index
  have hroom : ¬ Crowded gapped.cells (gapped.config.candidates 11).primary := by decide +kernel
  have hlive' : gapped.config.Live 11 := by decide +kernel
  have habsent := (reachable_gapped.store_exact lanes hlive' 9).2 habs
  have hseat := habsent.resolve_right fun h => hroom h.1
  obtain ⟨p, hp⟩ := hseat
  exact ⟨by decide +kernel, (hpresent.1 false).1, by decide +kernel, ⟨p, hp.1⟩, hp.2.2.1,
    by decide +kernel⟩

end Table

end TwoChoice
