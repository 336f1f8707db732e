import TwoChoice.Proofs.Probes

/-!
# What calls on one key cost

A look at a bucket costs a scan and a probe for each of its namesakes: the live slots whose key has
the tag of the key that is sought. A tag that belongs to a key stands in live slots only, and there
it is the tag of the key in the slot, so that the probes can be told from the pairs alone
(`Config.toll_eq`). A removal costs what a search costs, and so does a store that puts the key in no
slot (`Table.Reachable.probe_counts`).
-/

set_option autoImplicit false

namespace TwoChoice

variable {k v : Width}

namespace Mask

theorem count_eq_length (m : Mask) : m.count = m.indices.length := by
  rw [indices_eq, count, List.countP_eq_length_filter]

theorem count_collect {len : Nat} (hlen : len ≤ 64) (p : Nat → Bool) :
    (collect len p).count = (List.finRange len).countP fun i : Fin len => p i := by
  rw [count_eq_length, indices_collect hlen, ← List.countP_eq_length_filter,
    ← List.map_coe_finRange_eq_range, List.countP_map]
  rfl

end Mask

open Prog

namespace Config

/-- The number of live slots of a bucket whose key has the same tag. -/
def namesakes (c : Config k) (s : Cells k v c.shape) (key : Word k) (b : Fin c.shape.count) : Nat :=
  (List.finRange c.shape.len.slots).countP fun i =>
    decide (c.Live (s.key ⟨b, i⟩) ∧ Tag.ofKey (s.key ⟨b, i⟩) = Tag.ofKey key)

/-- What it costs to look for a key in its candidate buckets. -/
def lookCost (c : Config k) (s : Cells k v c.shape) (key : Word k) : Nat :=
  let cands := c.candidates key
  if (∃ i, s.key ⟨cands.primary, i⟩ = key) ∨ cands.primary = cands.secondary then
    1 + c.namesakes s key cands.primary
  else 2 + c.namesakes s key cands.primary + c.namesakes s key cands.secondary

variable {c : Config k} {s s' : Cells k v c.shape} {b : Fin c.shape.count} {key : Word k}
variable {value : Word v} {replace : Bool}

/-! ## Namesakes -/

theorem namesakes_le_population (key : Word k) : c.namesakes s key b ≤ c.population s b :=
  List.countP_mono_left fun _ _ h => decide_eq_true (of_decide_eq_true h).1

theorem namesakes_le (key : Word k) : c.namesakes s key b ≤ c.shape.len.slots :=
  (namesakes_le_population key).trans (population_le s b)

/-- A bucket with room has a slot that is not that of a namesake. -/
theorem namesakes_lt (hs : c.Sound ∅ s) (key : Word k) (hroom : ¬ Crowded s b) :
    c.namesakes s key b < c.shape.len.slots := by
  have hpopulation : c.population s b ≠ c.shape.len.slots := fun h =>
    hroom ((population_eq_slots hs).1 h)
  have hle := namesakes_le_population (s := s) (b := b) key
  have hslots := population_le s b
  omega

/-- The slots with the tag of the key are those of its namesakes. -/
theorem toll_eq (hs : c.Sound ∅ s) (key : Word k) (b : Fin c.shape.count) :
    c.toll s key b = 1 + c.namesakes s key b := by
  rw [toll, Tags.census, Mask.count_collect c.shape.len.slots_le, namesakes]
  refine congrArg (1 + ·) (List.countP_congr fun i _ => ?_)
  rw [beq_iff_eq, decide_eq_true_eq]
  constructor
  · intro htag
    have hl : c.Live (s.key ⟨b, i⟩) :=
      live_of_matching hs ((Tags.has_matching _ _ i.isLt).trans (beq_iff_eq.2 htag))
    exact ⟨hl, (hs.tag_eq hl).symm.trans htag⟩
  · intro hnamesake
    exact (hs.tag_eq hnamesake.1).trans hnamesake.2

theorem searchCost_eq (hs : c.Sound ∅ s) (key : Word k) : c.searchCost s key = c.lookCost s key := by
  have hcond : ((c.candidates key).secondary = (c.candidates key).primary ∨
        ∃ i, s.key ⟨(c.candidates key).primary, i⟩ = key) ↔
      (∃ i, s.key ⟨(c.candidates key).primary, i⟩ = key) ∨
        (c.candidates key).primary = (c.candidates key).secondary := by
    rw [or_comm, eq_comm]
  simp only [searchCost, lookCost, toll_eq hs, hcond]
  split
  · rfl
  · omega

/-! ## Bounds -/

theorem lookCost_le (s : Cells k v c.shape) (key : Word k) :
    c.lookCost s key ≤ 2 + 2 * c.shape.len.slots := by
  have hprimary := namesakes_le (s := s) (b := (c.candidates key).primary) key
  have hsecondary := namesakes_le (s := s) (b := (c.candidates key).secondary) key
  rw [lookCost]
  split <;> omega

/-- The slot that is claimed is none of those that were looked at. -/
theorem lookCost_lt (hs : c.Sound ∅ s) {p : Place c.shape} (hseat : c.Seat s key p) :
    c.lookCost s key < 2 + 2 * c.shape.len.slots := by
  have hprimary := namesakes_le (s := s) (b := (c.candidates key).primary) key
  have hsecondary := namesakes_le (s := s) (b := (c.candidates key).secondary) key
  rw [lookCost]
  split
  · omega
  by_cases hp : Crowded s (c.candidates key).primary
  · have hlt := namesakes_lt hs key (hseat.not_crowded hp)
    omega
  · have hlt := namesakes_lt hs key hp
    omega

namespace Seated

variable {ended : Stored} (h : c.Seated s key value replace ended s')
include h

theorem cost_le (hs : c.Sound ∅ s) :
    c.lookCost s key + (if ended = .inserted then 1 else 0) ≤ 2 + 2 * c.shape.len.slots := by
  cases h with
  | inserted _ seat =>
    rw [if_pos rfl]
    exact lookCost_lt hs seat
  | present | full =>
    rw [if_neg (by decide)]
    exact lookCost_le s key

theorem eq_inserted (habs : s.Absent key) (hroom : ended ≠ .full) : ended = .inserted := by
  cases h with
  | present found => exact absurd found (habs _)
  | inserted => rfl
  | full => exact absurd rfl hroom

end Seated

/-! ## A removal -/

theorem silent_bury (g : Lanes) (index : Nat) :
    (c.atTags b (Tags.bury g index) : Prog (Cells k v c.shape) Unit).Silent :=
  Silent.zoom _ ((g.silent_elect fun _ => (silent_require _ _).bind fun _ => silent_modify _).bind
    fun _ => silent_pause)

theorem silent_rekeyAt {L : BucketLen} (key replacement : Word k) (accept : Word v → Bool)
    (index : Nat) : (do
      if accept (← Slots.valueAt index) then
        Slots.exchangeKey index key replacement
      else
        return false : Prog (Slots k v L) Bool).Silent := by
  refine (Slots.silent_valueAt index).bind fun found => ?_
  split
  · exact Slots.silent_exchangeKey index key replacement
  · exact silent_pure _

/-- One bucket of a removal. -/
theorem pays_takeFrom (g : Group) (hs : c.Sound ∅ s) (hl : c.Live key) (b : Fin c.shape.count) :
    ∃ taken s', (taken.isSome ↔ ∃ i, s.key ⟨b, i⟩ = key) ∧ (taken = none → s' = s) ∧
      (takeFrom g key c.reserved.tombstone (accepts none)
        (fun b index => c.atTags b (Tags.bury g.toLanes index)) b).Pays s (c.toll s key b) taken
        s' := by
  let body := takeFrom (v := v) g key c.reserved.tombstone (accepts none)
    (fun b index => c.atTags b (Tags.bury g.toLanes index)) b
  have hprobed : body.probed s = c.toll s key b := by
    refine (pays_scan g.toLanes b _).probed_bind.trans (congrArg (1 + ·) ?_)
    split
    · rename_i hz
      rw [beq_iff_eq.1 hz, Mask.count_zero]
      rfl
    rw [probed_bind_silent fun taken => ?_, atSlots, probed_zoom, Slots.rekey]
    · exact Slots.probed_actOnKey g.toLanes key _ (fun index => silent_rekeyAt key _ _ index) _
    · cases taken with
      | none => exact silent_pure _
      | some index => exact (silent_bury g.toLanes index).bind fun _ => silent_pure _
  have hends : body.Ensures (World.alone _) (fun _ _ _ => False) () s fun taken _ s' =>
      (taken.isSome ↔ ∃ i, s.key ⟨b, i⟩ = key) ∧ (taken = none → s' = s) := by
    by_cases hex : ∃ i, s.key ⟨b, i⟩ = key
    · obtain ⟨i, hi⟩ := hex
      refine takeFrom_found (C := Company.alone c v) (T := ∅) g (Company.ground_alone hl) ⟨hs, rfl⟩
        Company.bears_alone (.inl rfl) hi rfl fun _ _ _ _ _ _ _ => ?_
      refine retag_ensures g.toLanes Tag.tombstone trivial fun _ _ _ => ?_
      exact ⟨by simpa using ⟨i, hi⟩, fun h => by cases h⟩
    · refine takeFrom_missing (C := Company.alone c v) (T := ∅) g (Company.ground_alone hl)
        ⟨hs, rfl⟩ (fun i hi => absurd ⟨i, hi⟩ hex) fun _ _ h => ?_
      exact ⟨by simpa using hex, fun _ => Company.turn_alone h⟩
  obtain ⟨taken, s', hsolo, hfound, hsame⟩ := hends.solo_ok
  exact ⟨taken, s', hfound, hsame, hsolo, hprobed⟩

/-- Alone, a removal costs what a search costs. -/
theorem probed_erase (g : Group) (locked : Bool) (hs : c.Sound ∅ s) (hl : c.Live key)
    (hfree : locked = true → s.locks.isLocked (c.candidates key).primary = false) :
    (c.erase (v := v) g key none locked).probed s = c.searchCost s key := by
  have hs₀ : c.Calm ∅ (c.hold key locked s.locks) (s.setLocks (c.hold key locked s.locks)) :=
    ⟨hs.setLocks _, rfl⟩
  obtain ⟨taken, s', hpays⟩ := pays_search fun b => pays_takeFrom g hs₀.sound hl b
  have hends : ((c.candidates key).distinct.findSomeM? (takeFrom g key c.reserved.tombstone
      (accepts none) fun b index => c.atTags b (Tags.bury g.toLanes index))).Ensures (World.alone _)
      Never () (s.setLocks (c.hold key locked s.locks))
      fun taken => EraseEnds (Company.alone c v) key none () _ taken.isSome :=
    eraseBody_ensures (C := Company.alone c v) g (Company.ground_alone hl) hs₀ Company.bears_alone
  obtain ⟨_, _, hsolo, hend⟩ := hends.solo_ok
  cases hpays.solo.symm.trans hsolo
  rw [erase_eq]
  have hbody := hpays.bind (k := fun taken => pure taken.isSome) (n := 0) (pays_pure _ _)
  rw [Nat.add_zero] at hbody
  exact (pays_guarded g.toLanes hfree hbody (hend.calm hl hs₀).locks).probed

end Config

/-- The call looks for the key, or it removes the key whatever its value. -/
inductive Call.Seeks : Call k v → Word k → Prop
  | find (key : Word k) : Seeks (.find key) key
  | contains (key : Word k) : Seeks (.contains key) key
  | erase (key : Word k) (locked : Bool) : Seeks (.erase key locked) key

namespace Table

open Config

variable {t : Table k v} {call : Call k v} {key : Word k} {value : Word v} {replace : Bool}

theorem Reachable.seek_probes (h : t.Reachable) (lanes : Lanes) (hcall : call.Seeks key)
    (hl : t.config.Live key) : t.probes lanes call = t.config.lookCost t.cells key := by
  rw [← searchCost_eq h.quiet.sound]
  cases hcall with
  | find =>
    rw [probes, Call.run, map_eq, probed_bind_silent fun _ => silent_pure _]
    exact probed_find? _ h.quiet.sound hl
  | contains =>
    rw [probes, Call.run, map_eq, probed_bind_silent fun _ => silent_pure _, Config.contains,
      probed_bind_silent fun _ => silent_pure _]
    exact probed_find? _ h.quiet.sound hl
  | erase key locked =>
    rw [probes, Call.run, map_eq, probed_bind_silent fun _ => silent_pure _]
    exact probed_erase _ locked h.quiet.sound hl fun _ => h.quiet.unlocked _

/-- What a table counts is what it is told, as long as that fits. -/
theorem handle_probes_toNat (lanes : Lanes) (call : Call k v) (hcounts : t.counting = true)
    (hle : t.probes lanes call ≤ 2 + 2 * t.config.shape.len.slots) :
    (t.handle lanes [] (.call call)).1.probes.toNat = t.probes lanes call := by
  have hslots := t.config.shape.len.slots_le
  rw [handle_probes t lanes call hcounts, UInt64.toNat_ofNat']
  exact Nat.mod_eq_of_lt (by omega)

/-- **What calls on one key cost with nobody else there.** A search or a removal makes a probe for
each bucket that it looks at and one for each live slot there whose key has the same tag; it does not
look at the secondary bucket if the key is in the primary one. A store makes as many if the key is
present or if it finds both buckets full. Otherwise it puts the key in the table and makes one probe
more. -/
theorem Reachable.probe_counts (h : t.Reachable) (hcounts : t.counting = true) (lanes : Lanes)
    (hl : t.config.Live key) :
    let report := fun call => (t.handle lanes [] (.call call)).1
    let after := fun call => (t.handle lanes [] (.call call)).2
    let bound := 2 + 2 * t.config.shape.len.slots
    (∀ call, call.Seeks key → (report call).probes.toNat = t.config.lookCost t.cells key ∧
      (report call).probes.toNat ≤ bound) ∧
    ∀ call value replace, call.StoresPair key value replace →
      ((∃ p, t.cells.key p = key) ∨ (report call).isFull = true →
        (report call).probes.toNat = t.config.lookCost t.cells key) ∧
      (t.cells.Absent key → (report call).isFull = false →
        (after call).size = t.size + 1 ∧
        (report call).probes.toNat = t.config.lookCost t.cells key + 1) ∧
      (report call).probes.toNat ≤ bound := by
  intro report after bound
  refine ⟨fun call hcall => ?_, fun call value replace hcall => ?_⟩
  · have hprobes := h.seek_probes lanes hcall hl
    have hle := lookCost_le t.cells key
    have hcount := handle_probes_toNat lanes call hcounts (hprobes ▸ hle)
    exact ⟨hcount.trans hprobes, (hcount.trans hprobes).trans_le hle⟩
  obtain ⟨ended, hseated, hfull, hprobes⟩ := h.store_pays lanes hcall hl
  have hgrows : (after call).size = t.size + if ended = .inserted then 1 else 0 :=
    hseated.size h.quiet.sound hl
  rw [searchCost_eq h.quiet.sound] at hprobes
  have hle : t.probes lanes call ≤ bound := hprobes.trans_le (hseated.cost_le h.quiet.sound)
  have hcount : (report call).probes.toNat = _ :=
    (handle_probes_toNat lanes call hcounts hle).trans hprobes
  have hstays : (report call).probes.toNat ≤ bound :=
    (handle_probes_toNat lanes call hcounts hle).trans_le hle
  refine ⟨fun hkept => ?_, fun habs hroom => ?_, hstays⟩
  · have hended : ended ≠ .inserted := by
      rintro rfl
      rcases hkept with hp | hsaid
      · obtain ⟨p, hp⟩ := hp
        cases (hseated.of_present h.quiet.sound hl hp).1
      · cases hfull.1 hsaid
    rw [hcount, if_neg hended]
    rfl
  · have hended : ended = .inserted := hseated.eq_inserted habs fun hended => by
      rw [hfull.2 hended] at hroom
      cases hroom
    rw [hcount, hgrows, if_pos hended]
    exact ⟨rfl, rfl⟩

/-- A table that counts, with two buckets of four slots and three keys in one of them. -/
def counted : Table .w16 .w16 :=
  ({ small with counting := true }.handle fourLanes [] (.call (.upsertAll [(1, 1), (4, 4), (6, 6)]))).2

theorem reachable_counted : counted.Reachable :=
  have made : create ⟨1, by decide, by decide⟩ 8 7 .atTop true =
    .ok ({ small with counting := true }, _) := rfl
  (Reachable.create made).call fourLanes (by decide +kernel)

/-- The key 4 has itself as its namesake, and the key 11 has none. -/
theorem Reachable.probe_counts_counted :
    let report := fun call => (counted.handle fourLanes [] (.call call)).1
    counted.cells.key ⟨⟨1, by decide +kernel⟩, ⟨1, by decide +kernel⟩⟩ = 4 ∧
    counted.config.lookCost counted.cells 4 = 2 ∧
    (report (.erase 4 true)).probes.toNat = counted.config.lookCost counted.cells 4 ∧
    (report (.upsert 4 9 true)).probes.toNat = counted.config.lookCost counted.cells 4 ∧
    counted.config.lookCost counted.cells 11 = 2 ∧
    (report (.find 11)).probes.toNat = counted.config.lookCost counted.cells 11 ∧
    (report (.insertNew 11 9)).isFull = false ∧
    (report (.insertNew 11 9)).probes.toNat = counted.config.lookCost counted.cells 11 + 1 := by
  intro report
  have hpresent := reachable_counted.probe_counts rfl fourLanes
    (show counted.config.Live 4 by decide +kernel)
  have habsent := reachable_counted.probe_counts rfl fourLanes
    (show counted.config.Live 11 by decide +kernel)
  have hkey : counted.cells.key ⟨⟨1, by decide +kernel⟩, ⟨1, by decide +kernel⟩⟩ = 4 := by
    decide +kernel
  have habs : counted.cells.Absent 11 := by
    have hall : ∀ b i, counted.cells.key ⟨b, i⟩ ≠ 11 := by decide +kernel
    exact fun p => hall p.bucket p.index
  have hroom : (report (.insertNew 11 9)).isFull = false := by decide +kernel
  exact ⟨hkey, by decide +kernel, (hpresent.1 _ (.erase 4 true)).1,
    (hpresent.2 _ _ _ (.upsert 4 9 true)).1 (.inl ⟨_, hkey⟩), by decide +kernel,
    (habsent.1 _ (.find 11)).1, hroom,
    ((habsent.2 _ _ _ (.insertNew 11 9)).2.1 habs hroom).2⟩

end Table

end TwoChoice
