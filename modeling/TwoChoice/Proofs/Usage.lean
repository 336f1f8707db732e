import TwoChoice.Proofs.Faults
import TwoChoice.Proofs.Inert

/-!
# Used slots

A slot is used from the moment that its tag is not the empty one any more; only `clear` and `reseed`
undo that. With nobody else there, the used slots of a bucket are its first ones (`Used`), and a
store takes an unused slot only if there is no tombstone in the bucket, so that all used slots are
live then. Hence there are as many used slots as the bucket ever had live entries at once
(`Table.Lived.used_prefix`).

A call that stores many pairs removes none, and one that removes many keys stores none, so the
tables before and after such a call tell how many entries there were in between.
-/

set_option autoImplicit false

namespace TwoChoice

variable {k v : Width}

namespace Config

variable {c : Config k} {s s' : Cells k v c.shape} {b : Fin c.shape.count} {p : Place c.shape}
variable {n : Nat}

/-- The first `n` slots of the bucket are used, and the others never were. -/
structure Used (s : Cells k v c.shape) (b : Fin c.shape.count) (n : Nat) : Prop where
  le : n ≤ c.shape.len.slots
  tag : ∀ i : Fin c.shape.len.slots, s.tag ⟨b, i⟩ ≠ Tag.empty ↔ i.val < n

/-- The number of tombstones in the bucket. -/
def tombstones (s : Cells k v c.shape) (b : Fin c.shape.count) : Nat :=
  (List.finRange c.shape.len.slots).countP fun i => decide (s.tag ⟨b, i⟩ = Tag.tombstone)

theorem countP_lt {m : Nat} (h : n ≤ m) :
    (List.finRange m).countP (fun i => decide (i.val < n)) = n := by
  have hmap : (List.finRange m).countP (fun i => decide (i.val < n)) =
      (List.range m).countP fun i => decide (i < n) := by
    rw [← List.map_coe_finRange_eq_range, List.countP_map]
    rfl
  have hlow : (List.range n).countP (fun i => decide (i < n)) = n := by
    rw [List.countP_eq_length.2 fun i hi => decide_eq_true (List.mem_range.1 hi), List.length_range]
  have hhigh : (List.range' n (m - n)).countP (fun i => decide (i < n)) = 0 := by
    rw [List.countP_eq_zero]
    intro i hi
    have := (List.mem_range'_1.1 hi).1
    simp [this]
  rw [hmap, Mask.range_eq_append h, List.countP_append, hlow, hhigh, Nat.add_zero]

/-- A used slot is live or a tombstone. -/
theorem Used.eq_add (h : Used s b n) (hs : c.Sound ∅ s) :
    n = c.population s b + tombstones s b := by
  let live := fun i : Fin c.shape.len.slots => decide (c.Live (s.key ⟨b, i⟩))
  have hlive : ∀ i, c.Live (s.key ⟨b, i⟩) ↔ s.tag ⟨b, i⟩ ≠ Tag.empty ∧ s.tag ⟨b, i⟩ ≠ Tag.tombstone :=
    fun i => by rw [live_iff_not_free hs, Cells.Free, not_or]
  have hsplit := List.countP_eq_countP_filter_add (List.finRange c.shape.len.slots)
    (fun i => decide (i.val < n)) live
  rw [countP_lt h.le, List.countP_filter, List.countP_filter] at hsplit
  rw [hsplit, population, tombstones]
  congr 1
  · refine List.countP_congr fun i _ => ?_
    rw [Bool.and_eq_true, decide_eq_true_iff, decide_eq_true_iff, ← h.tag i, hlive i]
    exact ⟨fun hi => hi.2, fun hi => ⟨hi.1, hi⟩⟩
  · refine List.countP_congr fun i _ => ?_
    rw [Bool.and_eq_true, decide_eq_true_iff, decide_eq_true_iff, ← h.tag i, Bool.not_eq_true',
      decide_eq_false_iff_not, hlive i]
    constructor
    · exact fun hi => Classical.byContradiction fun ht => hi.2 ⟨hi.1, ht⟩
    · intro ht
      exact ⟨fun he => Tag.empty_ne_tombstone (he.symm.trans ht), fun hi => hi.2 ht⟩

/-- No bucket has more live slots than used ones. -/
theorem Used.population_le (h : Used s b n) (hs : c.Sound ∅ s) : c.population s b ≤ n :=
  h.eq_add hs ▸ Nat.le_add_right _ _

/-- Without tombstones all used slots are live. -/
theorem Used.population_eq (h : Used s b n) (hs : c.Sound ∅ s)
    (hno : ∀ i, s.tag ⟨b, i⟩ ≠ Tag.tombstone) : c.population s b = n := by
  have hzero : tombstones s b = 0 := List.countP_eq_zero.2 fun i _ => by simpa using hno i
  rw [h.eq_add hs, hzero, Nat.add_zero]

theorem used_fresh (reserved : ReservedKeys k) (b : Fin c.shape.count) :
    Used (Cells.fresh reserved : Cells k v c.shape) b 0 :=
  ⟨Nat.zero_le _, fun i => by simp [Cells.tag_fresh]⟩

variable {may : Word k → Prop}

theorem Spares.used_iff (h : Spares may s s') : Used s' b n ↔ Used s b n := by
  have htag : ∀ i, s'.tag ⟨b, i⟩ ≠ Tag.empty ↔ s.tag ⟨b, i⟩ ≠ Tag.empty := fun i =>
    not_congr (h.tag_eq_empty _)
  exact ⟨fun hu => ⟨hu.le, fun i => (htag i).symm.trans (hu.tag i)⟩,
    fun hu => ⟨hu.le, fun i => (htag i).trans (hu.tag i)⟩⟩

/-! ## What a store adds -/

namespace Added

/-- A store makes no tombstone. -/
theorem tag_ne_tombstone (h : c.Added may s s') (ht : s.tag p ≠ Tag.tombstone) :
    s'.tag p ≠ Tag.tombstone := by
  cases h with
  | kept _ _ tags => rwa [tags]
  | seated =>
    rw [Cells.tag_fill]
    split
    · exact Tag.ofKey_ne_tombstone _
    · exact ht

/-- A store uses a slot for the first time only if its bucket has no tombstone. -/
theorem of_fresh (h : c.Added may s s') (ht : s.tag p = Tag.empty) (ht' : s'.tag p ≠ Tag.empty) :
    ∃ key, c.Seat s key p ∧ ∀ i, s.tag ⟨p.bucket, i⟩ ≠ Tag.tombstone := by
  cases h with
  | kept _ _ tags => exact absurd ((tags p).trans ht) ht'
  | @seated q key _ _ _ _ seat =>
    rw [Cells.tag_fill] at ht'
    split at ht'
    · rename_i hqp
      subst hqp
      refine ⟨key, seat, ?_⟩
      cases seat.next with
      | tombstone tag _ => exact absurd (ht.symm.trans tag) Tag.empty_ne_tombstone
      | empty gone _ _ => exact gone
    · exact absurd ht ht'

/-- A store uses one more slot of a bucket at most, the next one, and only if the bucket has no
tombstone. -/
theorem used (h : c.Added may s s') (hu : Used s b n) :
    Used s' b n ∨ Used s' b (n + 1) ∧ ∀ i, s.tag ⟨b, i⟩ ≠ Tag.tombstone := by
  cases h with
  | kept spares _ _ => exact .inl (spares.used_iff.2 hu)
  | @seated q key value _ _ _ seat =>
    by_cases hb : q.bucket = b
    · subst hb
      have hself : (s.fill q key value).tag q ≠ Tag.empty := by
        rw [Cells.tag_fill, if_pos rfl]
        exact Tag.ofKey_ne_empty _
      have hother : ∀ i, q ≠ ⟨q.bucket, i⟩ →
          (s.fill q key value).tag ⟨q.bucket, i⟩ = s.tag ⟨q.bucket, i⟩ := fun i hi => by
        rw [Cells.tag_fill, if_neg hi]
      cases seat.next with
      | tombstone tag _ =>
        refine .inl ⟨hu.le, fun i => ?_⟩
        by_cases hi : q = ⟨q.bucket, i⟩
        · have hused : s.tag ⟨q.bucket, i⟩ ≠ Tag.empty := by
            rw [← hi, tag]
            exact Tag.empty_ne_tombstone.symm
          exact ⟨fun _ => (hu.tag i).1 hused, fun _ => hi ▸ hself⟩
        · rw [hother i hi]
          exact hu.tag i
      | empty gone tag first =>
        have hle : n ≤ q.index.val := Nat.le_of_not_lt fun hlt => (hu.tag q.index).2 hlt tag
        -- the first empty slot is the one after the used ones
        have hindex : q.index.val = n := by
          refine Nat.le_antisymm (Nat.le_of_not_lt fun hlt => ?_) hle
          have hn : n < c.shape.len.slots := Nat.lt_trans hlt q.index.isLt
          exact Nat.lt_irrefl n ((hu.tag ⟨n, hn⟩).1 (first ⟨n, hn⟩ hlt))
        refine .inr ⟨⟨?_, fun i => ?_⟩, gone⟩
        · have := q.index.isLt
          omega
        · by_cases hi : q = ⟨q.bucket, i⟩
          · have hin : i.val = n := by rw [← hindex, hi]
            exact ⟨fun _ => by omega, fun _ => hi ▸ hself⟩
          · have hin : i.val ≠ n := fun he =>
              hi (Place.ext rfl (Fin.ext (hindex.trans he.symm)))
            rw [hother i hi, hu.tag i]
            omega
    · refine .inl ⟨hu.le, fun i => ?_⟩
      rw [Cells.tag_fill, if_neg fun hq => hb (congrArg Place.bucket hq)]
      exact hu.tag i

end Added

theorem Quiet.deeds (hs : c.Quiet s) (h : c.Deeds may s s') : c.Quiet s' :=
  ⟨Deeds.sound h hs.sound, Deeds.locks h ▸ hs.unlocked⟩

/-- What a call does to the used slots: no more of them are in use, or no tombstone is left in the
bucket. -/
structure Grown (c : Config k) (s s' : Cells k v c.shape) : Prop where
  quiet : c.Quiet s'
  used : ∀ {b n}, Used s b n → ∃ n', n ≤ n' ∧ Used s' b n' ∧
    (n' = n ∨ ∀ i, s'.tag ⟨b, i⟩ ≠ Tag.tombstone)

theorem Grown.refl (hs : c.Quiet s) : c.Grown s s :=
  ⟨hs, fun {_ n} hu => ⟨n, Nat.le_refl n, hu, .inl rfl⟩⟩

theorem Spares.grown (h : Spares may s s') (hs : c.Quiet s) : c.Grown s s' :=
  ⟨hs.deeds h.deeds, fun {_ n} hu => ⟨n, Nat.le_refl n, h.used_iff.2 hu, .inl rfl⟩⟩

theorem Grown.added {s'' : Cells k v c.shape} (h : c.Grown s s') (h' : c.Added may s' s'') :
    c.Grown s s'' := by
  refine ⟨h.quiet.deeds h'.deeds, fun {b n} hu => ?_⟩
  obtain ⟨n', hle, hu', hgrown⟩ := h.used hu
  rcases h'.used hu' with hu'' | ⟨hu'', hno⟩
  · exact ⟨n', hle, hu'', hgrown.imp_right fun hno i => h'.tag_ne_tombstone (hno i)⟩
  · exact ⟨n' + 1, Nat.le_succ_of_le hle, hu'', .inr fun i => h'.tag_ne_tombstone (hno i)⟩

end Config

open Config

namespace Call

variable {c : Config k} {s : Cells k v c.shape} {g : Group}

/-- **Alone, a call** uses unused slots only where it leaves no tombstone. -/
theorem solo_grown (call : Call k v) (hg : 0 < g.passes) (hs : c.Quiet s) :
    c.Grown s ((call.run c g).solo s).2 := by
  have hmay : ∀ x : Call k v, ∀ key ∈ x.writes, (fun _ => True) key := fun _ _ _ => trivial
  by_cases hadds : call.Adds
  · refine solo_keeps (I := c.Grown s) call (fun x hx s' hs' => ?_) (.refl hs)
    have hpart := added_alone (eq_or_of_mem_parts hx).1 (hmay x) hs'.quiet.sound
      (fun _ _ => hs'.quiet.unlocked _) ((adds_of_mem_parts hx).2 hadds) hg
    exact (hpart.mono fun _ _ _ => hs'.added).mono_halt fun _ _ _ => hs'.added
  · refine Spares.grown (solo_keeps (I := Spares (fun _ => True) s) call (fun x hx s' hs' => ?_)
      .refl) hs
    have hs₁ := hs.deeds hs'.deeds
    have hpart := spares_alone (g := g) (eq_or_of_mem_parts hx).1 (hmay x) hs₁.sound
      (fun _ _ => hs₁.unlocked _) fun h => hadds ((adds_of_mem_parts hx).1 h)
    exact (hpart.mono fun _ _ _ => hs'.trans).mono_halt fun _ _ _ => hs'.trans

/-- Alone, a call on single keys uses an unused slot only if there is no tombstone in its bucket. -/
theorem solo_fresh {x : Call k v} (hx : ¬ x.Bulk) (hg : 0 < g.passes) (hs : c.Quiet s)
    {p : Place c.shape} (ht : s.tag p = Tag.empty)
    (ht' : ((x.run c g).solo s).2.tag p ≠ Tag.empty) :
    ∃ key, c.Seat s key p ∧ ∀ i, s.tag ⟨p.bucket, i⟩ ≠ Tag.tombstone := by
  rcases solo_cases (g := g) hx hg hs.sound fun _ _ => hs.unlocked _ with hspares | ⟨-, hadded⟩
  · exact absurd ((hspares.tag_eq_empty p).2 ht) ht'
  · exact hadded.of_fresh ht ht'

end Call

namespace Table

/-- What a call leaves that nobody interferes with. -/
def after (t : Table k v) (lanes : Lanes) (call : Call k v) : Cells k v t.config.shape :=
  (t.handle lanes [] (.call call)).2.cells

/-- A table with its past: all tables between two requests since it was made, or since it was last
cleared or reseeded, itself included. Nobody interferes with the requests. -/
inductive Lived : (t : Table k v) → List (Cells k v t.config.shape) → Prop
  | create {len capacity seed reserved counting t records}
    (made : Table.create len capacity seed reserved counting = .ok (t, records)) :
    Lived t [t.cells]
  | call {t past} (before : Lived t past) (lanes : Lanes) (call : Call k v) :
    Lived { t with cells := t.after lanes call } (past ++ [t.after lanes call])
  | clear {t past} (before : Lived t past) : Lived t.clear.1 [t.clear.1.cells]
  | reseed {t past} (before : Lived t past) (seed : UInt64) :
    Lived (t.reseed seed).1 [(t.reseed seed).1.cells]

/-- The used slots of a bucket are as many as it had live entries at most. -/
structure Peak (c : Config k) (past : List (Cells k v c.shape)) (s : Cells k v c.shape)
    (b : Fin c.shape.count) (n : Nat) : Prop where
  used : Used s b n
  bound : ∀ x ∈ past, c.population x b ≤ n
  reached : ∃ x ∈ past, c.population x b = n

variable {c : Config k} {t : Table k v} {past : List (Cells k v c.shape)} {s s' : Cells k v c.shape}

theorem peak_fresh (b : Fin c.shape.count) :
    Peak c [(Cells.fresh c.reserved : Cells k v c.shape)] (.fresh c.reserved) b 0 := by
  have hu := used_fresh (v := v) (c := c) c.reserved b
  have hpopulation := Nat.le_zero.1 (hu.population_le c.quiet_fresh.sound)
  refine ⟨hu, fun x hx => ?_, _, List.mem_singleton_self _, hpopulation⟩
  obtain rfl := List.mem_singleton.1 hx
  exact Nat.le_of_eq hpopulation

/-- A call that uses more slots leaves all of them live. -/
theorem Peak.grown {b : Fin c.shape.count} {n : Nat} (h : Peak c past s b n)
    (hgrown : c.Grown s s') : ∃ n', Peak c (past ++ [s']) s' b n' := by
  obtain ⟨n', hle, hu, hpeak⟩ := hgrown.used h.used
  refine ⟨n', hu, fun x hx => ?_, ?_⟩
  · rcases List.mem_append.1 hx with hx | hx
    · exact Nat.le_trans (h.bound x hx) hle
    · obtain rfl := List.mem_singleton.1 hx
      exact hu.population_le hgrown.quiet.sound
  · rcases hpeak with rfl | hno
    · obtain ⟨x, hx, hn⟩ := h.reached
      exact ⟨x, List.mem_append_left _ hx, hn⟩
    · exact ⟨s', by simp, hu.population_eq hgrown.quiet.sound hno⟩

theorem after_eq (t : Table k v) (lanes : Lanes) (call : Call k v) : t.after lanes call =
    ((call.run t.config { lanes with passes := 1 }).solo t.cells).2 :=
  handle_cells_solo t lanes call

theorem after_grown (lanes : Lanes) (call : Call k v) (hs : t.config.Quiet t.cells) :
    t.config.Grown t.cells (t.after lanes call) := by
  rw [after_eq]
  exact call.solo_grown Nat.zero_lt_one hs

/-- What a lived table keeps. -/
theorem Lived.peak {t : Table k v} {past : List (Cells k v t.config.shape)} (h : t.Lived past) :
    t.config.Quiet t.cells ∧ ∀ b, ∃ n, Peak t.config past t.cells b n := by
  induction h with
  | @create len capacity seed reserved counting t records made =>
    rw [create_cells made]
    exact ⟨t.config.quiet_fresh, fun b => ⟨0, peak_fresh b⟩⟩
  | @call t past before lanes call ih =>
    have hgrown := after_grown lanes call ih.1
    refine ⟨hgrown.quiet, fun b => ?_⟩
    obtain ⟨n, hn⟩ := ih.2 b
    exact hn.grown hgrown
  | @clear t past before ih =>
    rw [clear_cells]
    exact ⟨t.config.quiet_fresh, fun b => ⟨0, peak_fresh b⟩⟩
  | @reseed t past before seed ih =>
    rw [reseed_cells]
    exact ⟨(t.reseed seed).1.config.quiet_fresh, fun b => ⟨0, peak_fresh b⟩⟩

/-- **The used slots of a bucket** are its first ones, and there are as many as the bucket had live
entries at once since it was last new. A call that nobody interferes with uses more of them only if
it leaves no tombstone in the bucket, and a call that is not a bulk call only if the bucket, the one
that it chose, had none. -/
theorem Lived.used_prefix {t : Table k v} {past : List (Cells k v t.config.shape)}
    (h : t.Lived past) (lanes : Lanes) :
    (∀ b, ∃ n, Peak t.config past t.cells b n) ∧
    ∀ (call : Call k v) p, t.cells.tag p = Tag.empty → (t.after lanes call).tag p ≠ Tag.empty →
      (∀ i, (t.after lanes call).tag ⟨p.bucket, i⟩ ≠ Tag.tombstone) ∧
      (¬ call.Bulk → ∃ key, t.config.Seat t.cells key p ∧
        ∀ i, t.cells.tag ⟨p.bucket, i⟩ ≠ Tag.tombstone) := by
  obtain ⟨hquiet, hpeak⟩ := h.peak
  refine ⟨hpeak, fun call p ht ht' => ⟨?_, fun hbulk => ?_⟩⟩
  · obtain ⟨n, hn⟩ := hpeak p.bucket
    obtain ⟨n', -, hu, rfl | hno⟩ := (after_grown lanes call hquiet).used hn.used
    · have hfresh : ¬ p.index.val < n' := fun hlt => (hn.used.tag p.index).2 hlt ht
      exact absurd ((hu.tag p.index).1 ht') hfresh
    · exact hno
  · rw [after_eq] at ht'
    exact Call.solo_fresh hbulk Nat.zero_lt_one hquiet ht ht'

/-- The small table with two keys. -/
def stocked : Table .w16 .w16 :=
  { small with cells := small.after fourLanes (.upsertAll [(1, 1), (4, 4)]) }

/-- One of the two keys is removed. -/
def thinned : Table .w16 .w16 :=
  { stocked with cells := stocked.after fourLanes (.erase 4 true) }

/-- Another key is stored in its place. -/
def refilled : Table .w16 .w16 :=
  { thinned with cells := thinned.after fourLanes (.insertNew 11 9) }

theorem lived_refilled : ∃ past, refilled.Lived past :=
  have made : Table.create ⟨1, by decide, by decide⟩ 8 7 .atTop false = .ok (small, _) := rfl
  have lived_stocked : stocked.Lived _ := (Lived.create made).call _ _
  have lived_thinned : thinned.Lived _ := lived_stocked.call _ _
  ⟨_, lived_thinned.call _ _⟩

/-- The next new key gets the slot after the two that are used. -/
theorem Lived.used_prefix_refilled :
    let lanes : Lanes := ⟨4, by decide, by decide⟩
    let next : Place refilled.config.shape := ⟨⟨1, by decide +kernel⟩, ⟨2, by decide +kernel⟩⟩
    ∃ past, refilled.Lived past ∧ Peak refilled.config past refilled.cells next.bucket 2 ∧
      (refilled.after lanes (.insertNew 12 5)).tag next ≠ Tag.empty ∧
      ∃ key, refilled.config.Seat refilled.cells key next := by
  intro lanes next
  obtain ⟨past, hlived⟩ := lived_refilled
  have hmain := hlived.used_prefix lanes
  have hempty : refilled.cells.tag next = Tag.empty := by decide +kernel
  have hused : (refilled.after lanes (.insertNew 12 5)).tag next ≠ Tag.empty := by decide +kernel
  refine ⟨past, hlived, ?_, hused, ?_⟩
  · have hpeak := hmain.1 next.bucket
    obtain ⟨n, hn⟩ := hpeak
    have hlow : 1 < n := (hn.used.tag ⟨1, by decide +kernel⟩).1 (by decide +kernel)
    have hhigh : ¬ 2 < n := fun hlt => (hn.used.tag next.index).2 hlt hempty
    obtain rfl : n = 2 := by omega
    exact hn
  · have hfresh := (hmain.2 (.insertNew 12 5) next hempty hused).2 fun h => h
    obtain ⟨key, hseat⟩ := hfresh
    exact ⟨key, hseat.1⟩

end Table

end TwoChoice
