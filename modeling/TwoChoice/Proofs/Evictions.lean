import TwoChoice.Proofs.Loading
import TwoChoice.Proofs.Picks
import TwoChoice.Proofs.Traces

/-!
# Evictions

A pick answers a pair from the candidate buckets of a key (`Table.Offers.resident`). So that pair
can be exchanged for a pair of the key, if the key is absent: the exchange finds the pair by the tag
of its own key, in the buckets of the other one, and fills its slot (`Exchanged.moves`). The slot is
in a candidate bucket of the old key as well, so an exchange the other way round finds it, and it
writes what was there before, the tag included (`fill_fill`).
-/

set_option autoImplicit false

namespace TwoChoice

variable {k v : Width}

namespace Config

variable {c : Config k} {T : Set (Place c.shape)} {s s' : Cells k v c.shape} {p : Place c.shape}
variable {key oldKey : Word k} {value oldValue : Word v} {update done : Bool}

/-! ## The slot of a pair -/

/-- An absent key gets the slot of a pair in its candidate buckets. -/
theorem Exchanged.moves (h : c.Exchanged s key value oldKey oldValue update done s')
    (hs : c.Sound T s) (habs : s.Absent key) (hold : c.Live oldKey)
    (hpair : s.slot p = ⟨oldKey, oldValue⟩) (hb : c.MayLie key p.bucket) :
    done = true ∧ s' = s.fill p key value := by
  cases h with
  | present found => exact absurd found (habs _)
  | @moved q _ _ pair _ =>
    have hk : s.key p = oldKey := congrArg Slot.key hpair
    have hk' : s.key q = oldKey := congrArg Slot.key pair
    obtain rfl := hs.unique p q (hk ▸ hold) (hk.trans hk'.symm)
    exact ⟨rfl, rfl⟩
  | refused _ gone => exact absurd hpair (gone hold p hb)

/-- A pair that is put back where it was leaves everything as it was. -/
theorem fill_fill (hs : c.Sound T s) (hl : c.Live (s.key p)) (key : Word k) (value : Word v) :
    (s.fill p key value).fill p (s.key p) (s.value p) = s := by
  refine Cells.ext_places (fun q => ?_) (fun q => ?_) (by simp)
  · simp only [Cells.tag_fill]
    split
    · rename_i hq
      rw [← hq, hs.tag_eq hl]
    · rfl
  · simp only [Cells.slot_fill]
    split
    · rename_i hq
      rw [← hq]
      rfl
    · rfl

theorem written_fill (s : Cells k v c.shape) (p : Place c.shape) (key : Word k) (value : Word v) :
    s.Written p (Tag.ofKey key) ⟨key, value⟩ (s.fill p key value) :=
  ⟨by simp, by simp, fun q hq => by simp [Ne.symm hq], by simp⟩

/-- The key that gives its slot up is absent then. -/
theorem absent_fill (hs : c.Sound T s) (hl : c.Live (s.key p)) (hne : key ≠ s.key p) :
    (s.fill p key value).Absent (s.key p) := by
  intro q hq
  rw [Cells.key_fill] at hq
  split at hq
  · exact hne hq
  · rename_i hpq
    exact hpq (hs.unique p q hl hq.symm)

/-! ## Counting -/

/-- The slots of a sound bucket that are taken by their tag are the live ones. -/
theorem occupancy_eq (hs : c.Sound ∅ s) (b : Fin c.shape.count) :
    s.occupancy b = c.population s b := by
  rw [← occupancy_census_eq hs b Tag.empty, Tags.occupancy_census]
  rfl

theorem population_congr (h : ∀ p, c.Live (s'.key p) ↔ c.Live (s.key p)) (b : Fin c.shape.count) :
    c.population s' b = c.population s b :=
  List.countP_congr fun i _ => by rw [decide_eq_true_iff, decide_eq_true_iff, h]

theorem live_fill_iff (hl : c.Live key) (hold : c.Live (s.key p)) (q : Place c.shape) :
    c.Live ((s.fill p key value).key q) ↔ c.Live (s.key q) := by
  rw [Cells.key_fill]
  split
  · rename_i hq
    exact iff_of_true hl (hq ▸ hold)
  · rfl

theorem occupancies_congr {sh : Shape} {s s' : Cells k v sh}
    (h : ∀ b, s'.occupancy b = s.occupancy b) :
    s'.buckets.toList.map (·.tags.occupancy) = s.buckets.toList.map (·.tags.occupancy) := by
  apply List.ext_getElem
  · simp
  · intro n h₁ h₂
    simpa [Cells.occupancy] using h ⟨n, by simpa using h₁⟩

end Config

namespace Table

open Config

variable {t : Table k v} {key : Word k} {value : Word v}

/-- A pick for the key that nobody interferes with answers the pair. -/
def Offers (t : Table k v) (key : Word k) (e : Word k × Word v) : Prop :=
  ∃ lanes call, (call = .pickSmaller key ∨ ∃ salt, call = .pick key salt) ∧
    (t.handle lanes [] (.call call)).1.outcome = .ok (some (.pick (some e)))

theorem handle_pickSmaller (t : Table k v) (lanes : Lanes) (key : Word k) :
    ∃ best, t.config.Least (t.config.residents t.cells key) best ∧
      (t.handle lanes [] (.call (.pickSmaller key))).1.outcome = .ok (some (.pick
        ((best.filter fun e => e.1 < key.hash t.config.seed).map Prod.snd))) := by
  have hrun : ((Call.pickSmaller (v := v) key).run t.config { lanes with passes := 1 }).Ensures
      (World.alone _) (fun _ _ _ => False) () t.cells fun reply _ _ =>
        ∃ best, t.config.Least (t.config.residents t.cells key) best ∧
          reply = .pick ((best.filter fun e => e.1 < key.hash t.config.seed).map Prod.snd) :=
    Prog.ensures_map.2 ((pickSmaller_alone _ key).mono fun _ _ _ h => by
      obtain ⟨-, best, hleast, rfl⟩ := h
      exact ⟨best, hleast, rfl⟩)
  obtain ⟨_, houtcome, best, hleast, rfl⟩ := handle_alone lanes hrun
  exact ⟨best, hleast, houtcome⟩

/-- What a pick answers lies in a candidate bucket of the key. -/
theorem Offers.resident {e : Word k × Word v} (h : t.Offers key e) :
    ∃ p : Place t.config.shape, t.config.MayLie key p.bucket ∧ t.config.Live (t.cells.key p) ∧
      e = (t.cells.key p, t.cells.value p) := by
  obtain ⟨lanes, call, hcall, houtcome⟩ := h
  rw [← mem_residents]
  rcases hcall with rfl | ⟨salt, rfl⟩
  · obtain ⟨best, hleast, hanswer⟩ := handle_pickSmaller t lanes key
    rw [hanswer] at houtcome
    simp only [Except.ok.injEq, Option.some.injEq, Reply.pick.injEq] at houtcome
    obtain ⟨x, hx, rfl⟩ := Option.map_eq_some_iff.1 houtcome
    cases hleast with
    | nothing => cases hx
    | found mem _ =>
      rw [Option.filter_eq_some_iff] at hx
      obtain ⟨hx, -⟩ := hx
      cases hx
      exact mem
  · rw [(handle_pick t lanes key salt).2] at houtcome
    simp only [Except.ok.injEq, Option.some.injEq, Reply.pick.injEq] at houtcome
    exact List.mem_of_getElem? houtcome

theorem handle_exchanged (h : t.Reachable) (lanes : Lanes) (hl : t.config.Live key)
    (value : Word v) (oldKey : Word k) (oldValue : Word v) (update : Bool) :
    let after := t.handle lanes [] (.call (.exchange key value oldKey oldValue update))
    ∃ done, after.1.outcome = .ok (some (.flag done)) ∧
      t.config.Exchanged t.cells key value oldKey oldValue update done after.2.cells := by
  intro after
  have hrun : ((Call.exchange key value oldKey oldValue update).run t.config
      { lanes with passes := 1 }).Ensures (World.alone _) (fun _ _ _ => False) () t.cells
      fun reply _ s' => ∃ done, reply = .flag done ∧
        t.config.Exchanged t.cells key value oldKey oldValue update done s' :=
    Prog.ensures_map.2 ((exchange_exchanged _ h.quiet.sound hl (h.quiet.unlocked _)
      (h.quiet.unlocked _)).mono fun done _ _ hdone => ⟨done, rfl, hdone⟩)
  obtain ⟨_, houtcome, done, rfl, hexchanged⟩ := handle_alone lanes hrun
  exact ⟨done, houtcome, hexchanged⟩

/-- An exchange of a pair for one of an absent key fills its slot. -/
theorem handle_moves (h : t.Reachable) (lanes : Lanes) {oldKey : Word k} {oldValue : Word v}
    {p : Place t.config.shape} (hl : t.config.Live key) (habs : t.cells.Absent key)
    (hold : t.config.Live oldKey) (hpair : t.cells.slot p = ⟨oldKey, oldValue⟩)
    (hb : t.config.MayLie key p.bucket) (value : Word v) (update : Bool) :
    let after := t.handle lanes [] (.call (.exchange key value oldKey oldValue update))
    after.1.outcome = .ok (some (.flag true)) ∧
      after.2 = { t with cells := t.cells.fill p key value } := by
  intro after
  obtain ⟨done, houtcome, hexchanged⟩ := handle_exchanged h lanes hl value oldKey oldValue update
  obtain ⟨rfl, hcells⟩ := hexchanged.moves h.quiet.sound habs hold hpair hb
  exact ⟨houtcome, congrArg (fun s => ({ t with cells := s } : Table k v)) hcells⟩

section
variable {p : Place t.config.shape} (hl : t.config.Live key) (hold : t.config.Live (t.cells.key p))
variable (hfilled : ({ t with cells := t.cells.fill p key value } : Table k v).Reachable)
include hl hold hfilled

/-- A pair in the place of another one counts like it. -/
theorem counts_fill (h : t.Reachable) :
    ({ t with cells := t.cells.fill p key value } : Table k v).size = t.size ∧
      ({ t with cells := t.cells.fill p key value } : Table k v).occupancies = t.occupancies := by
  have hlive : ∀ q, t.config.Live ((t.cells.fill p key value).key q) ↔
      t.config.Live (t.cells.key q) := live_fill_iff hl hold
  refine ⟨size_congr hlive, occupancies_congr fun b => ?_⟩
  rw [occupancy_eq h.quiet.sound, occupancy_eq hfilled.quiet.sound]
  exact population_congr hlive b

/-- The new pair is found, and the key in whose place it is is not. -/
theorem handle_find_fill (hgone : (t.cells.fill p key value).Absent (t.cells.key p))
    (lanes : Lanes) :
    let filled : Table k v := { t with cells := t.cells.fill p key value }
    (filled.handle lanes [] (.call (.find key))).1.outcome =
        .ok (some (.value (some value))) ∧
      (filled.handle lanes [] (.call (.find (t.cells.key p)))).1.outcome =
        .ok (some (.value none)) := by
  intro filled
  have hslot := (written_fill t.cells p key value).slot
  rw [handle_find hfilled.quiet hl, handle_find hfilled.quiet hold,
    (contents_eq_some hfilled.quiet.sound).2 ⟨hl, p.index, hslot⟩, contents_absent hgone]
  exact ⟨rfl, rfl⟩

end

/-- **An eviction works and can be undone.** A pair that a pick for an absent key answers can be
exchanged for any pair of that key. The exchange writes the new pair and its tag to the slot of the
old pair and changes nothing else: the table keeps its size and every bucket its occupancy, the new
key is found with its value, and the old key is not found. The exchange the other way round leaves
the table exactly as it was. -/
theorem Reachable.evict_restores (h : t.Reachable) (hl : t.config.Live key)
    (habs : t.cells.Absent key) {victim : Word k} {old : Word v}
    (hoffer : t.Offers key (victim, old)) (lanes : Lanes) (value : Word v) (update : Bool) :
    let evicted := t.handle lanes [] (.call (.exchange key value victim old update))
    evicted.1.outcome = .ok (some (.flag true)) ∧
    (∃ p s', t.config.MayLie key p.bucket ∧ t.cells.slot p = ⟨victim, old⟩ ∧
      evicted.2 = { t with cells := s' } ∧
      t.cells.Written p (Tag.ofKey key) ⟨key, value⟩ s') ∧
    evicted.2.size = t.size ∧ evicted.2.occupancies = t.occupancies ∧
    (∀ lanes', (evicted.2.handle lanes' [] (.call (.find key))).1.outcome =
        .ok (some (.value (some value))) ∧
      (evicted.2.handle lanes' [] (.call (.find victim))).1.outcome =
        .ok (some (.value none))) ∧
    ∀ lanes' update', let restored :=
        evicted.2.handle lanes' [] (.call (.exchange victim old key value update'))
      restored.1.outcome = .ok (some (.flag true)) ∧ restored.2 = t := by
  intro evicted
  obtain ⟨p, hb, hold, he⟩ := hoffer.resident
  obtain ⟨rfl, rfl⟩ := Prod.mk.inj he
  have hs := h.quiet.sound
  have hpair : t.cells.slot p = ⟨t.cells.key p, t.cells.value p⟩ := rfl
  obtain ⟨houtcome, hevicted⟩ := handle_moves h lanes hl habs hold hpair hb value update
  have hfilled : evicted.2.Reachable := h.call lanes ⟨by simpa [Call.writes] using ⟨hl, hold⟩,
    by simp, by simp⟩
  refine ⟨houtcome, ⟨p, _, hb, hpair, hevicted, written_fill _ p key value⟩, ?_⟩
  generalize evicted.2 = after at hevicted hfilled ⊢
  subst hevicted
  have hgone : (t.cells.fill p key value).Absent (t.cells.key p) :=
    absent_fill hs hold (habs p).symm
  obtain ⟨hsize, hoccupancies⟩ := counts_fill hl hold hfilled h
  refine ⟨hsize, hoccupancies, handle_find_fill hl hold hfilled hgone, fun lanes' update' => ?_⟩
  obtain ⟨hrestored, hback⟩ := handle_moves hfilled lanes' hold hgone hl
    (written_fill t.cells p key value).slot (hs.mayLie hold) (t.cells.value p) update'
  refine ⟨hrestored, hback.trans ?_⟩
  exact congrArg (fun s => ({ t with cells := s } : Table k v)) (fill_fill hs hold key value)

/-- An absent key evicts the pair that the salt zero points to, and gives way to it again. -/
theorem Reachable.evict_restores_paired :
    let lanes : Lanes := ⟨4, by decide, by decide⟩
    let evicted := paired.handle lanes [] (.call (.exchange 2 7 9 2 false))
    paired.Offers 2 (9, 2) ∧ evicted.1.outcome = .ok (some (.flag true)) ∧
      evicted.2.placed = [(0, 0, 5, 1), (0, 1, 2, 7)] ∧
      (evicted.2.handle lanes [] (.call (.exchange 9 2 2 7 false))).2 = paired := by
  intro lanes evicted
  have habs : paired.cells.Absent 2 := by
    have hall : ∀ b i, paired.cells.key ⟨b, i⟩ ≠ 2 := by decide +kernel
    exact fun p => hall p.bucket p.index
  have hpicked : (paired.config.residents paired.cells 2)[(Word.hash (w := .w64)
      (0 : UInt64).toBitVec paired.config.seed).toNat %
        (paired.config.residents paired.cells 2).length]? = some (9, 2) := by decide +kernel
  have hoffer : paired.Offers 2 (9, 2) :=
    ⟨lanes, _, .inr ⟨0, rfl⟩, by rw [(handle_pick paired lanes 2 0).2, hpicked]⟩
  obtain ⟨houtcome, -, -, -, -, hrestores⟩ :=
    reachable_paired.evict_restores (by decide +kernel) habs hoffer lanes 7 false
  exact ⟨hoffer, houtcome, by decide +kernel, (hrestores lanes false).2⟩

end Table

end TwoChoice
