import TwoChoice.Table
import TwoChoice.Proofs.Watch

/-!
# Reachable tables

`Table.Reachable`: made by `Table.create` and then asked one thing after the other, each call under
an admissible schedule. `Config.Quiet` is what every reachable table keeps: it is sound, no slot is
in transit and no bucket is locked (`Reachable.quiet`). In between, one slot at most is in transit,
for the call that was interrupted (`Scene.Midway`).
-/

set_option autoImplicit false

namespace TwoChoice

variable {k v : Width} {c : Config k}

namespace Call

/-- A call and the intrusions at its pauses use no reserved keys, and where either of them is an
unlocked one they do not store or remove the same key. -/
structure Admissible (c : Config k) (call : Call k v) (schedule : List (Intrusion k v)) : Prop where
  live : ∀ key ∈ call.writes, c.Live key
  intrusions_live : ∀ i ∈ schedule, ∀ key ∈ i.call.writes, c.Live key
  apart : ∀ i ∈ schedule, call.unlocked = true ∨ i.call.unlocked = true →
    ∀ key ∈ call.writes, key ∉ i.call.writes

instance (call : Call k v) (schedule : List (Intrusion k v)) :
    Decidable (call.Admissible c schedule) :=
  decidable_of_iff (call.writes.all (fun key => decide (c.Live key)) = true ∧
      schedule.all (fun i => i.call.writes.all fun key => decide (c.Live key)) = true ∧
      schedule.all (fun i => decide (call.unlocked = true ∨ i.call.unlocked = true →
        call.writes.all (fun key => !i.call.writes.contains key) = true)) = true) <| by
    simp only [List.all_eq_true, decide_eq_true_eq, Bool.not_eq_true', List.contains_eq_mem,
      decide_eq_false_iff_not]
    exact ⟨fun ⟨h1, h2, h3⟩ => ⟨h1, h2, h3⟩, fun ⟨h1, h2, h3⟩ => ⟨h1, h2, h3⟩⟩

end Call

/-- What keeps the others from a key that a call stores or removes. -/
theorem Call.Admissible.kept {call : Call k v} {schedule : List (Intrusion k v)}
    (h : call.Admissible c schedule) {l : Locks c.shape.count} {key : Word k}
    (hk : key ∈ call.writes)
    (hl : call.unlocked = true ∨ l.isLocked (c.candidates key).primary.val = true) :
    ¬ Scene.may c schedule l key := by
  intro hmay
  obtain ⟨i, hi, hmem, hor⟩ := hmay
  rcases hor with hu | hfree
  · exact h.apart i hi (.inr hu) key hk hmem
  · rcases hl with hu | hlocked
    · exact h.apart i hi (.inl hu) key hk hmem
    · rw [hfree] at hlocked
      cases hlocked

/-- The table is sound, no slot is in transit and no bucket is locked. -/
structure Config.Quiet (c : Config k) (s : Cells k v c.shape) : Prop where
  sound : c.Sound ∅ s
  unlocked : ∀ b, s.locks.isLocked b = false

namespace Scene

/-- The table is sound, but a slot may be in transit for the call that was interrupted, and the
others are kept from the key that was in it. -/
def Midway (c : Config k) (call : Call k v) (schedule : List (Intrusion k v))
    (s : Cells k v c.shape) : Prop :=
  c.Sound ∅ s ∨ ∃ p old mark, call.Vacates c old mark ∧ c.Sound {p} s ∧ s.key p = mark ∧
    s.Absent old ∧ ¬ may c schedule s.locks old

theorem keeps_midway {call : Call k v} {schedule : List (Intrusion k v)}
    (h : call.Admissible c schedule) : Keeps c schedule (Midway c call schedule) where
  sound s hs := by
    rcases hs with hs | ⟨p, _, _, _, hs, _⟩
    · exact ⟨_, hs⟩
    · exact ⟨_, hs⟩
  deeds s s' hs hds := by
    rcases hs with hs | ⟨p, old, mark, hv, hs, hk, habs, hmay⟩
    · exact .inl (Config.Deeds.sound hds hs)
    · have hslot := (Config.Deeds.same_of_mem hds hs (Set.mem_singleton p)).2
      refine .inr ⟨p, old, mark, hv, Config.Deeds.sound hds hs, ?_, ?_, ?_⟩
      · rw [Cells.key_eq_of_slot_eq hslot, hk]
      · exact Config.Deeds.absent hds (h.live old (Call.vacates_mem_writes hv)) hmay habs
      · rwa [Config.Deeds.locks hds]

end Scene

/-! ## Calls in company -/

namespace Config

theorem isLocked_holdBoth {key oldKey : Word k} {l : Locks c.shape.count} :
    (c.holdBoth key oldKey l).isLocked (c.candidates key).primary = true ∧
      (c.holdBoth key oldKey l).isLocked (c.candidates oldKey).primary = true := by
  have hcover := fun key : Word k => Locks.covers_of_lt (c.candidates key).primary.isLt
  rw [holdBoth, Locks.order]
  split
  · rename_i h
    rw [List.foldl_cons, List.foldl_nil, ← h, Locks.isLocked_acquire _ (hcover key)]
    simp
  · split <;>
      rw [List.foldl_cons, List.foldl_cons, List.foldl_nil, Locks.isLocked_acquire _ (hcover _),
        Locks.isLocked_acquire _ (hcover _), Locks.isLocked_acquire _ (hcover _),
        Locks.isLocked_acquire _ (hcover _)] <;> simp

end Config

namespace Scene

open Config

variable (lanes : Lanes) {call : Call k v} {schedule : List (Intrusion k v)}

/-- The company of a call under an admissible schedule. -/
def others (h : call.Admissible c schedule) : Company c v (List (Sight c v)) :=
  crowd c lanes schedule h.intrusions_live (Midway c call schedule)

section
variable (adm : call.Admissible c schedule) {x : Call k v} {l : Locks c.shape.count}
variable {key old mark : Word k} {g : Group} {r r' : List (Sight c v)} {s s' : Cells k v c.shape}

theorem ground_others (hx : x ∈ call.parts) (hk : key ∈ x.writes)
    (hl : x.unlocked = true ∨ l.isLocked (c.candidates key).primary.val = true) :
    (others lanes adm).Ground ∅ l key := by
  obtain ⟨hwrites, hunlocked⟩ := Call.writes_of_mem_parts hx
  have hk' := hwrites key hk
  exact ⟨adm.live key hk', adm.kept hk' (hl.imp_left hunlocked), fun _ _ hs => .inl hs.sound⟩

theorem bears_others (hx : x ∈ call.parts) (hv : x.Vacates c old mark)
    (hl : x.unlocked = true ∨ l.isLocked (c.candidates old).primary.val = true) :
    (others lanes adm).Bears ∅ l old mark := by
  obtain ⟨hwrites, hunlocked⟩ := Call.writes_of_mem_parts hx
  have hk' := hwrites old (Call.vacates_mem_writes hv)
  intro r s p _ hs hk habs
  refine .inr ⟨p, old, mark, Call.vacates_of_mem_parts hx hv, ?_, hk, habs, ?_⟩
  · have h := hs.sound
    rwa [insert_empty_eq] at h
  · rw [hs.locks]
    exact adm.kept hk' (hl.imp_left hunlocked)

theorem left_others_lt (hg : schedule.length < g.passes) (r : List (Sight c v)) :
    (others lanes adm).left r < g.passes :=
  Nat.lt_of_le_of_lt (Nat.sub_le ..) hg

/-- A part of a call that writes one key ends with the table as sound as it was, and no slot in
transit. -/
theorem update_calm (hcall : x.Updates key) (hx : x ∈ call.parts) (hg : schedule.length < g.passes)
    (hfree : ∀ b, l.isLocked b = false) (hs : c.Calm ∅ l s) :
    (x.run c g).Ensures (others lanes adm).toWorld (fun _ _ => c.Calm ∅ l) r s
      fun _ _ => c.Calm ∅ l := by
  have hlocks := hs.locks
  subst hlocks
  have hhold : ∀ {locked}, c.Calm ∅ (c.hold key locked s.locks)
      (s.setLocks (c.hold key locked s.locks)) := fun {_} => ⟨hs.sound.setLocks _, rfl⟩
  rcases hcall.forms (c := c) with ⟨value, replace, locked, reply, h⟩ | ⟨wanted, locked, h⟩
  · have hG : (others lanes adm).Ground ∅ (c.hold key locked s.locks) key :=
      ground_others lanes adm hx h.mem_writes h.unlocked_or_held
    refine h.run hG.live (store_ensures g hG hs.sound (fun _ => hfree _)
      (left_others_lt lanes adm hg r) fun stored r' s' hend => ?_)
    exact ⟨(hend.calm hG.live hhold).sound.setLocks _, rfl⟩
  · have hG : (others lanes adm).Ground ∅ (c.hold key locked s.locks) key :=
      ground_others lanes adm hx h.mem_writes h.unlocked_or_held
    refine h.run (erase_ensures g hG hs.sound (bears_others lanes adm hx h.vacates
      h.unlocked_or_held) (fun _ => hfree _) fun erased r' s' hend => ?_)
    exact ⟨(hend.calm hG.live hhold).sound.setLocks _, rfl⟩

/-- A part of a call ends with the table as sound as it was, and no slot in transit. -/
theorem part_calm (hx : x ∈ call.parts) (hg : schedule.length < g.passes)
    (hfree : ∀ b, l.isLocked b = false) (hs : c.Calm ∅ l s) :
    (x.run c g).Ensures (others lanes adm).toWorld (fun _ _ => c.Calm ∅ l) r s
      fun _ _ => c.Calm ∅ l := by
  have hlocks := hs.locks
  subst hlocks
  have hstable : (others lanes adm).Stable ((others lanes adm).turn r s) :=
    Company.stable_turn fun _ _ h => .inl (Company.turn_calm hs h).sound
  have hrefl := (others lanes adm).refl r s
  have hread : x.writes = [] → (x.run c g).Ensures (others lanes adm).toWorld
      (fun _ _ => c.Calm ∅ s.locks) r s fun _ _ => c.Calm ∅ s.locks := fun hw =>
    (Call.read_ensures hstable (Call.eq_or_of_mem_parts hx).1 hw (fun _ _ _ => hs) hrefl).mono
      fun _ _ _ ht => Company.turn_calm hs ht
  have hupdate : ∀ {key}, x.Updates key →
      (x.run c g).Ensures (others lanes adm).toWorld (fun _ _ => c.Calm ∅ s.locks) r s
        fun _ _ => c.Calm ∅ s.locks := fun hcall => update_calm lanes adm hcall hx hg hfree hs
  cases x with
  | upsert key value locked => exact hupdate rfl
  | insertNew key value => exact hupdate rfl
  | erase key locked => exact hupdate rfl
  | erasePair key value => exact hupdate rfl
  | exchange key value oldKey oldValue update =>
    have hlocked : (c.holdBoth key oldKey s.locks).isLocked (c.candidates key).primary = true ∧
        (c.holdBoth key oldKey s.locks).isLocked (c.candidates oldKey).primary = true :=
      isLocked_holdBoth
    have hG : (others lanes adm).Ground ∅ (c.holdBoth key oldKey s.locks) key :=
      ground_others lanes adm hx (by simp [Call.writes]) (.inr hlocked.1)
    have hG' : (others lanes adm).Ground ∅ (c.holdBoth key oldKey s.locks) oldKey :=
      ground_others lanes adm hx (by simp [Call.writes]) (.inr hlocked.2)
    refine Prog.ensures_map.2 (exchange_ensures g hG hG' (fun _ _ h => .inl h)
      (bears_others lanes adm hx ⟨rfl, rfl⟩ (.inr hlocked.2)) hs.sound (hfree _) (hfree _)
      fun l₁ l₂ r₁ s₁ done r₂ s₂ r₃ s₃ _ _ h₁ h h₃ => ⟨?_, rfl⟩)
    have hs₁ := Deeds.sound ((others lanes adm).deeds h₁) (hs.sound.setLocks _)
    have hs₂ := (h.calm hG hG' ⟨hs₁.setLocks _, rfl⟩).sound
    exact (Deeds.sound ((others lanes adm).deeds h₃) (hs₂.setLocks _)).setLocks _
  | upsertAll | upsertEach | insertEach | eraseEach | upsertInChunks =>
    exact absurd trivial (Call.eq_or_of_mem_parts hx).1
  | _ => exact hread rfl

/-- **A call under an admissible schedule** ends with a sound table, no slot in transit and the
locks as they were. -/
theorem call_calm (hg : schedule.length < g.passes) (hfree : ∀ b, l.isLocked b = false)
    (hs : c.Calm ∅ l s) :
    (call.run c g).Ensures (others lanes adm).toWorld (fun _ _ => c.Calm ∅ l) r s
      fun _ _ => c.Calm ∅ l := by
  refine Call.run_ensures (I := fun _ => c.Calm ∅ l) (fun _ _ _ => Iff.rfl) call
    (fun x hx r s hs => part_calm lanes adm hx hg hfree hs) (fun x hx r s hs => ?_) hs
  have hdeeds : ∀ {s'}, c.Deeds (x.may c s.locks) s s' → c.Calm ∅ l s' := fun h =>
    ⟨Deeds.sound h hs.sound, by rw [Deeds.locks h, hs.locks]⟩
  have halone := Call.deeds_alone (Call.eq_or_of_mem_parts hx).1 (Nat.zero_lt_of_lt hg)
    (fun key hk => adm.live key ((Call.writes_of_mem_parts hx).1 key hk)) hs.sound
    fun _ _ _ _ _ _ b _ => by rw [hs.locks]; exact hfree b.val
  exact (halone.mono fun _ _ _ h => hdeeds h).mono_halt fun _ _ _ h => hdeeds h

end

/-- What a run under an admissible schedule leaves, and what can be seen of it. -/
theorem watch_calm (adm : call.Admissible c schedule) {s : Cells k v c.shape} (hs : c.Quiet s) :
    Recorded schedule (Midway c call schedule) (watch c lanes schedule call s).2.1 ∧
      c.Quiet (watch c lanes schedule call s).2.2 := by
  have h := watch_ensures adm.intrusions_live (keeps_midway adm)
    (call_calm lanes (g := { lanes with passes := schedule.length + 1 }) (r := []) adm
      (Nat.lt_succ_self _) hs.unlocked ⟨hs.sound, rfl⟩)
  refine ⟨h.1, ?_⟩
  have hend := h.2
  split at hend <;> rename_i heq <;> rw [heq] <;>
    exact ⟨hend.sound, fun b => by rw [hend.locks]; exact hs.unlocked b⟩

end Scene

/-! ## New tables -/

namespace Cells

variable {sh : Shape}

theorem clear_eq_fresh (reserved : ReservedKeys k) (s : Cells k v sh) :
    s.clear reserved = fresh reserved := by
  have hbucket : ∀ b : Bucket k v sh.len, b.clear reserved = Bucket.fresh reserved := by
    intro b
    have hslots : b.slots.clear reserved = Slots.fresh reserved := by
      rw [Slots.clear, Slots.fresh]
      congr 1
      apply Vector.ext
      intro i hi
      simp
    rw [Bucket.clear, Tags.clear_eq_fresh, hslots, Bucket.fresh]
  have hbuckets : s.buckets.map (Bucket.clear reserved) =
      Vector.replicate sh.count (Bucket.fresh reserved) := by
    apply Vector.ext
    intro i hi
    simp [hbucket]
  rw [clear, hbuckets, Locks.clear_eq_fresh, fresh]

theorem bucket_fresh (reserved : ReservedKeys k) (b : Fin sh.count) :
    (fresh reserved : Cells k v sh).bucket b = Bucket.fresh reserved := by
  rw [bucket, fresh, Fin.getElem_fin, Vector.getElem_replicate]

theorem tag_fresh (reserved : ReservedKeys k) (p : Place sh) :
    (fresh reserved : Cells k v sh).tag p = Tag.empty := by
  rw [tag, bucket_fresh]
  exact Tags.get_fresh _

theorem key_fresh (reserved : ReservedKeys k) (p : Place sh) :
    (fresh reserved : Cells k v sh).key p = reserved.empty := by
  rw [key, slot, bucket_fresh, Bucket.fresh, Slots.fresh, Slots.get, Fin.getElem_fin,
    Vector.getElem_replicate]

end Cells

theorem Config.quiet_fresh (c : Config k) :
    c.Quiet (Cells.fresh c.reserved : Cells k v c.shape) where
  sound := by
    refine ⟨fun p _ => .empty (Cells.tag_fresh _ p) (Cells.key_fresh _ p),
      fun p hp => absurd hp (Set.notMem_empty p), fun p q hl _ => ?_⟩
    rw [Cells.key_fresh] at hl
    exact absurd hl not_live_empty
  unlocked b := Locks.isLocked_fresh b

namespace Table

/-- A table that was made new and then asked one thing after the other. -/
inductive Reachable : Table k v → Prop
  | create {len capacity seed reserved counting t records}
    (made : create len capacity seed reserved counting = .ok (t, records)) : Reachable t
  | call {t} (before : Reachable t) (lanes : Lanes) {schedule : List (Intrusion k v)}
    {call : Call k v} (admissible : call.Admissible t.config schedule) :
    Reachable (t.handle lanes schedule (.call call)).2
  | clear {t} (before : Reachable t) : Reachable t.clear.1
  | reseed {t} (before : Reachable t) (seed : UInt64) : Reachable (t.reseed seed).1

section
variable (t : Table k v) (lanes : Lanes) (schedule : List (Intrusion k v)) (call : Call k v)

theorem handle_config : (t.handle lanes schedule (.call call)).2.config = t.config := rfl

theorem handle_outcome : (t.handle lanes schedule (.call call)).1.outcome =
    (Scene.watch t.config lanes schedule call t.cells).1.map some := by
  show (Scene.run t.config lanes call schedule t.cells).1.map some = _
  rw [Scene.watch_eq_run lanes schedule call t.cells]

theorem handle_cells : (t.handle lanes schedule (.call call)).2.cells =
    (Scene.watch t.config lanes schedule call t.cells).2.2 := by
  show (Scene.run t.config lanes call schedule t.cells).2.2 = _
  rw [Scene.watch_eq_run lanes schedule call t.cells]

theorem clear_cells : t.clear.1.cells = Cells.fresh t.config.reserved := Cells.clear_eq_fresh _ _

theorem reseed_cells (seed : UInt64) :
    (t.reseed seed).1.cells = Cells.fresh t.config.reserved := Cells.clear_eq_fresh _ _

end

section
variable {len : BucketLen} {capacity : Nat} {seed : UInt64} {reserved : ReservedKeys k}
variable {counting : Bool} {t : Table k v} {records : List LogRecord}

theorem create_cells (h : create len capacity seed reserved counting = .ok (t, records)) :
    t.cells = Cells.fresh t.config.reserved := by
  rw [create] at h
  split at h <;> cases h
  rfl

theorem quiet_create (h : create len capacity seed reserved counting = .ok (t, records)) :
    t.config.Quiet t.cells :=
  create_cells h ▸ Config.quiet_fresh t.config

end

-- what is written down about a run on a given table can be compared with what it should be
deriving instance DecidableEq for Profile, Reply, Intruded

/-- A new table with two buckets of four slots. -/
def small : Table .w16 .w16 where
  config := { shape := .ofCapacity ⟨1, by decide, by decide⟩ 8, seed := 7, reserved := .atTop }
  cells := .fresh .atTop
  counting := false

/-- Groups of four lanes. -/
def fourLanes : Lanes := ⟨4, by decide, by decide⟩

theorem reachable_small : small.Reachable :=
  have made : create ⟨1, by decide, by decide⟩ 8 7 .atTop false = .ok (small, _) := rfl
  .create made

/-- **Every reachable table is quiet.** -/
theorem Reachable.quiet {t : Table k v} (h : t.Reachable) : t.config.Quiet t.cells := by
  induction h with
  | create made => exact quiet_create made
  | @call t _ lanes schedule call admissible ih =>
    exact handle_cells t lanes schedule call ▸ (Scene.watch_calm lanes admissible ih).2
  | @clear t _ ih => exact clear_cells t ▸ Config.quiet_fresh t.config
  | @reseed t _ seed ih => exact reseed_cells t seed ▸ Config.quiet_fresh (t.reseed seed).1.config

/-- **What a call ensures in its company holds of its report**, and the report lists the intrusions
that were seen. -/
theorem handle_ensures {t : Table k v} {lanes : Lanes} {call : Call k v}
    {schedule : List (Intrusion k v)} (adm : call.Admissible t.config schedule)
    {Q : Reply k v → List (Sight t.config v) → Cells k v t.config.shape → Prop}
    (hcall : (call.run t.config { lanes with passes := schedule.length + 1 }).Ensures
      (Scene.others lanes adm).toWorld (fun _ _ _ => False) [] t.cells Q) :
    let seen := Scene.sights t.config lanes schedule call t.cells
    let after := t.handle lanes schedule (.call call)
    after.1.intruded = (Scene.intrusions seen).map (fun x => ⟨x.1.moment, x.2⟩) ∧
      ∃ reply, after.1.outcome = .ok (some reply) ∧ Q reply seen after.2.cells := by
  intro seen after
  obtain ⟨hrecorded, hend⟩ :=
    Scene.watch_ensures adm.intrusions_live (Scene.keeps_midway adm) hcall
  have hintruded : after.1.intruded =
      (Scene.watch t.config lanes schedule call t.cells).2.1.1.intruded.toList := by
    show (Scene.run t.config lanes call schedule t.cells).2.1.intruded.toList = _
    rw [Scene.watch_eq_run lanes schedule call t.cells]
  have houtcome := handle_outcome t lanes schedule call
  have hcells := handle_cells t lanes schedule call
  refine ⟨hintruded.trans hrecorded.intruded, ?_⟩
  rw [houtcome, hcells]
  have hseen : seen = (Scene.watch t.config lanes schedule call t.cells).2.1.2 := rfl
  split at hend
  · rename_i reply w s' heq
    rw [heq] at hseen ⊢
    exact ⟨reply, rfl, hseen ▸ hend⟩
  · exact hend.elim

end Table

end TwoChoice
