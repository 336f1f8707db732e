import TwoChoice.Proofs.Reads

/-!
# Full buckets

A store that finds no room has scanned its primary bucket first and its secondary bucket later. Each
of them was full when it was scanned (`NoRoom`), but others may have freed a slot of the first
one before the second one was full: then at no instant both are full, and the store fails all the
same (`not_full_together`). If the others remove nothing, a slot that is taken stays taken
(`Cells.Fuller`), and both buckets are full at once when the second one is scanned.
-/

set_option autoImplicit false

namespace TwoChoice

variable {k v : Width}

/-- A slot that is taken stays taken. -/
def Cells.Fuller {sh : Shape} (s s' : Cells k v sh) : Prop := ∀ p, s'.Free p → s.Free p

namespace Cells.Fuller

variable {sh : Shape} {s s' s'' : Cells k v sh}

theorem refl (s : Cells k v sh) : s.Fuller s := fun _ h => h

theorem trans (h : s.Fuller s') (h' : s'.Fuller s'') : s.Fuller s'' := fun p hp => h p (h' p hp)

theorem of_tag (h : ∀ p, s'.tag p = s.tag p) : s.Fuller s' := fun p hp => by rwa [Free, ← h p]

/-- The locks that a call takes in between do not matter. -/
theorem unlock {l l' : Locks sh.count} (h : (s.setLocks l).Fuller s') :
    s.Fuller (s'.setLocks l') := by
  intro p hp
  rw [Free, tag_setLocks] at hp
  have hfree := h p hp
  rwa [Free, tag_setLocks] at hfree

/-- A slot whose key got its tag is taken. -/
theorem of_tag_ofKey (p : Place sh) (key : Word k)
    (h : ∀ q, s'.tag q = if p = q then Tag.ofKey key else s.tag q) : s.Fuller s' := by
  intro q hq
  rw [Free, h q] at hq
  split at hq
  · exact (hq.elim (Tag.ofKey_ne_empty _) (Tag.ofKey_ne_tombstone _)).elim
  · exact hq

end Cells.Fuller

variable {c : Config k}

/-- The call removes keys. -/
def Call.Removes : Call k v → Prop
  | .erase .. | .erasePair .. | .eraseEach _ => True
  | _ => False

/-! ## Calls that remove nothing -/

namespace Config

variable {s s' : Cells k v c.shape} {key oldKey : Word k} {value oldValue : Word v}
variable {replace update : Bool} {r r₀ : Unit}

theorem Kept.fuller (h : Kept key value replace s s') : s.Fuller s' := by
  obtain ⟨p, -, rfl⟩ := h
  exact .of_tag fun q => by split <;> simp

theorem Entered.fuller (h : Entered key value s s') : s.Fuller s' := by
  obtain ⟨p, -, -, -, rfl⟩ := h
  exact .of_tag_ofKey p key (s.tag_fill p · key value)

theorem StoreEnds.fuller {stored : Stored}
    (h : StoreEnds (Company.alone c v) key value replace r₀ s stored r s') : s.Fuller s' := by
  cases stored with
  | present => exact (Company.around_alone h).fuller
  | inserted => exact (Company.around_alone h).fuller
  | full =>
    obtain rfl := Company.turn_alone h.2.turn
    exact .refl _

/-- An exchange frees no slot: the one that it takes gets the tag of the new key. -/
theorem ExchangeEnds.fuller {done : Bool}
    (h : ExchangeEnds (Company.alone c v) key value oldKey oldValue update r₀ s done r s') :
    s.Fuller s' := by
  cases h with
  | present found => exact (Company.around_alone found).fuller
  | @moved p _ t₁ _ t₂ _ t₃ _ _ h₁ _ _ _ _ h₂ h₃ h₄ =>
    obtain rfl := Company.turn_alone h₁
    obtain rfl := Company.turn_alone h₂
    obtain rfl := Company.turn_alone h₃
    obtain rfl := Company.turn_alone h₄
    exact .of_tag_ofKey p key fun q => by simp
  | refused h =>
    obtain rfl := Company.turn_alone h
    exact .refl _

end Config

namespace Call

open Config

variable {T : Set (Place c.shape)} {s : Cells k v c.shape} {g : Group} {x call : Call k v}

theorem IsStore.fuller {key : Word k} {value : Word v} {replace locked : Bool}
    {reply : Stored → Reply k v} (h : IsStore c x key value replace locked reply)
    (hg : 0 < g.passes) (hl : c.Live key) (hs : c.Sound T s) :
    (x.run c g).Ensures (World.alone _) (fun _ _ => s.Fuller) () s fun _ _ => s.Fuller := by
  by_cases hfree : locked = true → s.locks.isLocked (c.candidates key).primary = false
  · refine h.run hl (store_ensures (C := Company.alone c v) g (Company.ground_alone hl) hs hfree hg
      fun stored _ s' hend => (StoreEnds.fuller hend).unlock)
  · rw [Classical.not_imp, Bool.not_eq_false] at hfree
    obtain ⟨rfl, hbusy⟩ := hfree
    exact h.run hl (store_waits g hl hbusy (.refl s))

/-- Alone, a call that is not a bulk call and removes nothing frees no slot. -/
theorem fuller_alone (hx : ¬ x.Bulk) (hkeep : ¬ x.Removes) (hg : 0 < g.passes)
    (hlive : ∀ key ∈ x.writes, c.Live key) (hs : c.Sound T s)
    (hfree : ∀ key value oldKey oldValue update, x = .exchange key value oldKey oldValue update →
      ∀ b ∈ x.locks c, s.locks.isLocked b.val = false) :
    (x.run c g).Ensures (World.alone _) (fun _ _ => s.Fuller) () s fun _ _ => s.Fuller := by
  have hread : x.writes = [] →
      (x.run c g).Ensures (World.alone _) (fun _ _ => s.Fuller) () s fun _ _ => s.Fuller := fun hw =>
    ((read_alone hx hw).mono fun _ _ _ he => he ▸ .refl s).mono_halt fun _ _ _ he => he ▸ .refl s
  cases x with
  | upsert key value locked =>
    exact (isStore_upsert key value locked).fuller hg (hlive key (List.mem_singleton_self _)) hs
  | insertNew key value =>
    exact (isStore_insertNew key value).fuller hg (hlive key (List.mem_singleton_self _)) hs
  | exchange key value oldKey oldValue update =>
    have hlocks := hfree key value oldKey oldValue update rfl
    refine Prog.ensures_map.2 (exchange_ensures (C := Company.alone c v) g
      (Company.ground_alone (hlive key (by simp [writes])))
      (Company.ground_alone (hlive oldKey (by simp [writes]))) (fun _ _ _ => trivial)
      Company.bears_alone hs (hlocks _ (by simp [locks])) (hlocks _ (by simp [locks]))
      fun l₁ l₂ r₁ s₁ done r₂ s₂ r₃ s₃ _ _ h₁ hend h₃ => ?_)
    rw [Company.turn_alone h₁, Cells.setLocks_setLocks] at hend
    rw [Company.turn_alone h₃, Cells.setLocks_setLocks]
    exact (ExchangeEnds.fuller hend).unlock
  | erase | erasePair | eraseEach => exact absurd trivial hkeep
  | upsertAll | upsertEach | insertEach | findAll | pickEach | upsertInChunks | findInChunks =>
    exact absurd trivial hx
  | _ => exact hread rfl

theorem not_removes_of_mem_parts (hx : x ∈ call.parts) (h : ¬ call.Removes) : ¬ x.Removes := by
  cases call with
  | upsertAll | upsertEach | upsertInChunks | insertEach | findAll | findInChunks | pickEach =>
    obtain ⟨y, -, rfl⟩ := List.mem_map.1 hx
    exact fun h => h
  | eraseEach => exact absurd trivial h
  | _ =>
    obtain rfl := List.mem_singleton.1 hx
    exact h

/-- **Alone, a call that removes nothing frees no slot.** -/
theorem solo_fuller (call : Call k v) (hkeep : ¬ call.Removes) (hg : 0 < g.passes)
    (hlive : ∀ key ∈ call.writes, c.Live key) (hs : c.Sound T s)
    (hfree : ∀ b ∈ call.locks c, s.locks.isLocked b.val = false) :
    s.Fuller ((call.run c g).solo s).2 := by
  refine (solo_keeps (I := fun s' => c.Deeds (call.may c s.locks) s s' ∧ s.Fuller s') call
    (fun x hx s' hs' => ?_) ⟨.refl, .refl s⟩).2
  obtain ⟨hds, hfuller⟩ := hs'
  have hpart := fuller_alone (eq_or_of_mem_parts hx).1 (not_removes_of_mem_parts hx hkeep) hg
    (fun key hk => hlive key ((writes_of_mem_parts hx).1 key hk)) (Deeds.sound hds hs)
    (exchange_free hx hfree hds)
  exact (part_deeds hx hg hlive hs hfree hds).and
    ((hpart.mono fun _ _ _ => hfuller.trans).mono_halt fun _ _ _ => hfuller.trans)

end Call

namespace Scene

open Config

variable {lanes : Lanes} {schedule : List (Intrusion k v)}

theorem effect_fuller {T : Set (Place c.shape)} {s : Cells k v c.shape} {i : Intrusion k v}
    (hs : c.Sound T s) (hlive : ∀ key ∈ i.call.writes, c.Live key) (hkeep : ¬ i.call.Removes) :
    s.Fuller (i.effect c lanes s).2 := by
  rw [Intrusion.effect]
  cases hf : (i.call.locks c).find? fun b => s.locks.isLocked b.val with
  | some b => exact .refl s
  | none =>
    refine i.call.solo_fuller hkeep Nat.zero_lt_one hlive hs fun b hb => ?_
    simpa using List.find?_eq_none.1 hf b hb

/-- While nothing is removed, a slot that is taken stays taken. -/
theorem Follows.fuller {s s' : Cells k v c.shape} {seen : List (Sight c v)}
    (h : Follows c lanes schedule s seen s')
    (hlive : ∀ i ∈ schedule, ∀ key ∈ i.call.writes, c.Live key)
    (hkeep : ∀ i ∈ schedule, ¬ i.call.Removes) : s.Fuller s' := by
  induction h with
  | nil => exact .refl _
  | pause _ ih => exact ih
  | @intrusion _ s i _ _ mem sound _ ih =>
    exact (effect_fuller sound (hlive i mem) (hkeep i mem)).trans ih

/-! ## Instants at which buckets are full -/

/-- What can be seen of a store that finds no room. One instant shows it all if `kept`, or if the
key has one bucket only. -/
structure NoRoom (c : Config k) (key : Word k) (kept : Prop) (tables : List (Cells k v c.shape)) :
    Prop where
  absent : ∀ s ∈ tables, c.contents s key = none
  /-- The primary bucket is full at one instant, and the secondary one is full then or later. -/
  inTurn : ∃ s rest, s :: rest <:+ tables ∧ Crowded s (c.candidates key).primary ∧
    ∃ s' ∈ s :: rest, Crowded s' (c.candidates key).secondary
  atOnce : (c.candidates key).secondary = (c.candidates key).primary ∨ kept → ∃ s ∈ tables,
    Crowded s (c.candidates key).primary ∧ Crowded s (c.candidates key).secondary

/-- Locks do not matter to it. -/
theorem NoRoom.of_setLocks {key : Word k} {kept : Prop} {s : Cells k v c.shape}
    {l : Locks c.shape.count} {rest : List (Cells k v c.shape)}
    (h : NoRoom c key kept (s.setLocks l :: rest)) : NoRoom c key kept (s :: rest) := by
  have hcrowded : ∀ {b}, Crowded (s.setLocks l) b → Crowded s b := fun {b} hb i hf => hb i (by
    rwa [Cells.Free, Cells.tag_setLocks])
  have hmem : ∀ {P : Cells k v c.shape → Prop}, (P (s.setLocks l) → P s) →
      (∃ t ∈ s.setLocks l :: rest, P t) → ∃ t ∈ s :: rest, P t := by
    intro P hP hex
    obtain ⟨t, ht, hPt⟩ := hex
    rcases List.mem_cons.1 ht with rfl | ht
    · exact ⟨s, List.mem_cons_self .., hP hPt⟩
    · exact ⟨t, List.mem_cons_of_mem _ ht, hPt⟩
  refine ⟨fun t ht => ?_, ?_, fun hk => hmem (fun h => ⟨hcrowded h.1, hcrowded h.2⟩) (h.atOnce hk)⟩
  · rcases List.mem_cons.1 ht with rfl | ht
    · rw [← contents_setLocks t l]
      exact h.absent _ (List.mem_cons_self ..)
    · exact h.absent t (List.mem_cons_of_mem _ ht)
  · obtain ⟨t, tail, hsuffix, hp, hex⟩ := h.inTurn
    rcases List.suffix_cons_iff.1 hsuffix with heq | hsuffix
    · obtain ⟨rfl, rfl⟩ := List.cons.inj heq
      exact ⟨s, tail, List.suffix_rfl, hcrowded hp, hmem hcrowded hex⟩
    · exact ⟨t, tail, hsuffix.trans (List.suffix_cons ..), hp, hex⟩

/-- The instants of what is seen later come last. -/
theorem Follows.instants_suffix {s s' : Cells k v c.shape} {seen seen' : List (Sight c v)}
    (h : Follows c lanes schedule s seen s') :
    instants s' seen' <:+ instants s (seen ++ seen') := by
  induction h with
  | nil => exact List.suffix_rfl
  | pause _ ih => exact ih.trans (List.suffix_cons ..)
  | intrusion _ _ _ ih => exact ih.trans (List.suffix_cons ..)

section
variable {call : Call k v} (adm : call.Admissible c schedule) {l : Locks c.shape.count}
variable {key : Word k} {s s' : Cells k v c.shape} {seen : List (Sight c v)}

/-- Each bucket was full when it was scanned, and both when the second one was scanned if the others
remove nothing. -/
theorem noRoom_of_seenFull (hG : (others lanes adm).Ground ∅ l key) (hs : c.Calm ∅ l s)
    (habs : s.Absent key) (h : SeenFull (others lanes adm) key [] s seen s') :
    NoRoom c key (∀ i ∈ schedule, ¬ i.call.Removes) (instants s seen) := by
  have habsent : ∀ t ∈ instants s seen, c.contents t key = none := by
    obtain ⟨_, rfl, -, hinstants⟩ := turn_instants adm h.turn
    intro t ht
    obtain ⟨_, hturn⟩ := hinstants t ht
    rw [hG.contents hs hturn, contents_absent habs]
  obtain ⟨r₁, s₁, r₂, s₂, h₁, hp, h₂, hq, h₃⟩ := h
  obtain ⟨d₁, rfl, hf₁, -⟩ := h₁
  obtain ⟨d₂, rfl, hf₂, -⟩ := h₂
  obtain ⟨d₃, rfl, -, -⟩ := h₃
  rw [List.append_assoc] at habsent ⊢
  have hfirst : instants s₁ (d₂ ++ d₃) <:+ instants s (r₁ ++ (d₂ ++ d₃)) := hf₁.instants_suffix
  have hsecond : instants s₂ d₃ <:+ instants s₁ (d₂ ++ d₃) := hf₂.instants_suffix
  have hmem : s₂ ∈ instants s₁ (d₂ ++ d₃) := hsecond.subset (List.mem_cons_self ..)
  refine ⟨habsent, ⟨s₁, _, hfirst, hp, s₂, hmem, hq⟩, fun hone => ?_⟩
  rcases hone with hsame | hkept
  · exact ⟨s₁, hfirst.subset (List.mem_cons_self ..), hp, hsame ▸ hp⟩
  · have hfuller := hf₂.fuller adm.intrusions_live hkept
    exact ⟨s₂, hfirst.subset hmem, fun i hfree => hp i (hfuller _ hfree), hq⟩

variable (lanes)

/-- **In the crowd a store fails** only if it found no room. -/
theorem store_crowd_full {value : Word v} {replace locked : Bool} {reply : Stored → Reply k v}
    (hstore : Call.IsStore c call key value replace locked reply) (hs : c.Quiet s) :
    (call.run c { lanes with passes := schedule.length + 1 }).Ensures (others lanes adm).toWorld
      (fun _ _ _ => False) [] s fun answer seen _ => ∃ stored, answer = reply stored ∧
        (stored = .full → NoRoom c key (∀ i ∈ schedule, ¬ i.call.Removes) (instants s seen)) := by
  have hG : (others lanes adm).Ground ∅ (c.hold key locked s.locks) key :=
    ground_others lanes adm hstore.part hstore.mem_writes hstore.unlocked_or_held
  refine hstore.run hG.live (store_ensures _ hG hs.sound (fun _ => hs.unlocked _)
    (left_others_lt lanes adm (Nat.lt_succ_self _) _) fun stored seen s' hend => ⟨stored, rfl, ?_⟩)
  rintro rfl
  obtain ⟨habs, hfull⟩ := hend
  exact (noRoom_of_seenFull adm hG ⟨hs.sound.setLocks _, rfl⟩ habs hfull).of_setLocks

end

end Scene

/-! ## Reports -/

/-- The call stores the key, and no other. -/
def Call.StoresKey : Call k v → Word k → Prop
  | .upsert key _ _, key' | .insertNew key _, key' => key = key'
  | _, _ => False

/-- The answer of a store says that the buckets of its key are full. -/
def Reply.isFull : Reply k v → Bool
  | .flag stored => !stored
  | .insertion (.error .tableFull) => true
  | _ => false

/-- The report is of a store that says that the buckets of its key are full. -/
def Report.isFull (report : Report k v) : Bool :=
  match report.outcome with
  | .ok (some reply) => reply.isFull
  | _ => false

theorem Call.StoresKey.isStore {call : Call k v} {key : Word k} (h : call.StoresKey key) :
    ∃ value replace locked reply, IsStore c call key value replace locked reply ∧
      ∀ stored, (reply stored).isFull = true → stored = .full := by
  cases call with
  | upsert key' value locked =>
    obtain rfl : key' = key := h
    exact ⟨_, _, _, _, isStore_upsert key' value locked, fun stored hfull => by
      cases stored <;> first | rfl | cases hfull⟩
  | insertNew key' value =>
    obtain rfl : key' = key := h
    exact ⟨_, _, _, _, isStore_insertNew key' value, fun stored hfull => by
      cases stored <;> first | rfl | cases hfull⟩
  | _ => exact h.elim

/-- The call stores the pair. A key that is present gets the value if `replace`. -/
inductive Call.StoresPair : Call k v → Word k → Word v → (replace : Bool) → Prop
  | upsert (key : Word k) (value : Word v) (locked : Bool) :
    StoresPair (.upsert key value locked) key value true
  | insertNew (key : Word k) (value : Word v) : StoresPair (.insertNew key value) key value false

/-- The call is a store, and then a reply that tells whether there was room. -/
theorem Call.StoresPair.run_eq {call : Call k v} {key : Word k} {value : Word v} {replace : Bool}
    (h : call.StoresPair key value replace) (hl : c.Live key) :
    ∃ (locked : Bool) (reply : Stored → Reply k v),
      (∀ stored, (reply stored).isFull = true ↔ stored = .full) ∧
      ∀ g, call.run c g = reply <$> c.store g key value replace locked := by
  cases h with
  | upsert key value locked =>
    refine ⟨locked, fun stored => .flag (stored != .full), fun stored => ?_, fun g => ?_⟩
    · cases stored <;> simp [Reply.isFull]
    · simp only [run, Config.upsert, map_eq_pure_bind, bind_assoc, pure_bind]
  | insertNew key value =>
    refine ⟨true, fun stored => .insertion (Config.insertion stored), fun stored => ?_, fun g => ?_⟩
    · cases stored <;> simp [Config.insertion, Reply.isFull]
    rw [run, Config.insertNew, if_neg (by rw [hl]; simp), map_eq_pure_bind, map_eq_pure_bind,
      bind_assoc]
    refine bind_congr fun stored => ?_
    cases stored <;> rfl

namespace Table

open Scene Config

/-- **A store that reports full buckets found no room.** Its key is absent all the time, its primary
bucket is full at some instant, and its secondary one is full then or later. If the others remove
nothing, or if the two are the same, both are full at one instant. -/
theorem Reachable.full_found_no_room {t : Table k v} (h : t.Reachable) (lanes : Lanes)
    {schedule : List (Intrusion k v)} {call : Call k v} {key : Word k} (hcall : call.StoresKey key)
    (adm : call.Admissible t.config schedule)
    (hfull : (t.handle lanes schedule (.call call)).1.isFull = true) :
    NoRoom t.config key (∀ i ∈ schedule, ¬ i.call.Removes)
      (instants t.cells (sights t.config lanes schedule call t.cells)) := by
  obtain ⟨_, _, _, reply, hstore, hreply⟩ := hcall.isStore (c := t.config)
  obtain ⟨-, answer, houtcome, stored, rfl, hroom⟩ :=
    handle_ensures adm (store_crowd_full lanes adm hstore h.quiet)
  rw [Report.isFull, houtcome] at hfull
  exact hroom (hreply stored hfull)

/-- The small table with one slot of its bucket 1 left free. -/
def nearlyFull : Table .w16 .w16 :=
  let pairs := [(1, 1), (4, 4), (6, 6), (11, 11), (3, 3), (8, 8), (9, 9)]
  (small.handle fourLanes [] (.call (.upsertAll pairs))).2

theorem reachable_nearlyFull : nearlyFull.Reachable :=
  reachable_small.call fourLanes (by decide +kernel)

theorem nearlyFull_config : nearlyFull.config = small.config := handle_config ..

/-- The last slot is taken before the second bucket is scanned. -/
theorem Reachable.full_found_no_room_taken :
    let call : Call .w16 .w16 := .upsert 2 9 true
    let schedule := [⟨2, .upsert 7 7 true⟩]
    let seen := instants nearlyFull.cells
      (sights nearlyFull.config ⟨4, by decide, by decide⟩ schedule call nearlyFull.cells)
    (nearlyFull.handle ⟨4, by decide, by decide⟩ schedule (.call call)).1.isFull = true ∧
      NoRoom nearlyFull.config 2 True seen := by
  intro call schedule seen
  have adm : call.Admissible nearlyFull.config schedule := by
    rw [nearlyFull_config]
    decide +kernel
  have hfull :
      (nearlyFull.handle ⟨4, by decide, by decide⟩ schedule (.call call)).1.isFull = true := by
    decide +kernel
  have hkept : ∀ i ∈ schedule, ¬ i.call.Removes := by
    intro i hi
    obtain rfl := List.mem_singleton.1 hi
    exact fun h => h
  have hstores : call.StoresKey 2 := rfl
  have hroom := reachable_nearlyFull.full_found_no_room ⟨4, by decide, by decide⟩ hstores adm hfull
  exact ⟨hfull, hroom.absent, hroom.inTurn, fun _ => hroom.atOnce (.inr hkept)⟩

/-- **The buckets need not be full together** when a store says that they are: here the others free
a slot of the first one, which was scanned before, and take the last one of the second. -/
theorem not_full_together :
    ¬ ∀ {k v : Width} (t : Table k v) (lanes : Lanes) (schedule : List (Intrusion k v))
      (call : Call k v) (key : Word k), t.Reachable → call.StoresKey key →
      call.Admissible t.config schedule → (∀ i ∈ schedule, key ∉ i.call.keys) →
      (t.handle lanes schedule (.call call)).1.isFull = true →
      ∃ s ∈ instants t.cells (sights t.config lanes schedule call t.cells),
        t.config.contents s key = none ∧ Crowded s (t.config.candidates key).primary ∧
          Crowded s (t.config.candidates key).secondary := by
  intro h
  have hex := h nearlyFull ⟨4, by decide, by decide⟩ [⟨2, .erase 11 true⟩, ⟨2, .upsert 7 7 true⟩]
    (.upsert 2 9 true) 2 reachable_nearlyFull rfl (by rw [nearlyFull_config]; decide +kernel)
    (by decide) (by decide +kernel)
  have hnone : ¬ ∃ s ∈ instants nearlyFull.cells (sights nearlyFull.config
      ⟨4, by decide, by decide⟩ [⟨2, .erase 11 true⟩, ⟨2, .upsert 7 7 true⟩] (.upsert 2 9 true)
      nearlyFull.cells), Crowded s (nearlyFull.config.candidates 2).primary ∧
        Crowded s (nearlyFull.config.candidates 2).secondary := by decide +kernel
  obtain ⟨s, hs, -, hcrowded⟩ := hex
  exact hnone ⟨s, hs, hcrowded⟩

end Table

end TwoChoice
