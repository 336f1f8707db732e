import TwoChoice.Proofs.Writers

/-!
# Calls with nobody else there

Alone, a removal buries one slot or changes nothing (`Config.Erased`), and an exchange writes one
slot or changes nothing (`Config.Exchanged`). A call on a single key does one deed or none, leaves
the locks as they are, and answers according to its sequential meaning (`Call.run_alone`). Some
slots may be in transit for a call that was interrupted. A bulk call does one deed after the other
(`Call.solo_deeds`).
-/

set_option autoImplicit false

namespace TwoChoice

variable {k v : Width} {c : Config k}

namespace Company

variable {T : Set (Place c.shape)} {l : Locks c.shape.count} {key old mark : Word k}

theorem ground_alone (hl : c.Live key) : (alone c v).Ground T l key :=
  ⟨hl, fun h => h, fun _ _ _ => trivial⟩

theorem bears_alone : (alone c v).Bears T l old mark := fun _ _ _ _ _ _ _ => trivial

theorem turn_alone {r r' : Unit} {s s' : Cells k v c.shape} (h : (alone c v).turn r s r' s') :
    s' = s := h

theorem around_alone {r r' : Unit} {s s' : Cells k v c.shape}
    {step : Cells k v c.shape → Cells k v c.shape → Prop} (h : (alone c v).Around r s step r' s') :
    step s s' := by
  obtain ⟨_, s₁, s₂, h1, hstep, h2⟩ := h
  rwa [turn_alone h1, ← turn_alone h2] at hstep

end Company

namespace Config

variable {may : Word k → Prop} {T : Set (Place c.shape)} {s s' s'' : Cells k v c.shape}
variable {key oldKey : Word k} {value oldValue : Word v} {replace update locked : Bool} {r : Unit}

/-- Locks do not matter to a deed. -/
theorem Deed.setLocks (h : c.Deed may s s') (l : Locks c.shape.count) :
    c.Deed may (s.setLocks l) (s'.setLocks l) := by
  cases h with
  | overwrite value ha hl => exact .overwrite (s := s.setLocks l) value ha hl
  | insert value ha hl habs hf hb => exact .insert (s := s.setLocks l) value ha hl habs hf hb
  | remove ha hl => exact .remove (s := s.setLocks l) ha hl
  | handOver value ho hol ha hl habs hb =>
    exact .handOver (s := s.setLocks l) value ho hol ha hl habs hb

/-- What a call on a single key does alone: at most one deed. -/
structure Acts (may : Word k → Prop) (s s' : Cells k v c.shape) : Prop where
  locks : s'.locks = s.locks
  deed : s' = s ∨ c.Deed may s s'

theorem Acts.refl : Acts may s s := ⟨rfl, .inl rfl⟩

theorem Acts.of_deed (h : c.Deed may s s') : Acts may s s' := ⟨h.locks, .inr h⟩

theorem Acts.deeds (h : Acts may s s') : c.Deeds may s s' := by
  rcases h.deed with rfl | hd
  · exact .refl
  · exact .single hd

theorem Acts.mono {may' : Word k → Prop} (h : Acts may s s') (hm : ∀ key, may key → may' key) :
    Acts may' s s' :=
  ⟨h.locks, h.deed.imp_right fun hd => hd.mono hm⟩

/-- The locks that a call takes in between do not show. -/
theorem Acts.unlock {l : Locks c.shape.count} (h : Acts may (s.setLocks l) s') :
    Acts may s (s'.setLocks s.locks) :=
  ⟨rfl, h.deed.imp (fun he => by rw [he]; rfl) fun hd => hd.setLocks s.locks⟩

/-! ## The operations -/

/-! ### Stores -/

theorem Kept.acts (h : Kept key value replace s s') (hl : c.Live key) :
    Acts (· = key) s s' := by
  obtain ⟨p, rfl, rfl⟩ := h
  cases replace with
  | false => exact .refl
  | true => exact .of_deed (.overwrite value rfl hl)

theorem Entered.acts (h : Entered key value s s') (hl : c.Live key) : Acts (· = key) s s' := by
  obtain ⟨p, habs, hf, hb, rfl⟩ := h
  exact .of_deed (.insert value rfl hl habs hf hb)

theorem store_alone {E : Halt → Unit → Cells k v c.shape → Prop} (g : Group) (hg : 0 < g.passes)
    (hs : c.Sound T s) (hl : c.Live key)
    (hfree : locked = true → s.locks.isLocked (c.candidates key).primary = false) :
    (c.store g key value replace locked).Ensures (World.alone _) E r s fun stored _ s' =>
      Acts (· = key) s s' ∧
      c.Stores (T = ∅) (c.contents s) key value replace stored (c.contents s') := by
  refine store_ensures (C := Company.alone c v) (T := T) g (Company.ground_alone hl) hs hfree hg
    fun stored r' s' h => ?_
  have hs' := hs.setLocks (c.hold key locked s.locks)
  have hcontents : c.contents (s'.setLocks s.locks) = c.contents s' := contents_setLocks _ _
  rw [hcontents, ← contents_setLocks s (c.hold key locked s.locks)]
  cases stored with
  | present =>
    have hstep := Company.around_alone h
    exact ⟨(hstep.acts hl).unlock, hstep.stores hs' hl⟩
  | inserted =>
    have hstep := Company.around_alone h
    exact ⟨(hstep.acts hl).unlock, hstep.stores hs' hl⟩
  | full =>
    obtain ⟨habs, _, s₁, _, s₂, h1, hp, h2, hsec, h3⟩ := h
    have e₁ := Company.turn_alone h1
    have e₂ := Company.turn_alone h2
    have e₃ := Company.turn_alone h3
    subst e₁
    subst e₂
    subst e₃
    refine ⟨Acts.refl.unlock, .full ((contents_eq_none hs' hl).2 habs) fun hT b hb => ?_⟩
    subst hT
    rcases mayLie_iff.1 hb with rfl | rfl
    · exact load_eq hs' hp
    · exact load_eq hs' hsec

/-! ### Removals -/

theorem remove_acts {p : Place c.shape} (hk : s.key p = key) (hl : c.Live key) :
    Acts (· = key) s ((s.vacate p c.reserved.tombstone).putTag p Tag.tombstone) := by
  subst hk
  exact .of_deed (.remove rfl hl)

/-- How a removal ends that nobody interferes with. -/
inductive Erased (c : Config k) (s : Cells k v c.shape) (key : Word k) (wanted : Option (Word v)) :
    Bool → Cells k v c.shape → Prop
  | erased {p} (live : c.Live key) (found : s.key p = key)
    (accepted : accepts wanted (s.value p) = true) :
    Erased c s key wanted true ((s.vacate p c.reserved.tombstone).putTag p Tag.tombstone)
  | kept (missing : c.Live key → ∀ p, s.key p = key → accepts wanted (s.value p) = false) :
    Erased c s key wanted false s

namespace Erased

variable {wanted : Option (Word v)} {erased : Bool}

/-- The lock that the removal takes does not show. -/
theorem unlock {l : Locks c.shape.count} (h : c.Erased (s.setLocks l) key wanted erased s') :
    c.Erased s key wanted erased (s'.setLocks s.locks) := by
  cases h with
  | erased live found accepted => exact .erased (s := s) live found accepted
  | kept missing => exact .kept (s := s) missing

theorem acts (h : c.Erased s key wanted erased s') : Acts (· = key) s s' := by
  cases h with
  | erased live found _ => exact remove_acts found live
  | kept => exact .refl

theorem erases (hs : c.Sound T s) (hl : c.Live key) (h : c.Erased s key wanted erased s') :
    c.Erases (c.contents s) key wanted erased (c.contents s') := by
  cases h with
  | erased _ found accepted =>
    rw [contents_putTag]
    exact erases_vacate hs hl found accepted
  | kept missing => exact erases_none hs (missing hl)

end Erased

theorem EraseEnds.alone {wanted : Option (Word v)} {erased : Bool} {r' : Unit} (hl : c.Live key)
    (h : EraseEnds (Company.alone c v) key wanted r s erased r' s') :
    c.Erased s key wanted erased s' := by
  cases erased with
  | true =>
    obtain ⟨p, _, s₁, _, s₂, h₁, hk, hacc, h₂, h₃⟩ := h
    obtain rfl := Company.turn_alone h₁
    obtain rfl := Company.turn_alone h₂
    obtain rfl := Company.turn_alone h₃
    exact .erased hl hk hacc
  | false =>
    obtain ⟨h₁, hno⟩ := h
    obtain rfl := Company.turn_alone h₁
    exact .kept fun _ => hno

theorem erase_alone {E : Halt → Unit → Cells k v c.shape → Prop} (g : Group)
    {wanted : Option (Word v)} (hs : c.Sound T s) (hl : c.Live key)
    (hfree : locked = true → s.locks.isLocked (c.candidates key).primary = false) :
    (c.erase g key wanted locked).Ensures (World.alone _) E r s fun erased _ s' =>
      c.Erased s key wanted erased s' :=
  erase_ensures (C := Company.alone c v) (T := T) g (Company.ground_alone hl) hs
    Company.bears_alone hfree fun _ _ _ h => (h.alone hl).unlock

/-! ### Exchanges -/

/-- What was in a slot does not matter to the pair that fills it. -/
theorem fill_vacate (s : Cells k v c.shape) (p : Place c.shape) (mark key : Word k)
    (value : Word v) : (s.vacate p mark).fill p key value = s.fill p key value := by
  rw [Cells.fill, Cells.vacate, Cells.putSlot_putTag, Cells.putSlot_putSlot, Cells.fill]

theorem handOver_acts {p : Place c.shape} (hk : s.key p = oldKey) (hl' : c.Live oldKey)
    (hl : c.Live key) (habs : s.Absent key) (hb : c.MayLie key p.bucket) :
    Acts (fun x => x = key ∨ x = oldKey) s (s.fill p key value) := by
  subst hk
  exact .of_deed (.handOver value (.inr rfl) hl' (.inl rfl) hl habs hb)

/-- How an exchange ends that nobody interferes with. -/
inductive Exchanged (c : Config k) (s : Cells k v c.shape) (key : Word k) (value : Word v)
    (oldKey : Word k) (oldValue : Word v) (update : Bool) : Bool → Cells k v c.shape → Prop
  | present {p} (found : s.key p = key) :
    Exchanged c s key value oldKey oldValue update update
      (if update then s.putSlot p ⟨key, value⟩ else s)
  | moved {p} (absent : s.Absent key) (live : c.Live oldKey) (pair : s.slot p = ⟨oldKey, oldValue⟩)
    (bucket : c.MayLie key p.bucket) :
    Exchanged c s key value oldKey oldValue update true (s.fill p key value)
  | refused (absent : s.Absent key)
    (gone : c.Live oldKey → ∀ p, c.MayLie key p.bucket → s.slot p ≠ ⟨oldKey, oldValue⟩) :
    Exchanged c s key value oldKey oldValue update false s

namespace Exchanged

variable {done : Bool}

theorem of_kept (h : Kept key value update s s') :
    c.Exchanged s key value oldKey oldValue update update s' := by
  obtain ⟨p, hp, rfl⟩ := h
  exact .present hp

/-- The locks that the exchange takes do not show. -/
theorem unlock {l : Locks c.shape.count}
    (h : c.Exchanged (s.setLocks l) key value oldKey oldValue update done s') :
    c.Exchanged s key value oldKey oldValue update done (s'.setLocks s.locks) := by
  cases h with
  | present found =>
    refine of_kept ⟨_, found, ?_⟩
    cases update <;> rfl
  | moved absent live pair bucket => exact .moved (s := s) absent live pair bucket
  | refused absent gone => exact .refused (s := s) absent gone

theorem acts (hl : c.Live key) (h : c.Exchanged s key value oldKey oldValue update done s') :
    Acts (fun x => x = key ∨ x = oldKey) s s' := by
  cases h with
  | @present p found =>
    have hkept : Kept key value update s (if update then s.putSlot p ⟨key, value⟩ else s) :=
      ⟨p, found, rfl⟩
    exact (hkept.acts hl).mono fun _ he => .inl he
  | moved absent live pair bucket =>
    exact handOver_acts (congrArg Slot.key pair) live hl absent bucket
  | refused => exact .refl

theorem exchanges (hs : c.Sound T s) (hl : c.Live key) (hl' : c.Live oldKey)
    (h : c.Exchanged s key value oldKey oldValue update done s') :
    c.Exchanges (c.contents s) key value oldKey oldValue update done (c.contents s') := by
  cases h with
  | @present p found =>
    have hkept : Kept key value update s (if update then s.putSlot p ⟨key, value⟩ else s) :=
      ⟨p, found, rfl⟩
    have hstores : c.Stores False (c.contents s) key value update .present _ := hkept.stores hs hl
    generalize c.contents (if update then s.putSlot p ⟨key, value⟩ else s) = M at hstores ⊢
    cases hstores with
    | present entry => exact .present entry
  | @moved p absent _ pair bucket =>
    rw [← fill_vacate s p c.reserved.holding]
    exact exchanges_moved hs hl hl' absent (congrArg Slot.key pair) (congrArg Slot.value pair)
      bucket
  | refused absent gone =>
    refine exchanges_refused hs hl absent fun p hk hb hv => gone hl' p hb ?_
    rw [← hk, ← hv]
    rfl

end Exchanged

theorem ExchangeEnds.alone {done : Bool} {r' : Unit} (hl' : c.Live oldKey)
    (h : ExchangeEnds (Company.alone c v) key value oldKey oldValue update r s done r' s') :
    c.Exchanged s key value oldKey oldValue update done s' := by
  cases h with
  | present found => exact .of_kept (Company.around_alone found)
  | @moved p _ t₁ _ t₂ _ t₃ _ _ h₁ habs hk hv hb h₂ h₃ h₄ =>
    have e₁ := Company.turn_alone h₁
    have e₂ := Company.turn_alone h₂
    have e₃ := Company.turn_alone h₃
    have e₄ := Company.turn_alone h₄
    subst e₁ e₂ e₃ e₄
    show c.Exchanged _ _ _ _ _ _ _ ((t₁.vacate p c.reserved.holding).fill p key value)
    rw [fill_vacate]
    have hpair : t₁.slot p = ⟨t₁.key p, t₁.value p⟩ := rfl
    exact .moved habs hl' (by rw [hpair, hk, hv]) hb
  | refused h habs hgone =>
    obtain rfl := Company.turn_alone h
    exact .refused habs fun _ p hb hp =>
      hgone p (congrArg Slot.key hp) hb (congrArg Slot.value hp)

theorem exchange_alone {E : Halt → Unit → Cells k v c.shape → Prop} (g : Group)
    (hs : c.Sound T s) (hl : c.Live key) (hl' : c.Live oldKey)
    (hfree : s.locks.isLocked (c.candidates key).primary = false)
    (hfree' : s.locks.isLocked (c.candidates oldKey).primary = false) :
    (c.exchange g key value oldKey oldValue update).Ensures (World.alone _) E r s fun done _ s' =>
      c.Exchanged s key value oldKey oldValue update done s' := by
  refine exchange_ensures (C := Company.alone c v) (T := T) g (Company.ground_alone hl)
    (Company.ground_alone hl') (fun _ _ _ => trivial) Company.bears_alone hs hfree hfree'
    fun l₁ l₂ r₁ s₁ done r₂ s₂ r₃ s₃ _ _ h₁ h h₃ => ?_
  rw [Company.turn_alone h₁, Cells.setLocks_setLocks] at h
  rw [Company.turn_alone h₃, Cells.setLocks_setLocks]
  exact (h.alone hl').unlock

/-! ### Lookups -/

theorem watched_alone : Watched (Company.alone c v) key fun _ => s.Absent key :=
  ⟨fun _ h => h, fun _ ht hp => .inl (by rw [Company.turn_alone ht, hp])⟩

theorem find?_alone {E : Halt → Unit → Cells k v c.shape → Prop} (g : Group) (hs : c.Sound T s)
    (hl : c.Live key) :
    (c.find? g key).Ensures (World.alone _) E r s fun x _ s' =>
      s' = s ∧ x = (c.contents s key).map Prod.fst := by
  refine find?_ensures (C := Company.alone c v) (l := s.locks) g hl ⟨hs, rfl⟩
    (fun _ _ _ => trivial) watched_alone (fun h => h) (fun r' s' p h hp => ?_)
    fun r' s' h habs => ?_
  · have he := Company.turn_alone h
    subst he
    subst hp
    refine ⟨rfl, ?_⟩
    rw [contents_key hs hl]
    rfl
  · refine ⟨Company.turn_alone h, ?_⟩
    rw [(contents_eq_none hs hl).2 habs]
    rfl

/-! ## Busy locks -/

section
variable {γ α : Type} {W : World γ (Cells k v c.shape)} {E : Halt → γ → Cells k v c.shape → Prop}
variable {r : γ}

theorem withLocks_waits (g : Lanes) {b : Nat} {body : Prog (Cells k v c.shape) α}
    {Q : α → γ → Cells k v c.shape → Prop} (hb : b < c.shape.count)
    (hlocked : s.locks.isLocked b = true) (hE : E (.waiting b) r s) :
    (c.withLocks g [b] body).Ensures W E r s Q := by
  simp only [withLocks, Locks.withLocks, List.forM_eq_forM, List.forM_cons, List.forM_nil]
  rw [Prog.ensures_bind, Prog.ensures_bind]
  exact lock_waits g hb hlocked hE

theorem store_waits (g : Group) {Q : Stored → γ → Cells k v c.shape → Prop} (hl : c.Live key)
    (hlocked : s.locks.isLocked (c.candidates key).primary = true)
    (hE : E (.waiting (c.candidates key).primary) r s) :
    (c.store g key value replace true).Ensures W E r s Q := by
  rw [store]
  refine (Prog.yields_require (c := c.reserved.isReserved key = false) hl _ s).ensures_bind ?_
  exact withLocks_waits g.toLanes (c.candidates key).primary.isLt hlocked hE

theorem erase_waits (g : Group) {wanted : Option (Word v)} {Q : Bool → γ → Cells k v c.shape → Prop}
    (hlocked : s.locks.isLocked (c.candidates key).primary = true)
    (hE : E (.waiting (c.candidates key).primary) r s) :
    (c.erase g key wanted true).Ensures W E r s Q := by
  rw [erase_eq]
  exact withLocks_waits g.toLanes (c.candidates key).primary.isLt hlocked hE

end

end Config

namespace Call

open Config

variable {T : Set (Place c.shape)} {s : Cells k v c.shape} {g : Group}

/-- Alone, a call that writes one key does one deed at most and answers what it means. -/
theorem update_alone {E : Halt → Unit → Cells k v c.shape → Prop} {call : Call k v} {key : Word k}
    (hcall : call.Updates key) (hg : 0 < g.passes) (hs : c.Sound T s) (hl : c.Live key)
    (hfree : ∀ b ∈ call.locks c, s.locks.isLocked b.val = false) :
    (call.run c g).Ensures (World.alone _) E () s fun reply _ s' =>
      Acts (call.may c s.locks) s s' ∧
      c.Serves (T = ∅) call (c.contents s) reply (c.contents s') := by
  rcases hcall.forms (c := c) with ⟨value, replace, locked, reply, h⟩ | ⟨wanted, locked, h⟩
  · have hfree' := h.free_iff.1 hfree
    refine h.run hl ((store_alone g hg hs hl hfree').mono fun stored _ s' hstore => ?_)
    obtain ⟨hacts, hstores⟩ := hstore
    exact ⟨hacts.mono fun x hx => hx ▸ h.may hfree', h.serves hstores⟩
  · have hfree' := h.free_iff.1 hfree
    refine h.run ((erase_alone g hs hl hfree').mono fun erased _ s' herased => ?_)
    exact ⟨herased.acts.mono fun x hx => hx ▸ h.may hfree', h.serves (herased.erases hs hl)⟩

/-- As `update_alone`, but it may wait for the lock of its key. -/
theorem update_waits {call : Call k v} {key : Word k} (hcall : call.Updates key)
    (hg : 0 < g.passes) (hs : c.Sound T s) (hl : c.Live key) :
    (call.run c g).Ensures (World.alone _) (fun _ _ => c.Deeds (call.may c s.locks) s) () s
      fun _ _ => c.Deeds (call.may c s.locks) s := by
  by_cases hfree : ∀ b ∈ call.locks c, s.locks.isLocked b.val = false
  · exact (update_alone hcall hg hs hl hfree).mono fun _ _ _ h => h.1.deeds
  · rcases hcall.forms (c := c) with ⟨value, replace, locked, reply, h⟩ | ⟨wanted, locked, h⟩
    · rw [h.free_iff, Classical.not_imp, Bool.not_eq_false] at hfree
      obtain ⟨rfl, hbusy⟩ := hfree
      exact h.run hl (store_waits g hl hbusy .refl)
    · rw [h.free_iff, Classical.not_imp, Bool.not_eq_false] at hfree
      obtain ⟨rfl, hbusy⟩ := hfree
      exact h.run (erase_waits g hbusy .refl)

/-- **Alone, a call on a single key** does one deed at most and answers what it means. -/
theorem run_alone {E : Halt → Unit → Cells k v c.shape → Prop} {call : Call k v}
    (hsingle : call.Single) (hg : 0 < g.passes) (hs : c.Sound T s)
    (hkeys : ∀ key ∈ call.keys, c.Live key)
    (hfree : ∀ b ∈ call.locks c, s.locks.isLocked b.val = false) :
    (call.run c g).Ensures (World.alone _) E () s fun reply _ s' =>
      Acts (call.may c s.locks) s s' ∧
      c.Serves (T = ∅) call (c.contents s) reply (c.contents s') := by
  have hkey : ∀ {key}, call.keys = [key] → c.Live key := fun he =>
    hkeys _ (he ▸ List.mem_singleton_self _)
  cases call with
  | upsert key value locked => exact update_alone rfl hg hs (hkey rfl) hfree
  | insertNew key value => exact update_alone rfl hg hs (hkey rfl) hfree
  | erase key locked => exact update_alone rfl hg hs (hkey rfl) hfree
  | erasePair key value => exact update_alone rfl hg hs (hkey rfl) hfree
  | find key =>
    refine Prog.ensures_map.2 ((find?_alone g hs (hkey rfl)).mono ?_)
    intro x _ s' hfind
    obtain ⟨rfl, rfl⟩ := hfind
    exact ⟨.refl, rfl, rfl⟩
  | contains key =>
    refine Prog.ensures_map.2 (Prog.ensures_bind.2 ((find?_alone g hs (hkey rfl)).mono ?_))
    intro x _ s' hfind
    obtain ⟨rfl, rfl⟩ := hfind
    exact ⟨.refl, by rw [Option.isSome_map], rfl⟩
  | exchange key value oldKey oldValue update =>
    have hfree₁ := hfree (c.candidates key).primary (by simp [Call.locks])
    have hfree₂ := hfree (c.candidates oldKey).primary (by simp [Call.locks])
    have hl := hkeys key (by simp [Call.keys, Call.writes])
    have hl' := hkeys oldKey (by simp [Call.keys, Call.writes])
    refine Prog.ensures_map.2 ((exchange_alone g hs hl hl' hfree₁ hfree₂).mono ?_)
    intro done _ s' hexchanged
    refine ⟨(hexchanged.acts hl).mono ?_, done, hexchanged.exchanges hs hl hl', rfl⟩
    rintro _ (rfl | rfl)
    · exact ⟨by simp [Call.writes], .inr hfree₁⟩
    · exact ⟨by simp [Call.writes], .inr hfree₂⟩
  | _ => exact hsingle.elim

/-- Alone, a call that writes no key changes nothing. -/
theorem read_alone {x : Call k v} (hx : ¬ x.Bulk) (hw : x.writes = []) :
    (x.run c g).Ensures (World.alone _) (fun _ _ s' => s' = s) () s fun _ _ s' => s' = s := by
  have hstable : (Company.alone c v).Stable ((Company.alone c v).turn () s) :=
    Company.stable_turn fun _ _ _ => trivial
  exact read_ensures hstable hx hw (fun _ _ _ => rfl) rfl

/-- Alone, a call that is not a bulk call does a deed at most, or it waits for a lock. -/
theorem deeds_alone {x : Call k v} (hx : ¬ x.Bulk) (hg : 0 < g.passes)
    (hlive : ∀ key ∈ x.writes, c.Live key) (hs : c.Sound T s)
    (hfree : ∀ key value oldKey oldValue update, x = .exchange key value oldKey oldValue update →
      ∀ b ∈ x.locks c, s.locks.isLocked b.val = false) :
    (x.run c g).Ensures (World.alone _) (fun _ _ => c.Deeds (x.may c s.locks) s) () s fun _ _ =>
      c.Deeds (x.may c s.locks) s := by
  have hupdate : ∀ {key}, x.Updates key → x.writes = [key] →
      (x.run c g).Ensures (World.alone _) (fun _ _ => c.Deeds (x.may c s.locks) s) () s fun _ _ =>
        c.Deeds (x.may c s.locks) s := fun hcall he =>
    update_waits hcall hg hs (hlive _ (he ▸ List.mem_singleton_self _))
  have hread : x.writes = [] →
      (x.run c g).Ensures (World.alone _) (fun _ _ => c.Deeds (x.may c s.locks) s) () s fun _ _ =>
        c.Deeds (x.may c s.locks) s := fun hw =>
    ((read_alone hx hw).mono fun _ _ _ he => he ▸ .refl).mono_halt fun _ _ _ he => he ▸ .refl
  cases x with
  | upsert key value locked => exact hupdate rfl rfl
  | insertNew key value => exact hupdate rfl rfl
  | erase key locked => exact hupdate rfl rfl
  | erasePair key value => exact hupdate rfl rfl
  | exchange key value oldKey oldValue update =>
    have hsingle : (Call.exchange key value oldKey oldValue update).Single := trivial
    have hfree' := hfree key value oldKey oldValue update rfl
    exact (run_alone hsingle hg hs hlive hfree').mono fun _ _ _ h => h.1.deeds
  | upsertAll | upsertEach | insertEach | eraseEach | upsertInChunks => exact absurd trivial hx
  | _ => exact hread rfl

/-- What every part of a call keeps alone the call keeps. -/
theorem solo_keeps {I : Cells k v c.shape → Prop} (call : Call k v)
    (hpart : ∀ x ∈ call.parts, ∀ s, I s →
      (x.run c g).Ensures (World.alone _) (fun _ _ => I) () s fun _ _ => I) (hs : I s) :
    I ((call.run c g).solo s).2 := by
  have hrun := (run_ensures (W := World.alone _) (I := fun _ => I) (fun _ _ _ => Iff.rfl) call
    (fun x hx _ s => hpart x hx s) (fun x hx _ s => hpart x hx s) (r := ()) hs).solo
  split at hrun <;> rename_i heq <;> rw [heq] <;> exact hrun

section
variable {call x : Call k v} (hx : x ∈ call.parts) (hg : 0 < g.passes)
variable (hlive : ∀ key ∈ call.writes, c.Live key) (hs : c.Sound T s)
variable (hfree : ∀ b ∈ call.locks c, s.locks.isLocked b.val = false) {s' : Cells k v c.shape}
variable (hds : c.Deeds (call.may c s.locks) s s')
include hx hfree hds

/-- An exchange among the parts of a call is the call itself, and finds its locks free. -/
theorem exchange_free (key : Word k) (value : Word v) (oldKey : Word k) (oldValue : Word v)
    (update : Bool) (he : x = .exchange key value oldKey oldValue update) :
    ∀ b ∈ x.locks c, s'.locks.isLocked b.val = false := by
  rw [(eq_or_of_mem_parts hx).2.resolve_right fun h => h _ _ _ _ _ he, Deeds.locks hds]
  exact hfree

include hg hlive hs

/-- Alone, the parts of a call do deeds that the call may do. -/
theorem part_deeds :
    (x.run c g).Ensures (World.alone _) (fun _ _ => c.Deeds (call.may c s.locks) s) () s'
      fun _ _ => c.Deeds (call.may c s.locks) s := by
  obtain ⟨hwrites, hunlocked⟩ := writes_of_mem_parts hx
  have hmay : ∀ key, x.may c s'.locks key → call.may c s.locks key := fun key h =>
    ⟨hwrites key h.1, h.2.imp hunlocked (Deeds.locks hds ▸ ·)⟩
  have h := deeds_alone (eq_or_of_mem_parts hx).1 hg (fun key hk => hlive key (hwrites key hk))
    (Deeds.sound hds hs) (exchange_free hx hfree hds)
  exact (h.mono fun _ _ _ h => hds.trans (Deeds.mono h hmay)).mono_halt
    fun _ _ _ h => hds.trans (Deeds.mono h hmay)

end

/-- **Alone, a call does deeds**, one after the other, on the keys that it stores or removes and
does not find locked. -/
theorem solo_deeds (call : Call k v) (hg : 0 < g.passes) (hlive : ∀ key ∈ call.writes, c.Live key)
    (hs : c.Sound T s) (hfree : ∀ b ∈ call.locks c, s.locks.isLocked b.val = false) :
    c.Deeds (call.may c s.locks) s ((call.run c g).solo s).2 :=
  solo_keeps call (fun _ hx _ hds => part_deeds hx hg hlive hs hfree hds) .refl

end Call

end TwoChoice
