import TwoChoice.Proofs.Guards
import TwoChoice.Proofs.Reads

/-!
# Exchanges under a schedule

What others see of an exchange while it has all of its locks. `Scene.Transfer` says step by step how
the sights of that time come about: between the steps of the exchange nothing happens but the
intrusions. A hand-over has three of these steps, and the views of the two keys change with the
first and the last of them: the old pair alone, neither key, the new pair alone. In between the slot
stays as the exchange left it. Lookups answer what is there to be seen (`Sight.Answered`).
-/

set_option autoImplicit false

namespace TwoChoice

variable {k v : Width} {c : Config k}

/-- Neither key is in the map, and the slot is in transit from one to the other. -/
structure Suspended (c : Config k) (key oldKey : Word k) (oldValue : Word v) (p : Place c.shape)
    (tag : Tag) (s : Cells k v c.shape) : Prop where
  absent : c.contents s key = none
  oldAbsent : c.contents s oldKey = none
  slot : s.slot p = ⟨c.reserved.holding, oldValue⟩
  tag : s.tag p = tag

/-- Others leave a slot in transit alone. -/
theorem Config.HandingOver.suspended {γ : Type} {C : Company c v γ} {T : Set (Place c.shape)}
    {l : Locks c.shape.count} {key oldKey : Word k} {oldValue : Word v} {p : Place c.shape}
    {tag : Tag} {r r' : γ} {s s' : Cells k v c.shape} (h : HandingOver c T l key oldKey p s)
    (hG : C.Ground T l key) (hG' : C.Ground T l oldKey)
    (hslot : s.slot p = ⟨c.reserved.holding, oldValue⟩) (htag : s.tag p = tag)
    (ht : C.turn r s r' s') : Suspended c key oldKey oldValue p tag s' := by
  have hand := h.turn hG hG' ht
  obtain ⟨htag', hslot'⟩ := Company.turn_same_of_mem h.calm ht (Set.mem_insert p T)
  exact ⟨contents_absent hand.absent, contents_absent hand.oldAbsent, hslot'.trans hslot,
    htag'.trans htag⟩

/-- A lookup that is seen answered what is seen. -/
def Sight.Answered : Sight c v → Prop
  | .pause _ => True
  | .intrusion i outcome s => ∀ key, c.Live key →
    (i.call = .find key → outcome = .ok (.value ((c.contents s key).map Prod.fst))) ∧
      (i.call = .contains key → outcome = .ok (.flag (c.contents s key).isSome))

namespace Scene

open Config

variable {lanes : Lanes} {schedule : List (Intrusion k v)} {key oldKey : Word k}
variable {value oldValue : Word v} {update : Bool} {s s' : Cells k v c.shape}
variable {seen : List (Sight c v)}

namespace Follows

theorem answered (h : Follows c lanes schedule s seen s') : ∀ x ∈ seen, x.Answered := by
  induction h with
  | nil => exact fun _ hx => absurd hx List.not_mem_nil
  | pause _ ih =>
    intro x hx
    rcases List.mem_cons.1 hx with rfl | hx
    · trivial
    · exact ih x hx
  | @intrusion T s i _ _ _ sound _ ih =>
    intro x hx
    rcases List.mem_cons.1 hx with rfl | hx
    · intro key hl
      have hread : ∀ call : Call k v, i.call = call → call.Single → call.keys = [key] →
          call.locks c = [] → ∃ reply, (i.effect c lanes s).1 = .ok reply ∧
            c.Serves (T = ∅) call (c.contents s) reply (c.contents (i.effect c lanes s).2) := by
        rintro _ rfl hsingle hkeys hlocks
        have hlive : ∀ x ∈ i.call.keys, c.Live x := fun x hx => by
          rw [hkeys] at hx
          exact List.mem_singleton.1 hx ▸ hl
        rcases effect_single lanes sound hsingle hlive with ⟨b, hb, _⟩ | ⟨reply, hreply, -, hserves⟩
        · rw [hlocks] at hb
          cases hb
        · exact ⟨reply, hreply, hserves⟩
      refine ⟨fun hcall => ?_, fun hcall => ?_⟩
      · obtain ⟨reply, hreply, rfl, hsame⟩ := hread _ hcall trivial rfl rfl
        rw [hreply, hsame]
      · obtain ⟨reply, hreply, rfl, hsame⟩ := hread _ hcall trivial rfl rfl
        rw [hreply, hsame]
    · exact ih x hx

theorem locks (h : Follows c lanes schedule s seen s') : s'.locks = s.locks := by
  induction h with
  | nil => rfl
  | pause _ ih => exact ih
  | intrusion _ _ _ ih => exact ih.trans (effect_locks _ _)

theorem locks_seen (h : Follows c lanes schedule s seen s') :
    ∀ x ∈ seen, x.cells.locks = s.locks := by
  intro x hx
  obtain ⟨_, hbefore, -⟩ := h.upto x.cells (List.mem_cons_of_mem _ (List.mem_map_of_mem hx))
  exact hbefore.locks

end Follows

/-- How the sights come about of the time in which an exchange has all its locks, and what they show
of its keys. -/
inductive Transfer (c : Config k) (lanes : Lanes) (schedule : List (Intrusion k v)) (key : Word k)
    (value : Word v) (oldKey : Word k) (oldValue : Word v) (update : Bool)
    (s : Cells k v c.shape) : List (Sight c v) → Bool → Cells k v c.shape → Prop
  /-- The key is present, and only its value may change, all at once. -/
  | present {p s₁ s₂ d₁ d₂ s'} (before : Follows c lanes schedule s d₁ s₁)
    (found : s₁.key p = key) (step : s₂ = if update then s₁.putSlot p ⟨key, value⟩ else s₁)
    (after : Follows c lanes schedule s₂ d₂ s')
    (asBefore : ∀ t ∈ instants s d₁, c.contents t key = some (s₁.value p, p.bucket))
    (asAfter : ∀ t ∈ instants s₂ d₂,
      c.contents t key = some (if update then value else s₁.value p, p.bucket))
    (old : oldKey ≠ key → ∀ t ∈ instants s d₁ ++ instants s₂ d₂,
      c.contents t oldKey = c.contents s oldKey) :
    Transfer c lanes schedule key value oldKey oldValue update s (d₁ ++ d₂) update s'
  /-- The slot of the old pair is handed over to the new one. -/
  | moved {p s₁ s₂ s₃ d₁ e₁ e₂ d₂ s'} (before : Follows c lanes schedule s d₁ s₁)
    (swapped : Follows c lanes schedule (s₁.vacate p c.reserved.holding) e₁ s₂)
    (retagged : Follows c lanes schedule (s₂.putTag p (Tag.ofKey key)) e₂ s₃)
    (published : Follows c lanes schedule (s₃.putSlot p ⟨key, value⟩) d₂ s')
    (bucket : c.MayLie key p.bucket)
    (oldOnly : ∀ t ∈ instants s d₁, c.contents t key = none ∧
      c.contents t oldKey = some (oldValue, p.bucket) ∧ t.slot p = ⟨oldKey, oldValue⟩)
    (oldTag : ∀ t ∈ instants (s₁.vacate p c.reserved.holding) e₁,
      Suspended c key oldKey oldValue p (Tag.ofKey oldKey) t)
    (newTag : ∀ t ∈ instants (s₂.putTag p (Tag.ofKey key)) e₂,
      Suspended c key oldKey oldValue p (Tag.ofKey key) t)
    (newOnly : ∀ t ∈ instants (s₃.putSlot p ⟨key, value⟩) d₂,
      c.contents t key = some (value, p.bucket) ∧ c.contents t oldKey = none) :
    Transfer c lanes schedule key value oldKey oldValue update s (d₁ ++ (e₁ ++ (e₂ ++ d₂))) true s'
  /-- The key is absent, and the old pair is not where the new one could take its slot. -/
  | refused {d s'} (only : Follows c lanes schedule s d s')
    (gone : ∀ b, c.MayLie key b → c.contents s oldKey ≠ some (oldValue, b))
    (same : ∀ t ∈ instants s d, c.contents t key = none ∧
      c.contents t oldKey = c.contents s oldKey) :
    Transfer c lanes schedule key value oldKey oldValue update s d false s'

namespace Transfer

variable {done : Bool}

/-- A transfer answers and leaves of the two keys what an exchange means, asked at its start. -/
theorem exchanges (h : Transfer c lanes schedule key value oldKey oldValue update s seen done s') :
    ∃ M, c.Exchanges (c.contents s) key value oldKey oldValue update done M ∧
      c.contents s' key = M key ∧ c.contents s' oldKey = M oldKey := by
  cases h with
  | @present p s₁ s₂ d₁ d₂ _ before found step after asBefore asAfter old =>
    have hentry := asBefore s (List.mem_cons_self ..)
    have hkey : c.contents s' key = (if update then
        Function.update (c.contents s) key (some (value, p.bucket)) else c.contents s) key := by
      rw [asAfter s' after.mem_cells]
      cases update with
      | false => exact hentry.symm
      | true => simp
    refine ⟨_, .present hentry, hkey, ?_⟩
    by_cases hk : oldKey = key
    · rw [hk]
      exact hkey
    · rw [old hk s' (List.mem_append_right _ after.mem_cells)]
      cases update with
      | false => rfl
      | true => simp [hk]
  | @moved p s₁ s₂ s₃ d₁ e₁ e₂ d₂ _ before swapped retagged published bucket oldOnly _ _ newOnly =>
    obtain ⟨habs, hold, -⟩ := oldOnly s (List.mem_cons_self ..)
    obtain ⟨hnew, hgone⟩ := newOnly s' published.mem_cells
    have hne : oldKey ≠ key := by
      rintro rfl
      rw [habs] at hold
      cases hold
    refine ⟨_, .moved habs hold bucket, ?_, ?_⟩
    · rw [hnew, Function.update_self]
    · rw [hgone, Function.update_of_ne hne, Function.update_self]
  | refused only gone same =>
    obtain ⟨habs, -⟩ := same s (List.mem_cons_self ..)
    obtain ⟨habs', hsame⟩ := same s' only.mem_cells
    exact ⟨_, .refused habs gone, habs'.trans habs.symm, hsame⟩

/-- Every sight of a transfer follows from a table with the same locks. -/
theorem exists_follows
    (h : Transfer c lanes schedule key value oldKey oldValue update s seen done s') :
    ∀ x ∈ seen, ∃ s₁ part s₂, Follows c lanes schedule s₁ part s₂ ∧ x ∈ part ∧
      s₁.locks = s.locks := by
  intro x hx
  cases h with
  | present before _ step after =>
    have hstep := congrArg Cells.locks step
    rw [apply_ite Cells.locks, Cells.locks_putSlot, ite_self] at hstep
    rcases List.mem_append.1 hx with hx | hx
    · exact ⟨_, _, _, before, hx, rfl⟩
    · exact ⟨_, _, _, after, hx, hstep.trans before.locks⟩
  | moved before swapped retagged published =>
    have h₂ := swapped.locks.trans before.locks
    simp only [List.mem_append] at hx
    rcases hx with hx | hx | hx | hx
    · exact ⟨_, _, _, before, hx, rfl⟩
    · exact ⟨_, _, _, swapped, hx, before.locks⟩
    · exact ⟨_, _, _, retagged, hx, h₂⟩
    · exact ⟨_, _, _, published, hx, retagged.locks.trans h₂⟩
  | refused only => exact ⟨_, _, _, only, hx, rfl⟩

end Transfer

section
variable (adm : (Call.exchange key value oldKey oldValue update).Admissible c schedule)

variable {l : Locks c.shape.count} (hG : (others lanes adm).Ground ∅ l key)
variable (hG' : (others lanes adm).Ground ∅ l oldKey) {r r' : List (Sight c v)}
include hG hG'

theorem transfer_present (hs : c.Calm ∅ l s)
    (h : (others lanes adm).Around r s (Kept key value update) r' s') :
    ∃ new, r' = r ++ new ∧
      Transfer c lanes schedule key value oldKey oldValue update s new update s' := by
  obtain ⟨r₁, s₁, s₂, h₁, hkept, h₂⟩ := h
  have hs₁ := Company.turn_calm hs h₁
  have hs₂ := hkept.calm hG.live hs₁
  obtain ⟨d₁, rfl, hf₁, ht₁⟩ := turn_instants adm h₁
  obtain ⟨d₂, rfl, hf₂, ht₂⟩ := turn_instants adm h₂
  obtain ⟨p, hp, hstep⟩ := hkept
  have hmap : c.contents s₂ = if update then
      Function.update (c.contents s₁) key (some (value, p.bucket)) else c.contents s₁ := by
    cases update with
    | false => rw [hstep]; rfl
    | true =>
      subst hp
      rw [hstep]
      exact contents_overwrite hs₁.sound hG.live value
  have hentry : c.contents s₁ key = some (s₁.value p, p.bucket) := by
    subst hp
    exact contents_key hs₁.sound hG.live
  refine ⟨d₁ ++ d₂, List.append_assoc .., .present hf₁ hp hstep hf₂ ?_ ?_ ?_⟩
  · intro t ht
    obtain ⟨_, ht'⟩ := ht₁ t ht
    rw [hG.contents hs ht', ← hG.contents hs h₁, hentry]
  · intro t ht
    obtain ⟨_, ht'⟩ := ht₂ t ht
    rw [hG.contents hs₂ ht', hmap]
    cases update with
    | false => exact hentry
    | true => exact Function.update_self ..
  · intro hne t ht
    rcases List.mem_append.1 ht with ht | ht
    · obtain ⟨_, ht'⟩ := ht₁ t ht
      exact hG'.contents hs ht'
    · obtain ⟨_, ht'⟩ := ht₂ t ht
      rw [hG'.contents hs₂ ht', ← hG'.contents hs h₁, hmap]
      cases update with
      | false => rfl
      | true => exact Function.update_of_ne hne ..

theorem transfer_moved {r₁ r₂ r₃ : List (Sight c v)} {s₁ s₂ s₃ : Cells k v c.shape}
    {p : Place c.shape} (hs : c.Calm ∅ l s) (h₁ : (others lanes adm).turn r s r₁ s₁)
    (habs : s₁.Absent key) (hk : s₁.key p = oldKey) (hv : s₁.value p = oldValue)
    (hb : c.MayLie key p.bucket)
    (h₂ : (others lanes adm).turn r₁ (s₁.vacate p c.reserved.holding) r₂ s₂)
    (h₃ : (others lanes adm).turn r₂ (s₂.putTag p (Tag.ofKey key)) r₃ s₃)
    (h₄ : (others lanes adm).turn r₃ (s₃.putSlot p ⟨key, value⟩) r' s') :
    ∃ new, r' = r ++ new ∧
      Transfer c lanes schedule key value oldKey oldValue update s new true s' := by
  have hs₁ := Company.turn_calm hs h₁
  have hkey : s.key p = oldKey := (hG'.key_iff hs h₁).1 hk
  have hslot : s.slot p = ⟨oldKey, oldValue⟩ := by
    rw [← (hG'.same hs h₁ hkey).2, ← hk, ← hv]
    rfl
  -- the slot after each of the three steps
  have hand₁ := HandingOver.begin hs₁ habs hk hG.live hG'.live
  have hvacated : (s₁.vacate p c.reserved.holding).slot p = ⟨c.reserved.holding, oldValue⟩ := by
    rw [Cells.slot_vacate, if_pos rfl, hv]
  have htag₁ : (s₁.vacate p c.reserved.holding).tag p = Tag.ofKey oldKey := by
    subst hk
    exact (Cells.tag_vacate ..).trans (hs₁.sound.tag_eq hG'.live)
  have hsus₂ := hand₁.suspended hG hG' hvacated htag₁ h₂
  have hand₂ := (hand₁.turn hG hG' h₂).retag
  have hretagged := (Cells.slot_putTag s₂ p p (Tag.ofKey key)).trans hsus₂.slot
  have htag₂ : (s₂.putTag p (Tag.ofKey key)).tag p = Tag.ofKey key := by simp
  have hsus₃ := hand₂.suspended hG hG' hretagged htag₂ h₃
  have hand₃ := hand₂.turn hG hG' h₃
  have hs₄ : c.Calm ∅ l (s₃.putSlot p ⟨key, value⟩) :=
    hand₃.publish (Set.notMem_empty p) hsus₃.tag hG.live hb
  have hnew : c.contents (s₃.putSlot p ⟨key, value⟩) key = some (value, p.bucket) :=
    (contents_eq_some hs₄.sound).2 ⟨hG.live, p.index, by rw [Cells.slot_putSlot, if_pos rfl]⟩
  have hgone : c.contents (s₃.putSlot p ⟨key, value⟩) oldKey = none := by
    refine contents_absent fun q hq => ?_
    rw [Cells.key_putSlot] at hq
    split at hq
    · exact habs p (hk.trans hq.symm)
    · exact hand₃.oldAbsent q hq
  obtain ⟨d₁, rfl, hf₁, ht₁⟩ := turn_instants adm h₁
  obtain ⟨e₁, rfl, hf₂, ht₂⟩ := turn_instants adm h₂
  obtain ⟨e₂, rfl, hf₃, ht₃⟩ := turn_instants adm h₃
  obtain ⟨d₂, rfl, hf₄, ht₄⟩ := turn_instants adm h₄
  refine ⟨d₁ ++ (e₁ ++ (e₂ ++ d₂)), by simp only [List.append_assoc],
    .moved hf₁ hf₂ hf₃ hf₄ hb ?_ ?_ ?_ ?_⟩
  · intro t ht
    obtain ⟨_, ht'⟩ := ht₁ t ht
    refine ⟨?_, ?_, (hG'.same hs ht' hkey).2.trans hslot⟩
    · rw [hG.contents hs ht', ← hG.contents hs h₁, contents_absent habs]
    · rw [hG'.contents hs ht']
      exact (contents_eq_some hs.sound).2 ⟨hG'.live, p.index, hslot⟩
  · intro t ht
    obtain ⟨_, ht'⟩ := ht₂ t ht
    exact hand₁.suspended hG hG' hvacated htag₁ ht'
  · intro t ht
    obtain ⟨_, ht'⟩ := ht₃ t ht
    exact hand₂.suspended hG hG' hretagged htag₂ ht'
  · intro t ht
    obtain ⟨_, ht'⟩ := ht₄ t ht
    exact ⟨(hG.contents hs₄ ht').trans hnew, (hG'.contents hs₄ ht').trans hgone⟩

/-- In the crowd the time with all locks is a transfer. -/
theorem transfer_of_ends {done : Bool} (hs : c.Calm ∅ l s)
    (h : ExchangeEnds (others lanes adm) key value oldKey oldValue update r s done r' s') :
    ∃ new, r' = r ++ new ∧
      Transfer c lanes schedule key value oldKey oldValue update s new done s' := by
  cases h with
  | present found => exact transfer_present adm hG hG' hs found
  | moved h₁ habs hk hv hb h₂ h₃ h₄ =>
    exact transfer_moved adm hG hG' hs h₁ habs hk hv hb h₂ h₃ h₄
  | refused h₁ habs hgone =>
    obtain ⟨d, rfl, hf, ht⟩ := turn_instants adm h₁
    refine ⟨d, rfl, .refused hf (fun b hb hsome => ?_) fun t ht' => ?_⟩
    · obtain ⟨-, i, hi⟩ := (contents_eq_some hs.sound).1 hsome
      exact hgone ⟨b, i⟩ (congrArg Slot.key hi) hb (congrArg Slot.value hi)
    · obtain ⟨_, ht''⟩ := ht t ht'
      exact ⟨(hG.contents hs ht'').trans (contents_absent habs), hG'.contents hs ht''⟩

end

/-- How an exchange runs: before it has all its locks and after it has released one of them nothing
happens but the intrusions, and in between it makes its transfer. -/
inductive Passage (c : Config k) (lanes : Lanes) (schedule : List (Intrusion k v)) (key : Word k)
    (value : Word v) (oldKey : Word k) (oldValue : Word v) (update : Bool)
    (s : Cells k v c.shape) : List (Sight c v) → Bool → Cells k v c.shape → Prop
  | intro {before l₁ s₁ during done s₂ l₂ after s₃}
    (begun : Follows c lanes schedule (s.setLocks l₁) before s₁)
    (first : c.Parting key oldKey l₁)
    (held : Transfer c lanes schedule key value oldKey oldValue update
      (s₁.setLocks (c.holdBoth key oldKey s.locks)) during done s₂)
    (last : c.Parting key oldKey l₂)
    (ended : Follows c lanes schedule (s₂.setLocks l₂) after s₃) :
    Passage c lanes schedule key value oldKey oldValue update s (before ++ during ++ after) done
      (s₃.setLocks s.locks)

theorem exchange_crowd
    (adm : (Call.exchange key value oldKey oldValue update).Admissible c schedule)
    (hfree : ∀ b, s.locks.isLocked b = false) (hs : c.Sound ∅ s) (g : Group)
    {E : Halt → List (Sight c v) → Cells k v c.shape → Prop} :
    (c.exchange g key value oldKey oldValue update).Ensures (others lanes adm).toWorld E [] s
      fun done seen s' =>
        Passage c lanes schedule key value oldKey oldValue update s seen done s' := by
  have hpart : Call.exchange key value oldKey oldValue update ∈
      (Call.exchange key value oldKey oldValue update).parts := List.mem_singleton_self _
  have hlocked : (c.holdBoth key oldKey s.locks).isLocked (c.candidates key).primary = true ∧
      (c.holdBoth key oldKey s.locks).isLocked (c.candidates oldKey).primary = true :=
    isLocked_holdBoth
  have hG : (others lanes adm).Ground ∅ (c.holdBoth key oldKey s.locks) key :=
    ground_others lanes adm hpart (by simp [Call.writes]) (.inr hlocked.1)
  have hG' : (others lanes adm).Ground ∅ (c.holdBoth key oldKey s.locks) oldKey :=
    ground_others lanes adm hpart (by simp [Call.writes]) (.inr hlocked.2)
  refine exchange_ensures g hG hG' (fun _ _ h => .inl h)
    (bears_others lanes adm hpart ⟨rfl, rfl⟩ (.inr hlocked.2)) hs (hfree _) (hfree _)
    fun l₁ l₂ r₁ s₁ done r₂ s₂ r₃ s₃ hl₁ hl₂ h₁ h h₃ => ?_
  have hs₁ := (Deeds.sound ((others lanes adm).deeds h₁) (hs.setLocks _)).setLocks
    (c.holdBoth key oldKey s.locks)
  obtain ⟨before, rfl, hbefore, -⟩ := h₁
  obtain ⟨during, rfl, hduring⟩ := transfer_of_ends adm hG hG' ⟨hs₁, rfl⟩ h
  obtain ⟨after, rfl, hafter, -⟩ := h₃
  exact .intro hbefore hl₁ hduring hl₂ hafter

end Scene

namespace Table

open Scene Config

/-- **The slot of an old pair is handed over in one piece.** Under every admissible schedule an
exchange runs as a passage: while it holds both locks, the others see its keys change as in a
transfer, all lookups answer what is there to be seen, and of the two keys it answers and leaves
what an exchange means on the map that it found with the last lock. -/
theorem Reachable.exchange_passage {t : Table k v} (h : t.Reachable) (lanes : Lanes)
    {key oldKey : Word k} {value oldValue : Word v} {update : Bool}
    {schedule : List (Intrusion k v)}
    (adm : (Call.exchange key value oldKey oldValue update).Admissible t.config schedule) :
    let c := t.config
    let call := Call.exchange key value oldKey oldValue update
    let ended := t.handle lanes schedule (.call call)
    ∃ done before during after l₁ l₂ s₁ s₂ s₃ M,
      ended.1.outcome = .ok (some (.flag done)) ∧
      sights c lanes schedule call t.cells = before ++ during ++ after ∧
      Follows c lanes schedule (t.cells.setLocks l₁) before s₁ ∧
      Transfer c lanes schedule key value oldKey oldValue update
        (s₁.setLocks (c.holdBoth key oldKey t.cells.locks)) during done s₂ ∧
      Follows c lanes schedule (s₂.setLocks l₂) after s₃ ∧
      ended.2.cells = s₃.setLocks t.cells.locks ∧
      (∀ x ∈ during, x.cells.locks.isLocked (c.candidates key).primary = true ∧
        x.cells.locks.isLocked (c.candidates oldKey).primary = true) ∧
      (∀ x ∈ before ++ after, c.Parting key oldKey x.cells.locks) ∧
      c.Exchanges (c.contents s₁) key value oldKey oldValue update done M ∧
      c.contents s₂ key = M key ∧ c.contents s₂ oldKey = M oldKey ∧
      ∀ x ∈ before ++ during ++ after, x.Answered := by
  intro c call ended
  have hquiet := h.quiet
  have hcall : (call.run c { lanes with passes := schedule.length + 1 }).Ensures
      (others lanes adm).toWorld (fun _ _ _ => False) [] t.cells fun reply seen s' =>
        ∃ done, reply = .flag done ∧
          Passage c lanes schedule key value oldKey oldValue update t.cells seen done s' :=
    Prog.ensures_map.2 ((exchange_crowd adm hquiet.unlocked hquiet.sound _).mono
      fun done _ _ h => ⟨done, rfl, h⟩)
  obtain ⟨-, _, houtcome, done, rfl, hpassage⟩ := handle_ensures adm hcall
  generalize sights t.config lanes schedule call t.cells = seen at hpassage ⊢
  generalize ended.2.cells = s' at hpassage ⊢
  cases hpassage with
  | @intro before l₁ s₁ during _ s₂ l₂ after s₃ begun first held last ended =>
    obtain ⟨M, hexchanges, hkey, hold⟩ := held.exchanges
    rw [contents_setLocks] at hexchanges
    refine ⟨done, before, during, after, l₁, l₂, s₁, s₂, s₃, M, houtcome, rfl, begun, held,
      ended, rfl, fun x hx => ?_, fun x hx => ?_, hexchanges, hkey, hold, fun x hx => ?_⟩
    · obtain ⟨_, _, _, hpart, hin, hlocks⟩ := held.exists_follows x hx
      rw [hpart.locks_seen x hin, hlocks]
      exact isLocked_holdBoth
    · rcases List.mem_append.1 hx with hx | hx
      · rwa [begun.locks_seen x hx]
      · rwa [ended.locks_seen x hx]
    · rcases List.mem_append.1 hx with hx | hx
      · rcases List.mem_append.1 hx with hx | hx
        · exact begun.answered x hx
        · obtain ⟨_, _, _, hpart, hin, -⟩ := held.exists_follows x hx
          exact hpart.answered x hin
      · exact ended.answered x hx

/-- A hand-over between two buckets. Lookups find the old pair, then neither of the two, then the
new one, and meanwhile a store waits for the lock. -/
theorem Reachable.exchange_passage_moved :
    let t := (small.handle fourLanes [] (.call (.upsert 6 2 true))).2
    let call : Call .w16 .w16 := .exchange 2 1 6 2 true
    let schedule := [⟨7, .find 6⟩, ⟨8, .find 6⟩, ⟨8, .find 2⟩, ⟨8, .upsert 8 3 true⟩, ⟨10, .find 2⟩]
    let ended := t.handle fourLanes schedule (.call call)
    ended.1.outcome = .ok (some (.flag true)) ∧
    ended.1.intruded = [⟨7, .ok (.value (some 2))⟩, ⟨8, .ok (.value none)⟩, ⟨8, .ok (.value none)⟩,
      ⟨8, .error (.waiting 0)⟩, ⟨10, .ok (.value (some 1))⟩] ∧
    ∃ (s₁ s₂ : Cells .w16 .w16 t.config.shape) (M : Contents .w16 .w16 _),
      t.config.Exchanges (t.config.contents s₁) 2 1 6 2 true true M ∧
      t.config.contents s₂ 2 = M 2 ∧ t.config.contents s₂ 6 = M 6 := by
  intro t call schedule ended
  have hstore : (Call.upsert (v := .w16) 6 2 true).Admissible small.config [] := by
    decide +kernel
  have ht : t.Reachable := reachable_small.call fourLanes hstore
  have hconfig : t.config = small.config := handle_config ..
  have adm : call.Admissible t.config schedule := by
    rw [hconfig]
    decide +kernel
  have hdone : ended.1.outcome = .ok (some (.flag true)) := by
    decide +kernel
  have hhooks : ended.1.intruded = [⟨7, .ok (.value (some 2))⟩, ⟨8, .ok (.value none)⟩,
      ⟨8, .ok (.value none)⟩, ⟨8, .error (.waiting 0)⟩, ⟨10, .ok (.value (some 1))⟩] := by
    decide +kernel
  have hpassage := ht.exchange_passage fourLanes adm
  dsimp only at hpassage
  obtain ⟨done, _, _, _, _, _, s₁, s₂, _, M, houtcome, -, -, -, -, -, -, -, hM, hkey, hold, -⟩ :=
    hpassage
  cases hdone.symm.trans houtcome
  exact ⟨hdone, hhooks, s₁, s₂, M, hM, hkey, hold⟩

end Table

end TwoChoice
