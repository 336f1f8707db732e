import TwoChoice.Proofs.Store
import TwoChoice.Table.Remove

/-!
# Removals and exchanges in company

A removal takes the key out of its slot (`Cells.vacate`) and buries the tag later; an exchange gives
the slot another tag and another pair. In between the slot is in transit, and others leave it as it
is.
-/

set_option autoImplicit false

namespace TwoChoice.Config

variable {k v : Width} {c : Config k} {γ : Type} {C : Company c v γ}
variable {T : Set (Place c.shape)} {l : Locks c.shape.count} {key oldKey mark : Word k}
variable {value oldValue : Word v} {r r' r₀ : γ} {s s' s₀ : Cells k v c.shape} {p : Place c.shape}

/-! ## Slots in transit -/

theorem Calm.vacate (hs : c.Calm T l s) (hl : c.Live (s.key p))
    (hm : mark = c.reserved.tombstone ∨ mark = c.reserved.holding) :
    c.Calm (insert p T) l (s.vacate p mark) :=
  ⟨hs.sound.vacate hl hm, hs.locks⟩

theorem Calm.bury (hs : c.Calm (insert p T) l s) (hp : p ∉ T)
    (hk : s.key p = c.reserved.tombstone) : c.Calm T l (s.putTag p Tag.tombstone) := by
  have h := hs.sound.bury hk
  rw [Set.insert_sdiff_of_mem _ (Set.mem_singleton p), Set.sdiff_singleton_eq_self hp] at h
  exact ⟨h, hs.locks⟩

theorem Calm.retag (hs : c.Calm (insert p T) l s) (key : Word k) :
    c.Calm (insert p T) l (s.putTag p (Tag.ofKey key)) :=
  ⟨hs.sound.retag (Set.mem_insert p T) key, hs.locks⟩

/-- A slot in transit with the tag of an absent key takes a pair of that key. -/
theorem Calm.publish (hs : c.Calm (insert p T) l s) (hp : p ∉ T) (ht : s.tag p = Tag.ofKey key)
    (value : Word v) (hl : c.Live key) (hb : c.MayLie key p.bucket) (habs : s.Absent key) :
    c.Calm T l (s.putSlot p ⟨key, value⟩) := by
  have h := hs.sound.fill value hl hb fun q _ => habs q
  rw [Set.insert_sdiff_of_mem _ (Set.mem_singleton p), Set.sdiff_singleton_eq_self hp] at h
  rw [Cells.fill, ← ht, Cells.putTag_self] at h
  exact ⟨h, hs.locks⟩

/-- A key that is taken out of its slot is absent. -/
theorem absent_vacate (hs : c.Sound T s) (hl : c.Live (s.key p)) (hm : mark ≠ s.key p) :
    (s.vacate p mark).Absent (s.key p) := by
  intro q hq
  rw [Cells.key_vacate] at hq
  split at hq
  · exact hm hq
  · rename_i hpq
    exact hpq (hs.unique p q hl hq.symm)

/-- The slot keeps the reserved key while it is in transit. -/
theorem key_of_vacate (hv : c.Calm (insert p T) l (s₀.vacate p mark))
    (ht : C.turn r (s₀.vacate p mark) r' s') : s'.key p = mark := by
  rw [Cells.key, (Company.turn_same_of_mem hv ht (Set.mem_insert p T)).2, ← Cells.key]
  simp

theorem ne_of_mark (hl : c.Live key)
    (hm : mark = c.reserved.tombstone ∨ mark = c.reserved.holding) : mark ≠ key := by
  rcases hm with rfl | rfl
  · exact hl.ne_tombstone.symm
  · exact hl.ne_holding.symm

/-! ## Taking a key out -/

section
variable (g : Lanes) {b : Fin c.shape.count} {i : Fin c.shape.len.slots} {candidates : Mask}
variable {accept : Word v → Bool} {Q : Option Nat → γ → Cells k v c.shape → Prop}

/-- The key gives way to the reserved key if its value is accepted. -/
theorem rekey_ensures (hG : C.Ground T l key) (hs : c.Calm T l s) (hkey : s.key ⟨b, i⟩ = key)
    (hcand : candidates.has i = true)
    (htrue : accept (s.value ⟨b, i⟩) = true → ∀ r' s', C.turn r s r' s' →
      C.ready r' (s'.vacate ⟨b, i⟩ mark) ∧
      ∀ r'' s'', C.turn r' (s'.vacate ⟨b, i⟩ mark) r'' s'' → Q (some i.val) r'' s'')
    (hfalse : accept (s.value ⟨b, i⟩) = false → ∀ r' s', C.turn r s r' s' → Q none r' s') :
    (c.atSlots b (Slots.rekey g key mark accept candidates)).Ensures C.toWorld Never r s Q := by
  have huniq : ∀ j, s.key ⟨b, j⟩ = key → j = i := fun j hj =>
    congrArg Place.index (hs.sound.unique ⟨b, j⟩ ⟨b, i⟩ (hj ▸ hG.live) (by rw [hj, hkey]))
  refine actOnKey_ensures_some g hkey huniq hcand (hG.ready r s hs) fun r' s' ht => ?_
  have hslot := (hG.same hs ht hkey).2
  have hkey' : (s'.slot ⟨b, i⟩).key = key := by rw [hslot]; exact hkey
  have hvalue : ((s'.bucket b).slots.get i).value = s.value ⟨b, i⟩ := congrArg Slot.value hslot
  have hread := Slots.valueAt_yields (s'.bucket b).slots i
  rw [hvalue] at hread
  cases hacc : accept (s.value ⟨b, i⟩) with
  | true =>
    obtain ⟨hr, hQ⟩ := htrue hacc r' s' ht
    refine .inl ⟨⟨mark, s'.value ⟨b, i⟩⟩, Prog.yields_bind hread ?_, hr, hQ⟩
    rw [if_pos hacc]
    exact Slots.exchangeKey_yields_true _ i mark hkey'
  | false =>
    refine .inr ⟨Prog.yields_bind hread ?_, hfalse hacc r' s' ht⟩
    rw [if_neg (by simp [hacc])]
    exact Prog.yields_pure _ _

/-- No key is taken out of a bucket that does not hold it. -/
theorem rekey_missing (hG : C.Ground T l key) (hs : c.Calm T l s) (hno : ∀ i, s.key ⟨b, i⟩ ≠ key)
    (hQ : ∀ r' s', C.turn r s r' s' → Q none r' s') :
    (c.atSlots b (Slots.rekey g key mark accept candidates)).Ensures C.toWorld Never r s Q :=
  actOnKey_ensures_none g (fun i _ => hno i) (hG.ready r s hs) hQ

end

/-! ## Taking a pair out of the first bucket that has it -/

section
variable (g : Group) {accept : Word v → Bool} {b : Fin c.shape.count}
variable {after : Fin c.shape.count → Nat → Prog (Cells k v c.shape) Unit}

/-- Takes the key out of the bucket if its value is accepted, and then does the rest. -/
def takeFrom (key mark : Word k) (accept : Word v → Bool)
    (after : Fin c.shape.count → Nat → Prog (Cells k v c.shape) Unit) (b : Fin c.shape.count) :
    Prog (Cells k v c.shape) (Option Nat) := do
  let census ← c.atTags b (Tags.scan g.toLanes (Tag.ofKey key))
  if census.matching == 0 then
    return none
  else
    match ← c.atSlots b (Slots.rekey g.toLanes key mark accept census.matching) with
    | none => return none
    | some index =>
      after b index
      return some index

/-- Nothing is taken from a bucket in which the key has no accepted value. -/
theorem takeFrom_missing (hG : C.Ground T l key) (hs : c.Calm T l s)
    (hno : ∀ i, s.key ⟨b, i⟩ = key → accept (s.value ⟨b, i⟩) = false)
    {Q : Option Nat → γ → Cells k v c.shape → Prop}
    (hQ : ∀ r' s', C.turn r s r' s' → Q none r' s') :
    (takeFrom g key mark accept after b).Ensures C.toWorld Never r s Q := by
  rw [takeFrom, Prog.ensures_bind]
  refine scan_ensures g.toLanes _ (hG.ready r s hs) fun r₁ s₁ h₁ => ?_
  have hs₁ := Company.turn_calm hs h₁
  split
  · exact hQ r₁ s₁ h₁
  rw [Prog.ensures_bind]
  by_cases hex : ∃ i, s.key ⟨b, i⟩ = key
  · obtain ⟨i, hi⟩ := hex
    have hvalue : accept (s₁.value ⟨b, i⟩) = false := by
      rw [hG.value hs h₁ hi]
      exact hno i hi
    have hcand := matching_has hs.sound hG.live hi
    refine rekey_ensures g.toLanes hG hs₁ ((hG.key_iff hs h₁).2 hi) hcand (fun hacc => ?_)
      fun _ r₂ s₂ h₂ => hQ r₂ s₂ (C.trans h₁ h₂)
    rw [hvalue] at hacc
    cases hacc
  · refine rekey_missing g.toLanes hG hs₁ (fun i hi => hex ⟨i, (hG.key_iff hs h₁).1 hi⟩)
      fun r₂ s₂ h₂ => hQ r₂ s₂ (C.trans h₁ h₂)

/-- The key is taken out of the bucket that holds it with an accepted value. -/
theorem takeFrom_found (hG : C.Ground T l key) (hs : c.Calm T l s) (hbears : C.Bears T l key mark)
    (hm : mark = c.reserved.tombstone ∨ mark = c.reserved.holding) {i : Fin c.shape.len.slots}
    (hkey : s.key ⟨b, i⟩ = key) (hacc : accept (s.value ⟨b, i⟩) = true)
    {Q : Option Nat → γ → Cells k v c.shape → Prop}
    (hQ : ∀ r₁ s₁ r₂ s₂, C.turn r s r₁ s₁ → s₁.key ⟨b, i⟩ = key →
      C.turn r₁ (s₁.vacate ⟨b, i⟩ mark) r₂ s₂ →
      (after b i).Ensures C.toWorld Never r₂ s₂ fun _ => Q (some i.val)) :
    (takeFrom g key mark accept after b).Ensures C.toWorld Never r s Q := by
  rw [takeFrom, Prog.ensures_bind]
  refine scan_ensures g.toLanes _ (hG.ready r s hs) fun r₁ s₁ h₁ => ?_
  have hs₁ := Company.turn_calm hs h₁
  have hkey₁ : s₁.key ⟨b, i⟩ = key := (hG.key_iff hs h₁).2 hkey
  have hcand := matching_has hs.sound hG.live hkey
  rw [if_neg (matching_ne_zero hcand), Prog.ensures_bind]
  refine rekey_ensures g.toLanes hG hs₁ hkey₁ hcand (fun _ r₂ s₂ h₂ => ?_) fun hno => ?_
  · have hs₂ := Company.turn_calm hs₁ h₂
    have hkey₂ : s₂.key ⟨b, i⟩ = key := (hG.key_iff hs₁ h₂).2 hkey₁
    have hlive : c.Live (s₂.key ⟨b, i⟩) := hkey₂ ▸ hG.live
    have habs := absent_vacate hs₂.sound hlive (ne_of_mark hlive hm)
    rw [hkey₂] at habs
    refine ⟨hbears r₂ _ _ (hs₂.sound.not_mem_of_live hlive) (hs₂.vacate hlive hm) (by simp) habs,
      fun r₃ s₃ h₃ => ?_⟩
    rw [Prog.ensures_bind]
    exact hQ r₂ s₂ r₃ s₃ (C.trans h₁ h₂) hkey₂ h₃
  · rw [hG.value hs h₁ hkey] at hno
    exact absurd (hacc.symm.trans hno) (by simp)

theorem takeOut_ensures (hG : C.Ground T l key) (hs : c.Calm T l s) (hbears : C.Bears T l key mark)
    (hm : mark = c.reserved.tombstone ∨ mark = c.reserved.holding)
    {buckets : List (Fin c.shape.count)} {Q : Option Nat → γ → Cells k v c.shape → Prop}
    (hsome : ∀ p r₁ s₁ r₂ s₂, C.turn r s r₁ s₁ → s₁.key p = key → p.bucket ∈ buckets →
      accept (s.value p) = true → C.turn r₁ (s₁.vacate p mark) r₂ s₂ →
      (after p.bucket p.index).Ensures C.toWorld Never r₂ s₂ fun _ => Q (some p.index.val))
    (hnone : ∀ r' s', C.turn r s r' s' →
      (∀ p, s.key p = key → p.bucket ∈ buckets → accept (s.value p) = false) → Q none r' s') :
    (buckets.findSomeM? (takeFrom g key mark accept after)).Ensures C.toWorld Never r s Q := by
  refine Prog.ensures_findSomeM? (fun rest r' s' => C.turn r s r' s' ∧ (∀ b ∈ rest, b ∈ buckets) ∧
    ∀ p, s.key p = key → p.bucket ∈ buckets → accept (s.value p) = true → p.bucket ∈ rest) ?_ ?_ _
    ⟨C.refl r s, fun _ hb => hb, fun _ _ hb _ => hb⟩
  · intro b rest r₁ s₁ hinv
    obtain ⟨h₁, hsub, hin⟩ := hinv
    have hs₁ := Company.turn_calm hs h₁
    by_cases hex : ∃ i, s.key ⟨b, i⟩ = key ∧ accept (s.value ⟨b, i⟩) = true
    · obtain ⟨i, hi, hacc⟩ := hex
      refine takeFrom_found g hG hs₁ hbears hm ((hG.key_iff hs h₁).2 hi) ?_
        fun r₂ s₂ r₃ s₃ h₂ hk h₃ => ?_
      · rw [hG.value hs h₁ hi]
        exact hacc
      · exact hsome _ r₂ s₂ r₃ s₃ (C.trans h₁ h₂) hk (hsub b (List.mem_cons_self ..)) hacc h₃
    · refine takeFrom_missing g hG hs₁ (fun i hi => ?_) fun r₂ s₂ h₂ =>
        ⟨C.trans h₁ h₂, fun b hb => hsub b (List.mem_cons_of_mem _ hb), fun p hp hb hacc => ?_⟩
      · have hi' := (hG.key_iff hs h₁).1 hi
        rw [hG.value hs h₁ hi']
        exact Bool.eq_false_iff.2 fun hacc => hex ⟨i, hi', hacc⟩
      · refine (List.mem_cons.1 (hin p hp hb hacc)).resolve_left ?_
        rintro rfl
        exact hex ⟨p.index, hp, hacc⟩
  · intro r₁ s₁ hinv
    obtain ⟨h₁, -, hin⟩ := hinv
    refine hnone r₁ s₁ h₁ fun p hp hb => Bool.eq_false_iff.2 fun hacc => ?_
    exact List.not_mem_nil (hin p hp hb hacc)

end

/-! ## Removals -/

/-- The value is the wanted one, if there is one. -/
def accepts : Option (Word v) → Word v → Bool
  | none, _ => true
  | some wanted, x => x == wanted

/-- How a removal ends that began in the first state. -/
def EraseEnds (C : Company c v γ) (key : Word k) (wanted : Option (Word v)) (r₀ : γ)
    (s₀ : Cells k v c.shape) : Bool → γ → Cells k v c.shape → Prop
  | true, r, s => ∃ p r₁ s₁ r₂ s₂, C.turn r₀ s₀ r₁ s₁ ∧ s₁.key p = key ∧
      accepts wanted (s₁.value p) = true ∧ C.turn r₁ (s₁.vacate p c.reserved.tombstone) r₂ s₂ ∧
      C.turn r₂ (s₂.putTag p Tag.tombstone) r s
  | false, r, s => C.turn r₀ s₀ r s ∧ ∀ p, s₀.key p = key → accepts wanted (s₀.value p) = false

namespace EraseEnds

variable {wanted : Option (Word v)} {erased : Bool}

theorem after (h : EraseEnds C key wanted r₀ s₀ erased r s) (ht : C.turn r s r' s') :
    EraseEnds C key wanted r₀ s₀ erased r' s' := by
  cases erased with
  | true =>
    obtain ⟨p, r₁, s₁, r₂, s₂, h1, hk, hacc, h2, h3⟩ := h
    exact ⟨p, r₁, s₁, r₂, s₂, h1, hk, hacc, h2, C.trans h3 ht⟩
  | false => exact ⟨C.trans h.1 ht, h.2⟩

theorem before (hG : C.Ground T l key) (hs : c.Calm T l s₀) (ht : C.turn r₀ s₀ r s)
    (h : EraseEnds C key wanted r s erased r' s') :
    EraseEnds C key wanted r₀ s₀ erased r' s' := by
  cases erased with
  | true =>
    obtain ⟨p, r₁, s₁, r₂, s₂, h1, hk, hacc, h2, h3⟩ := h
    exact ⟨p, r₁, s₁, r₂, s₂, C.trans ht h1, hk, hacc, h2, h3⟩
  | false =>
    refine ⟨C.trans ht h.1, fun p hp => ?_⟩
    have := h.2 p ((hG.key_iff hs ht).2 hp)
    rwa [hG.value hs ht hp] at this

theorem calm (h : EraseEnds C key wanted r₀ s₀ erased r s) (hl : c.Live key)
    (hs : c.Calm T l s₀) : c.Calm T l s := by
  cases erased with
  | true =>
    obtain ⟨p, r₁, s₁, r₂, s₂, h1, hk, -, h2, h3⟩ := h
    have hs₁ := Company.turn_calm hs h1
    have hl₁ : c.Live (s₁.key p) := hk ▸ hl
    have hv : c.Calm (insert p T) l (s₁.vacate p c.reserved.tombstone) :=
      hs₁.vacate hl₁ (.inl rfl)
    exact Company.turn_calm
      ((Company.turn_calm hv h2).bury (hs₁.sound.not_mem_of_live hl₁) (key_of_vacate hv h2)) h3
  | false => exact Company.turn_calm hs h.1

end EraseEnds

section
variable {E : Halt → γ → Cells k v c.shape → Prop} (g : Group) {locked : Bool}
variable {wanted : Option (Word v)}

theorem erase_eq (key : Word k) (wanted : Option (Word v)) (locked : Bool) :
    c.erase g key wanted locked =
      c.withLocks g.toLanes (if locked then [(c.candidates key).primary.val] else [])
        ((c.candidates key).distinct.findSomeM? (takeFrom g key c.reserved.tombstone
          (accepts wanted) fun b index => c.atTags b (Tags.bury g.toLanes index)) >>= fun erased =>
            pure erased.isSome) := by
  cases wanted <;> rfl

theorem eraseBody_ensures (hG : C.Ground T l key) (hs : c.Calm T l s)
    (hbears : C.Bears T l key c.reserved.tombstone) :
    ((c.candidates key).distinct.findSomeM? (takeFrom g key c.reserved.tombstone (accepts wanted)
      fun b index => c.atTags b (Tags.bury g.toLanes index))).Ensures C.toWorld Never r s
      fun erased => EraseEnds C key wanted r s erased.isSome := by
  refine takeOut_ensures g hG hs hbears (.inl rfl) (fun p r₁ s₁ r₂ s₂ h₁ hk _ hacc h₂ => ?_)
    fun r' s' h hno => ⟨h, fun p hp => hno p hp (hp ▸ hs.sound.mayLie (hp ▸ hG.live))⟩
  have hs₁ := Company.turn_calm hs h₁
  have hlive : c.Live (s₁.key p) := hk ▸ hG.live
  have hv : c.Calm (insert p T) l (s₁.vacate p c.reserved.tombstone) :=
    hs₁.vacate hlive (.inl rfl)
  have hs₃ := (Company.turn_calm hv h₂).bury (hs₁.sound.not_mem_of_live hlive)
    (key_of_vacate hv h₂)
  refine retag_ensures g.toLanes Tag.tombstone (hG.ready r₂ _ hs₃) fun r₃ s₃ h₃ => ?_
  refine ⟨p, r₁, s₁, r₂, s₂, h₁, hk, ?_, h₂, h₃⟩
  rw [hG.value hs h₁ ((hG.key_iff hs h₁).1 hk)]
  exact hacc

theorem erase_ensures (hG : C.Ground T (c.hold key locked s.locks) key) (hs : c.Sound T s)
    (hbears : C.Bears T (c.hold key locked s.locks) key c.reserved.tombstone)
    (hfree : locked = true → s.locks.isLocked (c.candidates key).primary = false)
    {Q : Bool → γ → Cells k v c.shape → Prop}
    (hQ : ∀ erased r' s', EraseEnds C key wanted r (s.setLocks (c.hold key locked s.locks)) erased
      r' s' → Q erased r' (s'.setLocks s.locks)) :
    (c.erase g key wanted locked).Ensures C.toWorld E r s Q := by
  have hs₀ : c.Calm T (c.hold key locked s.locks) (s.setLocks (c.hold key locked s.locks)) :=
    ⟨hs.setLocks _, rfl⟩
  rw [erase_eq]
  refine guarded_ensures g.toLanes hG.ready hs hfree fun r₁ s₁ h₁ => ?_
  rw [Prog.ensures_bind]
  refine (eraseBody_ensures g hG (Company.turn_calm hs₀ h₁) hbears).mono fun erased r₂ s₂ h₂ => ?_
  have hend := h₂.before hG hs₀ h₁
  exact ⟨hend.calm hG.live hs₀, fun r₃ s₃ h₃ => hQ _ r₃ s₃ (hend.after h₃)⟩

end

end TwoChoice.Config
