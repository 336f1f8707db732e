import TwoChoice.Proofs.Remove

/-!
# Exchanges in company

An exchange holds the locks of both keys while its body runs. `ExchangeEnds` says what happens from
the moment that it has both locks until it releases the first one. If it takes two locks, others may
touch one of its keys in the turns before and after that time (`exchange_ensures`).
-/

set_option autoImplicit false

namespace TwoChoice

/-- How the body of an exchange ends that began in the first state, and what it answers. -/
inductive Config.ExchangeEnds {k v : Width} {c : Config k} {γ : Type} (C : Company c v γ)
    (key : Word k) (value : Word v) (oldKey : Word k) (oldValue : Word v) (update : Bool) (r₀ : γ)
    (s₀ : Cells k v c.shape) : Bool → γ → Cells k v c.shape → Prop
  | present {r s} (found : C.Around r₀ s₀ (Kept key value update) r s) :
    ExchangeEnds C key value oldKey oldValue update r₀ s₀ update r s
  | moved {p r₁ s₁ r₂ s₂ r₃ s₃ r s} (begun : C.turn r₀ s₀ r₁ s₁) (absent : s₁.Absent key)
    (old : s₁.key p = oldKey) (pair : s₁.value p = oldValue) (bucket : c.MayLie key p.bucket)
    (taken : C.turn r₁ (s₁.vacate p c.reserved.holding) r₂ s₂)
    (retagged : C.turn r₂ (s₂.putTag p (Tag.ofKey key)) r₃ s₃)
    (published : C.turn r₃ (s₃.putSlot p ⟨key, value⟩) r s) :
    ExchangeEnds C key value oldKey oldValue update r₀ s₀ true r s
  | refused {r s} (turn : C.turn r₀ s₀ r s) (absent : s₀.Absent key)
    (gone : ∀ p, s₀.key p = oldKey → c.MayLie key p.bucket → s₀.value p ≠ oldValue) :
    ExchangeEnds C key value oldKey oldValue update r₀ s₀ false r s

variable {k v : Width} {c : Config k} {γ : Type} {C : Company c v γ}
variable {T : Set (Place c.shape)} {l : Locks c.shape.count} {key oldKey : Word k}
variable {value oldValue : Word v} {update : Bool} {r r' r'' r₀ : γ}
variable {s s' s'' s₀ : Cells k v c.shape} {p : Place c.shape}

namespace Config

namespace ExchangeEnds

variable {done : Bool}

theorem after (h : ExchangeEnds C key value oldKey oldValue update r₀ s₀ done r s)
    (ht : C.turn r s r' s') : ExchangeEnds C key value oldKey oldValue update r₀ s₀ done r' s' := by
  cases h with
  | present found => exact .present (found.after ht)
  | moved h1 habs hold hpair hb h2 h3 h4 => exact .moved h1 habs hold hpair hb h2 h3 (C.trans h4 ht)
  | refused h habs hgone => exact .refused (C.trans h ht) habs hgone

theorem before (hG : C.Ground T l key) (hG' : C.Ground T l oldKey) (hs : c.Calm T l s₀)
    (ht : C.turn r₀ s₀ r s) (h : ExchangeEnds C key value oldKey oldValue update r s done r' s') :
    ExchangeEnds C key value oldKey oldValue update r₀ s₀ done r' s' := by
  cases h with
  | present found => exact .present (found.before ht)
  | moved h1 habs hold hpair hb h2 h3 h4 => exact .moved (C.trans ht h1) habs hold hpair hb h2 h3 h4
  | refused h habs hgone =>
    refine .refused (C.trans ht h) (fun p hp => habs p ((hG.key_iff hs ht).2 hp))
      fun p hp hb => ?_
    rw [← hG'.value hs ht hp]
    exact hgone p ((hG'.key_iff hs ht).2 hp) hb

end ExchangeEnds

/-- What a hand-over has made of the slot and of the two keys before it publishes the new pair. -/
structure HandingOver (c : Config k) (T : Set (Place c.shape)) (l : Locks c.shape.count)
    (key oldKey : Word k) (p : Place c.shape) (s : Cells k v c.shape) : Prop where
  calm : c.Calm (insert p T) l s
  slot : s.key p = c.reserved.holding
  absent : s.Absent key
  oldAbsent : s.Absent oldKey

namespace HandingOver

theorem begin (hs : c.Calm T l s) (habs : s.Absent key) (hold : s.key p = oldKey)
    (hl : c.Live key) (hl' : c.Live oldKey) :
    HandingOver c T l key oldKey p (s.vacate p c.reserved.holding) := by
  have hlive : c.Live (s.key p) := hold ▸ hl'
  refine ⟨hs.vacate hlive (.inr rfl), by simp, fun q => ?_, ?_⟩
  · rw [Cells.key_vacate]
    split
    · exact hl.ne_holding.symm
    · exact habs q
  · rw [← hold]
    exact absent_vacate hs.sound hlive hlive.ne_holding.symm

theorem turn (h : HandingOver c T l key oldKey p s) (hG : C.Ground T l key)
    (hG' : C.Ground T l oldKey) (ht : C.turn r s r' s') : HandingOver c T l key oldKey p s' := by
  have hslot := (Company.turn_same_of_mem h.calm ht (Set.mem_insert p T)).2
  exact ⟨Company.turn_calm h.calm ht, (Cells.key_eq_of_slot_eq hslot).trans h.slot,
    hG.absent h.calm ht h.absent, hG'.absent h.calm ht h.oldAbsent⟩

theorem retag (h : HandingOver c T l key oldKey p s) :
    HandingOver c T l key oldKey p (s.putTag p (Tag.ofKey key)) :=
  ⟨h.calm.retag key, by rw [Cells.key_putTag, h.slot], fun q => by simpa using h.absent q,
    fun q => by simpa using h.oldAbsent q⟩

theorem publish (h : HandingOver c T l key oldKey p s) (hp : p ∉ T) (ht : s.tag p = Tag.ofKey key)
    (hl : c.Live key) (hb : c.MayLie key p.bucket) : c.Calm T l (s.putSlot p ⟨key, value⟩) :=
  h.calm.publish hp ht value hl hb h.absent

end HandingOver

/-! ## The body -/

section
variable (g : Group)

/-- The search of the candidate buckets finds a key that is present and no other. -/
theorem search_ensures (hG : C.Ground T l key) (hs : c.Calm T l s)
    {Q : Bool → γ → Cells k v c.shape → Prop}
    (hfound : ∀ r' s', C.Around r s (Kept key value update) r' s' → Q true r' s')
    (hmissing : ∀ r' s', C.turn r s r' s' → s.Absent key → Q false r' s') :
    ((c.candidates key).distinct.anyM fun b => do
      let census ← c.atTags b (Tags.scan g.toLanes (Tag.ofKey key))
      c.lookFor g b key value census update).Ensures C.toWorld Never r s Q := by
  refine Prog.ensures_anyM (fun rest r' s' => C.turn r s r' s' ∧
    ∀ p, s.key p = key → p.bucket ∈ rest) ?_ ?_ _
    ⟨C.refl r s, fun p hp => hp ▸ hs.sound.mayLie (hp ▸ hG.live)⟩
  · intro b rest r₁ s₁ hinv
    obtain ⟨h₁, hin⟩ := hinv
    have hs₁ := Company.turn_calm hs h₁
    rw [Prog.ensures_bind]
    refine scan_ensures g.toLanes _ (hG.ready _ _ hs₁) fun r₂ s₂ h₂ => ?_
    have hs₂ := Company.turn_calm hs₁ h₂
    by_cases hex : ∃ i, s₁.key ⟨b, i⟩ = key
    · obtain ⟨i, hi⟩ := hex
      have hcand := matching_has hs₁.sound hG.live hi
      exact lookFor_found g hG hs₂ ((hG.key_iff hs₁ h₂).2 hi) hcand
        fun r₃ s₃ h₃ => hfound r₃ s₃ (h₃.before (C.trans h₁ h₂))
    · refine lookFor_missing g hG hs₂ (fun i hi => hex ⟨i, (hG.key_iff hs₁ h₂).1 hi⟩)
        fun r₃ s₃ h₃ => ⟨C.trans h₁ (C.trans h₂ h₃), fun p hp => ?_⟩
      refine (List.mem_cons.1 (hin p hp)).resolve_left ?_
      rintro rfl
      exact hex ⟨p.index, (hG.key_iff hs h₁).2 hp⟩
  · intro r₁ s₁ hinv
    obtain ⟨h₁, hin⟩ := hinv
    exact hmissing r₁ s₁ h₁ fun p hp => List.not_mem_nil (hin p hp)

theorem handOver_eq (key : Word k) (value : Word v) (oldKey : Word k) (oldValue : Word v) :
    c.handOver g key value oldKey oldValue =
      ((c.candidates key).distinct.findSomeM? (takeFrom g oldKey c.reserved.holding (· == oldValue)
        fun b index => do
          c.atTags b (Tags.retag g.toLanes index (Tag.ofKey key))
          c.atSlots b (Slots.publish g.toLanes c.reserved index key value)) >>= fun taken =>
            pure taken.isSome) := by
  rw [handOver]
  congr 2
  funext b
  simp only [takeFrom, bind_assoc]
  rfl

theorem handOver_ensures (hG : C.Ground T l key) (hG' : C.Ground T l oldKey) (hs : c.Calm T l s)
    (hbears : C.Bears T l oldKey c.reserved.holding) (habs : s.Absent key) :
    (c.handOver g key value oldKey oldValue).Ensures C.toWorld Never r s
      (ExchangeEnds C key value oldKey oldValue update r s) := by
  rw [handOver_eq, Prog.ensures_bind]
  refine takeOut_ensures g hG' hs hbears (.inr rfl) (fun p r₁ s₁ r₂ s₂ h₁ hk hb hv h₂ => ?_)
    fun r' s' h hno => .refused h habs fun p hp hb hv => ?_
  · have hs₁ := Company.turn_calm hs h₁
    have habs₁ := hG.absent hs h₁ habs
    have hp : p ∉ T := hs₁.sound.not_mem_of_live (hk ▸ hG'.live)
    have hand₂ := (HandingOver.begin hs₁ habs₁ hk hG.live hG'.live).turn hG hG' h₂
    have hready : ∀ {r s}, HandingOver c T l key oldKey p s → C.ready r s := fun h =>
      hbears _ _ p hp h.calm h.slot h.oldAbsent
    rw [Prog.ensures_bind]
    refine retag_ensures g.toLanes _ (hready hand₂.retag) fun r₃ s₃ h₃ => ?_
    have hand₃ := hand₂.retag.turn hG hG' h₃
    have htag : s₃.tag p = Tag.ofKey key := by
      rw [(Company.turn_same_of_mem hand₂.retag.calm h₃ (Set.mem_insert p T)).1]
      simp
    refine publish_ensures g.toLanes key value
      (hG.ready _ _ (hand₃.publish hp htag hG.live hb)) fun r₄ s₄ h₄ => ?_
    refine .moved h₁ habs₁ hk ?_ hb h₂ h₃ h₄
    rw [hG'.value hs h₁ ((hG'.key_iff hs h₁).1 hk)]
    exact beq_iff_eq.1 hv
  · have := hno p hp hb
    rw [hv, beq_self_eq_true] at this
    cases this

/-- The body of an exchange. -/
theorem exchangeBody_ensures (hG : C.Ground T l key) (hG' : C.Ground T l oldKey)
    (hs : c.Calm T l s) (hbears : C.Bears T l oldKey c.reserved.holding) :
    (do
      if ← (c.candidates key).distinct.anyM fun b => do
          let census ← c.atTags b (Tags.scan g.toLanes (Tag.ofKey key))
          c.lookFor g b key value census update then
        return update
      else
        c.handOver g key value oldKey oldValue : Prog (Cells k v c.shape) Bool).Ensures
      C.toWorld Never r s (ExchangeEnds C key value oldKey oldValue update r s) := by
  rw [Prog.ensures_bind]
  refine search_ensures g hG hs (fun r' s' h => .present h) fun r' s' h habs => ?_
  exact (handOver_ensures g hG hG' (Company.turn_calm hs h) hbears (hG.absent hs h habs)).mono
    fun done r'' s'' h' => h'.before hG hG' hs h

theorem ExchangeEnds.calm {done : Bool} (hG : C.Ground T l key) (hG' : C.Ground T l oldKey)
    (hs : c.Calm T l s₀) (h : ExchangeEnds C key value oldKey oldValue update r₀ s₀ done r s) :
    c.Calm T l s := by
  cases h with
  | present found =>
    obtain ⟨r₁, s₁, s₂, h1, hstep, h2⟩ := found
    exact Company.turn_calm (hstep.calm hG.live (Company.turn_calm hs h1)) h2
  | @moved p r₁ s₁ r₂ s₂ r₃ s₃ _ _ h1 habs hk _ hb h2 h3 h4 =>
    have hs₁ := Company.turn_calm hs h1
    have hp : p ∉ T := hs₁.sound.not_mem_of_live (hk ▸ hG'.live)
    have hand₂ := (HandingOver.begin hs₁ habs hk hG.live hG'.live).turn hG hG' h2
    have htag : s₃.tag p = Tag.ofKey key := by
      rw [(Company.turn_same_of_mem hand₂.retag.calm h3 (Set.mem_insert p T)).1]
      simp
    exact Company.turn_calm ((hand₂.retag.turn hG hG' h3).publish hp htag hG.live hb) h4
  | refused h _ _ => exact Company.turn_calm hs h

end

/-! ## Two locks -/

/-- The locks while an exchange of the two keys runs. -/
def holdBoth (c : Config k) (key oldKey : Word k) (l : Locks c.shape.count) :
    Locks c.shape.count :=
  (Locks.order (c.candidates key).primary.val (c.candidates oldKey).primary.val).foldl
    Locks.acquire l

section
variable {α : Type} {E : Halt → γ → Cells k v c.shape → Prop} (g : Lanes)
variable {body : Prog (Cells k v c.shape) α} {Q : α → γ → Cells k v c.shape → Prop}

/-- A program that needs two different locks ends with the locks as they were at its start. -/
theorem twoLocks_ensures {a b : Nat} (ha : a < c.shape.count) (hb : b < c.shape.count) (hab : a ≠ b)
    (hready : ∀ r s, c.Sound T s → C.ready r s) (hs : c.Sound T s)
    (hfree : s.locks.isLocked a = false) (hfree' : s.locks.isLocked b = false)
    (hbody : ∀ r₁ s₁ r₂ s₂, C.turn r (s.setLocks (s.locks.acquire a)) r₁ s₁ →
      C.turn r₁ (s₁.setLocks ((s.locks.acquire a).acquire b)) r₂ s₂ →
      body.Ensures C.toWorld Never r₂ s₂ fun x r₃ s₃ =>
        c.Calm T ((s.locks.acquire a).acquire b) s₃ ∧ ∀ r₄ s₄ r₅ s₅, C.turn r₃ s₃ r₄ s₄ →
          C.turn r₄ (s₄.setLocks (s.locks.acquire b)) r₅ s₅ → Q x r₅ (s₅.setLocks s.locks)) :
    (c.withLocks g [a, b] body).Ensures C.toWorld E r s Q := by
  refine withLocks_both g ha hb hab (fun h => Company.turn_locks h) rfl hfree hfree'
    (hready _ _ (hs.setLocks _)) fun r₁ s₁ h₁ => ?_
  have hs₁ := Deeds.sound (C.deeds h₁) (hs.setLocks _)
  refine ⟨hready _ _ (hs₁.setLocks _), fun r₂ s₂ h₂ => ?_⟩
  refine (hbody r₁ s₁ r₂ s₂ h₁ h₂).mono fun x r₃ s₃ ⟨hs₃, hQ⟩ =>
    ⟨hs₃.locks, hready _ _ hs₃.sound, fun r₄ s₄ h₄ => ?_⟩
  have hs₄ := Company.turn_calm hs₃ h₄
  exact ⟨hready _ _ (hs₄.sound.setLocks _), fun r₅ s₅ h₅ => hQ r₄ s₄ r₅ s₅ h₄ h₅⟩

/-- Not both locks of an exchange are held. -/
def Parting (c : Config k) (key oldKey : Word k) (l : Locks c.shape.count) : Prop :=
  l.isLocked (c.candidates key).primary = false ∨ l.isLocked (c.candidates oldKey).primary = false

/-- A program that needs the locks of two keys ends with the locks as they were at its start. Others
may have a turn before it has both of them, and after it has released one. -/
theorem bothLocks_ensures (hready : ∀ r s, c.Sound T s → C.ready r s) (hs : c.Sound T s)
    (hfree : s.locks.isLocked (c.candidates key).primary = false)
    (hfree' : s.locks.isLocked (c.candidates oldKey).primary = false)
    (hbody : ∀ l₁ l₂ r₁ s₁ r₂ s₂, c.Parting key oldKey l₁ → c.Parting key oldKey l₂ →
      C.turn r (s.setLocks l₁) r₁ s₁ →
      C.turn r₁ (s₁.setLocks (c.holdBoth key oldKey s.locks)) r₂ s₂ →
      body.Ensures C.toWorld Never r₂ s₂ fun x r₃ s₃ =>
        c.Calm T (c.holdBoth key oldKey s.locks) s₃ ∧ ∀ r₄ s₄ r₅ s₅, C.turn r₃ s₃ r₄ s₄ →
          C.turn r₄ (s₄.setLocks l₂) r₅ s₅ → Q x r₅ (s₅.setLocks s.locks)) :
    (c.withLocks g (Locks.order (c.candidates key).primary.val (c.candidates oldKey).primary.val)
      body).Ensures C.toWorld E r s Q := by
  have ha := (c.candidates key).primary.isLt
  have hb := (c.candidates oldKey).primary.isLt
  have hca := Locks.covers_of_lt ha
  simp only [holdBoth] at hbody
  by_cases hab : (c.candidates key).primary.val = (c.candidates oldKey).primary.val
  · simp only [Locks.order, if_pos hab, List.foldl_cons, List.foldl_nil] at hbody ⊢
    refine withLocks_one g ha hfree (hready _ _ (hs.setLocks _)) fun r₁ s₁ h₁ => ?_
    refine (hbody s.locks s.locks r s r₁ s₁ (.inl hfree) (.inl hfree) (C.refl r s) h₁).mono ?_
    intro x r₂ s₂ hend
    obtain ⟨hs₂, hQ⟩ := hend
    refine ⟨hready _ _ hs₂.sound, fun r₃ s₃ h₃ => ?_⟩
    have hs₃ := Company.turn_calm hs₂ h₃
    rw [hs₃.locks, Locks.release_acquire hca hfree]
    refine ⟨?_, hQ r₃ s₃ r₃ (s₃.setLocks s.locks) h₃ (C.refl _ _)⟩
    rw [Locks.isLocked_acquire _ hca]
    simp
  · have hother : ∀ {x y : Nat}, x < c.shape.count → x ≠ y → s.locks.isLocked y = false →
        (s.locks.acquire x).isLocked y = false := by
      intro x y hx hne hy
      rw [Locks.isLocked_acquire _ (Locks.covers_of_lt hx), hy, Bool.or_false]
      exact decide_eq_false hne
    by_cases hlt : (c.candidates key).primary.val < (c.candidates oldKey).primary.val
    · simp only [Locks.order, if_neg hab, if_pos hlt, List.foldl_cons, List.foldl_nil] at hbody ⊢
      exact twoLocks_ensures g ha hb hab hready hs hfree hfree' fun r₁ s₁ r₂ s₂ =>
        hbody _ _ r₁ s₁ r₂ s₂ (.inr (hother ha hab hfree')) (.inl (hother hb (Ne.symm hab) hfree))
    · simp only [Locks.order, if_neg hab, if_neg hlt, List.foldl_cons, List.foldl_nil] at hbody ⊢
      exact twoLocks_ensures g hb ha (Ne.symm hab) hready hs hfree' hfree fun r₁ s₁ r₂ s₂ =>
        hbody _ _ r₁ s₁ r₂ s₂ (.inl (hother hb (Ne.symm hab) hfree)) (.inr (hother ha hab hfree'))

end

theorem exchange_ensures {E : Halt → γ → Cells k v c.shape → Prop} (g : Group)
    (hG : C.Ground T (c.holdBoth key oldKey s.locks) key)
    (hG' : C.Ground T (c.holdBoth key oldKey s.locks) oldKey)
    (hready : ∀ r s, c.Sound T s → C.ready r s)
    (hbears : C.Bears T (c.holdBoth key oldKey s.locks) oldKey c.reserved.holding)
    (hs : c.Sound T s) (hfree : s.locks.isLocked (c.candidates key).primary = false)
    (hfree' : s.locks.isLocked (c.candidates oldKey).primary = false)
    {Q : Bool → γ → Cells k v c.shape → Prop}
    (hQ : ∀ l₁ l₂ r₁ s₁ done r₂ s₂ r₃ s₃, c.Parting key oldKey l₁ → c.Parting key oldKey l₂ →
      C.turn r (s.setLocks l₁) r₁ s₁ →
      ExchangeEnds C key value oldKey oldValue update r₁
        (s₁.setLocks (c.holdBoth key oldKey s.locks)) done r₂ s₂ →
      C.turn r₂ (s₂.setLocks l₂) r₃ s₃ → Q done r₃ (s₃.setLocks s.locks)) :
    (c.exchange g key value oldKey oldValue update).Ensures C.toWorld E r s Q := by
  rw [exchange]
  refine (Prog.yields_require (c := c.reserved.isReserved key = false) hG.live _ s).ensures_bind ?_
  refine bothLocks_ensures g.toLanes hready hs hfree hfree'
    fun l₁ l₂ r₁ s₁ r₂ s₂ hl₁ hl₂ h₁ h₂ => ?_
  have hs₁ : c.Calm T (c.holdBoth key oldKey s.locks)
      (s₁.setLocks (c.holdBoth key oldKey s.locks)) :=
    ⟨(Deeds.sound (C.deeds h₁) (hs.setLocks _)).setLocks _, rfl⟩
  have hs₂ := Company.turn_calm hs₁ h₂
  refine (exchangeBody_ensures g hG hG' hs₂ hbears).mono fun done r₃ s₃ hend => ?_
  refine ⟨hend.calm hG hG' hs₂, fun r₄ s₄ r₅ s₅ h₄ h₅ => ?_⟩
  exact hQ l₁ l₂ r₁ s₁ done r₄ s₄ r₅ s₅ hl₁ hl₂ h₁ ((hend.after h₄).before hG hG' hs₁ h₂) h₅

end Config

end TwoChoice
