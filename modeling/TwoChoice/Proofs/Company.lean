import TwoChoice.Proofs.Bucket

/-!
# Others at work

A `Company` is the world of an operation on a table: at its pauses others carry out deeds, on keys
they may touch while the locks are as they are. `C.Ground T l key` is what an operation on `key`
relies on while the locks are `l`: nobody else stores or removes the key, and a sound table is all
that the operation owes to the others at a pause. Then the key keeps its place over a turn
(`Ground.key_iff`), and so do the slots in transit (`turn_same_of_mem`).

`C.Around r₀ s₀ step r s`: one step was made at some instant between the start and the end. The
rules for locks (`lock_ensures`, `unlock_ensures`, `withLocks_one`, `withLocks_two`) and the one
for an operation on a single key (`guarded_ensures`) end the module.
-/

set_option autoImplicit false

namespace TwoChoice

variable {k v : Width}

/-- The others at work on a table, as an operation sees them. -/
structure Company (c : Config k) (v : Width) (γ : Type) extends World γ (Cells k v c.shape) where
  /-- The keys that others may store or remove while these are the locks. -/
  may : Locks c.shape.count → Word k → Prop
  /-- How often others may still change the table. -/
  left : γ → Nat
  refl : ∀ r s, turn r s r s
  trans : ∀ {r s r' s' r'' s''}, turn r s r' s' → turn r' s' r'' s'' → turn r s r'' s''
  deeds : ∀ {r s r' s'}, turn r s r' s' → c.Deeds (may s.locks) s s'
  spent : ∀ {r s r' s'}, turn r s r' s' → s' = s ∧ left r' ≤ left r ∨ left r' < left r

/-- The table is sound under these locks. -/
structure Config.Calm (c : Config k) (T : Set (Place c.shape)) (l : Locks c.shape.count)
    (s : Cells k v c.shape) : Prop where
  sound : c.Sound T s
  locks : s.locks = l

namespace Company

variable {c : Config k} {γ : Type}

/-- Nobody else is there. -/
def alone (c : Config k) (v : Width) : Company c v Unit where
  toWorld := World.alone _
  may _ _ := False
  left _ := 0
  refl _ _ := rfl
  trans h h' := Eq.trans h' h
  deeds h := h ▸ Relation.ReflTransGen.refl
  spent h := .inl ⟨h, Nat.le_refl _⟩

variable (C : Company c v γ)

/-- What an operation on the key relies on while the locks are `l` and the slots in `T` are in
transit for others. -/
structure Ground (T : Set (Place c.shape)) (l : Locks c.shape.count) (key : Word k) : Prop where
  live : c.Live key
  kept : ¬ C.may l key
  ready : ∀ r s, c.Calm T l s → C.ready r s

/-- An operation may pause while a slot is in transit that held `old` and has the reserved key
`mark` now. -/
def Bears (T : Set (Place c.shape)) (l : Locks c.shape.count) (old mark : Word k) : Prop :=
  ∀ r s p, p ∉ T → c.Calm (insert p T) l s → s.key p = mark → s.Absent old → C.ready r s

/-- A step was made at some instant between the start and the end. -/
def Around (r₀ : γ) (s₀ : Cells k v c.shape) (step : Cells k v c.shape → Cells k v c.shape → Prop)
    (r : γ) (s : Cells k v c.shape) : Prop :=
  ∃ r₁ s₁ s₂, C.turn r₀ s₀ r₁ s₁ ∧ step s₁ s₂ ∧ C.turn r₁ s₂ r s

variable {C}
variable {T T' : Set (Place c.shape)} {l : Locks c.shape.count} {key : Word k} {r r' r₀ : γ}
variable {s s' s₀ : Cells k v c.shape} {p : Place c.shape}

theorem Around.after {step : Cells k v c.shape → Cells k v c.shape → Prop}
    (h : C.Around r₀ s₀ step r s) (ht : C.turn r s r' s') : C.Around r₀ s₀ step r' s' := by
  obtain ⟨r₁, s₁, s₂, h1, hs, h2⟩ := h
  exact ⟨r₁, s₁, s₂, h1, hs, C.trans h2 ht⟩

theorem Around.before {step : Cells k v c.shape → Cells k v c.shape → Prop}
    (ht : C.turn r₀ s₀ r s) (h : C.Around r s step r' s') : C.Around r₀ s₀ step r' s' := by
  obtain ⟨r₁, s₁, s₂, h1, hs, h2⟩ := h
  exact ⟨r₁, s₁, s₂, C.trans ht h1, hs, h2⟩

/-- What the others can do from here they can do from there. -/
theorem stable_turn (hready : ∀ r' s', C.turn r s r' s' → C.ready r' s') :
    C.toWorld.Stable (C.turn r s) :=
  ⟨fun h => hready _ _ h, C.trans⟩

theorem left_le (ht : C.turn r s r' s') : C.left r' ≤ C.left r := by
  rcases C.spent ht with h | h
  · exact h.2
  · exact Nat.le_of_lt h

theorem turn_locks (ht : C.turn r s r' s') : s'.locks = s.locks := Config.Deeds.locks (C.deeds ht)

theorem turn_calm (h : c.Calm T l s) (ht : C.turn r s r' s') : c.Calm T l s' :=
  ⟨Config.Deeds.sound (C.deeds ht) h.sound, by rw [turn_locks ht, h.locks]⟩

theorem turn_same_of_mem (h : c.Calm T l s) (ht : C.turn r s r' s') (hp : p ∈ T) :
    s'.tag p = s.tag p ∧ s'.slot p = s.slot p :=
  Config.Deeds.same_of_mem (C.deeds ht) h.sound hp

namespace Ground

theorem same (hG : C.Ground T l key) (h : c.Calm T' l s) (ht : C.turn r s r' s')
    (hp : s.key p = key) : s'.tag p = s.tag p ∧ s'.slot p = s.slot p :=
  Config.Deeds.same_of_key (C.deeds ht) h.sound (hp ▸ hG.live) (by
    rw [hp, h.locks]
    exact hG.kept)

theorem key_iff (hG : C.Ground T l key) (h : c.Calm T' l s) (ht : C.turn r s r' s') :
    s'.key p = key ↔ s.key p = key :=
  Config.Deeds.key_iff (C.deeds ht) h.sound hG.live (by
    rw [h.locks]
    exact hG.kept)

theorem value (hG : C.Ground T l key) (h : c.Calm T' l s) (ht : C.turn r s r' s')
    (hp : s.key p = key) : s'.value p = s.value p := by
  rw [Cells.value, (hG.same h ht hp).2, ← Cells.value]

theorem absent (hG : C.Ground T l key) (h : c.Calm T' l s) (ht : C.turn r s r' s')
    (habs : s.Absent key) : s'.Absent key :=
  fun p hp => habs p ((hG.key_iff h ht).1 hp)

end Ground

end Company

/-! ## Locks -/

namespace Config

variable {c : Config k} {γ α : Type} {W : World γ (Cells k v c.shape)}
variable {E : Halt → γ → Cells k v c.shape → Prop} (g : Lanes)
variable {r : γ} {s : Cells k v c.shape} {b : Nat}

theorem lock_ensures {Q : Unit → γ → Cells k v c.shape → Prop} (hb : b < c.shape.count)
    (hfree : s.locks.isLocked b = false) (hr : W.ready r (s.setLocks (s.locks.acquire b)))
    (hQ : ∀ r' s', W.turn r (s.setLocks (s.locks.acquire b)) r' s' → Q () r' s') :
    ((Locks.lock g b).zoom Cells.locksLens).Ensures W E r s Q := by
  have htake := Locks.yields_take g (Locks.covers_of_lt hb) hfree
  rw [Locks.lock, Prog.zoom_bind]
  refine (Prog.Yields.zoom (l := Cells.locksLens) htake).ensures_bind ?_
  rw [Prog.zoom_pause, Prog.ensures_pause]
  exact ⟨hr, hQ⟩

/-- Who finds a bucket locked waits there. -/
theorem lock_waits {Q : Unit → γ → Cells k v c.shape → Prop} (hb : b < c.shape.count)
    (hlocked : s.locks.isLocked b = true) (hE : E (.waiting b) r s) :
    ((Locks.lock g b).zoom Cells.locksLens).Ensures W E r s Q := by
  have htry := Locks.yields_tryLock s.locks (Locks.covers_of_lt hb)
  rw [hlocked] at htry
  rw [Locks.lock, Lanes.elect, Prog.zoom_bind, Prog.zoom_bind, Prog.zoom_bind, Prog.zoom_bind,
    Prog.ensures_bind]
  refine (Prog.Yields.zoom_same (Prog.yields_announce _ _)).ensures_bind ?_
  refine (Prog.Yields.zoom_same (Prog.yields_require g.pos _ _)).ensures_bind ?_
  exact (Prog.Yields.zoom_same (l := Cells.locksLens) htry).ensures_bind hE

theorem unlock_ensures {Q : Unit → γ → Cells k v c.shape → Prop} (hb : b < c.shape.count)
    (hr : W.ready r s)
    (hQ : ∀ r' s', W.turn r s r' s' →
      s'.locks.isLocked b = true ∧ Q () r' (s'.setLocks (s'.locks.release b))) :
    ((Locks.unlock g b).zoom Cells.locksLens).Ensures W E r s Q := by
  rw [Locks.unlock, Prog.zoom_bind, Prog.zoom_pause, Prog.ensures_bind, Prog.ensures_pause]
  refine ⟨hr, fun r' s' ht => ?_⟩
  obtain ⟨hheld, hQ'⟩ := hQ r' s' ht
  have hgive := Locks.yields_give g (Locks.covers_of_lt hb) hheld
  exact Prog.Yields.ensures (Prog.Yields.zoom (l := Cells.locksLens) hgive) hQ'

/-- A program that never halts. -/
def Never : Halt → γ → Cells k v c.shape → Prop := fun _ _ _ => False

theorem attempt_ensures {body : Prog (Cells k v c.shape) α}
    {Q : Except Fault α → γ → Cells k v c.shape → Prop}
    (h : body.Ensures W Never r s fun a => Q (.ok a)) : body.attempt.Ensures W E r s Q :=
  h.attempt (fun _ _ _ hf => hf.elim) (fun _ _ _ _ hf => hf.elim)

theorem withLocks_nil {body : Prog (Cells k v c.shape) α} {Q : α → γ → Cells k v c.shape → Prop}
    (h : body.Ensures W Never r s Q) : (c.withLocks g [] body).Ensures W E r s Q := by
  rw [withLocks, Locks.withLocks, List.forM_eq_forM, List.forM_nil, Prog.ensures_bind,
    Prog.ensures_pure, Prog.ensures_bind]
  exact attempt_ensures (h.mono fun a r' s' hQ => hQ)

/-- One lock is held while the body runs and is free again at the end. -/
theorem withLocks_one {body : Prog (Cells k v c.shape) α} {Q : α → γ → Cells k v c.shape → Prop}
    (hb : b < c.shape.count) (hfree : s.locks.isLocked b = false)
    (hr : W.ready r (s.setLocks (s.locks.acquire b)))
    (hbody : ∀ r' s', W.turn r (s.setLocks (s.locks.acquire b)) r' s' →
      body.Ensures W Never r' s' fun a r'' s'' => W.ready r'' s'' ∧ ∀ r₃ s₃, W.turn r'' s'' r₃ s₃ →
        s₃.locks.isLocked b = true ∧ Q a r₃ (s₃.setLocks (s₃.locks.release b))) :
    (c.withLocks g [b] body).Ensures W E r s Q := by
  simp only [withLocks, Locks.withLocks, List.forM_eq_forM, List.forM_cons, List.forM_nil]
  rw [Prog.ensures_bind, Prog.ensures_bind]
  refine lock_ensures g hb hfree hr fun r' s' ht => ?_
  rw [Prog.ensures_pure, Prog.ensures_bind]
  refine attempt_ensures ((hbody r' s' ht).mono fun a r'' s'' h => ?_)
  rw [Prog.ensures_bind, Prog.ensures_bind]
  exact unlock_ensures g hb h.1 h.2

/-- Two locks are taken one after the other, held while the body runs, and released in the same
order. -/
theorem withLocks_two {b' : Nat} {body : Prog (Cells k v c.shape) α}
    {Q : α → γ → Cells k v c.shape → Prop} (hb : b < c.shape.count) (hb' : b' < c.shape.count)
    (hfree : s.locks.isLocked b = false) (hr : W.ready r (s.setLocks (s.locks.acquire b)))
    (hsecond : ∀ r₁ s₁, W.turn r (s.setLocks (s.locks.acquire b)) r₁ s₁ →
      s₁.locks.isLocked b' = false ∧ W.ready r₁ (s₁.setLocks (s₁.locks.acquire b')) ∧
      ∀ r₂ s₂, W.turn r₁ (s₁.setLocks (s₁.locks.acquire b')) r₂ s₂ →
        body.Ensures W Never r₂ s₂ fun a r₃ s₃ => W.ready r₃ s₃ ∧ ∀ r₄ s₄, W.turn r₃ s₃ r₄ s₄ →
          s₄.locks.isLocked b = true ∧ W.ready r₄ (s₄.setLocks (s₄.locks.release b)) ∧
          ∀ r₅ s₅, W.turn r₄ (s₄.setLocks (s₄.locks.release b)) r₅ s₅ →
            s₅.locks.isLocked b' = true ∧ Q a r₅ (s₅.setLocks (s₅.locks.release b'))) :
    (c.withLocks g [b, b'] body).Ensures W E r s Q := by
  simp only [withLocks, Locks.withLocks, List.forM_eq_forM, List.forM_cons, List.forM_nil]
  rw [Prog.ensures_bind, Prog.ensures_bind]
  refine lock_ensures g hb hfree hr fun r₁ s₁ ht₁ => ?_
  obtain ⟨hfree', hr', hbody⟩ := hsecond r₁ s₁ ht₁
  rw [Prog.ensures_bind]
  refine lock_ensures g hb' hfree' hr' fun r₂ s₂ ht₂ => ?_
  rw [Prog.ensures_pure, Prog.ensures_bind]
  refine attempt_ensures ((hbody r₂ s₂ ht₂).mono fun a r₃ s₃ h => ?_)
  rw [Prog.ensures_bind, Prog.ensures_bind]
  refine unlock_ensures g hb h.1 fun r₄ s₄ ht₄ => ?_
  obtain ⟨hheld, hr₄, hlast⟩ := h.2 r₄ s₄ ht₄
  refine ⟨hheld, ?_⟩
  rw [Prog.ensures_bind]
  exact unlock_ensures g hb' hr₄ hlast

/-- As `withLocks_two`, where a pause leaves the locks alone: first one lock is held, then both,
then the other one, and the locks are as they were in the end. -/
theorem withLocks_both {l : Locks c.shape.count} {b' : Nat} {body : Prog (Cells k v c.shape) α}
    {Q : α → γ → Cells k v c.shape → Prop} (hb : b < c.shape.count) (hb' : b' < c.shape.count)
    (hne : b ≠ b') (hlocks : ∀ {r s r' s'}, W.turn r s r' s' → s'.locks = s.locks)
    (hs : s.locks = l) (hfree : l.isLocked b = false) (hfree' : l.isLocked b' = false)
    (hr : W.ready r (s.setLocks (l.acquire b)))
    (hbody : ∀ r₁ s₁, W.turn r (s.setLocks (l.acquire b)) r₁ s₁ →
      W.ready r₁ (s₁.setLocks ((l.acquire b).acquire b')) ∧
      ∀ r₂ s₂, W.turn r₁ (s₁.setLocks ((l.acquire b).acquire b')) r₂ s₂ →
        body.Ensures W Never r₂ s₂ fun a r₃ s₃ =>
          s₃.locks = (l.acquire b).acquire b' ∧ W.ready r₃ s₃ ∧ ∀ r₄ s₄, W.turn r₃ s₃ r₄ s₄ →
            W.ready r₄ (s₄.setLocks (l.acquire b')) ∧
            ∀ r₅ s₅, W.turn r₄ (s₄.setLocks (l.acquire b')) r₅ s₅ → Q a r₅ (s₅.setLocks l)) :
    (c.withLocks g [b, b'] body).Ensures W E r s Q := by
  have hc := Locks.covers_of_lt hb
  have hc' := Locks.covers_of_lt hb'
  subst hs
  refine withLocks_two g hb hb' hfree hr fun r₁ s₁ h₁ => ?_
  have hl₁ : s₁.locks = s.locks.acquire b := hlocks h₁
  obtain ⟨hr₁, hboth⟩ := hbody r₁ s₁ h₁
  rw [hl₁]
  refine ⟨?_, hr₁, fun r₂ s₂ h₂ => (hboth r₂ s₂ h₂).mono fun a r₃ s₃ hend => ?_⟩
  · rw [Locks.isLocked_acquire _ hc, hfree']
    simpa using hne
  obtain ⟨hl₃, hr₃, hlast⟩ := hend
  refine ⟨hr₃, fun r₄ s₄ h₄ => ?_⟩
  have hl₄ : s₄.locks = (s.locks.acquire b).acquire b' := (hlocks h₄).trans hl₃
  have hrelease : s₄.locks.release b = s.locks.acquire b' := by
    rw [hl₄, Locks.release_acquire_of_ne _ hc hc' hne, Locks.release_acquire hc hfree]
  obtain ⟨hr₄, hQ⟩ := hlast r₄ s₄ h₄
  rw [hrelease]
  refine ⟨?_, hr₄, fun r₅ s₅ h₅ => ?_⟩
  · rw [hl₄, Locks.isLocked_acquire _ hc', Locks.isLocked_acquire _ hc]
    simp
  have hl₅ : s₅.locks = s.locks.acquire b' := hlocks h₅
  rw [hl₅, Locks.release_acquire hc' hfree']
  refine ⟨?_, hQ r₅ s₅ h₅⟩
  rw [Locks.isLocked_acquire _ hc']
  simp

/-- The locks while an operation on the key runs. -/
def hold (c : Config k) (key : Word k) (locked : Bool) (l : Locks c.shape.count) :
    Locks c.shape.count :=
  if locked then l.acquire (c.candidates key).primary else l

theorem isLocked_hold {key : Word k} {l : Locks c.shape.count} :
    (c.hold key true l).isLocked (c.candidates key).primary = true := by
  rw [hold, if_pos rfl, Locks.isLocked_acquire _ (Locks.covers_of_lt (Fin.isLt _))]
  simp

/-- The program of an operation on one key ends with the locks as they were at its start. -/
theorem guarded_ensures {C : Company c v γ} {T : Set (Place c.shape)} {key : Word k} {locked : Bool}
    {body : Prog (Cells k v c.shape) α} {Q : α → γ → Cells k v c.shape → Prop}
    (hready : ∀ r s', c.Calm T (c.hold key locked s.locks) s' → C.ready r s') (hs : c.Sound T s)
    (hfree : locked = true → s.locks.isLocked (c.candidates key).primary = false)
    (hbody : ∀ r' s', C.turn r (s.setLocks (c.hold key locked s.locks)) r' s' →
      body.Ensures C.toWorld Never r' s' fun a r'' s'' =>
        c.Calm T (c.hold key locked s.locks) s'' ∧
        ∀ r₃ s₃, C.turn r'' s'' r₃ s₃ → Q a r₃ (s₃.setLocks s.locks)) :
    (c.withLocks g (if locked then [(c.candidates key).primary.val] else []) body).Ensures
      C.toWorld E r s Q := by
  cases locked with
  | false =>
    refine withLocks_nil g ((hbody r s (C.refl r s)).mono fun a r'' s'' h => ?_)
    have hQ := h.2 r'' s'' (C.refl r'' s'')
    have hl : s''.locks = s.locks := h.1.locks
    rwa [← hl, s''.setLocks_self] at hQ
  | true =>
    have hb := (c.candidates key).primary.isLt
    refine withLocks_one g hb (hfree rfl) (hready _ _ ⟨hs.setLocks _, rfl⟩) fun r' s' ht => ?_
    refine (hbody r' s' ht).mono fun a r'' s'' h => ⟨hready _ _ h.1, fun r₃ s₃ ht' => ?_⟩
    have hl : s₃.locks = s.locks.acquire (c.candidates key).primary := by
      rw [Company.turn_locks ht', h.1.locks]
      rfl
    refine ⟨?_, ?_⟩
    · rw [hl, Locks.isLocked_acquire _ (Locks.covers_of_lt hb)]
      simp
    · rw [hl, Locks.release_acquire (Locks.covers_of_lt hb) (hfree rfl)]
      exact h.2 r₃ s₃ ht'

end Config

end TwoChoice
