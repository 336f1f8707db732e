import TwoChoice.Proofs.Store

/-!
# What an operation owes at its pauses

`storePasses_ensures` tells how a store among others ends. Where several operations run side by
side, each of them also needs to know what the others do between two pauses of theirs. In the world
`W.owing M` an operation owes at every pause that it made a move in `M` since its last one.

That much follows from the end of the operation alone. The company `C.watched` takes note whether
all moves up to the last turn were in `M`. At a pause it may be that the others do nothing any more;
then the operation comes to its end, and what was noted at the pause holds there
(`Prog.Ensures.owing`). So a store owes what it can answer for in the end
(`Config.storePasses_owing`).
-/

set_option autoImplicit false

namespace TwoChoice

variable {k v : Width} {γ σ α : Type}

/-- The operation owes at a pause that it made a move in `M` since its last one. What is remembered
of the pauses comes with the state after the last one. -/
def World.owing (W : World γ σ) (M : σ → σ → Prop) : World (γ × σ) σ where
  ready r s := W.ready r.1 s ∧ M r.2 s
  turn r s r' s' := W.turn r.1 s r'.1 s' ∧ r'.2 = s'

/-- A program that never halts comes to its end also if nothing happens at its pauses. -/
theorem Prog.Ensures.exists_end {W : World γ σ} {E : Halt → γ → σ → Prop} {p : Prog σ α} {r : γ}
    {s : σ} {Q : α → γ → σ → Prop} (hrefl : ∀ s, W.turn r s r s) (hE : ∀ x s, ¬ E x r s)
    (h : p.Ensures W E r s Q) : ∃ a s', Q a r s' := by
  induction p generalizing s with
  | done a => exact ⟨a, s, h⟩
  | halt x => exact absurd h (hE x s)
  | read q ih => exact ih s h
  | write f p ih => exact ih h
  | emit e p ih => exact ih h
  | sync p ih => exact ih (h.2 r s (hrefl s))

variable {c : Config k} {C : Company c v γ} {M : Cells k v c.shape → Cells k v c.shape → Prop}

namespace Company

variable (C) in
/-- The same company. It takes note of the table after the last turn, and whether the operation made
only moves in `M` up to that turn. -/
def watched (hM : ∀ s, M s s) : Company c v (γ × Cells k v c.shape × Prop) where
  ready r s := C.ready r.1 s
  turn r s r' s' :=
    C.turn r.1 s r'.1 s' ∧ (s' = s ∧ r'.2 = r.2 ∨ r'.2 = (s', r.2.2 ∧ M r.2.1 s))
  may := C.may
  left r := C.left r.1
  refl r s := ⟨C.refl _ _, .inl ⟨rfl, rfl⟩⟩
  trans := by
    rintro r s r' s' r'' s'' ⟨h, hnote⟩ ⟨h', hnote'⟩
    refine ⟨C.trans h h', ?_⟩
    rcases hnote with ⟨rfl, hr⟩ | hr <;> rcases hnote' with ⟨rfl, hr'⟩ | hr'
    · exact .inl ⟨rfl, hr'.trans hr⟩
    · exact .inr (hr ▸ hr')
    · exact .inr (hr'.trans hr)
    · exact .inr (by simpa [hr, hM] using hr')
  deeds h := C.deeds h.1
  spent h := C.spent h.1

variable {hM : ∀ s, M s s} {r r' : γ × Cells k v c.shape × Prop} {s s' : Cells k v c.shape}

/-- All moves were in `M`, up to the table at hand. -/
def Moved (M : Cells k v c.shape → Cells k v c.shape → Prop) (r : γ × Cells k v c.shape × Prop)
    (s : Cells k v c.shape) : Prop :=
  r.2.2 ∧ M r.2.1 s

/-- A turn comes to the table that is noted then. -/
theorem turn_noted (h : (C.watched hM).turn r s r' s') (hr : r.2 = (s, True)) :
    r'.2 = (s', True) := by
  rcases h.2 with ⟨rfl, hsame⟩ | hnew
  · exact hsame.trans hr
  · simpa [hr, hM] using hnew

theorem Moved.turn (hk : Moved M r s) (h : (C.watched hM).turn r s r' s') : Moved M r' s' := by
  rcases h.2 with ⟨rfl, hsame⟩ | hnew
  · rwa [Moved, hsame]
  · rw [Moved, hnew]
    exact ⟨hk, hM s'⟩

/-- A turn that was watched is a turn. -/
theorem Around.of_watched {step : Cells k v c.shape → Cells k v c.shape → Prop}
    (h : (C.watched hM).Around r s step r' s') : C.Around r.1 s step r'.1 s' := by
  obtain ⟨r₁, s₁, s₂, before, made, after⟩ := h
  exact ⟨r₁.1, s₁, s₂, before.1, made, after.1⟩

/-- If the one step that was made is in `M`, all moves were. -/
theorem Around.moved {step : Cells k v c.shape → Cells k v c.shape → Prop}
    (h : (C.watched hM).Around r s step r' s') (hstep : ∀ s s', step s s' → M s s')
    (hr : r.2 = (s, True)) : Moved M r' s' := by
  obtain ⟨r₁, s₁, s₂, before, made, after⟩ := h
  have hnoted := turn_noted before hr
  refine Moved.turn ?_ after
  rw [Moved, hnoted]
  exact ⟨trivial, hstep _ _ made⟩

end Company

open Company

/-- **What all moves are known to be at the end they are at every pause.** -/
theorem Prog.Ensures.owing {hM : ∀ s, M s s} {p : Prog (Cells k v c.shape) α} {r : γ}
    {s₀ s : Cells k v c.shape} {Q : α → γ × Cells k v c.shape × Prop → Cells k v c.shape → Prop}
    (h : p.Ensures (C.watched hM).toWorld Config.Never (r, s₀, True) s Q)
    (hQ : ∀ a r s, Q a r s → r.2.2) :
    p.Ensures (C.toWorld.owing M) Config.Never (r, s₀) s fun a r' => Q a (r'.1, r'.2, True) := by
  induction p generalizing r s₀ s with
  | done => exact h
  | halt => exact h
  | read q ih => exact ih s h
  | write f p ih => exact ih h
  | emit e p ih => exact ih h
  | sync p ih =>
    -- suppose that nothing happens from here on
    have hquiet := h.2 (r, s, True ∧ M s₀ s) s ⟨C.refl r s, .inr rfl⟩
    obtain ⟨a, s', hend⟩ := hquiet.exists_end (fun _ => (C.watched hM).refl _ _) fun _ _ => id
    have hmove : M s₀ s := (hQ a _ s' hend).2
    refine ⟨⟨h.1, hmove⟩, fun ⟨r', s₁⟩ s' ⟨ht, hlast⟩ => ?_⟩
    obtain rfl : s₁ = s' := hlast
    exact ih (h.2 (r', s₁, True) s₁ ⟨ht, .inr (by simp [hmove])⟩)

namespace Config

variable {T : Set (Place c.shape)} {l : Locks c.shape.count} {key : Word k} {value : Word v}
variable {replace : Bool} {s : Cells k v c.shape} {r : γ}

theorem StoreEnds.of_watched {hM : ∀ s, M s s} {r r' : γ × Cells k v c.shape × Prop}
    {s s' : Cells k v c.shape} {stored : Stored}
    (h : StoreEnds (C.watched hM) key value replace r s stored r' s') :
    StoreEnds C key value replace r.1 s stored r'.1 s' := by
  cases stored with
  | present => exact Around.of_watched h
  | inserted => exact Around.of_watched h
  | full =>
    obtain ⟨habs, r₁, s₁, r₂, s₂, h₁, hp, h₂, hs, h₃⟩ := h
    exact ⟨habs, r₁.1, s₁, r₂.1, s₂, h₁.1, hp, h₂.1, hs, h₃.1⟩

/-- **A store answers for its moves at every pause.** -/
theorem storePasses_owing (g : Group) (hG : C.Ground T l key) (hM : ∀ s, M s s)
    (hkept : ∀ s s', Kept key value replace s s' → M s s')
    (hentered : ∀ s s', Entered key value s s' → M s s') (hs : c.Calm T l s)
    (hpasses : C.left r < g.passes) :
    (c.storePasses g key value replace g.passes).Ensures (C.toWorld.owing M) Never (r, s) s
      fun stored r' s' => M r'.2 s' ∧ StoreEnds C key value replace r s stored r'.1 s' := by
  have hW : (C.watched hM).Ground T l key := ⟨hG.live, hG.kept, fun r s => hG.ready r.1 s⟩
  have hmoved : ∀ stored r' s', StoreEnds (C.watched hM) key value replace (r, s, True) s stored
      r' s' → Moved M r' s' := by
    intro stored r' s' hend
    cases stored with
    | present => exact Around.moved hend hkept rfl
    | inserted => exact Around.moved hend hentered rfl
    | full =>
      rw [Moved, turn_noted hend.2.turn rfl]
      exact ⟨trivial, hM s'⟩
  have hstore : (c.storePasses g key value replace g.passes).Ensures (C.watched hM).toWorld Never
      (r, s, True) s (StoreEnds (C.watched hM) key value replace (r, s, True) s) :=
    storePasses_ensures g hW g.passes hs hpasses
  refine (hstore.owing fun stored r' s' hend => (hmoved stored r' s' hend).1).mono
    fun stored r' s' hend => ⟨(hmoved stored _ s' hend).2, hend.of_watched⟩

end Config

end TwoChoice
