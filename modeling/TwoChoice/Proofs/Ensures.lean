import TwoChoice.Schedule

/-!
# Programs in company

`p.Ensures W E g s Q`: started from `s`, the program `p` ends with an answer for which `Q` holds, or
halts where `E` allows it, whatever the world `W` does at its pauses. A world says what must hold
when the program pauses and what may have happened when it goes on; `g` is what is remembered of
the pauses. `Ensures.exec` turns such a fact into one about every run in an environment that the
world describes.

Between two pauses a program is a function of the state: `p.Yields s a s'` says that it gets from
`s` to `s'` without a pause and answers `a`. `p.solo s` is the outcome of the whole program when
nothing happens at its pauses.
-/

set_option autoImplicit false

namespace TwoChoice

/-- The company of a program: what it must make true before a pause, and what a pause may do. -/
structure World (γ σ : Type) where
  ready : γ → σ → Prop
  turn : γ → σ → γ → σ → Prop

/-- Nothing happens at the pauses, and nothing need hold there. -/
def World.alone (σ : Type) : World Unit σ where
  ready _ _ := True
  turn _ s _ s' := s' = s

namespace World

variable {γ σ : Type}

/-- Where `I` holds the program may pause, and `I` holds after the pause. -/
structure Stable (W : World γ σ) (I : γ → σ → Prop) : Prop where
  ready : ∀ {r s}, I r s → W.ready r s
  turn : ∀ {r s r' s'}, I r s → W.turn r s r' s' → I r' s'

/-- Some turns in a row; in between the program does nothing. -/
inductive Turns (W : World γ σ) (r : γ) (s : σ) : γ → σ → Prop
  | refl : Turns W r s r s
  | tail {r' s' r'' s''} (before : Turns W r s r' s') (last : W.turn r' s' r'' s'') :
    Turns W r s r'' s''

variable {W : World γ σ} {I : γ → σ → Prop} {r r' r'' : γ} {s s' s'' : σ}

theorem Turns.single (h : W.turn r s r' s') : W.Turns r s r' s' := .tail .refl h

theorem Turns.trans (h : W.Turns r s r' s') (h' : W.Turns r' s' r'' s'') :
    W.Turns r s r'' s'' := by
  induction h' with
  | refl => exact h
  | tail _ last ih => exact .tail ih last

theorem Stable.turns (h : W.Stable I) (hI : I r s) (ht : W.Turns r s r' s') : I r' s' := by
  induction ht with
  | refl => exact hI
  | tail _ last ih => exact h.turn ih last

end World

namespace Prog

variable {γ ρ σ τ α β : Type}

/-- Every run of the program in the world ends as `Q` says, or halts as `E` allows. -/
def Ensures (W : World γ σ) (E : Halt → γ → σ → Prop) :
    Prog σ α → γ → σ → (α → γ → σ → Prop) → Prop
  | .done a, g, s, Q => Q a g s
  | .halt h, g, s, _ => E h g s
  | .read k, g, s, Q => (k s).Ensures W E g s Q
  | .write f p, g, s, Q => p.Ensures W E g (f s) Q
  | .emit _ p, g, s, Q => p.Ensures W E g s Q
  | .sync p, g, s, Q => W.ready g s ∧ ∀ g' s', W.turn g s g' s' → p.Ensures W E g' s' Q

/-- The program gets from the first state to the second without a pause and answers `a`. -/
def Yields : Prog σ α → σ → α → σ → Prop
  | .done a, s, b, s' => a = b ∧ s = s'
  | .halt _, _, _, _ => False
  | .read k, s, b, s' => (k s).Yields s b s'
  | .write f p, s, b, s' => p.Yields (f s) b s'
  | .emit _ p, s, b, s' => p.Yields s b s'
  | .sync _, _, _, _ => False

/-- The outcome of the program when nothing happens at its pauses. -/
def solo : Prog σ α → σ → Except Halt α × σ
  | .done a, s => (.ok a, s)
  | .halt h, s => (.error h, s)
  | .read k, s => (k s).solo s
  | .write f p, s => p.solo (f s)
  | .emit _ p, s => p.solo s
  | .sync p, s => p.solo s

/-! ## Sequences -/

theorem bind_eq (p : Prog σ α) (k : α → Prog σ β) : p >>= k = p.andThen k := rfl

theorem map_eq (f : α → β) (p : Prog σ α) : f <$> p = p >>= fun a => pure (f a) := by
  rw [map_eq_pure_bind]

section
variable {W : World γ σ} {E E' F : Halt → γ → σ → Prop}

theorem ensures_bind {p : Prog σ α} {k : α → Prog σ β} {g : γ} {s : σ} {Q : β → γ → σ → Prop} :
    (p >>= k).Ensures W E g s Q ↔
      p.Ensures W E g s fun a g' s' => (k a).Ensures W E g' s' Q := by
  rw [bind_eq]
  induction p generalizing g s with
  | done | halt => rfl
  | read q ih => exact ih s
  | write f p ih => exact ih
  | emit e p ih => exact ih
  | sync p ih => exact and_congr_right fun _ => forall_congr' fun _ => forall_congr' fun _ =>
      forall_congr' fun _ => ih

theorem ensures_pure {a : α} {g : γ} {s : σ} {Q : α → γ → σ → Prop} :
    (pure a : Prog σ α).Ensures W E g s Q ↔ Q a g s := Iff.rfl

theorem ensures_map {p : Prog σ α} {f : α → β} {g : γ} {s : σ} {Q : β → γ → σ → Prop} :
    (f <$> p).Ensures W E g s Q ↔ p.Ensures W E g s fun a => Q (f a) := by
  rw [map_eq, ensures_bind]
  rfl

theorem ensures_pause {g : γ} {s : σ} {Q : Unit → γ → σ → Prop} :
    (pause : Prog σ Unit).Ensures W E g s Q ↔
      W.ready g s ∧ ∀ g' s', W.turn g s g' s' → Q () g' s' := Iff.rfl

theorem Ensures.mono {p : Prog σ α} {g : γ} {s : σ} {Q Q' : α → γ → σ → Prop}
    (h : p.Ensures W E g s Q) (hQ : ∀ a g' s', Q a g' s' → Q' a g' s') :
    p.Ensures W E g s Q' := by
  induction p generalizing g s with
  | done a => exact hQ a g s h
  | halt => exact h
  | read q ih => exact ih s h
  | write f p ih => exact ih h
  | emit e p ih => exact ih h
  | sync p ih => exact ⟨h.1, fun g' s' ht => ih (h.2 g' s' ht)⟩

theorem Ensures.mono_halt {p : Prog σ α} {g : γ} {s : σ} {Q : α → γ → σ → Prop}
    (h : p.Ensures W E g s Q) (hE : ∀ x g' s', E x g' s' → E' x g' s') : p.Ensures W E' g s Q := by
  induction p generalizing g s with
  | done => exact h
  | halt x => exact hE x g s h
  | read q ih => exact ih s h
  | write f p ih => exact ih h
  | emit e p ih => exact ih h
  | sync p ih => exact ⟨h.1, fun g' s' ht => ih (h.2 g' s' ht)⟩

theorem Ensures.and {p : Prog σ α} {g : γ} {s : σ} {Q Q' : α → γ → σ → Prop}
    (h : p.Ensures W E g s Q) (h' : p.Ensures W E' g s Q') :
    p.Ensures W (fun x g s => E x g s ∧ E' x g s) g s fun a g s => Q a g s ∧ Q' a g s := by
  induction p generalizing g s with
  | done | halt => exact ⟨h, h'⟩
  | read q ih => exact ih s h h'
  | write f p ih => exact ih h h'
  | emit e p ih => exact ih h h'
  | sync p ih => exact ⟨h.1, fun g' s' ht => ih (h.2 g' s' ht) (h'.2 g' s' ht)⟩

/-- Faults are caught, and other halts pass. -/
theorem Ensures.attempt {p : Prog σ α} {g : γ} {s : σ} {Q : Except Fault α → γ → σ → Prop}
    (h : p.Ensures W F g s fun a => Q (.ok a))
    (hf : ∀ f g' s', F (.fault f) g' s' → Q (.error f) g' s')
    (hh : ∀ h g' s', (∀ f, h ≠ .fault f) → F h g' s' → E h g' s') :
    p.attempt.Ensures W E g s Q := by
  induction p generalizing g s with
  | done a => exact h
  | halt x =>
    cases x with
    | fault f => exact hf f g s h
    | waiting b => exact hh _ g s (fun _ h => by cases h) h
    | starved => exact hh _ g s (fun _ h => by cases h) h
  | read q ih => exact ih s h
  | write f p ih => exact ih h
  | emit e p ih => exact ih h
  | sync p ih => exact ⟨h.1, fun g' s' ht => ih (h.2 g' s' ht)⟩

end

/-! ## Without a pause -/

theorem yields_bind {p : Prog σ α} {k : α → Prog σ β} {s s' s'' : σ} {a : α} {b : β}
    (h : p.Yields s a s') (hk : (k a).Yields s' b s'') : (p >>= k).Yields s b s'' := by
  rw [bind_eq]
  induction p generalizing s with
  | done => obtain ⟨rfl, rfl⟩ := h; exact hk
  | halt | sync => exact h.elim
  | read q ih => exact ih s h
  | write f p ih => exact ih h
  | emit e p ih => exact ih h

theorem yields_pure (a : α) (s : σ) : (pure a : Prog σ α).Yields s a s := ⟨rfl, rfl⟩

theorem yields_gets (f : σ → α) (s : σ) : (gets f).Yields s (f s) s := ⟨rfl, rfl⟩

theorem yields_modify (f : σ → σ) (s : σ) : (modify f).Yields s () (f s) := ⟨rfl, rfl⟩

theorem yields_announce (e : Event) (s : σ) : (announce e : Prog σ Unit).Yields s () s := ⟨rfl, rfl⟩

theorem yields_require {c : Prop} [Decidable c] (h : c) (f : Fault) (s : σ) :
    (require c f : Prog σ Unit).Yields s () s := by
  rw [require, if_pos h]
  exact ⟨rfl, rfl⟩

theorem Yields.zoom {l : Lens σ τ} {p : Prog τ α} {s : σ} {a : α} {t : τ}
    (h : p.Yields (l.get s) a t) : (p.zoom l).Yields s a (l.set t s) := by
  induction p generalizing s with
  | done => obtain ⟨rfl, rfl⟩ := h; exact ⟨rfl, (l.set_get s).symm⟩
  | halt | sync => exact h.elim
  | read q ih => exact ih _ h
  | write f p ih =>
    have := ih (s := l.modify f s) (by rwa [Lens.modify, l.get_set])
    rwa [Lens.modify, l.set_set] at this
  | emit e p ih => exact ih h

/-- A program that leaves the part as it is leaves all as it is. -/
theorem Yields.zoom_same {l : Lens σ τ} {p : Prog τ α} {s : σ} {a : α}
    (h : p.Yields (l.get s) a (l.get s)) : (p.zoom l).Yields s a s := by
  have := h.zoom
  rwa [l.set_get] at this

theorem Yields.ensures {W : World γ σ} {E : Halt → γ → σ → Prop} {p : Prog σ α} {g : γ} {s s' : σ}
    {a : α} {Q : α → γ → σ → Prop} (h : p.Yields s a s') (hQ : Q a g s') :
    p.Ensures W E g s Q := by
  induction p generalizing s with
  | done => obtain ⟨rfl, rfl⟩ := h; exact hQ
  | halt | sync => exact h.elim
  | read q ih => exact ih s h
  | write f p ih => exact ih h
  | emit e p ih => exact ih h

theorem Yields.ensures_bind {W : World γ σ} {E : Halt → γ → σ → Prop} {p : Prog σ α}
    {k : α → Prog σ β} {g : γ} {s s' : σ} {a : α} {Q : β → γ → σ → Prop} (h : p.Yields s a s')
    (hk : (k a).Ensures W E g s' Q) : (p >>= k).Ensures W E g s Q :=
  Prog.ensures_bind.2 (h.ensures hk)

/-! ## Parts -/

theorem zoom_bind (l : Lens σ τ) (p : Prog τ α) (k : α → Prog τ β) :
    (p >>= k).zoom l = p.zoom l >>= fun a => (k a).zoom l := by
  rw [bind_eq, bind_eq]
  induction p with
  | done | halt => rfl
  | read q ih => simp only [andThen, zoom, ih]
  | write f p ih => simp only [andThen, zoom, ih]
  | emit e p ih => simp only [andThen, zoom, ih]
  | sync p ih => simp only [andThen, zoom, ih]

theorem zoom_pure (l : Lens σ τ) (a : α) : (pure a : Prog τ α).zoom l = pure a := rfl

theorem zoom_findSomeM? {ι : Type} (l : Lens σ τ) (f : ι → Prog τ (Option β)) :
    ∀ xs : List ι, (xs.findSomeM? f).zoom l = xs.findSomeM? fun a => (f a).zoom l
  | [] => rfl
  | a :: xs => by
    rw [List.findSomeM?, List.findSomeM?, zoom_bind]
    refine bind_congr fun r => ?_
    cases r with
    | none => exact zoom_findSomeM? l f xs
    | some b => rfl

theorem zoom_pause (l : Lens σ τ) : (pause : Prog τ Unit).zoom l = pause := rfl

/-! ## Loops -/

section
variable {W : World γ σ} {E : Halt → γ → σ → Prop} {ι : Type}

/-- A search keeps `I` of what is still to be searched until it finds something. -/
theorem ensures_findSomeM? {f : ι → Prog σ (Option β)} {Q : Option β → γ → σ → Prop}
    (I : List ι → γ → σ → Prop)
    (hstep : ∀ a rest g s, I (a :: rest) g s → (f a).Ensures W E g s fun r g' s' =>
      match r with
      | some b => Q (some b) g' s'
      | none => I rest g' s')
    (hend : ∀ g s, I [] g s → Q none g s) (xs : List ι) {g : γ} {s : σ} (h : I xs g s) :
    (xs.findSomeM? f).Ensures W E g s Q := by
  induction xs generalizing g s with
  | nil => exact hend g s h
  | cons a xs ih =>
    rw [List.findSomeM?, ensures_bind]
    refine (hstep a xs g s h).mono fun r g' s' hr => ?_
    cases r with
    | none => exact ih hr
    | some b => exact hr

/-- As `ensures_findSomeM?`, for a test. -/
theorem ensures_anyM {f : ι → Prog σ Bool} {Q : Bool → γ → σ → Prop} (I : List ι → γ → σ → Prop)
    (hstep : ∀ a rest g s, I (a :: rest) g s → (f a).Ensures W E g s fun r g' s' =>
      match r with
      | true => Q true g' s'
      | false => I rest g' s')
    (hend : ∀ g s, I [] g s → Q false g s) (xs : List ι) {g : γ} {s : σ} (h : I xs g s) :
    (xs.anyM f).Ensures W E g s Q := by
  induction xs generalizing g s with
  | nil => exact hend g s h
  | cons a xs ih =>
    rw [List.anyM, ensures_bind]
    refine (hstep a xs g s h).mono fun r g' s' hr => ?_
    cases r with
    | false => exact ih hr
    | true => exact hr

theorem ensures_foldlM {f : β → ι → Prog σ β} {Q : β → γ → σ → Prop}
    (I : List ι → β → γ → σ → Prop)
    (hstep : ∀ a rest b g s, I (a :: rest) b g s →
      (f b a).Ensures W E g s fun b' g' s' => I rest b' g' s')
    (hend : ∀ b g s, I [] b g s → Q b g s) (xs : List ι) {b : β} {g : γ} {s : σ}
    (h : I xs b g s) : (xs.foldlM f b).Ensures W E g s Q := by
  induction xs generalizing b g s with
  | nil => exact hend b g s h
  | cons a xs ih =>
    rw [List.foldlM_cons, ensures_bind]
    exact (hstep a xs b g s h).mono fun b' g' s' hr => ih hr

theorem ensures_mapM {f : ι → Prog σ β} {Q : List β → γ → σ → Prop}
    (I : List ι → List β → γ → σ → Prop)
    (hstep : ∀ a rest bs g s, I (a :: rest) bs g s →
      (f a).Ensures W E g s fun b g' s' => I rest (bs ++ [b]) g' s')
    (hend : ∀ bs g s, I [] bs g s → Q bs g s) (xs : List ι) {g : γ} {s : σ} (h : I xs [] g s) :
    (xs.mapM f).Ensures W E g s Q := by
  have main : ∀ (xs : List ι) (bs : List β) (g : γ) (s : σ), I xs bs g s →
      (xs.mapM f).Ensures W E g s fun cs => Q (bs ++ cs) := by
    intro xs
    induction xs with
    | nil =>
      intro bs g s h
      rw [List.mapM_nil, ensures_pure, List.append_nil]
      exact hend bs g s h
    | cons a xs ih =>
      intro bs g s h
      rw [List.mapM_cons, ensures_bind]
      refine (hstep a xs bs g s h).mono fun b g' s' hb => ?_
      rw [ensures_bind]
      refine (ih (bs ++ [b]) g' s' hb).mono fun cs g'' s'' hQ => ?_
      rw [ensures_pure]
      rwa [List.append_assoc] at hQ
  simpa using main xs [] g s h

/-- What every round keeps the loop keeps. -/
theorem ensures_mapM_inv {I : γ → σ → Prop} {f : ι → Prog σ β} {xs : List ι}
    (hstep : ∀ a ∈ xs, ∀ g s, I g s → (f a).Ensures W E g s fun _ => I) {g : γ} {s : σ}
    (h : I g s) : (xs.mapM f).Ensures W E g s fun _ => I := by
  refine ensures_mapM (fun rest _ g s => I g s ∧ ∀ a ∈ rest, a ∈ xs) ?_ (fun _ _ _ h => h.1) xs
    ⟨h, fun _ ha => ha⟩
  intro a rest _ g s hinv
  obtain ⟨hI, hmem⟩ := hinv
  exact (hstep a (hmem a (List.mem_cons_self ..)) g s hI).mono fun _ g' s' hI' =>
    ⟨hI', fun b hb => hmem b (List.mem_cons_of_mem _ hb)⟩

/-- As `ensures_mapM_inv`, for a fold. -/
theorem ensures_foldlM_inv {I : γ → σ → Prop} {f : β → ι → Prog σ β} {xs : List ι}
    (hstep : ∀ a ∈ xs, ∀ b g s, I g s → (f b a).Ensures W E g s fun _ => I) {b : β} {g : γ} {s : σ}
    (h : I g s) : (xs.foldlM f b).Ensures W E g s fun _ => I := by
  refine ensures_foldlM (fun rest _ g s => I g s ∧ ∀ a ∈ rest, a ∈ xs) ?_ (fun _ _ _ h => h.1) xs
    ⟨h, fun _ ha => ha⟩
  intro a rest b g s hinv
  obtain ⟨hI, hmem⟩ := hinv
  exact (hstep a (hmem a (List.mem_cons_self ..)) b g s hI).mono fun _ g' s' hI' =>
    ⟨hI', fun b hb => hmem b (List.mem_cons_of_mem _ hb)⟩

/-- As `ensures_mapM_inv`, for a loop without answers. -/
theorem ensures_forM_inv {I : γ → σ → Prop} {f : ι → Prog σ Unit}
    (hstep : ∀ a g s, I g s → (f a).Ensures W E g s fun _ => I) (xs : List ι) {g : γ} {s : σ}
    (h : I g s) : (xs.forM f).Ensures W E g s fun _ => I := by
  rw [List.forM_eq_forM]
  induction xs generalizing g s with
  | nil => exact h
  | cons a xs ih =>
    rw [List.forM_cons, ensures_bind]
    exact (hstep a g s h).mono fun _ _ _ h' => ih h'

end

/-- A loop over the numbers below `n` makes `I n` true if each round makes one step of it. -/
theorem yields_foldlM_range {f : β → Nat → Prog σ β} {s : σ} {b : β} (I : Nat → β → Prop)
    (h : I 0 b) : ∀ n, (∀ i < n, ∀ b, I i b → ∃ b', (f b i).Yields s b' s ∧ I (i + 1) b') →
      ∃ b', ((List.range n).foldlM f b).Yields s b' s ∧ I n b'
  | 0, _ => ⟨b, yields_pure b s, h⟩
  | n + 1, hstep => by
    obtain ⟨b₁, h₁, hI⟩ := yields_foldlM_range I h n fun i hi => hstep i (by omega)
    obtain ⟨b₂, h₂, hI'⟩ := hstep n (by omega) b₁ hI
    refine ⟨b₂, ?_, hI'⟩
    rw [List.range_succ, List.foldlM_append]
    refine yields_bind h₁ ?_
    rw [List.foldlM_cons]
    exact yields_bind h₂ (yields_pure b₂ s)

theorem yields_findSomeM? {ι : Type} {f : ι → Prog σ (Option β)} {h : ι → Option β} {s : σ} :
    ∀ {xs : List ι}, (∀ a ∈ xs, (f a).Yields s (h a) s) →
      (xs.findSomeM? f).Yields s (xs.findSome? h) s
  | [], _ => yields_pure _ s
  | a :: xs, hf => by
    rw [List.findSomeM?, List.findSome?]
    refine yields_bind (hf a (by simp)) ?_
    cases h a with
    | some b => exact yields_pure _ s
    | none => exact yields_findSomeM? fun x hx => hf x (by simp [hx])

theorem yields_foldlM {ι : Type} {f : β → ι → Prog σ β} {h : β → ι → β} {s : σ} :
    ∀ {xs : List ι} {b : β}, (∀ a ∈ xs, ∀ b, (f b a).Yields s (h b a) s) →
      (xs.foldlM f b).Yields s (xs.foldl h b) s
  | [], b, _ => yields_pure b s
  | a :: xs, b, hf => by
    rw [List.foldlM_cons, List.foldl_cons]
    exact yields_bind (hf a (by simp) b) (yields_foldlM fun x hx => hf x (by simp [hx]))

/-! ## Alone -/

theorem Ensures.solo {E : Halt → Unit → σ → Prop} {p : Prog σ α} {s : σ}
    {Q : α → Unit → σ → Prop} (h : p.Ensures (World.alone σ) E () s Q) :
    match p.solo s with
    | (.ok a, s') => Q a () s'
    | (.error x, s') => E x () s' := by
  induction p generalizing s with
  | done | halt => exact h
  | read q ih => exact ih s h
  | write f p ih => exact ih h
  | emit e p ih => exact ih h
  | sync p ih => exact ih (h.2 () s rfl)

/-- Where nothing happens at the pauses a program runs as it does alone. -/
theorem exec_solo {V : Env ρ σ} (hpause : ∀ r s, (V.pause r s).2 = s) (p : Prog σ α) (r : ρ)
    (s : σ) : (p.exec V r s).1 = (p.solo s).1 ∧ (p.exec V r s).2.2 = (p.solo s).2 := by
  induction p generalizing r s with
  | done | halt => exact ⟨rfl, rfl⟩
  | read q ih => exact ih s r s
  | write f p ih => exact ih r (f s)
  | emit e p ih => exact ih _ s
  | sync p ih =>
    rw [exec, solo, hpause]
    exact ih _ s

/-- Without its pauses a program does in any world what it does alone. -/
theorem ensures_detached {W : World γ σ} {E : Halt → γ → σ → Prop} {p : Prog σ α} {g : γ} {s : σ}
    {Q : α → γ → σ → Prop} :
    p.detached.Ensures W E g s Q ↔
      match p.solo s with
      | (.ok a, s') => Q a g s'
      | (.error x, s') => E x g s' := by
  induction p generalizing g s with
  | done | halt => exact Iff.rfl
  | read q ih => exact ih s
  | write f p ih => exact ih
  | emit e p ih => cases e <;> exact ih
  | sync p ih => exact ih

/-! ## Runs -/

theorem exec_bind (V : Env ρ σ) (p : Prog σ α) (k : α → Prog σ β) (r : ρ) (s : σ) :
    (p >>= k).exec V r s =
      match p.exec V r s with
      | (.ok a, r', s') => (k a).exec V r' s'
      | (.error h, r', s') => (.error h, r', s') := by
  rw [bind_eq, exec_andThen]
  generalize p.exec V r s = after
  obtain ⟨_ | a, r', s'⟩ := after <;> rfl

theorem exec_attempt (V : Env ρ σ) (p : Prog σ α) (r : ρ) (s : σ) :
    p.attempt.exec V r s =
      match p.exec V r s with
      | (.ok a, after) => (.ok (.ok a), after)
      | (.error (.fault f), after) => (.ok (.error f), after)
      | (.error h, after) => (.error h, after) := by
  induction p generalizing r s with
  | done => rfl
  | halt x => cases x <;> rfl
  | read q ih => exact ih s r s
  | write f p ih => exact ih r (f s)
  | emit e p ih => exact ih (V.note r e) s
  | sync p ih => exact ih _ _

/-- **A world describes an environment** when each pause of it is a turn. Then what a program
ensures in the world holds at the end of its run in the environment. -/
theorem Ensures.exec {W : World γ σ} {E : Halt → γ → σ → Prop} {V : Env ρ σ}
    {R : ρ → γ → Prop} (hnote : ∀ r g e, R r g → R (V.note r e) g)
    (hpause : ∀ r g s, R r g → W.ready g s →
      ∃ g', W.turn g s g' (V.pause r s).2 ∧ R (V.pause r s).1 g')
    {p : Prog σ α} {r : ρ} {g : γ} {s : σ} {Q : α → γ → σ → Prop} (h : p.Ensures W E g s Q)
    (hr : R r g) :
    ∃ g', R (p.exec V r s).2.1 g' ∧
      match p.exec V r s with
      | (.ok a, _, s') => Q a g' s'
      | (.error x, _, s') => E x g' s' := by
  induction p generalizing r g s with
  | done | halt => exact ⟨g, hr, h⟩
  | read q ih => exact ih s h hr
  | write f p ih => exact ih h hr
  | emit e p ih => exact ih h (hnote r g e hr)
  | sync p ih =>
    obtain ⟨g', ht, hr'⟩ := hpause r g s hr h.1
    exact ih (h.2 g' _ ht) hr'

end Prog

end TwoChoice
