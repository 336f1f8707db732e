import TwoChoice.Proofs.Company
import TwoChoice.Table.Pick

/-!
# Reads in company

Reads take no lock, so others may do what they like in the meantime, also to the key. A lookup
answers a value that the key has when the lookup ends, or the key was missed: `missed r` is a fact
that others make true when they remove or move the key, and that stays true (`find?_ensures`).
A pick takes a vote on each candidate bucket and answers from the slots as they are after the last
vote (`picked`, `pick_ensures`). Reads of any kind leave true what others leave true
(`find?_stable`, `pick_stable`, `pickSmaller_stable`).
-/

set_option autoImplicit false

namespace TwoChoice.Config

variable {k v : Width} {c : Config k} {γ : Type} {C : Company c v γ}
variable {T : Set (Place c.shape)} {l : Locks c.shape.count} {key : Word k}
variable {r r' : γ} {s s' : Cells k v c.shape} {b : Fin c.shape.count}

/-- What a lookup needs to know of the others: a key that is no longer in its slot was missed, and
a key that was missed once stays so. -/
structure Watched (C : Company c v γ) (key : Word k) (missed : γ → Prop) : Prop where
  stays : ∀ {r s r' s'}, C.turn r s r' s' → missed r → missed r'
  moves : ∀ {T s} {p : Place c.shape} {r r' s'}, c.Sound T s → C.turn r s r' s' → s.key p = key →
    s'.key p = key ∨ missed r'

/-- The key lies in a bucket that is still to be searched, or it was missed. -/
def Sought (c : Config k) (missed : γ → Prop) (key : Word k) (rest : List (Fin c.shape.count))
    (r : γ) (s : Cells k v c.shape) : Prop :=
  missed r ∨ ∃ p : Place c.shape, s.key p = key ∧ p.bucket ∈ rest

section
variable (g : Group) {missed : γ → Prop} {rest : List (Fin c.shape.count)}

theorem sought_candidates (hs : c.Sound T s) (hlive : c.Live key)
    (hstart : s.Absent key → missed r) : c.Sought missed key (c.candidates key).distinct r s := by
  by_cases hex : ∃ p, s.key p = key
  · obtain ⟨p, hp⟩ := hex
    exact .inr ⟨p, hp, hp ▸ hs.mayLie (hp ▸ hlive)⟩
  · exact .inl (hstart fun p hp => hex ⟨p, hp⟩)

/-- After one bucket the key is in the others, if it was missed in case it was there. -/
theorem Watched.sought_rest (hW : Watched C key missed) (hs : c.Sound T s)
    (h : c.Sought missed key (b :: rest) r s) (ht : C.turn r s r' s')
    (hb : ∀ i, s.key ⟨b, i⟩ = key → missed r') : c.Sought missed key rest r' s' := by
  rcases h with hm | ⟨p, hp, hmem⟩
  · exact .inl (hW.stays ht hm)
  · rcases hW.moves hs ht hp with hp' | hm
    · rcases List.mem_cons.1 hmem with rfl | hmem
      · exact .inl (hb p.index hp)
      · exact .inr ⟨p, hp', hmem⟩
    · exact .inl hm

theorem Sought.missed_of_nil (h : c.Sought missed key [] r s) : missed r := by
  refine h.resolve_right fun hex => ?_
  obtain ⟨p, -, hp⟩ := hex
  exact List.not_mem_nil hp

/-- **A lookup** answers a value that the key has at its end, or the key was missed. -/
theorem find?_ensures {E : Halt → γ → Cells k v c.shape → Prop} (hlive : c.Live key)
    (hs : c.Calm T l s) (hready : ∀ r s, c.Calm T l s → C.ready r s)
    (hW : Watched C key missed) (hstart : s.Absent key → missed r)
    {Q : Option (Word v) → γ → Cells k v c.shape → Prop}
    (hsome : ∀ r' s' p, C.turn r s r' s' → s'.key p = key → Q (some (s'.value p)) r' s')
    (hnone : ∀ r' s', C.turn r s r' s' → missed r' → Q none r' s') :
    (c.find? g key).Ensures C.toWorld E r s Q := by
  refine Prog.ensures_findSomeM? (fun rest r' s' => C.turn r s r' s' ∧
    c.Sought missed key rest r' s') ?_ (fun r' s' h => hnone r' s' h.1 h.2.missed_of_nil) _
    ⟨C.refl r s, sought_candidates hs.sound hlive hstart⟩
  intro b rest r₁ s₁ hinv
  obtain ⟨h₁, hsought⟩ := hinv
  have hs₁ := Company.turn_calm hs h₁
  have hcand : ∀ {i}, s₁.key ⟨b, i⟩ = key → _ := fun hi => matching_has hs₁.sound hlive hi
  rw [Prog.ensures_bind]
  refine scan_ensures g.toLanes _ (hready _ _ hs₁) fun r₂ s₂ h₂ => ?_
  have hs₂ := Company.turn_calm hs₁ h₂
  split
  · rename_i hz
    refine ⟨C.trans h₁ h₂, hW.sought_rest hs₁.sound hsought h₂ fun i hi => ?_⟩
    exact absurd hz (matching_ne_zero (hcand hi))
  · refine find_ensures g.toLanes key _ (hready _ _ hs₂) (fun r₃ s₃ i h₃ hi => ?_)
      fun r₃ s₃ h₃ hgone => ?_
    · exact hsome r₃ s₃ ⟨b, i⟩ (C.trans h₁ (C.trans h₂ h₃)) hi
    · have h₂₃ := C.trans h₂ h₃
      refine ⟨C.trans h₁ h₂₃, hW.sought_rest hs₁.sound hsought h₂₃ fun i hi => ?_⟩
      -- a key that was in the bucket at the scan was taken away before the ballot, or after it
      rcases hW.moves hs₁.sound h₂ hi with hi₂ | hm
      · rcases hW.moves hs₂.sound h₃ hi₂ with hi₃ | hm
        · exact absurd hi₃ (hgone i (hcand hi) hi₂)
        · exact hm
      · exact hW.stays h₃ hm

end

/-! ## Reads of any kind -/

section
variable {W : World γ (Cells k v c.shape)} {I : γ → Cells k v c.shape → Prop}
variable {E : Halt → γ → Cells k v c.shape → Prop}

/-- A lookup of any key, also a reserved one, changes nothing. -/
theorem find?_stable (g : Group) (key : Word k) (hW : W.Stable I) (h : I r s) :
    (c.find? (v := v) g key).Ensures W E r s fun _ => I := by
  refine Prog.ensures_findSomeM? (fun _ => I) ?_ (fun _ _ h => h) _ h
  intro b rest r₁ s₁ h₁
  rw [Prog.ensures_bind]
  refine scan_ensures g.toLanes _ (hW.ready h₁) fun r₂ s₂ ht => ?_
  have h₂ := hW.turn h₁ ht
  split
  · exact h₂
  · exact find_ensures g.toLanes key _ (hW.ready h₂) (fun r₃ s₃ i ht _ => hW.turn h₂ ht)
      fun r₃ s₃ ht _ => hW.turn h₂ ht

/-! ### By a salt -/

variable (c) in
/-- The slots that the votes on the candidate buckets name. -/
def named (key : Word k) (primary secondary : Mask) : List (Fin c.shape.count × Nat) :=
  primary.indices.map ((c.candidates key).primary, ·) ++
    secondary.indices.map ((c.candidates key).secondary, ·)

variable (c) in
/-- What is found in the slots, from the one that the salt chooses on and round. -/
def picked (salt : UInt64) (live : List (Fin c.shape.count × Nat)) (s : Cells k v c.shape) :
    Option (Word k × Word v) :=
  let start := (Word.hash (w := .w64) salt.toBitVec c.seed).toNat % live.length
  (live.drop start ++ live.take start).findSome? fun x =>
    (s.bucket x.1).slots.pairAt c.reserved x.2

theorem picked_yields (g : Lanes) (salt : UInt64) {live : List (Fin c.shape.count × Nat)}
    (hlive : ∀ x ∈ live, x.2 < c.shape.len.slots) :
    Prog.Yields (if live.isEmpty then return none else
      let start := (Word.hash (w := .w64) salt.toBitVec c.seed).toNat % live.length
      (live.drop start ++ live.take start).findSomeM? fun x =>
        c.atSlots x.1 (Slots.readPair g c.reserved x.2)) s (c.picked salt live s) s := by
  split
  · rename_i hnil
    have hnone : c.picked salt live s = none := by
      simp [picked, List.isEmpty_iff.1 hnil]
    rw [hnone]
    exact Prog.yields_pure none s
  · refine Prog.yields_findSomeM? fun x hx => readPair_yields g (hlive x ?_)
    rcases List.mem_append.1 hx with hx | hx
    · exact List.mem_of_mem_drop hx
    · exact List.mem_of_mem_take hx

/-- A pick takes a vote on each candidate bucket and reads the slots after the last one. -/
theorem pick_ensures (g : Group) (salt : UInt64) {Q : Option (Word k × Word v) → γ → _ → Prop}
    (hr : W.ready r s)
    (hone : (c.candidates key).secondary = (c.candidates key).primary → ∀ r₁ s₁, W.turn r s r₁ s₁ →
      Q (c.picked salt (c.named key
        ((s.bucket (c.candidates key).primary).slots.liveMask c.reserved) 0) s₁) r₁ s₁)
    (htwo : (c.candidates key).secondary ≠ (c.candidates key).primary → ∀ r₁ s₁, W.turn r s r₁ s₁ →
      W.ready r₁ s₁ ∧ ∀ r₂ s₂, W.turn r₁ s₁ r₂ s₂ → Q (c.picked salt (c.named key
        ((s.bucket (c.candidates key).primary).slots.liveMask c.reserved)
        ((s₁.bucket (c.candidates key).secondary).slots.liveMask c.reserved)) s₂) r₂ s₂) :
    (c.pick (v := v) g key salt).Ensures W E r s Q := by
  have hnamed : ∀ primary secondary : Mask, (∀ n ∈ primary.indices, n < c.shape.len.slots) →
      (∀ n ∈ secondary.indices, n < c.shape.len.slots) →
      ∀ x ∈ c.named key primary secondary, x.2 < c.shape.len.slots := by
    intro primary secondary hp hs x hx
    rcases List.mem_append.1 hx with hx | hx
    · obtain ⟨n, hn, rfl⟩ := List.mem_map.1 hx
      exact hp n hn
    · obtain ⟨n, hn, rfl⟩ := List.mem_map.1 hx
      exact hs n hn
  rw [pick, Prog.ensures_bind]
  refine pollLive_ensures g.toLanes hr fun r₁ s₁ ht => ?_
  have hp := fun n => (s.bucket (c.candidates key).primary).slots.lt_of_mem_liveMask (n := n)
    (r := c.reserved)
  split
  · rename_i hsame
    refine (picked_yields g.toLanes salt (hnamed _ 0 hp fun n hn => ?_)).ensures
      (hone hsame r₁ s₁ ht)
    rw [Mask.indices_zero] at hn
    exact absurd hn List.not_mem_nil
  · rename_i hother
    obtain ⟨hr₁, hQ⟩ := htwo hother r₁ s₁ ht
    rw [Prog.ensures_bind]
    refine pollLive_ensures g.toLanes hr₁ fun r₂ s₂ ht₂ => ?_
    refine (picked_yields g.toLanes salt (hnamed _ _ hp fun n => ?_)).ensures (hQ r₂ s₂ ht₂)
    exact Slots.lt_of_mem_liveMask _

theorem pick_stable (g : Group) (key : Word k) (salt : UInt64) (hW : W.Stable I) (h : I r s) :
    (c.pick (v := v) g key salt).Ensures W E r s fun _ => I := by
  refine pick_ensures g salt (hW.ready h) (fun _ _ _ ht => hW.turn h ht) fun _ _ _ ht => ?_
  have h₁ := hW.turn h ht
  exact ⟨hW.ready h₁, fun _ _ ht => hW.turn h₁ ht⟩

/-! ### By the smallest hash -/

variable (c) in
/-- The smaller one of what was found and another pair. -/
def smaller (best : Option (UInt64 × Word k × Word v)) (e : Word k × Word v) :
    Option (UInt64 × Word k × Word v) :=
  lesser best (Word.hash e.1 c.seed, e)

/-- In one bucket a vote is taken and the slots are read after it. -/
theorem smallestIn_ensures (g : Lanes) (best : Option (UInt64 × Word k × Word v))
    {Q : Option (UInt64 × Word k × Word v) → γ → Cells k v c.shape → Prop} (hr : W.ready r s)
    (hQ : ∀ r' s', W.turn r s r' s' → Q (((s.bucket b).slots.liveMask c.reserved).indices.foldl
      (fun best n => ((s'.bucket b).slots.pairAt c.reserved n).elim best (c.smaller best)) best)
      r' s') :
    Prog.Ensures W E (do
      let live ← c.atSlots b (Slots.pollLive (v := v) g c.reserved)
      live.indices.foldlM (fun smallest index => do
        match ← c.atSlots b (Slots.readPair g c.reserved index) with
        | none => return smallest
        | some (key, value) => return lesser smallest (Word.hash key c.seed, key, value)) best)
      r s Q := by
  rw [Prog.ensures_bind]
  refine pollLive_ensures g hr fun r' s' ht => ?_
  refine Prog.Yields.ensures (Prog.yields_foldlM fun n hn best => ?_) (hQ r' s' ht)
  refine Prog.yields_bind (readPair_yields g (Slots.lt_of_mem_liveMask _ hn)) ?_
  cases (s'.bucket b).slots.pairAt c.reserved n with
  | none => exact Prog.yields_pure _ s'
  | some e => exact Prog.yields_pure _ s'

theorem pickSmaller_stable (g : Group) (key : Word k) (hW : W.Stable I) (h : I r s) :
    (c.pickSmaller (v := v) g key).Ensures W E r s fun _ => I := by
  rw [pickSmaller, Prog.ensures_bind]
  refine Prog.ensures_foldlM (fun _ _ => I) ?_ (fun _ _ _ h => h) _ h
  intro b rest best r₁ s₁ h₁
  exact smallestIn_ensures g.toLanes best (hW.ready h₁) fun _ _ ht => hW.turn h₁ ht

end

end TwoChoice.Config
