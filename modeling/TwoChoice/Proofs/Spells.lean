import TwoChoice.Proofs.Alone

/-!
# What operations do whatever the table holds

Nothing is known here of the keys and tags of a table, nor of the keys that are asked for: the table
need not be sound, and the keys may be reserved. `Lasting W I`: a pause may come where `I` holds,
and neither a pause nor a change of a tag or a slot breaks it. The bodies of the operations keep
every such `I` and end without a halt (`storePasses_lasting`, `eraseBody_mild`,
`exchangeBody_lasting`): in a tame world, where a pause leaves the locks alone and others change the
table only so often, no store runs out of passes. Searches, updates in place and removals keep more
than that: what only a change breaks that empties a tag or brings a live key (`Mild W I`).

`W.Spell l r r'`: from `r` to `r'` every pause came while the locks were `l`. An operation on one
key makes one such spell (`Call.update_spell`), and an exchange has up to three phases
(`exchange_phases`). Every call leaves the locks as it found them, on every way out of it
(`Call.run_locks`).
-/

set_option autoImplicit false

namespace TwoChoice

variable {k v : Width} {c : Config k} {γ α : Type}

/-! ## Worlds -/

namespace World

/-- A pause leaves the locks alone, and the table is not changed more often than `left` says. -/
structure Tame (W : World γ (Cells k v c.shape)) (left : γ → Nat) : Prop where
  ready : ∀ r s, W.ready r s
  locks : ∀ {r s r' s'}, W.turn r s r' s' → s'.locks = s.locks
  spent : ∀ {r s r' s'}, W.turn r s r' s' → s' = s ∧ left r' ≤ left r ∨ left r' < left r

/-- A pause may come where `I` holds, and neither a pause nor a change of a tag or a slot breaks
it. -/
structure Lasting (W : World γ (Cells k v c.shape)) (I : γ → Cells k v c.shape → Prop) : Prop
    extends W.Stable I where
  putTag : ∀ {r s} (p : Place c.shape) (t : Tag), I r s → I r (s.putTag p t)
  putSlot : ∀ {r s} (p : Place c.shape) (x : Slot k v), I r s → I r (s.putSlot p x)

/-- A pause may come where `I` holds, and neither a pause breaks it nor another value in a slot. -/
structure Keyed (W : World γ (Cells k v c.shape)) (I : γ → Cells k v c.shape → Prop) : Prop
    extends W.Stable I where
  putSlot : ∀ {r s} (p : Place c.shape) {x : Slot k v}, x.key = s.key p → I r s → I r (s.putSlot p x)

/-- A pause may come where `I` holds, and neither a pause breaks it nor a change that empties no tag
and brings no live key to its slot. -/
structure Mild (W : World γ (Cells k v c.shape)) (I : γ → Cells k v c.shape → Prop) : Prop
    extends W.Stable I where
  putTag : ∀ {r s} (p : Place c.shape) {t : Tag}, t ≠ Tag.empty → I r s → I r (s.putTag p t)
  putSlot : ∀ {r s} (p : Place c.shape) {x : Slot k v}, x.key = s.key p ∨ ¬ c.Live x.key → I r s →
    I r (s.putSlot p x)

theorem Lasting.mild {W : World γ (Cells k v c.shape)} {I : γ → Cells k v c.shape → Prop}
    (h : W.Lasting I) : W.Mild I :=
  { h.toStable with
    putTag := fun p _ _ => h.putTag p _
    putSlot := fun p _ _ => h.putSlot p _ }

theorem Mild.keyed {W : World γ (Cells k v c.shape)} {I : γ → Cells k v c.shape → Prop}
    (h : W.Mild I) : W.Keyed I :=
  { h.toStable with putSlot := fun p _ hx => h.putSlot p (.inl hx) }

/-- Every pause from `r` on came while the locks were `l`. -/
inductive Spell (W : World γ (Cells k v c.shape)) (l : Locks c.shape.count) (r : γ) : γ → Prop
  | refl : Spell W l r r
  | tail {r' s r'' s''} (before : Spell W l r r') (locks : s.locks = l)
    (last : W.turn r' s r'' s'') : Spell W l r r''

/-- The phases of a program that needs one or two locks: a pause with the first one alone, a spell
with all of them, and a pause with the last one alone. -/
inductive Phases (W : World γ (Cells k v c.shape)) (l : Locks c.shape.count) (r r' : γ) :
    List Nat → Prop
  | one {b} (spell : Spell W (l.acquire b) r r') : Phases W l r r' [b]
  | two {b b' s₁ r₁ s₁' s₂ r₂ s₂'} (first : s₁.locks = l.acquire b) (taken : W.turn r s₁ r₁ s₁')
    (spell : Spell W ((l.acquire b).acquire b') r₁ r₂) (last : s₂.locks = l.acquire b')
    (released : W.turn r₂ s₂ r' s₂') : Phases W l r r' [b, b']

variable {W : World γ (Cells k v c.shape)} {left : γ → Nat} {l : Locks c.shape.count}
variable {r r' r'' : γ} {s s' : Cells k v c.shape}

theorem Tame.left_le (h : W.Tame left) (ht : W.turn r s r' s') : left r' ≤ left r := by
  rcases h.spent ht with ⟨-, hle⟩ | hlt
  · exact hle
  · exact Nat.le_of_lt hlt

theorem Tame.spent_turns (h : W.Tame left) (ht : W.Turns r s r' s') :
    s' = s ∧ left r' ≤ left r ∨ left r' < left r := by
  induction ht with
  | refl => exact .inl ⟨rfl, Nat.le_refl _⟩
  | tail _ last ih =>
    have hle := h.left_le last
    rcases ih with ⟨rfl, hle'⟩ | hlt
    · rcases h.spent last with ⟨rfl, -⟩ | hlt
      · exact .inl ⟨rfl, Nat.le_trans hle hle'⟩
      · exact .inr (Nat.lt_of_lt_of_le hlt hle')
    · exact .inr (Nat.lt_of_le_of_lt hle hlt)

/-- While the locks are `l`, the pauses make a spell. -/
theorem Tame.lasting_spell (h : W.Tame left) (l : Locks c.shape.count) (r₀ : γ) :
    W.Lasting fun r s => W.Spell l r₀ r ∧ s.locks = l where
  ready _ := h.ready _ _
  turn hI ht := ⟨.tail hI.1 hI.2 ht, (h.locks ht).trans hI.2⟩
  putTag _ _ hI := hI
  putSlot _ _ hI := hI

/-- A pause may come at any time, and it leaves the locks alone. -/
theorem Tame.stable_locks (h : W.Tame left) (l : Locks c.shape.count) :
    W.Stable fun _ s => s.locks = l :=
  ⟨fun _ => h.ready _ _, fun hI ht => (h.locks ht).trans hI⟩

theorem tame_alone : (World.alone (Cells k v c.shape)).Tame fun _ => 0 where
  ready _ _ := trivial
  locks h := congrArg Cells.locks h
  spent h := .inl ⟨h, Nat.le_refl _⟩

end World

/-! ## Slots -/

namespace Slots

variable {L : BucketLen} (t : Slots k v L) (i : Fin L.slots) {key : Word k}

theorem exchangeKey_yields_false {current : Word k} (new : Word k)
    (h : (t.get i).key ≠ current) : (exchangeKey i.val current new).Yields t false t := by
  refine Prog.yields_bind (keyAt_yields t i) ?_
  rw [Word.compareExchange, if_neg h]
  exact Prog.yields_pure _ _

/-- An attempt on a slot changes this slot, or it fails and changes nothing. The key in the slot
stays or gives way to one that `mark` allows. -/
def Attempts (mark : Word k → Prop) (act : Nat → Prog (Slots k v L) Bool) : Prop :=
  ∀ (t : Slots k v L) (i : Fin L.slots),
    (∃ x, (x.key = (t.get i).key ∨ mark x.key) ∧ (act i.val).Yields t true (t.put i x)) ∨
      (act i.val).Yields t false t

theorem attempts_overwrite (mark : Word k → Prop) (key : Word k) (value : Word v) :
    Attempts (L := L) mark fun index => do
      if ← exchangeKey index key key then
        setValue index value
        return true
      else
        return false := by
  intro t i
  by_cases h : (t.get i).key = key
  · refine .inl ⟨⟨key, value⟩, .inl h.symm,
      Prog.yields_bind (exchangeKey_yields_true t i key h) ?_⟩
    refine Prog.yields_bind (setValue_yields _ i value) ?_
    rw [put_put, get_put_self]
    exact Prog.yields_pure _ _
  · exact .inr (Prog.yields_bind (exchangeKey_yields_false t i key h) (Prog.yields_pure _ _))

theorem attempts_rekey (mark : Word k → Prop) (key : Word k) {new : Word k} (hnew : mark new)
    (accept : Word v → Bool) :
    Attempts (L := L) mark fun index => do
      if accept (← valueAt index) then exchangeKey index key new else return false := by
  intro t i
  by_cases hacc : accept (t.get i).value = true
  · by_cases h : (t.get i).key = key
    · refine .inl ⟨⟨new, (t.get i).value⟩, .inr hnew, Prog.yields_bind (valueAt_yields t i) ?_⟩
      rw [if_pos hacc]
      exact exchangeKey_yields_true t i new h
    · refine .inr (Prog.yields_bind (valueAt_yields t i) ?_)
      rw [if_pos hacc]
      exact exchangeKey_yields_false t i new h
  · refine .inr (Prog.yields_bind (valueAt_yields t i) ?_)
    rw [if_neg hacc]
    exact Prog.yields_pure _ _

end Slots

/-! ## Bodies of operations -/

namespace Config

open World

variable {W : World γ (Cells k v c.shape)} {E : Halt → γ → Cells k v c.shape → Prop}
variable {I : γ → Cells k v c.shape → Prop} {left : γ → Nat} {r : γ} {s : Cells k v c.shape}
variable {b : Fin c.shape.count} {key oldKey : Word k} {value oldValue : Word v}

section
variable (g : Group)

/-- An attempt on the candidates that hold the key succeeds, or nothing is changed. -/
theorem actOnKey_attempts {mark : Word k → Prop} {act : Nat → Prog (Slots k v c.shape.len) Bool}
    (hact : Slots.Attempts mark act) (candidates : Mask)
    {Q : Option Nat → γ → Cells k v c.shape → Prop} (hr : W.ready r s)
    (hsome : ∀ (i : Fin c.shape.len.slots) (x : Slot k v) r₁ s₁, W.turn r s r₁ s₁ →
      x.key = s₁.key ⟨b, i⟩ ∨ mark x.key → W.ready r₁ (s₁.putSlot ⟨b, i⟩ x) ∧
        ∀ r' s', W.turn r₁ (s₁.putSlot ⟨b, i⟩ x) r' s' → Q (some i.val) r' s')
    (hnone : ∀ r' s', W.turn r s r' s' → Q none r' s') :
    (c.atSlots b (Slots.actOnKey g.toLanes key candidates act)).Ensures W E r s Q := by
  rw [atSlots, Slots.actOnKey, Prog.zoom_bind, Prog.ensures_bind]
  refine pollKey_ensures g.toLanes key candidates hr fun r₁ s₁ ht => ?_
  rw [Prog.zoom_findSomeM?]
  refine Prog.ensures_findSomeM? (fun rest r' s' => (r' = r₁ ∧ s' = s₁) ∧
    ∀ n ∈ rest, n < c.shape.len.slots) ?_ ?_ _ ⟨⟨rfl, rfl⟩, fun n hn => ?_⟩
  · intro n rest r' s' hinv
    obtain ⟨⟨rfl, rfl⟩, hall⟩ := hinv
    have hn := hall n (List.mem_cons_self ..)
    rw [Prog.zoom_bind]
    rcases hact (s'.bucket b).slots ⟨n, hn⟩ with ⟨x, hkey, hy⟩ | hy
    · refine (atSlots_put (g.toLanes.yields_elect (g.toLanes.owner_lt n) hy)).ensures_bind ?_
      rw [if_pos rfl, Prog.zoom_bind, Prog.zoom_pause, Prog.ensures_bind, Prog.ensures_pause]
      obtain ⟨hr', hQ⟩ := hsome ⟨n, hn⟩ x r' s' ht hkey
      exact ⟨hr', hQ⟩
    · refine (atSlots_same (g.toLanes.yields_elect (g.toLanes.owner_lt n) hy)).ensures_bind ?_
      exact ⟨⟨rfl, rfl⟩, fun m hm => hall m (List.mem_cons_of_mem _ hm)⟩
  · rintro r' s' ⟨⟨rfl, rfl⟩, -⟩
    exact hnone _ _ ht
  · obtain ⟨i, rfl, -, -⟩ := (Slots.mem_hits _ key _).1 hn
    exact i.isLt

/-- A key is taken out of a bucket and the rest is done, or nothing is changed. -/
theorem takeFrom_attempts (hW : W.Stable I) {mark : Word k} (accept : Word v → Bool)
    {after : Fin c.shape.count → Nat → Prog (Cells k v c.shape) Unit}
    {Q : Option Nat → γ → Cells k v c.shape → Prop}
    (hafter : ∀ (i : Fin c.shape.len.slots) (x : Slot k v) r s, I r s →
      x.key = s.key ⟨b, i⟩ ∨ x.key = mark → W.ready r (s.putSlot ⟨b, i⟩ x) ∧
        ∀ r' s', W.turn r (s.putSlot ⟨b, i⟩ x) r' s' →
          (after b i.val).Ensures W E r' s' fun _ => Q (some i.val))
    (hnone : ∀ r s, I r s → Q none r s) (h : I r s) :
    (takeFrom g key mark accept after b).Ensures W E r s Q := by
  rw [takeFrom, Prog.ensures_bind]
  refine scan_ensures g.toLanes _ (hW.ready h) fun r₁ s₁ ht => ?_
  have h₁ := hW.turn h ht
  split
  · exact hnone r₁ s₁ h₁
  rw [Prog.ensures_bind]
  refine actOnKey_attempts g (Slots.attempts_rekey (fun x => x = mark) key rfl accept) _
    (hW.ready h₁) (fun i x r₂ s₂ h₂ hx => ?_) fun r₂ s₂ ht => hnone r₂ s₂ (hW.turn h₁ ht)
  obtain ⟨hr, hrest⟩ := hafter i x r₂ s₂ (hW.turn h₁ h₂) hx
  refine ⟨hr, fun r' s' ht' => ?_⟩
  rw [Prog.ensures_bind]
  exact hrest r' s' ht'

/-- A key is found, or nothing is changed. -/
theorem lookFor_keyed (hW : W.Keyed I) (replace : Bool) (census : Census)
    {Q : Bool → γ → Cells k v c.shape → Prop} (hfound : ∀ r' s', I r' s' → Q true r' s')
    (hmissing : ∀ r' s', W.Turns r s r' s' → Q false r' s') (h : I r s) :
    (c.lookFor g b key value census replace).Ensures W E r s Q := by
  rw [lookFor]
  split
  · exact hmissing r s .refl
  rw [Prog.ensures_bind]
  cases replace with
  | true =>
    refine actOnKey_attempts g (Slots.attempts_overwrite (fun _ => False) key value) _ (hW.ready h)
      (fun i x r₁ s₁ h₁ hx => ?_) fun r' s' ht => hmissing r' s' (.single ht)
    have hput := hW.putSlot ⟨b, i⟩ (hx.resolve_right id) (hW.turn h h₁)
    exact ⟨hW.ready hput, fun r' s' ht => hfound r' s' (hW.turn hput ht)⟩
  | false =>
    simp only [Bool.false_eq_true, if_false, atSlots, Slots.findIndex?, Prog.zoom_bind]
    rw [Prog.ensures_bind]
    refine pollKey_ensures g.toLanes key _ (hW.ready h) fun r' s' ht => ?_
    rw [Prog.zoom_pure, Prog.ensures_pure, Prog.ensures_pure]
    cases ((s.bucket b).slots.hits key census.matching).indices.head? with
    | some n => exact hfound r' s' (hW.turn h ht)
    | none => exact hmissing r' s' (.single ht)

/-- A pass finds its key, or it scans the buckets of the key, changes nothing, and comes to place
it. -/
theorem storePass_keyed (hW : W.Keyed I) (replace : Bool)
    {Q : Option Stored → γ → Cells k v c.shape → Prop}
    (hfound : ∀ r' s', I r' s' → Q (some .present) r' s')
    (hone : ∀ r' s', W.Turns r s r' s' →
      (c.placeNew g key value ((s.bucket (c.candidates key).primary).tags.census (Tag.ofKey key))
        {}).Ensures W E r' s' Q)
    (htwo : ∀ r₁ s₁ r' s', W.Turns r s r₁ s₁ → W.Turns r₁ s₁ r' s' →
      (c.placeNew g key value ((s.bucket (c.candidates key).primary).tags.census (Tag.ofKey key))
        ((s₁.bucket (c.candidates key).secondary).tags.census (Tag.ofKey key))).Ensures W E r' s' Q)
    (h : I r s) : (c.storePass g key value replace).Ensures W E r s Q := by
  rw [storePass, Prog.ensures_bind]
  refine scan_ensures g.toLanes _ (hW.ready h) fun r₁ s₁ h₁ => ?_
  rw [Prog.ensures_bind]
  refine lookFor_keyed g hW replace _ (fun r' s' h' => hfound r' s' h')
    (fun r₂ s₂ h₂ => ?_) (hW.turn h h₁)
  have h₁₂ := (Turns.single h₁).trans h₂
  have hI₂ := hW.turns h h₁₂
  rw [if_neg (by simp)]
  split
  · exact hone r₂ s₂ h₁₂
  rw [Prog.ensures_bind]
  refine scan_ensures g.toLanes _ (hW.ready hI₂) fun r₃ s₃ h₃ => ?_
  rw [Prog.ensures_bind]
  refine lookFor_keyed g hW replace _ (fun r' s' h' => hfound r' s' h')
    (fun r₄ s₄ h₄ => ?_) (hW.turn hI₂ h₃)
  rw [if_neg (by simp)]
  exact htwo r₂ s₂ r₄ s₄ h₁₂ ((Turns.single h₃).trans h₄)

end

section
variable (hW : W.Mild I) (g : Group)
include hW

theorem retag_mild (i : Fin c.shape.len.slots) {t : Tag} (ht : t ≠ Tag.empty) (h : I r s) :
    (c.atTags b (Tags.retag g.toLanes i.val t)).Ensures W E r s fun _ => I :=
  have h' := hW.putTag ⟨b, i⟩ ht h
  retag_ensures g.toLanes t (hW.ready h') fun _ _ ht => hW.turn h' ht

theorem takeFrom_mild {mark : Word k} (hmark : ¬ c.Live mark) (accept : Word v → Bool)
    {after : Fin c.shape.count → Nat → Prog (Cells k v c.shape) Unit}
    (hafter : ∀ (i : Fin c.shape.len.slots) r s, I r s →
      (after b i.val).Ensures W E r s fun _ => I) (h : I r s) :
    (takeFrom g key mark accept after b).Ensures W E r s fun _ => I := by
  refine takeFrom_attempts g hW.toStable accept (fun i x r s hs hx => ?_) (fun _ _ h => h) h
  have hput := hW.putSlot ⟨b, i⟩ (hx.imp_right fun he => he ▸ hmark) hs
  exact ⟨hW.ready hput, fun r' s' ht => hafter i r' s' (hW.turn hput ht)⟩

theorem eraseBody_mild (wanted : Option (Word v)) (h : I r s) :
    ((c.candidates key).distinct.findSomeM? (takeFrom g key c.reserved.tombstone (accepts wanted)
      fun b index => c.atTags b (Tags.bury g.toLanes index)) >>= fun erased =>
        pure erased.isSome).Ensures W E r s fun _ => I := by
  rw [Prog.ensures_bind]
  refine Prog.ensures_findSomeM? (fun _ => I) (fun b _ r s h => ?_) (fun _ _ h => h) _ h
  refine (takeFrom_mild hW g not_live_tombstone _
    (fun i r s h => retag_mild hW g i Tag.empty_ne_tombstone.symm h) h).mono
    fun taken r' s' h' => ?_
  cases taken <;> exact h'

omit hW in
/-- A store keeps what its passes keep, also if it runs out of them. -/
theorem storePasses_keeps {replace : Bool} (hstarved : ∀ r s, I r s → E .starved r s)
    (hpass : ∀ r s, I r s → (c.storePass g key value replace).Ensures W E r s fun _ => I) :
    ∀ (n : Nat) {r : γ} {s : Cells k v c.shape},
      I r s → (c.storePasses g key value replace n).Ensures W E r s fun _ => I
  | 0, r, s, h => hstarved r s h
  | n + 1, r, s, h => by
    rw [storePasses, Prog.ensures_bind]
    refine (hpass r s h).mono fun stored r' s' h' => ?_
    cases stored with
    | some stored => exact h'
    | none => exact storePasses_keeps hstarved hpass n h'

end

/-! ### Exchanges -/

section
variable (hW : W.Lasting I) (g : Group)
include hW

theorem publish_lasting (i : Fin c.shape.len.slots) (h : I r s) :
    (c.atSlots b (Slots.publish g.toLanes c.reserved i.val key value)).Ensures W E r s fun _ => I :=
  have h' := hW.putSlot ⟨b, i⟩ ⟨key, value⟩ h
  publish_ensures g.toLanes key value (hW.ready h') fun _ _ ht => hW.turn h' ht

theorem handOver_lasting (h : I r s) :
    (c.handOver g key value oldKey oldValue).Ensures W E r s fun _ => I := by
  rw [handOver_eq, Prog.ensures_bind]
  refine Prog.ensures_findSomeM? (fun _ => I) (fun b _ r s h => ?_) (fun _ _ h => h) _ h
  refine (takeFrom_mild hW.mild g not_live_holding _ (fun i r s h => ?_) h).mono
    fun taken r' s' h' => ?_
  · rw [Prog.ensures_bind]
    exact (retag_mild hW.mild g i (Tag.ofKey_ne_empty _) h).mono
      fun _ _ _ h' => publish_lasting hW g i h'
  · cases taken <;> exact h'

theorem exchangeBody_lasting (update : Bool) (h : I r s) :
    (do
      if ← (c.candidates key).distinct.anyM fun b => do
          let census ← c.atTags b (Tags.scan g.toLanes (Tag.ofKey key))
          c.lookFor g b key value census update then
        return update
      else
        c.handOver g key value oldKey oldValue : Prog (Cells k v c.shape) Bool).Ensures
      W E r s fun _ => I := by
  rw [Prog.ensures_bind]
  refine (Prog.ensures_anyM (fun _ => I) (Q := fun _ => I) (fun b _ r s h => ?_)
    (fun _ _ h => h) _ h).mono fun found r' s' h' => ?_
  · rw [Prog.ensures_bind]
    refine scan_ensures g.toLanes _ (hW.ready h) fun r₁ s₁ ht => ?_
    have h₁ := hW.turn h ht
    exact lookFor_keyed g hW.mild.keyed update _ (fun _ _ h' => h')
      (fun _ _ ht' => hW.turns h₁ ht') h₁
  · cases found with
    | true => exact h'
    | false => exact handOver_lasting hW g h'

/-! ### Stores -/

/-- A pass ends with an answer, or others changed the table between two instants of it. -/
theorem storePass_changed (replace : Bool) (changed : γ → Prop)
    (hchanged : ∀ {r₁ s₁ r₂ s₂}, W.Turns r s r₁ s₁ → W.Turns r₁ s₁ r₂ s₂ → s₂ = s₁ ∨ changed r₂)
    (h : I r s) :
    (c.storePass g key value replace).Ensures W E r s fun stored r' s' =>
      I r' s' ∧ (stored = none → changed r') := by
  have hnew : ∀ {primary secondary : Census} {r' s'}, I r' s' →
      Snapshot key s' (c.candidates key).primary (changed r') primary →
      Snapshot key s' (c.candidates key).secondary (changed r') secondary →
      (c.placeNew g key value primary secondary).Ensures W E r' s' fun stored r' s' =>
        I r' s' ∧ (stored = none → changed r') := by
    intro primary secondary r' s' h' hp hsec
    refine placeNew_ensures g hp hsec (fun _ _ => ⟨h', fun he => by cases he⟩) (fun p _ _ => ?_)
      fun hlt => ⟨h', fun _ => hlt⟩
    have hfill := hW.putSlot p ⟨key, value⟩ (hW.putTag p (Tag.ofKey key) h')
    exact ⟨hW.ready hfill, fun _ _ ht => ⟨hW.turn hfill ht, fun he => by cases he⟩⟩
  refine storePass_keyed g hW.mild.keyed replace (fun r' s' h' => ⟨h', fun he => by cases he⟩)
    (fun r' s' ht => ?_) (fun r₁ s₁ r' s' ht ht' => ?_) h
  · exact hnew (hW.turns h ht) (.inr ⟨s, rfl, hchanged .refl ht⟩) (.inl rfl)
  · exact hnew (hW.turns h (ht.trans ht')) (.inr ⟨s, rfl, hchanged .refl (ht.trans ht')⟩)
      (.inr ⟨s₁, rfl, hchanged ht ht'⟩)

/-- A store keeps what lasts, also if it runs out of passes. -/
theorem storePasses_starving (replace : Bool) (hstarved : ∀ r s, I r s → E .starved r s) (n : Nat)
    (h : I r s) : (c.storePasses g key value replace n).Ensures W E r s fun _ => I :=
  storePasses_keeps g hstarved (fun _ _ h => (storePass_changed hW g replace (fun _ => True)
    (fun _ _ => .inr trivial) h).mono fun _ _ _ h' => h'.1) n h

variable (hT : W.Tame left)
include hT

/-- A pass ends with an answer, or others changed the table. -/
theorem storePass_lasting (replace : Bool) (h : I r s) :
    (c.storePass g key value replace).Ensures W E r s fun stored r' s' =>
      I r' s' ∧ (stored = none → left r' < left r) := by
  refine storePass_changed hW g replace (fun r' => left r' < left r) (fun h₁ h₂ => ?_) h
  have hle : left _ ≤ left r := (hT.spent_turns h₁).elim And.right Nat.le_of_lt
  exact (hT.spent_turns h₂).imp And.left fun hlt => Nat.lt_of_lt_of_le hlt hle

/-- **A store does not run out of passes**: each of them that does not end it follows a change that
others made. -/
theorem storePasses_lasting (replace : Bool) : ∀ (n : Nat) {r : γ} {s : Cells k v c.shape},
    I r s → left r < n → (c.storePasses g key value replace n).Ensures W E r s fun _ => I
  | 0, _, _, _, hlt => absurd hlt (Nat.not_lt_zero _)
  | n + 1, r, s, h, hlt => by
    rw [storePasses, Prog.ensures_bind]
    refine (storePass_lasting hW g hT replace h).mono fun stored r' s' h' => ?_
    cases stored with
    | some stored => exact h'.1
    | none =>
      have hlt' : left r' < n := Nat.lt_of_lt_of_le (h'.2 rfl) (Nat.le_of_lt_succ hlt)
      exact storePasses_lasting replace n h'.1 hlt'

end

/-! ## Locks -/

/-- What is done to the locks keeps what does not depend on them. -/
theorem locks_keeps (hW : W.Stable I) (hlocks : ∀ {r s} l, I r s → I r (s.setLocks l))
    (p : Prog (Locks c.shape.count) α) (h : I r s) :
    (p.zoom Cells.locksLens).Ensures W (fun _ => I) r s fun _ => I := by
  induction p generalizing r s with
  | done | halt => exact h
  | read q ih => exact ih _ h
  | write f p ih => exact ih (hlocks (f s.locks) h)
  | emit e p ih => exact ih h
  | sync p ih => exact ⟨hW.ready h, fun _ _ ht => ih (hW.turn h ht)⟩

theorem withLocks_keeps (hW : W.Stable I) (hlocks : ∀ {r s} l, I r s → I r (s.setLocks l))
    (g : Lanes) (bs : List Nat) {body : Prog (Cells k v c.shape) α}
    (hbody : ∀ r s, I r s → body.Ensures W (fun _ => I) r s fun _ => I) (h : I r s) :
    (c.withLocks g bs body).Ensures W (fun _ => I) r s fun _ => I := by
  simp only [withLocks, Locks.withLocks]
  rw [Prog.ensures_bind]
  refine (Prog.ensures_forM_inv (fun b _ _ h => locks_keeps hW hlocks _ h) bs h).mono
    fun _ r₁ s₁ h₁ => ?_
  rw [Prog.ensures_bind]
  refine ((hbody r₁ s₁ h₁).attempt (Q := fun _ => I) (fun _ _ _ hf => hf)
    (fun _ _ _ _ hf => hf)).mono fun result r₂ s₂ h₂ => ?_
  rw [Prog.ensures_bind]
  refine (Prog.ensures_forM_inv (fun b _ _ h => locks_keeps hW hlocks _ h) bs h₂).mono
    fun _ r₃ s₃ h₃ => ?_
  cases result <;> exact h₃

/-- How an operation may come to a halt that found the locks `l` and was to hold the locks `held`:
by a fault after all locks were released, or at once because a lock is taken. -/
def Halted (W : World γ (Cells k v c.shape)) (l held : Locks c.shape.count) (r₀ : γ) :
    Halt → γ → Cells k v c.shape → Prop
  | .fault _, r, s => W.Spell held r₀ r ∧ s.locks = l
  | .waiting b, _, s => s.locks = l ∧ l.isLocked b = true
  | .starved, _, _ => False

section
variable (hT : W.Tame left) {l : Locks c.shape.count}
include hT

section
variable (g : Lanes) {body : Prog (Cells k v c.shape) α} (hs : s.locks = l)
variable (hbody : ∀ {I : γ → Cells k v c.shape → Prop}, W.Lasting I → ∀ {r s}, I r s →
  body.Ensures W Never r s fun _ => I)
include hs hbody

theorem oneLock_spell {b : Nat} (hb : b < c.shape.count) (hfree : l.isLocked b = false) :
    (c.withLocks g [b] body).Ensures W E r s
      fun _ r' s' => W.Spell (l.acquire b) r r' ∧ s'.locks = l := by
  subst hs
  have hcovers := Locks.covers_of_lt hb
  have hlasting := hT.lasting_spell (s.locks.acquire b) r
  refine withLocks_one g hb hfree (hT.ready _ _) fun r₁ s₁ h₁ => ?_
  have hbegin := hlasting.turn (r := r) ⟨.refl, rfl⟩ h₁
  refine (hbody hlasting hbegin).mono fun a r₂ s₂ h₂ => ⟨hT.ready _ _, fun r₃ s₃ h₃ => ?_⟩
  obtain ⟨hspell, hl₃⟩ := hlasting.turn h₂ h₃
  refine ⟨?_, hspell, ?_⟩
  · rw [hl₃, Locks.isLocked_acquire _ hcovers]
    simp
  · rw [Cells.locks_setLocks, hl₃]
    exact Locks.release_acquire hcovers hfree

theorem twoLocks_phases {a b : Nat} (ha : a < c.shape.count) (hb : b < c.shape.count) (hne : a ≠ b)
    (hfree : l.isLocked a = false) (hfree' : l.isLocked b = false) :
    (c.withLocks g [a, b] body).Ensures W E r s
      fun _ r' s' => W.Phases l r r' [a, b] ∧ s'.locks = l := by
  have hready := hT.ready
  refine withLocks_both g ha hb hne hT.locks hs hfree hfree' (hready _ _)
    fun r₁ s₁ h₁ => ⟨hready _ _, fun r₂ s₂ h₂ => ?_⟩
  have hlasting := hT.lasting_spell ((l.acquire a).acquire b) r₁
  refine (hbody hlasting (hlasting.turn ⟨.refl, rfl⟩ h₂)).mono fun _ r₃ s₃ hend => ?_
  obtain ⟨hspell, hl₃⟩ := hend
  refine ⟨hl₃, hready _ _, fun r₄ s₄ h₄ => ⟨hready _ _, fun r₅ s₅ h₅ => ⟨?_, rfl⟩⟩⟩
  exact .two rfl h₁ (hspell.tail hl₃ h₄) rfl h₅

theorem bothLocks_phases {a b : Nat} (ha : a < c.shape.count) (hb : b < c.shape.count)
    (hfree : l.isLocked a = false) (hfree' : l.isLocked b = false) :
    (c.withLocks g (Locks.order a b) body).Ensures W E r s
      fun _ r' s' => W.Phases l r r' (Locks.order a b) ∧ s'.locks = l := by
  rw [Locks.order]
  split
  · exact (oneLock_spell hT g hs hbody ha hfree).mono fun _ _ _ h => ⟨.one h.1, h.2⟩
  · rename_i hne
    split
    · exact twoLocks_phases hT g hs hbody ha hb hne hfree hfree'
    · exact twoLocks_phases hT g hs hbody hb ha (Ne.symm hne) hfree' hfree

/-- An operation that takes the lock of its key, if any, makes one spell. -/
theorem guarded_spell {key : Word k} {locked : Bool}
    (hwait : ∀ b, l.isLocked b = true → E (.waiting b) r s) :
    (c.withLocks g (if locked then [(c.candidates key).primary.val] else []) body).Ensures W E r s
      fun _ r' s' => W.Spell (c.hold key locked l) r r' ∧ s'.locks = l := by
  cases locked with
  | false => exact withLocks_nil g (hbody (hT.lasting_spell l r) ⟨.refl, hs⟩)
  | true =>
    have hb := (c.candidates key).primary.isLt
    cases hbusy : l.isLocked (c.candidates key).primary with
    | true => exact withLocks_waits g hb (hs ▸ hbusy) (hwait _ hbusy)
    | false => exact oneLock_spell hT g hs hbody hb hbusy

end

variable (g : Group) (hpasses : ∀ r, left r < g.passes)
include hpasses

/-- **A store makes one spell.** It comes to a halt only at once, if its key is reserved or if the
lock of its key is taken. -/
theorem store_spell (key : Word k) (value : Word v) (replace locked : Bool) (hs : s.locks = l)
    (hwait : ∀ b, l.isLocked b = true → E (.waiting b) r s)
    (hfault : c.reserved.isReserved key = true → E (.fault (.reservedKey key.toNat)) r s) :
    (c.store g key value replace locked).Ensures W E r s
      fun _ r' s' => W.Spell (c.hold key locked l) r r' ∧ s'.locks = l := by
  rw [store, Prog.require]
  split
  · exact guarded_spell hT g.toLanes hs
      (fun hI _ _ h => storePasses_lasting hI g hT replace _ h (hpasses _)) hwait
  · rename_i hreserved
    exact hfault (Bool.eq_true_of_not_eq_false hreserved)

theorem insertNew_spell (key : Word k) (value : Word v) (hs : s.locks = l)
    (hwait : ∀ b, l.isLocked b = true → E (.waiting b) r s) :
    (c.insertNew g key value).Ensures W E r s
      fun _ r' s' => W.Spell (c.hold key true l) r r' ∧ s'.locks = l := by
  rw [insertNew]
  split
  · exact ⟨.refl, hs⟩
  · rename_i hlive
    rw [Prog.ensures_bind]
    refine (store_spell hT g hpasses key value false true hs hwait
      fun hreserved => absurd hreserved hlive).mono fun stored r' s' h => ?_
    cases stored <;> exact h

omit hpasses in
theorem erase_spell (key : Word k) (wanted : Option (Word v)) (locked : Bool) (hs : s.locks = l)
    (hwait : ∀ b, l.isLocked b = true → E (.waiting b) r s) :
    (c.erase g key wanted locked).Ensures W E r s
      fun _ r' s' => W.Spell (c.hold key locked l) r r' ∧ s'.locks = l := by
  rw [erase_eq]
  exact guarded_spell hT g.toLanes hs (fun hI _ _ h => eraseBody_mild hI.mild g wanted h) hwait

omit hpasses in
/-- **The phases of an exchange.** A reserved key is refused before any lock is taken. -/
theorem exchange_phases (key : Word k) (value : Word v) (oldKey : Word k) (oldValue : Word v)
    (update : Bool) (hs : s.locks = l)
    (hfree : l.isLocked (c.candidates key).primary = false)
    (hfree' : l.isLocked (c.candidates oldKey).primary = false) :
    (c.exchange g key value oldKey oldValue update).Ensures W
      (fun h r' s' => h = .fault (.reservedKey key.toNat) ∧ c.reserved.isReserved key = true ∧
        r' = r ∧ s' = s) r s
      fun _ r' s' => c.reserved.isReserved key = false ∧ W.Phases l r r'
        (Locks.order (c.candidates key).primary.val (c.candidates oldKey).primary.val) ∧
        s'.locks = l := by
  rw [exchange]
  by_cases hlive : c.reserved.isReserved key = false
  · refine (Prog.yields_require hlive _ s).ensures_bind ?_
    refine (bothLocks_phases hT g.toLanes hs (fun hI _ _ h => exchangeBody_lasting hI g update h)
      (c.candidates key).primary.isLt (c.candidates oldKey).primary.isLt hfree hfree').mono ?_
    exact fun _ _ _ h => ⟨hlive, h⟩
  · rw [Prog.require, if_neg hlive, Prog.ensures_bind]
    rw [Bool.not_eq_false] at hlive
    exact ⟨rfl, hlive, rfl, rfl⟩

end

end Config

/-! ## Calls -/

namespace Call

open Config

variable {W : World γ (Cells k v c.shape)} {left : γ → Nat} {l : Locks c.shape.count} {g : Group}
variable {r : γ} {s : Cells k v c.shape} {call : Call k v}

/-- How a call may come to a halt: the locks are as it found them, and it waits only for a lock that
was taken. -/
def Leaves (l : Locks c.shape.count) : Halt → γ → Cells k v c.shape → Prop
  | .fault _, _, s => s.locks = l
  | .waiting b, _, s => s.locks = l ∧ l.isLocked b = true
  | .starved, _, _ => False

section
variable (hT : W.Tame left) (hpasses : ∀ r, left r < g.passes)
include hT hpasses

/-- **A call that writes one key** makes one spell, with the lock of its key if it takes it. -/
theorem update_runs {E : Halt → γ → Cells k v c.shape → Prop} {key : Word k}
    (hcall : call.Updates key) (hs : s.locks = l)
    (hwait : ∀ b, l.isLocked b = true → E (.waiting b) r s)
    (hfault : ∀ x ∈ call.stores, c.reserved.isReserved x.1 = true →
      E (.fault (.reservedKey x.1.toNat)) r s) :
    (call.run c g).Ensures W E r s
      fun _ r' s' => W.Spell (c.hold key (!call.unlocked) l) r r' ∧ s'.locks = l := by
  cases call with
  | upsert key' value locked =>
    obtain rfl : key' = key := hcall
    rw [unlocked, Bool.not_not]
    exact Prog.ensures_map.2 (Prog.ensures_bind.2 (store_spell hT g hpasses key' value true locked
      hs hwait (hfault _ (List.mem_singleton_self _))))
  | insertNew key' value =>
    obtain rfl : key' = key := hcall
    exact Prog.ensures_map.2 (insertNew_spell hT g hpasses key' value hs hwait)
  | erase key' locked =>
    obtain rfl : key' = key := hcall
    rw [unlocked, Bool.not_not]
    exact Prog.ensures_map.2 (erase_spell hT g key' none locked hs hwait)
  | erasePair key' value =>
    obtain rfl : key' = key := hcall
    exact Prog.ensures_map.2 (erase_spell hT g key' (some value) true hs hwait)
  | _ => exact hcall.elim

theorem update_spell {key : Word k} (hcall : call.Updates key) (hs : s.locks = l) :
    (call.run c g).Ensures W (Halted W l (c.hold key (!call.unlocked) l) r) r s
      fun _ r' s' => W.Spell (c.hold key (!call.unlocked) l) r r' ∧ s'.locks = l :=
  update_runs hT hpasses hcall hs (fun _ hbusy => ⟨hs, hbusy⟩) fun _ _ _ => ⟨.refl, hs⟩

/-- **A call that is not a bulk call** leaves the locks as it found them. It comes to a halt only at
once: at a lock that is taken, at a reserved key that it is to store, or at a bucket past the
end. -/
theorem part_runs {E : Halt → γ → Cells k v c.shape → Prop} (hbulk : ¬ call.Bulk)
    (hs : s.locks = l)
    (hfree : ∀ key value oldKey oldValue update,
      call = .exchange key value oldKey oldValue update →
      ∀ b ∈ call.locks c, l.isLocked b.val = false)
    (hwait : ∀ b, l.isLocked b = true → E (.waiting b) r s)
    (hfault : ∀ x ∈ call.stores, c.reserved.isReserved x.1 = true →
      E (.fault (.reservedKey x.1.toNat)) r s)
    (hrange : ∀ b, call = .occupancy b → ¬ b < c.shape.count → E (.fault (.noSuchBucket b)) r s) :
    (call.run c g).Ensures W E r s fun _ _ s' => s'.locks = l := by
  have hread : call.writes = [] → (call.run c g).Ensures W E r s fun _ _ s' => s'.locks = l :=
    fun hw => read_ensures (hT.stable_locks l) hbulk hw hrange hs
  have hupdate : ∀ {key}, call.Updates key →
      (call.run c g).Ensures W E r s fun _ _ s' => s'.locks = l := fun hcall =>
    (update_runs hT hpasses hcall hs hwait hfault).mono fun _ _ _ h => h.2
  cases call with
  | upsert key value locked => exact hupdate rfl
  | insertNew key value => exact hupdate rfl
  | erase key locked => exact hupdate rfl
  | erasePair key value => exact hupdate rfl
  | exchange key value oldKey oldValue update =>
    have hfree' := hfree _ _ _ _ _ rfl
    refine Prog.ensures_map.2 (((exchange_phases hT g key value oldKey oldValue update hs
      (hfree' _ (by simp [Call.locks])) (hfree' _ (by simp [Call.locks]))).mono
        fun _ _ _ h => h.2.2).mono_halt ?_)
    rintro _ _ _ ⟨rfl, hreserved, rfl, rfl⟩
    exact hfault _ (List.mem_singleton_self _) hreserved
  | upsertAll | upsertEach | insertEach | eraseEach | upsertInChunks => exact absurd trivial hbulk
  | _ => exact hread rfl

/-- A call that is not a bulk call leaves the locks as it found them. -/
theorem part_locks (hbulk : ¬ call.Bulk) (hs : s.locks = l)
    (hfree : ∀ key value oldKey oldValue update,
      call = .exchange key value oldKey oldValue update →
      ∀ b ∈ call.locks c, l.isLocked b.val = false) :
    (call.run c g).Ensures W (Leaves l) r s fun _ _ s' => s'.locks = l :=
  part_runs hT hpasses hbulk hs hfree (fun _ hbusy => ⟨hs, hbusy⟩) (fun _ _ _ => hs)
    fun _ _ _ => hs

end

/-- **A call leaves the locks as it found them**, on every way out of it. -/
theorem run_locks (hT : W.Tame left) (hpasses : ∀ r, left r < g.passes) (call : Call k v)
    (hs : s.locks = l) (hfree : ∀ b ∈ call.locks c, l.isLocked b.val = false) :
    (call.run c g).Ensures W (Leaves l) r s fun _ _ s' => s'.locks = l := by
  have hexchange : ∀ x ∈ call.parts, ∀ key value oldKey oldValue update,
      x = .exchange key value oldKey oldValue update →
      ∀ b ∈ x.locks c, l.isLocked b.val = false := by
    intro x hx key value oldKey oldValue update he
    rwa [(eq_or_of_mem_parts hx).2.resolve_right fun h => h _ _ _ _ _ he]
  refine run_ensures (I := fun _ s => s.locks = l) (fun _ _ _ => Iff.rfl) call
    (fun x hx r s hs => ?_) (fun x hx r s hs => ?_) hs
  · exact part_locks hT hpasses (eq_or_of_mem_parts hx).1 hs (hexchange x hx)
  · refine (part_locks World.tame_alone (fun _ => Nat.zero_lt_of_lt (hpasses r))
      (eq_or_of_mem_parts hx).1 hs (hexchange x hx)).mono_halt fun h _ _ hE => ?_
    cases h <;> exact hE

/-- With nobody else there and its locks free, a call leaves the locks as it found them. -/
theorem solo_locks (hg : 0 < g.passes) (call : Call k v)
    (hfree : ∀ b ∈ call.locks c, s.locks.isLocked b.val = false) :
    ((call.run c g).solo s).2.locks = s.locks := by
  have hrun := (run_locks (r := ()) World.tame_alone (fun _ => hg) call rfl hfree).solo
  split at hrun <;> rename_i heq <;> rw [heq]
  · exact hrun
  · rename_i halt _
    cases halt with
    | fault => exact hrun
    | waiting => exact hrun.1
    | starved => exact hrun.elim

end Call

end TwoChoice
