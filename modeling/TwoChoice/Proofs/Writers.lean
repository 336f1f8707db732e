import TwoChoice.Proofs.Calls
import TwoChoice.Proofs.Serial

/-!
# Calls that write one key

Each of the calls that store or remove one key is a store (`Call.IsStore`) or a removal
(`Call.IsErase`) with a reply of its own (`Updates.forms`). What is proved of stores and removals
holds of these calls with it.
-/

set_option autoImplicit false

namespace TwoChoice.Call

variable {k v : Width}

/-- The call stores or removes one key, with the lock of the key if `locked`. -/
structure OnKey (c : Config k) (call : Call k v) (key : Word k) (locked : Bool) : Prop where
  parts : call.parts = [call]
  writes : call.writes = [key]
  unlocked : call.unlocked = !locked
  locks : call.locks c = if locked then [(c.candidates key).primary] else []

/-- The call stores a pair, and then it replies. -/
structure IsStore (c : Config k) (call : Call k v) (key : Word k) (value : Word v)
    (replace locked : Bool) (reply : Stored → Reply k v) : Prop
    extends OnKey c call key locked where
  serves : ∀ {strict M stored M'}, c.Stores strict M key value replace stored M' →
    c.Serves strict call M (reply stored) M'
  run : ∀ {γ : Type} {W : World γ (Cells k v c.shape)} {E g r s}
    {Q : Reply k v → γ → Cells k v c.shape → Prop}, c.Live key →
    (c.store g key value replace locked).Ensures W E r s (fun stored => Q (reply stored)) →
    (call.run c g).Ensures W E r s Q

/-- The call removes the key if it has the wanted value. -/
structure IsErase (c : Config k) (call : Call k v) (key : Word k) (wanted : Option (Word v))
    (locked : Bool) : Prop extends OnKey c call key locked where
  vacates : call.Vacates c key c.reserved.tombstone
  serves : ∀ {strict M erased M'}, c.Erases M key wanted erased M' →
    c.Serves strict call M (.flag erased) M'
  run : ∀ {γ : Type} {W : World γ (Cells k v c.shape)} {E g r s}
    {Q : Reply k v → γ → Cells k v c.shape → Prop},
    (c.erase g key wanted locked).Ensures W E r s (fun erased => Q (.flag erased)) →
    (call.run c g).Ensures W E r s Q

variable {c : Config k} {call : Call k v} {key : Word k} {locked : Bool}
variable {l : Locks c.shape.count}

namespace OnKey

theorem part (h : OnKey c call key locked) : call ∈ call.parts := by
  rw [h.parts]
  exact List.mem_singleton_self _

theorem mem_writes (h : OnKey c call key locked) : key ∈ call.writes := by
  rw [h.writes]
  exact List.mem_singleton_self _

/-- The locks of the call are free if the lock of the key is free or not needed. -/
theorem free_iff (h : OnKey c call key locked) :
    (∀ b ∈ call.locks c, l.isLocked b.val = false) ↔
      (locked = true → l.isLocked (c.candidates key).primary = false) := by
  rw [h.locks]
  cases locked with
  | false => simp
  | true => simp

theorem may (h : OnKey c call key locked)
    (hfree : locked = true → l.isLocked (c.candidates key).primary = false) :
    call.may c l key := by
  refine ⟨h.mem_writes, ?_⟩
  rw [h.unlocked]
  cases locked with
  | false => exact .inl rfl
  | true => exact .inr (hfree rfl)

/-- While the call runs, it is unlocked or the lock of its key is held. -/
theorem unlocked_or_held (h : OnKey c call key locked) :
    call.unlocked = true ∨
      (c.hold key locked l).isLocked (c.candidates key).primary.val = true := by
  rw [h.unlocked]
  cases locked with
  | false => exact .inl rfl
  | true => exact .inr Config.isLocked_hold

end OnKey

theorem isStore_upsert (key : Word k) (value : Word v) (locked : Bool) :
    IsStore c (.upsert key value locked) key value true locked
      fun stored => .flag (stored != .full) where
  toOnKey := ⟨rfl, rfl, rfl, by cases locked <;> rfl⟩
  serves hs := ⟨_, hs, rfl⟩
  run _ h := Prog.ensures_map.2 (Prog.ensures_bind.2 h)

theorem isStore_insertNew (key : Word k) (value : Word v) :
    IsStore c (.insertNew key value) key value false true
      fun stored => .insertion (Config.insertion stored) where
  toOnKey := ⟨rfl, rfl, rfl, rfl⟩
  serves hs := ⟨_, hs, rfl⟩
  run hl h := by
    refine Prog.ensures_map.2 ?_
    rw [Config.insertNew, if_neg (by rw [hl]; simp), Prog.ensures_bind]
    refine h.mono fun stored r' s' hQ => ?_
    cases stored <;> exact hQ

theorem isErase_erase (key : Word k) (locked : Bool) :
    IsErase c (.erase key locked : Call k v) key none locked where
  toOnKey := ⟨rfl, rfl, rfl, by cases locked <;> rfl⟩
  vacates := ⟨rfl, rfl⟩
  serves hs := ⟨_, hs, rfl⟩
  run h := Prog.ensures_map.2 h

theorem isErase_erasePair (key : Word k) (value : Word v) :
    IsErase c (.erasePair key value) key (some value) true where
  toOnKey := ⟨rfl, rfl, rfl, rfl⟩
  vacates := ⟨rfl, rfl⟩
  serves hs := ⟨_, hs, rfl⟩
  run h := Prog.ensures_map.2 h

/-- **A call that writes one key** is a store or a removal. -/
theorem Updates.forms (h : call.Updates key) :
    (∃ value replace locked reply, IsStore c call key value replace locked reply) ∨
      ∃ wanted locked, IsErase c call key wanted locked := by
  cases call with
  | upsert key' value locked =>
    obtain rfl : key' = key := h
    exact .inl ⟨_, _, _, _, isStore_upsert key' value locked⟩
  | insertNew key' value =>
    obtain rfl : key' = key := h
    exact .inl ⟨_, _, _, _, isStore_insertNew key' value⟩
  | erase key' locked =>
    obtain rfl : key' = key := h
    exact .inr ⟨_, _, isErase_erase key' locked⟩
  | erasePair key' value =>
    obtain rfl : key' = key := h
    exact .inr ⟨_, _, isErase_erasePair key' value⟩
  | _ => exact h.elim

/-- What stores and removals of the key keep the call keeps. It may refuse a reserved key at once. -/
theorem Updates.keeps {γ : Type} {W : World γ (Cells k v c.shape)}
    {E : Halt → γ → Cells k v c.shape → Prop} {I : γ → Cells k v c.shape → Prop} {g : Group} {r : γ}
    {s : Cells k v c.shape} (h : call.Updates key)
    (hstore : ∀ value replace locked,
      (c.store g key value replace locked).Ensures W E r s fun _ => I)
    (herase : ∀ wanted locked,
      (c.erase (v := v) g key wanted locked).Ensures W E r s fun _ => I)
    (hs : I r s) : (call.run c g).Ensures W E r s fun _ => I := by
  cases call with
  | upsert key' value locked =>
    obtain rfl : key' = key := h
    exact Prog.ensures_map.2 (Prog.ensures_bind.2 (hstore value true locked))
  | insertNew key' value =>
    obtain rfl : key' = key := h
    refine Prog.ensures_map.2 ?_
    rw [Config.insertNew]
    split
    · exact hs
    · refine Prog.ensures_bind.2 ((hstore value false true).mono fun stored r' s' h' => ?_)
      cases stored <;> exact h'
  | erase key' locked =>
    obtain rfl : key' = key := h
    exact Prog.ensures_map.2 (herase none locked)
  | erasePair key' value =>
    obtain rfl : key' = key := h
    exact Prog.ensures_map.2 (herase (some value) true)
  | _ => exact h.elim

end TwoChoice.Call
