import TwoChoice.Call
import TwoChoice.Proofs.Lookup

/-!
# What calls touch

The keys that a call stores or removes (`Call.writes`), whether it does so without the lock of the
key (`Call.unlocked`), and the calls on single keys that a bulk call is made of (`Call.parts`). What
every part of a call preserves the call preserves (`Call.run_ensures`). A call that writes no key
preserves what others preserve at its pauses (`Call.read_ensures`).
-/

set_option autoImplicit false

namespace TwoChoice

variable {k v : Width}

namespace Call

/-- The keys that the call may store or remove. -/
def writes : Call k v → List (Word k)
  | .upsert key _ _ | .insertNew key _ | .erase key _ | .erasePair key _ => [key]
  | .exchange key _ oldKey _ _ => [key, oldKey]
  | .upsertAll pairs | .upsertEach pairs | .insertEach pairs | .upsertInChunks pairs _ =>
    pairs.map Prod.fst
  | .eraseEach keys => keys
  | _ => []

/-- The keys that the call stores, removes or looks up. -/
def keys : Call k v → List (Word k)
  | .find key | .contains key => [key]
  | call => call.writes

/-- The call does not take the lock of the key that it stores or removes. -/
def unlocked : Call k v → Bool
  | .upsert _ _ locked | .erase _ locked => !locked
  | _ => false

/-- The pairs that the call stores without asking whether their keys are reserved. -/
def stores : Call k v → List (Word k × Word v)
  | .upsert key value _ | .exchange key value _ _ _ => [(key, value)]
  | .upsertAll pairs | .upsertEach pairs | .upsertInChunks pairs _ => pairs
  | _ => []

/-- The call does its work itself, and asks for no bucket past the end. -/
def Direct (c : Config k) : Call k v → Prop
  | .upsertInChunks .. | .findInChunks .. => False
  | .occupancy bucket => bucket < c.shape.count
  | _ => True

/-- The calls on single keys that the call is made of. -/
def parts : Call k v → List (Call k v)
  | .upsertAll pairs | .upsertEach pairs | .upsertInChunks pairs _ =>
    pairs.map fun pair => .upsert pair.1 pair.2 true
  | .insertEach pairs => pairs.map fun pair => .insertNew pair.1 pair.2
  | .findAll keys | .findInChunks keys _ => keys.map .find
  | .eraseEach keys => keys.map fun key => .erase key true
  | .pickEach key salts => salts.map (.pick key)
  | call => [call]

/-- The keys that the call may store or remove while these are the locks. A call that takes the lock
of a key has to find it free. -/
def may (c : Config k) (call : Call k v) (l : Locks c.shape.count) (key : Word k) : Prop :=
  key ∈ call.writes ∧
    (call.unlocked = true ∨ l.isLocked (c.candidates key).primary.val = false)

/-- The call stores or removes the key, and no other. -/
def Updates : Call k v → Word k → Prop
  | .upsert key _ _, key' | .insertNew key _, key' | .erase key _, key' | .erasePair key _, key' =>
    key = key'
  | _, _ => False

/-- The call takes `old` out of its slot, and in between the slot has the reserved key `mark`. -/
def Vacates (c : Config k) : Call k v → Word k → Word k → Prop
  | .erase key _, old, mark | .erasePair key _, old, mark =>
    old = key ∧ mark = c.reserved.tombstone
  | .exchange _ _ oldKey _ _, old, mark => old = oldKey ∧ mark = c.reserved.holding
  | .eraseEach keys, old, mark => old ∈ keys ∧ mark = c.reserved.tombstone
  | _, _, _ => False

/-- The call stores, removes, exchanges or looks up a single key. -/
def Single : Call k v → Prop
  | .upsert .. | .insertNew .. | .erase .. | .erasePair .. | .exchange .. | .find _ | .contains _ =>
    True
  | _ => False

theorem writes_subset_keys (call : Call k v) {key : Word k} (h : key ∈ call.writes) :
    key ∈ call.keys := by
  cases call <;> first | exact h | cases h

/-- A part stores and removes what its call does, and is unlocked only if its call is. -/
theorem writes_of_mem_parts {call part : Call k v} (hp : part ∈ call.parts) :
    (∀ key ∈ part.writes, key ∈ call.writes) ∧ (part.unlocked = true → call.unlocked = true) := by
  have hself : part ∈ [call] →
      (∀ key ∈ part.writes, key ∈ call.writes) ∧ (part.unlocked = true → call.unlocked = true) := by
    intro h
    obtain rfl := List.mem_singleton.1 h
    exact ⟨fun _ h => h, fun h => h⟩
  cases call with
  | upsertAll | upsertEach | insertEach | eraseEach | upsertInChunks =>
    obtain ⟨x, hx, rfl⟩ := List.mem_map.1 hp
    refine ⟨fun key hk => ?_, fun h => by cases h⟩
    obtain rfl := List.mem_singleton.1 hk
    first | exact hx | exact List.mem_map_of_mem hx
  | findAll | findInChunks | pickEach =>
    obtain ⟨x, -, rfl⟩ := List.mem_map.1 hp
    exact ⟨fun _ h => (by cases h), fun h => (by cases h)⟩
  | _ => exact hself hp

/-- The call is made of calls on single keys. -/
def Bulk : Call k v → Prop
  | .upsertAll _ | .upsertEach _ | .insertEach _ | .findAll _ | .eraseEach _ | .pickEach ..
  | .upsertInChunks .. | .findInChunks .. => True
  | _ => False

/-- The parts of a bulk call are not bulk calls, and they are no exchanges. -/
theorem eq_or_of_mem_parts {call part : Call k v} (hp : part ∈ call.parts) :
    ¬ part.Bulk ∧ (part = call ∨ ∀ key value oldKey oldValue update,
      part ≠ .exchange key value oldKey oldValue update) := by
  cases call with
  | upsertAll | upsertEach | insertEach | eraseEach | upsertInChunks | findAll | findInChunks
  | pickEach =>
    obtain ⟨x, -, rfl⟩ := List.mem_map.1 hp
    exact ⟨fun h => h, .inr fun _ _ _ _ _ h => by cases h⟩
  | _ =>
    obtain rfl := List.mem_singleton.1 hp
    exact ⟨fun h => h, .inl rfl⟩

/-- A part stores what its call does, and is direct if its call is. -/
theorem stores_of_mem_parts {c : Config k} {call part : Call k v} (hp : part ∈ call.parts)
    (hdirect : call.Direct c) : part.stores ⊆ call.stores ∧ part.Direct c := by
  cases call with
  | upsertAll | upsertEach | insertEach | eraseEach | upsertInChunks | findAll | findInChunks
  | pickEach =>
    obtain ⟨x, hx, rfl⟩ := List.mem_map.1 hp
    refine ⟨fun y hy => ?_, trivial⟩
    first
    | exact List.mem_singleton.1 hy ▸ hx
    | cases hy
  | _ =>
    obtain rfl := List.mem_singleton.1 hp
    exact ⟨fun _ h => h, hdirect⟩

theorem vacates_mem_writes {c : Config k} {call : Call k v} {old mark : Word k}
    (h : call.Vacates c old mark) : old ∈ call.writes := by
  cases call with
  | erase | erasePair => exact List.mem_singleton.2 h.1
  | exchange => exact List.mem_cons_of_mem _ (List.mem_singleton.2 h.1)
  | eraseEach => exact h.1
  | _ => exact h.elim

theorem vacates_of_mem_parts {c : Config k} {call part : Call k v} (hp : part ∈ call.parts)
    {old mark : Word k} (h : part.Vacates c old mark) : call.Vacates c old mark := by
  cases call with
  | eraseEach keys =>
    obtain ⟨key, hk, rfl⟩ := List.mem_map.1 hp
    exact ⟨h.1 ▸ hk, h.2⟩
  | upsertAll | upsertEach | insertEach | upsertInChunks | findAll | findInChunks | pickEach =>
    obtain ⟨x, -, rfl⟩ := List.mem_map.1 hp
    exact h.elim
  | _ =>
    obtain rfl := List.mem_singleton.1 hp
    exact h

/-! ## Bulk calls -/

section
variable {c : Config k} {γ : Type} {W : World γ (Cells k v c.shape)} {g : Group}
variable {I : γ → Cells k v c.shape → Prop}

theorem mem_of_mem_chunks {α : Type} {n : Nat} {items chunk : List α} {x : α}
    (hc : chunk ∈ chunks n items) (hx : x ∈ chunk) : x ∈ items := by
  obtain ⟨i, -, rfl⟩ := List.mem_map.1 hc
  exact List.mem_of_mem_drop (List.mem_of_mem_take hx)

section
variable {E : Halt → γ → Cells k v c.shape → Prop} (hfault : ∀ f r s, E (.fault f) r s ↔ I r s)
include hfault

/-- Workers keep what their work keeps when nobody else is there, also if it ends with a fault. -/
theorem inChunks_ensures {α β : Type} {items : List α} {workers : Nat}
    {work : List α → Prog (Cells k v c.shape) β}
    (hwork : ∀ chunk, (∀ x ∈ chunk, x ∈ items) → ∀ r s, I r s →
      (work chunk).Ensures (World.alone _) (fun h _ => E h r) () s fun _ _ => I r)
    {r : γ} {s : Cells k v c.shape} (h : I r s) :
    (c.inChunks items workers work).Ensures W E r s fun _ => I := by
  rw [Config.inChunks]
  cases chunkSize? items.length workers with
  | none => exact (hfault _ r s).2 h
  | some n =>
    rw [Prog.ensures_bind]
    refine (Prog.ensures_mapM_inv (I := I) (fun chunk hc r s hI => ?_) h).mono
      fun results r' s' h' => Prog.ensures_mapM_inv (I := I) (fun result _ r s hI => ?_) h'
    · refine Prog.Ensures.attempt (F := E) (Prog.ensures_detached.2 ?_)
        (fun f r s h => (hfault f r s).1 h) fun _ _ _ _ h => h
      have hsolo := (hwork chunk (fun x hx => mem_of_mem_chunks hc hx) r s hI).solo
      split <;> rename_i heq <;> rw [heq] at hsolo <;> exact hsolo
    · cases result with
      | ok => exact hI
      | error f => exact (hfault f r s).2 hI

end

theorem upsertAll_ensures {E : Halt → γ → Cells k v c.shape → Prop}
    {pairs : List (Word k × Word v)}
    (hpart : ∀ x ∈ pairs, ∀ r s, I r s →
      (c.upsert g x.1 x.2 true).Ensures W E r s fun _ => I)
    {r : γ} {s : Cells k v c.shape} (h : I r s) :
    (c.upsertAll g pairs).Ensures W E r s fun _ => I :=
  Prog.ensures_foldlM_inv (fun x hx _ r s hI => Prog.ensures_bind.2 (hpart x hx r s hI)) h

/-- What every part of a direct call keeps the call keeps. -/
theorem direct_ensures {E : Halt → γ → Cells k v c.shape → Prop} {call : Call k v}
    (hdirect : call.Direct c)
    (hpart : ∀ x ∈ call.parts, ∀ r s, I r s → (x.run c g).Ensures W E r s fun _ => I)
    {r : γ} {s : Cells k v c.shape} (h : I r s) : (call.run c g).Ensures W E r s fun _ => I := by
  cases call with
  | upsertAll pairs =>
    exact Prog.ensures_map.2 (upsertAll_ensures (I := I) (fun x hx r s hI =>
      Prog.ensures_map.1 (hpart _ (List.mem_map_of_mem hx) r s hI)) h)
  | upsertEach xs | insertEach xs | findAll xs | eraseEach xs | pickEach _ xs =>
    exact Prog.ensures_map.2 (Prog.ensures_mapM_inv (I := I) (fun x hx r s hI =>
      Prog.ensures_map.1 (hpart _ (List.mem_map_of_mem hx) r s hI)) h)
  | upsertInChunks | findInChunks => exact hdirect.elim
  | _ => exact hpart _ (List.mem_singleton_self _) r s h

/-- **What every part of a call keeps the call keeps**, also if it comes to a halt. The parts of a
call in chunks run with nobody else there. -/
theorem run_ensures {E : Halt → γ → Cells k v c.shape → Prop}
    (hfault : ∀ f r s, E (.fault f) r s ↔ I r s) (call : Call k v)
    (hpart : ∀ x ∈ call.parts, ∀ r s, I r s → (x.run c g).Ensures W E r s fun _ => I)
    (halone : ∀ x ∈ call.parts, ∀ r s, I r s →
      (x.run c g).Ensures (World.alone _) (fun h _ => E h r) () s fun _ _ => I r)
    {r : γ} {s : Cells k v c.shape} (h : I r s) : (call.run c g).Ensures W E r s fun _ => I := by
  cases call with
  | upsertInChunks pairs workers =>
    refine Prog.ensures_map.2 (Prog.ensures_bind.2
      (inChunks_ensures hfault (fun chunk hc r s hI => ?_) h))
    exact upsertAll_ensures (I := fun _ => I r) (fun x hx _ s hI =>
      Prog.ensures_map.1 (halone _ (List.mem_map_of_mem (hc x hx)) r s hI)) hI
  | findInChunks keys workers =>
    refine Prog.ensures_map.2 (Prog.ensures_bind.2
      (inChunks_ensures hfault (fun chunk hc r s hI => ?_) h))
    exact Prog.ensures_mapM_inv (I := fun _ => I r) (fun x hx _ s hI =>
      Prog.ensures_map.1 (halone _ (List.mem_map_of_mem (hc x hx)) r s hI)) hI
  | occupancy => exact hpart _ (List.mem_singleton_self _) r s h
  | _ =>
    refine direct_ensures ?_ hpart h
    trivial

/-- **A call that writes no key** keeps what others keep. It comes to a halt only at a bucket past
the end. -/
theorem read_ensures {E : Halt → γ → Cells k v c.shape → Prop} {x : Call k v} {r : γ}
    {s : Cells k v c.shape} (hW : W.Stable I) (hx : ¬ x.Bulk) (hw : x.writes = [])
    (hrange : ∀ b, x = .occupancy b → ¬ b < c.shape.count → E (.fault (.noSuchBucket b)) r s)
    (h : I r s) : (x.run c g).Ensures W E r s fun _ => I := by
  cases x with
  | find key => exact Prog.ensures_map.2 (Config.find?_stable g key hW h)
  | contains key =>
    exact Prog.ensures_map.2 (Prog.ensures_bind.2 (Config.find?_stable g key hW h))
  | pick key salt => exact Prog.ensures_map.2 (Config.pick_stable g key salt hW h)
  | pickSmaller key => exact Prog.ensures_map.2 (Config.pickSmaller_stable g key hW h)
  | occupancy bucket =>
    show Prog.Ensures _ _ (if h : bucket < c.shape.count then _ else _) _ _ _
    split
    · exact h
    · rename_i hout
      exact hrange bucket rfl hout
  | size | isEmpty | entries | sortedEntries | locate | candidates | profile | describe => exact h
  | upsert | insertNew | erase | erasePair | exchange => cases hw
  | _ => exact absurd trivial hx

end

end Call

end TwoChoice
