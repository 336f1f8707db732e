import TwoChoice.Proofs.Reachable
import TwoChoice.Proofs.Spells

/-!
# Operations side by side

Any number of operations on single keys run at the same time, each with its own group, and take
turns in any order: a turn of one of them takes it from one pause to the next. The table may hold
anything, as long as no bucket is locked at the start. In a turn an operation takes one lock at most
or releases one. `Traffic.awaited t i` is the bucket for whose lock operation `i` waits, and
`Traffic.holder` keeps track of who took which lock.

An operation sees the others as the world `Traffic.amid`: what it holds nobody else releases, and
everything else may change at a pause. In it an operation waits only for buckets above all those
that it holds (`Call.run_amid`). So the operations never wait for each other in a circle
(`Traffic.Reachable.no_deadlock`).
-/

set_option autoImplicit false

namespace TwoChoice

variable {k v : Width}

/-! ## Turns -/

namespace Prog

variable {γ σ α : Type}

/-- Runs the program up to its next pause. What is left of it comes with the state there. -/
def segment : Prog σ α → σ → Except Halt (Prog σ α) × σ
  | .done a, s => (.ok (.done a), s)
  | .halt h, s => (.error h, s)
  | .read k, s => (k s).segment s
  | .write f p, s => p.segment (f s)
  | .emit _ p, s => p.segment s
  | .sync p, s => (.ok p, s)

/-- What a program ensures it ensures from each of its pauses on, if others do not undo it at the
end. -/
theorem Ensures.segment {W : World γ σ} {E : Halt → γ → σ → Prop} {Q : α → γ → σ → Prop}
    (hQ : ∀ a, W.Stable (Q a)) {p : Prog σ α} {r : γ} {s : σ} (h : p.Ensures W E r s Q) :
    match p.segment s with
    | (.ok q, s') => W.ready r s' ∧ ∀ r' s'', W.turn r s' r' s'' → q.Ensures W E r' s'' Q
    | (.error x, s') => E x r s' := by
  induction p generalizing s with
  | done a => exact ⟨(hQ a).ready h, fun r' s'' ht => (hQ a).turn h ht⟩
  | halt x => exact h
  | read q ih => exact ih s h
  | write f p ih => exact ih h
  | emit e p ih => exact ih h
  | sync p ih => exact h

end Prog

/-- Operations at work on one table. -/
structure Traffic (c : Config k) (v : Width) (ι : Type) where
  cells : Cells k v c.shape
  /-- What each operation has still to do. -/
  left : ι → Prog (Cells k v c.shape) (Reply k v)
  /-- The operation that took the lock of the bucket and has not released it. -/
  holder : Nat → Option ι

namespace Traffic

variable {c : Config k} {ι : Type}

/-- No operation has begun. -/
def start (calls : ι → Call k v) (groups : ι → Group) (s : Cells k v c.shape) :
    Traffic c v ι where
  cells := s
  left i := (calls i).run c (groups i)
  holder _ := none

/-- The bucket for whose lock the operation waits: it is locked when the operation tries it. -/
def awaited (t : Traffic c v ι) (i : ι) : Option Nat :=
  match ((t.left i).segment t.cells).1 with
  | .error (.waiting b) => some b
  | _ => none

/-- One turn of an operation. A lock that is taken in it belongs to the operation. -/
def advance [DecidableEq ι] (t : Traffic c v ι) (i : ι) : Traffic c v ι :=
  let after := (t.left i).segment t.cells
  { cells := after.2
    left := fun j =>
      if j = i then
        match after.1 with
        | .ok p => p
        | .error h => .halt h
      else t.left j
    holder := fun b =>
      if after.2.locks.isLocked b = t.cells.locks.isLocked b then t.holder b
      else if after.2.locks.isLocked b then some i
      else none }

/-- What the operations come to in any order of turns. An operation that waits has no turn. -/
inductive Reachable [DecidableEq ι] (calls : ι → Call k v) (groups : ι → Group)
    (s : Cells k v c.shape) : Traffic c v ι → Prop
  | start : Reachable calls groups s (start calls groups s)
  | advance {t i} (before : Reachable calls groups s t) (free : t.awaited i = none) :
    Reachable calls groups s (t.advance i)

/-- Each of these operations waits for a lock that one of them holds. -/
def Deadlocked (t : Traffic c v ι) (S : Set ι) : Prop :=
  ∀ i ∈ S, ∃ b, t.awaited i = some b ∧ ∃ j ∈ S, t.holder b = some j

/-! ## One operation among the others -/

variable {H : Set Nat} {r r' : Set Nat × Cells k v c.shape} {s s' : Cells k v c.shape} {b : Nat}

/-- The locks that an operation holds: those it held at its last pause or found free then, as far
as they are taken now. -/
def grip (r : Set Nat × Cells k v c.shape) (s : Cells k v c.shape) : Set Nat :=
  {b | (b ∈ r.1 ∨ r.2.locks.isLocked b = false) ∧ s.locks.isLocked b = true}

/-- What an operation sees of the others, to whom it owes that their locks stay taken. It remembers
the locks that it held at its last pause, and the table after it. -/
def amid (c : Config k) (v : Width) :
    World (Set Nat × Cells k v c.shape) (Cells k v c.shape) where
  ready r s := ∀ b ∉ r.1, r.2.locks.isLocked b = true → s.locks.isLocked b = true
  turn r s r' s' := r' = (grip r s, s') ∧ ∀ b ∈ grip r s, s'.locks.isLocked b = true

/-- The operation holds these locks. -/
def Holds (H : Set Nat) (r : Set Nat × Cells k v c.shape) (s : Cells k v c.shape) : Prop :=
  (amid c v).ready r s ∧ grip r s = H

/-- The operation is at a pause and holds these locks. -/
def Rests (H : Set Nat) (r : Set Nat × Cells k v c.shape) (s : Cells k v c.shape) : Prop :=
  r = (H, s) ∧ ∀ b ∈ H, s.locks.isLocked b = true

/-- How an operation may come to a halt: by a fault when it holds no lock, or at a lock that is
taken, above all those that it holds, with nothing changed since its last pause. It may also run
out of passes. -/
def Stops : Halt → Set Nat × Cells k v c.shape → Cells k v c.shape → Prop
  | .fault _, r, s => Holds ∅ r s
  | .waiting b, r, s => s = r.2 ∧ s.locks.isLocked b = true ∧ ∀ a ∈ r.1, a < b
  | .starved, r, s => (amid c v).ready r s

theorem Rests.holds (h : Rests H r s) : Holds H r s := by
  obtain ⟨rfl, hlocked⟩ := h
  refine ⟨fun _ _ h => h, Set.ext fun b => ⟨?_, fun hb => ⟨.inl hb, hlocked b hb⟩⟩⟩
  rintro ⟨hb | hfree, hb'⟩
  · exact hb
  · exact absurd (hb'.symm.trans hfree) (by simp)

theorem Holds.turn (h : Holds H r s) (ht : (amid c v).turn r s r' s') : Rests H r' s' := by
  obtain ⟨rfl, hkept⟩ := ht
  rw [h.2] at hkept
  exact ⟨by rw [h.2], hkept⟩

theorem lasting_holds (H : Set Nat) : (amid c v).Lasting (Holds H) where
  ready h := h.1
  turn h ht := (h.turn ht).holds
  putTag _ _ h := h
  putSlot _ _ h := h

theorem Rests.acquire (h : Rests H r s) (hb : b < c.shape.count)
    (hfree : s.locks.isLocked b = false) :
    Holds (insert b H) r (s.setLocks (s.locks.acquire b)) := by
  obtain ⟨rfl, hlocked⟩ := h
  have hset : ∀ a, (s.setLocks (s.locks.acquire b)).locks.isLocked a = true ↔
      b = a ∨ s.locks.isLocked a = true := fun a => by
    rw [Cells.locks_setLocks, Locks.isLocked_acquire _ (Locks.covers_of_lt hb), Bool.or_eq_true,
      decide_eq_true_eq]
  refine ⟨fun a _ ha => (hset a).2 (.inr ha), Set.ext fun a => ⟨?_, ?_⟩⟩
  · rintro ⟨hown, ha⟩
    rcases (hset a).1 ha with rfl | ha
    · exact .inl rfl
    · exact .inr (hown.resolve_right (by simp [ha]))
  · rintro (rfl | ha)
    · exact ⟨.inr hfree, (hset _).2 (.inl rfl)⟩
    · exact ⟨.inl ha, (hset a).2 (.inr (hlocked a ha))⟩

theorem Rests.release (h : Rests H r s) (hb : b < c.shape.count) (hmem : b ∈ H) :
    Holds (H \ {b}) r (s.setLocks (s.locks.release b)) := by
  obtain ⟨rfl, hlocked⟩ := h
  have hset : ∀ a, (s.setLocks (s.locks.release b)).locks.isLocked a = true ↔
      s.locks.isLocked a = true ∧ b ≠ a := fun a => by
    rw [Cells.locks_setLocks, Locks.isLocked_release _ (Locks.covers_of_lt hb), Bool.and_eq_true,
      decide_eq_true_eq]
  refine ⟨fun a ha ha' => (hset a).2 ⟨ha', fun he => ha (he ▸ hmem)⟩, Set.ext fun a => ⟨?_, ?_⟩⟩
  · rintro ⟨hown, ha⟩
    obtain ⟨ha, hne⟩ := (hset a).1 ha
    exact ⟨hown.resolve_right (by simp [ha]), Ne.symm hne⟩
  · rintro ⟨ha, hne⟩
    exact ⟨.inl ha, (hset a).2 ⟨hlocked a ha, Ne.symm hne⟩⟩

/-! ### Locks in ascending order -/

theorem lockAll_amid (g : Lanes) : ∀ {bs : List Nat} {H : Set Nat}
    {r : Set Nat × Cells k v c.shape} {s : Cells k v c.shape}, bs.Pairwise (· < ·) →
    (∀ b ∈ bs, b < c.shape.count ∧ ∀ a ∈ H, a < b) → Rests H r s →
    (bs.forM fun b => (Locks.lock g b).zoom Cells.locksLens).Ensures (amid c v) Stops r s
      fun _ => Rests (H ∪ {b | b ∈ bs})
  | [], H, r, s, _, _, h => by
    rw [List.forM_eq_forM, List.forM_nil, Prog.ensures_pure]
    simpa using h
  | b :: bs, H, r, s, hasc, hall, h => by
    obtain ⟨hb, habove⟩ := hall b (List.mem_cons_self ..)
    obtain ⟨hfirst, hasc⟩ := List.pairwise_cons.1 hasc
    rw [List.forM_eq_forM, List.forM_cons, Prog.ensures_bind]
    cases hlocked : s.locks.isLocked b with
    | true =>
      obtain ⟨rfl, -⟩ := h
      exact Config.lock_waits g hb hlocked ⟨rfl, hlocked, habove⟩
    | false =>
      have hheld := h.acquire hb hlocked
      refine Config.lock_ensures g hb hlocked hheld.1 fun r' s' ht => ?_
      refine (lockAll_amid g hasc (fun a ha => ⟨(hall a (List.mem_cons_of_mem _ ha)).1, ?_⟩)
        (hheld.turn ht)).mono fun _ r'' s'' h' => ?_
      · rintro x (rfl | hx)
        · exact hfirst a ha
        · exact (hall a (List.mem_cons_of_mem _ ha)).2 x hx
      · have hset : insert b H ∪ {a | a ∈ bs} = H ∪ {a | a ∈ b :: bs} := by
          ext a
          simp only [Set.mem_union, Set.mem_insert_iff, Set.mem_ofPred_eq, List.mem_cons]
          tauto
        exact hset ▸ h'

theorem unlockAll_amid (g : Lanes) : ∀ {bs : List Nat} {H : Set Nat}
    {r : Set Nat × Cells k v c.shape} {s : Cells k v c.shape}, bs.Nodup →
    (∀ b ∈ bs, b < c.shape.count ∧ b ∈ H) → Holds H r s →
    (bs.forM fun b => (Locks.unlock g b).zoom Cells.locksLens).Ensures (amid c v) Stops r s
      fun _ => Holds (H \ {b | b ∈ bs})
  | [], H, r, s, _, _, h => by
    rw [List.forM_eq_forM, List.forM_nil, Prog.ensures_pure]
    simpa using h
  | b :: bs, H, r, s, hnodup, hall, h => by
    obtain ⟨hb, hmem⟩ := hall b (List.mem_cons_self ..)
    obtain ⟨hnotin, hnodup⟩ := List.nodup_cons.1 hnodup
    rw [List.forM_eq_forM, List.forM_cons, Prog.ensures_bind]
    refine Config.unlock_ensures g hb h.1 fun r' s' ht => ?_
    have hrest := h.turn ht
    refine ⟨hrest.2 b hmem, ?_⟩
    refine (unlockAll_amid g hnodup (fun a ha => ?_) (hrest.release hb hmem)).mono
      fun _ r'' s'' h' => ?_
    · obtain ⟨ha', hin⟩ := hall a (List.mem_cons_of_mem _ ha)
      exact ⟨ha', hin, fun he => hnotin (he ▸ ha)⟩
    · have hset : (H \ {b}) \ {a | a ∈ bs} = H \ {a | a ∈ b :: bs} := by
        ext a
        simp only [Set.mem_sdiff, Set.mem_singleton_iff, Set.mem_ofPred_eq, List.mem_cons]
        tauto
      exact hset ▸ h'

/-- An operation that takes its locks in ascending order ends without a lock. -/
theorem withLocks_amid {α : Type} (g : Lanes) {bs : List Nat} {body : Prog (Cells k v c.shape) α}
    (hasc : bs.Pairwise (· < ·)) (hbs : ∀ b ∈ bs, b < c.shape.count)
    (hbody : ∀ {H r s}, Holds H r s →
      body.Ensures (amid c v) (fun h r s => h = .starved ∧ Holds H r s) r s fun _ => Holds H)
    (h : Rests ∅ r s) :
    (c.withLocks g bs body).Ensures (amid c v) Stops r s fun _ => Holds ∅ := by
  simp only [Config.withLocks, Locks.withLocks]
  rw [Prog.ensures_bind]
  refine (lockAll_amid g hasc (fun b hb => ⟨hbs b hb, fun _ ha => ha.elim⟩) h).mono
    fun _ r₁ s₁ h₁ => ?_
  rw [Prog.ensures_bind]
  refine ((hbody h₁.holds).attempt (E := Stops) (Q := fun _ => Holds (∅ ∪ {b | b ∈ bs}))
    (fun _ _ _ he => ?_) (fun _ _ _ _ he => ?_)).mono fun result r₂ s₂ h₂ => ?_
  · cases he.1
  · obtain ⟨rfl, hheld⟩ := he
    exact hheld.1
  rw [Prog.ensures_bind]
  refine (unlockAll_amid g (hasc.imp Nat.ne_of_lt) (fun b hb => ⟨hbs b hb, .inr hb⟩) h₂).mono
    fun _ r₃ s₃ h₃ => ?_
  rw [Set.empty_union, Set.sdiff_self] at h₃
  cases result <;> exact h₃

/-! ### Calls -/

/-- An operation that takes the lock of its key, if any, ends without a lock. -/
theorem guarded_amid {α : Type} (g : Lanes) {key : Word k} {locked : Bool}
    {body : Prog (Cells k v c.shape) α}
    (hbody : ∀ {H r s}, Holds H r s →
      body.Ensures (amid c v) (fun h r s => h = .starved ∧ Holds H r s) r s fun _ => Holds H)
    (h : Rests ∅ r s) :
    (c.withLocks g (if locked then [(c.candidates key).primary.val] else []) body).Ensures
      (amid c v) Stops r s fun _ => Holds ∅ := by
  refine withLocks_amid g (by split <;> simp) (fun b hb => ?_) hbody h
  split at hb
  · exact List.mem_singleton.1 hb ▸ Fin.isLt _
  · cases hb

theorem store_amid (g : Group) (key : Word k) (value : Word v) (replace locked : Bool)
    (h : Rests ∅ r s) :
    (c.store g key value replace locked).Ensures (amid c v) Stops r s fun _ => Holds ∅ := by
  rw [Config.store, Prog.require]
  split
  · exact guarded_amid g.toLanes (fun {H _ _} h => Config.storePasses_starving (lasting_holds H) g
      replace (fun _ _ h => ⟨rfl, h⟩) _ h) h
  · exact h.holds

theorem erase_amid (g : Group) (key : Word k) (wanted : Option (Word v)) (locked : Bool)
    (h : Rests ∅ r s) :
    (c.erase g key wanted locked).Ensures (amid c v) Stops r s fun _ => Holds ∅ := by
  rw [Config.erase_eq]
  exact guarded_amid g.toLanes
    (fun {H _ _} h => Config.eraseBody_mild (lasting_holds H).mild g wanted h) h

theorem exchange_amid (g : Group) (key : Word k) (value : Word v) (oldKey : Word k)
    (oldValue : Word v) (update : Bool) (h : Rests ∅ r s) :
    (c.exchange g key value oldKey oldValue update).Ensures (amid c v) Stops r s
      fun _ => Holds ∅ := by
  rw [Config.exchange]
  by_cases hlive : c.reserved.isReserved key = false
  · refine (Prog.yields_require hlive _ s).ensures_bind ?_
    refine withLocks_amid g.toLanes (Locks.order_ascending _ _) (fun b hb => ?_)
      (fun {H _ _} h => Config.exchangeBody_lasting (lasting_holds H) g update h) h
    rcases Locks.mem_order hb with rfl | rfl <;> exact Fin.isLt _
  · rw [Prog.require, if_neg hlive, Prog.ensures_bind]
    exact h.holds

/-- **Whatever the others do, an operation waits only for buckets above all those that it holds**,
and in the end it holds none. -/
theorem run_amid (g : Group) {call : Call k v} (hsingle : call.Single) (h : Rests ∅ r s) :
    (call.run c g).Ensures (amid c v) Stops r s fun _ => Holds ∅ := by
  have hread : call.writes = [] → ¬ call.Bulk → (∀ b, call ≠ .occupancy b) →
      (call.run c g).Ensures (amid c v) Stops r s fun _ => Holds ∅ := fun hw hbulk hno =>
    Call.read_ensures (lasting_holds ∅).toStable hbulk hw (fun b he => absurd he (hno b)) h.holds
  have hupdate : ∀ {key}, call.Updates key →
      (call.run c g).Ensures (amid c v) Stops r s fun _ => Holds ∅ := fun {key} hcall =>
    Call.Updates.keeps hcall (fun value replace locked => store_amid g key value replace locked h)
      (fun wanted locked => erase_amid g key wanted locked h) h.holds
  cases call with
  | upsert key value locked => exact hupdate rfl
  | insertNew key value => exact hupdate rfl
  | erase key locked => exact hupdate rfl
  | erasePair key value => exact hupdate rfl
  | exchange key value oldKey oldValue update =>
    exact Prog.ensures_map.2 (exchange_amid g key value oldKey oldValue update h)
  | find | contains => exact hread rfl (fun h => h) nofun
  | _ => exact hsingle.elim

/-! ## All of them -/

/-- What holds whenever all operations are at a pause: the locked buckets are those that somebody
holds, and every operation goes on as it should, whatever the table holds, as long as it has its
locks. -/
structure Orderly (t : Traffic c v ι) : Prop where
  locked : ∀ b, t.cells.locks.isLocked b = true ↔ ∃ i, t.holder b = some i
  goesOn : ∀ i s, Rests {b | t.holder b = some i} ({b | t.holder b = some i}, s) s →
    (t.left i).Ensures (amid c v) Stops ({b | t.holder b = some i}, s) s fun _ => Holds ∅

variable {t : Traffic c v ι} {i j : ι}

theorem Orderly.rests (h : t.Orderly) (i : ι) :
    Rests {b | t.holder b = some i} ({b | t.holder b = some i}, t.cells) t.cells :=
  ⟨rfl, fun b hb => (h.locked b).2 ⟨i, hb⟩⟩

/-- An operation waits for a bucket that is locked, and holds locks of lower buckets only. -/
theorem Orderly.of_awaited (h : t.Orderly) (hb : t.awaited i = some b) :
    t.cells.locks.isLocked b = true ∧ ∀ a, t.holder a = some i → a < b := by
  have hturn := (h.goesOn i t.cells (h.rests i)).segment fun _ => (lasting_holds ∅).toStable
  rw [awaited] at hb
  generalize (t.left i).segment t.cells = after at hturn hb
  obtain ⟨_ | _, s'⟩ := after
  · rename_i x
    cases x with
    | waiting b' =>
      obtain rfl : b' = b := Option.some.inj hb
      obtain ⟨rfl, hlocked, habove⟩ := hturn
      exact ⟨hlocked, habove⟩
    | fault => cases hb
    | starved => cases hb
  · cases hb

theorem orderly_start {calls : ι → Call k v} {groups : ι → Group}
    (hsingle : ∀ i, (calls i).Single) (hfree : ∀ b, s.locks.isLocked b = false) :
    (start calls groups s).Orderly where
  locked b := by simp [start, hfree b]
  goesOn i s h := by
    have hnone : {b | (start calls groups s).holder b = some i} = ∅ := Set.ext fun b => by
      simp [start]
    exact run_amid (groups i) (hsingle i) (hnone ▸ h)

section
variable [DecidableEq ι]

/-- A turn of an operation leaves the locks of the others taken, and the operation goes on after it
as it should. -/
theorem Orderly.turn (h : t.Orderly) (hfree : t.awaited i = none) :
    (amid c v).ready ({b | t.holder b = some i}, t.cells) (t.advance i).cells ∧
    ∀ r s, (amid c v).turn ({b | t.holder b = some i}, t.cells) (t.advance i).cells r s →
      ((t.advance i).left i).Ensures (amid c v) Stops r s fun _ => Holds ∅ := by
  have hturn := (h.goesOn i t.cells (h.rests i)).segment fun _ => (lasting_holds ∅).toStable
  rw [awaited] at hfree
  simp only [advance, if_pos]
  generalize (t.left i).segment t.cells = after at hturn hfree
  obtain ⟨_ | _, s'⟩ := after
  · rename_i x
    cases x with
    | fault => exact ⟨hturn.1, fun r s ht => (hturn.turn ht).holds⟩
    | waiting => cases hfree
    | starved =>
      refine ⟨hturn, fun r s ht => ?_⟩
      obtain ⟨rfl, -⟩ := ht
      exact fun _ _ hlocked => hlocked
  · exact hturn

/-- A bucket changes hands in a turn only if its lock is taken or released. -/
theorem holder_advance :
    (t.advance i).holder b = some j ↔
      if (t.advance i).cells.locks.isLocked b = t.cells.locks.isLocked b then t.holder b = some j
      else (t.advance i).cells.locks.isLocked b = true ∧ i = j := by
  by_cases hsame : (t.advance i).cells.locks.isLocked b = t.cells.locks.isLocked b
  · have hkeep : (t.advance i).holder b = t.holder b := if_pos hsame
    rw [hkeep, if_pos hsame]
  · have hnow : (t.advance i).holder b =
        if (t.advance i).cells.locks.isLocked b then some i else none := if_neg hsame
    rw [hnow, if_neg hsame]
    split <;> simp [*]

/-- In its turn an operation keeps its locks, takes some that were free, and releases others. -/
theorem Orderly.holder_self (h : t.Orderly) :
    {b | (t.advance i).holder b = some i} =
      grip ({b | t.holder b = some i}, t.cells) (t.advance i).cells := by
  ext b
  simp only [grip, Set.mem_ofPred_eq, holder_advance]
  cases hbefore : t.cells.locks.isLocked b with
  | true => cases (t.advance i).cells.locks.isLocked b <;> simp
  | false =>
    have hnot : t.holder b ≠ some i := fun he => by
      rw [(h.locked b).2 ⟨i, he⟩] at hbefore
      cases hbefore
    cases (t.advance i).cells.locks.isLocked b <;> simp [hnot]

/-- The locks of the others stay as they are. -/
theorem Orderly.holder_other (h : t.Orderly) (hij : j ≠ i)
    (hready : (amid c v).ready ({b | t.holder b = some i}, t.cells) (t.advance i).cells) :
    (t.advance i).holder b = some j ↔ t.holder b = some j := by
  rw [holder_advance]
  split
  · rfl
  · rename_i hchanged
    refine ⟨fun he => absurd he.2.symm hij, fun he => absurd ?_ hchanged⟩
    -- what another operation holds was locked, and this one does not release it
    have hlocked := (h.locked b).2 ⟨j, he⟩
    have hkept := hready b (fun hi => hij (Option.some.inj (he.symm.trans hi))) hlocked
    rw [hlocked, hkept]

/-- **One turn keeps the order.** -/
theorem Orderly.advance (h : t.Orderly) (hfree : t.awaited i = none) : (t.advance i).Orderly := by
  obtain ⟨hready, hgo⟩ := h.turn hfree
  refine ⟨fun b => ?_, fun j s hrests => ?_⟩
  · have hlocked := h.locked b
    simp only [holder_advance]
    split
    · rename_i hsame
      rw [hsame, hlocked]
    · exact ⟨fun hnow => ⟨i, hnow, rfl⟩, fun ⟨_, hnow, _⟩ => hnow⟩
  · by_cases hij : j = i
    · subst hij
      rw [h.holder_self] at hrests ⊢
      exact hgo _ s ⟨rfl, hrests.2⟩
    · have hsame : {b | (t.advance i).holder b = some j} = {b | t.holder b = some j} :=
        Set.ext fun b => h.holder_other hij hready
      have hleft : (t.advance i).left j = t.left j := if_neg hij
      rw [hsame] at hrests ⊢
      rw [hleft]
      exact h.goesOn j s hrests

/-- **The order holds after any turns.** -/
theorem Reachable.orderly {calls : ι → Call k v} {groups : ι → Group}
    (hsingle : ∀ i, (calls i).Single) (hfree : ∀ b, s.locks.isLocked b = false)
    (h : Reachable calls groups s t) : t.Orderly := by
  induction h with
  | start => exact orderly_start hsingle hfree
  | advance _ free ih => exact ih.advance free

end

/-- Among operations that wait for each other, one waits for a higher bucket than the next, and the
buckets come to an end. -/
theorem Orderly.not_deadlocked (h : t.Orderly) {S : Set ι} (hS : S.Nonempty) :
    ¬ t.Deadlocked S := by
  intro hdead
  have hclimb : ∀ n, ∀ i ∈ S, ∀ b, t.awaited i = some b → c.shape.count + 63 < b + n → False := by
    intro n
    induction n with
    | zero =>
      intro i _ b hb hlt
      have hcovers := Locks.covers_of_isLocked (h.of_awaited hb).1
      unfold Locks.covers at hcovers
      omega
    | succ n ih =>
      intro i hi b hb hlt
      obtain ⟨b', hb', j, hj, hheld⟩ := hdead i hi
      obtain rfl : b' = b := Option.some.inj (hb'.symm.trans hb)
      obtain ⟨b₁, hb₁, -⟩ := hdead j hj
      have habove := (h.of_awaited hb₁).2 b' hheld
      exact ih j hj b₁ hb₁ (by omega)
  obtain ⟨i, hi⟩ := hS
  obtain ⟨b, hb, -⟩ := hdead i hi
  exact hclimb (c.shape.count + 64) i hi b hb (by omega)

/-- **No deadlock.** However many operations run side by side, with whatever keys, and in whatever
order they take their turns: a lock that one of them waits for is held by one of them, and there are
no operations each of which waits for a lock that is held by one of them. -/
theorem Reachable.no_deadlock [DecidableEq ι] {calls : ι → Call k v} {groups : ι → Group}
    (hsingle : ∀ i, (calls i).Single) (hfree : ∀ b, s.locks.isLocked b = false)
    (h : Reachable calls groups s t) :
    (∀ i b, t.awaited i = some b → ∃ j, t.holder b = some j) ∧
      ∀ S : Set ι, S.Nonempty → ¬ t.Deadlocked S :=
  have hinv := h.orderly hsingle hfree
  ⟨fun _ b hb => (hinv.locked b).1 (hinv.of_awaited hb).1, fun _ hS => hinv.not_deadlocked hS⟩

/-- Two exchanges of the same pairs in opposite directions. -/
def crossing : Bool → Call .w16 .w16
  | true => .exchange 2#16 20#16 1#16 10#16 true
  | false => .exchange 1#16 10#16 2#16 20#16 true

/-- One of them has taken its first lock, and the other one waits for it. -/
theorem Reachable.no_deadlock_crossing :
    let group : Group := { width := 4, pos := by decide, le := by decide }
    let begun := Traffic.start (c := Table.small.config) crossing (fun _ => group) Table.small.cells
    let t := begun.advance true
    t.awaited false = some 0 ∧ t.holder 0 = some true ∧
      (∀ i b, t.awaited i = some b → ∃ j, t.holder b = some j) ∧
      ∀ S : Set Bool, S.Nonempty → ¬ t.Deadlocked S := by
  intro group begun t
  have hfresh : ∀ b, Table.small.cells.locks.isLocked b = false :=
    Table.reachable_small.quiet.unlocked
  have hfree : begun.awaited true = none := by decide +kernel
  have ht : Reachable crossing (fun _ => group) Table.small.cells t := .advance .start hfree
  have hsingle : ∀ i, (crossing i).Single := fun i => by cases i <;> trivial
  exact ⟨by decide +kernel, by decide +kernel, ht.no_deadlock hsingle hfresh⟩

end Traffic

end TwoChoice
