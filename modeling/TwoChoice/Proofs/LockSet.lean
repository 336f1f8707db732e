import TwoChoice.Proofs.Matches

/-!
# A history of locks

`Guarded.Leads past s`: a new lock table was used as `past` says, which answered as `past` says, and
`s` is what became of it. Only buckets of the table are asked for, nobody has to wait for a lock, a
guard is dropped once, and the table is cleared when no guard is left. Then a bucket is locked if
and only if it was acquired and neither released nor cleared since (`Guarded.Standing`).

One operation changes one bucket at most (`Guarded.Op.exists_does`), which keeps the guards in step
with the locks (`Guarded.Op.Does.sane`) and the locks in step with the history
(`Guarded.Op.Does.isLocked_iff`).
-/

set_option autoImplicit false

namespace TwoChoice

open Prog

namespace Locks

variable {n : Nat} {t t' : Locks n} {b : Nat}

/-! ## One bucket -/

/-- The bucket is as it is told, and all others are as they were, also those that share a word with
it and those past the end of the table. -/
structure SetsOnly (t : Locks n) (b : Nat) (now : Bool) (t' : Locks n) : Prop where
  self : t'.isLocked b = now
  others : ∀ a, a ≠ b → t'.isLocked a = t.isLocked a

theorem setsOnly_acquire (t : Locks n) (hb : covers n b) : t.SetsOnly b true (t.acquire b) := by
  constructor
  · simp [isLocked_acquire t hb]
  · intro a ha
    simp [isLocked_acquire t hb, Ne.symm ha]

theorem setsOnly_release (t : Locks n) (hb : covers n b) : t.SetsOnly b false (t.release b) := by
  constructor
  · simp [isLocked_release t hb]
  · intro a ha
    simp [isLocked_release t hb, Ne.symm ha]

theorem SetsOnly.isLocked_eq {now : Bool} (h : t.SetsOnly b now t') (a : Nat) :
    t'.isLocked a = if b = a then now else t.isLocked a := by
  split
  · next hab => exact hab ▸ h.self
  · next hab => exact h.others a (Ne.symm hab)

theorem SetsOnly.locked_iff (h : t.SetsOnly b true t') (a : Nat) :
    t'.isLocked a = true ↔ b = a ∨ t.isLocked a = true := by
  rw [h.isLocked_eq]
  by_cases hab : b = a <;> simp [hab]

theorem SetsOnly.unlocked_iff (h : t.SetsOnly b false t') (a : Nat) :
    t'.isLocked a = true ↔ t.isLocked a = true ∧ ¬ b = a := by
  rw [h.isLocked_eq]
  by_cases hab : b = a <;> simp [hab]

section
variable (g : Lanes)

theorem pays_lock (hb : covers n b) (hfree : t.isLocked b = false) :
    (lock g b).Pays t 0 () (t.acquire b) :=
  .of_ensures (silent_lock g b t) ((yields_take g hb hfree).ensures_bind
    (ensures_pause.2 ⟨trivial, fun _ _ h => ⟨rfl, h⟩⟩))

theorem pays_unlock (hb : covers n b) (hheld : t.isLocked b = true) :
    (unlock g b).Pays t 0 () (t.release b) := by
  refine .of_ensures (silent_unlock g b t) (ensures_bind.2 (ensures_pause.2 ⟨trivial, ?_⟩))
  rintro u s' rfl
  exact (yields_give g hb hheld).ensures ⟨rfl, rfl⟩

end

namespace Guarded

/-- What can be done to a lock table. -/
inductive Op where
  | tryLock (bucket : Nat)
  | lock (g : Lanes) (bucket : Nat)
  | drop (g : Lanes) (bucket : Nat)
  | clear (g : Lanes)

/-- Every guard is the only one for its bucket, and that is locked. -/
structure Sane (s : Guarded n) : Prop where
  nodup : s.guards.Nodup
  held : ∀ b ∈ s.guards, b < n ∧ s.table.isLocked b = true

/-- One more lock leaves what the guards are for locked. -/
theorem Sane.still_held {s : Guarded n} (hs : s.Sane) (h : s.table.SetsOnly b true t') {a : Nat}
    (ha : a ∈ s.guards) : a < n ∧ t'.isLocked a = true := by
  obtain ⟨hlt, hheld⟩ := hs.held a ha
  exact ⟨hlt, (h.locked_iff a).2 (.inr hheld)⟩

namespace Op

/-- The program of an operation. One that has nothing to answer says yes. -/
def prog : Op → Prog (Guarded n) Bool
  | tryLock b => (Locks.tryLock b).zoom tableLens
  | lock g b => do
    Guarded.lock g b
    return true
  | drop g b => Guarded.drop g b
  | clear g => do
    Guarded.clear g
    return true

/-- The bucket is one of the table and nobody has to wait for it, a guard is there to be dropped,
and there is none when the table is cleared. -/
def Fair (s : Guarded n) : Op → Prop
  | tryLock b => b < n
  | lock _ b => b < n ∧ s.table.isLocked b = false
  | drop _ b => b ∈ s.guards
  | clear _ => s.guards = []

/-- What an operation answers and does. -/
inductive Does (s : Guarded n) : Op → Bool → Guarded n → Prop
  /-- The lock was free. It has no guard. -/
  | taken {b : Nat} {s' : Guarded n} (free : s.table.isLocked b = false)
    (locks : s.table.SetsOnly b true s'.table) (guards : s'.guards = s.guards) :
    Does s (tryLock b) true s'
  /-- The lock was not free, and nothing changes. -/
  | refused {b : Nat} (held : s.table.isLocked b = true) : Does s (tryLock b) false s
  | locked {g : Lanes} {b : Nat} {s' : Guarded n} (locks : s.table.SetsOnly b true s'.table)
    (guards : s'.guards = s.guards ++ [b]) : Does s (lock g b) true s'
  | dropped {g : Lanes} {b : Nat} {s' : Guarded n} (held : s.table.isLocked b = true)
    (locks : s.table.SetsOnly b false s'.table) (guards : s'.guards = s.guards.erase b) :
    Does s (drop g b) true s'
  | cleared {g : Lanes} {s' : Guarded n} (locks : ∀ b, s'.table.isLocked b = false)
    (guards : s'.guards = []) : Does s (clear g) true s'

/-- The operation acquires the bucket. -/
def Acquires (b : Nat) : Op × Bool → Prop
  | (tryLock a, answer) => a = b ∧ answer = true
  | (lock _ a, _) => a = b
  | _ => False

/-- The operation releases the bucket, or all of them. -/
def Frees (b : Nat) : Op × Bool → Prop
  | (drop _ a, _) => a = b
  | (clear _, _) => True
  | _ => False

variable {s s' : Guarded n} {op : Op} {answer : Bool}

/-! ## One operation -/

theorem runs_tryLock {b : Nat} (hb : b < n) : ∃ answer s',
    (tryLock b).prog.Runs s 0 answer s' ∧ (tryLock b).Does s answer s' := by
  have hcovers := covers_of_lt hb
  have htry : (Locks.tryLock b).Pays (tableLens.get s) 0 _ _ :=
    (yields_tryLock s.table hcovers).pays (silent_tryLock b)
  cases hlocked : s.table.isLocked b with
  | true =>
    rw [hlocked] at htry
    exact ⟨_, _, htry.zoom_same.runs, .refused hlocked⟩
  | false =>
    rw [hlocked] at htry
    exact ⟨_, _, htry.zoom.runs, .taken hlocked (setsOnly_acquire s.table hcovers) rfl⟩

theorem runs_lock (g : Lanes) {b : Nat} (hb : b < n) (hfree : s.table.isLocked b = false) :
    ∃ s', (lock g b).prog.Runs s 0 true s' ∧ (lock g b).Does s true s' := by
  have hcovers := covers_of_lt hb
  have hlock := (pays_lock g hcovers hfree).zoom (l := tableLens) (s := s)
  have hguard : (Guarded.lock g b).Pays s 0 () _ := hlock.bind (n := 0) ⟨rfl, rfl⟩
  exact ⟨_, (hguard.bind (n := 0) (pays_pure true _)).runs,
    .locked (setsOnly_acquire s.table hcovers) rfl⟩

theorem runs_drop (g : Lanes) {b : Nat} (hs : s.Sane) (hb : b ∈ s.guards) :
    ∃ s', (drop g b).prog.Runs s 0 true s' ∧ (drop g b).Does s true s' := by
  obtain ⟨hlt, hheld⟩ := hs.held b hb
  have hcovers := covers_of_lt hlt
  let s₁ : Guarded n := { s with guards := s.guards.erase b }
  let s₂ : Guarded n := { s₁ with table := s.table.release b }
  have hread : (gets (·.guards) : Prog (Guarded n) (List Nat)).Pays s 0 s.guards s := ⟨rfl, rfl⟩
  have herase : (Prog.modify fun s => { s with guards := s.guards.erase b }).Pays s 0 () s₁ :=
    ⟨rfl, rfl⟩
  have hunlock : ((unlock g b).zoom tableLens).Pays s₁ 0 () s₂ :=
    Pays.zoom (pays_unlock g hcovers hheld)
  refine ⟨s₂, (hread.bind (n := 0) ?_).runs,
    .dropped hheld (setsOnly_release s.table hcovers) rfl⟩
  rw [if_pos (List.contains_iff_mem.2 hb)]
  exact herase.bind (n := 0) (hunlock.bind (n := 0) (pays_pure true _))

theorem runs_clear (g : Lanes) (hs : s.guards = []) :
    ∃ s', (clear g).prog.Runs s 0 true s' ∧ (clear g).Does s true s' := by
  have hread : (gets (·.guards) : Prog (Guarded n) (List Nat)).Pays s 0 s.guards s := ⟨rfl, rfl⟩
  rw [hs] at hread
  have hclear : (Guarded.clear g).Pays s 0 () { s with table := s.table.clear } :=
    hread.bind (n := 0) ⟨rfl, rfl⟩
  refine ⟨{ s with table := s.table.clear }, (hclear.bind (n := 0) (pays_pure true _)).runs,
    .cleared (fun b => ?_) hs⟩
  rw [clear_eq_fresh, isLocked_fresh]

/-- An operation that is fair runs to its end. -/
theorem exists_does (hs : s.Sane) (hop : op.Fair s) :
    ∃ answer s', op.prog.Runs s 0 answer s' ∧ op.Does s answer s' := by
  cases op with
  | tryLock b => exact runs_tryLock hop
  | lock g b => exact ⟨true, runs_lock g hop.1 hop.2⟩
  | drop g b => exact ⟨true, runs_drop g hs hop⟩
  | clear g => exact ⟨true, runs_clear g hop⟩

namespace Does

theorem isLocked_iff (h : op.Does s answer s') (b : Nat) :
    s'.table.isLocked b = true ↔
      Acquires b (op, answer) ∨ s.table.isLocked b = true ∧ ¬ Frees b (op, answer) := by
  cases h with
  | taken free locks guards => simp [locks.locked_iff, Acquires, Frees]
  | refused held => simp [Acquires, Frees]
  | locked locks guards => simp [locks.locked_iff, Acquires, Frees]
  | dropped held locks guards => simp [locks.unlocked_iff, Acquires, Frees]
  | cleared locks guards => simp [locks, Acquires, Frees]

theorem sane (h : op.Does s answer s') (hs : s.Sane) (hop : op.Fair s) : s'.Sane := by
  cases h with
  | taken free locks guards =>
    exact ⟨guards ▸ hs.nodup, fun a ha => hs.still_held locks (guards ▸ ha)⟩
  | refused held => exact hs
  | @locked g b s' locks guards =>
    obtain ⟨hb, hfree⟩ := hop
    have hnew : b ∉ s.guards := by
      intro hmem
      simp [(hs.held b hmem).2] at hfree
    constructor
    · rw [guards]
      exact List.nodup_append'.2 ⟨hs.nodup, List.nodup_singleton b, by simpa using hnew⟩
    · intro a ha
      rw [guards, List.mem_append, List.mem_singleton] at ha
      rcases ha with ha | rfl
      · exact hs.still_held locks ha
      · exact ⟨hb, locks.self⟩
  | @dropped g b s' held locks guards =>
    refine ⟨guards ▸ hs.nodup.erase b, fun a ha => ?_⟩
    rw [guards, hs.nodup.mem_erase_iff] at ha
    obtain ⟨hlt, hheld⟩ := hs.held a ha.2
    exact ⟨hlt, (locks.unlocked_iff a).2 ⟨hheld, Ne.symm ha.1⟩⟩
  | cleared locks guards => exact ⟨by simp [guards], by simp [guards]⟩

end Does

end Op

/-! ## A history -/

open Op

/-- The bucket was acquired and not freed since, neither alone nor with all others. -/
def Standing (b : Nat) (past : List (Op × Bool)) : Prop :=
  ∃ before mark after, past = before ++ mark :: after ∧ Acquires b mark ∧ ∀ m ∈ after, ¬ Frees b m

theorem standing_snoc {b : Nat} {past : List (Op × Bool)} {last : Op × Bool} :
    Standing b (past ++ [last]) ↔ Acquires b last ∨ Standing b past ∧ ¬ Frees b last := by
  constructor
  · rintro ⟨before, mark, after, heq, hmark, hafter⟩
    -- the acquisition is the last step or comes before it
    rcases after.eq_nil_or_concat' with rfl | ⟨after, m, rfl⟩
    · obtain ⟨-, hlast⟩ := List.append_inj' heq rfl
      obtain rfl : last = mark := List.singleton_inj.1 hlast
      exact .inl hmark
    · rw [← List.cons_append, ← List.append_assoc] at heq
      obtain ⟨rfl, hlast⟩ := List.append_inj' heq rfl
      obtain rfl : last = m := List.singleton_inj.1 hlast
      exact .inr ⟨⟨before, mark, after, rfl, hmark, fun x hx => hafter x (by simp [hx])⟩,
        hafter last (by simp)⟩
  · rintro (hlast | ⟨⟨before, mark, after, rfl, hmark, hafter⟩, hfree⟩)
    · exact ⟨past, last, [], rfl, hlast, by simp⟩
    · refine ⟨before, mark, after ++ [last], by simp, hmark, fun m hm => ?_⟩
      rcases List.mem_append.1 hm with hm | hm
      · exact hafter m hm
      · rwa [List.mem_singleton.1 hm]

/-- The history of a lock table from the time that it was new, and the state that it leads to. -/
inductive Leads : List (Op × Bool) → Guarded n → Prop
  | new : Leads [] {}
  | step {past : List (Op × Bool)} {s s' : Guarded n} {op : Op} {answer : Bool}
    (before : Leads past s) (runs : op.prog.Runs s 0 answer s') (fair : op.Fair s) :
    Leads (past ++ [(op, answer)]) s'

variable {s : Guarded n} {past : List (Op × Bool)}

theorem sane_new : ({} : Guarded n).Sane :=
  ⟨List.nodup_nil, fun _ hb => absurd hb List.not_mem_nil⟩

/-- Guards, locks and history agree at every time. -/
theorem Leads.agrees (h : Leads past s) :
    s.Sane ∧ ∀ b, s.table.isLocked b = true ↔ Standing b past := by
  induction h with
  | new => exact ⟨sane_new, fun b => by simp [isLocked_fresh, Standing]⟩
  | step before runs fair ih =>
    obtain ⟨hsane, hstanding⟩ := ih
    obtain ⟨_, _, hruns, hdoes⟩ := exists_does hsane fair
    obtain ⟨rfl, rfl⟩ := hruns.unique runs
    refine ⟨hdoes.sane hsane fair, fun b => ?_⟩
    rw [hdoes.isLocked_iff, hstanding, standing_snoc]

/-- **The lock table is a set of buckets.** After every history a bucket is locked if and only if it
was acquired and neither released nor cleared since, and a look at it says so. Its word is one of
those of the table. What a guard is for is locked. Every operation that is fair then runs to its
end: an attempt to lock succeeds if and only if the bucket is not locked, and if it fails nothing
changes; a lock, and a guard that is dropped, change the one bucket and no other, and after a
clearing no bucket is locked. -/
theorem Leads.set_of_buckets (h : Leads past s) :
    (∀ b, s.table.isLocked b = true ↔ Standing b past) ∧
    (∀ b < n, b / 64 < (n + 63) / 64 ∧
      ((check b).zoom tableLens).Runs s 0 (s.table.isLocked b) s) ∧
    (∀ b ∈ s.guards, b < n ∧ s.table.isLocked b = true) ∧
    ∀ op : Op, op.Fair s → ∃ answer s', op.prog.Runs s 0 answer s' ∧ op.Does s answer s' := by
  obtain ⟨hsane, hstanding⟩ := h.agrees
  refine ⟨hstanding, fun b hb => ⟨covers_of_lt hb, ?_⟩, hsane.held, fun op hop =>
    exists_does hsane hop⟩
  have hcheck := (yields_check s.table (covers_of_lt hb)).pays (silent_check b)
  exact hcheck.zoom_same.runs

/-- Of two locks in different words, one is dropped. -/
def oneDropped (g : Lanes) : List (Op × Bool) :=
  [(.lock g 129, true), (.tryLock 129, false), (.tryLock 65, true), (.drop g 129, true)]

/-- A table of 130 buckets with these words. -/
def inWords (words : Vector UInt64 3) (guards : List Nat) : Guarded 130 := ⟨⟨words⟩, guards⟩

theorem Leads.set_of_buckets_one_dropped :
    Leads (oneDropped Table.fourLanes) (inWords #v[0, 2, 0] []) ∧
      Standing 65 (oneDropped Table.fourLanes) ∧ ¬ Standing 129 (oneDropped Table.fourLanes) := by
  have hlock : (Op.lock Table.fourLanes 129).prog.Runs {} 0 true (inWords #v[0, 0, 2] [129]) :=
    Pays.runs ⟨rfl, rfl⟩
  have hrefused : (Op.tryLock 129).prog.Runs (inWords #v[0, 0, 2] [129]) 0 false
      (inWords #v[0, 0, 2] [129]) := Pays.runs ⟨rfl, rfl⟩
  have htaken : (Op.tryLock 65).prog.Runs (inWords #v[0, 0, 2] [129]) 0 true
      (inWords #v[0, 2, 2] [129]) := Pays.runs ⟨rfl, rfl⟩
  have hdrop : (Op.drop Table.fourLanes 129).prog.Runs (inWords #v[0, 2, 2] [129]) 0 true
      (inWords #v[0, 2, 0] []) := Pays.runs ⟨rfl, rfl⟩
  have h₁ := Leads.new.step hlock ⟨by decide, by decide⟩
  have h₃ := (h₁.step hrefused (show 129 < 130 by decide)).step htaken (show 65 < 130 by decide)
  have h : Leads (oneDropped Table.fourLanes) (inWords #v[0, 2, 0] []) :=
    h₃.step hdrop (List.mem_singleton_self 129)
  obtain ⟨hstanding, -⟩ := h.set_of_buckets
  exact ⟨h, (hstanding 65).1 (by decide), fun h129 => absurd ((hstanding 129).2 h129) (by decide)⟩

end Guarded

end Locks

end TwoChoice
