import TwoChoice.Proofs.Reachable
import TwoChoice.Proofs.Spells

/-!
# Locks under a schedule

What others see of the locks of a call. `Scene.paced` is the world of a call under a schedule, with
no assumption about the keys or the table: each of its turns is the next pause. In it the spells of
a program are times in which the same buckets are locked (`Scene.Under`), and an intrusion that
needs one of them is refused. A call on one key makes one such time, and an exchange of two keys
with different primary buckets makes three (`Scene.Phased`). In the end every lock is as it was
(`Table.Reachable.locks_kept`).
-/

set_option autoImplicit false

namespace TwoChoice

variable {k v : Width} {c : Config k}

/-- These are the buckets that are locked. -/
def Cells.OnlyLocked {sh : Shape} (s : Cells k v sh) (held : List Nat) : Prop :=
  ∀ b, s.locks.isLocked b = true ↔ b ∈ held

/-- Where no bucket was locked, the locked ones are those that were taken. -/
theorem Cells.onlyLocked_of_acquired {sh : Shape} {s : Cells k v sh} {l : Locks sh.count}
    {held : List Nat} (hfree : ∀ b, l.isLocked b = false) (hheld : ∀ b ∈ held, b < sh.count)
    (hs : s.locks = held.foldl Locks.acquire l) : s.OnlyLocked held := by
  intro b
  rw [hs, Locks.isLocked_foldl (fun b hb => Locks.covers_of_lt (hheld b hb)), hfree b]
  simp

namespace Scene

variable (c) (lanes : Lanes) (schedule : List (Intrusion k v))

/-- What is seen of intrusions that come one after the other, and the table after them. -/
def carry : List (Intrusion k v) → Cells k v c.shape → List (Sight c v) × Cells k v c.shape
  | [], s => ([], s)
  | i :: is, s =>
    let after := i.effect c lanes s
    (.intrusion i after.1 after.2 :: (carry is after.2).1, (carry is after.2).2)

/-- The world of a call under a schedule. What is remembered of the pauses is their number and what
was seen. -/
def paced : World (Nat × List (Sight c v)) (Cells k v c.shape) where
  ready _ _ := True
  turn r s r' s' :=
    let carried := carry c lanes (schedule.filter (·.moment == r.1 + 1)) s
    r' = (r.1 + 1, r.2 ++ .pause s :: carried.1) ∧ s' = carried.2

variable {c lanes schedule}

/-! ## The world of a schedule -/

/-- **No intrusion leaves a bucket locked**, or releases a lock of somebody else. -/
theorem effect_locks (i : Intrusion k v) (s : Cells k v c.shape) :
    (i.effect c lanes s).2.locks = s.locks := by
  rw [Intrusion.effect]
  cases hf : (i.call.locks c).find? fun b => s.locks.isLocked b.val with
  | some b => rfl
  | none =>
    exact Call.solo_locks Nat.zero_lt_one i.call fun b hb => by
      simpa using List.find?_eq_none.1 hf b hb

theorem carry_locks (is : List (Intrusion k v)) (s : Cells k v c.shape) :
    (carry c lanes is s).2.locks = s.locks := by
  induction is generalizing s with
  | nil => rfl
  | cons i is ih => exact (ih _).trans (effect_locks i s)

/-- Each turn that changes the table leaves fewer intrusions to come. -/
theorem tame_paced : (paced c lanes schedule).Tame fun r =>
    schedule.countP fun i => r.1 < i.moment where
  ready _ _ := trivial
  locks := by
    intro r s r' s' ht
    rw [ht.2]
    exact carry_locks _ s
  spent := by
    intro r s r' s' ht
    obtain ⟨rfl, rfl⟩ := ht
    have hsplit : (schedule.countP fun i => r.1 < i.moment) =
        (schedule.countP fun i => r.1 + 1 < i.moment) +
          schedule.countP fun i => i.moment == r.1 + 1 := by
      clear * -
      induction schedule with
      | nil => rfl
      | cons i is ih =>
        simp only [List.countP_cons, ih, decide_eq_true_eq, beq_iff_eq]
        split <;> split <;> split <;> omega
    rw [hsplit, List.countP_eq_length_filter (p := fun i : Intrusion k v => i.moment == r.1 + 1)]
    cases schedule.filter fun i => i.moment == r.1 + 1 with
    | nil => exact .inl ⟨rfl, Nat.le_refl _⟩
    | cons => exact .inr (by simp)

theorem left_paced_lt (r : Nat × List (Sight c v)) :
    (schedule.countP fun i => r.1 < i.moment) < schedule.length + 1 :=
  Nat.lt_succ_of_le List.countP_le_length

/-- **What a call ensures in the world of its schedule holds of its watched run.** -/
theorem watch_paced {call : Call k v} {s : Cells k v c.shape}
    {E : Halt → Nat × List (Sight c v) → Cells k v c.shape → Prop}
    {Q : Reply k v → Nat × List (Sight c v) → Cells k v c.shape → Prop}
    (h : (call.run c { lanes with passes := schedule.length + 1 }).Ensures
      (paced c lanes schedule) E (0, []) s Q) :
    let ended := watch c lanes schedule call s
    ∃ n, match ended.1 with
      | .ok reply => Q reply (n, sights c lanes schedule call s) ended.2.2
      | .error x => E x (n, sights c lanes schedule call s) ended.2.2 := by
  intro ended
  have hfold : ∀ (is : List (Intrusion k v)) (w : Scene k v × List (Sight c v)) s,
      let after := is.foldl (fun x i => watchIntrude c lanes x.1 x.2 i) (w, s)
      after.1.1.pauses = w.1.pauses ∧ after.1.2 = w.2 ++ (carry c lanes is s).1 ∧
        after.2 = (carry c lanes is s).2 := by
    intro is
    induction is with
    | nil => exact fun w s => ⟨rfl, (List.append_nil _).symm, rfl⟩
    | cons i is ih =>
      intro w s
      obtain ⟨-, hpauses, hcells⟩ := intrude_eq lanes w.1 s i
      obtain ⟨h1, h2, h3⟩ := ih (watchIntrude c lanes w s i).1 (watchIntrude c lanes w s i).2
      refine ⟨h1.trans hpauses, ?_, ?_⟩
      · refine h2.trans ?_
        simp only [watchIntrude, carry, hcells, List.append_assoc, List.singleton_append]
      · refine h3.trans ?_
        simp only [watchIntrude, carry, hcells]
  have hpause : ∀ (w : Scene k v × List (Sight c v)) (r : Nat × List (Sight c v)) s,
      (w.1.pauses, w.2) = r → (paced c lanes schedule).ready r s →
      ∃ r', (paced c lanes schedule).turn r s r' ((watchEnv c lanes schedule).pause w s).2 ∧
        (((watchEnv c lanes schedule).pause w s).1.1.pauses,
          ((watchEnv c lanes schedule).pause w s).1.2) = r' := by
    rintro w _ s rfl -
    obtain ⟨h1, h2, h3⟩ := hfold (schedule.filter (·.moment == w.1.pauses + 1))
      ({ w.1 with pauses := w.1.pauses + 1, trace := w.1.trace.push .pause }, w.2 ++ [.pause s]) s
    refine ⟨_, ⟨rfl, h3⟩, ?_⟩
    rw [List.append_cons]
    exact Prod.ext h1 h2
  obtain ⟨r, hr, hend⟩ := Prog.Ensures.exec (V := watchEnv c lanes schedule)
    (R := fun w r => (w.1.pauses, w.2) = r) (fun w r e hr => by cases e <;> exact hr) hpause h
    (r := ({}, [])) rfl
  subst hr
  refine ⟨ended.2.1.1.pauses, ?_⟩
  have hended : ended = (call.run c { lanes with passes := schedule.length + 1 }).exec
    (watchEnv c lanes schedule) ({}, []) s := rfl
  rw [← hended] at hend
  have hseen : sights c lanes schedule call s = ended.2.1.2 := rfl
  rw [hseen]
  clear hseen
  clear_value ended
  obtain ⟨outcome, w, s'⟩ := ended
  cases outcome with
  | ok => exact hend
  | error => exact hend

/-! ## What is seen of the locks -/

/-- Sights of a time in which these buckets are locked. An intrusion that needs one of them is
refused, and then the table stays as it is. -/
inductive Under (c : Config k) (held : List Nat) : List (Sight c v) → Prop
  | nil : Under c held []
  | pause {seen s} (before : Under c held seen) (locked : s.OnlyLocked held) :
    Under c held (seen ++ [.pause s])
  | refused {seen x i b} (before : Under c held (seen ++ [x])) (lock : b ∈ i.call.locks c)
    (taken : b.val ∈ held) :
    Under c held (seen ++ [x] ++ [.intrusion i (.error (.waiting b.val)) x.cells])
  | carried {seen x i outcome s} (before : Under c held (seen ++ [x]))
    (free : ∀ b ∈ i.call.locks c, b.val ∉ held) (locked : s.OnlyLocked held) :
    Under c held (seen ++ [x] ++ [.intrusion i outcome s])

/-- The pauses among some sights. -/
def pausesOf (seen : List (Sight c v)) : Nat := seen.countP fun x => x.intruded?.isNone

/-- Sights of a program that needs one or two locks: one pause with the first one alone, a time with
all of them, and one pause with the last one alone. -/
inductive Phased (c : Config k) : List Nat → List (Sight c v) → Prop
  | one {b seen} (under : Under c [b] seen) : Phased c [b] seen
  | two {b b' before during after} (first : Under c [b] before) (taken : pausesOf before = 1)
    (both : Under c [b, b'] during) (last : Under c [b'] after) (released : pausesOf after = 1) :
    Phased c [b, b'] (before ++ during ++ after)

variable {held : List Nat} {l : Locks c.shape.count} {r r' : Nat × List (Sight c v)}
variable {s s' : Cells k v c.shape}

theorem Under.carry {seen : List (Sight c v)} {x : Sight c v} (is : List (Intrusion k v))
    (h : Under c held (seen ++ [x])) (hlocked : x.cells.OnlyLocked held) :
    Under c held (seen ++ [x] ++ (carry c lanes is x.cells).1) := by
  induction is generalizing seen x with
  | nil => rwa [Scene.carry, List.append_nil]
  | cons i is ih =>
    have hlocked' : (i.effect c lanes x.cells).2.OnlyLocked held := fun b => by
      rw [effect_locks]
      exact hlocked b
    have hnext : Under c held (seen ++ [x] ++
        [.intrusion i (i.effect c lanes x.cells).1 (i.effect c lanes x.cells).2]) := by
      rw [Intrusion.effect] at hlocked' ⊢
      cases hf : (i.call.locks c).find? fun b => x.cells.locks.isLocked b.val with
      | some b =>
        have hb := List.find?_some (p := fun b : Fin _ => x.cells.locks.isLocked b.val) hf
        exact .refused h (List.mem_of_find?_eq_some hf) ((hlocked _).1 hb)
      | none =>
        rw [hf] at hlocked'
        refine .carried h (fun b hb hin => ?_) hlocked'
        exact List.find?_eq_none.1 hf b hb ((hlocked _).2 hin)
    rw [Scene.carry, List.append_cons]
    exact ih hnext hlocked'

/-- A turn adds one pause to the sights. -/
theorem under_turn {seen : List (Sight c v)} (h : Under c held seen) (hlocked : s.OnlyLocked held)
    (ht : (paced c lanes schedule).turn r s r' s') :
    ∃ new, r'.2 = r.2 ++ new ∧ pausesOf new = 1 ∧ Under c held (seen ++ new) := by
  obtain ⟨rfl, -⟩ := ht
  refine ⟨_, rfl, ?_, ?_⟩
  · have hnone : ∀ (is : List (Intrusion k v)) s, pausesOf (Scene.carry c lanes is s).1 = 0 := by
      intro is
      induction is with
      | nil => exact fun _ => rfl
      | cons i is ih => exact fun s => ih _
    rw [pausesOf, List.countP_cons, ← pausesOf, hnone]
    rfl
  · rw [List.append_cons]
    exact (h.pause hlocked).carry _ hlocked

theorem under_spell (hheld : ∀ s : Cells k v c.shape, s.locks = l → s.OnlyLocked held)
    (h : (paced c lanes schedule).Spell l r r') :
    ∃ new, r'.2 = r.2 ++ new ∧ Under c held new := by
  induction h with
  | refl => exact ⟨[], (List.append_nil _).symm, .nil⟩
  | tail _ locks last ih =>
    obtain ⟨new, hnew, hunder⟩ := ih
    obtain ⟨new', hnew', -, hunder'⟩ := under_turn hunder (hheld _ locks) last
    exact ⟨new ++ new', by rw [hnew', hnew, List.append_assoc], hunder'⟩

theorem phased_phases (hfree : ∀ b, l.isLocked b = false) (hheld : ∀ b ∈ held, b < c.shape.count)
    (h : (paced c lanes schedule).Phases l r r' held) :
    ∃ new, r'.2 = r.2 ++ new ∧ Phased c held new := by
  have honly : ∀ taken : List Nat, (∀ b ∈ taken, b ∈ held) → ∀ s : Cells k v c.shape,
      s.locks = taken.foldl Locks.acquire l → s.OnlyLocked taken := fun taken hsub _ =>
    Cells.onlyLocked_of_acquired hfree fun b hb => hheld b (hsub b hb)
  cases h with
  | @one b spell =>
    obtain ⟨new, hnew, hunder⟩ := under_spell (honly [b] fun _ hb => hb) spell
    exact ⟨new, hnew, .one hunder⟩
  | @two b b' _ _ _ _ _ _ first taken spell last released =>
    have hfirst := honly [b] (fun _ hb => List.mem_cons.2 (.inl (List.mem_singleton.1 hb))) _ first
    have hlast := honly [b'] (fun _ hb => List.mem_cons_of_mem _ hb) _ last
    obtain ⟨before, hbefore, hone, hunder⟩ := under_turn .nil hfirst taken
    obtain ⟨during, hduring, hboth⟩ := under_spell (honly [b, b'] fun _ hb => hb) spell
    obtain ⟨after, hafter, hone', hunder'⟩ := under_turn .nil hlast released
    refine ⟨before ++ during ++ after, ?_, .two hunder hone hboth hunder' hone'⟩
    rw [hafter, hduring, hbefore, List.append_assoc, List.append_assoc, List.append_assoc]

/-! ## Calls -/

theorem onlyLocked_hold {key : Word k} {unlocked : Bool} (hfree : ∀ b, l.isLocked b = false)
    (hs : s.locks = c.hold key (!unlocked) l) :
    s.OnlyLocked (if unlocked then [] else [(c.candidates key).primary.val]) := by
  refine Cells.onlyLocked_of_acquired hfree (fun b hb => ?_) (hs.trans ?_)
  · cases unlocked with
    | true => cases hb
    | false => exact List.mem_singleton.1 hb ▸ Fin.isLt _
  · cases unlocked <;> rfl

section
variable (lanes schedule) (hfree : ∀ b, s.locks.isLocked b = false)
include hfree

theorem watch_locks (call : Call k v) :
    (watch c lanes schedule call s).2.2.locks = s.locks ∧
      ∀ h, (watch c lanes schedule call s).1 = .error h → ∃ f, h = .fault f := by
  obtain ⟨_, hend⟩ := watch_paced (Call.run_locks (r := (0, []))
    (g := { lanes with passes := schedule.length + 1 }) tame_paced left_paced_lt call rfl
    fun b _ => hfree b)
  split at hend <;> rename_i heq <;> rw [heq]
  · exact ⟨hend, nofun⟩
  · rename_i h
    cases h with
    | fault f => exact ⟨hend, fun _ he => ⟨f, (Except.error.inj he).symm⟩⟩
    | waiting b =>
      have hlocked := hend.2
      rw [hfree b] at hlocked
      cases hlocked
    | starved => exact hend.elim

/-- While a call writes one key, its primary bucket is locked and no other. -/
theorem under_sights {call : Call k v} {key : Word k} (hcall : call.Updates key) :
    Under c (if call.unlocked then [] else [(c.candidates key).primary.val])
      (sights c lanes schedule call s) := by
  have hspell : ∀ {n seen},
      (paced c lanes schedule).Spell (c.hold key (!call.unlocked) s.locks) (0, []) (n, seen) →
      Under c (if call.unlocked then [] else [(c.candidates key).primary.val]) seen := by
    intro n seen hspell
    obtain ⟨new, hnew, hunder⟩ := under_spell (fun _ hs' => onlyLocked_hold hfree hs') hspell
    have hseen : seen = new := hnew
    exact hseen ▸ hunder
  obtain ⟨_, hend⟩ := watch_paced (Call.update_spell (r := (0, []))
    (g := { lanes with passes := schedule.length + 1 }) tame_paced left_paced_lt hcall rfl)
  split at hend
  · exact hspell hend.1
  · rename_i h heq
    cases h with
    | fault => exact hspell hend.1
    | waiting b =>
      have hlocked := hend.2
      rw [hfree b] at hlocked
      cases hlocked
    | starved => exact hend.elim

theorem phased_sights (key : Word k) (value : Word v) (oldKey : Word k) (oldValue : Word v)
    (update : Bool) :
    let seen := sights c lanes schedule (.exchange key value oldKey oldValue update) s
    if c.reserved.isReserved key = true then seen = []
    else Phased c (Locks.order (c.candidates key).primary (c.candidates oldKey).primary) seen := by
  intro seen
  have htame : (paced c lanes schedule).Tame _ := tame_paced
  have hexchange := Config.exchange_phases (r := (0, [])) htame
    { lanes with passes := schedule.length + 1 } key value oldKey oldValue update rfl
    (hfree _) (hfree _)
  have hrun : ((Call.exchange key value oldKey oldValue update).run c
      { lanes with passes := schedule.length + 1 }).Ensures (paced c lanes schedule) _ (0, []) s
      fun _ r' _ => c.reserved.isReserved key = false ∧ (paced c lanes schedule).Phases s.locks
        (0, []) r' (Locks.order (c.candidates key).primary (c.candidates oldKey).primary) :=
    Prog.ensures_map.2 (hexchange.mono fun _ _ _ h => ⟨h.1, h.2.1⟩)
  obtain ⟨_, hend⟩ := watch_paced hrun
  split at hend
  · obtain ⟨hlive, hphases⟩ := hend
    have htaken : ∀ b ∈ Locks.order (c.candidates key).primary.val
        (c.candidates oldKey).primary.val, b < c.shape.count := by
      intro b hb
      rw [Locks.order] at hb
      split at hb
      · simp at hb; omega
      · split at hb <;> simp at hb <;> omega
    obtain ⟨new, hnew, hphased⟩ := phased_phases hfree htaken hphases
    have hseen : seen = new := hnew
    rw [if_neg (by simp [hlive]), hseen]
    exact hphased
  · obtain ⟨-, hreserved, hseen, -⟩ := hend
    rw [if_pos hreserved]
    exact congrArg Prod.snd hseen

end

end Scene

namespace Table

open Scene Config

/-- **Every lock is as it was in the end**, by whatever way a call ends and whatever its keys are,
and no call waits for ever. A call that writes one key has exactly the primary bucket of the key
locked at each of its pauses, and an unlocked one has none. An exchange takes the primary buckets of
both keys in ascending order, and a shared one once; both are locked from the last acquisition to
the first release. While a bucket is locked, intrusions that need its lock are refused. -/
theorem Reachable.locks_kept {t : Table k v} (h : t.Reachable) (lanes : Lanes)
    (schedule : List (Intrusion k v)) (call : Call k v) :
    let c := t.config
    let ended := t.handle lanes schedule (.call call)
    let seen := sights c lanes schedule call t.cells
    ended.2.cells.locks = t.cells.locks ∧
    (∀ x, ended.1.outcome = .error x → ∃ f, x = .fault f) ∧
    (∀ key, call.Updates key →
      Under c (if call.unlocked then [] else [(c.candidates key).primary.val]) seen) ∧
    ∀ key value oldKey oldValue update, call = .exchange key value oldKey oldValue update →
      if c.reserved.isReserved key = true then seen = []
      else Phased c (Locks.order (c.candidates key).primary (c.candidates oldKey).primary) seen := by
  intro c ended seen
  have hfree := h.quiet.unlocked
  have hrun := watch_eq_run lanes schedule call t.cells
  have houtcome : ended.1.outcome = (watch c lanes schedule call t.cells).1.map some := by
    show (Scene.run c lanes call schedule t.cells).1.map some = _
    rw [hrun]
  have hcells : ended.2.cells = (watch c lanes schedule call t.cells).2.2 := by
    show (Scene.run c lanes call schedule t.cells).2.2 = _
    rw [hrun]
  obtain ⟨hlocks, hfault⟩ := watch_locks lanes schedule hfree call
  refine ⟨hcells ▸ hlocks, fun x hx => ?_, fun key => under_sights lanes schedule hfree, ?_⟩
  · rw [houtcome] at hx
    cases hw : (watch c lanes schedule call t.cells).1 with
    | ok => rw [hw] at hx; cases hx
    | error x' =>
      rw [hw] at hx
      exact hfault x (hw.trans (congrArg _ (Except.error.inj hx)))
  · rintro key value oldKey oldValue update rfl
    exact phased_sights lanes schedule hfree key value oldKey oldValue update

/-- An exchange that a removal of its key interrupts when the first lock is taken. -/
theorem Reachable.locks_kept_exchange :
    let seen := sights small.config ⟨4, by decide, by decide⟩ [⟨1, .erase 5 true⟩]
      (.exchange 5 1 6 2 true) small.cells
    small.config.reserved.isReserved 5 = false ∧ Phased small.config (Locks.order
      (small.config.candidates 5).primary (small.config.candidates 6).primary) seen := by
  intro seen
  have hlive : small.config.reserved.isReserved 5 = false := by decide +kernel
  have hkept := reachable_small.locks_kept ⟨4, by decide, by decide⟩ [⟨1, .erase 5 true⟩]
    (.exchange 5 1 6 2 true)
  dsimp only at hkept
  have hphased := hkept.2.2.2 _ _ _ _ _ rfl
  rw [if_neg (by rw [hlive]; simp)] at hphased
  exact ⟨hlive, hphased⟩

end Table

end TwoChoice
