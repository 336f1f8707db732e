import TwoChoice.Proofs.Lost
import TwoChoice.Proofs.Probes

/-!
# The passes of a store

A store makes passes until one of them answers. `Scene.stretch` is its watched run with a bound on
the passes, and `Scene.Retried … n` says that the first `n` passes are lost, that the next one
answers, and that a larger bound changes nothing.

Since each lost pass sees an arrival, the arrivals during the call bound the lost passes, and the
store comes to an end: what the schedule has left shrinks with every pass that is lost. With nobody
else there the first pass answers, and it misses no slot (`Scene.Straight`).
-/

set_option autoImplicit false

namespace TwoChoice

variable {k v : Width}

open Config

namespace Scene

variable {c : Config k} {lanes : Lanes} {schedule : List (Intrusion k v)}

/-! ## One pass after the other -/

/-- A watched pass of a store. -/
def pass (lanes : Lanes) (schedule : List (Intrusion k v)) (key : Word k) (value : Word v)
    (replace : Bool) (x : Moment c v) : Except Halt (Option Stored) × Moment c v :=
  x.run lanes schedule (c.storePass { lanes with } key value replace)

/-- The moment after so many passes of a store. -/
def afterPasses (lanes : Lanes) (schedule : List (Intrusion k v)) (key : Word k) (value : Word v)
    (replace : Bool) (n : Nat) : Moment c v → Moment c v :=
  (fun x => (pass lanes schedule key value replace x).2)^[n]

/-- None of so many passes answers. -/
def Unanswered (lanes : Lanes) (schedule : List (Intrusion k v)) (key : Word k) (value : Word v)
    (replace : Bool) (x : Moment c v) (n : Nat) : Prop :=
  ∀ j < n, (pass lanes schedule key value replace
    (afterPasses lanes schedule key value replace j x)).1 = .ok none

/-- The pass after so many others answers. -/
def Answered (lanes : Lanes) (schedule : List (Intrusion k v)) (key : Word k) (value : Word v)
    (replace : Bool) (x : Moment c v) (n : Nat) (stored : Stored) : Prop :=
  (pass lanes schedule key value replace
    (afterPasses lanes schedule key value replace n x)).1 = .ok (some stored)

section
variable {key : Word k} {value : Word v} {replace : Bool} (bound : Nat) {m n : Nat} {x : Moment c v}

/-- A store runs out of passes if none of them answers. -/
theorem run_storePasses_starved (h : Unanswered lanes schedule key value replace x m) :
    x.run lanes schedule (c.storePasses { lanes with passes := bound } key value replace m) =
      (.error .starved, afterPasses lanes schedule key value replace m x) := by
  induction m generalizing x with
  | zero => rfl
  | succ m ih =>
    have hfirst : x.run lanes schedule
        (c.storePass { lanes with passes := bound } key value replace) =
          (.ok none, afterPasses lanes schedule key value replace 1 x) :=
      Prod.ext (h 0 (Nat.succ_pos m)) rfl
    rw [storePasses, Moment.run_bind, hfirst]
    exact ih fun j hj => h (j + 1) (Nat.succ_lt_succ hj)

/-- A store ends with the first pass that answers. -/
theorem run_storePasses_answered {stored : Stored}
    (h : Unanswered lanes schedule key value replace x n)
    (hend : Answered lanes schedule key value replace x n stored) (hlt : n < m) :
    x.run lanes schedule (c.storePasses { lanes with passes := bound } key value replace m) =
      (.ok stored, afterPasses lanes schedule key value replace (n + 1) x) := by
  induction n generalizing x m with
  | zero =>
    obtain ⟨m, rfl⟩ : ∃ m', m = m' + 1 := ⟨m - 1, by omega⟩
    have hfirst : x.run lanes schedule
        (c.storePass { lanes with passes := bound } key value replace) =
          (.ok (some stored), afterPasses lanes schedule key value replace 1 x) :=
      Prod.ext hend rfl
    rw [storePasses, Moment.run_bind, hfirst]
    rfl
  | succ n ih =>
    obtain ⟨m, rfl⟩ : ∃ m', m = m' + 1 := ⟨m - 1, by omega⟩
    have hfirst : x.run lanes schedule
        (c.storePass { lanes with passes := bound } key value replace) =
          (.ok none, afterPasses lanes schedule key value replace 1 x) :=
      Prod.ext (h 0 (Nat.succ_pos n)) rfl
    rw [storePasses, Moment.run_bind, hfirst]
    exact ih (fun j hj => h (j + 1) (Nat.succ_lt_succ hj)) hend (Nat.lt_of_succ_lt_succ hlt)

end

section
variable (lanes) (hbulk : ∀ i ∈ schedule, ¬ i.call.Bulk) {key : Word k} (hl : c.Live key)
variable (hapart : ∀ i ∈ schedule, key ∉ i.call.writes) (value : Word v) (replace : Bool)
variable {l : Locks c.shape.count} {x : Moment c v}

include hbulk hl hapart

/-- A pass among bystanders answers or is lost. -/
theorem pass_ends (hw : Recorded schedule (c.Sound ∅) x.1) (hs : c.Calm ∅ l x.2) :
    ∃ (answer : Option Stored) (y : Moment c v),
      pass lanes schedule key value replace x = (.ok answer, y) ∧
      (answer = none → Lost lanes schedule key value replace x y ∧
        Recorded schedule (c.Sound ∅) y.1 ∧ c.Calm ∅ l y.2) := by
  by_cases hp : ∃ p, x.2.key p = key
  · obtain ⟨p, hp⟩ := hp
    have hG : (bystanders c lanes schedule).Ground ∅ l key := ground_bystanders lanes hl hapart
    obtain ⟨answer, w, s, hrun, -, rfl, -⟩ := exec_bystanders lanes hbulk hw
      (storePass_present { lanes with } hG hs hp)
    exact ⟨_, (w, s), hrun, fun h => by cases h⟩
  · exact run_storePass_absent lanes hbulk hl hapart value replace hw hs fun p he => hp ⟨p, he⟩

/-- Among bystanders some passes are lost and the next one answers. What is left of the schedule is
the measure. -/
theorem passes_end : ∀ (d : Nat) {x : Moment c v},
    schedule.length - (intrusions x.1.2).length < d → Recorded schedule (c.Sound ∅) x.1 →
    c.Calm ∅ l x.2 → ∃ (n : Nat) (seen : List (Sight c v)),
      let after := afterPasses lanes schedule key value replace (v := v) (c := c)
      Unanswered lanes schedule key value replace x n ∧
      (∃ stored, Answered lanes schedule key value replace x n stored) ∧
      (∀ j < n, Lost lanes schedule key value replace (after j x) (after (j + 1) x)) ∧
      Between lanes schedule x seen (after n x) ∧ n ≤ arrivals c x.2 seen ∧
      Recorded schedule (c.Sound ∅) (after n x).1
  | 0, _, h, _, _ => absurd h (Nat.not_lt_zero _)
  | d + 1, x, h, hw, hs => by
    obtain ⟨answer, y, hpass, hlost⟩ := pass_ends lanes hbulk hl hapart value replace hw hs
    have hnext : ∀ j, afterPasses lanes schedule key value replace (j + 1) x =
        afterPasses lanes schedule key value replace j y := fun j =>
      congrArg (afterPasses lanes schedule key value replace j) (congrArg Prod.snd hpass)
    cases answer with
    | some stored =>
      have hnone : ∀ {p : Nat → Prop}, ∀ j < 0, p j := fun j hj => absurd hj (Nat.not_lt_zero j)
      exact ⟨0, [], hnone, ⟨stored, congrArg Prod.fst hpass⟩, hnone, .refl x, Nat.le_refl 0, hw⟩
    | none =>
      obtain ⟨hxy, hw', hs'⟩ := hlost rfl
      obtain ⟨seen, hseen, harrives⟩ := hxy.arrives
      -- the arrival is an intrusion that the schedule does not have left any more
      have hless : schedule.length - (intrusions y.1.2).length < d := by
        have hbound := hw'.length_le
        have hle := arrivals_le_intrusions x.2 seen
        rw [hseen.seen, intrusions_append, List.length_append] at hbound ⊢
        omega
      obtain ⟨n, seen', hall, ⟨stored, hend⟩, hreasons, hseen', hle, hw''⟩ :=
        passes_end d hless hw' hs'
      refine ⟨n + 1, seen ++ seen', fun j hj => ?_, ⟨stored, ?_⟩, fun j hj => ?_, ?_, ?_, ?_⟩
      · cases j with
        | zero => exact congrArg Prod.fst hpass
        | succ j =>
          rw [hnext]
          exact hall j (Nat.lt_of_succ_lt_succ hj)
      · rwa [Answered, hnext]
      · cases j with
        | zero => exact (hnext 0).symm ▸ hxy
        | succ j =>
          rw [hnext, hnext]
          exact hreasons j (Nat.lt_of_succ_lt_succ hj)
      · simpa only [hnext] using hseen.append hseen'
      · rw [hseen.follows.arrivals_append]
        omega
      · simpa only [hnext] using hw''

end

/-! ## With nobody else there -/

/-- A pass that looks at its buckets and then, if its ballots have free slots, claims one at the
first attempt: a placement announces a probe for each attempt. -/
inductive Straight (lanes : Lanes) (schedule : List (Intrusion k v)) (key : Word k) (value : Word v)
    (replace : Bool) (x : Moment c v) : Prop
  | intro {primary secondary : Census} {y z : Moment c v} {ended : Stored} {s' : Cells k v c.shape}
    (looked : Looked lanes schedule key value replace x primary y secondary z)
    (stored : ended = .inserted ↔ ¬ (primary.free = 0 ∧ secondary.free = 0))
    (attempt : (c.placeNew { lanes with } key value primary secondary).Pays z.2
      (if ended = .inserted then 1 else 0) (some ended) s') :
    Straight lanes schedule key value replace x

/-- Alone, a pass over an absent key misses no slot. -/
theorem straight (lanes : Lanes) {key : Word k} (hl : c.Live key) (value : Word v) (replace : Bool)
    {l : Locks c.shape.count} {x : Moment c v} (hw : Recorded [] (c.Sound ∅) x.1)
    (hs : c.Calm ∅ l x.2) (habs : x.2.Absent key) :
    Straight lanes [] key value replace x := by
  have hbulk : ∀ i ∈ ([] : List (Intrusion k v)), ¬ i.call.Bulk := by simp
  have hapart : ∀ i ∈ ([] : List (Intrusion k v)), key ∉ i.call.writes := by simp
  have hstay : (Company.alone c v).turn () x.2 () x.2 := rfl
  obtain ⟨⟨w, s⟩, _, hlook, hfirst, hw₁, hs₁, habs₁⟩ :=
    run_look lanes hbulk hl hapart value replace hw hs habs (c.candidates key).primary
  obtain rfl : s = x.2 := hfirst.follows.eq_of_nil
  by_cases hsame : (c.candidates key).secondary = (c.candidates key).primary
  · obtain ⟨ended, s', hstored, hpays⟩ :=
      pays_placeNew { lanes with } value hs.sound (.one hsame hstay)
    exact ⟨.one hsame hlook, hstored, hpays⟩
  · obtain ⟨⟨w', s'⟩, _, hlook', hsecond, -⟩ :=
      run_look lanes hbulk hl hapart value replace hw₁ hs₁ habs₁ (c.candidates key).secondary
    obtain rfl : s' = x.2 := hsecond.follows.eq_of_nil
    obtain ⟨ended, s', hstored, hpays⟩ :=
      pays_placeNew { lanes with } value hs.sound (.two hsame hstay hstay)
    exact ⟨.two hsame hlook hlook', hstored, hpays⟩

/-! ## The whole call -/

/-- The locks that an operation on the key takes. -/
def guards (c : Config k) (key : Word k) (locked : Bool) : List Nat :=
  if locked then [(c.candidates key).primary.val] else []

/-- A store takes its lock, makes its passes and releases the lock. -/
theorem store_phases {α : Type} {key : Word k} (g : Group) (value : Word v) (replace locked : Bool)
    (f : Stored → α) (hl : c.Live key) :
    f <$> c.store g key value replace locked = (do
      (guards c key locked).forM fun b => (Locks.lock g.toLanes b).zoom Cells.locksLens
      let result ← (c.storePasses g key value replace g.passes).attempt
      (guards c key locked).forM fun b => (Locks.unlock g.toLanes b).zoom Cells.locksLens
      f <$> Prog.ofExcept result) := by
  rw [store, Prog.require, if_pos (show c.reserved.isReserved key = false from hl)]
  show f <$> c.withLocks g.toLanes _ _ = _
  simp only [withLocks, Locks.withLocks, map_bind]
  rfl

/-- The moment before a call. -/
def opening (s : Cells k v c.shape) : Moment c v :=
  (({}, []), s)

/-- The lock is held when the passes begin. -/
theorem run_lock (lanes : Lanes) (hbulk : ∀ i ∈ schedule, ¬ i.call.Bulk) {s : Cells k v c.shape}
    (hs : c.Quiet s) (key : Word k) (locked : Bool) :
    ∃ x : Moment c v,
      (opening s).run lanes schedule ((guards c key locked).forM fun b =>
        (Locks.lock lanes b).zoom Cells.locksLens) = (.ok (), x) ∧
      Recorded schedule (c.Sound ∅) x.1 ∧ c.Calm ∅ (c.hold key locked s.locks) x.2 ∧
      Follows c lanes schedule (s.setLocks (c.hold key locked s.locks)) x.1.2 x.2 := by
  have hphase : ((guards c key locked).forM fun b =>
      (Locks.lock lanes b).zoom Cells.locksLens).Ensures (bystanders c lanes schedule).toWorld Never
      [] s fun _ seen s' => c.Calm ∅ (c.hold key locked s.locks) s' ∧
        Follows c lanes schedule (s.setLocks (c.hold key locked s.locks)) seen s' := by
    cases locked with
    | false =>
      refine ⟨⟨hs.sound, rfl⟩, ?_⟩
      show Follows c lanes schedule (s.setLocks s.locks) [] s
      rw [s.setLocks_self]
      exact .nil
    | true =>
      refine Prog.ensures_bind.2 (lock_ensures lanes (c.candidates key).primary.isLt (hs.unlocked _)
        (hs.sound.setLocks _) fun seen s' ht => ?_)
      refine ⟨Company.turn_calm ⟨hs.sound.setLocks _, rfl⟩ ht, ?_⟩
      obtain ⟨⟨new, rfl, hf, -⟩, -⟩ := ht
      exact hf
  obtain ⟨⟨⟩, w, s', hrun, hw, hcalm, hfollows⟩ := exec_bystanders lanes hbulk recorded_nil hphase
  exact ⟨(w, s'), hrun, hw, hcalm, hfollows⟩

/-- Runs a call under a schedule and watches it, with so many passes at most for a store. -/
def stretch (c : Config k) (lanes : Lanes) (schedule : List (Intrusion k v)) (call : Call k v)
    (s : Cells k v c.shape) (passes : Nat) : Except Halt (Reply k v) × Moment c v :=
  (opening s).run lanes schedule (call.run c { lanes with passes })

/-- How a store goes that is allowed more and more passes: it loses `n` of them, and the next one
answers. -/
structure Retried (c : Config k) (lanes : Lanes) (schedule : List (Intrusion k v))
    (call : Call k v) (key : Word k) (value : Word v) (replace : Bool) (s : Cells k v c.shape)
    (n : Nat) : Prop where
  starved : ∀ m ≤ n, (stretch c lanes schedule call s m).1 = .error .starved
  lost : ∀ m < n, Lost lanes schedule key value replace (stretch c lanes schedule call s m).2
    (stretch c lanes schedule call s (m + 1)).2
  answered : ∃ reply, (stretch c lanes schedule call s (n + 1)).1 = .ok reply
  settled : ∀ m, n < m → stretch c lanes schedule call s m = stretch c lanes schedule call s (n + 1)

theorem prefix_intrusions (is : List (Intrusion k v)) (w : Scene k v × List (Sight c v)) (s) :
    w.2 <+: (is.foldl (fun (w, s) i => watchIntrude c lanes w s i) (w, s)).1.2 := by
  induction is generalizing w s with
  | nil => exact List.prefix_rfl
  | cons i is ih => exact (List.prefix_append ..).trans (ih (watchIntrude c lanes w s i).1 _)

/-- What is seen later comes after what was seen. -/
theorem prefix_run {α : Type} (x : Moment c v) (p : Prog (Cells k v c.shape) α) :
    x.1.2 <+: (x.run lanes schedule p).2.1.2 := by
  obtain ⟨w, s⟩ := x
  rw [Moment.run]
  induction p generalizing w s with
  | done | halt => exact List.prefix_rfl
  | read q ih => exact ih s w s
  | write f p ih => exact ih w (f s)
  | emit e p ih => exact ih ((watchEnv c lanes schedule).note w e) s
  | sync p ih =>
    have hpause : w.2 <+: ((watchEnv c lanes schedule).pause w s).1.2 :=
      (List.prefix_append w.2 [.pause s]).trans (prefix_intrusions _ (_, w.2 ++ [.pause s]) s)
    exact hpause.trans (ih _ _)

section
variable {call : Call k v} {key : Word k} {value : Word v} {replace locked : Bool}
variable {reply : Stored → Reply k v} {s : Cells k v c.shape} {x : Moment c v} {m n : Nat}
variable (hrun : ∀ g, call.run c g = reply <$> c.store g key value replace locked)
variable (hl : c.Live key) (hlock : (opening s).run lanes schedule
  ((guards c key locked).forM fun b => (Locks.lock lanes b).zoom Cells.locksLens) = (.ok (), x))
include hrun hl hlock

/-- A call that is a store goes on like this when it has its lock. -/
theorem stretch_eq (m : Nat) : stretch c lanes schedule call s m = x.run lanes schedule (do
    let result ← (c.storePasses { lanes with passes := m } key value replace m).attempt
    (guards c key locked).forM fun b => (Locks.unlock lanes b).zoom Cells.locksLens
    reply <$> Prog.ofExcept result) := by
  rw [stretch, hrun, store_phases _ _ _ _ _ hl, Moment.run_bind, hlock]

theorem stretch_starved (h : Unanswered lanes schedule key value replace x m) :
    stretch c lanes schedule call s m =
      (.error .starved, afterPasses lanes schedule key value replace m x) := by
  rw [stretch_eq hrun hl hlock, Moment.run_bind, Moment.run_attempt, run_storePasses_starved m h]

theorem stretch_answered {stored : Stored} (h : Unanswered lanes schedule key value replace x n)
    (hend : Answered lanes schedule key value replace x n stored) (hlt : n < m) :
    stretch c lanes schedule call s m =
      (afterPasses lanes schedule key value replace (n + 1) x).run lanes schedule (do
        (guards c key locked).forM fun b => (Locks.unlock lanes b).zoom Cells.locksLens
        reply <$> Prog.ofExcept (.ok stored)) := by
  rw [stretch_eq hrun hl hlock, Moment.run_bind, Moment.run_attempt,
    run_storePasses_answered m h hend hlt]

end

/-- Among bystanders a store ends, and each pass that it loses costs the others an arrival. -/
theorem retried (lanes : Lanes) (hbulk : ∀ i ∈ schedule, ¬ i.call.Bulk) {call : Call k v}
    {key : Word k} {value : Word v} {replace : Bool} (hcall : call.StoresPair key value replace)
    (hl : c.Live key) (hapart : ∀ i ∈ schedule, key ∉ i.call.writes) {s : Cells k v c.shape}
    (hs : c.Quiet s) :
    ∃ n ≤ schedule.length, Retried c lanes schedule call key value replace s n ∧
      n ≤ arrivals c s (stretch c lanes schedule call s (n + 1)).2.1.2 ∧
      (schedule = [] → s.Absent key →
        Straight lanes schedule key value replace (stretch c lanes schedule call s 0).2) := by
  obtain ⟨locked, reply, -, hrun⟩ := hcall.run_eq hl
  obtain ⟨x, hlock, hrecorded, hcalm, hfollows⟩ := run_lock lanes hbulk hs key locked
  obtain ⟨n, seen, hall, ⟨stored, hend⟩, hreasons, hseen, hle, hrecorded'⟩ := passes_end lanes
    hbulk hl hapart value replace _ (Nat.lt_succ_self _) hrecorded hcalm
  have hstarved : ∀ m ≤ n, stretch c lanes schedule call s m =
      (.error .starved, afterPasses lanes schedule key value replace m x) := fun m hm =>
    stretch_starved hrun hl hlock fun j hj => hall j (Nat.lt_of_lt_of_le hj hm)
  have hanswered : ∀ m, n < m → stretch c lanes schedule call s m = _ := fun m hm =>
    stretch_answered hrun hl hlock hall hend hm
  have hn : n ≤ schedule.length := by
    have hfew := hle.trans (arrivals_le_intrusions x.2 seen)
    have hbound := hrecorded'.length_le
    rw [hseen.seen, intrusions_append, List.length_append] at hbound
    omega
  refine ⟨n, hn, ⟨fun m hm => congrArg Prod.fst (hstarved m hm), fun m hm => ?_, ?_, fun m hm =>
    (hanswered m hm).trans (hanswered _ (Nat.lt_succ_self n)).symm⟩, ?_, ?_⟩
  · rw [hstarved m (Nat.le_of_lt hm), hstarved (m + 1) hm]
    exact hreasons m hm
  · -- so many passes are enough, and they end as `n + 1` of them do
    have hanswer : (call.run c { lanes with passes := schedule.length + 1 }).Ensures
        (bystanders c lanes schedule).toWorld Never [] s fun _ _ _ => True := by
      rw [hrun]
      exact Prog.ensures_map.2 (store_ensures _ (ground_bystanders lanes hl hapart) hs.sound
        (fun _ => hs.unlocked _) (Nat.lt_succ_of_le (Nat.sub_le ..)) fun _ _ _ _ => trivial)
    obtain ⟨answer, w, s', hexec, -⟩ := exec_bystanders lanes hbulk recorded_nil hanswer
    rw [hanswered _ (Nat.lt_succ_self n), ← hanswered _ (Nat.lt_succ_of_le hn)]
    exact ⟨answer, congrArg Prod.fst hexec⟩
  · -- what was seen up to the answer is a part of what is seen of the whole call
    have hlast : (afterPasses lanes schedule key value replace n x).1.2 <+:
        (stretch c lanes schedule call s (n + 1)).2.1.2 := by
      rw [hanswered _ (Nat.lt_succ_self n), afterPasses, afterPasses, Function.iterate_succ_apply']
      exact (prefix_run _ _).trans (prefix_run _ _)
    obtain ⟨rest, hrest⟩ := hlast
    rw [← hrest, ← arrivals_setLocks s (c.hold key locked s.locks), hseen.seen]
    refine Nat.le_trans ?_ (arrivals_le_append _ _ _)
    rw [hfollows.arrivals_append]
    exact hle.trans (Nat.le_add_left ..)
  · rintro rfl habs
    rw [hstarved 0 (Nat.zero_le n)]
    have hlocked : x.2 = s.setLocks (c.hold key locked s.locks) := hfollows.eq_of_nil
    have habs' : x.2.Absent key := fun p => by
      rw [hlocked]
      exact habs p
    exact straight lanes hl value replace hrecorded hcalm habs'

end Scene

namespace Table

open Scene

/-- **A store ends, and it repeats only what others spoilt.** While calls on single keys interfere
that leave its key alone, the store loses some passes and the next one answers, however many it is
allowed. Each lost pass found free slots, and all of them were claimed before it could, so the others
added more entries than it lost passes, or as many. With nobody else there no pass is lost, and a
free slot is claimed at the first attempt: the probes are those of a search for the key, and one more
if the key is a new one that gets a slot. -/
theorem Reachable.store_passes {t : Table k v} (h : t.Reachable) (lanes : Lanes) {call : Call k v}
    {key : Word k} {value : Word v} {replace : Bool} (hcall : call.StoresPair key value replace)
    (hl : t.config.Live key) {schedule : List (Intrusion k v)}
    (hsimple : ∀ i ∈ schedule, ¬ i.call.Bulk ∧ key ∉ i.call.writes) :
    let after := t.handle lanes schedule (.call call)
    ∃ n, Retried t.config lanes schedule call key value replace t.cells n ∧
      watch t.config lanes schedule call t.cells =
        stretch t.config lanes schedule call t.cells (n + 1) ∧
      (∃ reply, after.1.outcome = .ok (some reply)) ∧
      n ≤ arrivals t.config t.cells (sights t.config lanes schedule call t.cells) ∧
      (schedule = [] → n = 0 ∧
        (t.cells.Absent key → Straight lanes schedule key value replace
          (stretch t.config lanes schedule call t.cells 0).2) ∧
        t.probes lanes call =
          t.probes lanes (.find key) + (if t.size < after.2.size then 1 else 0) ∧
        (t.counting = true → after.1.probes = UInt64.ofNat (t.probes lanes call))) := by
  intro after
  obtain ⟨n, hn, hretried, hle, hstraight⟩ := retried lanes (fun i hi => (hsimple i hi).1) hcall hl
    (fun i hi => (hsimple i hi).2) h.quiet
  have hwatch : watch t.config lanes schedule call t.cells =
      stretch t.config lanes schedule call t.cells (n + 1) :=
    hretried.settled (schedule.length + 1) (Nat.lt_succ_of_le hn)
  refine ⟨n, hretried, hwatch, ?_, ?_, ?_⟩
  · obtain ⟨reply, hreply⟩ := hretried.answered
    refine ⟨reply, ?_⟩
    rw [handle_outcome, hwatch, hreply]
    rfl
  · rw [sights, hwatch]
    exact hle
  · rintro rfl
    exact ⟨Nat.le_zero.1 hn, hstraight rfl, h.store_probes lanes hcall hl, handle_probes t lanes call⟩

/-- The last free slot is claimed by another store after it was scanned, and the next pass finds the
slot of a key that was removed meanwhile. Alone, the store gets that last slot. -/
theorem Reachable.store_passes_raced :
    let lanes : Lanes := ⟨4, by decide, by decide⟩
    let call : Call .w16 .w16 := .upsert 2 9 true
    let schedule := [⟨3, .upsert 7 7 true⟩, ⟨3, .erase 11 true⟩]
    let after := nearlyFull.handle lanes schedule (.call call)
    Retried nearlyFull.config lanes schedule call 2 9 true nearlyFull.cells 1 ∧
      arrivals nearlyFull.config nearlyFull.cells
        (sights nearlyFull.config lanes schedule call nearlyFull.cells) = 1 ∧
      (∃ reply, after.1.outcome = .ok (some reply)) ∧ after.2.size = nearlyFull.size + 1 ∧
      Straight lanes [] 2 9 true
        (stretch nearlyFull.config lanes [] call nearlyFull.cells 0).2 := by
  intro lanes call schedule after
  have hlive : nearlyFull.config.Live 2 := by decide +kernel
  have hsimple : ∀ i ∈ schedule, ¬ i.call.Bulk ∧ 2 ∉ i.call.writes := by
    intro i hi
    simp only [schedule, List.mem_cons, List.not_mem_nil, or_false] at hi
    rcases hi with rfl | rfl
    · exact ⟨fun h => h, by decide⟩
    · exact ⟨fun h => h, by decide⟩
  have hstores : call.StoresPair 2 9 true := .upsert 2 9 true
  obtain ⟨n, hretried, -, houtcome, hle, -⟩ :=
    reachable_nearlyFull.store_passes lanes hstores hlive hsimple
  have harrivals : arrivals nearlyFull.config nearlyFull.cells
      (sights nearlyFull.config lanes schedule call nearlyFull.cells) = 1 := by decide +kernel
  have hlost : (stretch nearlyFull.config lanes schedule call nearlyFull.cells 1).1.toBool = false := by
    decide +kernel
  obtain rfl : n = 1 := by
    refine Nat.le_antisymm (harrivals ▸ hle) (Nat.pos_of_ne_zero ?_)
    rintro rfl
    obtain ⟨reply, hreply⟩ := hretried.answered
    rw [hreply] at hlost
    cases hlost
  have habs : nearlyFull.cells.Absent 2 := by
    have hall : ∀ b i, nearlyFull.cells.key ⟨b, i⟩ ≠ 2 := by decide +kernel
    exact fun p => hall p.bucket p.index
  have hnobody : ∀ i ∈ ([] : List (Intrusion .w16 .w16)), ¬ i.call.Bulk ∧ 2 ∉ i.call.writes := by
    simp
  obtain ⟨_, -, -, -, -, halone⟩ := reachable_nearlyFull.store_passes lanes hstores hlive hnobody
  exact ⟨hretried, harrivals, houtcome, by decide +kernel, (halone rfl).2.1 habs⟩

end Table

end TwoChoice
