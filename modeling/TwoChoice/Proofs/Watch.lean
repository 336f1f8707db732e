import TwoChoice.Schedule
import TwoChoice.Proofs.Alone

/-!
# Watching a call

`Scene.watch` runs a call under a schedule and writes down the whole table at each of its pauses and
after each intrusion; otherwise it is `Scene.run` (`watch_eq_run`). The sights of a run follow from
each other (`Follows`): nothing happens between them but the intrusions, and each intrusion is
refused or carried out alone.

`Scene.crowd` is the company of a call under a schedule. What the program of the call ensures in
that company holds of the watched run (`watch_ensures`).
-/

set_option autoImplicit false

namespace TwoChoice

variable {k v : Width}

/-- With an observer that sees more, a program runs in the same way. -/
theorem Prog.exec_map {ρ ρ' σ α : Type} (f : ρ → ρ') (V : Env ρ σ) (V' : Env ρ' σ)
    (hnote : ∀ r e, f (V.note r e) = V'.note (f r) e)
    (hpause : ∀ r s, (f (V.pause r s).1, (V.pause r s).2) = V'.pause (f r) s)
    (p : Prog σ α) (r : ρ) (s : σ) :
    p.exec V' (f r) s = ((p.exec V r s).1, f (p.exec V r s).2.1, (p.exec V r s).2.2) := by
  induction p generalizing r s with
  | done | halt => rfl
  | read q ih => exact ih s r s
  | write g p ih => exact ih r (g s)
  | emit e p ih =>
    rw [exec, exec, ← hnote]
    exact ih (V.note r e) s
  | sync p ih =>
    rw [exec, exec, ← hpause]
    exact ih _ _

/-- What an intrusion comes to on a table: it is refused if a bucket that it must lock is locked. -/
def Intrusion.effect (c : Config k) (lanes : Lanes) (i : Intrusion k v) (s : Cells k v c.shape) :
    Except Halt (Reply k v) × Cells k v c.shape :=
  match (i.call.locks c).find? fun b => s.locks.isLocked b.val with
  | some b => (.error (.waiting b.val), s)
  | none => (i.call.run c { lanes with }).solo s

/-- What is seen of a call: the table at a pause, and the table after an intrusion. -/
inductive Sight (c : Config k) (v : Width) where
  | pause (cells : Cells k v c.shape)
  | intrusion (i : Intrusion k v) (outcome : Except Halt (Reply k v)) (cells : Cells k v c.shape)

namespace Sight

variable {c : Config k}

/-- The table that is seen. -/
def cells : Sight c v → Cells k v c.shape
  | .pause cells => cells
  | .intrusion _ _ cells => cells

/-- The intrusion and its outcome, if it is one. -/
def intruded? : Sight c v → Option (Intrusion k v × Except Halt (Reply k v))
  | .pause _ => none
  | .intrusion i outcome _ => some (i, outcome)

end Sight

namespace Scene

variable (c : Config k) (lanes : Lanes) (schedule : List (Intrusion k v))

/-- The intrusions of some sights, with their outcomes. -/
def intrusions {c : Config k} (seen : List (Sight c v)) :
    List (Intrusion k v × Except Halt (Reply k v)) :=
  seen.filterMap Sight.intruded?

/-- The intrusions whose turn has come after so many pauses, in order. -/
def due : Nat → List (Intrusion k v)
  | 0 => []
  | n + 1 => due n ++ schedule.filter (·.moment == n + 1)

/-- An intrusion that is watched. -/
def watchIntrude (w : Scene k v × List (Sight c v)) (s : Cells k v c.shape) (i : Intrusion k v) :
    (Scene k v × List (Sight c v)) × Cells k v c.shape :=
  let after := w.1.intrude c lanes s i
  ((after.1, w.2 ++ [.intrusion i (i.effect c lanes s).1 after.2]), after.2)

/-- The surroundings of a call under a schedule, watched. -/
def watchEnv : Prog.Env (Scene k v × List (Sight c v)) (Cells k v c.shape) where
  note w e := (w.1.note e, w.2)
  pause w s :=
    let moment := w.1.pauses + 1
    (schedule.filter (·.moment == moment)).foldl (fun (w, s) i => watchIntrude c lanes w s i)
      (({ w.1 with pauses := moment, trace := w.1.trace.push .pause }, w.2 ++ [.pause s]), s)

/-- Runs a call under a schedule and watches it. -/
def watch (call : Call k v) (s : Cells k v c.shape) :
    Except Halt (Reply k v) × (Scene k v × List (Sight c v)) × Cells k v c.shape :=
  let group : Group := { lanes with passes := schedule.length + 1 }
  (call.run c group).exec (watchEnv c lanes schedule) ({}, []) s

/-- What is seen of a call under a schedule, in order. -/
def sights (call : Call k v) (s : Cells k v c.shape) : List (Sight c v) :=
  (watch c lanes schedule call s).2.1.2

variable {c schedule}

/-- Watching a call does not change it. -/
theorem watch_eq_run (schedule : List (Intrusion k v)) (call : Call k v) (s : Cells k v c.shape) :
    run c lanes call schedule s =
      ((watch c lanes schedule call s).1, (watch c lanes schedule call s).2.1.1,
        (watch c lanes schedule call s).2.2) := by
  have hfold : ∀ (is : List (Intrusion k v)) (w : Scene k v × List (Sight c v)) (s),
      is.foldl (fun x i => intrude c lanes x.1 x.2 i) (w.1, s) =
        ((is.foldl (fun x i => watchIntrude c lanes x.1 x.2 i) (w, s)).1.1,
          (is.foldl (fun x i => watchIntrude c lanes x.1 x.2 i) (w, s)).2) := by
    intro is
    induction is with
    | nil => intro w s; rfl
    | cons i is ih => intro w s; exact ih (watchIntrude c lanes w s i).1 _
  exact Prog.exec_map Prod.fst (watchEnv c lanes schedule) (env c lanes schedule)
    (fun _ _ => rfl) (fun w s => (hfold _ _ s).symm) _ ({}, []) s

/-- What the scene holds after an intrusion. -/
theorem intrude_eq (sc : Scene k v) (s : Cells k v c.shape) (i : Intrusion k v) :
    (sc.intrude c lanes s i).1.intruded = sc.intruded.push ⟨i.moment, (i.effect c lanes s).1⟩ ∧
      (sc.intrude c lanes s i).1.pauses = sc.pauses ∧
      (sc.intrude c lanes s i).2 = (i.effect c lanes s).2 := by
  rw [intrude, Intrusion.effect]
  cases (i.call.locks c).find? fun b => s.locks.isLocked b.val with
  | some b => exact ⟨rfl, rfl, rfl⟩
  | none =>
    obtain ⟨h1, h2⟩ := Prog.exec_solo (V := Tally.alone _) (fun _ _ => rfl)
      (i.call.run c { lanes with }) sc.tally s
    exact ⟨congrArg (fun o => sc.intruded.push ⟨i.moment, o⟩) h1, rfl, h2⟩

/-! ## What intrusions do -/

theorem effect_deeds {T : Set (Place c.shape)} {s : Cells k v c.shape} {i : Intrusion k v}
    (hs : c.Sound T s) (hlive : ∀ key ∈ i.call.writes, c.Live key) :
    c.Deeds (i.call.may c s.locks) s (i.effect c lanes s).2 := by
  rw [Intrusion.effect]
  cases hf : (i.call.locks c).find? fun b => s.locks.isLocked b.val with
  | some b => exact .refl
  | none =>
    refine Call.solo_deeds i.call Nat.zero_lt_one hlive hs fun b hb => ?_
    simpa using List.find?_eq_none.1 hf b hb

/-- An intrusion on a single key is refused, or it does one deed at most and answers what it
means. -/
theorem effect_single {T : Set (Place c.shape)} {s : Cells k v c.shape} {i : Intrusion k v}
    (hs : c.Sound T s) (hsingle : i.call.Single) (hkeys : ∀ key ∈ i.call.keys, c.Live key) :
    (∃ b ∈ i.call.locks c, s.locks.isLocked b.val = true ∧
      i.effect c lanes s = (.error (.waiting b.val), s)) ∨
    ∃ reply, (i.effect c lanes s).1 = .ok reply ∧
      Config.Acts (i.call.may c s.locks) s (i.effect c lanes s).2 ∧
      c.Serves (T = ∅) i.call (c.contents s) reply (c.contents (i.effect c lanes s).2) := by
  rw [Intrusion.effect]
  cases hf : (i.call.locks c).find? fun b => s.locks.isLocked b.val with
  | some b =>
    have hlocked := List.find?_some (p := fun b : Fin c.shape.count => s.locks.isLocked b.val) hf
    exact .inl ⟨b, List.mem_of_find?_eq_some hf, hlocked, rfl⟩
  | none =>
    right
    have hrun := (Call.run_alone (g := { lanes with }) (E := fun _ _ _ => False) hsingle
      Nat.zero_lt_one hs hkeys fun b hb => by simpa using List.find?_eq_none.1 hf b hb).solo
    split at hrun
    · rename_i reply s' heq
      rw [heq]
      exact ⟨reply, rfl, hrun⟩
    · exact hrun.elim

variable {lanes}

/-- The sights follow from each other, from a table to a table. -/
inductive Follows (c : Config k) (lanes : Lanes) (schedule : List (Intrusion k v)) :
    Cells k v c.shape → List (Sight c v) → Cells k v c.shape → Prop
  | nil {s} : Follows c lanes schedule s [] s
  | pause {s rest s'} (tail : Follows c lanes schedule s rest s') :
    Follows c lanes schedule s (.pause s :: rest) s'
  | intrusion {T s i rest s'} (mem : i ∈ schedule) (sound : c.Sound T s)
    (tail : Follows c lanes schedule (i.effect c lanes s).2 rest s') :
    Follows c lanes schedule s
      (.intrusion i (i.effect c lanes s).1 (i.effect c lanes s).2 :: rest) s'

/-- The keys that the intrusions of a schedule may store or remove while these are the locks. -/
def may (c : Config k) (schedule : List (Intrusion k v)) (l : Locks c.shape.count)
    (key : Word k) : Prop :=
  ∃ i ∈ schedule, i.call.may c l key

namespace Follows

variable {s s' s'' : Cells k v c.shape} {seen seen' : List (Sight c v)}

theorem append (h : Follows c lanes schedule s seen s')
    (h' : Follows c lanes schedule s' seen' s'') :
    Follows c lanes schedule s (seen ++ seen') s'' := by
  induction h with
  | nil => exact h'
  | pause _ ih => exact .pause (ih h')
  | intrusion mem sound _ ih => exact .intrusion mem sound (ih h')

theorem deeds (h : Follows c lanes schedule s seen s')
    (hlive : ∀ i ∈ schedule, ∀ key ∈ i.call.writes, c.Live key) :
    c.Deeds (may c schedule s.locks) s s' := by
  induction h with
  | nil => exact .refl
  | pause _ ih => exact ih
  | @intrusion _ s i _ _ mem sound _ ih =>
    have hd := effect_deeds lanes sound (hlive i mem)
    rw [Config.Deeds.locks hd] at ih
    exact (Config.Deeds.mono hd fun key h => ⟨i, mem, h⟩).trans ih

/-- Without an intrusion nothing changes. -/
theorem eq_of_intrusions_eq_nil (h : Follows c lanes schedule s seen s')
    (hnil : intrusions seen = []) : s' = s := by
  induction h with
  | nil => rfl
  | pause _ ih => exact ih hnil
  | intrusion => cases hnil

theorem eq_of_nil (h : Follows c lanes [] s seen s') : s' = s := by
  induction h with
  | nil => rfl
  | pause _ ih => exact ih
  | intrusion mem => cases mem

/-- The table at the end is the last one that was seen. -/
theorem mem_cells (h : Follows c lanes schedule s seen s') : s' ∈ s :: seen.map Sight.cells := by
  induction h with
  | nil => exact List.mem_singleton_self _
  | pause _ ih =>
    rcases List.mem_cons.1 ih with rfl | hm
    · exact List.mem_cons_self ..
    · exact List.mem_cons_of_mem _ (List.mem_cons_of_mem _ hm)
  | intrusion _ _ _ ih => exact List.mem_cons_of_mem _ ih

end Follows

/-! ## The company of a call under a schedule -/

theorem intrusions_append (seen seen' : List (Sight c v)) :
    intrusions (seen ++ seen') = intrusions seen ++ intrusions seen' :=
  List.filterMap_append

/-- What may have happened when a call goes on: some sights more, as the schedule has them. -/
def Onward (c : Config k) (lanes : Lanes) (schedule : List (Intrusion k v)) (seen : List (Sight c v))
    (s : Cells k v c.shape) (seen' : List (Sight c v)) (s' : Cells k v c.shape) : Prop :=
  ∃ new, seen' = seen ++ new ∧ Follows c lanes schedule s new s' ∧
    (intrusions seen').length ≤ max (intrusions seen).length schedule.length

namespace Onward

variable {seen seen' seen'' : List (Sight c v)} {s s' s'' : Cells k v c.shape}

theorem refl (seen : List (Sight c v)) (s : Cells k v c.shape) :
    Onward c lanes schedule seen s seen s :=
  ⟨[], (List.append_nil seen).symm, .nil, Nat.le_max_left ..⟩

theorem trans (h : Onward c lanes schedule seen s seen' s')
    (h' : Onward c lanes schedule seen' s' seen'' s'') :
    Onward c lanes schedule seen s seen'' s'' := by
  obtain ⟨new, rfl, hf, hle⟩ := h
  obtain ⟨new', rfl, hf', hle'⟩ := h'
  exact ⟨new ++ new', List.append_assoc .., hf.append hf', by omega⟩

/-- The table is as it was, or there are fewer intrusions to come. -/
theorem spent (h : Onward c lanes schedule seen s seen' s') :
    s' = s ∧ schedule.length - (intrusions seen').length ≤
        schedule.length - (intrusions seen).length ∨
      schedule.length - (intrusions seen').length < schedule.length - (intrusions seen).length := by
  obtain ⟨new, rfl, hf, hle⟩ := h
  rw [intrusions_append, List.length_append] at hle ⊢
  cases hnew : intrusions new with
  | nil => exact .inl ⟨hf.eq_of_intrusions_eq_nil hnew, by simp⟩
  | cons =>
    rw [hnew] at hle
    simp only [List.length_cons] at hle ⊢
    right
    omega

end Onward

/-- The company of a call under a schedule. What is remembered of the pauses is what was seen. -/
def crowd (c : Config k) (lanes : Lanes) (schedule : List (Intrusion k v))
    (hlive : ∀ i ∈ schedule, ∀ key ∈ i.call.writes, c.Live key)
    (fine : Cells k v c.shape → Prop) : Company c v (List (Sight c v)) where
  ready _ s := fine s
  turn seen s seen' s' := ∃ new, seen' = seen ++ new ∧ Follows c lanes schedule s new s' ∧
    (intrusions seen').length ≤ max (intrusions seen).length schedule.length
  may := may c schedule
  left seen := schedule.length - (intrusions seen).length
  refl := Onward.refl
  trans := Onward.trans
  deeds := by
    intro r s r' s' ht
    obtain ⟨new, -, h, -⟩ := ht
    exact h.deeds hlive
  spent := Onward.spent

/-- What a call owes to the others at a pause: the table is sound but for slots in transit, and the
others keep it so. -/
structure Keeps (c : Config k) (schedule : List (Intrusion k v))
    (fine : Cells k v c.shape → Prop) : Prop where
  sound : ∀ s, fine s → ∃ T, c.Sound T s
  deeds : ∀ s s', fine s → c.Deeds (may c schedule s.locks) s s' → fine s'

/-- What the intrusions find at a pause is sound but for slots in transit, and they keep it fine. -/
structure Steady (c : Config k) (lanes : Lanes) (schedule : List (Intrusion k v))
    (fine : Cells k v c.shape → Prop) : Prop where
  sound : ∀ s, fine s → ∃ T, c.Sound T s
  effect : ∀ i ∈ schedule, ∀ s, fine s → fine (i.effect c lanes s).2

/-- The scene and what was seen belong together. -/
structure Recorded {c : Config k} (schedule : List (Intrusion k v))
    (fine : Cells k v c.shape → Prop) (w : Scene k v × List (Sight c v)) : Prop where
  fine : ∀ x ∈ w.2, fine x.cells
  intruded : w.1.intruded.toList = (intrusions w.2).map fun x => ⟨x.1.moment, x.2⟩
  due : (intrusions w.2).map Prod.fst = due schedule w.1.pauses

variable {fine : Cells k v c.shape → Prop}

theorem Keeps.steady (lanes : Lanes) (hlive : ∀ i ∈ schedule, ∀ key ∈ i.call.writes, c.Live key)
    (h : Keeps c schedule fine) : Steady c lanes schedule fine := by
  refine ⟨h.sound, fun i hi s hs => ?_⟩
  obtain ⟨T, hsound⟩ := h.sound s hs
  exact h.deeds s _ hs (Config.Deeds.mono (effect_deeds lanes hsound (hlive i hi))
    fun key hk => ⟨i, hi, hk⟩)

theorem length_due (n : Nat) :
    (due schedule n).length = schedule.countP fun i => decide (0 < i.moment ∧ i.moment ≤ n) := by
  induction n with
  | zero =>
    rw [due, List.length_nil, eq_comm, List.countP_eq_zero]
    intro i _
    simp
    omega
  | succ n ih =>
    rw [due, List.length_append, ← List.countP_eq_length_filter, ih]
    clear ih
    induction schedule with
    | nil => rfl
    | cons i rest ih =>
      rw [List.countP_cons, List.countP_cons, List.countP_cons, ← ih]
      by_cases h : i.moment = n + 1
      · simp only [h, beq_self_eq_true, if_true]
        simp
        omega
      · have hle : (0 < i.moment ∧ i.moment ≤ n + 1) ↔ (0 < i.moment ∧ i.moment ≤ n) := by omega
        simp [h, hle]
        omega

theorem length_due_le (n : Nat) : (due schedule n).length ≤ schedule.length := by
  rw [length_due]
  exact List.countP_le_length

theorem Recorded.length_le {w : Scene k v × List (Sight c v)} (hw : Recorded schedule fine w) :
    (intrusions w.2).length ≤ schedule.length := by
  rw [← List.length_map (f := Prod.fst), hw.due]
  exact length_due_le _

/-- What some intrusions in turn add to a scene and to what was seen, from a table on. -/
structure Adds (c : Config k) (lanes : Lanes) (schedule : List (Intrusion k v))
    (fine : Cells k v c.shape → Prop) (is : List (Intrusion k v))
    (w : Scene k v × List (Sight c v)) (s : Cells k v c.shape) (new : List (Sight c v))
    (after : (Scene k v × List (Sight c v)) × Cells k v c.shape) : Prop where
  seen : after.1.2 = w.2 ++ new
  follows : Follows c lanes schedule s new after.2
  fine : ∀ x ∈ new, fine x.cells
  due : (intrusions new).map Prod.fst = is
  intruded : after.1.1.intruded.toList =
    w.1.intruded.toList ++ (intrusions new).map fun x => ⟨x.1.moment, x.2⟩
  pauses : after.1.1.pauses = w.1.pauses

namespace Adds

variable {is is' : List (Intrusion k v)} {w : Scene k v × List (Sight c v)}
variable {s : Cells k v c.shape} {new new' : List (Sight c v)}
variable {after after' : (Scene k v × List (Sight c v)) × Cells k v c.shape}

theorem nil : Adds c lanes schedule fine [] w s [] (w, s) where
  seen := (List.append_nil _).symm
  follows := .nil
  fine _ hx := absurd hx List.not_mem_nil
  due := rfl
  intruded := (List.append_nil _).symm
  pauses := rfl

theorem append (h : Adds c lanes schedule fine is w s new after)
    (h' : Adds c lanes schedule fine is' after.1 after.2 new' after') :
    Adds c lanes schedule fine (is ++ is') w s (new ++ new') after' where
  seen := by rw [h'.seen, h.seen, List.append_assoc]
  follows := h.follows.append h'.follows
  fine x hx := (List.mem_append.1 hx).elim (h.fine x) (h'.fine x)
  due := by rw [intrusions_append, List.map_append, h.due, h'.due]
  intruded := by
    rw [h'.intruded, h.intruded, intrusions_append, List.map_append, List.append_assoc]
  pauses := h'.pauses.trans h.pauses

end Adds

section
variable (lanes) (hsteady : Steady c lanes schedule fine) {w : Scene k v × List (Sight c v)}
variable {s : Cells k v c.shape}
include hsteady

theorem adds_intrusion {i : Intrusion k v} (hi : i ∈ schedule) (hs : fine s) :
    Adds c lanes schedule fine [i] w s
      [.intrusion i (i.effect c lanes s).1 (i.effect c lanes s).2]
      (watchIntrude c lanes w s i) := by
  obtain ⟨T, hsound⟩ := hsteady.sound s hs
  obtain ⟨hintruded, hpauses, hcells⟩ := intrude_eq lanes w.1 s i
  rw [watchIntrude, hcells]
  refine ⟨rfl, .intrusion hi hsound .nil, fun x hx => ?_, rfl, ?_, hpauses⟩
  · obtain rfl := List.mem_singleton.1 hx
    exact hsteady.effect i hi s hs
  · rw [hintruded, Array.toList_push]
    rfl

theorem adds_intrusions (is : List (Intrusion k v)) (his : ∀ i ∈ is, i ∈ schedule) (hs : fine s) :
    ∃ new, Adds c lanes schedule fine is w s new
      (is.foldl (fun (w, s) i => watchIntrude c lanes w s i) (w, s)) := by
  induction is generalizing w s with
  | nil => exact ⟨[], .nil⟩
  | cons i is ih =>
    have hfirst := adds_intrusion lanes hsteady (w := w) (his i (List.mem_cons_self ..)) hs
    have hs' := hfirst.fine _ (List.mem_singleton_self _)
    have hcells : (watchIntrude c lanes w s i).2 = (i.effect c lanes s).2 :=
      (intrude_eq lanes w.1 s i).2.2
    obtain ⟨new, hrest⟩ := ih (w := (watchIntrude c lanes w s i).1)
      (s := (watchIntrude c lanes w s i).2) (fun j hj => his j (List.mem_cons_of_mem _ hj))
      (hcells ▸ hs')
    exact ⟨_, hfirst.append hrest⟩

/-- What is recorded of a pause belongs together. -/
theorem Recorded.pause (hw : Recorded schedule fine w) (hs : fine s) :
    let paused := (watchEnv c lanes schedule).pause w s
    Onward c lanes schedule w.2 s paused.1.2 paused.2 ∧ Recorded schedule fine paused.1 := by
  intro paused
  obtain ⟨new, hadds⟩ := adds_intrusions lanes hsteady
    (w := ({ w.1 with pauses := w.1.pauses + 1, trace := w.1.trace.push .pause },
      w.2 ++ [.pause s]))
    (schedule.filter (·.moment == w.1.pauses + 1)) (fun i hi => List.mem_of_mem_filter hi) hs
  have hseen : paused.1.2 = w.2 ++ .pause s :: new := by
    rw [List.append_cons]
    exact hadds.seen
  have hnew : intrusions (.pause s :: new) = intrusions new := rfl
  have hdue : (intrusions paused.1.2).map Prod.fst = Scene.due schedule (w.1.pauses + 1) := by
    rw [hseen, intrusions_append, List.map_append, hw.due, hnew, hadds.due, Scene.due]
  refine ⟨⟨.pause s :: new, hseen, .pause hadds.follows, ?_⟩, ⟨?_, ?_, ?_⟩⟩
  · rw [← List.length_map (f := Prod.fst), hdue]
    exact Nat.le_trans (length_due_le _) (Nat.le_max_right ..)
  · rw [hseen]
    intro x hx
    rcases List.mem_append.1 hx with hx | hx
    · exact hw.fine x hx
    · rcases List.mem_cons.1 hx with rfl | hx
      · exact hs
      · exact hadds.fine x hx
  · rw [hseen, intrusions_append, List.map_append, ← hw.intruded, hnew]
    exact hadds.intruded
  · rw [hdue]
    exact congrArg (Scene.due schedule) hadds.pauses.symm

end

theorem Recorded.note {w : Scene k v × List (Sight c v)} (hw : Recorded schedule fine w)
    (e : Event) : Recorded schedule fine ((watchEnv c lanes schedule).note w e) where
  fine := hw.fine
  intruded := by cases e <;> exact hw.intruded
  due := by cases e <;> exact hw.due

/-- **What a program ensures** in a company that takes every pause for a turn holds of its watched
run. -/
theorem Recorded.exec {α : Type} (hsteady : Steady c lanes schedule fine)
    {C : Company c v (List (Sight c v))} (hready : ∀ r s, C.ready r s → fine s)
    (hturn : ∀ r s r' s', fine s → Onward c lanes schedule r s r' s' → C.turn r s r' s')
    {p : Prog (Cells k v c.shape) α} {w : Scene k v × List (Sight c v)} {s : Cells k v c.shape}
    {E : Halt → List (Sight c v) → Cells k v c.shape → Prop}
    {Q : α → List (Sight c v) → Cells k v c.shape → Prop} (hw : Recorded schedule fine w)
    (h : p.Ensures C.toWorld E w.2 s Q) :
    Recorded schedule fine (p.exec (watchEnv c lanes schedule) w s).2.1 ∧
      match p.exec (watchEnv c lanes schedule) w s with
      | (.ok a, w', s') => Q a w'.2 s'
      | (.error x, w', s') => E x w'.2 s' := by
  have hpause : ∀ (w : Scene k v × List (Sight c v)) (seen : List (Sight c v)) s,
      w.2 = seen ∧ Recorded schedule fine w → C.ready seen s →
      ∃ seen', C.turn seen s seen' ((watchEnv c lanes schedule).pause w s).2 ∧
        ((watchEnv c lanes schedule).pause w s).1.2 = seen' ∧
        Recorded schedule fine ((watchEnv c lanes schedule).pause w s).1 := by
    intro w seen s hrecorded hs
    obtain ⟨rfl, hw⟩ := hrecorded
    have hfine := hready _ _ hs
    obtain ⟨honward, hpaused⟩ := hw.pause lanes hsteady hfine
    exact ⟨_, hturn _ _ _ _ hfine honward, rfl, hpaused⟩
  obtain ⟨seen, ⟨hseen, hrecorded⟩, hend⟩ := Prog.Ensures.exec (V := watchEnv c lanes schedule)
    (R := fun w seen => w.2 = seen ∧ Recorded schedule fine w)
    (fun w seen e ⟨hseen, hw⟩ => ⟨hseen, hw.note e⟩) hpause h ⟨rfl, hw⟩
  refine ⟨hrecorded, ?_⟩
  subst hseen
  split at hend <;> rename_i heq <;> rw [heq] at hend ⊢ <;> exact hend

theorem recorded_nil : Recorded schedule fine (({}, []) : Scene k v × List (Sight c v)) :=
  ⟨fun _ hx => absurd hx List.not_mem_nil, rfl, rfl⟩

/-- **What a call ensures in the crowd holds of its watched run.** -/
theorem watch_ensures (hlive : ∀ i ∈ schedule, ∀ key ∈ i.call.writes, c.Live key)
    (hkeeps : Keeps c schedule fine) {call : Call k v} {s : Cells k v c.shape}
    {E : Halt → List (Sight c v) → Cells k v c.shape → Prop}
    {Q : Reply k v → List (Sight c v) → Cells k v c.shape → Prop}
    (h : (call.run c { lanes with passes := schedule.length + 1 }).Ensures
      (crowd c lanes schedule hlive fine).toWorld E [] s Q) :
    Recorded schedule fine (watch c lanes schedule call s).2.1 ∧
      match watch c lanes schedule call s with
      | (.ok reply, w, s') => Q reply w.2 s'
      | (.error x, w, s') => E x w.2 s' := by
  obtain ⟨hrecorded, hend⟩ := recorded_nil.exec (hkeeps.steady lanes hlive)
    (C := crowd c lanes schedule hlive fine) (fun _ _ hs => hs) (fun _ _ _ _ _ h => h) h
  refine ⟨hrecorded, ?_⟩
  rw [watch]
  split at hend <;> rename_i heq <;> rw [heq] <;> exact hend

end Scene

end TwoChoice
