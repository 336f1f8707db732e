import TwoChoice.Call
import TwoChoice.ProbeCount

/-!
# Schedules

What other groups do while a call runs. A schedule is a list of intrusions: calls that are to be
carried out, each as a whole, at the n-th pause of the call. An intrusion that would have to wait
for a lock is refused. `Scene` is what an observer of the call writes down.
-/

set_option autoImplicit false

namespace TwoChoice

/-- A call of another group, at the pause with that number, counted from 1. -/
structure Intrusion (k v : Width) where
  moment : Nat
  call : Call k v

/-- How an intrusion ended. -/
structure Intruded (k v : Width) where
  moment : Nat
  outcome : Except Halt (Reply k v)

/-- A step of a group that can be watched from outside. -/
inductive Act where
  | ballot (votes : UInt64)
  | elect (lane : Nat)
  | pause
  deriving DecidableEq, Repr

/-- The probes and the log records of a program. -/
structure Tally where
  probes : ProbeCount := {}
  records : Array LogRecord := #[]

/-- Adds an event to the tally. -/
def Tally.note (t : Tally) : Event → Tally
  | .probe n => { t with probes := t.probes.add (UInt64.ofNat n) }
  | .log record => { t with records := t.records.push record }
  | .ballot _ | .elect _ => t

/-- The surroundings in which nobody else does anything. -/
def Tally.alone (σ : Type) : Prog.Env Tally σ where
  note := Tally.note
  pause t s := (t, s)

/-- What is written down about a call. -/
structure Scene (k v : Width) where
  /-- The pauses so far. -/
  pauses : Nat := 0
  /-- The intrusions that came to their turn. -/
  intruded : Array (Intruded k v) := #[]
  /-- What the group of the call did. -/
  trace : Array Act := #[]
  tally : Tally := {}

namespace Scene

variable {k v : Width} (c : Config k) (lanes : Lanes)

/-- Writes an event down. -/
def note (sc : Scene k v) : Event → Scene k v
  | .ballot votes => { sc with trace := sc.trace.push (.ballot votes) }
  | .elect lane => { sc with trace := sc.trace.push (.elect lane) }
  | e => { sc with tally := sc.tally.note e }

/-- Carries an intrusion out, or refuses it if a bucket that it must lock is locked. -/
def intrude (sc : Scene k v) (s : Cells k v c.shape) (i : Intrusion k v) :
    Scene k v × Cells k v c.shape :=
  match (i.call.locks c).find? fun b => s.locks.isLocked b.val with
  | some b => ({ sc with intruded := sc.intruded.push ⟨i.moment, .error (.waiting b.val)⟩ }, s)
  | none =>
    let group : Group := { lanes with }
    let (outcome, tally, s) := (i.call.run c group).exec (Tally.alone _) sc.tally s
    ({ sc with intruded := sc.intruded.push ⟨i.moment, outcome⟩, tally }, s)

/-- The next pause: the intrusions whose turn it is, in the order of the schedule. -/
def pause (schedule : List (Intrusion k v)) (sc : Scene k v) (s : Cells k v c.shape) :
    Scene k v × Cells k v c.shape :=
  let moment := sc.pauses + 1
  (schedule.filter (·.moment == moment)).foldl (fun (sc, s) i => sc.intrude c lanes s i)
    ({ sc with pauses := moment, trace := sc.trace.push .pause }, s)

/-- The surroundings of a call under a schedule. -/
def env (schedule : List (Intrusion k v)) : Prog.Env (Scene k v) (Cells k v c.shape) where
  note := note
  pause := pause c lanes schedule

/-- Runs a call under a schedule. Every pass of a store beyond its first follows an intrusion, so
one pass more than there are intrusions is enough. -/
def run (call : Call k v) (schedule : List (Intrusion k v)) (s : Cells k v c.shape) :
    Except Halt (Reply k v) × Scene k v × Cells k v c.shape :=
  let group : Group := { lanes with passes := schedule.length + 1 }
  (call.run c group).exec (env c lanes schedule) {} s

end Scene

end TwoChoice
