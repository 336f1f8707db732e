import TwoChoice.Outcome
import TwoChoice.Lens
import TwoChoice.Log

/-!
# Programs over a shared state

`Prog σ α` is a program that a group of lanes runs on a state `σ` it shares with others. It reads
and writes the state, announces events, and pauses at its synchronisation points. Between two
pauses nobody else touches the state; at a pause anything may happen to it.

`Prog.exec E` runs a program in an environment `E`, which takes note of the events and acts on the
state at the pauses. `Prog.zoom` lets a program work on a part of a larger state, `Prog.attempt`
catches faults, and `Prog.detached` is the program without its pauses, as it runs on a group of
its own.
-/

set_option autoImplicit false

namespace TwoChoice

/-- What an observer of a program sees besides the state. -/
inductive Event where
  /-- The lanes voted. -/
  | ballot (votes : UInt64)
  /-- A lane was elected to act for the group. -/
  | elect (lane : Nat)
  /-- Probes were made. -/
  | probe (n : Nat)
  | log (record : LogRecord)
  deriving DecidableEq, Repr

/-- A program on a state `σ` that answers with an `α`, or halts. -/
inductive Prog (σ α : Type) where
  | done (a : α)
  | halt (h : Halt)
  | read (k : σ → Prog σ α)
  | write (f : σ → σ) (p : Prog σ α)
  | emit (e : Event) (p : Prog σ α)
  /-- The lanes wait for each other: a pause. -/
  | sync (p : Prog σ α)

namespace Prog

variable {σ τ ρ α β : Type}

/-- Goes on with `k` at the answer of the program. -/
def andThen (p : Prog σ α) (k : α → Prog σ β) : Prog σ β :=
  match p with
  | .done a => k a
  | .halt h => .halt h
  | .read q => .read fun s => (q s).andThen k
  | .write f q => .write f (q.andThen k)
  | .emit e q => .emit e (q.andThen k)
  | .sync q => .sync (q.andThen k)

instance : Monad (Prog σ) where
  pure := .done
  bind := andThen

/-- A function of the state. -/
def gets (f : σ → α) : Prog σ α := .read fun s => .done (f s)

/-- Changes the state. -/
def modify (f : σ → σ) : Prog σ Unit := .write f (.done ())

/-- Announces an event. -/
def announce (e : Event) : Prog σ Unit := .emit e (.done ())

/-- Announces that `n` probes are made. -/
def probe (n : Nat) : Prog σ Unit := announce (.probe n)

/-- Announces a log record. -/
def log (r : LogRecord) : Prog σ Unit := announce (.log r)

/-- A synchronisation point. -/
def pause : Prog σ Unit := .sync (.done ())

/-- Ends with a fault. -/
def fault (f : Fault) : Prog σ α := .halt (.fault f)

/-- Goes on only if `c` holds. -/
def require (c : Prop) [Decidable c] (f : Fault) : Prog σ Unit := if c then .done () else fault f

/-- The same program on a part of the state. -/
def zoom (l : Lens σ τ) : Prog τ α → Prog σ α
  | .done a => .done a
  | .halt h => .halt h
  | .read k => .read fun s => zoom l (k (l.get s))
  | .write f p => .write (l.modify f) (zoom l p)
  | .emit e p => .emit e (zoom l p)
  | .sync p => .sync (zoom l p)

/-- Answers with the fault if there is one. -/
def attempt : Prog σ α → Prog σ (Except Fault α)
  | .done a => .done (.ok a)
  | .halt (.fault f) => .done (.error f)
  | .halt h => .halt h
  | .read k => .read fun s => attempt (k s)
  | .write f p => .write f (attempt p)
  | .emit e p => .emit e (attempt p)
  | .sync p => .sync (attempt p)

/-- Ends with the fault that was caught. -/
def ofExcept : Except Fault α → Prog σ α
  | .ok a => .done a
  | .error f => fault f

/-- Seen from outside: without the pauses, and without the votes and elections. -/
def detached : Prog σ α → Prog σ α
  | .done a => .done a
  | .halt h => .halt h
  | .read k => .read fun s => detached (k s)
  | .write f p => .write f (detached p)
  | .emit (.ballot _) p => detached p
  | .emit (.elect _) p => detached p
  | .emit e p => .emit e (detached p)
  | .sync p => detached p

/-- The surroundings of a program: an observer `ρ`, and what happens at a pause. -/
structure Env (ρ σ : Type) where
  note : ρ → Event → ρ
  pause : ρ → σ → ρ × σ

/-- Runs a program. The answer comes with the observer and the state as they are at the end. -/
def exec (E : Env ρ σ) : Prog σ α → ρ → σ → Except Halt α × ρ × σ
  | .done a, r, s => (.ok a, r, s)
  | .halt h, r, s => (.error h, r, s)
  | .read k, r, s => exec E (k s) r s
  | .write f p, r, s => exec E p r (f s)
  | .emit e p, r, s => exec E p (E.note r e) s
  | .sync p, r, s =>
    let after := E.pause r s
    exec E p after.1 after.2

theorem andThen_done (p : Prog σ α) : p.andThen .done = p := by
  induction p with
  | done | halt => rfl
  | read k ih => simp [andThen, ih]
  | write f p ih => simp [andThen, ih]
  | emit e p ih => simp [andThen, ih]
  | sync p ih => simp [andThen, ih]

theorem andThen_assoc {γ : Type} (p : Prog σ α) (k : α → Prog σ β) (l : β → Prog σ γ) :
    (p.andThen k).andThen l = p.andThen fun a => (k a).andThen l := by
  induction p with
  | done | halt => rfl
  | read q ih => simp [andThen, ih]
  | write f p ih => simp [andThen, ih]
  | emit e p ih => simp [andThen, ih]
  | sync p ih => simp [andThen, ih]

instance : LawfulMonad (Prog σ) :=
  LawfulMonad.mk' (Prog σ)
    (fun p => andThen_done p)
    (fun _ _ => rfl)
    (fun p k l => andThen_assoc p k l)

/-- What a program does before `k` it does in the same way without it. -/
theorem exec_andThen (E : Env ρ σ) (p : Prog σ α) (k : α → Prog σ β) (r : ρ) (s : σ) :
    exec E (p.andThen k) r s =
      match exec E p r s with
      | (.ok a, r', s') => exec E (k a) r' s'
      | (.error h, r', s') => (.error h, r', s') := by
  induction p generalizing r s with
  | done | halt => rfl
  | read q ih => exact ih s r s
  | write f p ih => exact ih r (f s)
  | emit e p ih => exact ih (E.note r e) s
  | sync p ih => exact ih _ _

end Prog

end TwoChoice
