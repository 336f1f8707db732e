import TwoChoice.Table.Pick
import TwoChoice.Table.Remove

/-!
# Bulk operations

The same operation on many keys, one after the other, or in chunks that are dealt out to workers
with groups of their own. The chunks are worked off in their order.
-/

set_option autoImplicit false

namespace TwoChoice

/-- The length of the chunks when `len` items are dealt out to the workers; no answer if the sum
that rounds it up leaves 64 bits. -/
def chunkSize? (len workers : Nat) : Option Nat :=
  let workers := max workers 1
  if len + workers < UInt64.size then some (max ((len + workers - 1) / workers) 1) else none

/-- The items in consecutive chunks of `n`; the last one may be shorter. -/
def chunks {α : Type} (n : Nat) (items : List α) : List (List α) :=
  (List.range ((items.length + n - 1) / n)).map fun i => (items.drop (i * n)).take n

namespace Config

variable {k v : Width} (c : Config k) (g : Group)

/-- Upserts all pairs; a failure does not keep the later pairs from being stored. -/
def upsertAll (pairs : List (Word k × Word v)) : Prog (Cells k v c.shape) Bool :=
  pairs.foldlM (fun stored (key, value) => do return (← upsert c g key value true) && stored) true

/-- The values of all keys. -/
def findAll (keys : List (Word k)) : Prog (Cells k v c.shape) (List (Option (Word v))) :=
  keys.mapM (find? c g)

/-- Upserts the pairs and says of each whether it was stored. -/
def upsertEach (pairs : List (Word k × Word v)) : Prog (Cells k v c.shape) (List Bool) :=
  pairs.mapM fun (key, value) => upsert c g key value true

/-- Inserts the pairs and says of each how that went. -/
def insertEach (pairs : List (Word k × Word v)) :
    Prog (Cells k v c.shape) (List (Except TableError Unit)) :=
  pairs.mapM fun (key, value) => insertNew c g key value

/-- Removes the keys and says of each whether it was present. -/
def eraseEach (keys : List (Word k)) : Prog (Cells k v c.shape) (List Bool) :=
  keys.mapM fun key => erase (v := v) c g key none true

/-- Picks an entry for each salt. -/
def pickEach (key : Word k) (salts : List UInt64) :
    Prog (Cells k v c.shape) (List (Option (Word k × Word v))) :=
  salts.mapM (pick c g key)

/-- Gives each chunk of the items to a worker. Every worker gets to its end or to its own fault, and
then the first fault counts. The workers do not run at the same time here: each begins when the one
before it has ended, in the order of the chunks. Workers that take turns in any order are operations
side by side, as in `Traffic` (see `Table.crew`). -/
def inChunks {α β : Type} (items : List α) (workers : Nat)
    (work : List α → Prog (Cells k v c.shape) β) : Prog (Cells k v c.shape) (List β) :=
  match chunkSize? items.length workers with
  | none => Prog.fault .overflow
  | some n => do
    let results ← (chunks n items).mapM fun chunk => (work chunk).detached.attempt
    results.mapM Prog.ofExcept

/-- Upserts all pairs by workers; whether every pair was stored. -/
def upsertInChunks (pairs : List (Word k × Word v)) (workers : Nat) :
    Prog (Cells k v c.shape) Bool := do
  return (← inChunks c pairs workers (upsertAll c g)).all id

/-- The values of all keys, found by workers. -/
def findInChunks (keys : List (Word k)) (workers : Nat) :
    Prog (Cells k v c.shape) (List (Option (Word v))) := do
  return (← inChunks c keys workers (findAll c g)).flatten

end Config

end TwoChoice
