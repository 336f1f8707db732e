import TwoChoice.Describe
import TwoChoice.Table.Bulk

/-!
# Calls

A `Call` is an operation on a shared table together with its arguments, and a `Reply` is what it
answers. `Call.run` is the program that carries it out.
-/

set_option autoImplicit false

namespace TwoChoice

/-- An operation on a shared table. -/
inductive Call (k v : Width) where
  | upsert (key : Word k) (value : Word v) (locked : Bool)
  | insertNew (key : Word k) (value : Word v)
  | find (key : Word k)
  | contains (key : Word k)
  | erase (key : Word k) (locked : Bool)
  | erasePair (key : Word k) (value : Word v)
  | exchange (key : Word k) (value : Word v) (oldKey : Word k) (oldValue : Word v) (update : Bool)
  | pick (key : Word k) (salt : UInt64)
  | pickSmaller (key : Word k)
  | upsertAll (pairs : List (Word k × Word v))
  | upsertEach (pairs : List (Word k × Word v))
  | insertEach (pairs : List (Word k × Word v))
  | findAll (keys : List (Word k))
  | eraseEach (keys : List (Word k))
  | pickEach (key : Word k) (salts : List UInt64)
  | upsertInChunks (pairs : List (Word k × Word v)) (workers : Nat)
  | findInChunks (keys : List (Word k)) (workers : Nat)
  | size
  | isEmpty
  | entries
  | sortedEntries
  | locate (key : Word k)
  | occupancy (bucket : Nat)
  | candidates (key : Word k)
  | profile
  | describe (layout : Layout)

/-- The figures of a table. -/
structure Profile where
  capacity : Nat
  buckets : Nat
  seed : UInt64
  cutoff : Nat

/-- The answer to a call. -/
inductive Reply (k v : Width) where
  | flag (b : Bool)
  | flags (bs : List Bool)
  | insertion (result : Except TableError Unit)
  | insertions (results : List (Except TableError Unit))
  | value (value : Option (Word v))
  | values (values : List (Option (Word v)))
  | pick (pair : Option (Word k × Word v))
  | picks (pairs : List (Option (Word k × Word v)))
  | entries (pairs : List (Word k × Word v))
  | number (n : Nat)
  | bucket (b : Option Nat)
  | candidates (c : Candidates Nat)
  | profile (p : Profile)
  | text (t : String)

namespace Config

variable {k : Width} (c : Config k)

/-- The figures of a table with this configuration. -/
def profile : Profile where
  capacity := c.shape.capacity
  buckets := c.shape.count
  seed := c.seed
  cutoff := c.shape.len.cutoff

/-- What a table with this configuration shows of itself. -/
def describe : Description where
  name := "HashTable"
  fields := [("num_buckets", .number c.shape.count), ("bucket_len", .number c.shape.len.slots),
    ("seed", .number c.seed.toNat)]
  complete := false

end Config

namespace Call

variable {k v : Width} (c : Config k)

/-- The buckets whose locks the call takes, for the calls on single keys. -/
def locks : Call k v → List (Fin c.shape.count)
  | .upsert key _ true | .insertNew key _ | .erase key true | .erasePair key _ =>
    [(c.candidates key).primary]
  | .exchange key _ oldKey _ _ => [(c.candidates key).primary, (c.candidates oldKey).primary]
  | _ => []

/-- The program of the call. -/
def run (g : Group) : Call k v → Prog (Cells k v c.shape) (Reply k v)
  | .upsert key value locked => .flag <$> c.upsert g key value locked
  | .insertNew key value => .insertion <$> c.insertNew g key value
  | .find key => .value <$> c.find? g key
  | .contains key => .flag <$> c.contains g key
  | .erase key locked => .flag <$> c.erase g key none locked
  | .erasePair key value => .flag <$> c.erase g key (some value) true
  | .exchange key value oldKey oldValue update =>
    .flag <$> c.exchange g key value oldKey oldValue update
  | .pick key salt => .pick <$> c.pick g key salt
  | .pickSmaller key => .pick <$> c.pickSmaller g key
  | .upsertAll pairs => .flag <$> c.upsertAll g pairs
  | .upsertEach pairs => .flags <$> c.upsertEach g pairs
  | .insertEach pairs => .insertions <$> c.insertEach g pairs
  | .findAll keys => .values <$> c.findAll g keys
  | .eraseEach keys => .flags <$> c.eraseEach g keys
  | .pickEach key salts => .picks <$> c.pickEach g key salts
  | .upsertInChunks pairs workers => .flag <$> c.upsertInChunks g pairs workers
  | .findInChunks keys workers => .values <$> c.findInChunks g keys workers
  | .size => Prog.gets fun s => .number (s.size c.reserved)
  | .isEmpty => Prog.gets fun s => .flag (s.size c.reserved == 0)
  | .entries => Prog.gets fun s => .entries (s.entries c.reserved)
  | .sortedEntries => Prog.gets fun s => .entries (s.sortedEntries c.reserved)
  | .locate key => Prog.gets fun s => .bucket ((c.locate? key s).map Fin.val)
  | .occupancy bucket => .read fun s =>
    if h : bucket < c.shape.count then .done (.number (s.occupancy ⟨bucket, h⟩))
    else Prog.fault (.noSuchBucket bucket)
  | .candidates key => pure (.candidates ((c.candidates key).map Fin.val))
  | .profile => pure (.profile c.profile)
  | .describe layout => pure (.text (c.describe.text layout))

end Call

end TwoChoice
