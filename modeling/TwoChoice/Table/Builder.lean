import TwoChoice.Table

/-!
# Builders

The knobs of a table before it is made.
-/

set_option autoImplicit false

namespace TwoChoice

/-- What a table is to be made with. -/
structure Builder where
  capacity : Nat
  /-- A seed is drawn where none is given. -/
  seed : Option UInt64 := none
  /-- The distance of the tombstone key from the largest word. -/
  tombstoneOffset : UInt64 := 0
  /-- Probes are to be counted. -/
  counting : Bool := false

/-- Why no table was made. -/
inductive BuildFailure where
  | refused (e : TableError)
  | faulty (f : Fault)

namespace Builder

/-- Makes the table; `drawn` is the seed where none was given. -/
def build (b : Builder) (k v : Width) (len : BucketLen) (drawn : UInt64) :
    Except BuildFailure (Table k v × List LogRecord) :=
  match ReservedKeys.ofOffset? b.tombstoneOffset with
  | none => .error (.refused (.invalidTombstoneOffset b.tombstoneOffset))
  | some reserved =>
    (Table.create len b.capacity (b.seed.getD drawn) reserved b.counting).mapError .faulty

/-- The builder as a record. -/
def describe (b : Builder) : Description where
  name := "Builder"
  fields := [("capacity", .number b.capacity),
    ("seed", .optional (b.seed.map UInt64.toNat)),
    ("tombstone_offset", .number b.tombstoneOffset.toNat),
    ("probe_counter", .flag b.counting)]

end Builder

end TwoChoice
