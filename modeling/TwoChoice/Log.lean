/-!
# Log records

What a table tells about its life: that it was allocated, cleared or reseeded, that a key found both
of its buckets full, and that a store lost every slot it went for.
-/

set_option autoImplicit false

namespace TwoChoice

/-- How important a record is. -/
inductive LogLevel where
  | trace
  | debug
  | warn
  deriving DecidableEq, Repr

/-- The name of the level. -/
def LogLevel.text : LogLevel → String
  | .trace => "TRACE"
  | .debug => "DEBUG"
  | .warn => "WARN"

/-- Something worth telling, with the numbers that the text mentions. -/
inductive LogRecord where
  | allocated (buckets slots : Nat) (seed : UInt64)
  | cleared (buckets : Nat)
  | reseeded (buckets : Nat)
  | full (primary secondary key : Nat)
  | lostRaces (key : Nat)
  deriving DecidableEq, Repr

namespace LogRecord

/-- The level of a record. -/
def level : LogRecord → LogLevel
  | .allocated .. | .cleared .. | .reseeded .. => .debug
  | .full .. => .warn
  | .lostRaces .. => .trace

/-- The hexadecimal digits of a number, without leading zeros. -/
def hexDigits (n : Nat) : String := String.ofList (Nat.toDigits 16 n)

/-- The wording of a record. -/
def text : LogRecord → String
  | .allocated buckets slots seed =>
    s!"allocated a table of {buckets} buckets of {slots} slots, seed 0x" ++ hexDigits seed.toNat
  | .cleared buckets => s!"cleared a table of {buckets} buckets"
  | .reseeded buckets => s!"reseeded a table of {buckets} buckets"
  | .full primary secondary key =>
    s!"buckets {primary} and {secondary} are full, failed to store {key}"
  | .lostRaces key => s!"lost every slot race for {key}, probing again"

/-- The record with its level in front. -/
def line (r : LogRecord) : String := r.level.text ++ " " ++ r.text

end LogRecord

end TwoChoice
