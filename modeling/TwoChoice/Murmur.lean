import TwoChoice.Word

/-!
# MurmurHash64A

The 64-bit hash of a byte string: full blocks of eight bytes are scrambled and absorbed one after
the other, then what is left over, then the state is mixed once more. `Word.hash` hashes the bytes
of a word, so the same number hashes differently at another width.
-/

set_option autoImplicit false

namespace TwoChoice

namespace Murmur

/-- The odd multiplier of every step. -/
def multiplier : UInt64 := 0xc6a4a7935bd1e995

/-- Folds the high bits onto the low ones. -/
def fold (x : UInt64) : UInt64 := x ^^^ (x >>> 47)

/-- What a block of eight bytes contributes. -/
def scramble (block : UInt64) : UInt64 := fold (block * multiplier) * multiplier

/-- The state after one more block. -/
def absorb (h block : UInt64) : UInt64 := (h ^^^ scramble block) * multiplier

/-- The number whose bytes are given, the lowest first. -/
def ofBytesLE (bytes : List UInt8) : UInt64 :=
  bytes.foldr (fun b n => (n <<< 8) ||| b.toUInt64) 0

/-- The state after all bytes: blocks of eight while there are any, then the rest. -/
def absorbAll (h : UInt64) : List UInt8 → UInt64
  | a :: b :: c :: d :: e :: f :: g :: i :: rest =>
    absorbAll (absorb h (ofBytesLE [a, b, c, d, e, f, g, i])) rest
  | [] => h
  | tail => (h ^^^ ofBytesLE tail) * multiplier

/-- The last mixing of the state. -/
def finish (h : UInt64) : UInt64 := fold (fold h * multiplier)

/-- The state before the first byte. -/
def start (length : Nat) (seed : UInt64) : UInt64 := seed ^^^ (UInt64.ofNat length * multiplier)

/-- The hash of the bytes under the seed. -/
def hash (bytes : List UInt8) (seed : UInt64) : UInt64 :=
  finish (absorbAll (start bytes.length seed) bytes)

end Murmur

/-- The hash of the bytes of a word. -/
def Word.hash {w : Width} (x : Word w) (seed : UInt64) : UInt64 := Murmur.hash (bytesLE x) seed

end TwoChoice
