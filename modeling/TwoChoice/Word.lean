/-!
# Words

Keys and values are unsigned words of 16, 32 or 64 bits. `Word w` is such a word; numbers enter
through `Word.ofUInt64`, which keeps the low bits, and leave through `Word.toUInt64`, which loses
nothing. `Word.bytesLE` is what a key shows to a hash function.
-/

set_option autoImplicit false

namespace TwoChoice

/-- The widths a key or a value may have. -/
inductive Width where
  | w16
  | w32
  | w64
  deriving DecidableEq, Repr

/-- The number of bytes of a word, which is also what a key feeds into the hash function. -/
def Width.bytes : Width → Nat
  | .w16 => 2
  | .w32 => 4
  | .w64 => 8

/-- The number of bits of a word. -/
abbrev Width.bits (w : Width) : Nat := 8 * w.bytes

theorem Width.bits_le (w : Width) : w.bits ≤ 64 := by cases w <;> decide

theorem Width.le_bits (w : Width) : 16 ≤ w.bits := by cases w <;> decide

/-- An unsigned word of width `w`. -/
abbrev Word (w : Width) : Type := BitVec w.bits

namespace Word

variable {w : Width}

/-- The low bits of `n`. -/
def ofUInt64 (n : UInt64) : Word w := n.toBitVec.setWidth w.bits

/-- The same number in 64 bits. -/
def toUInt64 (x : Word w) : UInt64 := .ofBitVec (x.setWidth 64)

/-- The largest word: all bits set. -/
def max : Word w := BitVec.allOnes w.bits

/-- The bytes of the word, the lowest first. -/
def bytesLE (x : Word w) : List UInt8 :=
  (List.range w.bytes).map fun i => UInt8.ofNat (x.toNat >>> (8 * i))

/-- Puts `new` into a cell that holds `current`. The answer is what the cell held, an error when
that is another word than `current`; the cell then stays as it is. -/
def compareExchange (cell current new : Word w) : Except (Word w) (Word w) × Word w :=
  if cell = current then (.ok cell, new) else (.error cell, cell)

theorem ofUInt64_toUInt64 (x : Word w) : ofUInt64 (toUInt64 x) = x := by
  simp [ofUInt64, toUInt64, BitVec.setWidth_setWidth_of_le _ w.bits_le]

theorem length_bytesLE (x : Word w) : (bytesLE x).length = w.bytes := by
  simp [bytesLE]

end Word

end TwoChoice
