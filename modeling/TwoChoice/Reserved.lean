import TwoChoice.Word

/-!
# Reserved keys

Three keys never name an entry: the empty key marks a slot without a pair, the tombstone key a slot
whose pair was removed, and the holding key a slot that is between two pairs. `ReservedKeys` keeps
them distinct by its bound on the tombstone key.
-/

set_option autoImplicit false

namespace TwoChoice

/-- The reserved keys of a table, given by the tombstone key. -/
structure ReservedKeys (w : Width) where
  /-- The key of a slot whose pair was removed. -/
  tombstone : Word w
  two_le : 2 ≤ tombstone.toNat
  deriving DecidableEq

namespace ReservedKeys

variable {w : Width}

/-- The key of a slot that holds no pair yet. -/
def empty (_ : ReservedKeys w) : Word w := 0#w.bits

/-- The key of a slot whose owner is about to publish a pair in it. -/
def holding (r : ReservedKeys w) : Word w := r.tombstone - 1#w.bits

/-- Whether the key is one that may not be stored. -/
def isReserved (r : ReservedKeys w) (key : Word w) : Bool :=
  key == r.empty || key == r.tombstone || key == r.holding

theorem two_le_max_sub {offset : UInt64} (h : offset.toNat + 2 ≤ (Word.max : Word w).toNat) :
    2 ≤ (BitVec.ofNat w.bits ((Word.max : Word w).toNat - offset.toNat)).toNat := by
  rw [BitVec.toNat_ofNat, Nat.mod_eq_of_lt] <;> have := (Word.max : Word w).isLt <;> omega

/-- The reserved keys whose tombstone key lies `offset` below the largest word, where all three
find room above zero. -/
def ofOffset? (offset : UInt64) : Option (ReservedKeys w) :=
  if h : offset.toNat + 2 ≤ (Word.max : Word w).toNat then
    some ⟨BitVec.ofNat w.bits ((Word.max : Word w).toNat - offset.toNat), two_le_max_sub h⟩
  else none

theorem two_le_max : 2 ≤ (Word.max : Word w).toNat := by cases w <;> decide

/-- The reserved keys at the top of the range: the tombstone key is the largest word. -/
def atTop : ReservedKeys w := ⟨Word.max, two_le_max⟩

end ReservedKeys

end TwoChoice
