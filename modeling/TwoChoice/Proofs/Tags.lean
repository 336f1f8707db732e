import TwoChoice.Tags
import TwoChoice.Proofs.Lanes

/-!
# Tags as an array

The tags of a bucket behave like an array although four of them share a word: `Tags.set` changes one
of them (`Tags.get_set`). `Tags.census` is what a scan answers.
-/

set_option autoImplicit false

namespace TwoChoice

namespace Tag

variable {w : Width}

theorem ofKey_ne_empty (key : Word w) : ofKey key ≠ empty := by
  rw [ofKey]
  split
  · decide
  · rename_i h
    exact fun he => h (.inl he)

theorem ofKey_ne_tombstone (key : Word w) : ofKey key ≠ tombstone := by
  rw [ofKey]
  split
  · decide
  · rename_i h
    exact fun he => h (.inr he)

theorem empty_ne_tombstone : empty ≠ tombstone := by decide

/-! ## Tags in a word -/

theorem inWord_bit (word : UInt64) (index : Nat) {k : Nat} (hk : k < 16) :
    (inWord word index).toBitVec.getLsbD k = word.toBitVec.getLsbD (index % 4 * 16 + k) := by
  rw [inWord, UInt64.toBitVec_toUInt16, UInt64.toBitVec_shiftRight, BitVec.getLsbD_setWidth,
    BitVec.ushiftRight_eq', shift, Mask.shift_toNat (by omega), BitVec.getLsbD_ushiftRight]
  simp [hk]

theorem putInWord_bit (word : UInt64) (index : Nat) (tag : Tag) {k : Nat} (hk : k < 64) :
    (putInWord word index tag).toBitVec.getLsbD k =
      if index % 4 * 16 ≤ k ∧ k < index % 4 * 16 + 16 then
        tag.toBitVec.getLsbD (k - index % 4 * 16)
      else word.toBitVec.getLsbD k := by
  have hones : ∀ j, (0xFFFF : UInt64).toBitVec.getLsbD j = decide (j < 16) := by
    intro j
    have : (0xFFFF : UInt64).toBitVec = BitVec.ofNat 64 (2 ^ 16 - 1) := rfl
    rw [this, BitVec.getLsbD_ofNat, Nat.testBit_two_pow_sub_one]
    by_cases h : j < 16
    · simp [h, show j < 64 by omega]
    · simp [h]
  simp only [putInWord, UInt64.toBitVec_or, UInt64.toBitVec_and, UInt64.toBitVec_not,
    UInt64.toBitVec_shiftLeft, BitVec.shiftLeft_eq', shift,
    Mask.shift_toNat (show index % 4 * 16 < 64 by omega), BitVec.getLsbD_or, BitVec.getLsbD_and,
    BitVec.getLsbD_not, BitVec.getLsbD_shiftLeft, hones, UInt16.toBitVec_toUInt64,
    BitVec.getLsbD_setWidth, hk, decide_true, Bool.true_and]
  by_cases hlow : k < index % 4 * 16
  · simp [hlow, show ¬ index % 4 * 16 ≤ k by omega]
  · by_cases hhigh : k < index % 4 * 16 + 16
    · simp [hlow, hhigh, show index % 4 * 16 ≤ k by omega, show k - index % 4 * 16 < 16 by omega,
        show k - index % 4 * 16 < 64 by omega]
    · have : tag.toBitVec.getLsbD (k - index % 4 * 16) = false :=
        BitVec.getLsbD_of_ge _ _ (by omega)
      simp [hlow, hhigh, this, show ¬ k - index % 4 * 16 < 16 by omega]

/-- A word with another tag at one place has that tag there and the old ones elsewhere. -/
theorem inWord_putInWord (word : UInt64) (i j : Nat) (tag : Tag) :
    inWord (putInWord word i tag) j = if i % 4 = j % 4 then tag else inWord word j := by
  apply UInt16.toBitVec_inj.1
  apply BitVec.eq_of_getLsbD_eq
  intro k hk
  rw [inWord_bit _ _ hk, putInWord_bit _ _ _ (show j % 4 * 16 + k < 64 by omega)]
  by_cases h : i % 4 = j % 4
  · rw [if_pos (by omega), if_pos h, show j % 4 * 16 + k - i % 4 * 16 = k by omega]
  · rw [if_neg (by omega), if_neg h, inWord_bit _ _ hk]

/-- A word that gets the tag it has at one place stays as it is. -/
theorem putInWord_inWord (word : UInt64) (i : Nat) : putInWord word i (inWord word i) = word := by
  apply UInt64.toBitVec_inj.1
  apply BitVec.eq_of_getLsbD_eq
  intro k hk
  rw [putInWord_bit _ _ _ hk]
  split
  · rw [inWord_bit _ _ (by omega), show i % 4 * 16 + (k - i % 4 * 16) = k by omega]
  · rfl

end Tag

namespace Tags

variable {L : BucketLen}

theorem get_set (t : Tags L) {i j : Nat} (hi : i < L.slots) (tag : Tag) :
    (t.set i tag).get j = if i = j then tag else t.get j := by
  have hw : i / 4 < L.words := by
    unfold BucketLen.slots at hi
    omega
  simp only [get, set, Vector.getElem?_setIfInBounds]
  by_cases hd : i / 4 = j / 4
  · rw [if_pos hd, if_pos hw, Option.getD_some, Tag.inWord_putInWord, hd]
    by_cases h : i = j
    · rw [if_pos h, if_pos (by rw [h])]
    · rw [if_neg h, if_neg (by omega)]
  · rw [if_neg hd, if_neg (show i ≠ j by rintro rfl; exact hd rfl)]

theorem set_get (t : Tags L) {i : Nat} (hi : i < L.slots) : t.set i (t.get i) = t := by
  have hw : i / 4 < L.words := by
    unfold BucketLen.slots at hi
    omega
  rw [set, get, Tag.putInWord_inWord]
  congr 1
  apply Vector.ext
  intro j hj
  rw [Vector.getElem_setIfInBounds]
  split
  · rename_i h
    subst h
    simp [hw]
  · rfl

/-- Tags that are the same at every slot are the same words. -/
theorem ext_get {t u : Tags L} (h : ∀ i < L.slots, t.get i = u.get i) : t = u := by
  obtain ⟨v⟩ := t
  obtain ⟨w⟩ := u
  congr 1
  apply Vector.ext
  intro j hj
  apply UInt64.toBitVec_inj.1
  apply BitVec.eq_of_getLsbD_eq
  intro n hn
  have hget := h (4 * j + n / 16) (by unfold BucketLen.slots; omega)
  simp only [get, show (4 * j + n / 16) / 4 = j by omega, Vector.getElem?_eq_getElem hj,
    Option.getD_some] at hget
  have hbit := congrArg (·.toBitVec.getLsbD (n % 16)) hget
  simp only [Tag.inWord_bit _ _ (Nat.mod_lt n (show 0 < 16 by decide)),
    show (4 * j + n / 16) % 4 * 16 + n % 16 = n by omega] at hbit
  exact hbit

theorem inWord_zero (index : Nat) : Tag.inWord 0 index = Tag.empty := by
  apply UInt16.toBitVec_inj.1
  apply BitVec.eq_of_getLsbD_eq
  intro k hk
  rw [Tag.inWord_bit _ _ hk]
  simp [Tag.empty]

theorem get_fresh (i : Nat) : (fresh : Tags L).get i = Tag.empty := by
  have h : (fresh : Tags L).words[i / 4]?.getD 0 = 0 := by
    rw [fresh, Vector.getElem?_replicate]
    split <;> rfl
  rw [get, h, inWord_zero]

theorem clear_eq_fresh (t : Tags L) : t.clear = fresh := by
  rw [clear, fresh]
  congr 1
  apply Vector.ext
  intro i hi
  simp

/-- The exchange of one tag is a step of its own, whatever the other tags of its word do. -/
theorem compareExchange_yields (t : Tags L) (i : Nat) (expected new : Tag) :
    (compareExchange i expected new).Yields t (decide (t.get i = expected))
      (if t.get i = expected then t.set i new else t) := by
  refine Prog.yields_bind (Prog.yields_gets (·.get i) t) ?_
  by_cases h : t.get i = expected
  · simp only [h, if_true, decide_true]
    exact Prog.yields_bind (Prog.yields_modify (·.set i new) t) (Prog.yields_pure _ _)
  · simp only [h, if_false, decide_false]
    exact Prog.yields_pure _ _

/-! ## Scans -/

/-- What a scan for the tag finds. -/
def census (t : Tags L) (tag : Tag) : Census where
  empty := .collect L.slots fun i => t.get i == Tag.empty
  tombstone := .collect L.slots fun i => t.get i == Tag.tombstone
  matching := .collect L.slots fun i => t.get i == tag

theorem mem_empty (t : Tags L) (tag : Tag) {i : Nat} :
    i ∈ (t.census tag).empty.indices ↔ i < L.slots ∧ t.get i = Tag.empty := by
  rw [census, Mask.mem_indices_collect L.slots_le, beq_iff_eq]

theorem mem_tombstone (t : Tags L) (tag : Tag) {i : Nat} :
    i ∈ (t.census tag).tombstone.indices ↔ i < L.slots ∧ t.get i = Tag.tombstone := by
  rw [census, Mask.mem_indices_collect L.slots_le, beq_iff_eq]

theorem has_matching (t : Tags L) (tag : Tag) {i : Nat} (hi : i < L.slots) :
    (t.census tag).matching.has i = (t.get i == tag) := by
  have := L.slots_le
  rw [census, Mask.has_collect L.slots_le _ (by omega)]
  simp [hi]

theorem has_free (t : Tags L) (tag : Tag) {i : Nat} (hi : i < 64) :
    (t.census tag).free.has i =
      (decide (i < L.slots) && (t.get i == Tag.empty || t.get i == Tag.tombstone)) := by
  rw [Census.free, Mask.has_or _ _ hi, census, Mask.has_collect L.slots_le _ hi,
    Mask.has_collect L.slots_le _ hi, Bool.and_or_distrib_left]

/-- No slot is free in a scan when every tag is that of a key. -/
theorem free_eq_zero (t : Tags L) (tag : Tag) :
    (t.census tag).free = 0 ↔ ∀ i < L.slots, t.get i ≠ Tag.empty ∧ t.get i ≠ Tag.tombstone := by
  rw [Mask.eq_zero_iff]
  constructor
  · intro h i hi
    have := L.slots_le
    simpa [has_free t tag (show i < 64 by omega), hi] using h i (by omega)
  · intro h i hi
    rw [has_free t tag hi]
    by_cases hl : i < L.slots
    · simp [h i hl]
    · simp [hl]

/-- A scan counts the slots that are not free. -/
theorem occupancy_census (t : Tags L) (tag : Tag) :
    (t.census tag).occupancy L.slots = t.occupancy := by
  let free := fun i => t.get i == Tag.empty || t.get i == Tag.tombstone
  have hpast : (List.range' L.slots (64 - L.slots)).countP (t.census tag).free.has = 0 := by
    rw [List.countP_eq_zero]
    intro i hi
    obtain ⟨hle, hlt⟩ := List.mem_range'_1.1 hi
    rw [has_free t tag (by omega)]
    simp [Nat.not_lt.2 hle]
  have hcount : (t.census tag).free.count = (List.range L.slots).countP free := by
    rw [Mask.count, Mask.range_eq_append L.slots_le, List.countP_append, hpast, Nat.add_zero]
    refine List.countP_congr fun i hi => ?_
    have hlt := List.mem_range.1 hi
    rw [has_free t tag (Nat.lt_of_lt_of_le hlt L.slots_le), decide_eq_true hlt, Bool.true_and]
  have hsplit := List.length_eq_countP_add_countP free (l := List.range L.slots)
  have hnot : (List.range L.slots).countP (fun i => decide ¬ free i = true) = t.occupancy := by
    refine List.countP_congr fun i _ => ?_
    simp [free]
  rw [List.length_range, hnot] at hsplit
  rw [Census.occupancy, hcount]
  omega

end Tags

/-- A bucket below its cutoff has a free slot. -/
theorem Census.free_ne_zero_of_occupancy_lt {census : Census} {L : BucketLen}
    (h : census.occupancy L.slots < L.cutoff) : census.free ≠ 0 := by
  intro hz
  rw [Census.occupancy, hz, Mask.count_zero, BucketLen.cutoff] at h
  omega

end TwoChoice
