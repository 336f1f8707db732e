import TwoChoice.Mask

/-!
# Masks as sets

`Mask.has` decides membership below 64, and a mask is determined by it (`Mask.ext`). Clearing the
lowest bit again and again lists the elements in ascending order (`Mask.indices_eq`).
`Mask.collect len p` is the mask of the numbers below `len` with the property `p`.
-/

set_option autoImplicit false

namespace TwoChoice.Mask

/-! ## Membership -/

/-- A shift below 64 is what it says. -/
theorem shift_toNat {i : Nat} (hi : i < 64) : ((UInt64.ofNat i).toBitVec % 64).toNat = i := by
  rw [BitVec.toNat_umod, UInt64.toBitVec_ofNat', BitVec.toNat_ofNat,
    show (64 : BitVec 64).toNat = 64 from rfl]
  omega

theorem bit_toBitVec {i : Nat} (hi : i < 64) : (bit i).toBitVec = BitVec.twoPow 64 i := by
  rw [bit, UInt64.toBitVec_shiftLeft, BitVec.shiftLeft_eq', shift_toNat hi]
  rfl

theorem has_eq (m : Mask) {i : Nat} (hi : i < 64) : m.has i = m.toBitVec.getLsbD i := by
  have hand : (m &&& bit i).toBitVec =
      if m.toBitVec.getLsbD i then BitVec.twoPow 64 i else 0#64 := by
    rw [UInt64.toBitVec_and, bit_toBitVec hi, BitVec.and_twoPow]
  have hpow : BitVec.twoPow 64 i ≠ 0#64 := fun h => by
    have := congrArg (·.getLsbD i) h
    simp [hi] at this
  rw [has, Bool.eq_iff_iff, bne_iff_ne, ne_eq, ← UInt64.toBitVec_inj, hand]
  cases m.toBitVec.getLsbD i
  · simp
  · simpa using hpow

/-- A mask is determined by its elements. -/
theorem ext {m n : Mask} (h : ∀ i < 64, m.has i = n.has i) : m = n := by
  apply UInt64.toBitVec_inj.1
  apply BitVec.eq_of_getLsbD_eq
  intro i hi
  rw [← has_eq m hi, ← has_eq n hi]
  exact h i hi

theorem has_zero {i : Nat} (hi : i < 64) : has 0 i = false := by
  rw [has_eq _ hi]
  simp

theorem has_bit {i j : Nat} (hi : i < 64) (hj : j < 64) : (bit j).has i = decide (j = i) := by
  rw [has_eq _ hi, bit_toBitVec hj, BitVec.getLsbD_twoPow]
  simp [hj]

theorem has_or (m n : Mask) {i : Nat} (hi : i < 64) : (m ||| n).has i = (m.has i || n.has i) := by
  rw [has_eq _ hi, has_eq _ hi, has_eq _ hi, UInt64.toBitVec_or, BitVec.getLsbD_or]

theorem has_and (m n : Mask) {i : Nat} (hi : i < 64) : (m &&& n).has i = (m.has i && n.has i) := by
  rw [has_eq _ hi, has_eq _ hi, has_eq _ hi, UInt64.toBitVec_and, BitVec.getLsbD_and]

theorem has_shiftLeft (m : Mask) {b i : Nat} (hb : b < 64) (hi : i < 64) :
    (m <<< UInt64.ofNat b).has i = (decide (b ≤ i) && m.has (i - b)) := by
  rw [has_eq _ hi, has_eq _ (show i - b < 64 by omega), UInt64.toBitVec_shiftLeft,
    BitVec.shiftLeft_eq', shift_toNat hb, BitVec.getLsbD_shiftLeft]
  by_cases h : b ≤ i
  · simp [h, hi]
  · simp [h, hi]

theorem eq_zero_iff {m : Mask} : m = 0 ↔ ∀ i < 64, m.has i = false := by
  constructor
  · rintro rfl i hi
    exact has_zero hi
  · intro h
    exact ext fun i hi => by rw [h i hi, has_zero hi]

theorem exists_has {m : Mask} (h : m ≠ 0) : ∃ i < 64, m.has i = true := by
  apply Classical.byContradiction
  intro hn
  exact h (eq_zero_iff.2 fun i hi => Bool.eq_false_iff.2 fun hh => hn ⟨i, hi, hh⟩)

/-! ## The lowest element -/

/-- The bit that `m &&& -m` keeps is the one with none below it. -/
theorem getLsbD_and_neg (m : Mask) {i : Nat} (hi : i < 64) :
    (m &&& (0 - m)).toBitVec.getLsbD i =
      (m.has i && !decide (∃ j < i, m.toBitVec.getLsbD j = true)) := by
  rw [UInt64.toBitVec_and, UInt64.toBitVec_sub, BitVec.getLsbD_and, has_eq m hi]
  have hz : (0 : UInt64).toBitVec - m.toBitVec = -m.toBitVec := by
    simp
  rw [hz, BitVec.getLsbD_neg]
  cases m.toBitVec.getLsbD i <;> simp [hi]

/-- The element with none below it is what `lowest` answers. -/
theorem lowest_eq {m : Mask} {i : Nat} (hi : i < 64) (hm : m.has i = true)
    (hlow : ∀ j < i, m.has j = false) : m.lowest = i := by
  have hbit : m &&& (0 - m) = bit i := by
    apply UInt64.toBitVec_inj.1
    apply BitVec.eq_of_getLsbD_eq
    intro j hj
    rw [getLsbD_and_neg m hj, bit_toBitVec hi, BitVec.getLsbD_twoPow]
    simp only [hi, decide_true, Bool.true_and]
    rcases Nat.lt_trichotomy j i with h | rfl | h
    · simp [hlow j h, show i ≠ j by omega]
    · have hno : ¬ ∃ l < j, m.toBitVec.getLsbD l = true := by
        intro hex
        obtain ⟨l, hl, ht⟩ := hex
        rw [← has_eq m (by omega), hlow l hl] at ht
        cases ht
      simp [hm, hno]
    · have hyes : ∃ l < j, m.toBitVec.getLsbD l = true := ⟨i, h, by rw [← has_eq m hi, hm]⟩
      simp [hyes, show i ≠ j by omega]
  have hnat : (bit i).toNat = 2 ^ i := by
    rw [← UInt64.toNat_toBitVec, bit_toBitVec hi, BitVec.toNat_twoPow,
      Nat.mod_eq_of_lt (Nat.pow_lt_pow_right (by decide) hi)]
  rw [lowest, hbit]
  show Nat.log2 (bit i).toNat = i
  rw [hnat, Nat.log2_two_pow]

theorem exists_lowest {m : Mask} (h : m ≠ 0) :
    m.lowest < 64 ∧ m.has m.lowest = true ∧ ∀ j < m.lowest, m.has j = false := by
  obtain ⟨n, hn, hmn⟩ := exists_has h
  induction n using Nat.strongRecOn with
  | _ n ih =>
    by_cases hlow : ∀ j < n, m.has j = false
    · rw [lowest_eq hn hmn hlow]
      exact ⟨hn, hmn, hlow⟩
    · simp only [Classical.not_forall, Bool.not_eq_false] at hlow
      obtain ⟨j, hj, hmj⟩ := hlow
      exact ih j hj (by omega) hmj

theorem has_dropLowest {m : Mask} (h : m ≠ 0) {i : Nat} (hi : i < 64) :
    m.dropLowest.has i = (m.has i && decide (i ≠ m.lowest)) := by
  obtain ⟨hl, hml, hlow⟩ := exists_lowest h
  have hpred : (m - 1).toBitVec = ~~~(-m.toBitVec) := by
    rw [BitVec.not_neg]
    rfl
  rw [dropLowest, has_eq _ hi, UInt64.toBitVec_and, hpred, BitVec.getLsbD_and, BitVec.getLsbD_not,
    BitVec.getLsbD_neg, ← has_eq m hi]
  cases hm : m.has i with
  | false => simp
  | true =>
    simp only [hi, decide_true, Bool.true_and, ne_eq]
    rcases Nat.lt_trichotomy i m.lowest with hlt | heq | hgt
    · rw [hlow i hlt] at hm
      cases hm
    · have hno : ¬ ∃ l < i, m.toBitVec.getLsbD l = true := by
        intro hex
        obtain ⟨l, hl', ht⟩ := hex
        rw [← has_eq m (by omega), hlow l (by omega)] at ht
        cases ht
      rw [decide_eq_false hno]
      simp [heq]
    · have hyes : ∃ l < i, m.toBitVec.getLsbD l = true :=
        ⟨m.lowest, hgt, by rw [← has_eq m hl, hml]⟩
      simp [hyes, show i ≠ m.lowest by omega]

/-! ## The list of the elements -/

theorem range_eq_append {l n : Nat} (h : l ≤ n) :
    List.range n = List.range l ++ List.range' l (n - l) := by
  have happend := @List.range'_append_1 0 l (n - l)
  rw [Nat.zero_add, Nat.add_sub_of_le h] at happend
  rw [List.range_eq_range', List.range_eq_range', happend]

theorem filter_range_cons {p q : Nat → Bool} {l n : Nat} (hl : l < n) (hp : p l = true)
    (hlow : ∀ j < l, p j = false) (hq : ∀ j < n, q j = (p j && decide (j ≠ l))) :
    (List.range n).filter p = l :: (List.range n).filter q := by
  have hsplit : List.range n = List.range l ++ l :: List.range' (l + 1) (n - l - 1) := by
    rw [range_eq_append (Nat.le_of_lt hl), ← List.range'_succ, show n - l - 1 + 1 = n - l by omega]
  have hpl : (List.range l).filter p = [] := by
    rw [List.filter_eq_nil_iff]
    intro j hj
    simp [hlow j (List.mem_range.1 hj)]
  have hql : (List.range l).filter q = [] := by
    rw [List.filter_eq_nil_iff]
    intro j hj
    have hj' := List.mem_range.1 hj
    simp [hq j (by omega), hlow j hj']
  have hrest : (List.range' (l + 1) (n - l - 1)).filter p =
      (List.range' (l + 1) (n - l - 1)).filter q := by
    apply List.filter_congr
    intro j hj
    obtain ⟨h1, h2⟩ := List.mem_range'_1.1 hj
    simp [hq j (by omega), show j ≠ l by omega]
  rw [hsplit, List.filter_append, List.filter_append, hpl, hql, List.filter_cons, List.filter_cons,
    hp, hq l hl, hrest]
  simp

/-- Each round lists one element, and what is left lies above it. -/
theorem indicesUpTo_eq (n : Nat) (hn : n ≤ 64) (m : Mask) (h : ∀ i < 64 - n, m.has i = false) :
    indicesUpTo n m = (List.range 64).filter m.has := by
  induction n generalizing m with
  | zero =>
    symm
    rw [indicesUpTo, List.filter_eq_nil_iff]
    intro i hi
    simp [h i (List.mem_range.1 hi)]
  | succ n ih =>
    rw [indicesUpTo]
    by_cases hm : m = 0
    · subst hm
      symm
      rw [if_pos (by simp), List.filter_eq_nil_iff]
      intro i hi
      simp [has_zero (List.mem_range.1 hi)]
    · obtain ⟨hl, hml, hlow⟩ := exists_lowest hm
      rw [if_neg (by simpa using hm)]
      rw [filter_range_cons hl hml hlow fun j hj => has_dropLowest hm hj]
      congr 1
      apply ih (by omega)
      intro i hi
      rw [has_dropLowest hm (by omega)]
      by_cases hil : i < 64 - (n + 1)
      · simp [h i hil]
      · by_cases hlt : i < m.lowest
        · simp [hlow i hlt]
        · have hge : 64 - (n + 1) ≤ m.lowest := by
            apply Classical.byContradiction
            intro hc
            rw [h m.lowest (by omega)] at hml
            cases hml
          simp [show i = m.lowest by omega]

/-- The indices of a mask are its elements below 64, in ascending order. -/
theorem indices_eq (m : Mask) : m.indices = (List.range 64).filter m.has :=
  indicesUpTo_eq 64 (Nat.le_refl _) m fun _ h => absurd h (by omega)

theorem mem_indices {m : Mask} {i : Nat} : i ∈ m.indices ↔ i < 64 ∧ m.has i = true := by
  rw [indices_eq, List.mem_filter, List.mem_range]

theorem indices_zero : indices 0 = [] := rfl

theorem pairwise_indices (m : Mask) : m.indices.Pairwise (· < ·) := by
  rw [indices_eq]
  exact List.pairwise_lt_range.filter _

/-- Each round takes the lowest element out. -/
theorem indices_unfold (m : Mask) :
    m.indices = if m = 0 then [] else m.lowest :: m.dropLowest.indices := by
  by_cases h : m = 0
  · subst h
    rfl
  · obtain ⟨hl, hm, hlow⟩ := exists_lowest h
    rw [if_neg h, indices_eq, indices_eq]
    exact filter_range_cons hl hm hlow fun i hi => has_dropLowest h hi

/-- What comes before an element in the list is what is below it. -/
theorem mem_before {m : Mask} {before after : List Nat} {i j : Nat}
    (h : m.indices = before ++ i :: after) (hj : j ∈ m.indices) (hlt : j < i) : j ∈ before := by
  have hsorted := pairwise_indices m
  rw [h] at hj hsorted
  obtain ⟨-, hafter, -⟩ := List.pairwise_append.1 hsorted
  rcases List.mem_append.1 hj with hb | ha
  · exact hb
  · rcases List.mem_cons.1 ha with rfl | ha
    · exact absurd hlt (Nat.lt_irrefl _)
    · have := (List.pairwise_cons.1 hafter).1 j ha
      omega

/-- A mask with one element lists it alone. -/
theorem indices_single {m : Mask} {i : Nat} (hi : i < 64)
    (hm : ∀ j < 64, m.has j = decide (i = j)) :
    m.indices = [i] := by
  rw [indices_eq, filter_range_cons (q := fun _ => false) hi (by simp [hm i hi])]
  · simp
  · intro j hj
    simp [hm j (by omega), show i ≠ j by omega]
  · intro j hj
    rw [hm j hj]
    by_cases h : i = j
    · simp [h]
    · simp [h]

/-! ## Counting -/

theorem count_zero : count 0 = 0 := by
  rw [count, List.countP_eq_zero]
  intro i hi
  simp [has_zero (List.mem_range.1 hi)]

theorem count_le {m : Mask} {len : Nat} (hlen : len ≤ 64) (h : ∀ i < 64, m.has i = true → i < len) :
    m.count ≤ len := by
  have hzero : (List.range' len (64 - len)).countP m.has = 0 := by
    rw [List.countP_eq_zero]
    intro i hi hm
    obtain ⟨h1, h2⟩ := List.mem_range'_1.1 hi
    have := h i (by omega) hm
    omega
  rw [count, range_eq_append hlen, List.countP_append, hzero]
  simpa using List.countP_le_length (p := m.has) (l := List.range len)

end TwoChoice.Mask
