import TwoChoice.Proofs.Lanes
import TwoChoice.Locks

/-!
# The lock table as a set of buckets

Taking a lock adds one bucket to the locked ones and releasing it removes that bucket
(`Locks.isLocked_acquire`, `Locks.isLocked_release`). A lock that is taken and released leaves no
trace (`Locks.release_acquire`). An attempt takes the lock if it is free (`Locks.yields_tryLock`).
-/

set_option autoImplicit false

namespace TwoChoice.Locks

variable {n : Nat}

theorem covers_of_lt {bucket : Nat} (h : bucket < n) : covers n bucket := by
  unfold covers
  omega

theorem isLocked_eq (t : Locks n) (bucket : Nat) :
    t.isLocked bucket = Mask.has (t.wordOf bucket) (bucket % 64) := rfl

theorem covers_of_isLocked {t : Locks n} {b : Nat} (h : t.isLocked b = true) :
    covers n b := by
  refine Decidable.byContradiction fun hout => ?_
  unfold covers at hout
  have hword : t.wordOf b = 0 := by
    rw [wordOf, Vector.getElem?_eq_none (by omega), Option.getD_none]
  rw [isLocked_eq, hword, Mask.has_zero (by omega)] at h
  cases h

/-- A change of one word is seen by the buckets of that word. -/
theorem wordOf_set (t : Locks n) {a : Nat} (ha : covers n a) (w : UInt64) (b : Nat) :
    (⟨t.words.setIfInBounds (a / 64) w⟩ : Locks n).wordOf b =
      if a / 64 = b / 64 then w else t.wordOf b := by
  have ha' : a / 64 < (n + 63) / 64 := ha
  simp only [wordOf, Vector.getElem?_setIfInBounds]
  by_cases h : a / 64 = b / 64
  · rw [if_pos h, if_pos h, if_pos ha', Option.getD_some]
  · rw [if_neg h, if_neg h]

theorem wordOf_acquire (t : Locks n) {a : Nat} (ha : covers n a) (b : Nat) :
    (t.acquire a).wordOf b = if a / 64 = b / 64 then t.wordOf a ||| bitOf a else t.wordOf b :=
  wordOf_set t ha _ b

theorem wordOf_release (t : Locks n) {a : Nat} (ha : covers n a) (b : Nat) :
    (t.release a).wordOf b = if a / 64 = b / 64 then t.wordOf a &&& ~~~bitOf a else t.wordOf b :=
  wordOf_set t ha _ b

theorem isLocked_acquire (t : Locks n) {a : Nat} (ha : covers n a) (b : Nat) :
    (t.acquire a).isLocked b = (decide (a = b) || t.isLocked b) := by
  rw [isLocked_eq, isLocked_eq, wordOf_acquire t ha]
  by_cases h : a / 64 = b / 64
  · rw [if_pos h, Mask.has_or _ _ (by omega), bitOf, Mask.has_bit (by omega) (by omega), wordOf, h,
      ← wordOf, Bool.or_comm]
    congr 1
    exact decide_eq_decide.2 (by omega)
  · rw [if_neg h]
    simp [show a ≠ b by rintro rfl; exact h rfl]

/-- A word loses one bit. -/
theorem has_clear (m : Mask) {i j : Nat} (hi : i < 64) (hj : j < 64) :
    Mask.has (m &&& ~~~Mask.bit j) i = (m.has i && decide (j ≠ i)) := by
  rw [Mask.has_eq _ hi, Mask.has_eq _ hi, UInt64.toBitVec_and, UInt64.toBitVec_not,
    BitVec.getLsbD_and, BitVec.getLsbD_not, Mask.bit_toBitVec hj, BitVec.getLsbD_twoPow]
  simp [hi, hj]

theorem isLocked_release (t : Locks n) {a : Nat} (ha : covers n a) (b : Nat) :
    (t.release a).isLocked b = (t.isLocked b && decide (a ≠ b)) := by
  rw [isLocked_eq, isLocked_eq, wordOf_release t ha]
  by_cases h : a / 64 = b / 64
  · rw [if_pos h, bitOf, has_clear _ (by omega) (by omega), wordOf, h, ← wordOf]
    congr 1
    exact decide_eq_decide.2 (by omega)
  · rw [if_neg h]
    simp [show a ≠ b by rintro rfl; exact h rfl]

theorem isLocked_fresh (b : Nat) : (fresh : Locks n).isLocked b = false := by
  have h : (fresh : Locks n).wordOf b = 0 := by
    rw [wordOf, fresh, Vector.getElem?_replicate]
    split <;> rfl
  rw [isLocked_eq, h, Mask.has_zero (by omega)]

theorem clear_eq_fresh (t : Locks n) : t.clear = fresh := by
  rw [clear, fresh]
  congr 1
  apply Vector.ext
  intro i hi
  simp

theorem ext_word {t u : Locks n} (h : ∀ b, covers n b → t.wordOf b = u.wordOf b) : t = u := by
  obtain ⟨v⟩ := t
  obtain ⟨w⟩ := u
  congr 1
  apply Vector.ext
  intro i hi
  have := h (i * 64) (by unfold covers; omega)
  simpa [wordOf, show i * 64 / 64 = i by omega, hi] using this

/-- Tables with the same locked buckets are the same. -/
theorem ext_isLocked {t u : Locks n} (h : ∀ b, t.isLocked b = u.isLocked b) : t = u := by
  refine ext_word fun b _ => Mask.ext fun i hi => ?_
  have hb := h (b / 64 * 64 + i)
  rw [isLocked_eq, isLocked_eq, wordOf, wordOf, show (b / 64 * 64 + i) / 64 = b / 64 by omega,
    show (b / 64 * 64 + i) % 64 = i by omega] at hb
  exact hb

/-- A lock that is taken and released leaves the table as it was. -/
theorem release_acquire {t : Locks n} {a : Nat} (ha : covers n a) (h : t.isLocked a = false) :
    (t.acquire a).release a = t := by
  apply ext_word
  intro b _
  rw [wordOf_release _ ha, wordOf_acquire _ ha, if_pos rfl]
  by_cases hab : a / 64 = b / 64
  · rw [if_pos hab, show t.wordOf b = t.wordOf a by rw [wordOf, wordOf, hab]]
    apply Mask.ext
    intro i hi
    rw [bitOf, has_clear _ hi (by omega), Mask.has_or _ _ hi, Mask.has_bit hi (by omega)]
    by_cases hai : a % 64 = i
    · subst hai
      rw [isLocked_eq] at h
      simp [h]
    · simp [hai]
  · rw [if_neg hab, wordOf_acquire _ ha, if_neg hab]

/-- Releasing one lock does not disturb another. -/
theorem release_acquire_of_ne (t : Locks n) {a b : Nat} (ha : covers n a) (hb : covers n b)
    (hab : a ≠ b) : (t.acquire b).release a = (t.release a).acquire b := by
  apply ext_word
  intro c _
  rw [wordOf_release _ ha, wordOf_acquire _ hb, wordOf_acquire _ hb, wordOf_acquire _ hb,
    wordOf_release _ ha, wordOf_release _ ha]
  have hbits : ∀ m : Mask, a / 64 = b / 64 →
      (m ||| bitOf b) &&& ~~~bitOf a = (m &&& ~~~bitOf a) ||| bitOf b := by
    intro m h
    apply Mask.ext
    intro i hi
    rw [bitOf, bitOf, has_clear _ hi (by omega), Mask.has_or _ _ hi, Mask.has_or _ _ hi,
      has_clear _ hi (by omega), Mask.has_bit hi (by omega)]
    by_cases hi' : b % 64 = i
    · simp [hi', show a % 64 ≠ i by omega]
    · simp [hi']
  by_cases hac : a / 64 = c / 64
  · by_cases hbc : b / 64 = c / 64
    · rw [if_pos hac, if_pos hbc, if_pos (by omega), if_pos (by omega), hbits _ (by omega)]
      rw [wordOf, wordOf, show b / 64 = a / 64 by omega]
    · rw [if_pos hac, if_neg hbc, if_neg (by omega), if_pos hac]
  · by_cases hbc : b / 64 = c / 64
    · rw [if_neg hac, if_pos hbc, if_pos hbc, if_neg (by omega)]
    · rw [if_neg hac, if_neg hbc, if_neg hbc, if_neg hac]

/-! ## One lock -/

theorem yields_check (t : Locks n) {b : Nat} (hb : covers n b) :
    (check b).Yields t (t.isLocked b) t :=
  Prog.yields_bind (Prog.yields_require hb _ t) (Prog.yields_gets _ t)

/-- An attempt takes the lock if it is free, and says whether it was. -/
theorem yields_tryLock (t : Locks n) {b : Nat} (hb : covers n b) :
    (tryLock b).Yields t (!t.isLocked b) (if t.isLocked b then t else t.acquire b) := by
  refine Prog.yields_bind (yields_check t hb) ?_
  cases t.isLocked b with
  | true => exact Prog.yields_pure _ _
  | false => exact Prog.yields_bind (Prog.yields_modify _ _) (Prog.yields_pure _ _)

section
variable (g : Lanes)

/-- The elected lane takes a free lock. -/
theorem yields_take {t : Locks n} {b : Nat} (hb : covers n b) (hfree : t.isLocked b = false) :
    (g.elect 0 fun _ => do
      if ← tryLock b then pure () else .halt (.waiting b)).Yields t () (t.acquire b) := by
  have htry := yields_tryLock t hb
  rw [hfree] at htry
  exact g.yields_elect g.pos (Prog.yields_bind htry (Prog.yields_pure _ _))

/-- The elected lane gives up a lock that is held. -/
theorem yields_give {t : Locks n} {b : Nat} (hb : covers n b) (hheld : t.isLocked b = true) :
    (g.elect 0 fun _ => do
      let held ← check b
      Prog.modify (·.release b)
      Prog.require (held = true) (.notLocked b)).Yields t () (t.release b) :=
  g.yields_elect g.pos (Prog.yields_bind (yields_check t hb) (Prog.yields_bind
    (Prog.yields_modify _ _) (Prog.yields_require hheld _ _)))

end

/-! ## Several locks -/

/-- After some locks were taken, a bucket is locked if its lock is one of them or was taken
before. -/
theorem isLocked_foldl {held : List Nat} (hheld : ∀ b ∈ held, covers n b) (t : Locks n) (b : Nat) :
    (held.foldl acquire t).isLocked b = true ↔ b ∈ held ∨ t.isLocked b = true := by
  induction held generalizing t with
  | nil => simp
  | cons a held ih =>
    have ha := hheld a (List.mem_cons_self ..)
    rw [List.foldl_cons, ih (fun x hx => hheld x (List.mem_cons_of_mem _ hx)),
      isLocked_acquire t ha, Bool.or_eq_true, decide_eq_true_eq, List.mem_cons,
      eq_comm (a := b), or_assoc, or_left_comm]

/-- Of some locks that were taken, the first one is released. -/
theorem release_foldl {b : Nat} {held : List Nat} (hheld : ∀ a ∈ b :: held, covers n a)
    (hb : b ∉ held) {t : Locks n} (h : t.isLocked b = false) :
    ((b :: held).foldl acquire t).release b = held.foldl acquire t := by
  have hrest : ∀ a ∈ held, covers n a := fun a ha => hheld a (List.mem_cons_of_mem _ ha)
  refine ext_isLocked fun a => Bool.eq_iff_iff.2 ?_
  rw [isLocked_release _ (hheld b (List.mem_cons_self ..)), Bool.and_eq_true, decide_eq_true_eq,
    isLocked_foldl hheld, isLocked_foldl hrest, List.mem_cons]
  by_cases hab : b = a
  · subst hab
    simp [hb, h]
  · simp [hab, Ne.symm hab]

/-! ## The order of two locks -/

/-- Two locks are taken in ascending order, and a shared one once. -/
theorem order_ascending (a b : Nat) : (order a b).Pairwise (· < ·) := by
  rw [order]
  split
  · simp
  · split
    · simpa
    · rw [List.pairwise_pair]
      omega

theorem mem_order {a b x : Nat} (h : x ∈ order a b) : x = a ∨ x = b := by
  rw [order] at h
  split at h
  · exact .inl (List.mem_singleton.1 h)
  · split at h <;> simp only [List.mem_cons, List.not_mem_nil, or_false] at h
    · exact h
    · exact h.symm

end TwoChoice.Locks
