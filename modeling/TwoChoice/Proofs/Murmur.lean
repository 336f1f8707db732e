import Mathlib.Data.Nat.Digits.Lemmas
import TwoChoice.Murmur
import TwoChoice.Proofs.Mask

/-!
# The hash loses nothing

Every step of the hash can be undone: the multiplier is odd, so it has an inverse modulo `2 ^ 64`
(`unmultiplier`), and folding the high bits onto the low ones twice gives back the word
(`fold_fold`). Hence the state after some bytes is a bijection of the state before them, and what a
block contributes is a bijection of the block. Strings of one length that differ in one block only
therefore have different hashes, and so have different keys.
-/

set_option autoImplicit false

open Function

namespace TwoChoice

namespace Murmur

/-! ## Steps -/

/-- The inverse of the multiplier. -/
def unmultiplier : UInt64 := 0x5f7a0ea7e59b19bd

theorem multiplier_mul_unmultiplier : multiplier * unmultiplier = 1 := by decide

theorem mul_multiplier_bijective : Bijective fun x : UInt64 => x * multiplier := by
  refine bijective_iff_has_inverse.2 ⟨fun x => x * unmultiplier, fun x => ?_, fun x => ?_⟩
  · simp only [UInt64.mul_assoc, multiplier_mul_unmultiplier, UInt64.mul_one]
  · simp only [UInt64.mul_assoc, UInt64.mul_comm unmultiplier, multiplier_mul_unmultiplier,
      UInt64.mul_one]

/-- Bits 47 to 63 are left alone by the first fold, and the second one takes off what the first one
put below them: `2 * 47 ≥ 64`. -/
theorem fold_fold (x : UInt64) : fold (fold x) = x := by
  apply UInt64.toBitVec_inj.1
  apply BitVec.eq_of_getLsbD_eq
  intro i hi
  have hout : x.toBitVec.getLsbD (47 + (47 + i)) = false := BitVec.getLsbD_of_ge _ _ (by omega)
  simp [fold, hout]

theorem fold_bijective : Bijective fold := Involutive.bijective fold_fold

theorem xor_bijective (mask : UInt64) : Bijective fun x : UInt64 => x ^^^ mask :=
  Involutive.bijective fun x => by
    simp only [UInt64.xor_assoc, UInt64.xor_self, UInt64.xor_zero]

theorem scramble_bijective : Bijective scramble :=
  mul_multiplier_bijective.comp (fold_bijective.comp mul_multiplier_bijective)

/-- No state is lost when a block is absorbed. -/
theorem absorb_bijective (block : UInt64) : Bijective fun h => absorb h block :=
  mul_multiplier_bijective.comp (xor_bijective (scramble block))

/-- No block is lost when it is absorbed. -/
theorem absorb_block_bijective (h : UInt64) : Bijective (absorb h) := by
  have hcomm : absorb h = fun block => (scramble block ^^^ h) * multiplier := by
    funext block
    rw [absorb, UInt64.xor_comm]
  rw [hcomm]
  exact mul_multiplier_bijective.comp ((xor_bijective h).comp scramble_bijective)

theorem start_bijective (length : Nat) : Bijective (start length) := xor_bijective _

theorem finish_bijective : Bijective finish :=
  fold_bijective.comp (mul_multiplier_bijective.comp fold_bijective)

/-! ## All bytes -/

theorem absorbAll_bijective (bytes : List UInt8) : Bijective fun h => absorbAll h bytes := by
  -- the state is what the recursion changes, so it is the function that is followed
  match bytes with
  | a :: b :: c :: d :: e :: f :: g :: i :: rest =>
    exact (absorbAll_bijective rest).comp (absorb_bijective (ofBytesLE [a, b, c, d, e, f, g, i]))
  | [] => exact bijective_id
  | [_] | [_, _] | [_, _, _] | [_, _, _, _] | [_, _, _, _, _] | [_, _, _, _, _, _]
  | [_, _, _, _, _, _, _] => exact mul_multiplier_bijective.comp (xor_bijective _)

theorem hash_bijective (bytes : List UInt8) : Bijective (hash bytes) :=
  finish_bijective.comp ((absorbAll_bijective bytes).comp (start_bijective bytes.length))

/-- While there are eight bytes they are absorbed as a block. -/
theorem absorbAll_block (h : UInt64) {bytes : List UInt8} (hl : 8 ≤ bytes.length) :
    absorbAll h bytes = absorbAll (absorb h (ofBytesLE (bytes.take 8))) (bytes.drop 8) := by
  match bytes, hl with
  | _ :: _ :: _ :: _ :: _ :: _ :: _ :: _ :: _, _ => rfl

/-- Fewer than eight bytes are absorbed without being scrambled. -/
theorem absorbAll_rest (h : UInt64) {bytes : List UInt8} (hne : bytes ≠ [])
    (hl : bytes.length < 8) : absorbAll h bytes = (h ^^^ ofBytesLE bytes) * multiplier := by
  match bytes, hne, hl with
  | [_], _, _ | [_, _], _, _ | [_, _, _], _, _ | [_, _, _, _], _, _ | [_, _, _, _, _], _, _
  | [_, _, _, _, _, _], _, _ | [_, _, _, _, _, _, _], _, _ => rfl

/-! ## Bytes of a number -/

theorem toNat_lt_of_mem_map {bytes : List UInt8} : ∀ n ∈ bytes.map UInt8.toNat, n < 256 := by
  intro n hn
  obtain ⟨b, -, rfl⟩ := List.mem_map.1 hn
  exact b.toNat_lt

theorem toNat_ofBytesLE {bytes : List UInt8} (hl : bytes.length ≤ 8) :
    (ofBytesLE bytes).toNat = Nat.ofDigits 256 (bytes.map UInt8.toNat) := by
  induction bytes with
  | nil => rfl
  | cons b bytes ih =>
    have hlen : bytes.length ≤ 7 := Nat.succ_le_succ_iff.1 hl
    have hrest : (ofBytesLE bytes).toNat < 2 ^ 56 := by
      rw [ih (by omega)]
      calc Nat.ofDigits 256 (bytes.map UInt8.toNat)
          < 256 ^ (bytes.map UInt8.toNat).length :=
            Nat.ofDigits_lt_base_pow_length (by decide) toNat_lt_of_mem_map
        _ ≤ 256 ^ 7 := Nat.pow_le_pow_right (by decide) (by simpa using hlen)
        _ = 2 ^ 56 := by decide
    have hstep : ofBytesLE (b :: bytes) = (ofBytesLE bytes <<< 8) ||| b.toUInt64 := rfl
    have hb := b.toNat_lt
    rw [hstep, List.map_cons, Nat.ofDigits_cons, ← ih (by omega), UInt64.toNat_or,
      UInt64.toNat_shiftLeft, UInt8.toNat_toUInt64, Nat.shiftLeft_eq]
    have hshift : (ofBytesLE bytes).toNat * 2 ^ 8 % 2 ^ 64 = 2 ^ 8 * (ofBytesLE bytes).toNat := by
      omega
    rw [show (8 : UInt64).toNat % 64 = 8 from rfl, hshift, ← Nat.two_pow_add_eq_or_of_lt hb]
    omega

/-- Strings of one length that make one number are the same. -/
theorem ofBytesLE_inj {a b : List UInt8} (hl : a.length = b.length) (h8 : a.length ≤ 8)
    (h : ofBytesLE a = ofBytesLE b) : a = b := by
  have hdigits : Nat.ofDigits 256 (a.map UInt8.toNat) = Nat.ofDigits 256 (b.map UInt8.toNat) := by
    rw [← toNat_ofBytesLE h8, ← toNat_ofBytesLE (hl ▸ h8), h]
  have hmaps := Nat.ofDigits_inj_of_len_eq (by decide) (by simpa using hl)
    toNat_lt_of_mem_map toNat_lt_of_mem_map hdigits
  exact (List.map_inj_right fun x y => UInt8.toNat_inj.1).1 hmaps

/-- Taking in the bytes behind the last full block is taking them in one by one, each at its place
and the last one first. -/
theorem xor_ofBytesLE {bytes : List UInt8} {k : Nat} (hl : k + bytes.length < 8) (h : UInt64) :
    h ^^^ (ofBytesLE bytes <<< UInt64.ofNat (8 * k)) = (bytes.zipIdx k).foldr
      (fun byte h => h ^^^ (byte.1.toUInt64 <<< UInt64.ofNat (8 * byte.2))) h := by
  induction bytes generalizing k with
  | nil => simp [ofBytesLE]
  | cons b bytes ih =>
    have hk : k + 1 + bytes.length < 8 := by simpa [Nat.add_comm, Nat.add_left_comm] using hl
    have hsplit : ofBytesLE (b :: bytes) <<< UInt64.ofNat (8 * k) =
        (ofBytesLE bytes <<< UInt64.ofNat (8 * (k + 1))) ^^^
          (b.toUInt64 <<< UInt64.ofNat (8 * k)) := by
      have hstep : ofBytesLE (b :: bytes) = (ofBytesLE bytes <<< 8) ||| b.toUInt64 := rfl
      apply UInt64.toBitVec_inj.1
      apply BitVec.eq_of_getLsbD_eq
      intro i hi
      simp only [hstep, UInt64.toBitVec_xor, UInt64.toBitVec_or, UInt64.toBitVec_shiftLeft,
        BitVec.shiftLeft_eq', Mask.shift_toNat (show 8 * k < 64 by omega),
        Mask.shift_toNat (show 8 * (k + 1) < 64 by omega), BitVec.getLsbD_xor, BitVec.getLsbD_or,
        BitVec.getLsbD_shiftLeft, UInt8.toBitVec_toUInt64, BitVec.getLsbD_setWidth]
      -- a bit below `8 * k + 8` is one of the byte, a bit from there on one of the rest
      by_cases hlow : i < 8 * k
      · simp [hlow, show i < 8 * (k + 1) by omega]
      · rw [show (UInt64.toBitVec 8 % 64).toNat = 8 from rfl]
        by_cases hmid : i < 8 * k + 8
        · simp [hlow, show i < 8 * (k + 1) by omega, show i - 8 * k < 8 by omega]
        · have hb : b.toBitVec.getLsbD (i - 8 * k) = false := BitVec.getLsbD_of_ge _ _ (by omega)
          simp [hlow, hb, hi, show ¬ i < 8 * (k + 1) by omega, show ¬ i - 8 * k < 8 by omega,
            show i - 8 * k < 64 by omega, show i - 8 * k - 8 = i - 8 * (k + 1) by omega]
    rw [List.zipIdx_cons, List.foldr_cons, ← ih hk, UInt64.xor_assoc, hsplit]

/-! ## Strings that differ in one block -/

/-- The strings agree before block `j` and after it. The bytes behind the last full block count as
one more block. -/
def AgreeOutside (j : Nat) (a b : List UInt8) : Prop :=
  a.take (8 * j) = b.take (8 * j) ∧ a.drop (8 * j + 8) = b.drop (8 * j + 8)

instance (j : Nat) (a b : List UInt8) : Decidable (AgreeOutside j a b) :=
  inferInstanceAs (Decidable (_ ∧ _))

theorem absorbAll_rest_ne {a b : List UInt8} (hl : a.length = b.length) (h8 : a.length < 8)
    (hne : a ≠ b) (s : UInt64) : absorbAll s a ≠ absorbAll s b := by
  have ha : a ≠ [] := fun he => hne (by
    subst he
    exact (List.length_eq_zero_iff.1 hl.symm).symm)
  have hb : b ≠ [] := fun he => ha (by
    subst he
    exact List.length_eq_zero_iff.1 hl)
  rw [absorbAll_rest s ha h8, absorbAll_rest s hb (hl ▸ h8)]
  intro he
  have hxor := mul_multiplier_bijective.1 he
  exact hne (ofBytesLE_inj hl (by omega) ((UInt64.xor_right_inj s).1 hxor))

theorem absorbAll_ne {j : Nat} {a b : List UInt8} (hl : a.length = b.length)
    (h : AgreeOutside j a b) (hne : a ≠ b) (s : UInt64) : absorbAll s a ≠ absorbAll s b := by
  -- up to block `j` the blocks are the same, and so are the states
  induction j generalizing a b s with
  | zero =>
    by_cases h8 : 8 ≤ a.length
    · have hdrop : a.drop 8 = b.drop 8 := h.2
      have htake : a.take 8 ≠ b.take 8 := fun he =>
        hne (by rw [← List.take_append_drop 8 a, he, hdrop, List.take_append_drop])
      rw [absorbAll_block s h8, absorbAll_block s (hl ▸ h8), hdrop]
      intro he
      have hblock := (absorb_block_bijective s).1 ((absorbAll_bijective _).1 he)
      exact htake (ofBytesLE_inj (by simp [hl]) (by simp) hblock)
    · exact absorbAll_rest_ne hl (by omega) hne s
  | succ j ih =>
    by_cases h8 : 8 ≤ a.length
    · have htake : a.take 8 = b.take 8 := by
        have := congrArg (List.take 8) h.1
        rwa [List.take_take, List.take_take, Nat.min_eq_left (by omega)] at this
      have hdrop : a.drop 8 ≠ b.drop 8 := fun he =>
        hne (by rw [← List.take_append_drop 8 a, htake, he, List.take_append_drop])
      have hagree : AgreeOutside j (a.drop 8) (b.drop 8) := by
        constructor
        · rw [List.take_drop, List.take_drop, Nat.add_comm, ← Nat.mul_succ, h.1]
        · rw [List.drop_drop, List.drop_drop, Nat.add_comm, ← Nat.mul_succ, h.2]
      rw [absorbAll_block s h8, absorbAll_block s (hl ▸ h8), htake]
      exact ih (by simp [hl]) hagree hdrop _
    · exact absorbAll_rest_ne hl (by omega) hne s

theorem hash_ne {j : Nat} {a b : List UInt8} (hl : a.length = b.length) (h : AgreeOutside j a b)
    (hne : a ≠ b) (seed : UInt64) : hash a seed ≠ hash b seed := by
  intro he
  have hall := finish_bijective.1 he
  rw [hl] at hall
  exact absorbAll_ne hl h hne _ hall

end Murmur

/-! ## Keys -/

namespace Word

variable {w : Width}

theorem toUInt64_injective : Injective (toUInt64 (w := w)) :=
  LeftInverse.injective ofUInt64_toUInt64

theorem toUInt64_bijective : Bijective (toUInt64 (w := .w64)) := by
  refine bijective_iff_has_inverse.2 ⟨ofUInt64, ofUInt64_toUInt64, fun n => ?_⟩
  apply UInt64.toBitVec_inj.1
  simp [ofUInt64, toUInt64, Width.bits, Width.bytes]

/-- The bytes of a number in order, cut off anywhere. -/
theorem ofDigits_bytes (x n : Nat) :
    Nat.ofDigits 256 ((List.range n).map fun i => x >>> (8 * i) % 256) = x % 256 ^ n := by
  induction n with
  | zero => simp [Nat.mod_one]
  | succ n ih =>
    rw [List.range_succ, List.map_append, List.map_singleton, Nat.ofDigits_append, ih,
      Nat.ofDigits_singleton, List.length_map, List.length_range, Nat.shiftRight_eq_div_pow,
      Nat.pow_mul, Nat.mod_pow_succ]

theorem ofBytesLE_bytesLE (x : Word w) : Murmur.ofBytesLE (bytesLE x) = toUInt64 x := by
  apply UInt64.toNat_inj.1
  have hbytes : (bytesLE x).map UInt8.toNat =
      (List.range w.bytes).map fun i => x.toNat >>> (8 * i) % 256 := by
    simp [bytesLE, Function.comp_def]
  have hx : x.toNat < 256 ^ w.bytes := by
    have hlt : x.toNat < 2 ^ (8 * w.bytes) := x.isLt
    rwa [Nat.pow_mul] at hlt
  rw [Murmur.toNat_ofBytesLE (by rw [length_bytesLE]; cases w <;> decide), hbytes, ofDigits_bytes,
    Nat.mod_eq_of_lt hx]
  have h64 : x.toNat < 2 ^ 64 := x.isLt.trans_le (Nat.pow_le_pow_right (by decide) w.bits_le)
  rw [toUInt64, UInt64.toNat_ofBitVec, BitVec.toNat_setWidth, Nat.mod_eq_of_lt h64]

theorem bytesLE_injective : Injective (bytesLE (w := w)) := fun x y h =>
  toUInt64_injective (by rw [← ofBytesLE_bytesLE, h, ofBytesLE_bytesLE])

theorem hash_injective (seed : UInt64) : Injective fun key : Word w => key.hash seed := by
  intro x y h
  by_contra hne
  have hlen : (bytesLE x).length = (bytesLE y).length := by rw [length_bytesLE, length_bytesLE]
  have h8 : (bytesLE x).length ≤ 8 := by rw [length_bytesLE]; cases w <;> decide
  refine Murmur.hash_ne (j := 0) hlen ⟨rfl, ?_⟩ (bytesLE_injective.ne hne) seed h
  rw [List.drop_eq_nil_of_le h8, List.drop_eq_nil_of_le (hlen ▸ h8)]

/-- The hash of a word of eight bytes is one block. -/
theorem hash_w64 (x : Word .w64) (seed : UInt64) :
    x.hash seed = Murmur.finish (Murmur.absorb (Murmur.start 8 seed) (toUInt64 x)) := by
  rw [← ofBytesLE_bytesLE]
  rfl

theorem hash_bijective (seed : UInt64) : Bijective fun key : Word .w64 => key.hash seed := by
  simp only [hash_w64]
  exact Murmur.finish_bijective.comp
    ((Murmur.absorb_block_bijective _).comp toUInt64_bijective)

end Word

/-- **Nothing is lost where the hash takes something in.** Whatever the bytes, every seed leads to
its own hash, and every hash comes from a seed. Whatever the seed, strings of one length that differ
within one block of eight bytes, or within the bytes behind the last full block, have different
hashes. So keys of one width have different hashes under one seed, every number is the hash of one
key of eight bytes, and one key has different hashes under two seeds. -/
theorem Murmur.hash_loses_nothing :
    (∀ bytes, Bijective fun seed => Murmur.hash bytes seed) ∧
    (∀ seed j (a b : List UInt8), a.length = b.length → Murmur.AgreeOutside j a b → a ≠ b →
      Murmur.hash a seed ≠ Murmur.hash b seed) ∧
    (∀ w seed, Injective fun key : Word w => key.hash seed) ∧
    (∀ seed, Bijective fun key : Word .w64 => key.hash seed) ∧
    ∀ w (key : Word w) seed seed', seed ≠ seed' → key.hash seed ≠ key.hash seed' :=
  ⟨Murmur.hash_bijective, fun seed _ _ _ hl h hne => Murmur.hash_ne hl h hne seed,
    fun _ => Word.hash_injective, Word.hash_bijective,
    fun _ key _ _ hne => (Murmur.hash_bijective (Word.bytesLE key)).1.ne hne⟩

/-- Two strings of ten bytes that differ in the last byte, and two that differ in the first. -/
theorem Murmur.hash_loses_nothing_ten :
    let bytes : List UInt8 := [1, 2, 3, 4, 5, 6, 7, 8, 9, 10]
    Murmur.hash bytes 7 ≠ Murmur.hash (bytes.set 9 11) 7 ∧
      Murmur.hash bytes 7 ≠ Murmur.hash (bytes.set 0 11) 7 :=
  have h := Murmur.hash_loses_nothing.2.1 7
  ⟨h 1 _ _ (by decide) (by decide) (by decide), h 0 _ _ (by decide) (by decide) (by decide)⟩

end TwoChoice
