import TwoChoice.Lanes
import TwoChoice.Proofs.Ensures
import TwoChoice.Proofs.Mask

/-!
# What lanes find out together

A poll answers the set of the indices for which the lanes vote yes, however many lanes there are
(`Lanes.yields_poll`), and the lane that is elected acts as if it were alone (`Lanes.yields_elect`).
-/

set_option autoImplicit false

namespace TwoChoice

namespace Mask

/-- The numbers below `len` with the property `p`. -/
def collect (len : Nat) (p : Nat → Bool) : Mask :=
  ((List.range len).filter p).foldl (fun m i => m ||| bit i) 0

theorem has_foldl_bit (xs : List Nat) (hxs : ∀ j ∈ xs, j < 64) (m : Mask) {i : Nat} (hi : i < 64) :
    (xs.foldl (fun m i => m ||| bit i) m).has i = (m.has i || decide (i ∈ xs)) := by
  induction xs generalizing m with
  | nil => simp
  | cons j xs ih =>
    rw [List.foldl_cons, ih (fun l hl => hxs l (by simp [hl])), has_or _ _ hi,
      has_bit hi (hxs j (by simp))]
    by_cases h : j = i
    · simp [h]
    · simp [h, Ne.symm h]

theorem has_collect {len : Nat} (hlen : len ≤ 64) (p : Nat → Bool) {i : Nat} (hi : i < 64) :
    (collect len p).has i = (decide (i < len) && p i) := by
  rw [collect, has_foldl_bit _ _ _ hi, has_zero hi]
  · rw [Bool.false_or, Bool.eq_iff_iff]
    simp
  · intro j hj
    have := List.mem_range.1 (List.mem_filter.1 hj).1
    omega

theorem indices_collect {len : Nat} (hlen : len ≤ 64) (p : Nat → Bool) :
    (collect len p).indices = (List.range len).filter p := by
  have hnone : (List.range' len (64 - len)).filter (collect len p).has = [] := by
    rw [List.filter_eq_nil_iff]
    intro i hi
    obtain ⟨h1, h2⟩ := List.mem_range'_1.1 hi
    simp [has_collect hlen p (show i < 64 by omega), show ¬ i < len by omega]
  rw [indices_eq, range_eq_append hlen, List.filter_append, hnone, List.append_nil]
  apply List.filter_congr
  intro i hi
  have hlt := List.mem_range.1 hi
  simp [has_collect hlen p (show i < 64 by omega), hlt]

theorem mem_indices_collect {len : Nat} (hlen : len ≤ 64) (p : Nat → Bool) {i : Nat} :
    i ∈ (collect len p).indices ↔ i < len ∧ p i = true := by
  rw [indices_collect hlen, List.mem_filter, List.mem_range]

end Mask

namespace Lanes

variable {σ α : Type} (g : Lanes)

theorem owner_lt (index : Nat) : g.owner index < g.width := Nat.mod_lt _ g.pos

theorem yields_elect {lane : Nat} (h : lane < g.width) {act : Nat → Prog σ α} {s s' : σ} {a : α}
    (ha : (act lane).Yields s a s') : (g.elect lane act).Yields s a s' := by
  rw [elect]
  exact Prog.yields_bind (Prog.yields_announce _ s)
    (Prog.yields_bind (Prog.yields_require h _ s) ha)

/-- A ballot answers the set of the lanes that vote yes. -/
theorem yields_ballot {vote : Nat → Prog σ Bool} {f : Nat → Bool} {s : σ}
    (h : ∀ lane < g.width, (vote lane).Yields s (f lane) s) :
    ∃ votes, (g.ballot vote).Yields s votes s ∧
      ∀ i < 64, votes.has i = (decide (i < g.width) && f i) := by
  have hle := g.le
  -- after `n` lanes the mask holds the votes below `n`
  obtain ⟨votes, hv, hhas⟩ := Prog.yields_foldlM_range (s := s) (b := (0 : Mask))
    (f := fun votes lane => do return if ← vote lane then votes ||| Mask.bit lane else votes)
    (fun n votes => ∀ i < 64, votes.has i = (decide (i < n) && f i))
    (fun i hi => by simp [Mask.has_zero hi]) g.width (by
      intro n hn votes hhas
      refine ⟨_, Prog.yields_bind (h n hn) (Prog.yields_pure _ s), fun i hi => ?_⟩
      cases hf : f n with
      | false =>
        simp only [Bool.false_eq_true, if_false]
        rw [hhas i hi]
        by_cases hin : i = n
        · simp [hin, hf]
        · have hlt : decide (i < n + 1) = decide (i < n) := decide_eq_decide.2 (by omega)
          rw [hlt]
      | true =>
        simp only [if_true]
        rw [Mask.has_or _ _ hi, hhas i hi, Mask.has_bit hi (by omega)]
        by_cases hin : n = i
        · simp [← hin, hf]
        · have hlt : decide (i < n + 1) = decide (i < n) := decide_eq_decide.2 (by omega)
          rw [hlt]
          simp [hin])
  exact ⟨votes, Prog.yields_bind hv (Prog.yields_bind (Prog.yields_announce _ s)
    (Prog.yields_pure _ s)), hhas⟩

theorem lt_of_lt_strides {len n : Nat} (h : n < g.strides len) : n * g.width < len := by
  have h1 : (n + 1) * g.width ≤ g.strides len * g.width := Nat.mul_le_mul_right _ h
  have h2 : g.strides len * g.width ≤ len + g.width - 1 := Nat.div_mul_le_self _ _
  have hpos := g.pos
  rw [Nat.add_mul] at h1
  omega

theorem le_strides_mul (len : Nat) : len ≤ g.strides len * g.width := by
  have h1 := Nat.div_add_mod (len + g.width - 1) g.width
  have h2 := Nat.mod_lt (len + g.width - 1) g.pos
  rw [strides, Nat.mul_comm]
  omega

/-- The votes of one more stride, put beside those of the strides before. -/
theorem has_or_stride {len base : Nat} (hbase : base < 64) {mask votes : Mask} {f : Nat → Bool}
    (hmask : ∀ i < 64, mask.has i = (decide (i < base ∧ i < len) && f i))
    (hvotes : ∀ i < 64, votes.has i =
      (decide (i < g.width) && (decide (base + i < len) && f (base + i)))) (i : Nat) (hi : i < 64) :
    (mask ||| votes <<< UInt64.ofNat base).has i =
      (decide (i < base + g.width ∧ i < len) && f i) := by
  rw [Mask.has_or _ _ hi, hmask i hi, Mask.has_shiftLeft _ hbase hi,
    hvotes _ (show i - base < 64 by omega)]
  by_cases hb : base ≤ i
  · rw [show base + (i - base) = i by omega]
    by_cases hw : i < base + g.width
    · simp [hb, hw, show i - base < g.width by omega, show ¬ i < base by omega]
    · simp [hw, show ¬ i - base < g.width by omega, show ¬ i < base by omega]
  · simp [hb, show i < base by omega, show i < base + g.width by omega]

/-- A poll answers the set of the indices below `len` with a yes, whatever the width. -/
theorem yields_poll {len : Nat} (hlen : len ≤ 64) {vote : Nat → Prog σ Bool} {f : Nat → Bool}
    {s : σ} (h : ∀ i < len, (vote i).Yields s (f i) s) :
    (g.poll len vote).Yields s (Mask.collect len f) s := by
  -- after `n` strides the mask holds the votes below `n * g.width`
  obtain ⟨mask, hv, hhas⟩ := Prog.yields_foldlM_range (s := s) (b := (0 : Mask))
    (f := fun mask stride => do
      let votes ← g.ballot fun lane =>
        if stride * g.width + lane < len then vote (stride * g.width + lane) else pure false
      return mask ||| votes <<< UInt64.ofNat (stride * g.width))
    (fun n mask => ∀ i < 64, mask.has i = (decide (i < n * g.width ∧ i < len) && f i))
    (fun i hi => by simp [Mask.has_zero hi]) (g.strides len) (by
      intro n hn mask hhas
      have hbase := g.lt_of_lt_strides hn
      have hvote : ∀ lane < g.width, Prog.Yields (if n * g.width + lane < len then
          vote (n * g.width + lane) else pure false) s
          (decide (n * g.width + lane < len) && f (n * g.width + lane)) s := by
        intro lane _
        by_cases hl : n * g.width + lane < len
        · simp only [hl, if_true, decide_true, Bool.true_and]
          exact h _ hl
        · simp only [hl, if_false, decide_false, Bool.false_and]
          exact Prog.yields_pure _ s
      obtain ⟨votes, hvotes, hset⟩ := g.yields_ballot hvote
      refine ⟨_, Prog.yields_bind hvotes (Prog.yields_pure _ s), ?_⟩
      rw [Nat.add_mul, Nat.one_mul]
      exact g.has_or_stride (by omega) hhas hset)
  have hmask : mask = Mask.collect len f := by
    apply Mask.ext
    intro i hi
    rw [hhas i hi, Mask.has_collect hlen f hi]
    by_cases hl : i < len
    · have := g.le_strides_mul len
      simp [hl, show i < g.strides len * g.width by omega]
    · simp [hl]
  subst hmask
  rw [poll]
  exact Prog.yields_bind (Prog.yields_require hlen _ s) hv

end Lanes

end TwoChoice
