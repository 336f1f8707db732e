import TwoChoice.Proofs.Costs
import TwoChoice.Proofs.Matches

/-!
# Packed tags as an array

Four tags share a word, and yet the tags of a bucket behave like an array of their own:
`Tags.unpack` is that array, and it determines the words. A change of one tag is a change of one
element (`Tags.unpack_set`). A scan tells which elements are empty, tombstones and matches
(`Tags.tells_census`). A claim tries the candidates from below. It ends with the first one that is
as expected, which alone is changed, or with the first one past the end of the bucket, at which
there is a fault, or else with nothing (`Tags.claimFirst_ends`).
-/

set_option autoImplicit false

namespace TwoChoice

variable {L : BucketLen}

open Prog

namespace Mask

/-- The elements before one in the list are those below it. -/
theorem countP_indices {m : Mask} {before after : List Nat} {i : Nat}
    (h : m.indices = before ++ i :: after) :
    m.indices.countP (· < i) = before.length ∧ m.indices.countP (· ≤ i) = before.length + 1 := by
  have hsorted := pairwise_indices m
  rw [h, List.pairwise_append, List.pairwise_cons] at hsorted
  obtain ⟨-, ⟨hafter, -⟩, hbefore⟩ := hsorted
  have hb : ∀ j ∈ before, j < i := fun j hj => hbefore j hj i (List.mem_cons_self ..)
  have hlt : before.countP (· < i) = before.length :=
    List.countP_eq_length.2 fun j hj => decide_eq_true (hb j hj)
  have hle : before.countP (· ≤ i) = before.length :=
    List.countP_eq_length.2 fun j hj => decide_eq_true (Nat.le_of_lt (hb j hj))
  have hlt' : after.countP (· < i) = 0 :=
    List.countP_eq_zero.2 fun j hj => by simp [Nat.le_of_lt (hafter j hj)]
  have hle' : after.countP (· ≤ i) = 0 :=
    List.countP_eq_zero.2 fun j hj => by simp [hafter j hj]
  rw [h]
  simp [hlt, hle, hlt', hle']

end Mask

namespace Tags

variable (g : Lanes) (t : Tags L)

/-! ## The array -/

/-- The tags one by one. -/
def unpack : Vector Tag L.slots := .ofFn fun i => t.get i

/-- Bit `n` of the words in a row. -/
def bitAt (n : Nat) : Bool := (t.words[n / 64]?.getD 0).toBitVec.getLsbD (n % 64)

theorem getElem_unpack {i : Nat} (hi : i < L.slots) : t.unpack[i] = t.get i :=
  Vector.getElem_ofFn hi

theorem get_unpack (i : Fin L.slots) : t.unpack.get i = t.get i := t.getElem_unpack i.isLt

/-- A tag is the sixteen bits at its place. -/
theorem bit_unpack (i : Fin L.slots) {n : Nat} (hn : n < 16) :
    (t.unpack.get i).toBitVec.getLsbD n = t.bitAt (16 * i + n) := by
  rw [get_unpack, get, Tag.inWord_bit _ _ hn, bitAt, show (16 * i.val + n) / 64 = i / 4 by omega,
    show (16 * i.val + n) % 64 = i % 4 * 16 + n by omega]

/-- The words hold the tags and nothing else. -/
theorem unpack_injective : Function.Injective (unpack : Tags L → Vector Tag L.slots) := by
  intro t u h
  refine ext_get fun i hi => ?_
  rw [← get_unpack t ⟨i, hi⟩, h, get_unpack]

/-- Another tag for a slot is another element in its place. -/
theorem unpack_set (i : Fin L.slots) (tag : Tag) :
    (t.set i tag).unpack = t.unpack.set i tag i.isLt := by
  apply Vector.ext
  intro j hj
  rw [getElem_unpack, get_set t i.isLt, Vector.getElem_set, getElem_unpack]

/-! ## Reading and writing one tag -/

theorem pays_tagAt (i : Fin L.slots) : (tagAt i.val).Pays t 0 (t.unpack.get i) t := by
  rw [get_unpack]
  exact (yields_bind (yields_require i.isLt _ t) (yields_gets _ t)).pays
    ((silent_require _ _).bind fun _ => silent_gets _)

theorem pays_retag (i : Fin L.slots) (tag : Tag) :
    (retag g i.val tag).Pays t 0 () (t.set i tag) := by
  have hset : (g.elect (g.owner i.val) fun _ => do
      Prog.require (i.val < L.slots) (.noSuchSlot i.val)
      Prog.modify (·.set i.val tag)).Pays t 0 () (t.set i tag) := by
    refine (g.yields_elect (g.owner_lt _) ?_).pays ?_
    · exact yields_bind (yields_require i.isLt _ t) (yields_modify (·.set i.val tag) t)
    · exact g.silent_elect fun _ => (silent_require _ _).bind fun _ => silent_modify _
  exact hset.bind (n := 0) ⟨rfl, rfl⟩

/-! ## Scans -/

/-- The masks tell which tags are empty, tombstones and the given one, and how many are neither
empty nor tombstones. -/
structure Tells (tag : Tag) (census : Census) : Prop where
  empty : ∀ i < 64, census.empty.has i = true ↔ ∃ h : i < L.slots, t.unpack.get ⟨i, h⟩ = Tag.empty
  tombstone : ∀ i < 64,
    census.tombstone.has i = true ↔ ∃ h : i < L.slots, t.unpack.get ⟨i, h⟩ = Tag.tombstone
  matching : ∀ i < 64, census.matching.has i = true ↔ ∃ h : i < L.slots, t.unpack.get ⟨i, h⟩ = tag
  apart : census.empty &&& census.tombstone = 0
  matching_apart : tag ≠ Tag.empty → tag ≠ Tag.tombstone →
    census.matching &&& census.empty = 0 ∧ census.matching &&& census.tombstone = 0
  free_le : census.free.count ≤ L.slots
  occupancy : census.occupancy L.slots =
    t.unpack.countP fun tag => tag != Tag.empty && tag != Tag.tombstone

theorem has_collect_get {i : Nat} (hi : i < 64) (tag : Tag) :
    (Mask.collect L.slots fun i => t.get i == tag).has i = true ↔
      ∃ h : i < L.slots, t.unpack.get ⟨i, h⟩ = tag := by
  rw [Mask.has_collect L.slots_le _ hi, Bool.and_eq_true, decide_eq_true_eq, beq_iff_eq,
    ← exists_prop]
  exact exists_congr fun h => by rw [get_unpack]

/-- Slots with different tags are different slots. -/
theorem collect_and_collect {a b : Tag} (h : a ≠ b) :
    (Mask.collect L.slots fun i => t.get i == a) &&& (Mask.collect L.slots fun i => t.get i == b) =
      0 := by
  refine Mask.eq_zero_iff.2 fun i hi => ?_
  rw [Mask.has_and _ _ hi, Mask.has_collect L.slots_le _ hi, Mask.has_collect L.slots_le _ hi]
  by_cases ha : t.get i = a
  · simp [ha, h]
  · simp [ha]

theorem occupancy_unpack :
    t.occupancy = t.unpack.countP fun tag => tag != Tag.empty && tag != Tag.tombstone := by
  rw [← Vector.countP_toList, unpack, Vector.toList_ofFn, List.ofFn_eq_map, List.countP_map,
    occupancy, ← List.map_coe_finRange_eq_range, List.countP_map]
  rfl

theorem tells_census (tag : Tag) : t.Tells tag (t.census tag) where
  empty _ hi := t.has_collect_get hi _
  tombstone _ hi := t.has_collect_get hi _
  matching _ hi := t.has_collect_get hi _
  apart := t.collect_and_collect Tag.empty_ne_tombstone
  matching_apart he ht := ⟨t.collect_and_collect he, t.collect_and_collect ht⟩
  free_le := by
    refine Mask.count_le L.slots_le fun i hi h => ?_
    rw [has_free t tag hi, Bool.and_eq_true] at h
    exact of_decide_eq_true h.1
  occupancy := (t.occupancy_census tag).trans t.occupancy_unpack

/-! ## Claims -/

/-- How an attempt to claim a candidate ends: after how many probes, with which answer, and with
which tags. -/
inductive ClaimEnds (candidates : Mask) (expected tag : Tag) :
    Nat → Except Halt (Option Nat) → Tags L → Prop
  /-- The lowest candidate that is as expected gets the tag. -/
  | taken {i : Fin L.slots} (here : candidates.has i = true) (found : t.unpack.get i = expected)
    (below : ∀ j < i, candidates.has j = true → t.unpack.get j ≠ expected) :
    ClaimEnds candidates expected tag (candidates.indices.countP (· ≤ i.val)) (.ok (some i.val))
      (t.set i tag)
  /-- All candidates are slots of the bucket, and none is as expected. -/
  | missed (inside : ∀ i < 64, candidates.has i = true → i < L.slots)
    (nowhere : ∀ i : Fin L.slots, candidates.has i = true → t.unpack.get i ≠ expected) :
    ClaimEnds candidates expected tag candidates.count (.ok none) t
  /-- No slot of the bucket is a candidate that is as expected, and the lowest of the other
  candidates is looked for. -/
  | outside {i : Nat} (past : L.slots ≤ i) (here : candidates.has i = true)
    (nowhere : ∀ j : Fin L.slots, candidates.has j = true → t.unpack.get j ≠ expected)
    (below : ∀ j < i, candidates.has j = true → j < L.slots) :
    ClaimEnds candidates expected tag (candidates.indices.countP (· < i))
      (.error (.fault (.noSuchSlot i))) t

/-- The slot is there, and it is tried in vain. -/
def InVain (expected : Tag) (i : Nat) : Prop := i < L.slots ∧ t.get i ≠ expected

/-- Either all are tried in vain, or there is a first one that is not. -/
theorem split_inVain (expected : Tag) : ∀ xs : List Nat,
    (∀ j ∈ xs, t.InVain expected j) ∨ ∃ before i after, xs = before ++ i :: after ∧
      (∀ j ∈ before, t.InVain expected j) ∧ ¬ t.InVain expected i
  | [] => .inl fun _ hj => absurd hj List.not_mem_nil
  | x :: xs => by
    by_cases hx : t.InVain expected x
    · rcases split_inVain expected xs with hall | ⟨before, i, after, rfl, hbefore, hi⟩
      · exact .inl (List.forall_mem_cons.2 ⟨hx, hall⟩)
      · exact .inr ⟨x :: before, i, after, rfl, List.forall_mem_cons.2 ⟨hx, hbefore⟩, hi⟩
    · exact .inr ⟨[], x, xs, rfl, fun _ hj => absurd hj List.not_mem_nil, hx⟩

section
variable {expected tag : Tag} {t : Tags L} {candidates : Mask}

/-- Candidates that are tried in vain are passed over. -/
theorem claimFirst_skip (tag : Tag) (rest : List Nat) : ∀ {before : List Nat},
    (∀ j ∈ before, t.InVain expected j) →
      (claimFirst g expected tag (before ++ rest)).solo t =
        (claimFirst g expected tag rest).solo t ∧
      (claimFirst g expected tag (before ++ rest)).probed t =
        before.length + (claimFirst g expected tag rest).probed t
  | [], _ => ⟨rfl, (Nat.zero_add _).symm⟩
  | j :: before, h => by
    obtain ⟨⟨hj, hne⟩, hbefore⟩ := List.forall_mem_cons.1 h
    obtain ⟨hsolo, hprobed⟩ := claimFirst_skip tag rest hbefore
    have hrequire := (yields_require hj (.noSuchSlot j) t).pays (silent_require _ _)
    have hprobe : (probe 1 : Prog (Tags L) Unit).Pays t 1 () t := ⟨rfl, rfl⟩
    have hattempt := pays_attempt g expected tag j t
    rw [if_neg hne, decide_eq_false hne] at hattempt
    rw [List.cons_append, claimFirst]
    constructor
    · exact (solo_bind_ok hrequire.solo).trans ((solo_bind_ok hprobe.solo).trans
        ((solo_bind_ok hattempt.solo).trans hsolo))
    · rw [hrequire.probed_bind, hprobe.probed_bind, hattempt.probed_bind]
      simp only [Bool.false_eq_true, if_false, hprobed, List.length_cons]
      omega

/-- A candidate past the end is a fault before it is tried. -/
theorem claimFirst_outside (expected tag : Tag) (t : Tags L) {i : Nat} (hi : L.slots ≤ i)
    (rest : List Nat) :
    (claimFirst g expected tag (i :: rest)).solo t = (.error (.fault (.noSuchSlot i)), t) ∧
      (claimFirst g expected tag (i :: rest)).probed t = 0 := by
  rw [claimFirst, require, if_neg (Nat.not_lt.2 hi)]
  exact ⟨rfl, rfl⟩

/-- If all candidates are tried in vain, each of them costs a probe. -/
theorem claimFirst_missed (h : ∀ j ∈ candidates.indices, t.InVain expected j) :
    (claimFirst g expected tag candidates.indices).Ends t candidates.count (.ok none) t ∧
      t.ClaimEnds candidates expected tag candidates.count (.ok none) t := by
  have hvain : ∀ j < 64, candidates.has j = true → t.InVain expected j :=
    fun j hj hc => h j (Mask.mem_indices.2 ⟨hj, hc⟩)
  obtain ⟨hsolo, hprobed⟩ := claimFirst_skip g tag [] h
  rw [List.append_nil] at hsolo hprobed
  refine ⟨ends_of_solo hsolo (hprobed.trans (Mask.count_eq_length candidates).symm),
    .missed (fun j hj hc => (hvain j hj hc).1) fun j hc => ?_⟩
  rw [get_unpack]
  exact (hvain j (Nat.lt_of_lt_of_le j.isLt L.slots_le) hc).2

/-- The first candidate that is not tried in vain ends the attempt. -/
theorem claimFirst_stops {before after : List Nat} {i : Nat}
    (hsplit : candidates.indices = before ++ i :: after)
    (hbefore : ∀ j ∈ before, t.InVain expected j) (hstop : ¬ t.InVain expected i) :
    ∃ n outcome t', (claimFirst g expected tag candidates.indices).Ends t n outcome t' ∧
      t.ClaimEnds candidates expected tag n outcome t' := by
  have hvain : ∀ j < i, j < 64 → candidates.has j = true → t.InVain expected j :=
    fun j hji hj hc => hbefore j (Mask.mem_before hsplit (Mask.mem_indices.2 ⟨hj, hc⟩) hji)
  have hhere : candidates.has i = true :=
    (Mask.mem_indices.1 (hsplit ▸ List.mem_append_right _ (List.mem_cons_self ..))).2
  have hi : i < 64 :=
    (Mask.mem_indices.1 (hsplit ▸ List.mem_append_right _ (List.mem_cons_self ..))).1
  have hne : ∀ j : Fin L.slots, j.val < i → candidates.has j = true →
      t.unpack.get j ≠ expected := by
    intro j hji hc
    rw [get_unpack]
    exact (hvain j hji (by omega) hc).2
  obtain ⟨hlt, hle⟩ := Mask.countP_indices hsplit
  obtain ⟨hsolo, hprobed⟩ := claimFirst_skip g tag (i :: after) hbefore
  rw [← hsplit] at hsolo hprobed
  by_cases hin : i < L.slots
  · have hfound : t.get i = expected := by
      by_contra hother
      exact hstop ⟨hin, hother⟩
    have htake := pays_claimFirst g tag hin after hfound
    refine ⟨_, _, _, ends_of_solo (hsolo.trans htake.solo) (hprobed.trans ?_),
      .taken (i := ⟨i, hin⟩) hhere ?_ hne⟩
    · rw [htake.probed, hle]
    · rw [get_unpack, hfound]
  · have hpast := Nat.le_of_not_lt hin
    obtain ⟨hfault, hfree⟩ := claimFirst_outside g expected tag t hpast after
    refine ⟨_, _, _, ends_of_solo (hsolo.trans hfault) (hprobed.trans ?_),
      .outside hpast hhere (fun j => hne j (by omega)) fun j hji hc => ?_⟩
    · rw [hfree, hlt, Nat.add_zero]
    · exact (hvain j hji (by omega) hc).1

theorem claimFirst_ends (candidates : Mask) : ∃ n outcome t',
    (claimFirst g expected tag candidates.indices).Ends t n outcome t' ∧
      t.ClaimEnds candidates expected tag n outcome t' := by
  rcases t.split_inVain expected candidates.indices with hall | ⟨_, _, _, hsplit, hbefore, hstop⟩
  · exact ⟨_, _, _, claimFirst_missed g hall⟩
  · exact claimFirst_stops g hsplit hbefore hstop

end

/-- **Packed tags behave as an array**, whatever is in the words. The array determines the words,
and each tag is the sixteen bits at its place. A slot that gets another tag changes one element. The
masks of a scan are the slots of the bucket with one tag each, so they have nothing in common, and
the tag of a key is neither that of an empty slot nor that of a tombstone. A claim gives its tag to
the lowest candidate that is empty, or a tombstone, and to no other slot, and makes a probe for each
candidate that it tries. Without such a candidate it leaves the words as they are, and it faults
only if it comes to a candidate past the end. -/
theorem behave_as_array :
    Function.Injective (unpack : Tags L → Vector Tag L.slots) ∧
    (∀ (i : Fin L.slots) (n : Nat), n < 16 →
      (t.unpack.get i).toBitVec.getLsbD n = t.bitAt (16 * i + n)) ∧
    (∀ i : Fin L.slots, (tagAt i.val).Runs t 0 (t.unpack.get i) t) ∧
    (∀ (i : Fin L.slots) (tag : Tag), (retag g i.val tag).Runs t 0 () (t.set i tag) ∧
      (t.set i tag).unpack = t.unpack.set i tag i.isLt) ∧
    (∀ tag : Tag, ∃ census, (scan g tag).Runs t 1 census t ∧ t.Tells tag census) ∧
    (∀ (w : Width) (key : Word w), Tag.ofKey key ≠ Tag.empty ∧ Tag.ofKey key ≠ Tag.tombstone) ∧
    ∀ (tag : Tag) (candidates : Mask),
      (∃ n outcome t', (claimEmpty g tag candidates).Ends t n outcome t' ∧
        t.ClaimEnds candidates Tag.empty tag n outcome t') ∧
      ∃ n outcome t', (claimTombstone g tag candidates).Ends t n outcome t' ∧
        t.ClaimEnds candidates Tag.tombstone tag n outcome t' := by
  refine ⟨unpack_injective, fun i n hn => t.bit_unpack i hn, fun i => (t.pays_tagAt i).runs,
    fun i tag => ⟨(pays_retag g t i tag).runs, t.unpack_set i tag⟩, fun tag => ?_,
    fun w key => ⟨Tag.ofKey_ne_empty key, Tag.ofKey_ne_tombstone key⟩, fun tag candidates => ?_⟩
  · exact ⟨_, (pays_scan g tag t).runs, t.tells_census tag⟩
  · exact ⟨claimFirst_ends g candidates, claimFirst_ends g candidates⟩

/-- All four slots are taken, and bit 4 of the candidates is past the end: the slots 1 to 3 are tried
in vain before the fault. -/
example :
    let full : Tags ⟨1, by decide, by decide⟩ := ⟨#v[0x0009000900090009]⟩
    let claim := claimEmpty (L := ⟨1, by decide, by decide⟩) ⟨2, by decide, by decide⟩ 7 0b11110
    (claim.solo full, claim.probed full) = ((.error (.fault (.noSuchSlot 4)), full), 3) := rfl

end Tags

end TwoChoice
