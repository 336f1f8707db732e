import TwoChoice.Proofs.Costs
import TwoChoice.Proofs.Widths

/-!
# One index after the other

A poll asks about every index below its length once, in ascending order, and about nothing else,
whatever the lanes read and write while they vote: it is alike to a row of questions
(`Lanes.poll_alike_mapM`). Its strides are those that begin below the length
(`Lanes.lt_strides_iff`). To take the lowest element out of a mask until nothing is left is to list
the elements in ascending order (`Mask.indices_unfold`), so the indices that a poll finds are what a
filter leaves of the numbers below its length (`Lanes.indices_poll`).
-/

set_option autoImplicit false

namespace TwoChoice

/-! ## Questions in a row -/

namespace Prog

variable {σ α β ι : Type}

/-- There is one answer to each question. -/
theorem mapM_bind_congr {f : ι → Prog σ α} {k l : List α → Prog σ β} :
    ∀ xs : List ι, (∀ as : List α, as.length = xs.length → k as = l as) →
      xs.mapM f >>= k = xs.mapM f >>= l
  | [], h => h [] rfl
  | x :: xs, h => by
    simp only [List.mapM_cons, bind_assoc, pure_bind]
    refine bind_congr fun a => mapM_bind_congr xs fun as has => h (a :: as) ?_
    simp [has]

/-- The ones with a yes. -/
def withYes (xs : List ι) (votes : List Bool) : List ι :=
  (xs.zip votes).filterMap fun x => if x.2 then some x.1 else none

/-- A filter asks all questions and takes the ones with a yes. -/
theorem filterM_eq_mapM (vote : ι → Prog σ Bool) (xs : List ι) :
    xs.filterM vote = do return withYes xs (← xs.mapM vote) := by
  -- the loop keeps what it took in the opposite order
  have loop : ∀ (xs taken : List ι), xs.filterAuxM vote taken =
      do return (withYes xs (← xs.mapM vote)).reverse ++ taken := by
    intro xs
    induction xs with
    | nil => exact fun _ => rfl
    | cons x xs ih =>
      intro taken
      simp only [List.filterAuxM, List.mapM_cons, bind_assoc, pure_bind]
      refine bind_congr fun yes => ?_
      rw [ih]
      refine bind_congr fun votes => ?_
      cases yes <;> simp [withYes]
  simp [List.filterM, loop]

/-- One more vote does not change what is below it. -/
theorem filter_snoc (votes : List Bool) (yes : Bool) :
    (List.range votes.length).filter (fun i => (votes ++ [yes]).getD i false) =
      (List.range votes.length).filter (votes.getD · false) := by
  refine List.filter_congr fun i hi => ?_
  rw [List.mem_range] at hi
  simp [List.getElem?_append_left hi]

/-- Of the numbers below the number of votes, the ones with a yes are what a filter leaves. -/
theorem withYes_range (votes : List Bool) :
    withYes (List.range votes.length) votes =
      (List.range votes.length).filter (votes.getD · false) := by
  unfold withYes
  induction votes using List.reverseRecOn with
  | nil => rfl
  | append_singleton votes yes ih =>
    rw [List.length_append, List.length_singleton, List.range_succ, List.filter_append, filter_snoc,
      List.zip_append (by simp), List.filterMap_append, ih]
    cases yes <;> simp

end Prog

open Prog

namespace Mask

theorem collect_snoc (votes : List Bool) (yes : Bool) :
    collect (votes.length + 1) (fun i => (votes ++ [yes]).getD i false) =
      if yes then collect votes.length (votes.getD · false) ||| bit votes.length
      else collect votes.length (votes.getD · false) := by
  unfold collect
  rw [List.range_succ, List.filter_append, List.foldl_append, filter_snoc]
  cases yes <;> simp

/-- Every round of the listing of a mask leaves fewer elements. -/
theorem count_dropLowest {m : Mask} (h : m ≠ 0) : m.dropLowest.count < m.count := by
  have hround := indices_unfold m
  rw [if_neg h] at hround
  simp [count_eq_length, hround]

end Mask

/-! ## Polls -/

namespace Lanes

variable {σ : Type} (g : Lanes)

/-- There is a stride for each multiple of the width below the length. -/
theorem lt_strides_iff (len n : Nat) : n < g.strides len ↔ n * g.width < len := by
  refine ⟨g.lt_of_lt_strides, fun h => ?_⟩
  have hall := g.le_strides_mul len
  exact Nat.lt_of_mul_lt_mul_right (a := g.width) (by omega)

/-- Votes one after the other make the mask of those with a yes. -/
theorem foldlM_count (vote : Nat → Prog σ Bool) (len : Nat) :
    (List.range len).foldlM (count vote) (0 : Mask) = do
      let votes ← (List.range len).mapM vote
      return Mask.collect len (votes.getD · false) := by
  induction len with
  | zero => rfl
  | succ n ih =>
    rw [List.range_succ, List.foldlM_append, List.mapM_append, ih]
    simp only [List.foldlM_cons, List.foldlM_nil, List.mapM_cons, List.mapM_nil, count, bind_assoc,
      pure_bind, bind_pure]
    refine mapM_bind_congr _ fun votes hvotes => bind_congr fun yes => ?_
    obtain rfl : votes.length = n := hvotes.trans List.length_range
    rw [Mask.collect_snoc]

/-- A poll asks about one index after the other. -/
theorem poll_alike_mapM {len : Nat} (hlen : len ≤ 64) (vote : Nat → Prog σ Bool) :
    (g.poll len vote).Alike do
      let votes ← (List.range len).mapM vote
      return Mask.collect len (votes.getD · false) := by
  refine (g.poll_alike len vote).trans ?_
  rw [roll, require, if_pos hlen, foldlM_count]
  exact .refl _

/-- What a poll finds is what a filter leaves. -/
theorem indices_poll {len : Nat} (hlen : len ≤ 64) (vote : Nat → Prog σ Bool) :
    (Mask.indices <$> g.poll len vote).Alike ((List.range len).filterM vote) := by
  refine ((g.poll_alike_mapM hlen vote).map Mask.indices).trans ?_
  rw [filterM_eq_mapM, map_eq, bind_assoc]
  simp only [pure_bind, Mask.indices_collect hlen]
  rw [mapM_bind_congr _ fun votes hvotes => ?_]
  · exact .refl _
  · obtain rfl : votes.length = len := hvotes.trans List.length_range
    rw [withYes_range]

/-- **A poll asks once about every index below its length, in ascending order**, and about nothing
else, also when the answers depend on what was asked before. It takes the strides that begin below
the length. Bit `i` of the mask says whether `i` got a yes, and the elements of the mask are what a
filter by the same questions leaves. A mask is listed by taking its lowest element out, which leaves
fewer elements, until nothing is left: the list ascends and holds what is in the mask. Whatever the
index, its owner is one of the lanes. -/
theorem poll_in_turn {len : Nat} (hlen : len ≤ 64) (vote : Nat → Prog σ Bool) :
    (∀ n, n < g.strides len ↔ n * g.width < len) ∧
    ((g.poll len vote).Alike do
      let votes ← (List.range len).mapM vote
      return Mask.collect len (votes.getD · false)) ∧
    (∀ p : Nat → Bool, ∀ i < 64, (Mask.collect len p).has i = (decide (i < len) && p i)) ∧
    (Mask.indices <$> g.poll len vote).Alike ((List.range len).filterM vote) ∧
    (∀ m : Mask, m.indices = (if m = 0 then [] else m.lowest :: m.dropLowest.indices) ∧
      (m ≠ 0 → m.dropLowest.count < m.count) ∧
      m.indices.Pairwise (· < ·) ∧ ∀ i, i ∈ m.indices ↔ i < 64 ∧ m.has i = true) ∧
    ∀ index, g.owner index < g.width := by
  refine ⟨g.lt_strides_iff len, g.poll_alike_mapM hlen vote, fun p i hi => ?_,
    g.indices_poll hlen vote, fun m => ?_, g.owner_lt⟩
  · exact Mask.has_collect hlen p hi
  · exact ⟨m.indices_unfold, Mask.count_dropLowest, m.pairwise_indices, fun i => Mask.mem_indices⟩

/-- Says yes to every fifth question and remembers what it was asked. -/
def everyFifth (i : Nat) : Prog (List Nat) Bool := do
  let asked ← Prog.gets id
  Prog.modify (· ++ [i])
  return asked.length % 5 == 0

/-- Three lanes ask about sixteen indices, so that the last stride is a ragged one. -/
theorem poll_in_turn_ragged :
    16 ≤ 64 ∧ (Mask.indices <$> poll ⟨3, by decide, by decide⟩ 16 everyFifth).solo [] =
      (.ok [0, 5, 10, 15], List.range 16) := by
  obtain ⟨-, -, -, hfilter, -, -⟩ :=
    poll_in_turn ⟨3, by decide, by decide⟩ (show 16 ≤ 64 by decide) everyFifth
  exact ⟨by decide, hfilter.solo []⟩

end Lanes

end TwoChoice
