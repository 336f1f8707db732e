import TwoChoice.Mask
import TwoChoice.Prog

/-!
# Lanes

A group of 1 to 64 lanes runs a program in lockstep. The lanes vote in ballots, and one of them is
elected for everything that must happen once. `Lanes.poll` votes on the indices of a whole bucket,
as many at a time as there are lanes.
-/

set_option autoImplicit false

namespace TwoChoice

/-- The lanes of a group. -/
structure Lanes where
  width : Nat
  pos : 0 < width
  le : width ≤ 64

namespace Lanes

variable {σ α : Type} (g : Lanes)

/-- The lanes of a group of that width, if there can be one. -/
def ofWidth? (width : Nat) : Option Lanes :=
  if h : 0 < width ∧ width ≤ 64 then some ⟨width, h.1, h.2⟩ else none

/-- The lane in charge of an index. -/
def owner (index : Nat) : Nat := index % g.width

/-- Each lane votes, from the first to the last; bit `i` is the vote of lane `i`. -/
def ballot (vote : Nat → Prog σ Bool) : Prog σ Mask := do
  let votes ← (List.range g.width).foldlM
    (fun votes lane => do return if ← vote lane then votes ||| Mask.bit lane else votes) 0
  Prog.announce (.ballot votes)
  return votes

/-- The number of ballots it takes to vote on `len` indices. -/
def strides (len : Nat) : Nat := (len + g.width - 1) / g.width

/-- A vote on every index below `len`, in strides of the width. A lane past the end says no. -/
def poll (len : Nat) (vote : Nat → Prog σ Bool) : Prog σ Mask := do
  Prog.require (len ≤ 64) (.pollTooLong len)
  (List.range (g.strides len)).foldlM (fun mask stride => do
    let base := stride * g.width
    let votes ← g.ballot fun lane => if base + lane < len then vote (base + lane) else pure false
    return mask ||| votes <<< UInt64.ofNat base) 0

/-- The lane acts for the group, and all lanes get its answer. -/
def elect (lane : Nat) (act : Nat → Prog σ α) : Prog σ α := do
  Prog.announce (.elect lane)
  Prog.require (lane < g.width) (.noSuchLane lane)
  act lane

end Lanes

end TwoChoice
