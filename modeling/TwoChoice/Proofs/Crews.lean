import Mathlib.Data.DFinsupp.WellFounded
import TwoChoice.Proofs.Workers

/-!
# Crews

A bulk store by workers deals its pairs out in chunks, and the workers store their chunks at the
same time. `Table.crew t parts groups` are the workers before they begin, as operations side by side
(`Traffic`), each with a part of the pairs and a group of its own.

`Traffic.ComesTo P t`: in whatever order the operations take their turns, all of them come to their
answers, and `P` holds then. The turns come to an end, as each of them takes a part of one program
(`Prog.Next`, `Traffic.comesTo_of_invariant`). Until then somebody can go on, as the operations
never wait for each other in a circle (`Traffic.Orderly.exists_able`).

What holds between the turns of a crew is `Traffic.AtWork`: every worker, among any pairs that the
others may store, comes to store all of its own. A turn of one worker keeps that of all
(`Traffic.AtWork.advance`). So a crew loads all pairs (`Table.crew_comesTo`), and pairs may be
loaded in any order, by one or by workers (`Table.Reachable.loads_in_any_order`).
-/

set_option autoImplicit false

namespace TwoChoice

variable {k v : Width}

/-! ## Turns come to an end -/

namespace Prog

variable {σ α : Type}

/-- The first program is what is left of the second after one step. -/
inductive Next : Prog σ α → Prog σ α → Prop
  | read (q : σ → Prog σ α) (s : σ) : Next (q s) (.read q)
  | write (f : σ → σ) (p : Prog σ α) : Next p (.write f p)
  | emit (e : Event) (p : Prog σ α) : Next p (.emit e p)
  | sync (p : Prog σ α) : Next p (.sync p)

theorem wellFounded_next : WellFounded (Next : Prog σ α → Prog σ α → Prop) := by
  refine ⟨fun p => ?_⟩
  induction p with
  | done | halt => exact ⟨_, nofun⟩
  | read q ih => exact ⟨_, fun | _, .read _ s => ih s⟩
  | write f p ih => exact ⟨_, fun | _, .write _ _ => ih⟩
  | emit e p ih => exact ⟨_, fun | _, .emit _ _ => ih⟩
  | sync p ih => exact ⟨_, fun | _, .sync _ => ih⟩

/-- Up to its next pause a program loses a part, unless it has ended. -/
theorem segment_next {p q : Prog σ α} {s s' : σ} (h : p.segment s = (.ok q, s')) :
    (q = p ∧ ∃ a, p = .done a) ∨ Relation.TransGen Next q p := by
  induction p generalizing s with
  | done a =>
    cases h
    exact .inl ⟨rfl, a, rfl⟩
  | halt => cases h
  | read k ih =>
    rcases ih s h with ⟨rfl, -⟩ | hq
    · exact .inr (.single (.read k s))
    · exact .inr (hq.tail (.read k s))
  | write f p ih =>
    rcases ih h with ⟨rfl, -⟩ | hq
    · exact .inr (.single (.write f q))
    · exact .inr (hq.tail (.write f p))
  | emit e p ih =>
    rcases ih h with ⟨rfl, -⟩ | hq
    · exact .inr (.single (.emit e q))
    · exact .inr (hq.tail (.emit e p))
  | sync p =>
    cases h
    exact .inr (.single (.sync q))

end Prog

namespace Traffic

section
variable {c : Config k} {ι : Type}

/-- The operation has come to its answer. -/
def Done (t : Traffic c v ι) (i : ι) : Prop := ∃ reply, t.left i = .done reply

/-- The operation has not come to its answer yet, and does not wait for a lock. -/
def Able (t : Traffic c v ι) (i : ι) : Prop := ¬ t.Done i ∧ t.awaited i = none

/-- In whatever order the operations take their turns, all of them come to their answers, and `P`
holds then. Before that, one of them can always take a turn. -/
inductive ComesTo [DecidableEq ι] (P : Traffic c v ι → Prop) : Traffic c v ι → Prop
  | ended {t} (done : ∀ i, t.Done i) (holds : P t) : ComesTo P t
  | later {t} (able : ∃ i, t.Able i) (turns : ∀ i, t.Able i → ComesTo P (t.advance i)) :
    ComesTo P t

end

variable {c : Config k} {n : Nat} {t : Traffic c v (Fin n)}

/-- Every turn takes a part of one program, so operations that never halt come to an end. -/
theorem comesTo_of_invariant {I P : Traffic c v (Fin n) → Prop}
    (hturn : ∀ {t i}, I t → t.Able i → I (t.advance i) ∧
      ∃ p s, (t.left i).segment t.cells = (.ok p, s))
    (hable : ∀ {t}, I t → (∀ i, t.Done i) ∨ ∃ i, t.Able i)
    (hend : ∀ {t}, I t → (∀ i, t.Done i) → P t) (h : I t) : t.ComesTo P := by
  have hwf := Pi.Lex.wellFounded (fun i j : Fin n => i < j) (s := fun _ => Relation.TransGen
    (Prog.Next : Prog (Cells k v c.shape) (Reply k v) → _ → Prop)) fun _ =>
      Prog.wellFounded_next.transGen
  -- the induction is on what is left of all of them: a turn lowers one of these and no other
  generalize hleft : t.left = left
  induction left using hwf.induction generalizing t with
  | _ left ih =>
    rcases hable h with hdone | hsome
    · exact .ended hdone (hend h hdone)
    refine .later hsome fun i hi => ?_
    obtain ⟨hI, p, s, hsegment⟩ := hturn h hi
    have hself : (t.advance i).left i = p := by simp [advance, hsegment]
    have hother : ∀ j, j ≠ i → (t.advance i).left j = t.left j := fun j hj => if_neg hj
    refine ih _ ⟨i, fun j hj => ?_, ?_⟩ hI rfl
    · rw [hother j hj.ne, hleft]
    · rw [hself, ← hleft]
      rcases Prog.segment_next hsegment with ⟨-, hdone⟩ | hnext
      · exact absurd hdone hi.1
      · exact hnext

/-! ## Somebody can go on -/

section
variable {ι : Type} {t : Traffic c v ι} {i : ι} {b : Nat}

theorem Orderly.not_held_of_done (h : t.Orderly) (hdone : t.Done i) : t.holder b ≠ some i := by
  obtain ⟨reply, hreply⟩ := hdone
  have hgo := h.goesOn i t.cells (h.rests i)
  rw [hreply] at hgo
  have hnone : {b | t.holder b = some i} = ∅ := (h.rests i).holds.2.symm.trans hgo.2
  exact fun hb => hnone.subset hb

/-- Unless all are done, one of them does not wait. -/
theorem Orderly.exists_able (h : t.Orderly) : (∀ i, t.Done i) ∨ ∃ i, t.Able i := by
  by_contra hstuck
  rw [not_or, not_forall, not_exists] at hstuck
  obtain ⟨⟨i, hi⟩, hnone⟩ := hstuck
  refine h.not_deadlocked (S := {i | ¬ t.Done i}) ⟨i, hi⟩ fun i hi => ?_
  obtain ⟨b, hb⟩ := Option.ne_none_iff_exists'.1 fun hfree => hnone i ⟨hi, hfree⟩
  obtain ⟨j, hj⟩ := (h.locked b).1 (h.of_awaited hb).1
  exact ⟨b, hb, j, fun hdone => h.not_held_of_done hdone hj, hj⟩

end

/-! ## A crew at work -/

/-- The pairs of the list are shared out, each to one worker. -/
structure Shared {ι : Type} (pairs : List (Word k × Word v)) (own : ι → List (Word k × Word v)) :
    Prop where
  mem : ∀ x, x ∈ pairs ↔ ∃ i, x ∈ own i
  apart : ∀ i j, j ≠ i → ∀ x ∈ own i, ∀ y ∈ own j, y.1 ≠ x.1

/-- The pairs of the other workers. -/
def others {ι : Type} (own : ι → List (Word k × Word v)) (i : ι) : Set (Word k × Word v) :=
  {x | ∃ j, j ≠ i ∧ x ∈ own j}

/-- What holds whenever all workers are at a pause: whatever pairs the others go on to store, each
worker comes to its end with the answer `true` and with all its pairs stored, unless it waits for a
lock. -/
structure AtWork {ι : Type} (t : Table k v) (pairs : List (Word k × Word v))
    (own : ι → List (Word k × Word v)) (u : Traffic t.config v ι) : Prop where
  orderly : u.Orderly
  filling : t.Filling pairs u.cells
  goesOn : ∀ i s, Rests {b | u.holder b = some i} ({b | u.holder b = some i}, s) s →
    t.config.Brings (others own i) u.cells s →
    (u.left i).Ensures (among t.config {x | x ∈ own i} (others own i)) Waits
      ({b | u.holder b = some i}, s) s fun reply r s =>
        reply = .flag true ∧ Stocked t pairs (own i) {x | x ∈ own i} r s

section
variable {ι : Type} {t : Table k v} {pairs : List (Word k × Word v)}
variable {own : ι → List (Word k × Word v)} {u : Traffic t.config v ι} {i : ι}

theorem Shared.subset (hown : Shared pairs own) (i : ι) : {x | x ∈ own i} ⊆ {x | x ∈ pairs} :=
  fun x hx => (hown.mem x).2 ⟨i, hx⟩

theorem Shared.others_subset (hown : Shared pairs own) (i : ι) :
    others own i ⊆ {x | x ∈ pairs} :=
  fun x ⟨j, _, hx⟩ => (hown.mem x).2 ⟨j, hx⟩

theorem Shared.others_apart (hown : Shared pairs own) (i : ι) :
    ∀ x ∈ {x | x ∈ own i}, ∀ y ∈ others own i, y.1 ≠ x.1 :=
  fun x hx y ⟨j, hj, hy⟩ => hown.apart i j hj x hx y hy

theorem stocked_stable (ht : t.config.Quiet t.cells) (hown : Shared pairs own) (i : ι)
    (a : Reply k v) : (among t.config {x | x ∈ own i} (others own i)).Stable fun r s =>
      a = .flag true ∧ Stocked t pairs (own i) {x | x ∈ own i} r s where
  ready h := ⟨h.2.holds.1, h.2.moved⟩
  turn h hturn := ⟨h.1, (h.2.turn ht (hown.others_subset i) (hown.others_apart i)
    (fun _ hx => hx) hturn).2⟩

variable [DecidableEq ι]

/-- A turn of a worker comes to a pause, and it brings pairs of this worker. -/
theorem AtWork.turn (h : AtWork t pairs own u) (ht : t.config.Quiet t.cells)
    (hown : Shared pairs own) (hfree : u.awaited i = none) :
    (∃ p s, (u.left i).segment u.cells = (.ok p, s)) ∧
    (among t.config {x | x ∈ own i} (others own i)).ready
      ({b | u.holder b = some i}, u.cells) (u.advance i).cells ∧
    ∀ r s, (among t.config {x | x ∈ own i} (others own i)).turn
      ({b | u.holder b = some i}, u.cells) (u.advance i).cells r s →
      ((u.advance i).left i).Ensures (among t.config {x | x ∈ own i} (others own i)) Waits r s
        fun reply r s => reply = .flag true ∧ Stocked t pairs (own i) {x | x ∈ own i} r s := by
  have hturn := (h.goesOn i u.cells (h.orderly.rests i) (.refl _)).segment
    (stocked_stable ht hown i)
  rw [awaited] at hfree
  simp only [advance, if_pos]
  generalize (u.left i).segment u.cells = after at hturn hfree
  obtain ⟨_ | p, s⟩ := after
  · obtain ⟨b, rfl⟩ := hturn
    cases hfree
  · exact ⟨⟨p, s, rfl⟩, hturn⟩

/-- **One turn of a worker keeps all of them at work.** -/
theorem AtWork.advance (h : AtWork t pairs own u) (ht : t.config.Quiet t.cells)
    (hown : Shared pairs own) (hfree : u.awaited i = none) : AtWork t pairs own (u.advance i) := by
  obtain ⟨-, hready, hgo⟩ := h.turn ht hown hfree
  refine ⟨h.orderly.advance hfree, h.filling.brings (hown.subset i) hready.2,
    fun j s hrests hothers => ?_⟩
  by_cases hij : j = i
  · subst hij
    rw [h.orderly.holder_self] at hrests ⊢
    exact hgo _ s ⟨⟨rfl, hrests.2⟩, hothers⟩
  · have hsame : {b | (u.advance i).holder b = some j} = {b | u.holder b = some j} :=
      Set.ext fun b => h.orderly.holder_other hij hready.1
    have hleft : (u.advance i).left j = u.left j := if_neg hij
    rw [hsame] at hrests ⊢
    rw [hleft]
    have hbrought : t.config.Brings (others own j) u.cells (u.advance i).cells :=
      hready.2.mono fun x hx => ⟨i, Ne.symm hij, hx⟩
    exact h.goesOn j s hrests (hbrought.trans hothers)

end

end Traffic

namespace Table

open Config Traffic

variable {t : Table k v} {pairs pairs' : List (Word k × Word v)}

/-- Workers who have not begun, each with a part of the pairs and a group of its own. A worker does
what `upsertAll` does, with a pause after each pair (`Config.upsertApart`). -/
def crew (t : Table k v) (parts : List (List (Word k × Word v)))
    (groups : Fin parts.length → Group) : Traffic t.config v (Fin parts.length) where
  cells := t.cells
  left i := .flag <$> t.config.upsertApart (groups i) (parts.get i)
  holder _ := none

theorem shared_of_perm {parts : List (List (Word k × Word v))}
    (hperm : parts.flatten.Perm pairs) (hkeys : (pairs.map Prod.fst).Nodup) :
    Shared pairs fun i : Fin parts.length => parts.get i where
  mem x := by
    rw [← hperm.mem_iff, List.mem_flatten]
    exact ⟨fun ⟨part, hpart, hx⟩ => by
      obtain ⟨i, rfl⟩ := List.mem_iff_get.1 hpart
      exact ⟨i, hx⟩, fun ⟨i, hx⟩ => ⟨_, List.get_mem parts i, hx⟩⟩
  apart := by
    have hflat : (parts.flatten.map Prod.fst).Nodup := (hperm.map Prod.fst).nodup_iff.2 hkeys
    rw [List.Nodup, List.pairwise_map, List.pairwise_flatten] at hflat
    have hlt := List.pairwise_iff_get.1 hflat.2
    intro i j hij x hx y hy
    rcases Nat.lt_or_gt_of_ne (Fin.val_ne_of_ne hij) with h | h
    · exact hlt j i h y hy x hx
    · exact (hlt i j h x hx y hy).symm

theorem atWork_crew (h : t.Loadable pairs) (ht : t.config.Quiet t.cells)
    {parts : List (List (Word k × Word v))} (hperm : parts.flatten.Perm pairs)
    {groups : Fin parts.length → Group} (hpasses : ∀ i, pairs.length < (groups i).passes) :
    AtWork t pairs (fun i => parts.get i) (t.crew parts groups) := by
  have hown := shared_of_perm hperm h.nodup
  have hnone : ∀ i, {b | (t.crew parts groups).holder b = some i} = ∅ := fun i =>
    Set.ext fun b => by simp [crew]
  refine ⟨⟨fun b => by simp [crew, ht.unlocked b], fun i s hrests => ?_⟩, .refl _,
    fun i s hrests hothers => ?_⟩
  · exact Prog.ensures_map.2 (upsertApart_amid (groups i) _ (hnone i ▸ hrests))
  · have hstart : t.Filling pairs s := hothers.mono (hown.others_subset i)
    refine Prog.ensures_map.2 ((upsertApart_among h ht (hown.subset i) (hown.others_subset i)
      (hown.others_apart i) (groups i) (hpasses i) (fun _ hx => hx) hstart
      (hnone i ▸ hrests)).mono fun all r s hend => ?_)
    exact ⟨congrArg Reply.flag hend.1, hend.2⟩

/-- What was not listed is as before, what was listed is there. -/
theorem Filling.contents_overridden {s : Cells k v t.config.shape} (hs : t.Filling pairs s)
    (ht : t.config.Quiet t.cells) (hkeys : (pairs.map Prod.fst).Nodup)
    (hall : ∀ x ∈ pairs, t.config.Has s x) (key : Word k) :
    (t.config.contents s key).map Prod.fst = (t.config.contents t.cells).overridden pairs key := by
  rw [Contents.overridden]
  cases hlookup : pairs.lookup key with
  | some value => exact hall _ ((lookup_eq_some_iff_mem hkeys).1 hlookup)
  | none =>
    rw [Option.none_or, Brings.contents_eq hs ht.sound fun x hx he => ?_]
    exact bne_iff_ne.1 (List.lookup_eq_none_iff.1 hlookup x hx) he.symm

/-- When all are done, all pairs are in the table. -/
theorem loaded_of_atWork {parts : List (List (Word k × Word v))}
    {u : Traffic t.config v (Fin parts.length)} (h : t.Loadable pairs)
    (ht : t.config.Quiet t.cells) (hown : Shared pairs fun i : Fin parts.length => parts.get i)
    (hwork : AtWork t pairs (fun i => parts.get i) u) (hdone : ∀ i, u.Done i) :
    (∀ i, u.left i = .done (.flag true)) ∧ t.Loaded pairs { t with cells := u.cells } := by
  have hended : ∀ i, u.left i = .done (.flag true) ∧ ∀ x ∈ parts.get i, t.config.Has u.cells x := by
    intro i
    obtain ⟨reply, hreply⟩ := hdone i
    have hgo := hwork.goesOn i u.cells (hwork.orderly.rests i) (.refl _)
    rw [hreply] at hgo
    obtain ⟨rfl, hstocked⟩ := hgo
    exact ⟨hreply, hstocked.has⟩
  have hunlocked : ∀ b, u.cells.locks.isLocked b = false := by
    intro b
    rw [← Bool.not_eq_true, hwork.orderly.locked b]
    exact fun ⟨i, hi⟩ => hwork.orderly.not_held_of_done (hdone i) hi
  have hquiet : t.config.Quiet u.cells := ⟨hwork.filling.sound ht, hunlocked⟩
  have hcontents := hwork.filling.contents_overridden ht h.nodup fun x hx => by
    obtain ⟨i, hi⟩ := (hown.mem x).1 hx
    exact (hended i).2 x hi
  exact ⟨fun i => (hended i).1, loaded_of_contents hquiet h.live h.nodup hcontents⟩

/-- **A crew loads all pairs**, in whatever order the workers take their turns. -/
theorem crew_comesTo (h : t.Loadable pairs) (ht : t.config.Quiet t.cells)
    {parts : List (List (Word k × Word v))} (hperm : parts.flatten.Perm pairs)
    {groups : Fin parts.length → Group} (hpasses : ∀ i, pairs.length < (groups i).passes) :
    (t.crew parts groups).ComesTo fun u =>
      (∀ i, u.left i = .done (.flag true)) ∧ t.Loaded pairs { t with cells := u.cells } := by
  have hown := shared_of_perm hperm h.nodup
  refine comesTo_of_invariant (I := AtWork t pairs fun i => parts.get i) (fun hwork hable => ?_)
    (fun hwork => hwork.orderly.exists_able) (fun hwork hdone => ?_)
    (atWork_crew h ht hperm hpasses)
  · exact ⟨hwork.advance ht hown hable.2, (hwork.turn ht hown hable.2).1⟩
  · exact loaded_of_atWork h ht hown hwork hdone

/-- **Pairs may be loaded in any order**, at once or by workers: if there is room for them, all of
them are stored and found, and the table stands for the old map overridden by the pairs. So it is
when the chunks are worked off one after the other, when each pair is stored by a call of its own,
and when the workers are at work at the same time, in whatever order they take their turns. -/
theorem Reachable.loads_in_any_order (ht : t.Reachable) (h : t.Loadable pairs) (lanes : Lanes) :
    (∀ call : Call k v, call.Loads pairs →
      let ended := t.handle lanes [] (.call call)
      ended.1.outcome = .ok (some (.flag true)) ∧ t.Loaded pairs ended.2) ∧
    (∀ pairs', pairs'.Perm pairs →
      let single := t.upserts lanes pairs'
      (∀ report ∈ single.1, report.outcome = .ok (some (.flag true))) ∧
        t.Loaded pairs single.2) ∧
    ∀ pairs' workers, pairs'.Perm pairs → pairs'.length + max workers 1 < 2 ^ 64 →
      ∃ n, chunkSize? pairs'.length workers = some n ∧
        ∀ groups : Fin (chunks n pairs').length → Group,
          (∀ i, pairs.length < (groups i).passes) →
          (t.crew (chunks n pairs') groups).ComesTo fun u =>
            (∀ i, u.left i = .done (.flag true)) ∧ t.Loaded pairs { t with cells := u.cells } := by
  refine ⟨fun call hcall => handle_loaded ht.quiet h hcall lanes,
    fun pairs' hperm => upserts_loaded ht.quiet h hperm lanes,
    fun pairs' workers hperm fits => ?_⟩
  have hdealt := dealt_chunks pairs' workers
  cases hn : chunkSize? pairs'.length workers with
  | none =>
    rw [hn] at hdealt
    exact absurd fits (Nat.not_lt.2 hdealt)
  | some n =>
    rw [hn] at hdealt
    have hflat : (chunks n pairs').flatten.Perm pairs := by rwa [hdealt.2.flatten]
    exact ⟨n, rfl, fun groups hpasses => crew_comesTo h ht.quiet hflat hpasses⟩

/-- Two workers load two pairs into an empty table, one after the other or at the same time. -/
theorem loads_in_any_order_small :
    let ended := small.handle ⟨4, by decide, by decide⟩ []
      (.call (.upsertInChunks [(6, 2), (5, 1)] 2))
    let group : Group := ⟨⟨4, by decide, by decide⟩, 3⟩
    (ended.1.outcome = .ok (some (.flag true)) ∧ small.Loaded [(5, 1), (6, 2)] ended.2) ∧
      (small.crew [[(6, 2)], [(5, 1)]] fun _ => group).ComesTo fun u =>
        (∀ i, u.left i = .done (.flag true)) ∧
          small.Loaded [(5, 1), (6, 2)] { small with cells := u.cells } := by
  intro ended group
  have hlive : small.config.refused? [((5 : Word .w16), (1 : Word .w16)), (6, 2)] = none := by
    decide +kernel
  have hnone : small.config.contents small.cells = fun _ => none := contents_fresh small.config
  have hroomy : ∀ b, small.config.Roomy (small.keysWith [(5, 1), (6, 2)]) b := by
    intro b
    have hsub : {key ∈ small.keysWith [(5, 1), (6, 2)] | small.config.MayLie key b} ⊆ {5, 6} := by
      rintro key ⟨hlisted | hheld, -⟩
      · simpa using hlisted
      · exact absurd (congrFun hnone key) hheld
    refine (Set.ncard_le_ncard hsub).trans ?_
    rw [Set.ncard_pair (by decide)]
    decide +kernel
  have hloadable : small.Loadable [(5, 1), (6, 2)] :=
    ⟨refused?_eq_none.1 hlive, by decide, fun _ _ _ => ⟨_, mayLie_iff.2 (.inl rfl), hroomy _⟩⟩
  have hswap : [((6 : Word .w16), (2 : Word .w16)), (5, 1)].Perm [(5, 1), (6, 2)] := .swap ..
  have hcall : (Call.upsertInChunks [((6 : Word .w16), (2 : Word .w16)), (5, 1)] 2).Loads
      [(5, 1), (6, 2)] := .byWorkers hswap (by decide)
  obtain ⟨hone, -, hcrew⟩ :=
    reachable_small.loads_in_any_order hloadable ⟨4, by decide, by decide⟩
  obtain ⟨n, hn, hcrew⟩ := hcrew _ 2 hswap (by decide)
  cases hn.symm.trans (by decide : chunkSize? 2 2 = some 1)
  exact ⟨hone _ hcall, hcrew (fun _ => group) fun _ => by decide⟩

end Table

end TwoChoice
