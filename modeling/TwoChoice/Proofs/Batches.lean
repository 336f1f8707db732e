import Mathlib.Data.List.TakeWhile
import TwoChoice.Proofs.Refinement
import TwoChoice.Proofs.Spells

/-!
# Batches of stores

What operations come to when nobody else is there, as equations of `Prog.solo`. A batch of stores is
a loop over its pairs (`upsertAll_eq`), so it can be cut into smaller ones (`upsertAll_flatten`).
With no lock held, the pairs of a batch are stored one after the other, as by calls of their own
(`Table.upserts`), up to the first reserved key, which ends it with a fault
(`upsertEach_refused`). Nothing is assumed of what the table holds.
-/

set_option autoImplicit false

namespace TwoChoice

variable {k v : Width}

/-! ## Programs alone -/

namespace Prog

variable {σ α β ι : Type}

theorem solo_bind (p : Prog σ α) (k : α → Prog σ β) (s : σ) :
    (p >>= k).solo s =
      match p.solo s with
      | (.ok a, s') => (k a).solo s'
      | (.error h, s') => (.error h, s') := by
  rw [bind_eq]
  induction p generalizing s with
  | done | halt => rfl
  | read q ih => exact ih s s
  | write f p ih => exact ih (f s)
  | emit e p ih => exact ih s
  | sync p ih => exact ih s

theorem solo_bind_ok {p : Prog σ α} {k : α → Prog σ β} {s s' : σ} {a : α}
    (h : p.solo s = (.ok a, s')) : (p >>= k).solo s = (k a).solo s' := by
  rw [solo_bind, h]

theorem solo_bind_error {p : Prog σ α} {k : α → Prog σ β} {s s' : σ} {x : Halt}
    (h : p.solo s = (.error x, s')) : (p >>= k).solo s = (.error x, s') := by
  rw [solo_bind, h]

theorem of_solo_bind {p : Prog σ α} {k : α → Prog σ β} {s s' : σ} {b : β}
    (h : (p >>= k).solo s = (.ok b, s')) :
    ∃ a s₁, p.solo s = (.ok a, s₁) ∧ (k a).solo s₁ = (.ok b, s') := by
  rw [solo_bind] at h
  split at h <;> rename_i heq
  · exact ⟨_, _, heq, h⟩
  · cases h

theorem solo_map (f : α → β) (p : Prog σ α) (s : σ) :
    (f <$> p).solo s = ((p.solo s).1.map f, (p.solo s).2) := by
  rw [map_eq, solo_bind]
  generalize p.solo s = after
  obtain ⟨_ | _, s'⟩ := after <;> rfl

theorem solo_detached (p : Prog σ α) (s : σ) : p.detached.solo s = p.solo s := by
  induction p generalizing s with
  | done | halt => rfl
  | read q ih => exact ih s s
  | write f p ih => exact ih (f s)
  | emit e p ih => cases e <;> exact ih s
  | sync p ih => exact ih s

theorem solo_attempt (p : Prog σ α) (s : σ) :
    p.attempt.solo s =
      match p.solo s with
      | (.ok a, s') => (.ok (.ok a), s')
      | (.error (.fault f), s') => (.ok (.error f), s')
      | (.error h, s') => (.error h, s') := by
  induction p generalizing s with
  | done => rfl
  | halt x => cases x <;> rfl
  | read q ih => exact ih s s
  | write f p ih => exact ih (f s)
  | emit e p ih => exact ih s
  | sync p ih => exact ih s

theorem solo_mapM_congr {f f' : ι → Prog σ β} : ∀ {xs : List ι},
    (∀ a ∈ xs, ∀ s, (f a).solo s = (f' a).solo s) → ∀ s,
    (xs.mapM f).solo s = (xs.mapM f').solo s
  | [], _, _ => rfl
  | a :: xs, h, s => by
    rw [List.mapM_cons, List.mapM_cons, solo_bind, solo_bind, h a (List.mem_cons_self ..)]
    generalize (f' a).solo s = after
    obtain ⟨_ | b, s'⟩ := after
    · rfl
    · have htail := solo_mapM_congr (fun x hx => h x (List.mem_cons_of_mem _ hx)) s'
      simp only [solo_bind, htail]

/-- What never halts alone ends with an answer. -/
theorem Ensures.solo_ok {p : Prog σ α} {s : σ} {Q : α → Unit → σ → Prop}
    (h : p.Ensures (World.alone σ) (fun _ _ _ => False) () s Q) :
    ∃ a s', p.solo s = (.ok a, s') ∧ Q a () s' := by
  have hsolo := h.solo
  generalize p.solo s = after at hsolo
  obtain ⟨_ | a, s'⟩ := after
  · exact hsolo.elim
  · exact ⟨a, s', rfl, hsolo⟩

/-- A loop over the pieces of a list, each with a loop of its own, is a loop over the list. -/
theorem flatten_mapM_mapM (f : ι → Prog σ β) : ∀ pieces : List (List ι),
    List.flatten <$> pieces.mapM (fun piece => piece.mapM f) = pieces.flatten.mapM f
  | [] => rfl
  | piece :: pieces => by
    rw [List.flatten_cons, List.mapM_append, ← flatten_mapM_mapM f pieces, List.mapM_cons]
    simp

end Prog

namespace Config

variable {c : Config k} {s s' : Cells k v c.shape} {g : Group} {key : Word k} {value : Word v}
variable {pairs : List (Word k × Word v)}

/-! ## One store -/

theorem upsert_reserved {locked : Bool} (hreserved : c.reserved.isReserved key = true) :
    (c.upsert g key value locked).solo s = (.error (.fault (.reservedKey key.toNat)), s) := by
  have hstore : (c.store g key value true locked).solo s =
      (.error (.fault (.reservedKey key.toNat)), s) := by
    rw [store, Prog.require, if_neg (by simp [hreserved])]
    exact Prog.solo_bind_error rfl
  exact Prog.solo_bind_error hstore

theorem exchange_reserved {oldKey : Word k} {oldValue : Word v} {update : Bool}
    (hreserved : c.reserved.isReserved key = true) :
    (c.exchange g key value oldKey oldValue update).solo s =
      (.error (.fault (.reservedKey key.toNat)), s) := by
  rw [exchange, Prog.require, if_neg (by simp [hreserved])]
  exact Prog.solo_bind_error rfl

section
variable (hg : 0 < g.passes) (hl : c.Live key)
include hg hl

/-- A key that may be stored is stored, unless its lock is taken. -/
theorem upsert_runs {E : Halt → Unit → Cells k v c.shape → Prop} {locked : Bool} {r : Unit}
    (hwait : ∀ b, s.locks.isLocked b = true → E (.waiting b) r s) :
    (c.upsert g key value locked).Ensures (World.alone _) E r s
      fun _ _ s' => s'.locks = s.locks :=
  Prog.ensures_bind.2 ((store_spell World.tame_alone g (fun _ => hg) key value true locked rfl
    hwait fun hreserved => absurd (hreserved.symm.trans hl) (by simp)).mono fun _ _ _ h => h.2)

theorem upsert_idle {locked : Bool} (hidle : ∀ b, s.locks.isLocked b = false) :
    ∃ stored s', (c.upsert g key value locked).solo s = (.ok stored, s') ∧ s'.locks = s.locks :=
  (upsert_runs hg hl (r := ()) fun b hb => by simp [hidle b] at hb).solo_ok

end

/-! ## Many stores -/

/-- The first pair that cannot be stored because its key is reserved. -/
def refused? (c : Config k) (pairs : List (Word k × Word v)) : Option (Word k × Word v) :=
  pairs.find? fun x => c.reserved.isReserved x.1

/-- The pairs before the first one whose key is reserved. -/
def accepted (c : Config k) (pairs : List (Word k × Word v)) : List (Word k × Word v) :=
  pairs.takeWhile fun x => !c.reserved.isReserved x.1

theorem live_accepted (c : Config k) (pairs : List (Word k × Word v)) :
    ∀ x ∈ c.accepted pairs, c.Live x.1 := fun x hx => by
  rw [Live]
  simpa using List.mem_takeWhile_imp hx

theorem refused?_eq_none : c.refused? pairs = none ↔ ∀ x ∈ pairs, c.Live x.1 := by
  simp [refused?, Live]

theorem accepted_eq_self (hlive : ∀ x ∈ pairs, c.Live x.1) : c.accepted pairs = pairs :=
  List.takeWhile_eq_self_iff.2 fun x hx => by
    rw [Bool.not_eq_true']
    exact hlive x hx

theorem of_refused? {x : Word k × Word v} (h : c.refused? pairs = some x) :
    c.reserved.isReserved x.1 = true ∧ ∃ after, pairs = c.accepted pairs ++ x :: after := by
  obtain ⟨hreserved, before, after, rfl, hbefore⟩ := List.find?_eq_some_iff_append.1 h
  refine ⟨hreserved, after, ?_⟩
  rw [accepted, List.takeWhile_append_of_pos hbefore,
    List.takeWhile_cons_of_neg (by simp [hreserved]), List.append_nil]

/-- All pairs are stored if each of them is. -/
theorem upsertAll_eq (g : Group) (pairs : List (Word k × Word v)) :
    c.upsertAll g pairs = (fun stored => stored.all id) <$> c.upsertEach g pairs := by
  have main : ∀ (pairs : List (Word k × Word v)) (before : Bool),
      pairs.foldlM (fun (stored : Bool) (x : Word k × Word v) => do
        return (← c.upsert g x.1 x.2 true) && stored) before =
      (fun stored : List Bool => stored.all id && before) <$>
        pairs.mapM fun x => c.upsert g x.1 x.2 true := by
    intro pairs
    induction pairs with
    | nil => exact fun before => rfl
    | cons x pairs ih =>
      intro before
      rw [List.foldlM_cons, List.mapM_cons]
      simp only [ih, bind_assoc, pure_bind, map_bind, map_pure, List.all_cons, id_eq]
      refine bind_congr fun stored => ?_
      simp only [map_eq_pure_bind]
      exact bind_congr fun all => by rw [Bool.and_left_comm, Bool.and_assoc]
  exact (main pairs true).trans (by simp [upsertEach])

theorem upsertEach_append (g : Group) (xs ys : List (Word k × Word v)) :
    c.upsertEach g (xs ++ ys) = do
      let before ← c.upsertEach g xs
      let after ← c.upsertEach g ys
      return before ++ after := List.mapM_append

theorem upsertAll_append (g : Group) (xs ys : List (Word k × Word v)) :
    c.upsertAll g (xs ++ ys) = do
      let before ← c.upsertAll g xs
      let after ← c.upsertAll g ys
      return before && after := by
  simp [upsertAll_eq, upsertEach_append]

/-- A batch may be cut into smaller ones. -/
theorem upsertAll_flatten (g : Group) : ∀ batches : List (List (Word k × Word v)),
    (fun stored => stored.all id) <$> batches.mapM (c.upsertAll (v := v) g) =
      c.upsertAll g batches.flatten
  | [] => rfl
  | batch :: batches => by
    rw [List.flatten_cons, upsertAll_append, ← upsertAll_flatten g batches, List.mapM_cons]
    simp

section
variable (hg : 0 < g.passes)
include hg

theorem upsertAll_not_fault (hlive : ∀ x ∈ pairs, c.Live x.1) :
    ∀ f, ((c.upsertAll g pairs).solo s).1 ≠ .error (.fault f) := by
  have hrun := (Call.upsertAll_ensures (W := World.alone _) (I := fun _ _ => True)
    (E := fun h _ _ => ∀ f, h ≠ .fault f) (fun x hx r s _ =>
      (upsert_runs hg (hlive x hx) fun _ _ => nofun).mono fun _ _ _ _ => trivial)
    (r := ()) (s := s) trivial).solo
  intro f hf
  split at hrun <;> rename_i heq
  · rw [heq] at hf
    cases hf
  · rw [heq] at hf
    exact hrun f (Except.error.inj hf)

/-- With no lock held, a batch of keys that may be stored gets to its end. -/
theorem upsertEach_idle (hlive : ∀ x ∈ pairs, c.Live x.1)
    (hidle : ∀ b, s.locks.isLocked b = false) :
    ∃ stored s', (c.upsertEach g pairs).solo s = (.ok stored, s') ∧
      stored.length = pairs.length ∧ s'.locks = s.locks := by
  induction pairs generalizing s with
  | nil => exact ⟨[], s, rfl, rfl, rfl⟩
  | cons x pairs ih =>
    obtain ⟨hl, hlive⟩ := List.forall_mem_cons.1 hlive
    obtain ⟨b, s₁, hfirst, hlocks₁⟩ : ∃ b s₁, (c.upsert g x.1 x.2 true).solo s = (.ok b, s₁) ∧
        s₁.locks = s.locks := upsert_idle hg hl hidle
    obtain ⟨stored, s', hrest, hlen, hlocks'⟩ := ih hlive (s := s₁) (hlocks₁ ▸ hidle)
    refine ⟨b :: stored, s', ?_, congrArg (· + 1) hlen, hlocks'.trans hlocks₁⟩
    rw [upsertEach, List.mapM_cons, Prog.solo_bind_ok hfirst]
    exact Prog.solo_bind_ok hrest

/-- With no lock held, a batch ends at its first reserved key, and the pairs before it are stored. -/
theorem upsertEach_refused {x : Word k × Word v} (hx : c.refused? pairs = some x)
    (hidle : ∀ b, s.locks.isLocked b = false) :
    (c.upsertEach g pairs).solo s = (.error (.fault (.reservedKey x.1.toNat)),
      ((c.upsertEach g (c.accepted pairs)).solo s).2) := by
  obtain ⟨hreserved, after, hpairs⟩ := of_refused? hx
  obtain ⟨stored, s', hbefore, -⟩ := upsertEach_idle hg (live_accepted c pairs) hidle
  rw [hbefore]
  rw [hpairs, upsertEach_append, Prog.solo_bind_ok hbefore]
  refine Prog.solo_bind_error ?_
  rw [upsertEach, List.mapM_cons]
  exact Prog.solo_bind_error (upsert_reserved hreserved)

end

end Config

/-! ## Calls of their own -/

namespace Table

open Config

variable {t : Table k v} {lanes : Lanes}

/-- What nobody interrupts runs as it does alone. -/
theorem handle_solo (t : Table k v) (lanes : Lanes) (call : Call k v) :
    let ended := (call.run t.config { lanes with passes := 1 }).solo t.cells
    (t.handle lanes [] (.call call)).1.outcome = ended.1.map some ∧
      (t.handle lanes [] (.call call)).2 = { t with cells := ended.2 } := by
  obtain ⟨houtcome, hcells⟩ := Prog.exec_solo (V := Scene.env t.config lanes [])
    (fun _ _ => rfl) (call.run t.config { lanes with passes := 1 }) {} t.cells
  refine ⟨congrArg (Except.map some) houtcome, ?_⟩
  show ({ t with cells := _ } : Table k v) = _
  rw [← hcells]
  rfl

theorem handle_cells_solo (t : Table k v) (lanes : Lanes) (call : Call k v) :
    (t.handle lanes [] (.call call)).2.cells =
      ((call.run t.config { lanes with passes := 1 }).solo t.cells).2 :=
  (Prog.exec_solo (V := Scene.env t.config lanes []) (fun _ _ => rfl)
    (call.run t.config { lanes with passes := 1 }) {} t.cells).2

/-- Upserts the pairs one after the other, each by a call of its own. -/
def upserts (t : Table k v) (lanes : Lanes) (pairs : List (Word k × Word v)) :
    List (Report k v) × Table k v :=
  t.session (pairs.map fun x => (lanes, .call (.upsert x.1 x.2 true)))

/-- A batch that gets to its end does what calls of their own do. -/
theorem upserts_of_solo {pairs : List (Word k × Word v)} : ∀ {t : Table k v} {stored : List Bool}
    {s' : Cells k v t.config.shape},
    (t.config.upsertEach { lanes with passes := 1 } pairs).solo t.cells = (.ok stored, s') →
    (t.upserts lanes pairs).1.map Report.outcome = stored.map (fun b => .ok (some (.flag b))) ∧
      (t.upserts lanes pairs).2 = { t with cells := s' } := by
  induction pairs with
  | nil =>
    intro t stored s' h
    cases h
    exact ⟨rfl, rfl⟩
  | cons x pairs ih =>
    intro t stored s' h
    obtain ⟨houtcome, hafter⟩ := handle_solo t lanes (.upsert x.1 x.2 true)
    rw [upsertEach, List.mapM_cons] at h
    obtain ⟨b, s₁, hfirst, h⟩ := Prog.of_solo_bind h
    obtain ⟨bs, s₂, hrest, h⟩ := Prog.of_solo_bind h
    cases h
    simp only [Call.run, Prog.solo_map] at houtcome hafter
    rw [show (t.config.upsert _ x.1 x.2 true).solo t.cells = _ from hfirst] at houtcome hafter
    obtain ⟨houtcomes, hend⟩ := ih (t := { t with cells := s₁ }) hrest
    rw [upserts, List.map_cons, session, hafter, List.map_cons, List.map_cons, houtcome]
    exact ⟨congrArg _ houtcomes, hend⟩

/-- With no lock held, keys that may be stored are stored by a batch as by calls of their own. -/
theorem upserts_idle {t : Table k v} {pairs : List (Word k × Word v)}
    (hlive : ∀ x ∈ pairs, t.config.Live x.1) (hidle : ∀ b, t.cells.locks.isLocked b = false) :
    (t.upserts lanes pairs).2 = { t with
      cells := ((t.config.upsertEach { lanes with passes := 1 } pairs).solo t.cells).2 } := by
  obtain ⟨stored, s', hsolo, -⟩ := upsertEach_idle (g := { lanes with passes := 1 })
    Nat.zero_lt_one hlive hidle
  rw [(upserts_of_solo hsolo).2, hsolo]

end Table

end TwoChoice
