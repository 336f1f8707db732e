import TwoChoice.Proofs.Batches
import TwoChoice.Proofs.Guards

/-!
# Where faults come from

A table comes into being unless its rounded capacity leaves 64 bits, and from then on only one thing
can go wrong while nobody interferes: a reserved key is to be stored. `Table.Attained` are the
tables that any calls lead to, with any keys and under any schedules, faults included. Their
figures stay in the ranges of the machine's types (`Table.InRange`), and a call on one of them is
answered, or it faults at the first reserved key that it is to store, before that store touches
anything (`Table.faults_reserved`).
-/

set_option autoImplicit false

namespace TwoChoice

variable {k v : Width}

/-! ## Capacities -/

namespace Shape

/-- The rounded capacity. -/
theorem capacity_ofCapacity (L : BucketLen) (capacity : Nat) :
    let rounded := (ofCapacity L capacity).capacity
    L.slots ∣ rounded ∧ 0 < rounded ∧ capacity ≤ rounded ∧
      if capacity = 0 then rounded = L.slots else rounded < capacity + L.slots := by
  have hpos : 0 < L.slots := Nat.mul_pos (by decide) L.pos
  have hdiv := Nat.div_add_mod (capacity + L.slots - 1) L.slots
  have hmod := Nat.mod_lt (capacity + L.slots - 1) hpos
  simp only [Shape.capacity, ofCapacity]
  rw [Nat.mul_comm] at hdiv
  generalize (capacity + L.slots - 1) / L.slots = n at hdiv
  refine ⟨Nat.dvd_mul_left .., Nat.mul_pos (by omega) hpos, ?_, ?_⟩
  · have := Nat.mul_le_mul_right L.slots (Nat.le_max_left n 1)
    omega
  · cases n with
    | zero =>
      simp only [Nat.zero_mul, Nat.zero_add] at hdiv
      rw [if_pos (by omega)]
      exact Nat.one_mul _
    | succ n =>
      rw [Nat.max_eq_left (by omega)]
      have hone : L.slots ≤ (n + 1) * L.slots := Nat.le_mul_of_pos_left _ (by omega)
      rw [if_neg (by omega)]
      omega

end Shape

/-- There are no more live entries than slots. -/
theorem Cells.size_le {sh : Shape} (reserved : ReservedKeys k) (s : Cells k v sh) :
    s.size reserved ≤ sh.capacity := by
  have hlive : ∀ t : Slots k v sh.len, (t.live reserved).length ≤ sh.len.slots := fun t =>
    (List.length_filterMap_le ..).trans (by simp)
  have hsum : ∀ bs : List (Fin sh.count),
      (bs.flatMap fun b => (s.buckets[b].slots.live reserved).map (b, ·)).length ≤
        bs.length * sh.len.slots := by
    intro bs
    induction bs with
    | nil => exact Nat.zero_le _
    | cons b bs ih =>
      have := hlive s.buckets[b].slots
      simp only [List.flatMap_cons, List.length_append, List.length_map, List.length_cons,
        Nat.succ_mul]
      omega
  have hplaced := hsum (List.finRange sh.count)
  rw [List.length_finRange] at hplaced
  rwa [size, entries, List.length_map]

namespace Table

/-- Every index and every sum that a call on a table of this configuration computes without a check
of its own is in range, as is the distance of every shift. -/
structure InRange (c : Config k) (g : Lanes) : Prop where
  capacity : c.shape.capacity < 2 ^ 64
  lockSum : c.shape.count + 63 < 2 ^ 64
  lockWord : ∀ b : Fin c.shape.count, b / 64 < (c.shape.count + 63) / 64
  bucketEnd : ∀ b : Fin c.shape.count, (b + 1) * c.shape.len.slots ≤ c.shape.capacity
  tagWordsEnd : ∀ b : Fin c.shape.count, (b + 1) * c.shape.len.words ≤ c.shape.capacity / 4
  tagWord : ∀ i < c.shape.len.slots, i / 4 < c.shape.len.words
  tagShift : ∀ i < c.shape.len.slots, i % 4 * 16 < 64
  /-- The distances by which a vote is shifted: within its ballot, and past the ballots before. -/
  vote : ∀ n < g.strides c.shape.len.slots, ∀ lane < g.width, lane < 64 ∧ n * g.width < 64
  /-- The lowest element of a mask is taken out by subtracting one. -/
  dropLowest : ∀ m : Mask, m ≠ 0 → 1 ≤ m.toNat ∧ m.lowest < 64

theorem inRange {c : Config k} (g : Lanes) (h : c.shape.capacity < 2 ^ 64) : InRange c g := by
  have hslots : 4 ≤ c.shape.len.slots := Nat.mul_le_mul_left 4 c.shape.len.pos
  have hcapacity : c.shape.capacity = c.shape.count * c.shape.len.slots := rfl
  refine ⟨h, ?_, ?_, ?_, ?_, ?_, ?_, ?_, ?_⟩
  · have := Nat.mul_le_mul_left c.shape.count hslots
    omega
  · intro b
    omega
  · exact fun b => Nat.mul_le_mul_right _ b.isLt
  · intro b
    have := Nat.mul_le_mul_right c.shape.len.words b.isLt
    rw [hcapacity, BucketLen.slots, Nat.mul_left_comm, Nat.mul_div_cancel_left _ (by decide)]
    exact this
  · intro i hi
    unfold BucketLen.slots at hi
    omega
  · intro i _
    omega
  · intro n hn lane hlane
    have := g.lt_of_lt_strides hn
    have := c.shape.len.slots_le
    have := g.le
    omega
  · intro m hm
    refine ⟨Nat.pos_of_ne_zero fun hz => hm (UInt64.toNat_inj.1 hz), (Mask.exists_lowest hm).1⟩

/-- A table that was made new and then asked anything, under any schedules. -/
inductive Attained : Table k v → Prop
  | create {len capacity seed reserved counting t records}
    (made : create len capacity seed reserved counting = .ok (t, records)) : Attained t
  | call {t} (before : Attained t) (lanes : Lanes) (schedule : List (Intrusion k v))
    (call : Call k v) : Attained (t.handle lanes schedule (.call call)).2
  | clear {t} (before : Attained t) : Attained t.clear.1
  | reseed {t} (before : Attained t) (seed : UInt64) : Attained (t.reseed seed).1

/-- What can be reached with keys that may be stored can be attained. -/
theorem Reachable.attained {t : Table k v} (h : t.Reachable) : t.Attained := by
  induction h with
  | create made => exact .create made
  | call _ lanes _ ih => exact .call ih lanes _ _
  | clear _ ih => exact .clear ih
  | reseed _ seed ih => exact .reseed ih seed

/-- The outcome of the making of a table. -/
theorem create_cases (len : BucketLen) (capacity : Nat) (seed : UInt64)
    (reserved : ReservedKeys k) (counting : Bool) :
    match create (v := v) len capacity seed reserved counting with
    | .error f => f = .overflow ∧ 2 ^ 64 ≤ capacity + len.slots
    | .ok (t, _) => capacity + len.slots < 2 ^ 64 ∧
      t.config.shape = .ofCapacity len capacity ∧ ∀ b, t.cells.locks.isLocked b = false := by
  rw [create]
  by_cases h : capacity + len.slots < UInt64.size
  · rw [if_pos h]
    exact ⟨h, rfl, Locks.isLocked_fresh⟩
  · rw [if_neg h]
    exact ⟨rfl, Nat.le_of_not_lt h⟩

/-- The figures of a table stay in range, and its locks are free between two calls. -/
theorem Attained.kept {t : Table k v} (h : t.Attained) :
    t.config.shape.capacity < 2 ^ 64 ∧ ∀ b, t.cells.locks.isLocked b = false := by
  induction h with
  | @create len capacity seed reserved counting t records made =>
    have hcases := create_cases (v := v) len capacity seed reserved counting
    rw [made] at hcases
    obtain ⟨hlt, hshape, hidle⟩ := hcases
    obtain ⟨-, -, -, hrounded⟩ := Shape.capacity_ofCapacity len capacity
    refine ⟨?_, hidle⟩
    rw [hshape]
    split at hrounded <;> omega
  | @call t _ lanes schedule call ih =>
    refine ⟨ih.1, ?_⟩
    rw [handle_cells, (Scene.watch_locks lanes schedule ih.2 call).1]
    exact ih.2
  | @clear t _ ih => exact ⟨ih.1, fun b => clear_cells t ▸ Locks.isLocked_fresh b⟩
  | @reseed t _ seed ih => exact ⟨ih.1, fun b => reseed_cells t seed ▸ Locks.isLocked_fresh b⟩

/-! ## Calls -/

open Config

section
variable {t : Table k v} (lanes : Lanes) {call : Call k v} (hdirect : call.Direct t.config)
variable (hidle : ∀ b, t.cells.locks.isLocked b = false)
include hdirect hidle

/-- A call that is to store no reserved key is answered. -/
theorem handle_answered (hlive : t.config.refused? call.stores = none) :
    ∃ reply, (t.handle lanes [] (.call call)).1.outcome = .ok (some reply) := by
  have hrun : (call.run t.config { lanes with passes := 1 }).Ensures (World.alone _)
      (fun _ _ _ => False) () t.cells fun _ _ s => s.locks = t.cells.locks := by
    refine Call.direct_ensures (I := fun _ s => s.locks = t.cells.locks) hdirect
      (fun x hx r s hs => ?_) rfl
    obtain ⟨hstores, hx'⟩ := Call.stores_of_mem_parts hx hdirect
    refine Call.part_runs World.tame_alone (fun _ => Nat.zero_lt_one) (Call.eq_or_of_mem_parts hx).1
      hs (fun _ _ _ _ _ _ b _ => hidle b) (fun b hb => ?_) (fun y hy hreserved => ?_) ?_
    · rw [hidle b] at hb
      cases hb
    · have hy' : t.config.Live y.1 := refused?_eq_none.1 hlive y (hstores hy)
      exact absurd (hreserved.symm.trans hy') (by simp)
    · rintro b rfl hout
      exact hout hx'
  obtain ⟨reply, houtcome, -⟩ := handle_alone lanes hrun
  exact ⟨reply, houtcome⟩

/-- A call comes to a fault at the first reserved key that it is to store. The pairs before it are
stored, and nothing else is touched. -/
theorem handle_refused {x : Word k × Word v} (hx : t.config.refused? call.stores = some x) :
    (t.handle lanes [] (.call call)).1.outcome = .error (.fault (.reservedKey x.1.toNat)) ∧
      (t.handle lanes [] (.call call)).2 =
        (t.upserts lanes (t.config.accepted call.stores)).2 := by
  have hg : 0 < ({ lanes with passes := 1 } : Group).passes := Nat.zero_lt_one
  have hsolo : (call.run t.config { lanes with passes := 1 }).solo t.cells =
      (.error (.fault (.reservedKey x.1.toNat)), ((t.config.upsertEach { lanes with passes := 1 }
        (t.config.accepted call.stores)).solo t.cells).2) := by
    obtain ⟨hreserved, after, hstores⟩ := of_refused? hx
    -- a call that stores one pair only stores nothing before it
    have hone : ∀ y, call.stores = [y] → t.config.accepted call.stores = [] ∧ y = x := by
      intro y hy
      rw [hy] at hstores ⊢
      generalize t.config.accepted [y] = before at hstores
      cases before with
      | nil => exact ⟨rfl, (List.cons.inj hstores).1⟩
      | cons => exact absurd (List.cons.inj hstores).2 (by simp)
    cases call with
    | upsert key value locked =>
      obtain ⟨hnil, rfl⟩ := hone _ rfl
      rw [hnil, Call.run, Prog.solo_map, upsert_reserved hreserved]
      rfl
    | exchange key value oldKey oldValue update =>
      obtain ⟨hnil, rfl⟩ := hone _ rfl
      rw [hnil, Call.run, Prog.solo_map, exchange_reserved hreserved]
      rfl
    | upsertAll pairs =>
      change t.config.refused? pairs = some x at hx
      rw [Call.run, upsertAll_eq, Prog.solo_map, Prog.solo_map, upsertEach_refused hg hx hidle]
      rfl
    | upsertEach pairs =>
      change t.config.refused? pairs = some x at hx
      rw [Call.run, Prog.solo_map, upsertEach_refused hg hx hidle]
      rfl
    | upsertInChunks => exact hdirect.elim
    | _ => cases hx
  obtain ⟨houtcome, hafter⟩ := handle_solo t lanes call
  rw [hsolo] at houtcome hafter
  exact ⟨houtcome, hafter.trans (upserts_idle (live_accepted _ _) hidle).symm⟩

end

/-- **Without interference nothing but a reserved key causes a fault.** A table comes into being
exactly if its rounded capacity stays in 64 bits; then its capacity is the least positive multiple
of the bucket length that is not smaller. Every table that any calls lead to keeps its figures in
range. A call on it is answered, and a call that is to store a reserved key comes to a fault when it
gets to the first of them: the pairs before it are stored, and that store touches nothing. -/
theorem faults_reserved (len : BucketLen) (capacity : Nat) (seed : UInt64)
    (reserved : ReservedKeys k) (counting : Bool) :
    (match create (v := v) len capacity seed reserved counting with
    | .error f => f = .overflow ∧ 2 ^ 64 ≤ capacity + len.slots
    | .ok (t, _) =>
      let rounded := t.config.shape.capacity
      capacity + len.slots < 2 ^ 64 ∧ t.config.shape.len = len ∧
        len.slots ∣ rounded ∧ 0 < rounded ∧ capacity ≤ rounded ∧
        if capacity = 0 then rounded = len.slots else rounded < capacity + len.slots) ∧
    ∀ t : Table k v, t.Attained → ∀ lanes : Lanes,
      InRange t.config lanes ∧ t.size ≤ t.config.shape.capacity ∧
      ∀ call : Call k v, call.Direct t.config →
        let ended := t.handle lanes [] (.call call)
        match t.config.refused? call.stores with
        | none => ∃ reply, ended.1.outcome = .ok (some reply)
        | some x => ended.1.outcome = .error (.fault (.reservedKey x.1.toNat)) ∧
          ended.2 = (t.upserts lanes (t.config.accepted call.stores)).2 := by
  refine ⟨?_, fun t ht lanes => ?_⟩
  · have hcases := create_cases (v := v) len capacity seed reserved counting
    split at hcases
    · exact hcases
    · rename_i t records
      obtain ⟨hlt, hshape, -⟩ := hcases
      rw [hshape]
      exact ⟨hlt, rfl, Shape.capacity_ofCapacity len capacity⟩
  · obtain ⟨hcapacity, hidle⟩ := ht.kept
    refine ⟨inRange lanes hcapacity, Cells.size_le _ _, fun call hdirect => ?_⟩
    dsimp only
    split
    · rename_i hnone
      exact handle_answered lanes hdirect hidle hnone
    · rename_i x hsome
      exact handle_refused lanes hdirect hidle hsome

/-- A batch with a reserved key in its middle. -/
theorem faults_reserved_zero :
    let ended := small.handle ⟨4, by decide, by decide⟩ []
      (.call (.upsertAll [(5, 1), (0, 2), (6, 3)]))
    small.config.shape.capacity = 8 ∧ ended.1.outcome = .error (.fault (.reservedKey 0)) ∧
      ended.2 = (small.upserts ⟨4, by decide, by decide⟩ [(5, 1)]).2 := by
  intro ended
  obtain ⟨-, hcalls⟩ := faults_reserved (k := .w16) (v := .w16) ⟨1, by decide, by decide⟩ 8 7
    .atTop false
  obtain ⟨-, -, hcall⟩ := hcalls small reachable_small.attained ⟨4, by decide, by decide⟩
  have hended := hcall (.upsertAll [(5, 1), (0, 2), (6, 3)]) trivial
  exact ⟨by decide, hended⟩

end Table

end TwoChoice
