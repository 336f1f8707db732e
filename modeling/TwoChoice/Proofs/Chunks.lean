import TwoChoice.Proofs.Batches

/-!
# Work in chunks

A bulk operation by workers does what the plain one does (`Table.chunks_agree`): the chunks are
consecutive, none of them is empty, and there are no more of them than workers (`Dealt`). As long as
the work on a chunk causes no fault, the chunks come to the whole (`Config.inChunks_solo`). A fault
ends one chunk and no other, so a batch with reserved keys stores what lies before the first
reserved key of each chunk (`Config.attempts_solo`), while a plain batch stops at the first of all.
-/

set_option autoImplicit false

namespace TwoChoice

variable {k v : Width} {α β ι : Type}

/-! ## Chunks -/

/-- The items are dealt out to the workers. -/
structure Dealt (items : List α) (workers : Nat) (dealt : List (List α)) : Prop where
  flatten : dealt.flatten = items
  ne_nil : ∀ chunk ∈ dealt, chunk ≠ []
  length_le : dealt.length ≤ max workers 1

/-- The first `m` chunks hold the first `m * n` items. -/
theorem flatten_chunks_upto (n : Nat) (items : List α) : ∀ m,
    ((List.range m).map fun i => (items.drop (i * n)).take n).flatten = items.take (m * n)
  | 0 => by simp
  | m + 1 => by
    rw [List.range_succ, List.map_append, List.flatten_append, flatten_chunks_upto n items m,
      List.map_singleton, List.flatten_singleton, ← List.take_add, Nat.succ_mul]

/-- Chunks are dealt out if they are long enough for the workers to have all items. -/
theorem dealt_of_le {items : List α} {workers n : Nat} (hn : 0 < n)
    (hle : items.length ≤ max workers 1 * n) : Dealt items workers (chunks n items) := by
  have hdiv := Nat.div_add_mod (items.length + n - 1) n
  have hmod := Nat.mod_lt (items.length + n - 1) hn
  have hcount : (items.length + n - 1) / n < max workers 1 + 1 := by
    rw [Nat.div_lt_iff_lt_mul hn, Nat.succ_mul]
    omega
  rw [Nat.mul_comm] at hdiv
  rw [chunks]
  generalize (items.length + n - 1) / n = m at hdiv hcount
  refine ⟨?_, fun chunk hchunk => ?_, ?_⟩
  · rw [flatten_chunks_upto]
    exact List.take_of_length_le (by omega)
  · obtain ⟨i, hi, rfl⟩ := List.mem_map.1 hchunk
    have him := Nat.mul_le_mul_right n (Nat.succ_le_of_lt (List.mem_range.1 hi))
    rw [Nat.succ_mul] at him
    refine List.ne_nil_of_length_pos ?_
    rw [List.length_take, List.length_drop]
    omega
  · rw [List.length_map, List.length_range]
    omega

/-- **The chunks are dealt out**, unless the sum that rounds their length up leaves 64 bits. -/
theorem dealt_chunks (items : List α) (workers : Nat) :
    match chunkSize? items.length workers with
    | none => 2 ^ 64 ≤ items.length + max workers 1
    | some n => items.length + max workers 1 < 2 ^ 64 ∧ Dealt items workers (chunks n items) := by
  rw [chunkSize?]
  by_cases hlt : items.length + max workers 1 < UInt64.size
  · rw [if_pos hlt]
    refine ⟨hlt, dealt_of_le (by omega) ?_⟩
    have hpos : 0 < max workers 1 := by omega
    generalize max workers 1 = w at hpos
    have hdiv := Nat.div_add_mod (items.length + w - 1) w
    have hmod := Nat.mod_lt (items.length + w - 1) hpos
    have := Nat.mul_le_mul_left w (Nat.le_max_left ((items.length + w - 1) / w) 1)
    omega
  · rw [if_neg hlt]
    exact Nat.le_of_not_lt hlt

/-! ## Work without faults -/

namespace Prog

variable {σ : Type}

theorem mapM_map_comp (f : β → α) (g : ι → Prog σ β) : ∀ xs : List ι,
    (xs.mapM fun a => f <$> g a) = List.map f <$> xs.mapM g
  | [] => rfl
  | a :: xs => by
    rw [List.mapM_cons, List.mapM_cons, mapM_map_comp f g xs]
    simp

theorem mapM_ofExcept_ok (bs : List β) :
    ((bs.map .ok).mapM ofExcept : Prog σ (List β)) = pure bs := by
  induction bs with
  | nil => rfl
  | cons b bs ih =>
    rw [List.map_cons, List.mapM_cons, ih]
    rfl

end Prog

namespace Config

variable {c : Config k} {s : Cells k v c.shape} {g : Group} {workers : Nat}

/-- Workers who cause no fault do the work on all chunks, one after the other. -/
theorem inChunks_solo {items : List α} {work : List α → Prog (Cells k v c.shape) β} {n : Nat}
    (hn : chunkSize? items.length workers = some n)
    (hwork : ∀ chunk ∈ chunks n items, ∀ s f, ((work chunk).solo s).1 ≠ .error (.fault f)) :
    (c.inChunks items workers work).solo s = ((chunks n items).mapM work).solo s := by
  have hattempt : ∀ chunk ∈ chunks n items, ∀ s,
      (work chunk).detached.attempt.solo s = ((.ok : β → Except Fault β) <$> work chunk).solo s := by
    intro chunk hchunk s
    rw [Prog.solo_attempt, Prog.solo_detached, Prog.solo_map]
    have hnot := hwork chunk hchunk s
    generalize (work chunk).solo s = after at hnot
    obtain ⟨x | b, s'⟩ := after
    · cases x with
      | fault f => exact absurd rfl (hnot f)
      | waiting | starved => rfl
    · rfl
  rw [inChunks, hn]
  simp only [Prog.solo_bind, Prog.solo_mapM_congr hattempt]
  rw [Prog.mapM_map_comp, Prog.solo_map]
  generalize ((chunks n items).mapM work).solo s = after
  obtain ⟨_ | bs, s'⟩ := after
  · rfl
  · simp only [Except.map, Prog.mapM_ofExcept_ok]
    rfl

/-- A lookup of any keys ends with an answer and changes nothing. -/
theorem findAll_solo (g : Group) (keys : List (Word k)) (s : Cells k v c.shape) :
    ∃ values, (c.findAll g keys).solo s = (.ok values, s) := by
  have hstable : (World.alone (Cells k v c.shape)).Stable fun _ s' => s' = s :=
    ⟨fun _ => trivial, fun h ht => ht.trans h⟩
  have hfind : (c.findAll g keys).Ensures (World.alone _) (fun _ _ _ => False) () s
      fun _ _ s' => s' = s :=
    Prog.ensures_mapM_inv (I := fun _ s' => s' = s)
      (fun key _ _ _ h => find?_stable g key hstable h) rfl
  obtain ⟨values, s', hsolo, rfl⟩ := hfind.solo_ok
  exact ⟨values, hsolo⟩

/-- **Workers find what one finds.** -/
theorem findInChunks_solo {keys : List (Word k)} {n : Nat}
    (hn : chunkSize? keys.length workers = some n) :
    (c.findInChunks g keys workers).solo s = (c.findAll g keys).solo s := by
  have hdealt := dealt_chunks keys workers
  rw [hn] at hdealt
  have hchunks : (c.inChunks keys workers (c.findAll g)).solo s =
      ((chunks n keys).mapM (c.findAll g)).solo s :=
    inChunks_solo hn fun chunk _ s f => by
      obtain ⟨values, hsolo⟩ := findAll_solo g chunk s
      rw [hsolo]
      nofun
  have hflatten : c.findAll (v := v) g keys =
      List.flatten <$> (chunks n keys).mapM (c.findAll g) := by
    rw [findAll, ← hdealt.2.flatten, ← Prog.flatten_mapM_mapM, hdealt.2.flatten]
    rfl
  rw [hflatten, Prog.solo_map, ← hchunks, ← Prog.solo_map]
  rfl

/-- **Workers store what one stores**, if all keys may be stored. -/
theorem upsertInChunks_solo {pairs : List (Word k × Word v)} {n : Nat} (hg : 0 < g.passes)
    (hn : chunkSize? pairs.length workers = some n) (hlive : ∀ x ∈ pairs, c.Live x.1) :
    (c.upsertInChunks g pairs workers).solo s = (c.upsertAll g pairs).solo s := by
  have hdealt := dealt_chunks pairs workers
  rw [hn] at hdealt
  have hchunks : (c.inChunks pairs workers (c.upsertAll g)).solo s =
      ((chunks n pairs).mapM (c.upsertAll g)).solo s :=
    inChunks_solo hn fun chunk hchunk _ => upsertAll_not_fault hg fun x hx =>
      hlive x (Call.mem_of_mem_chunks hchunk hx)
  have hflatten := upsertAll_flatten (c := c) g (chunks n pairs)
  rw [hdealt.2.flatten] at hflatten
  rw [← hflatten, Prog.solo_map, ← hchunks, ← Prog.solo_map]
  rfl

/-! ## Work with faults -/

/-- A batch is stored up to its first reserved key. -/
theorem attempt_solo (hg : 0 < g.passes) (batch : List (Word k × Word v))
    (hidle : ∀ b, s.locks.isLocked b = false) :
    ∃ result, (c.upsertAll g batch).detached.attempt.solo s =
        (.ok result, ((c.upsertEach g (c.accepted batch)).solo s).2) ∧
      match c.refused? batch with
      | none => ∃ b, result = .ok b
      | some x => result = .error (.reservedKey x.1.toNat) := by
  obtain ⟨stored, s', hsolo, -⟩ := upsertEach_idle hg (live_accepted c batch) hidle
  rw [Prog.solo_attempt, Prog.solo_detached, upsertAll_eq, Prog.solo_map]
  cases hx : c.refused? batch with
  | none =>
    rw [accepted_eq_self (refused?_eq_none.1 hx)] at hsolo ⊢
    rw [hsolo]
    exact ⟨_, rfl, _, rfl⟩
  | some x =>
    rw [upsertEach_refused hg hx hidle]
    exact ⟨_, rfl, rfl⟩

/-- The first fault of the batches is the one of the first reserved key of all. -/
theorem attempts_solo (hg : 0 < g.passes) : ∀ (batches : List (List (Word k × Word v)))
    {s : Cells k v c.shape}, (∀ b, s.locks.isLocked b = false) →
    ∃ results, (batches.mapM fun batch => (c.upsertAll g batch).detached.attempt).solo s =
        (.ok results, ((c.upsertEach g (batches.flatMap c.accepted)).solo s).2) ∧
      ∀ x, c.refused? batches.flatten = some x → ∀ s',
        (results.mapM Prog.ofExcept : Prog (Cells k v c.shape) _).solo s' =
          (.error (.fault (.reservedKey x.1.toNat)), s')
  | [], s, _ => ⟨[], rfl, nofun⟩
  | batch :: batches, s, hidle => by
    obtain ⟨stored, s₁, hstored, -, hlocks⟩ :=
      upsertEach_idle hg (live_accepted c batch) hidle
    obtain ⟨result, hresult, hcases⟩ := attempt_solo hg batch hidle
    rw [hstored] at hresult
    obtain ⟨results, hresults, hfirst⟩ :=
      attempts_solo hg batches (s := s₁) fun b => hlocks ▸ hidle b
    refine ⟨result :: results, ?_, fun x hx s' => ?_⟩
    · rw [List.mapM_cons, Prog.solo_bind_ok hresult, Prog.solo_bind_ok hresults, List.flatMap_cons,
        upsertEach_append, Prog.solo_bind_ok hstored, ← map_eq_pure_bind, Prog.solo_map]
      rfl
    · rw [List.mapM_cons]
      rw [List.flatten_cons, refused?, List.find?_append, ← refused?, ← refused?] at hx
      cases hbatch : c.refused? batch with
      | none =>
        rw [hbatch] at hcases hx
        obtain ⟨b, rfl⟩ := hcases
        exact (Prog.solo_bind_ok rfl).trans (Prog.solo_bind_error (hfirst x hx s'))
      | some y =>
        rw [hbatch] at hcases hx
        obtain rfl : y = x := Option.some.inj hx
        rw [hcases]
        exact Prog.solo_bind_error rfl

/-- **A reserved key ends its chunk, and no other**, and then the whole ends with a fault. -/
theorem upsertInChunks_refused {pairs : List (Word k × Word v)} {n : Nat}
    {x : Word k × Word v} (hg : 0 < g.passes)
    (hn : chunkSize? pairs.length workers = some n) (hx : c.refused? pairs = some x)
    (hidle : ∀ b, s.locks.isLocked b = false) :
    (c.upsertInChunks g pairs workers).solo s = (.error (.fault (.reservedKey x.1.toNat)),
      ((c.upsertEach g ((chunks n pairs).flatMap c.accepted)).solo s).2) := by
  have hdealt := dealt_chunks pairs workers
  rw [hn] at hdealt
  obtain ⟨results, hresults, hfirst⟩ := attempts_solo (c := c) hg (chunks n pairs) hidle
  rw [hdealt.2.flatten] at hfirst
  rw [upsertInChunks, inChunks, hn]
  refine Prog.solo_bind_error ?_
  rw [Prog.solo_bind_ok hresults, hfirst x hx]

end Config

namespace Table

open Config

section
variable (t : Table k v) (lanes : Lanes) (workers : Nat)

theorem handle_findInChunks (keys : List (Word k)) :
    let ended := t.handle lanes [] (.call (.findInChunks keys workers))
    let plain := t.handle lanes [] (.call (.findAll keys))
    match chunkSize? keys.length workers with
    | none => ended.1.outcome = .error (.fault .overflow) ∧ ended.2 = t
    | some _ => ∃ values, plain.1.outcome = .ok (some (.values values)) ∧ plain.2 = t ∧
      ended.1.outcome = plain.1.outcome ∧ ended.2 = t := by
  intro ended plain
  obtain ⟨houtcome, hafter⟩ := handle_solo t lanes (.findInChunks keys workers)
  cases hn : chunkSize? keys.length workers with
  | none =>
    rw [Call.run, Prog.solo_map, findInChunks, inChunks, hn] at houtcome hafter
    exact ⟨houtcome, hafter⟩
  | some n =>
    obtain ⟨values, hfind⟩ := findAll_solo (c := t.config) { lanes with passes := 1 } keys t.cells
    obtain ⟨hplain, hsame⟩ := handle_solo t lanes (.findAll keys)
    rw [Call.run, Prog.solo_map, findInChunks_solo hn, hfind] at houtcome hafter
    rw [Call.run, Prog.solo_map, hfind] at hplain hsame
    exact ⟨values, hplain, hsame, houtcome.trans hplain.symm, hafter⟩

theorem handle_upsertInChunks (pairs : List (Word k × Word v)) :
    let ended := t.handle lanes [] (.call (.upsertInChunks pairs workers))
    let plain := t.handle lanes [] (.call (.upsertAll pairs))
    match chunkSize? pairs.length workers, t.config.refused? pairs with
    | none, _ => ended.1.outcome = .error (.fault .overflow) ∧ ended.2 = t
    | some _, none => ended.1.outcome = plain.1.outcome ∧ ended.2 = plain.2
    | some n, some x => (∀ b, t.cells.locks.isLocked b = false) →
      ended.1.outcome = .error (.fault (.reservedKey x.1.toNat)) ∧
        ended.2 = (t.upserts lanes ((chunks n pairs).flatMap t.config.accepted)).2 := by
  intro ended plain
  have hg : 0 < ({ lanes with passes := 1 } : Group).passes := Nat.zero_lt_one
  obtain ⟨houtcome, hafter⟩ := handle_solo t lanes (.upsertInChunks pairs workers)
  cases hn : chunkSize? pairs.length workers with
  | none =>
    rw [Call.run, Prog.solo_map, upsertInChunks, inChunks, hn] at houtcome hafter
    exact ⟨houtcome, hafter⟩
  | some n =>
    cases hx : t.config.refused? pairs with
    | none =>
      obtain ⟨hplain, hsame⟩ := handle_solo t lanes (.upsertAll pairs)
      rw [Call.run, Prog.solo_map, upsertInChunks_solo hg hn (refused?_eq_none.1 hx),
        ← Prog.solo_map, ← Call.run] at houtcome hafter
      exact ⟨houtcome.trans hplain.symm, hafter.trans hsame.symm⟩
    | some x =>
      intro hidle
      rw [Call.run, Prog.solo_map, upsertInChunks_refused hg hn hx hidle] at houtcome hafter
      have hlive : ∀ y ∈ (chunks n pairs).flatMap t.config.accepted, t.config.Live y.1 := by
        intro y hy
        obtain ⟨chunk, -, hy⟩ := List.mem_flatMap.1 hy
        exact live_accepted _ _ y hy
      exact ⟨houtcome, hafter.trans (upserts_idle hlive hidle).symm⟩

/-- One who stores a batch stores every pair of it, as by calls of their own, and says whether all
of them found room. -/
theorem handle_upsertAll (hidle : ∀ b, t.cells.locks.isLocked b = false)
    {pairs : List (Word k × Word v)} (hlive : t.config.refused? pairs = none) :
    let plain := t.handle lanes [] (.call (.upsertAll pairs))
    let single := t.upserts lanes pairs
    ∃ stored : List Bool, single.1.map Report.outcome = stored.map (fun b => .ok (some (.flag b))) ∧
      plain.1.outcome = .ok (some (.flag (stored.all id))) ∧ plain.2 = single.2 := by
  intro plain single
  obtain ⟨hplain, hafter⟩ := handle_solo t lanes (.upsertAll pairs)
  obtain ⟨stored, s', hsolo, -⟩ := upsertEach_idle (g := { lanes with passes := 1 })
    Nat.zero_lt_one (refused?_eq_none.1 hlive) hidle
  rw [Call.run, upsertAll_eq, Prog.solo_map, Prog.solo_map, hsolo] at hplain hafter
  obtain ⟨houtcomes, hsingle⟩ := upserts_of_solo hsolo
  exact ⟨stored, houtcomes, hplain, hafter.trans hsingle.symm⟩

end

/-- **Workers do what one does.** If the rounded chunk length stays in 64 bits, the items are dealt
out to the workers, and else the call is refused before it touches the table. Lookups by workers
find what plain ones find. Without reserved keys a batch by workers answers as the plain batch does
and leaves the same table, and the plain batch stores every pair, as by calls of their own, and
answers whether all of them found room. With a reserved key, the batch by workers ends with a fault,
and of each chunk the pairs before its first reserved key are stored. -/
theorem chunks_agree (t : Table k v) (lanes : Lanes) (workers : Nat) :
    (∀ {α : Type} (items : List α), match chunkSize? items.length workers with
      | none => 2 ^ 64 ≤ items.length + max workers 1
      | some n => items.length + max workers 1 < 2 ^ 64 ∧
        Dealt items workers (chunks n items)) ∧
    (∀ keys : List (Word k),
      let ended := t.handle lanes [] (.call (.findInChunks keys workers))
      let plain := t.handle lanes [] (.call (.findAll keys))
      match chunkSize? keys.length workers with
      | none => ended.1.outcome = .error (.fault .overflow) ∧ ended.2 = t
      | some _ => ∃ values, plain.1.outcome = .ok (some (.values values)) ∧ plain.2 = t ∧
        ended.1.outcome = plain.1.outcome ∧ ended.2 = t) ∧
    ∀ pairs : List (Word k × Word v),
      let ended := t.handle lanes [] (.call (.upsertInChunks pairs workers))
      let plain := t.handle lanes [] (.call (.upsertAll pairs))
      (match chunkSize? pairs.length workers, t.config.refused? pairs with
      | none, _ => ended.1.outcome = .error (.fault .overflow) ∧ ended.2 = t
      | some _, none => ended.1.outcome = plain.1.outcome ∧ ended.2 = plain.2
      | some n, some x => (∀ b, t.cells.locks.isLocked b = false) →
        ended.1.outcome = .error (.fault (.reservedKey x.1.toNat)) ∧
          ended.2 = (t.upserts lanes ((chunks n pairs).flatMap t.config.accepted)).2) ∧
      ((∀ b, t.cells.locks.isLocked b = false) → t.config.refused? pairs = none →
        let single := t.upserts lanes pairs
        ∃ stored : List Bool,
          single.1.map Report.outcome = stored.map (fun b => .ok (some (.flag b))) ∧
          plain.1.outcome = .ok (some (.flag (stored.all id))) ∧ plain.2 = single.2) :=
  ⟨fun items => dealt_chunks items workers, handle_findInChunks t lanes workers, fun pairs =>
    ⟨handle_upsertInChunks t lanes workers pairs, fun hidle => handle_upsertAll t lanes hidle⟩⟩

/-- Two workers, the first of whom comes to a reserved key. -/
theorem chunks_agree_zero :
    let pairs := [(5, 1), (0, 2), (6, 3), (1, 4)]
    let ended := small.handle ⟨4, by decide, by decide⟩ [] (.call (.upsertInChunks pairs 2))
    ended.1.outcome = .error (.fault (.reservedKey 0)) ∧
      ended.2 = (small.upserts ⟨4, by decide, by decide⟩ [(5, 1), (6, 3), (1, 4)]).2 := by
  intro pairs ended
  obtain ⟨-, -, hbatch⟩ := chunks_agree small ⟨4, by decide, by decide⟩ 2
  obtain ⟨hended, -⟩ := hbatch pairs
  have hn : chunkSize? pairs.length 2 = some 2 := by decide
  have hx : small.config.refused? pairs = some (0, 2) := by decide +kernel
  have hchunks : (chunks 2 pairs).flatMap small.config.accepted = [(5, 1), (6, 3), (1, 4)] := by
    decide +kernel
  rw [hn, hx] at hended
  rw [← hchunks]
  exact hended reachable_small.quiet.unlocked

end Table

end TwoChoice
