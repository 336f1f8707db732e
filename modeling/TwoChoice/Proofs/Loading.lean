import Mathlib.Data.FinEnum
import TwoChoice.Proofs.Chunks

/-!
# Loading

Pairs with different keys may be stored in any order. The order decides where they come to lie, but
not whether there is room: a bucket never lacks a slot for a key if it has one for every key that
may lie in it (`Config.Roomy`), whatever was stored before. So all pairs are stored, and the table
then stands for the old map overridden by the pairs (`StoresAll.loaded`, `Table.handle_loaded`).
-/

set_option autoImplicit false

namespace TwoChoice

variable {k v : Width}

/-- The values of a map after those of the pairs were put into it. -/
def Contents.overridden {n : Nat} (M : Contents k v n) (pairs : List (Word k × Word v))
    (key : Word k) : Option (Word v) :=
  (pairs.lookup key).or ((M key).map Prod.fst)

/-- Ways to store all of these pairs, in whatever order. -/
inductive Call.Loads (pairs : List (Word k × Word v)) : Call k v → Prop
  | plain {pairs'} (order : pairs'.Perm pairs) : Loads pairs (.upsertAll pairs')
  | byWorkers {pairs' workers} (order : pairs'.Perm pairs)
    (fits : pairs'.length + max workers 1 < 2 ^ 64) : Loads pairs (.upsertInChunks pairs' workers)

/-! ## Listed values -/

section
variable {pairs pairs' : List (Word k × Word v)}

/-- A key that is listed once has the value that stands with it. -/
theorem lookup_eq_some_iff_mem (hkeys : (pairs.map Prod.fst).Nodup) {key : Word k}
    {value : Word v} : pairs.lookup key = some value ↔ (key, value) ∈ pairs := by
  induction pairs with
  | nil => simp
  | cons x pairs ih =>
    obtain ⟨key', value'⟩ := x
    obtain ⟨hnew, hkeys⟩ := List.nodup_cons.1 hkeys
    rw [List.mem_cons, Prod.mk.injEq]
    by_cases hk : key = key'
    · subst hk
      have hnot : (key, value) ∉ pairs := fun hmem =>
        hnew (List.mem_map.2 ⟨_, hmem, rfl⟩)
      simp [hnot, eq_comm]
    · rw [List.lookup_cons, beq_eq_false_iff_ne.2 hk]
      simp [hk, ih hkeys]

theorem lookup_perm (hkeys : (pairs.map Prod.fst).Nodup) (hperm : pairs'.Perm pairs)
    (key : Word k) : pairs'.lookup key = pairs.lookup key := by
  have hkeys' : (pairs'.map Prod.fst).Nodup := (hperm.map Prod.fst).nodup_iff.2 hkeys
  refine Option.ext fun value => ?_
  rw [lookup_eq_some_iff_mem hkeys, lookup_eq_some_iff_mem hkeys', hperm.mem_iff]

end

namespace Config

variable (c : Config k)

/-- The bucket has a slot for each of these keys that may lie in it. -/
def Roomy (keys : Set (Word k)) (b : Fin c.shape.count) : Prop :=
  {key ∈ keys | c.MayLie key b}.ncard ≤ c.shape.len.slots

/-- The keys of the map are among these, and each of them is in a bucket where it may lie. -/
def Within (keys : Set (Word k)) (M : Contents k v c.shape.count) : Prop :=
  ∀ key value b, M key = some (value, b) → key ∈ keys ∧ c.MayLie key b

variable {c}
variable {keys : Set (Word k)} {M M' : Contents k v c.shape.count} {key : Word k} {value : Word v}
variable {b : Fin c.shape.count}

theorem Within.update (hM : c.Within keys M) (hk : key ∈ keys) (hb : c.MayLie key b) :
    c.Within keys (Function.update M key (some (value, b))) := by
  intro key' value' b' hsome
  rw [Function.update_apply] at hsome
  split at hsome <;> rename_i heq
  · cases hsome
    exact heq ▸ ⟨hk, hb⟩
  · exact hM key' value' b' hsome

/-- What a sound table holds, with any more keys. -/
theorem within_contents {T : Set (Place c.shape)} {s : Cells k v c.shape} (hs : c.Sound T s)
    (hkeys : ∀ key, c.contents s key ≠ none → key ∈ keys) : c.Within keys (c.contents s) := by
  intro key value b hsome
  refine ⟨hkeys key (by simp [hsome]), ?_⟩
  obtain ⟨hl, i, hslot⟩ := (contents_eq_some hs).1 hsome
  have hk : s.key ⟨b, i⟩ = key := congrArg Slot.key hslot
  subst hk
  exact hs.mayLie hl

/-- A roomy bucket is not full as long as one of its keys is missing. -/
theorem Roomy.load_lt (hroom : c.Roomy keys b) (hM : c.Within keys M) (hk : key ∈ keys)
    (hb : c.MayLie key b) (habs : M key = none) : M.load b < c.shape.len.slots := by
  refine Nat.lt_of_lt_of_le (Set.ncard_lt_ncard ⟨fun key' hkey' => ?_, fun hall => ?_⟩) hroom
  · -- what is in the bucket may lie there
    obtain ⟨⟨value', b'⟩, hsome, rfl⟩ := Option.map_eq_some_iff.1 hkey'
    exact hM key' value' b' hsome
  · have hlies : (M key).map Prod.snd = some b := hall ⟨hk, hb⟩
    rw [habs] at hlies
    cases hlies

/-- A store of a key that has a roomy bucket, or that is there already. -/
theorem Stores.loaded {stored : Stored} (h : c.Stores True M key value true stored M')
    (hM : c.Within keys M) (hk : key ∈ keys)
    (hroom : M key = none → ∃ b, c.MayLie key b ∧ c.Roomy keys b) :
    stored ≠ .full ∧ c.Within keys M' ∧
      ∀ key', (M' key').map Prod.fst = if key' = key then some value else (M key').map Prod.fst := by
  have hvalues : ∀ (b : Fin c.shape.count) (key' : Word k),
      (Function.update M key (some (value, b)) key').map Prod.fst =
        if key' = key then some value else (M key').map Prod.fst := by
    intro b key'
    rw [Function.update_apply]
    split <;> rfl
  cases h with
  | @present old b entry => exact ⟨nofun, hM.update hk (hM _ _ _ entry).2, hvalues b⟩
  | @inserted b _ bucket _ => exact ⟨nofun, hM.update hk bucket, hvalues b⟩
  | full absent crowded =>
    obtain ⟨b, hb, hb'⟩ := hroom absent
    exact absurd (crowded trivial b hb) (hb'.load_lt hM hk hb absent).ne

/-- **All pairs are stored** if each of them has a roomy bucket, or is there already. -/
theorem StoresAll.loaded {pairs : List (Word k × Word v)} {all : Bool}
    (h : c.StoresAll True M pairs all M') (hM : c.Within keys M) (hk : ∀ x ∈ pairs, x.1 ∈ keys)
    (hkeys : (pairs.map Prod.fst).Nodup)
    (hroom : ∀ x ∈ pairs, M x.1 = none → ∃ b, c.MayLie x.1 b ∧ c.Roomy keys b) :
    all = true ∧ ∀ key, (M' key).map Prod.fst = M.overridden pairs key := by
  induction h with
  | nil => exact ⟨rfl, fun _ => rfl⟩
  | @cons M M₁ M' key value pairs stored all head _ ih =>
    obtain ⟨hkey, hk⟩ := List.forall_mem_cons.1 hk
    obtain ⟨hroomKey, hroom⟩ := List.forall_mem_cons.1 hroom
    obtain ⟨hnew, hkeys⟩ := List.nodup_cons.1 hkeys
    obtain ⟨hstored, hM₁, hvalues⟩ := head.loaded hM hkey hroomKey
    -- a store removes nothing, so what is missing after it was missing before
    have hmissing : ∀ key', M₁ key' = none → M key' = none := by
      intro key' hnone
      have hvalue := hvalues key'
      rw [hnone] at hvalue
      split at hvalue
      · cases hvalue
      · exact Option.map_eq_none_iff.1 hvalue.symm
    obtain ⟨rfl, hrest⟩ := ih hM₁ hk hkeys fun x hx hnone => hroom x hx (hmissing _ hnone)
    refine ⟨by cases stored <;> first | rfl | exact absurd rfl hstored, fun key' => ?_⟩
    rw [hrest, Contents.overridden, Contents.overridden, hvalues, List.lookup_cons]
    by_cases heq : key' = key
    · subst heq
      have hnone : pairs.lookup key' = none := List.lookup_eq_none_iff.2 fun x hx =>
        bne_iff_ne.2 fun he => hnew (List.mem_map.2 ⟨x, hx, he.symm⟩)
      simp [hnone]
    · rw [if_neg heq, beq_eq_false_iff_ne.2 heq]

end Config

namespace Table

open Config

/-- The keys of the table and those of the list. -/
def keysWith (t : Table k v) (pairs : List (Word k × Word v)) : Set (Word k) :=
  {key | key ∈ pairs.map Prod.fst ∨ t.config.contents t.cells key ≠ none}

/-- The pairs have different keys, and each of them that is not in the table yet may lie in a bucket
that has a slot for every key of the table or of the list that may lie in it. -/
structure Loadable (t : Table k v) (pairs : List (Word k × Word v)) : Prop where
  live : ∀ x ∈ pairs, t.config.Live x.1
  nodup : (pairs.map Prod.fst).Nodup
  room : ∀ x ∈ pairs, t.config.contents t.cells x.1 = none →
    ∃ b, t.config.MayLie x.1 b ∧ t.config.Roomy (t.keysWith pairs) b

/-- The second table has the pairs, and else what the first one has. -/
structure Loaded (t : Table k v) (pairs : List (Word k × Word v)) (t' : Table k v) : Prop where
  found : ∀ x ∈ pairs, ∀ lanes,
    (t'.handle lanes [] (.call (.find x.1))).1.outcome = .ok (some (.value (some x.2)))
  contents : ∀ key, (t'.config.contents t'.cells key).map Prod.fst =
    (t.config.contents t.cells).overridden pairs key

variable {t t' : Table k v} {pairs pairs' : List (Word k × Word v)}

theorem keysWith_perm (hperm : pairs'.Perm pairs) : t.keysWith pairs' = t.keysWith pairs :=
  Set.ext fun _ => or_congr_left (hperm.map Prod.fst).mem_iff

theorem Loadable.perm (h : t.Loadable pairs) (hperm : pairs'.Perm pairs) : t.Loadable pairs' where
  live x hx := h.live x (hperm.mem_iff.1 hx)
  nodup := (hperm.map Prod.fst).nodup_iff.2 h.nodup
  room x hx hnone := keysWith_perm hperm ▸ h.room x (hperm.mem_iff.1 hx) hnone

theorem Loaded.perm (h : t.Loaded pairs' t') (hkeys : (pairs.map Prod.fst).Nodup)
    (hperm : pairs'.Perm pairs) : t.Loaded pairs t' where
  found x hx := h.found x (hperm.mem_iff.2 hx)
  contents key := by
    rw [h.contents, Contents.overridden, Contents.overridden, lookup_perm hkeys hperm]

/-- What a quiet table answers. The map after the call is left open: to state it for a call at hand,
Lean would have to carry the call out. -/
theorem handle_meant (ht : t.config.Quiet t.cells) {call : Call k v}
    (hcall : call.Meant t.config.reserved) (lanes : Lanes) :
    ∃ reply M', (t.handle lanes [] (.call call)).1.outcome = .ok (some reply) ∧
      t.config.Serves True call (t.config.contents t.cells) reply M' := by
  obtain ⟨reply, houtcome, -, hserves⟩ :=
    handle_alone lanes (meant_alone hcall Nat.zero_lt_one ht)
  exact ⟨reply, _, houtcome, hserves⟩

theorem handle_find (ht : t.config.Quiet t.cells) {key : Word k} (hl : t.config.Live key)
    (lanes : Lanes) : (t.handle lanes [] (.call (.find key))).1.outcome =
      .ok (some (.value ((t.config.contents t.cells key).map Prod.fst))) := by
  have hmeant : (Call.find (v := v) key).Meant t.config.reserved :=
    ⟨.inl trivial, fun _ hkey => List.mem_singleton.1 hkey ▸ hl⟩
  obtain ⟨reply, M', houtcome, hserves⟩ := handle_meant ht hmeant lanes
  rw [houtcome, hserves.1]

/-- A quiet table with these values is loaded, as lookups answer what the map says. -/
theorem loaded_of_contents (ht : t'.config.Quiet t'.cells)
    (hlive : ∀ x ∈ pairs, t'.config.Live x.1) (hkeys : (pairs.map Prod.fst).Nodup)
    (hcontents : ∀ key, (t'.config.contents t'.cells key).map Prod.fst =
      (t.config.contents t.cells).overridden pairs key) : t.Loaded pairs t' where
  found x hx lanes := by
    rw [handle_find ht (hlive x hx), hcontents, Contents.overridden,
      (lookup_eq_some_iff_mem hkeys).2 hx, Option.some_or]
  contents := hcontents

/-- A quiet table takes all pairs by one call. -/
theorem handle_loadable (ht : t.config.Quiet t.cells) (h : t.Loadable pairs) (lanes : Lanes) :
    let ended := t.handle lanes [] (.call (.upsertAll pairs))
    ended.1.outcome = .ok (some (.flag true)) ∧ t.Loaded pairs ended.2 := by
  intro ended
  have hmeant : (Call.upsertAll pairs).Meant t.config.reserved :=
    ⟨.inr (.inl ⟨pairs, rfl⟩), List.forall_mem_map.2 h.live⟩
  obtain ⟨reply, houtcome, hquiet, all, hstores, rfl⟩ :=
    handle_alone lanes (meant_alone hmeant Nat.zero_lt_one ht)
  obtain ⟨rfl, hvalues⟩ := hstores.loaded (within_contents ht.sound fun key => .inr)
    (fun x hx => .inl (List.mem_map_of_mem hx)) h.nodup h.room
  exact ⟨houtcome, loaded_of_contents hquiet h.live h.nodup hvalues⟩

/-- Workers do what one call does with the same pairs. -/
theorem handle_loads {call : Call k v} (hcall : call.Loads pairs)
    (hlive : ∀ x ∈ pairs, t.config.Live x.1) (lanes : Lanes) :
    let ended := t.handle lanes [] (.call call)
    ∃ pairs', pairs'.Perm pairs ∧
      let plain := t.handle lanes [] (.call (.upsertAll pairs'))
      ended.1.outcome = plain.1.outcome ∧ ended.2 = plain.2 := by
  intro ended
  cases hcall with
  | plain order => exact ⟨_, order, rfl, rfl⟩
  | @byWorkers pairs' workers order fits =>
    refine ⟨pairs', order, ?_⟩
    have hnone : t.config.refused? pairs' = none :=
      refused?_eq_none.2 fun x hx => hlive x (order.mem_iff.1 hx)
    have hsame := handle_upsertInChunks t lanes workers pairs'
    have hdealt := dealt_chunks pairs' workers
    cases hn : chunkSize? pairs'.length workers with
    | none =>
      rw [hn] at hdealt
      exact absurd fits (Nat.not_lt.2 hdealt)
    | some n =>
      rw [hn, hnone] at hsame
      exact hsame

/-- **Pairs may be loaded in any order**, by one call or in chunks. -/
theorem handle_loaded (ht : t.config.Quiet t.cells) (h : t.Loadable pairs) {call : Call k v}
    (hcall : call.Loads pairs) (lanes : Lanes) :
    let ended := t.handle lanes [] (.call call)
    ended.1.outcome = .ok (some (.flag true)) ∧ t.Loaded pairs ended.2 := by
  intro ended
  obtain ⟨pairs', hperm, houtcome, hend⟩ := handle_loads hcall h.live lanes
  obtain ⟨hplain, hloaded⟩ := handle_loadable ht (h.perm hperm) lanes
  exact ⟨houtcome.trans hplain, hend ▸ hloaded.perm h.nodup hperm⟩

/-- So they may by calls of their own, one after the other. -/
theorem upserts_loaded (ht : t.config.Quiet t.cells) (h : t.Loadable pairs)
    (hperm : pairs'.Perm pairs) (lanes : Lanes) :
    let single := t.upserts lanes pairs'
    (∀ report ∈ single.1, report.outcome = .ok (some (.flag true))) ∧ t.Loaded pairs single.2 := by
  intro single
  obtain ⟨hplain, hloaded⟩ := handle_loadable ht (h.perm hperm) lanes
  obtain ⟨stored, hsingle, hall, hend⟩ := handle_upsertAll t lanes ht.unlocked
    (refused?_eq_none.2 (h.perm hperm).live)
  refine ⟨fun report hreport => ?_, hend ▸ hloaded.perm h.nodup hperm⟩
  have htrue : ∀ b ∈ stored, b = true := by simpa using hall.symm.trans hplain
  obtain ⟨b, hb, houtcome⟩ := List.mem_map.1 (hsingle ▸ List.mem_map_of_mem hreport)
  rw [← houtcome, htrue b hb]

end Table

end TwoChoice
