import TwoChoice.Table.Builder
import TwoChoice.Proofs.Detached
import TwoChoice.Proofs.Picks
import TwoChoice.Proofs.Spots

/-!
# Reserved keys are inert

Reserved keys do occur in slots, and their tags are those of other keys as well. In a table that is
as operations leave it a reserved key is in no slot with the tag of the key
(`Config.Clean.not_hit`). So with nobody else there a call that asks for it comes to nothing
(`Table.Inert`). No call hands a reserved key out, whatever the table and whatever others do
(`Table.handle_yields`). All other keys may be stored, and what is stored is read back
(`Table.ReadsBack`).
-/

set_option autoImplicit false

namespace TwoChoice

variable {k v : Width}

/-! ## The keys of an offset -/

/-- The numbers of the reserved keys for an offset. -/
def reservedNumbers (k : Width) (offset : UInt64) : List Nat :=
  let top := (Word.max : Word k).toNat - offset.toNat
  [0, top, top - 1]

namespace ReservedKeys

variable {offset : UInt64} {r : ReservedKeys k}

theorem ofOffset?_isSome :
    (ofOffset? offset : Option (ReservedKeys k)).isSome = true ↔
      offset.toNat ≤ (Word.max : Word k).toNat - 2 := by
  have := two_le_max (w := k)
  rw [ofOffset?]
  split
  · simp
    omega
  · simp
    omega

theorem toNat_holding (r : ReservedKeys k) : r.holding.toNat = r.tombstone.toNat - 1 := by
  have := r.two_le
  rw [holding, BitVec.toNat_sub_of_le, toNat_one]
  rw [BitVec.le_def, toNat_one]
  omega

theorem toNat_tombstone (h : ofOffset? offset = some r) :
    r.tombstone.toNat = (Word.max : Word k).toNat - offset.toNat := by
  rw [ofOffset?] at h
  split at h
  · cases h
    rw [BitVec.toNat_ofNat, Nat.mod_eq_of_lt]
    have := (Word.max : Word k).isLt
    omega
  · cases h

theorem isReserved_iff (h : ofOffset? offset = some r) (key : Word k) :
    r.isReserved key = true ↔ key.toNat ∈ reservedNumbers k offset := by
  rw [reservedNumbers, ← toNat_tombstone h, ← toNat_holding]
  simp only [isReserved, Bool.or_eq_true, beq_iff_eq, or_assoc, List.mem_cons, List.not_mem_nil,
    or_false, ← BitVec.toNat_inj]
  rfl

theorem nodup_reservedNumbers (h : offset.toNat ≤ (Word.max : Word k).toNat - 2) :
    (reservedNumbers k offset).Nodup := by
  have := two_le_max (w := k)
  simp [reservedNumbers]
  omega

theorem le_max_of_mem_reservedNumbers {n : Nat} (h : n ∈ reservedNumbers k offset) :
    n ≤ (Word.max : Word k).toNat := by
  simp only [reservedNumbers, List.mem_cons, List.not_mem_nil, or_false] at h
  omega

end ReservedKeys

/-! ## What is handed out -/

/-- Anything may happen at a pause, and nothing need hold there. -/
def World.whatever (σ : Type) : World Unit σ where
  ready _ _ := True
  turn _ _ _ _ := True

theorem Prog.ensures_whatever {σ α : Type} (p : Prog σ α) (s : σ) :
    p.Ensures (World.whatever σ) (fun _ _ _ => True) () s fun _ _ _ => True := by
  induction p generalizing s with
  | done | halt => trivial
  | read q ih => exact ih s s
  | write f p ih => exact ih (f s)
  | emit e p ih => exact ih s
  | sync p ih => exact ⟨trivial, fun _ s' _ => ih s'⟩

/-- The keys that an answer hands out. -/
def Reply.yields : Reply k v → List (Word k)
  | .pick pair => pair.toList.map Prod.fst
  | .picks pairs => (pairs.flatMap Option.toList).map Prod.fst
  | .entries pairs => pairs.map Prod.fst
  | _ => []

theorem Slots.live_of_pairAt {L : BucketLen} {t : Slots k v L} {r : ReservedKeys k} {n : Nat}
    {e : Word k × Word v} (h : t.pairAt r n = some e) : r.isReserved e.1 = false := by
  obtain ⟨x, -, hx⟩ := Option.bind_eq_some_iff.1 h
  split at hx
  · cases hx
  · rename_i hlive
    cases hx
    simpa using hlive

namespace Config

variable {c : Config k} {s : Cells k v c.shape} {E : Halt → Unit → Cells k v c.shape → Prop}

theorem live_of_picked {salt : UInt64} {live : List (Fin c.shape.count × Nat)}
    {e : Word k × Word v} (h : c.picked salt live s = some e) : c.Live e.1 := by
  obtain ⟨x, -, hx⟩ := List.exists_of_findSome?_eq_some h
  exact Slots.live_of_pairAt hx

theorem pick_live (g : Group) (key : Word k) (salt : UInt64) :
    (c.pick g key salt).Ensures (World.whatever _) E () s fun pair _ _ =>
      ∀ e ∈ pair, c.Live e.1 :=
  pick_ensures g salt trivial (fun _ _ _ _ _ he => live_of_picked he) fun _ _ _ _ =>
    ⟨trivial, fun _ _ _ _ he => live_of_picked he⟩

/-- The best pair so far stays a live one. -/
theorem live_smaller (pairs : Nat → Option (Word k × Word v))
    (hpairs : ∀ n, ∀ e ∈ pairs n, c.Live e.1) (indices : List Nat)
    {best : Option (UInt64 × Word k × Word v)} (h : ∀ e ∈ best, c.Live e.2.1) :
    ∀ e ∈ indices.foldl (fun best n => (pairs n).elim best (c.smaller best)) best,
      c.Live e.2.1 := by
  refine List.foldlRecOn indices _
    (motive := fun best : Option (UInt64 × Word k × Word v) => ∀ e ∈ best, c.Live e.2.1) h
    fun best hbest n _ => ?_
  cases hn : pairs n with
  | none => exact hbest
  | some a =>
    intro e he
    rw [Option.elim, smaller] at he
    cases best with
    | none =>
      cases he
      exact hpairs n a hn
    | some b =>
      rw [lesser] at he
      split at he <;> cases he
      · exact hpairs n a hn
      · exact hbest _ rfl

theorem pickSmaller_live (g : Group) (key : Word k) :
    (c.pickSmaller g key).Ensures (World.whatever _) E () s fun pair _ _ =>
      ∀ e ∈ pair, c.Live e.1 := by
  rw [pickSmaller, Prog.ensures_bind]
  refine Prog.ensures_foldlM
    (fun _ (best : Option (UInt64 × Word k × Word v)) _ _ => ∀ e ∈ best, c.Live e.2.1)
    (fun b rest best _ s' hbest => ?_) (fun best _ s' hbest => ?_) _ (by simp)
  · exact smallestIn_ensures g.toLanes best trivial fun _ s'' _ =>
      live_smaller _ (fun n e he => Slots.live_of_pairAt he) _ hbest
  · intro e he
    obtain ⟨x, hx, rfl⟩ := Option.map_eq_some_iff.1 he
    exact hbest x (Option.filter_eq_some_iff.1 hx).1

theorem live_of_mem_entries {e : Word k × Word v} (he : e ∈ s.entries c.reserved) :
    c.Live e.1 := by
  obtain ⟨⟨b, n, e'⟩, hmem, rfl⟩ := List.mem_map.1 he
  exact (mem_placed.1 hmem).1

end Config

/-- **A call hands out live keys only**, whatever happens at its pauses. -/
theorem Call.run_yields {c : Config k} (g : Group) (call : Call k v) (s : Cells k v c.shape) :
    (call.run c g).Ensures (World.whatever _) (fun _ _ _ => True) () s fun reply _ _ =>
      ∀ key ∈ reply.yields, c.Live key := by
  have hpair : ∀ {pair : Option (Word k × Word v)}, (∀ e ∈ pair, c.Live e.1) →
      ∀ key ∈ pair.toList.map Prod.fst, c.Live key := by
    intro pair h key hkey
    obtain ⟨e, he, rfl⟩ := List.mem_map.1 hkey
    exact h e (Option.mem_toList.1 he)
  have hnothing : ∀ key ∈ ([] : List (Word k)), c.Live key := fun _ h => absurd h List.not_mem_nil
  cases call with
  | pick key salt => exact Prog.ensures_map.2 ((Config.pick_live g key salt).mono fun _ _ _ => hpair)
  | pickSmaller key =>
    exact Prog.ensures_map.2 ((Config.pickSmaller_live g key).mono fun _ _ _ => hpair)
  | pickEach key salts =>
    refine Prog.ensures_map.2 (Prog.ensures_mapM
      (fun _ pairs _ _ => ∀ pair ∈ pairs, ∀ e ∈ pair, c.Live e.1)
      (fun salt _ pairs _ s' h => ?_) (fun pairs _ s' h key hkey => ?_) salts (by simp))
    · refine (Config.pick_live g key salt).mono fun pair _ _ hlive x hx => ?_
      rcases List.mem_append.1 hx with hx | hx
      · exact h x hx
      · exact List.mem_singleton.1 hx ▸ hlive
    · obtain ⟨e, he, rfl⟩ := List.mem_map.1 hkey
      obtain ⟨pair, hmem, he⟩ := List.mem_flatMap.1 he
      exact h pair hmem e (Option.mem_toList.1 he)
  | entries =>
    intro key hkey
    obtain ⟨e, he, rfl⟩ := List.mem_map.1 hkey
    exact Config.live_of_mem_entries he
  | sortedEntries =>
    intro key hkey
    obtain ⟨e, he, rfl⟩ := List.mem_map.1 hkey
    exact Config.live_of_mem_entries (List.mem_mergeSort.1 he)
  | size | isEmpty | locate | candidates | profile | describe => exact hnothing
  | occupancy bucket =>
    show Prog.Ensures _ _ (if h : bucket < c.shape.count then _ else _) _ _ _
    split
    · exact hnothing
    · trivial
  | _ => exact Prog.ensures_map.2 ((Prog.ensures_whatever _ s).mono fun _ _ _ _ => hnothing)

/-! ## Clean tables -/

namespace Config

variable {c : Config k} {s : Cells k v c.shape} {key : Word k} {value : Word v}

/-- A reserved key under its own tag would be a detached slot. -/
theorem Clean.not_hit (h : c.Clean s) (hkey : ¬ c.Live key) (p : Place c.shape) :
    ¬ Hit s key p := fun hit => by
  obtain ⟨htag, rfl⟩ := hit
  exact h.attached p ⟨htag ▸ Tag.ofKey_ne_empty _, htag ▸ Tag.ofKey_ne_tombstone _, hkey⟩

theorem Clean.spot?_reserved (h : c.Clean s) (hkey : ¬ c.Live key) : c.spot? s key = none :=
  spot?_eq_none.2 fun p _ => h.not_hit hkey p

end Config

/-- The call is to store the pair. -/
inductive Call.Puts (key : Word k) (value : Word v) : Call k v → Prop
  | upsert (locked : Bool) : Puts key value (.upsert key value locked)
  | insertNew : Puts key value (.insertNew key value)
  | exchange (oldKey : Word k) (oldValue : Word v) (update : Bool) :
    Puts key value (.exchange key value oldKey oldValue update)

/-- The answer of a call that succeeds. -/
def Reply.success : Reply k v → Bool
  | .flag done => done
  | .insertion result => result.isOk
  | _ => false

/-- With nobody else there a live key is not refused, and it is found if it is stored. -/
theorem Call.Puts.run_ensures {c : Config k} {s : Cells k v c.shape} {key : Word k}
    {value : Word v} {call : Call k v} (h : call.Puts key value) (hl : c.Live key) {g : Group}
    (hg : 0 < g.passes) (hfree : ∀ b, s.locks.isLocked b = false) :
    (call.run c g).Ensures (World.alone _) Config.Never () s fun reply _ s' =>
      reply ≠ .insertion (.error .reservedKey) ∧
        (reply.success = true → (c.spot? s' key).map s'.value = some value) := by
  have hstore := fun replace locked =>
    Config.store_landed (u := ()) g hg hl value replace locked hfree
  cases h with
  | upsert locked =>
    refine Prog.ensures_map.2 (Prog.ensures_bind.2 ((hstore true locked).mono ?_))
    intro stored _ s' hlanded
    refine ⟨by simp, fun hdone => hlanded.found ?_⟩
    cases stored with
    | inserted => exact .inl rfl
    | present => exact .inr ⟨rfl, rfl⟩
    | full => cases hdone
  | insertNew =>
    rw [Call.run, Config.insertNew, if_neg (by rw [hl]; simp)]
    refine Prog.ensures_map.2 (Prog.ensures_bind.2 ((hstore false true).mono ?_))
    intro stored _ s' hlanded
    cases stored with
    | inserted => exact ⟨by simp, fun _ => hlanded.found (.inl rfl)⟩
    | present | full => exact ⟨by simp, fun hdone => by cases hdone⟩
  | exchange oldKey oldValue update =>
    refine Prog.ensures_map.2 ((Config.exchange_swapped g hl value oldKey oldValue update
      hfree).mono fun done _ s' hswapped => ⟨by simp, fun hdone => ?_⟩)
    obtain rfl : done = true := hdone
    exact hswapped.found

/-! ## Tables -/

namespace Table

open Config

variable {t t₀ : Table k v} {lanes : Lanes} {call : Call k v} {reply : Reply k v}

/-- With nobody else there, the call has this answer and leaves the table as it is. -/
def Replies (t : Table k v) (lanes : Lanes) (call : Call k v) (reply : Reply k v) : Prop :=
  (t.handle lanes [] (.call call)).1.outcome = .ok (some reply) ∧
    (t.handle lanes [] (.call call)).2 = t

theorem replies_of_ensures
    (h : (call.run t.config { lanes with passes := 1 }).Ensures (World.alone _) Never () t.cells
      fun x _ s' => x = reply ∧ s' = t.cells) : t.Replies lanes call reply := by
  obtain ⟨houtcome, htable⟩ := handle_solo t lanes call
  obtain ⟨x, s', hsolo, rfl, rfl⟩ := h.solo_ok
  rw [hsolo] at houtcome htable
  exact ⟨houtcome, htable⟩

/-- A search answers the value in the slot in which the key is found. -/
theorem replies_find (t : Table k v) (lanes : Lanes) (key : Word k) :
    t.Replies lanes (.find key) (.value ((t.config.spot? t.cells key).map t.cells.value)) :=
  replies_of_ensures (Prog.ensures_map.2 (.of_solo (solo_find? _) ⟨rfl, rfl⟩))

theorem spot?_of_replies {key : Word k} (h : t.Replies lanes (.find key) (.value none)) :
    t.config.spot? t.cells key = none := by
  have he := (t.replies_find lanes key).1.symm.trans h.1
  simpa using he

/-- **No reserved key is handed out**, whatever the table holds and whatever others do. -/
theorem handle_yields {schedule : List (Intrusion k v)}
    (h : (t.handle lanes schedule (.call call)).1.outcome = .ok (some reply)) :
    ∀ key ∈ reply.yields, t.config.Live key := by
  obtain ⟨-, -, hend⟩ := (call.run_yields { lanes with passes := schedule.length + 1 }
    t.cells).exec (V := Scene.env t.config lanes schedule) (R := fun _ _ => True)
    (fun _ _ _ _ => trivial) (fun _ _ _ _ _ => ⟨(), trivial, trivial⟩) (r := {}) trivial
  rw [handle, Scene.run] at h
  generalize (call.run t.config _).exec _ _ t.cells = ended at h hend
  obtain ⟨_ | x, _, s'⟩ := ended
  · cases h
  · cases h
    exact hend

/-- Calls that ask for the key come to nothing: it is not found, not removed and not exchanged for
another one, and it is refused as a new key. -/
structure Inert (t : Table k v) (lanes : Lanes) (r : Word k) : Prop where
  find : t.Replies lanes (.find r) (.value none)
  contains : t.Replies lanes (.contains r) (.flag false)
  erase : ∀ locked, t.Replies lanes (.erase r locked) (.flag false)
  erasePair : ∀ value, t.Replies lanes (.erasePair r value) (.flag false)
  replace : ∀ key value oldValue, t.config.Live key →
    t.Replies lanes (.exchange key value r oldValue false) (.flag false)
  /-- A key that is present would get the value in place. -/
  update : ∀ key value oldValue, t.config.Live key → t.Replies lanes (.find key) (.value none) →
    t.Replies lanes (.exchange key value r oldValue true) (.flag false)
  insertNew : ∀ value, t.Replies lanes (.insertNew r value) (.insertion (.error .reservedKey))

/-- A store of the key, with nobody else there, is not refused, and what is stored is read back. -/
def ReadsBack (t : Table k v) (lanes : Lanes) (key : Word k) : Prop :=
  ∀ value call, call.Puts key value → ∃ reply t', (t.handle lanes [] (.call call)).1.outcome =
    .ok (some reply) ∧ (t.handle lanes [] (.call call)).2 = t' ∧
    reply ≠ .insertion (.error .reservedKey) ∧
    (reply.success = true → ∀ lanes', t'.Replies lanes' (.find key) (.value (some value)))

theorem inert_of_clean (h : t.config.Clean t.cells) {r : Word k} (hr : ¬ t.config.Live r)
    (lanes : Lanes) : t.Inert lanes r := by
  have hfind := t.replies_find lanes r
  rw [h.spot?_reserved hr] at hfind
  have hexchange : ∀ key value oldValue update, t.config.Live key →
      (update = true → t.config.spot? t.cells key = none) →
      t.Replies lanes (.exchange key value r oldValue update) (.flag false) := by
    intro key value oldValue update hl habsent
    refine replies_of_ensures (Prog.ensures_map.2 ((exchange_swapped _ hl value r oldValue update
      fun b => h.unlocked b).mono fun done _ s' hswapped => ?_))
    obtain ⟨rfl, rfl⟩ := hswapped.eq_of_missing (h.not_hit hr) habsent
    exact ⟨rfl, rfl⟩
  have herase : ∀ wanted locked, (t.config.erase { lanes with passes := 1 } r wanted locked).Ensures
      (World.alone _) Never () t.cells fun erased _ s' => erased = false ∧ s' = t.cells :=
    fun wanted locked => erase_missing _ wanted locked (fun b => h.unlocked b) (h.not_hit hr)
  refine ⟨hfind, ?_, fun locked => ?_, fun value => ?_, fun key value oldValue hl => ?_,
    fun key value oldValue hl habsent => ?_, fun value => ?_⟩
  · refine replies_of_ensures (Prog.ensures_map.2 (Prog.ensures_bind.2
      (.of_solo (solo_find? _) ?_)))
    rw [h.spot?_reserved hr]
    exact ⟨rfl, rfl⟩
  · exact replies_of_ensures (Prog.ensures_map.2 ((herase none locked).mono fun _ _ _ he =>
      ⟨congrArg Reply.flag he.1, he.2⟩))
  · exact replies_of_ensures (Prog.ensures_map.2 ((herase (some value) true).mono fun _ _ _ he =>
      ⟨congrArg Reply.flag he.1, he.2⟩))
  · exact hexchange key value oldValue false hl fun hupdate => by cases hupdate
  · exact hexchange key value oldValue true hl fun _ => spot?_of_replies habsent
  · refine replies_of_ensures ?_
    rw [Call.run, Config.insertNew, if_pos (Bool.of_not_eq_false hr)]
    exact ⟨rfl, rfl⟩

theorem readsBack_of_clean (h : t.config.Clean t.cells) {key : Word k} (hl : t.config.Live key)
    (lanes : Lanes) : t.ReadsBack lanes key := by
  intro value call hputs
  obtain ⟨houtcome, htable⟩ := handle_solo t lanes call
  obtain ⟨reply, s', hsolo, hrefused, hfound⟩ :=
    (hputs.run_ensures hl (g := { lanes with passes := 1 }) Nat.one_pos fun b =>
      h.unlocked b).solo_ok
  rw [hsolo] at houtcome htable
  refine ⟨reply, _, houtcome, htable, hrefused, fun hdone lanes' => ?_⟩
  have hfind := replies_find { t with cells := s' } lanes' key
  rwa [show (t.config.spot? s' key).map s'.value = some value from hfound hdone] at hfind

end Table

namespace Builder

/-- What is built has the reserved keys of its offset and is as operations leave a table. -/
theorem of_build {b : Builder} {len : BucketLen} {drawn : UInt64} {t₀ : Table k v}
    {records : List LogRecord} (h : b.build k v len drawn = .ok (t₀, records)) :
    ReservedKeys.ofOffset? b.tombstoneOffset = some t₀.config.reserved ∧
      t₀.config.Clean t₀.cells := by
  rw [build] at h
  cases hreserved : (ReservedKeys.ofOffset? b.tombstoneOffset : Option (ReservedKeys k)) with
  | none =>
    rw [hreserved] at h
    cases h
  | some reserved =>
    rw [hreserved] at h
    cases hcreate : (Table.create len b.capacity (b.seed.getD drawn) reserved b.counting :
        Except Fault (Table k v × List LogRecord)) with
    | error f =>
      simp only [hcreate] at h
      cases h
    | ok made =>
      simp only [hcreate] at h
      obtain rfl : made = (t₀, records) := by cases h; rfl
      refine ⟨?_, (Table.quiet_create hcreate).clean⟩
      rw [Table.create] at hcreate
      split at hcreate <;> cases hcreate
      rfl

/-- **Reserved keys are inert for every builder.** Whatever the key type, the bucket length and the
seed are: if the sum that rounds the capacity up fits 64 bits, a table is built exactly when the
offset is at most the largest key less two. Its reserved keys are then three different numbers that
are keys. Take any table that comes of it by calls with any keys, under any schedules or in turns,
by clearings and by reseedings, once no operation is at work. There a call that asks for a reserved
key comes to nothing and leaves the table as it is, and no call hands a reserved key out, not even
one that is interrupted. Every other key may be stored, and what is stored is read back. -/
theorem reserved_keys_inert (b : Builder) (len : BucketLen) (drawn : UInt64)
    (hfits : b.capacity + len.slots < UInt64.size) :
    ((∃ t₀ records, b.build k v len drawn = .ok (t₀, records)) ↔
      b.tombstoneOffset.toNat ≤ (Word.max : Word k).toNat - 2) ∧
    ∀ t₀ records, b.build k v len drawn = .ok (t₀, records) →
      ((reservedNumbers k b.tombstoneOffset).Nodup ∧
        (∀ n ∈ reservedNumbers k b.tombstoneOffset, n ≤ (Word.max : Word k).toNat)) ∧
      ∀ t, t₀.LeadsTo t → ∀ lanes,
        (∀ key, key.toNat ∈ reservedNumbers k b.tombstoneOffset → t.Inert lanes key) ∧
        (∀ schedule call reply,
          (t.handle lanes schedule (.call call)).1.outcome = .ok (some reply) →
            ∀ key ∈ reply.yields, key.toNat ∉ reservedNumbers k b.tombstoneOffset) ∧
        ∀ key, key.toNat ∉ reservedNumbers k b.tombstoneOffset → t.ReadsBack lanes key := by
  refine ⟨⟨fun hmade => ?_, fun hle => ?_⟩, fun t₀ records hmade => ?_⟩
  · obtain ⟨t₀, records, hmade⟩ := hmade
    exact ReservedKeys.ofOffset?_isSome.1 (Option.isSome_iff_exists.2 ⟨_, (of_build hmade).1⟩)
  · obtain ⟨reserved, hreserved⟩ := Option.isSome_iff_exists.1 (ReservedKeys.ofOffset?_isSome.2 hle)
    rw [build, hreserved]
    simp only [Table.create, if_pos hfits]
    exact ⟨_, _, rfl⟩
  obtain ⟨hreserved, hclean₀⟩ := of_build hmade
  have hle := ReservedKeys.ofOffset?_isSome.1 (Option.isSome_iff_exists.2 ⟨_, hreserved⟩)
  refine ⟨⟨ReservedKeys.nodup_reservedNumbers hle,
    fun n => ReservedKeys.le_max_of_mem_reservedNumbers⟩, fun t ht lanes => ?_⟩
  have hclean := ht.clean hclean₀
  have hlive : ∀ key, t.config.Live key ↔ key.toNat ∉ reservedNumbers k b.tombstoneOffset := by
    intro key
    rw [Config.Live, ht.reserved, ← ReservedKeys.isReserved_iff hreserved, Bool.not_eq_true]
  exact ⟨fun key hkey => Table.inert_of_clean hclean (fun hl => (hlive key).1 hl hkey) lanes,
    fun schedule call reply h key hmem => (hlive key).1 (Table.handle_yields h key hmem),
    fun key hkey => Table.readsBack_of_clean hclean ((hlive key).2 hkey) lanes⟩

/-- With an offset of five the largest key is not reserved, and the key five below it is: the one is
read back and the other is inert after the largest key was stored. -/
theorem reserved_keys_inert_below_top :
    let b : Builder := { capacity := 8, seed := some 7, tombstoneOffset := 5 }
    b.capacity + (⟨1, by decide, by decide⟩ : BucketLen).slots < UInt64.size ∧
    ∃ t₀ records, b.build .w16 .w16 ⟨1, by decide, by decide⟩ 0 = .ok (t₀, records) ∧
      let t := (t₀.handle Table.fourLanes [] (.call (.upsert 65535 1 true))).2
      t.Inert Table.fourLanes 65530 ∧ t.ReadsBack Table.fourLanes 65535 := by
  refine ⟨by decide, ?_⟩
  obtain ⟨hbuilt, hinert⟩ := reserved_keys_inert (k := .w16) (v := .w16)
    { capacity := 8, seed := some 7, tombstoneOffset := 5 } ⟨1, by decide, by decide⟩ 0 (by decide)
  obtain ⟨t₀, records, hmade⟩ := hbuilt.2 (by decide)
  obtain ⟨hreserved, -, hother⟩ := (hinert t₀ records hmade).2 _
    (.handle .refl Table.fourLanes [] (.call (.upsert 65535 1 true))) Table.fourLanes
  exact ⟨t₀, records, hmade, hreserved 65530 (by decide), hother 65535 (by decide)⟩

end Builder

end TwoChoice
