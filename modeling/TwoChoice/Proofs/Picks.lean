import TwoChoice.Proofs.Batches
import TwoChoice.Proofs.Murmur

/-!
# Picking entries alone

`c.residents s key` are the pairs in the candidate buckets of a key, in the order in which they are
searched. When nobody interferes a pick answers the one to which the salt points
(`pick_alone`); the hash of the salts takes every value, so there is a salt for each of them. The
other pick answers the pair with the smallest hash (`pickSmaller_alone`), and as different keys
have different hashes there is one such pair only.
-/

set_option autoImplicit false

namespace TwoChoice

/-! ## Pairs of a bucket -/

namespace Slots

variable {k v : Width} {L : BucketLen} (t : Slots k v L) (r : ReservedKeys k)

/-- The pairs in slot order. -/
def pairs : List (Word k × Word v) := (t.live r).map Prod.snd

theorem pairs_eq : t.pairs r = (List.range L.slots).filterMap (t.pairAt r) := by
  rw [pairs, live, t.zipIdx_eq, List.filterMap_map, List.map_filterMap, ← List.map_coe_finRange_eq_range,
    List.filterMap_map]
  refine List.filterMap_congr fun i _ => ?_
  show Option.map _ (if r.isReserved (t.get i).key = true then _ else _) = t.pairAt r i
  rw [pairAt_eq]
  split <;> rfl

/-- What is read from the slots of a vote are the pairs. -/
theorem map_pairAt_liveMask : (t.liveMask r).indices.map (t.pairAt r) = (t.pairs r).map some := by
  rw [liveMask, Mask.indices_collect L.slots_le, pairs_eq]
  induction List.range L.slots with
  | nil => rfl
  | cons n rest ih => cases h : t.pairAt r n <;> simp [h, ih]

theorem length_pairs_le : (t.pairs r).length ≤ L.slots := by
  rw [pairs_eq]
  simpa using List.length_filterMap_le (t.pairAt r) (List.range L.slots)

end Slots

/-! ## Pairs of the candidate buckets -/

namespace Config

variable {k v : Width} {c : Config k} {T : Set (Place c.shape)} {s : Cells k v c.shape}
variable {key : Word k}

variable (c) in
/-- The pairs in the candidate buckets of a key: the primary one slot by slot, then the secondary
one if it is another. -/
def residents (s : Cells k v c.shape) (key : Word k) : List (Word k × Word v) :=
  (c.candidates key).distinct.flatMap fun b => (s.bucket b).slots.pairs c.reserved

theorem mem_residents {e : Word k × Word v} : e ∈ c.residents s key ↔
    ∃ p : Place c.shape, c.MayLie key p.bucket ∧ c.Live (s.key p) ∧ e = (s.key p, s.value p) := by
  simp only [residents, List.mem_flatMap, Slots.pairs, List.mem_map]
  constructor
  · rintro ⟨b, hb, ⟨n, key', value⟩, hmem, rfl⟩
    obtain ⟨hl, hn, hslot⟩ := Slots.mem_live.1 hmem
    have hslot' : s.slot ⟨b, ⟨n, hn⟩⟩ = ⟨key', value⟩ := hslot
    exact ⟨⟨b, ⟨n, hn⟩⟩, hb, by rw [Cells.key, hslot']; exact hl, by
      rw [Cells.key, Cells.value, hslot']⟩
  · rintro ⟨p, hb, hl, rfl⟩
    exact ⟨p.bucket, hb, (p.index, s.key p, s.value p),
      Slots.mem_live.2 ⟨hl, p.index.isLt, rfl⟩, rfl⟩

theorem residents_eq_nil : c.residents s key = [] ↔
    ∀ p : Place c.shape, c.MayLie key p.bucket → ¬ c.Live (s.key p) := by
  rw [List.eq_nil_iff_forall_not_mem]
  constructor
  · intro h p hb hl
    exact h _ (mem_residents.2 ⟨p, hb, hl, rfl⟩)
  · intro h e he
    obtain ⟨p, hb, hl, -⟩ := mem_residents.1 he
    exact h p hb hl

theorem length_residents_le : (c.residents s key).length ≤ 2 * c.shape.len.slots := by
  have hlen := fun b => (s.bucket b).slots.length_pairs_le c.reserved
  rw [residents, Candidates.distinct]
  split
  · have := hlen (c.candidates key).primary
    simp
    omega
  · have := hlen (c.candidates key).primary
    have := hlen (c.candidates key).secondary
    simp
    omega

/-! ## By a salt -/

/-- What is found first on the way round a list is what stands where the way begins. -/
theorem findSome?_rotate {α β : Type} {f : α → Option β} {xs : List α} {ys : List β}
    (h : xs.map f = ys.map some) (n : Nat) :
    (xs.drop (n % xs.length) ++ xs.take (n % xs.length)).findSome? f = ys[n % ys.length]? := by
  have hlen : xs.length = ys.length := by simpa using congrArg List.length h
  rw [hlen]
  cases ys with
  | nil => simp [List.length_eq_zero_iff.1 hlen]
  | cons y ys =>
    have hn : n % (y :: ys).length < (y :: ys).length := Nat.mod_lt _ (by simp)
    generalize n % (y :: ys).length = m at hn ⊢
    have hm : m < xs.length := hlen ▸ hn
    have hat : f xs[m] = some (y :: ys)[m] := by
      have hmap : (xs.map f)[m]? = ((y :: ys).map some)[m]? := congrArg (·[m]?) h
      rwa [List.getElem?_map, List.getElem?_map, List.getElem?_eq_getElem hm,
        List.getElem?_eq_getElem hn, Option.map_some, Option.map_some, Option.some.injEq] at hmap
    rw [List.drop_eq_getElem_cons hm, List.cons_append, List.findSome?_cons, hat,
      List.getElem?_eq_getElem hn]

theorem picked_eq {live : List (Fin c.shape.count × Nat)} (salt : UInt64)
    (h : live.map (fun x => (s.bucket x.1).slots.pairAt c.reserved x.2) =
      (c.residents s key).map some) : c.picked salt live s =
      (c.residents s key)[(Word.hash (w := .w64) salt.toBitVec c.seed).toNat %
        (c.residents s key).length]? :=
  findSome?_rotate h _

/-- Alone, a pick answers the pair to which the salt points. -/
theorem pick_alone {E : Halt → Unit → Cells k v c.shape → Prop} (g : Group) (key : Word k)
    (salt : UInt64) :
    (c.pick g key salt).Ensures (World.alone _) E () s fun x _ s' => s' = s ∧
      x = (c.residents s key)[(Word.hash (w := .w64) salt.toBitVec c.seed).toNat %
        (c.residents s key).length]? := by
  refine pick_ensures g salt trivial (fun hsame r₁ s₁ h₁ => ?_) fun hother r₁ s₁ h₁ =>
    ⟨trivial, fun r₂ s₂ h₂ => ?_⟩
  · obtain rfl : s₁ = s := h₁
    refine ⟨rfl, picked_eq salt ?_⟩
    simp [named, residents, Candidates.distinct, hsame, Mask.indices_zero, Function.comp_def,
      Slots.map_pairAt_liveMask]
  · obtain rfl : s₁ = s := h₁
    obtain rfl : s₂ = s₁ := h₂
    refine ⟨rfl, picked_eq salt ?_⟩
    simp [named, residents, Candidates.distinct, hother, Function.comp_def,
      Slots.map_pairAt_liveMask]

/-! ## By the smallest hash -/

variable (c) in
/-- The best one of the pairs that were looked at. -/
inductive Least (seen : List (Word k × Word v)) : Option (UInt64 × Word k × Word v) → Prop
  | nothing (nil : seen = []) : Least seen none
  | found {e : Word k × Word v} (mem : e ∈ seen)
      (le : ∀ e' ∈ seen, e.1.hash c.seed ≤ e'.1.hash c.seed) :
      Least seen (some (e.1.hash c.seed, e))

theorem Least.smaller {seen : List (Word k × Word v)} {best : Option (UInt64 × Word k × Word v)}
    (h : c.Least seen best) (e : Word k × Word v) : c.Least (seen ++ [e]) (c.smaller best e) := by
  cases h with
  | nothing nil =>
    subst nil
    exact .found (by simp) (by simp)
  | @found a mem le =>
    rw [Config.smaller, lesser]
    split
    · rename_i hlt
      refine .found (by simp) fun e' he' => ?_
      rcases List.mem_append.1 he' with he' | he'
      · exact UInt64.le_trans (UInt64.le_of_lt hlt) (le e' he')
      · rw [List.mem_singleton.1 he']
        exact UInt64.le_refl _
    · rename_i hlt
      refine .found (List.mem_append_left _ mem) fun e' he' => ?_
      rcases List.mem_append.1 he' with he' | he'
      · exact le e' he'
      · rw [List.mem_singleton.1 he']
        exact UInt64.not_lt.1 hlt

theorem Least.foldl {seen : List (Word k × Word v)} {best : Option (UInt64 × Word k × Word v)}
    (h : c.Least seen best) (pairs : List (Word k × Word v)) :
    c.Least (seen ++ pairs) (pairs.foldl c.smaller best) := by
  induction pairs generalizing seen best with
  | nil => rwa [List.append_nil]
  | cons e pairs ih => simpa using ih (h.smaller e)

/-- Reading the slots of a vote one after the other is going through the pairs. -/
theorem foldl_pairAt (t : Slots k v c.shape.len) (best : Option (UInt64 × Word k × Word v)) :
    (t.liveMask c.reserved).indices.foldl
      (fun best n => (t.pairAt c.reserved n).elim best (c.smaller best)) best =
      (t.pairs c.reserved).foldl c.smaller best := by
  have hsome := t.map_pairAt_liveMask c.reserved
  generalize (t.liveMask c.reserved).indices = indices at hsome ⊢
  generalize t.pairs c.reserved = pairs at hsome ⊢
  induction indices generalizing pairs best with
  | nil => cases pairs with
    | nil => rfl
    | cons => simp at hsome
  | cons n indices ih =>
    cases pairs with
    | nil => simp at hsome
    | cons e pairs =>
      simp only [List.map_cons, List.cons.injEq] at hsome
      rw [List.foldl_cons, List.foldl_cons, hsome.1]
      exact ih _ _ hsome.2

/-- Alone, the pick looks at all pairs of the candidate buckets. -/
theorem pickSmaller_alone {E : Halt → Unit → Cells k v c.shape → Prop} (g : Group) (key : Word k) :
    (c.pickSmaller g key).Ensures (World.alone _) E () s fun x _ s' => s' = s ∧
      ∃ best, c.Least (c.residents s key) best ∧
        x = (best.filter fun e => e.1 < key.hash c.seed).map Prod.snd := by
  rw [pickSmaller, Prog.ensures_bind]
  -- the pairs of the buckets that were gone through, and those of the buckets ahead
  refine Prog.ensures_foldlM (fun rest best _ s' => s' = s ∧ ∃ seen, c.Least seen best ∧
    seen ++ (rest.flatMap fun b => (s.bucket b).slots.pairs c.reserved) = c.residents s key)
    ?_ ?_ _ ⟨rfl, [], .nothing rfl, by rw [List.nil_append, residents]⟩
  · rintro b rest best _ s₁ ⟨hs₁, seen, hleast, hall⟩
    subst hs₁
    refine smallestIn_ensures g.toLanes best trivial fun r₂ s₂ h₂ => ?_
    obtain rfl : s₂ = s₁ := h₂
    rw [foldl_pairAt]
    exact ⟨rfl, _, hleast.foldl _, by simpa using hall⟩
  · rintro best _ s₁ ⟨hs₁, seen, hleast, hall⟩
    rw [List.flatMap_nil, List.append_nil] at hall
    rw [Prog.ensures_pure]
    exact ⟨hs₁, best, hall ▸ hleast, rfl⟩

theorem Least.isSome_filter {best : Option (UInt64 × Word k × Word v)} {bound : UInt64}
    (h : c.Least (c.residents s key) best) : (best.filter fun e => e.1 < bound).isSome = true ↔
      ∃ p : Place c.shape, c.MayLie key p.bucket ∧ c.Live (s.key p) ∧
        (s.key p).hash c.seed < bound := by
  constructor
  · intro hsome
    cases h with
    | nothing => cases hsome
    | @found e mem =>
      obtain ⟨p, hb, hl, rfl⟩ := mem_residents.1 mem
      exact ⟨p, hb, hl, by simpa [Option.filter] using hsome⟩
  · rintro ⟨p, hb, hl, hlt⟩
    have hmem := mem_residents.2 ⟨p, hb, hl, rfl⟩
    cases h with
    | nothing nil =>
      rw [nil] at hmem
      exact absurd hmem List.not_mem_nil
    | @found e _ le =>
      have := UInt64.lt_of_le_of_lt (le _ hmem) hlt
      simpa [Option.filter] using this

/-- As different keys have different hashes, the least one is less than all others. -/
theorem Least.of_filter {best : Option (UInt64 × Word k × Word v)} {bound : UInt64}
    (hs : c.Sound T s) (h : c.Least (c.residents s key) best) {e : Word k × Word v}
    (he : (best.filter fun e => e.1 < bound).map Prod.snd = some e) :
    ∃ p : Place c.shape, c.MayLie key p.bucket ∧ c.Live (s.key p) ∧ e = (s.key p, s.value p) ∧
      (s.key p).hash c.seed < bound ∧
      ∀ q, c.MayLie key q.bucket → c.Live (s.key q) → q ≠ p →
        (s.key p).hash c.seed < (s.key q).hash c.seed := by
  obtain ⟨x, hx, rfl⟩ := Option.map_eq_some_iff.1 he
  rw [Option.filter_eq_some_iff] at hx
  obtain ⟨rfl, hlt⟩ := hx
  cases h with
  | found mem le =>
    obtain ⟨p, hb, hl, rfl⟩ := mem_residents.1 mem
    refine ⟨p, hb, hl, rfl, by simpa using hlt, fun q hb' hl' hne => ?_⟩
    have hle := le _ (mem_residents.2 ⟨q, hb', hl', rfl⟩)
    have hkey : s.key p ≠ s.key q := fun h => hne (hs.unique p q hl h).symm
    exact UInt64.lt_of_le_of_ne hle ((Word.hash_injective c.seed).ne hkey)

end Config

/-- Each of so many numbers is the hash of a salt. -/
theorem exists_salt (seed : UInt64) {n : Nat} (hn : n < 2 ^ 64) :
    ∃ salt : UInt64, (Word.hash (w := .w64) salt.toBitVec seed).toNat = n := by
  obtain ⟨x, hx⟩ := (Word.hash_bijective seed).2 (UInt64.ofNat n)
  refine ⟨.ofBitVec x, ?_⟩
  show (Word.hash x seed).toNat = n
  rw [show Word.hash x seed = _ from hx, UInt64.toNat_ofNat_of_lt' hn]

namespace Table

open Config

variable {k v : Width}

/-- A pick that nobody interrupts answers the pair to which the salt points. -/
theorem handle_pick (t : Table k v) (lanes : Lanes) (key : Word k) (salt : UInt64) :
    (t.handle lanes [] (.call (.pick key salt))).2 = t ∧
    (t.handle lanes [] (.call (.pick key salt))).1.outcome = .ok (some (.pick
      (t.config.residents t.cells key)[(Word.hash (w := .w64) salt.toBitVec t.config.seed).toNat %
        (t.config.residents t.cells key).length]?)) := by
  have hrun : ((Call.pick (v := v) key salt).run t.config { lanes with passes := 1 }).Ensures
      (World.alone _) (fun _ _ _ => False) () t.cells fun reply _ s' => s' = t.cells ∧
        reply = .pick (t.config.residents t.cells key)[(Word.hash (w := .w64) salt.toBitVec
          t.config.seed).toNat % (t.config.residents t.cells key).length]? :=
    Prog.ensures_map.2 ((pick_alone _ key salt).mono fun _ _ _ h => ⟨h.1, congrArg _ h.2⟩)
  obtain ⟨houtcome, htable⟩ := handle_solo t lanes (.pick key salt)
  obtain ⟨reply, s', hsolo, rfl, rfl⟩ := hrun.solo_ok
  rw [hsolo] at houtcome htable
  exact ⟨htable, houtcome⟩

/-- A table with two pairs in one bucket. -/
def paired : Table .w16 .w16 :=
  (small.handle fourLanes [] (.call (.upsertAll [(5, 1), (9, 2)]))).2

theorem reachable_paired : paired.Reachable :=
  reachable_small.call fourLanes (by decide +kernel)

/-- **Every pair may be picked.** A pick that nobody interrupts leaves the table as it is. It
answers nothing, whatever the salt, exactly when no slot of the candidate buckets holds a pair. Else
the hash of the salt is reduced to the number of the pairs, and the pair with that number is the
answer. For every slot with a pair there is a salt with which its pair is the answer. -/
theorem pick_every_pair (t : Table k v) (lanes : Lanes) (key : Word k) :
    let pairs := t.config.residents t.cells key
    let answer := fun salt => (t.handle lanes [] (.call (.pick key salt))).1.outcome
    (∀ salt, (t.handle lanes [] (.call (.pick key salt))).2 = t) ∧
    ((∀ salt, answer salt = .ok (some (.pick none))) ↔
      ∀ p : Place t.config.shape, t.config.MayLie key p.bucket →
        ¬ t.config.Live (t.cells.key p)) ∧
    (pairs ≠ [] → ∀ salt : UInt64, ∃ e, answer salt = .ok (some (.pick (some e))) ∧
      pairs[(Murmur.hash (Word.bytesLE (w := .w64) salt.toBitVec) t.config.seed).toNat %
        pairs.length]? = some e) ∧
    ∀ p : Place t.config.shape, t.config.MayLie key p.bucket → t.config.Live (t.cells.key p) →
      ∃ salt, answer salt = .ok (some (.pick (some (t.cells.key p, t.cells.value p)))) := by
  intro pairs answer
  have hanswer := fun salt => (handle_pick t lanes key salt).2
  have hlt : ∀ n, pairs ≠ [] → n % pairs.length < pairs.length := fun n hne =>
    Nat.mod_lt _ (List.length_pos_iff.2 hne)
  have hsome : pairs ≠ [] → ∀ salt : UInt64, ∃ e, answer salt = .ok (some (.pick (some e))) ∧
      pairs[(Word.hash (w := .w64) salt.toBitVec t.config.seed).toNat % pairs.length]? =
        some e := by
    intro hne salt
    have hget := List.getElem?_eq_getElem
      (hlt (Word.hash (w := .w64) salt.toBitVec t.config.seed).toNat hne)
    exact ⟨_, by rw [← hget]; exact hanswer salt, hget⟩
  refine ⟨fun salt => (handle_pick t lanes key salt).1, ?_, hsome, fun p hb hl => ?_⟩
  · rw [← residents_eq_nil]
    constructor
    · intro hnone
      by_contra hne
      obtain ⟨e, he, -⟩ := hsome hne 0
      rw [hnone 0] at he
      cases he
    · intro hnil salt
      rw [show answer salt = _ from hanswer salt, hnil]
      rfl
  · obtain ⟨n, hn, hget⟩ := List.getElem_of_mem (mem_residents.2 ⟨p, hb, hl, rfl⟩)
    have hle : (t.config.residents t.cells key).length ≤ 2 * t.config.shape.len.slots :=
      length_residents_le
    have hslots := t.config.shape.len.slots_le
    obtain ⟨salt, hsalt⟩ := exists_salt t.config.seed (n := n) (by omega)
    refine ⟨salt, ?_⟩
    rw [show answer salt = _ from hanswer salt, hsalt, Nat.mod_eq_of_lt hn,
      List.getElem?_eq_getElem hn, hget]

/-- Each of two pairs in the primary bucket of an absent key is the answer for some salt. -/
theorem pick_every_pair_paired :
    let answer := fun salt =>
      (paired.handle ⟨4, by decide, by decide⟩ [] (.call (.pick 2 salt))).1.outcome
    (∃ salt, answer salt = .ok (some (.pick (some (5, 1))))) ∧
      ∃ salt, answer salt = .ok (some (.pick (some (9, 2)))) := by
  intro answer
  have hevery := (pick_every_pair paired ⟨4, by decide, by decide⟩ 2).2.2.2
  obtain ⟨salt, hfirst⟩ := hevery ⟨⟨0, by decide +kernel⟩, ⟨0, by decide +kernel⟩⟩
    (by decide +kernel) (by decide +kernel)
  obtain ⟨salt', hsecond⟩ := hevery ⟨⟨0, by decide +kernel⟩, ⟨1, by decide +kernel⟩⟩
    (by decide +kernel) (by decide +kernel)
  exact ⟨⟨salt, hfirst⟩, salt', hsecond⟩

/-- **The pair with the smallest hash.** A pick by the hash that nobody interrupts leaves the table
as it is. It answers a pair exactly when one in the candidate buckets has a smaller hash than the
key. That pair is the one of the only slot with the smallest hash, and its key is another. -/
theorem Reachable.pickSmaller_least {t : Table k v} (h : t.Reachable) (lanes : Lanes)
    (key : Word k) :
    let hash := fun key : Word k => key.hash t.config.seed
    (t.handle lanes [] (.call (.pickSmaller key))).2 = t ∧
    ∃ x, (t.handle lanes [] (.call (.pickSmaller key))).1.outcome = .ok (some (.pick x)) ∧
      (x.isSome = true ↔ ∃ p : Place t.config.shape, t.config.MayLie key p.bucket ∧
        t.config.Live (t.cells.key p) ∧ hash (t.cells.key p) < hash key) ∧
      ∀ e, x = some e → e.1 ≠ key ∧ ∃ p : Place t.config.shape, t.config.MayLie key p.bucket ∧
        t.config.Live (t.cells.key p) ∧ e = (t.cells.key p, t.cells.value p) ∧
        hash (t.cells.key p) < hash key ∧
        ∀ q, t.config.MayLie key q.bucket → t.config.Live (t.cells.key q) → q ≠ p →
          hash (t.cells.key p) < hash (t.cells.key q) := by
  intro hash
  have hrun : ((Call.pickSmaller (v := v) key).run t.config { lanes with passes := 1 }).Ensures
      (World.alone _) (fun _ _ _ => False) () t.cells fun reply _ s' => s' = t.cells ∧
        ∃ best, t.config.Least (t.config.residents t.cells key) best ∧
          reply = .pick ((best.filter fun e => e.1 < key.hash t.config.seed).map Prod.snd) :=
    Prog.ensures_map.2 ((pickSmaller_alone _ key).mono fun _ _ _ h => by
      obtain ⟨hs', best, hleast, rfl⟩ := h
      exact ⟨hs', best, hleast, rfl⟩)
  obtain ⟨houtcome, htable⟩ := handle_solo t lanes (.pickSmaller key)
  obtain ⟨reply, s', hsolo, rfl, best, hleast, rfl⟩ := hrun.solo_ok
  rw [hsolo] at houtcome htable
  refine ⟨htable, _, houtcome, ?_, fun e he => ?_⟩
  · rw [Option.isSome_map]
    exact hleast.isSome_filter
  · obtain ⟨p, hb, hl, rfl, hlt, hleast⟩ := hleast.of_filter h.quiet.sound he
    refine ⟨fun hkey => ?_, p, hb, hl, rfl, hlt, hleast⟩
    rw [show t.cells.key p = key from hkey] at hlt
    exact UInt64.lt_irrefl _ hlt

/-- One of two pairs has a smaller hash than an absent key, and none has a smaller hash than the key
that has the smallest. -/
theorem Reachable.pickSmaller_least_paired :
    let answer := fun key =>
      (paired.handle ⟨4, by decide, by decide⟩ [] (.call (.pickSmaller key))).1.outcome
    (∃ e, answer 2 = .ok (some (.pick (some e))) ∧ e.1 ≠ 2) ∧ answer 5 = .ok (some (.pick none)) := by
  intro answer
  constructor
  · obtain ⟨-, x, hx, hsome, hleast⟩ :=
      reachable_paired.pickSmaller_least ⟨4, by decide, by decide⟩ 2
    obtain ⟨e, rfl⟩ := Option.isSome_iff_exists.1 (hsome.2
      ⟨⟨⟨0, by decide +kernel⟩, ⟨0, by decide +kernel⟩⟩, by decide +kernel⟩)
    exact ⟨e, hx, (hleast e rfl).1⟩
  · obtain ⟨-, x, hx, hsome, -⟩ :=
      reachable_paired.pickSmaller_least ⟨4, by decide, by decide⟩ 5
    have hno : ¬ x.isSome = true := by
      rw [hsome]
      rintro ⟨⟨b, i⟩, hp⟩
      revert b i
      decide +kernel
    obtain rfl : x = none := by simpa using hno
    exact hx

end Table

end TwoChoice
