import Mathlib.Data.Set.Card
import Mathlib.Logic.Function.Basic
import TwoChoice.Proofs.Remove

/-!
# What a table holds

`c.contents s` is the finite map that a table stands for: from a key to its value and to the bucket
that holds it. Each change of a slot is an update of that map (`contents_overwrite`,
`contents_fill`, `contents_vacate`), and tags and locks do not matter to it. `load M b` is the
number of keys that a map has in a bucket; it is the length of the bucket exactly when no slot of it
is free (`load_lt`, `load_eq`).
-/

set_option autoImplicit false

namespace TwoChoice

/-- From keys to values and buckets. -/
abbrev Contents (k v : Width) (n : Nat) : Type := Word k → Option (Word v × Fin n)

namespace Contents

variable {k v : Width} {n : Nat}

/-- The number of keys in a bucket. -/
noncomputable def load (M : Contents k v n) (b : Fin n) : Nat :=
  {key | (M key).map Prod.snd = some b}.ncard

/-- The pairs are those of the map, each key once. -/
structure Enumerates (M : Contents k v n) (pairs : List (Word k × Word v)) : Prop where
  nodup : (pairs.map Prod.fst).Nodup
  mem : ∀ key value, (key, value) ∈ pairs ↔ (M key).map Prod.fst = some value

end Contents

theorem Slots.mem_live {k v : Width} {L : BucketLen} {t : Slots k v L} {reserved : ReservedKeys k}
    {n : Nat} {key : Word k} {value : Word v} :
    (n, key, value) ∈ t.live reserved ↔
      reserved.isReserved key = false ∧ ∃ h : n < L.slots, t.toVector[n] = ⟨key, value⟩ := by
  rw [live, List.mem_filterMap]
  constructor
  · rintro ⟨⟨x, i⟩, hx, hsome⟩
    obtain ⟨hi, hget⟩ := List.getElem?_eq_some_iff.1 (List.mem_zipIdx_iff_getElem?.1 hx)
    dsimp only at hsome hi hget
    split at hsome
    · cases hsome
    · rename_i hres
      cases hsome
      exact ⟨by simpa using hres, by simpa using hi, by simpa using hget⟩
  · intro hslot
    obtain ⟨hres, hn, hget⟩ := hslot
    refine ⟨(⟨key, value⟩, n), List.mem_zipIdx_iff_getElem?.2 ?_, by simp [hres]⟩
    rw [List.getElem?_eq_some_iff]
    exact ⟨by simpa using hn, by simpa using hget⟩

theorem Slots.zipIdx_eq {k v : Width} {L : BucketLen} (t : Slots k v L) :
    t.toVector.toList.zipIdx = (List.finRange L.slots).map fun i => (t.get i, i.val) := by
  apply List.ext_getElem
  · simp
  · intro n h₁ h₂
    simp [get]

theorem Slots.length_live {k v : Width} {L : BucketLen} (t : Slots k v L)
    (reserved : ReservedKeys k) : (t.live reserved).length =
      (List.finRange L.slots).countP fun i => !reserved.isReserved (t.get i).key := by
  rw [live, zipIdx_eq, List.filterMap_map, List.length_filterMap_eq_countP]
  refine List.countP_congr fun i _ => ?_
  cases h : reserved.isReserved (t.get i).key <;> simp [h]

theorem Slots.live_pairwise {k v : Width} {L : BucketLen} {t : Slots k v L}
    {reserved : ReservedKeys k} : (t.live reserved).Pairwise fun x y => x.1 ≠ y.1 := by
  have hidx : t.toVector.toList.zipIdx.Pairwise fun x y => x.2 ≠ y.2 := by
    rw [← List.pairwise_map, List.zipIdx_map_snd]
    exact List.nodup_range'
  rw [live, List.pairwise_filterMap]
  refine hidx.imp ?_
  intro p q hij a ha b hb
  obtain ⟨x, i⟩ := p
  obtain ⟨y, j⟩ := q
  dsimp only at ha hb
  split at ha
  · cases ha
  · split at hb
    · cases hb
    · cases ha
      cases hb
      exact hij

namespace Config

variable {k v : Width} {c : Config k} {T T' : Set (Place c.shape)} {s s' : Cells k v c.shape}
variable {p : Place c.shape} {key : Word k}

variable (c) in
/-- The map that a table stands for. -/
def contents (s : Cells k v c.shape) : Contents k v c.shape.count := fun key =>
  ((s.placed c.reserved).find? fun e => e.2.2.1 == key).map fun e => (e.2.2.2, e.1)

theorem mem_placed {b : Fin c.shape.count} {n : Nat} {value : Word v} :
    (b, n, key, value) ∈ s.placed c.reserved ↔
      c.Live key ∧ ∃ h : n < c.shape.len.slots, s.slot ⟨b, ⟨n, h⟩⟩ = ⟨key, value⟩ := by
  rw [Cells.placed, List.mem_flatMap]
  constructor
  · intro hplaced
    obtain ⟨b', -, hmem⟩ := hplaced
    obtain ⟨e, he, heq⟩ := List.mem_map.1 hmem
    cases heq
    exact Slots.mem_live.1 he
  · intro h
    exact ⟨b, List.mem_finRange b, List.mem_map.2 ⟨_, Slots.mem_live.2 h, rfl⟩⟩

/-- A live key is mapped to the value and the bucket of its slot. -/
theorem contents_eq_some (hs : c.Sound T s) {value : Word v} {b : Fin c.shape.count} :
    c.contents s key = some (value, b) ↔ c.Live key ∧ ∃ i, s.slot ⟨b, i⟩ = ⟨key, value⟩ := by
  rw [contents, Option.map_eq_some_iff]
  constructor
  · rintro ⟨⟨b', n, key', value'⟩, hfind, he⟩
    cases he
    have hkey : key' = key := by simpa using List.find?_some hfind
    obtain ⟨hl, hn, hslot⟩ := mem_placed.1 (List.mem_of_find?_eq_some hfind)
    exact ⟨hkey ▸ hl, ⟨n, hn⟩, hkey ▸ hslot⟩
  · intro hlive
    obtain ⟨hl, i, hslot⟩ := hlive
    have hmem : (b, i.val, key, value) ∈ s.placed c.reserved := mem_placed.2 ⟨hl, i.isLt, hslot⟩
    obtain ⟨⟨b', n, key', value'⟩, hfind⟩ := Option.isSome_iff_exists.1
      ((List.find?_isSome (p := fun e => e.2.2.1 == key)).2 ⟨_, hmem, beq_self_eq_true key⟩)
    have hkey : key' = key := by simpa using List.find?_some hfind
    obtain ⟨-, hn, hslot'⟩ := mem_placed.1 (List.mem_of_find?_eq_some hfind)
    have hplace : (⟨b', ⟨n, hn⟩⟩ : Place c.shape) = ⟨b, i⟩ := by
      refine hs.unique _ _ ?_ ?_
      · rw [Cells.key, hslot', hkey]
        exact hl
      · rw [Cells.key, Cells.key, hslot', hslot, hkey]
    have hvalue : value' = value := by
      rw [hplace, hslot] at hslot'
      cases hslot'
      rfl
    refine ⟨_, hfind, ?_⟩
    have hbucket : b' = b := congrArg Place.bucket hplace
    rw [hvalue, hbucket]

/-- The key in a slot. -/
theorem contents_key (hs : c.Sound T s) (hl : c.Live (s.key p)) :
    c.contents s (s.key p) = some (s.value p, p.bucket) :=
  (contents_eq_some hs).2 ⟨hl, p.index, rfl⟩

/-- A key that no slot holds is not in the map, also while slots are in transit. -/
theorem contents_absent (h : s.Absent key) : c.contents s key = none := by
  rw [contents, Option.map_eq_none_iff, List.find?_eq_none]
  intro x hmem hk
  obtain ⟨b, n, key', value⟩ := x
  obtain rfl : key' = key := by simpa using hk
  obtain ⟨-, hn, hslot⟩ := mem_placed.1 hmem
  exact h ⟨b, ⟨n, hn⟩⟩ (congrArg Slot.key hslot)

theorem contents_eq_none (hs : c.Sound T s) (hl : c.Live key) :
    c.contents s key = none ↔ s.Absent key := by
  refine ⟨fun h p hp => ?_, contents_absent⟩
  subst hp
  rw [contents_key hs hl] at h
  cases h

theorem contents_not_live (hs : c.Sound T s) (hl : ¬ c.Live key) : c.contents s key = none :=
  Option.eq_none_iff_forall_ne_some.2 fun _ h => hl ((contents_eq_some hs).1 h).1

theorem placed_congr (h : ∀ q, s'.slot q = s.slot q) :
    s'.placed c.reserved = s.placed c.reserved := by
  refine List.flatMap_congr fun b _ => ?_
  have hv : (s'.bucket b).slots.toVector = (s.bucket b).slots.toVector :=
    Vector.ext fun i hi => h ⟨b, ⟨i, hi⟩⟩
  have hslots : (s'.bucket b).slots = (s.bucket b).slots := congrArg Slots.mk hv
  show ((s'.bucket b).slots.live _).map _ = ((s.bucket b).slots.live _).map _
  rw [hslots]

/-- Tags and locks do not matter. -/
theorem contents_congr (h : ∀ q, s'.slot q = s.slot q) : c.contents s' = c.contents s := by
  funext key
  rw [contents, contents, placed_congr h]

theorem contents_putTag (s : Cells k v c.shape) (p : Place c.shape) (t : Tag) :
    c.contents (s.putTag p t) = c.contents s :=
  contents_congr fun q => s.slot_putTag p q t

theorem contents_setLocks (s : Cells k v c.shape) (l : Locks c.shape.count) :
    c.contents (s.setLocks l) = c.contents s := rfl

/-- Deeds on other keys do not matter to a key. -/
theorem contents_deeds {may : Word k → Prop} (h : c.Deeds may s s') (hs : c.Sound T s)
    (hl : c.Live key) (hm : ¬ may key) : c.contents s' key = c.contents s key := by
  by_cases hex : ∃ p, s.key p = key
  · obtain ⟨p, rfl⟩ := hex
    have hslot := (Deeds.same_of_key h hs hl hm).2
    have hkey := Cells.key_eq_of_slot_eq hslot
    have hvalue : s'.value p = s.value p := congrArg Slot.value hslot
    have hafter := contents_key (Deeds.sound h hs) (p := p) (hkey ▸ hl)
    rw [hkey, hvalue] at hafter
    rw [hafter, contents_key hs hl]
  · have habs : s.Absent key := fun p hp => hex ⟨p, hp⟩
    rw [contents_absent habs, contents_absent (Deeds.absent h hl hm habs)]

/-! ## Updates -/

/-- A change of one slot changes nothing for the other keys. -/
theorem contents_of_ne (hs : c.Sound T s) (hs' : c.Sound T' s')
    (hsame : ∀ q, q ≠ p → s'.slot q = s.slot q) (hold : c.Live key → s.key p ≠ key)
    (hnew : c.Live key → s'.key p ≠ key) : c.contents s' key = c.contents s key := by
  apply Option.ext
  rintro ⟨value, b⟩
  rw [contents_eq_some hs, contents_eq_some hs']
  refine and_congr_right fun hl => exists_congr fun i => ?_
  by_cases hp : (⟨b, i⟩ : Place c.shape) = p
  · subst hp
    exact ⟨fun h => absurd (congrArg Slot.key h) (hnew hl),
      fun h => absurd (congrArg Slot.key h) (hold hl)⟩
  · rw [hsame _ hp]

theorem contents_overwrite (hs : c.Sound T s) (hl : c.Live (s.key p)) (value : Word v) :
    c.contents (s.putSlot p ⟨s.key p, value⟩) =
      Function.update (c.contents s) (s.key p) (some (value, p.bucket)) := by
  have hs' := hs.overwrite hl value
  have hkey : (s.putSlot p ⟨s.key p, value⟩).key p = s.key p := by simp
  funext key
  by_cases hk : key = s.key p
  · subst hk
    rw [Function.update_self]
    refine (contents_eq_some hs').2 ⟨hl, p.index, ?_⟩
    simp
  · rw [Function.update_of_ne hk]
    refine contents_of_ne hs hs' (fun q hq => by simp [Ne.symm hq]) (fun _ he => hk he.symm)
      fun _ he => hk ?_
    rw [← he, hkey]

theorem contents_vacate (hs : c.Sound T s) (hl : c.Live (s.key p)) {mark : Word k}
    (hm : mark = c.reserved.tombstone ∨ mark = c.reserved.holding) :
    c.contents (s.vacate p mark) = Function.update (c.contents s) (s.key p) none := by
  have hs' := hs.vacate hl hm
  have hmark : ¬ c.Live mark := by
    rcases hm with rfl | rfl
    · exact not_live_tombstone
    · exact not_live_holding
  funext key
  by_cases hk : key = s.key p
  · subst hk
    rw [Function.update_self]
    exact (contents_eq_none hs' hl).2 (absent_vacate hs hl fun he => hmark (he ▸ hl))
  · rw [Function.update_of_ne hk]
    refine contents_of_ne hs hs' (fun q hq => by simp [Ne.symm hq]) (fun _ he => hk he.symm)
      fun hl' he => hmark ?_
    rw [Cells.key_vacate, if_pos rfl] at he
    rwa [he]

/-- A slot without a live key takes a pair. -/
theorem contents_fill (hs : c.Sound T s) (hold : ¬ c.Live (s.key p)) {value : Word v}
    (hl : c.Live key) (hb : c.MayLie key p.bucket) (habs : s.Absent key) :
    c.contents (s.fill p key value) =
      Function.update (c.contents s) key (some (value, p.bucket)) := by
  have hs' := hs.fill value hl hb fun q _ => habs q
  funext key'
  by_cases hk : key' = key
  · subst hk
    rw [Function.update_self]
    refine (contents_eq_some hs').2 ⟨hl, p.index, ?_⟩
    simp
  · rw [Function.update_of_ne hk]
    refine contents_of_ne hs hs' (fun q hq => by simp [Ne.symm hq])
      (fun hl' he => hold (he ▸ hl')) fun _ he => hk ?_
    rw [← he, Cells.key_fill, if_pos rfl]

/-! ## Counting -/

/-- The keys in a bucket are those in its live slots. -/
theorem load_contents (hs : c.Sound T s) (b : Fin c.shape.count) :
    (c.contents s).load b = {i | c.Live (s.key ⟨b, i⟩)}.ncard := by
  have himage : {key | (c.contents s key).map Prod.snd = some b} =
      (fun i => s.key ⟨b, i⟩) '' {i | c.Live (s.key ⟨b, i⟩)} := by
    ext key
    rw [Set.mem_ofPred_eq, Option.map_eq_some_iff, Set.mem_image]
    constructor
    · rintro ⟨⟨value, b'⟩, hsome, rfl⟩
      obtain ⟨hl, i, hi⟩ := (contents_eq_some hs).1 hsome
      have hk : s.key ⟨b', i⟩ = key := congrArg Slot.key hi
      refine ⟨i, ?_, hk⟩
      rwa [Set.mem_ofPred_eq, hk]
    · rintro ⟨i, hl, rfl⟩
      exact ⟨_, contents_key hs hl, rfl⟩
  rw [Contents.load, himage, Set.InjOn.ncard_image]
  intro i hi j _ hij
  exact congrArg Place.index (hs.unique ⟨b, i⟩ ⟨b, j⟩ hi hij)

/-- A bucket with a free slot is not full. -/
theorem load_lt (hs : c.Sound T s) (hf : s.Free p) :
    (c.contents s).load p.bucket < c.shape.len.slots := by
  rw [load_contents hs]
  have hne : {i | c.Live (s.key ⟨p.bucket, i⟩)} ≠ Set.univ := by
    intro h
    have : p.index ∈ {i | c.Live (s.key ⟨p.bucket, i⟩)} := h ▸ Set.mem_univ _
    exact hs.not_live_of_free hf this
  have := Set.ncard_lt_ncard (Set.ssubset_univ_iff.2 hne)
  rwa [Set.ncard_univ, Nat.card_fin] at this

/-- A bucket without a free slot is full if no slot is in transit. -/
theorem load_eq (hs : c.Sound ∅ s) {b : Fin c.shape.count} (hb : Crowded s b) :
    (c.contents s).load b = c.shape.len.slots := by
  have huniv : {i | c.Live (s.key ⟨b, i⟩)} = Set.univ :=
    Set.eq_univ_of_forall fun i => hs.live_of_not_free (Set.notMem_empty _) (hb i)
  rw [load_contents hs, huniv, Set.ncard_univ, Nat.card_fin]

/-! ## Listing -/

theorem placed_pairwise (hs : c.Sound T s) :
    (s.placed c.reserved).Pairwise fun x y => x.2.2.1 ≠ y.2.2.1 := by
  have hkey : ∀ {b n key value} {b' n' value'}, (b, n, key, value) ∈ s.placed c.reserved →
      (b', n', key, value') ∈ s.placed c.reserved → b = b' ∧ n = n' := by
    intro b n key value b' n' value' h h'
    obtain ⟨hl, hn, hslot⟩ := mem_placed.1 h
    obtain ⟨-, hn', hslot'⟩ := mem_placed.1 h'
    have hp := hs.unique ⟨b, ⟨n, hn⟩⟩ ⟨b', ⟨n', hn'⟩⟩ (by rwa [Cells.key, hslot])
      (by rw [Cells.key, Cells.key, hslot, hslot'])
    exact ⟨congrArg Place.bucket hp, congrArg Fin.val (congrArg Place.index hp)⟩
  have hplaces : (s.placed c.reserved).Pairwise fun x y => (x.1, x.2.1) ≠ (y.1, y.2.1) := by
    rw [Cells.placed, List.pairwise_flatMap]
    refine ⟨fun b _ => List.pairwise_map.2 ?_, ?_⟩
    · exact Slots.live_pairwise.imp fun hne he => hne (Prod.ext_iff.1 he).2
    · refine (List.nodup_finRange _).imp fun {b b'} hne x hx y hy he => hne ?_
      obtain ⟨_, -, rfl⟩ := List.mem_map.1 hx
      obtain ⟨_, -, rfl⟩ := List.mem_map.1 hy
      exact (Prod.ext_iff.1 he).1
  refine hplaces.imp_of_mem ?_
  intro x x' h h' hne hkey
  obtain ⟨b, n, key, value⟩ := x
  obtain ⟨b', n', key', value'⟩ := x'
  obtain rfl : key = key' := hkey
  obtain ⟨rfl, rfl⟩ := hkey h h'
  exact hne rfl

/-- The entries of a table are those of its map. -/
theorem entries_enumerates (hs : c.Sound T s) :
    (c.contents s).Enumerates (s.entries c.reserved) := by
  refine ⟨?_, fun key value => ?_⟩
  · rw [Cells.entries, List.map_map, List.Nodup, List.pairwise_map]
    exact placed_pairwise hs
  · rw [Cells.entries, List.mem_map, Option.map_eq_some_iff]
    constructor
    · rintro ⟨⟨b, n, key', value'⟩, hmem, he⟩
      cases he
      obtain ⟨hl, hn, hslot⟩ := mem_placed.1 hmem
      exact ⟨(value, b), (contents_eq_some hs).2 ⟨hl, ⟨n, hn⟩, hslot⟩, rfl⟩
    · rintro ⟨⟨value', b⟩, hsome, rfl⟩
      obtain ⟨hl, i, hslot⟩ := (contents_eq_some hs).1 hsome
      exact ⟨(b, i.val, key, value'), mem_placed.2 ⟨hl, i.isLt, hslot⟩, rfl⟩

theorem mem_keys (hs : c.Sound T s) :
    key ∈ (s.entries c.reserved).map Prod.fst ↔ c.Live key ∧ ∃ p, s.key p = key := by
  rw [List.mem_map]
  constructor
  · rintro ⟨⟨_, value⟩, hmem, rfl⟩
    obtain ⟨⟨_, b⟩, hsome, -⟩ := Option.map_eq_some_iff.1 (((entries_enumerates hs).mem _ _).1 hmem)
    obtain ⟨hl, i, hslot⟩ := (contents_eq_some hs).1 hsome
    exact ⟨hl, ⟨b, i⟩, congrArg Slot.key hslot⟩
  · rintro ⟨hl, p, rfl⟩
    refine ⟨(s.key p, s.value p), ((entries_enumerates hs).mem _ _).2 ?_, rfl⟩
    rw [contents_key hs hl]
    rfl

/-- Tables in which the same slots are live have the same size. -/
theorem size_congr (h : ∀ p, c.Live (s'.key p) ↔ c.Live (s.key p)) :
    s'.size c.reserved = s.size c.reserved := by
  have hbucket : ∀ b, ((s'.bucket b).slots.live c.reserved).length =
      ((s.bucket b).slots.live c.reserved).length := fun b => by
    rw [Slots.length_live, Slots.length_live]
    refine List.countP_congr fun i _ => ?_
    rw [Bool.not_eq_true', Bool.not_eq_true']
    exact h ⟨b, i⟩
  simp only [Cells.size, Cells.entries, Cells.placed, List.length_map, List.length_flatMap]
  exact congrArg List.sum (List.map_congr_left fun b _ => hbucket b)

/-- A slot without a live key takes a new one: there is one entry more. -/
theorem size_fill (hs : c.Sound T s) (hold : ¬ c.Live (s.key p)) (value : Word v) (hl : c.Live key)
    (hb : c.MayLie key p.bucket) (habs : s.Absent key) :
    (s.fill p key value).size c.reserved = s.size c.reserved + 1 := by
  have hs' := hs.fill value hl hb fun q _ => habs q
  have hnew : key ∉ (s.entries c.reserved).map Prod.fst := fun hmem => by
    obtain ⟨-, q, hq⟩ := (mem_keys hs).1 hmem
    exact habs q hq
  have hperm : (((s.fill p key value).entries c.reserved).map Prod.fst).Perm
      (key :: (s.entries c.reserved).map Prod.fst) := by
    refine (List.perm_ext_iff_of_nodup (entries_enumerates hs').nodup
      (List.nodup_cons.2 ⟨hnew, (entries_enumerates hs).nodup⟩)).2 fun key' => ?_
    rw [List.mem_cons, mem_keys hs', mem_keys hs]
    constructor
    · rintro ⟨hl', q, hq⟩
      rw [Cells.key_fill] at hq
      split at hq
      · exact .inl hq.symm
      · exact .inr ⟨hl', q, hq⟩
    · rintro (rfl | ⟨hl', q, rfl⟩)
      · exact ⟨hl, p, by simp⟩
      · have hpq : p ≠ q := fun he => hold (he ▸ hl')
        exact ⟨hl', q, by simp [hpq]⟩
  simpa [Cells.size] using hperm.length_eq

end Config

/-- Others do not matter to a key that they leave alone. -/
theorem Company.Ground.contents {k v : Width} {c : Config k} {γ : Type} {C : Company c v γ}
    {T T' : Set (Place c.shape)} {l : Locks c.shape.count} {key : Word k} {r r' : γ}
    {s s' : Cells k v c.shape} (hG : C.Ground T l key) (hs : c.Calm T' l s)
    (ht : C.turn r s r' s') : c.contents s' key = c.contents s key :=
  Config.contents_deeds (C.deeds ht) hs.sound hG.live (by rw [hs.locks]; exact hG.kept)

end TwoChoice
