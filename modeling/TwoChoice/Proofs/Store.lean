import TwoChoice.Proofs.Company

/-!
# Stores in company

What a store does while others are at work on other keys. A key that is present keeps its slot
(`Kept`). A key that is absent gets a slot that is free at that instant (`Entered`), or both buckets
were found full, one after the other. Which slot it gets depends on the scans of the pass and on the
tags at that instant (`placeNew_claims`). A pass ends without an answer only if it missed every slot
that was free in its scans, so there are no more passes than changes by others
(`storePasses_ensures`).
-/

set_option autoImplicit false

namespace TwoChoice.Config

variable {k v : Width} {c : Config k} {γ : Type}

/-- The key has a slot, which gets the value if `replace`. -/
def Kept (key : Word k) (value : Word v) (replace : Bool) (s s' : Cells k v c.shape) : Prop :=
  ∃ p, s.key p = key ∧ s' = if replace then s.putSlot p ⟨key, value⟩ else s

/-- The key was absent and gets a free slot of a candidate bucket. -/
def Entered (key : Word k) (value : Word v) (s s' : Cells k v c.shape) : Prop :=
  ∃ p, s.Absent key ∧ s.Free p ∧ c.MayLie key p.bucket ∧ s' = s.fill p key value

/-- No slot of the bucket is free. -/
def Crowded (s : Cells k v c.shape) (b : Fin c.shape.count) : Prop := ∀ i, ¬ s.Free ⟨b, i⟩

instance (s : Cells k v c.shape) (b : Fin c.shape.count) : Decidable (Crowded s b) :=
  inferInstanceAs (Decidable (∀ _, _))

/-- The buckets of the key were seen to be crowded, one after the other. -/
def SeenFull (C : Company c v γ) (key : Word k) (r₀ : γ) (s₀ : Cells k v c.shape) (r : γ)
    (s : Cells k v c.shape) : Prop :=
  ∃ r₁ s₁ r₂ s₂, C.turn r₀ s₀ r₁ s₁ ∧ Crowded s₁ (c.candidates key).primary ∧
    C.turn r₁ s₁ r₂ s₂ ∧ Crowded s₂ (c.candidates key).secondary ∧ C.turn r₂ s₂ r s

/-- How a store ends that began in the first state. -/
def StoreEnds (C : Company c v γ) (key : Word k) (value : Word v) (replace : Bool) (r₀ : γ)
    (s₀ : Cells k v c.shape) : Stored → γ → Cells k v c.shape → Prop
  | .present, r, s => C.Around r₀ s₀ (Kept key value replace) r s
  | .inserted, r, s => C.Around r₀ s₀ (Entered key value) r s
  | .full, r, s => s₀.Absent key ∧ SeenFull C key r₀ s₀ r s

variable {C : Company c v γ} {T : Set (Place c.shape)} {l : Locks c.shape.count} {key : Word k}
variable {value : Word v} {replace : Bool} {r r' r₀ : γ} {s s' s₀ : Cells k v c.shape}

theorem Kept.calm (h : Kept key value replace s s') (hl : c.Live key) (hs : c.Calm T l s) :
    c.Calm T l s' := by
  obtain ⟨p, rfl, rfl⟩ := h
  cases replace with
  | false => exact hs
  | true => exact ⟨hs.sound.overwrite hl value, hs.locks⟩

theorem Entered.calm (h : Entered key value s s') (hl : c.Live key) (hs : c.Calm T l s) :
    c.Calm T l s' := by
  obtain ⟨p, habs, hf, hb, rfl⟩ := h
  have := hs.sound.fill value hl hb fun q _ => habs q
  rw [Set.sdiff_singleton_eq_self (hs.sound.not_mem_of_free hf)] at this
  exact ⟨this, hs.locks⟩

theorem SeenFull.after (h : SeenFull C key r₀ s₀ r s) (ht : C.turn r s r' s') :
    SeenFull C key r₀ s₀ r' s' := by
  obtain ⟨r₁, s₁, r₂, s₂, h1, hp, h2, hs, h3⟩ := h
  exact ⟨r₁, s₁, r₂, s₂, h1, hp, h2, hs, C.trans h3 ht⟩

theorem SeenFull.before (ht : C.turn r₀ s₀ r s) (h : SeenFull C key r s r' s') :
    SeenFull C key r₀ s₀ r' s' := by
  obtain ⟨r₁, s₁, r₂, s₂, h1, hp, h2, hs, h3⟩ := h
  exact ⟨r₁, s₁, r₂, s₂, C.trans ht h1, hp, h2, hs, h3⟩

theorem SeenFull.turn (h : SeenFull C key r₀ s₀ r s) : C.turn r₀ s₀ r s := by
  obtain ⟨r₁, s₁, r₂, s₂, h1, -, h2, -, h3⟩ := h
  exact C.trans h1 (C.trans h2 h3)

namespace StoreEnds

variable {stored : Stored}

theorem after (h : StoreEnds C key value replace r₀ s₀ stored r s) (ht : C.turn r s r' s') :
    StoreEnds C key value replace r₀ s₀ stored r' s' := by
  cases stored with
  | present => exact Company.Around.after h ht
  | inserted => exact Company.Around.after h ht
  | full => exact ⟨h.1, h.2.after ht⟩

theorem before (hG : C.Ground T l key) (hs : c.Calm T l s₀) (ht : C.turn r₀ s₀ r s)
    (h : StoreEnds C key value replace r s stored r' s') :
    StoreEnds C key value replace r₀ s₀ stored r' s' := by
  cases stored with
  | present => exact Company.Around.before ht h
  | inserted => exact Company.Around.before ht h
  | full => exact ⟨fun p hp => h.1 p ((hG.key_iff hs ht).2 hp), h.2.before ht⟩

theorem calm (h : StoreEnds C key value replace r₀ s₀ stored r s) (hl : c.Live key)
    (hs : c.Calm T l s₀) : c.Calm T l s := by
  cases stored with
  | present =>
    obtain ⟨r₁, s₁, s₂, h1, hstep, h2⟩ := h
    exact Company.turn_calm (hstep.calm hl (Company.turn_calm hs h1)) h2
  | inserted =>
    obtain ⟨r₁, s₁, s₂, h1, hstep, h2⟩ := h
    exact Company.turn_calm (hstep.calm hl (Company.turn_calm hs h1)) h2
  | full => exact Company.turn_calm hs h.2.turn

end StoreEnds

/-! ## A key that is there -/

section
variable (g : Group) {b : Fin c.shape.count} {census : Census}

theorem lookFor_missing (hG : C.Ground T l key) (hs : c.Calm T l s)
    (hno : ∀ i, s.key ⟨b, i⟩ ≠ key) {Q : Bool → γ → Cells k v c.shape → Prop}
    (hQ : ∀ r' s', C.turn r s r' s' → Q false r' s') :
    (c.lookFor g b key value census replace).Ensures C.toWorld Never r s Q := by
  have hr := hG.ready r s hs
  rw [lookFor]
  split
  · exact hQ r s (C.refl r s)
  · rw [Prog.ensures_bind]
    cases replace with
    | true => exact actOnKey_ensures_none g.toLanes (fun i _ => hno i) hr hQ
    | false =>
      have hnil : ((s.bucket b).slots.hits key census.matching).indices = [] := by
        rw [List.eq_nil_iff_forall_not_mem]
        intro n hn
        obtain ⟨i, -, -, hk⟩ := (Slots.mem_hits _ key _).1 hn
        exact hno i hk
      simp only [Bool.false_eq_true, if_false, atSlots, Slots.findIndex?, Prog.zoom_bind]
      rw [Prog.ensures_bind]
      refine pollKey_ensures g.toLanes key census.matching hr fun r' s' ht => ?_
      rw [hnil]
      exact hQ r' s' ht

theorem lookFor_found (hG : C.Ground T l key) (hs : c.Calm T l s) {i : Fin c.shape.len.slots}
    (hkey : s.key ⟨b, i⟩ = key) (hcand : census.matching.has i = true)
    {Q : Bool → γ → Cells k v c.shape → Prop}
    (hQ : ∀ r' s', C.Around r s (Kept key value replace) r' s' → Q true r' s') :
    (c.lookFor g b key value census replace).Ensures C.toWorld Never r s Q := by
  have hr := hG.ready r s hs
  have hkey' : ∀ r' s', C.turn r s r' s' → s'.key ⟨b, i⟩ = key := fun r' s' ht =>
    (hG.key_iff hs ht).2 hkey
  rw [lookFor, if_neg (matching_ne_zero hcand), Prog.ensures_bind]
  cases replace with
  | true =>
    have huniq : ∀ j, s.key ⟨b, j⟩ = key → j = i := fun j hj =>
      congrArg Place.index (hs.sound.unique ⟨b, j⟩ ⟨b, i⟩ (hj ▸ hG.live) (by rw [hj, hkey]))
    refine actOnKey_ensures_some g.toLanes hkey huniq hcand hr fun r' s' ht => .inl ?_
    have hk := hkey' r' s' ht
    have hstep : Kept key value true s' (s'.putSlot ⟨b, i⟩ ⟨key, value⟩) := ⟨⟨b, i⟩, hk, by simp⟩
    refine ⟨⟨key, value⟩, ?_, ?_, fun r'' s'' ht' => ?_⟩
    · refine Prog.yields_bind (Slots.exchangeKey_yields_true _ i key hk) ?_
      refine Prog.yields_bind (Slots.setValue_yields _ i value) ?_
      rw [Slots.put_put, Slots.get_put_self]
      exact Prog.yields_pure _ _
    · exact hG.ready _ _ (hstep.calm hG.live (Company.turn_calm hs ht))
    · exact hQ r'' s'' ⟨r', s', _, ht, hstep, ht'⟩
  | false =>
    simp only [Bool.false_eq_true, if_false, atSlots, Slots.findIndex?, Prog.zoom_bind]
    rw [Prog.ensures_bind]
    refine pollKey_ensures g.toLanes key census.matching hr fun r' s' ht => ?_
    have hmem : i.val ∈ ((s.bucket b).slots.hits key census.matching).indices :=
      (Slots.mem_hits _ key _).2 ⟨i, rfl, hcand, hkey⟩
    have hsome : ((s.bucket b).slots.hits key census.matching).indices.head?.isSome = true := by
      rw [List.isSome_head?]
      simpa using List.ne_nil_of_mem hmem
    rw [Prog.zoom_pure, Prog.ensures_pure, Prog.ensures_pure, hsome]
    exact hQ r' s' ⟨r', s', s', ht, ⟨⟨b, i⟩, hkey' r' s' ht, by simp⟩, C.refl r' s'⟩

/-! ## A key that is not there -/

/-- The census tells of the bucket as it was when others could still change the table `n` times. -/
def Stale (C : Company c v γ) (key : Word k) (n : Nat) (r : γ) (s : Cells k v c.shape)
    (b : Fin c.shape.count) (census : Census) : Prop :=
  census = {} ∨ ∃ r₀ s₀, C.left r₀ ≤ n ∧ C.turn r₀ s₀ r s ∧
    census = (s₀.bucket b).tags.census (Tag.ofKey key)

/-- The census tells of the bucket as it is, or the table was changed since. -/
def Snapshot (key : Word k) (s : Cells k v c.shape) (b : Fin c.shape.count) (changed : Prop)
    (census : Census) : Prop :=
  census = {} ∨ ∃ s₀ : Cells k v c.shape,
    census = (s₀.bucket b).tags.census (Tag.ofKey key) ∧ (s = s₀ ∨ changed)

theorem Stale.snapshot {n : Nat} (h : Stale C key n r s b census) :
    Snapshot key s b (C.left r < n) census := by
  rcases h with rfl | ⟨r₀, s₀, hn, ht, rfl⟩
  · exact .inl rfl
  · refine .inr ⟨s₀, rfl, ?_⟩
    rcases C.spent ht with ⟨hsame, -⟩ | hlt
    · exact .inl hsame
    · exact .inr (Nat.lt_of_lt_of_le hlt hn)

/-- The census tells of slots of the bucket only. -/
def Bounded (c : Config k) (census : Census) : Prop :=
  ∀ i < 64, census.free.has i = true → i < c.shape.len.slots

theorem bounded_empty : Bounded c {} := fun i hi h => by
  rw [show Census.free {} = 0 from rfl, Mask.has_zero hi] at h
  cases h

theorem bounded_census (t : Tags c.shape.len) (tag : Tag) : Bounded c (t.census tag) :=
  fun i hi h => by
    rw [Tags.has_free t tag hi, Bool.and_eq_true] at h
    exact of_decide_eq_true h.1

theorem Snapshot.bounded {changed : Prop} (h : Snapshot key s b changed census) :
    Bounded c census := by
  rcases h with rfl | ⟨s₀, rfl, -⟩
  · exact bounded_empty
  · exact bounded_census _ _

/-- The slot that a placement takes: the lowest one that was a tombstone in the census and still is
one, or else the lowest one that was empty in the census and still is. -/
inductive Claims (s : Cells k v c.shape) (b : Fin c.shape.count) (census : Census)
    (i : Fin c.shape.len.slots) : Prop
  | tombstone (seen : census.tombstone.has i = true) (tag : s.tag ⟨b, i⟩ = Tag.tombstone)
    (first : ∀ j < i, census.tombstone.has j = true → s.tag ⟨b, j⟩ ≠ Tag.tombstone)
  | empty (gone : ∀ j : Fin c.shape.len.slots, census.tombstone.has j = true →
      s.tag ⟨b, j⟩ ≠ Tag.tombstone)
    (seen : census.empty.has i = true) (tag : s.tag ⟨b, i⟩ = Tag.empty)
    (first : ∀ j < i, census.empty.has j = true → s.tag ⟨b, j⟩ ≠ Tag.empty)

/-- Every slot that was free in the census has another tag now. -/
structure Missed (s : Cells k v c.shape) (b : Fin c.shape.count) (census : Census) : Prop where
  tombstone : ∀ i : Fin c.shape.len.slots, census.tombstone.has i = true →
    s.tag ⟨b, i⟩ ≠ Tag.tombstone
  empty : ∀ i : Fin c.shape.len.slots, census.empty.has i = true → s.tag ⟨b, i⟩ ≠ Tag.empty

theorem Claims.free {i : Fin c.shape.len.slots} (h : Claims s b census i) : s.Free ⟨b, i⟩ := by
  cases h with
  | tombstone _ tag _ => exact .inr tag
  | empty _ _ tag _ => exact .inl tag

/-- Who sees the bucket as it is misses a slot only if there is none. -/
theorem Missed.free_eq_zero {tag : Tag} (h : Missed s b ((s.bucket b).tags.census tag)) :
    ((s.bucket b).tags.census tag).free = 0 := by
  refine (Tags.free_eq_zero _ _).2 fun i hi => ⟨fun he => ?_, fun ht => ?_⟩
  · exact h.empty ⟨i, hi⟩ (Mask.mem_indices.1 ((Tags.mem_empty _ _).2 ⟨hi, he⟩)).2 he
  · exact h.tombstone ⟨i, hi⟩ (Mask.mem_indices.1 ((Tags.mem_tombstone _ _).2 ⟨hi, ht⟩)).2 ht

theorem Missed.changed {changed : Prop} (h : Missed s b census)
    (hseen : Snapshot key s b changed census) (hz : census.free ≠ 0) : changed := by
  rcases hseen with rfl | ⟨s₀, rfl, hsame⟩
  · exact absurd rfl hz
  · refine hsame.resolve_left ?_
    rintro rfl
    exact hz h.free_eq_zero

/-- The claims of a placement get a slot, or they miss every slot that was free in the census. -/
theorem claims_yield (hin : Bounded c census) (s : Cells k v c.shape) (b : Fin c.shape.count)
    (tag : Tag) :
    let tombstone := c.atTags b (Tags.claimTombstone g.toLanes tag census.tombstone)
    let empty := c.atTags b (Tags.claimEmpty g.toLanes tag census.empty)
    (∃ i : Fin c.shape.len.slots, Claims s b census i ∧
      (tombstone.Yields s (some i.val) (s.putTag ⟨b, i⟩ tag) ∨
        tombstone.Yields s none s ∧ empty.Yields s (some i.val) (s.putTag ⟨b, i⟩ tag))) ∨
    (Missed s b census ∧ tombstone.Yields s none s ∧ empty.Yields s none s) := by
  intro tombstone empty
  have hfree : ∀ n < 64, census.empty.has n = true ∨ census.tombstone.has n = true →
      n < c.shape.len.slots := by
    intro n hn h
    refine hin n hn ?_
    rw [Census.free, Mask.has_or _ _ hn, Bool.or_eq_true]
    exact h
  have htomb : ∀ n ∈ census.tombstone.indices, n < c.shape.len.slots := fun n hn =>
    hfree n (Mask.mem_indices.1 hn).1 (.inr (Mask.mem_indices.1 hn).2)
  have hempty : ∀ n ∈ census.empty.indices, n < c.shape.len.slots := fun n hn =>
    hfree n (Mask.mem_indices.1 hn).1 (.inl (Mask.mem_indices.1 hn).2)
  have hmem : ∀ {m : Mask} (i : Fin c.shape.len.slots), m.has i = true → i.val ∈ m.indices :=
    fun i h => Mask.mem_indices.2 ⟨Nat.lt_of_lt_of_le i.isLt c.shape.len.slots_le, h⟩
  have hseen : ∀ {m : Mask} {before after : List Nat} {i : Nat},
      m.indices = before ++ i :: after → m.has i = true := by
    intro m before after i h
    exact (Mask.mem_indices.1 (h ▸ by simp)).2
  rcases claimFirst_yields (c := c) (s := s) (b := b) g.toLanes Tag.tombstone tag htomb
    with ⟨i, before, after, hxs, hfirst, hi, hy⟩ | ⟨hnt, hy⟩
  · exact .inl ⟨i, .tombstone (hseen hxs) hi fun j hlt hj =>
      hfirst j (Mask.mem_before hxs (hmem j hj) hlt), .inl hy⟩
  have hgone : ∀ j : Fin c.shape.len.slots, census.tombstone.has j = true →
      s.tag ⟨b, j⟩ ≠ Tag.tombstone := fun j hj => hnt j (hmem j hj)
  rcases claimFirst_yields (c := c) (s := s) (b := b) g.toLanes Tag.empty tag hempty
    with ⟨i, before, after, hxs, hfirst, hi, hy'⟩ | ⟨hne, hy'⟩
  · exact .inl ⟨i, .empty hgone (hseen hxs) hi fun j hlt hj =>
      hfirst j (Mask.mem_before hxs (hmem j hj) hlt), .inr ⟨hy, hy'⟩⟩
  · exact .inr ⟨⟨hgone, fun j hj => hne j (hmem j hj)⟩, hy, hy'⟩

section
variable {W : World γ (Cells k v c.shape)} {E : Halt → γ → Cells k v c.shape → Prop}

/-- A pair is placed in the slot that the placement claims, unless it misses every slot. -/
theorem place_ensures (hin : Bounded c census) {Q : Bool → γ → Cells k v c.shape → Prop}
    (htaken : ∀ i, Claims s b census i → W.ready r (s.fill ⟨b, i⟩ key value) ∧
      ∀ r' s', W.turn r (s.fill ⟨b, i⟩ key value) r' s' → Q true r' s')
    (hlost : Missed s b census → Q false r s) :
    (c.place g b key value census).Ensures W E r s Q := by
  rw [place]
  by_cases hz : census.free = 0
  · have hnone : ∀ i < 64, census.empty.has i = false ∧ census.tombstone.has i = false := by
      intro i hi
      have := Mask.eq_zero_iff.1 hz i hi
      rwa [Census.free, Mask.has_or _ _ hi, Bool.or_eq_false_iff] at this
    have hlt : ∀ i : Fin c.shape.len.slots, i.val < 64 := fun i =>
      Nat.lt_of_lt_of_le i.isLt c.shape.len.slots_le
    rw [if_pos (by rw [hz]; rfl)]
    refine hlost ⟨fun i hi => ?_, fun i hi => ?_⟩
    · rw [(hnone i (hlt i)).2] at hi
      cases hi
    · rw [(hnone i (hlt i)).1] at hi
      cases hi
  rw [if_neg (by simpa using hz), Prog.ensures_bind]
  rcases claims_yield g hin s b (Tag.ofKey key) with ⟨i, hclaim, hy⟩ | ⟨hmissed, hy, hy'⟩
  · obtain ⟨hr, hQ⟩ := htaken i hclaim
    have hpublish : (c.atSlots b (Slots.publish g.toLanes c.reserved i.val key value)).Ensures
        W E r (s.putTag ⟨b, i⟩ (Tag.ofKey key)) fun _ => Q true :=
      publish_ensures g.toLanes key value hr hQ
    rcases hy with hy | ⟨hy, hy'⟩
    · refine hy.ensures ?_
      rw [Prog.ensures_bind, Prog.ensures_pure, Prog.ensures_bind]
      exact hpublish
    · refine hy.ensures (hy'.ensures_bind ?_)
      rw [Prog.ensures_bind]
      exact hpublish
  · exact hy.ensures (hy'.ensures_bind (hlost hmissed))

theorem load_yields (h : Bounded c census) (t : Cells k v c.shape) :
    (census.load c.shape.len.slots).Yields t (census.occupancy c.shape.len.slots) t :=
  Prog.yields_bind (Prog.yields_require (Mask.count_le c.shape.len.slots_le h) _ _)
    (Prog.yields_pure _ _)

end

theorem mem_preference {cands : Candidates (Fin c.shape.count)} {primary secondary : Census}
    {m n : Nat} {x : Fin c.shape.count × Census}
    (h : x ∈ preference c cands primary secondary m n) :
    x = (cands.primary, primary) ∨ x = (cands.secondary, secondary) := by
  rw [preference] at h
  split at h
  · exact .inl (List.mem_singleton.1 h)
  · split at h <;> simp only [List.mem_cons, List.not_mem_nil, or_false] at h
    · exact h
    · exact h.symm

theorem mayLie_preference {key : Word k} {primary secondary : Census} {m n : Nat}
    {x : Fin c.shape.count × Census}
    (h : x ∈ preference c (c.candidates key) primary secondary m n) : c.MayLie key x.1 := by
  rcases mem_preference h with rfl | rfl
  · exact mayLie_iff.2 (.inl rfl)
  · exact mayLie_iff.2 (.inr rfl)

/-- A bucket with a free slot is among the preferred ones. -/
theorem exists_free_preference (cands : Candidates (Fin c.shape.count)) {primary secondary : Census}
    (h : ¬ (primary.free = 0 ∧ secondary.free = 0)) (m : Nat) :
    ∃ x ∈ preference c cands primary secondary (primary.occupancy c.shape.len.slots) m,
      x.2.free ≠ 0 := by
  rw [preference]
  split
  · rename_i hcut
    exact ⟨_, List.mem_singleton_self _, Census.free_ne_zero_of_occupancy_lt hcut⟩
  · by_cases hp : primary.free = 0
    · refine ⟨(cands.secondary, secondary), ?_, fun hs => h ⟨hp, hs⟩⟩
      split <;> simp
    · refine ⟨(cands.primary, primary), ?_, hp⟩
      split <;> simp

/-- The buckets that a pass considers by its two scans, in order. -/
def considered (c : Config k) (key : Word k) (primary secondary : Census) :
    List (Fin c.shape.count × Census) :=
  preference c (c.candidates key) primary secondary (primary.occupancy c.shape.len.slots)
    (secondary.occupancy c.shape.len.slots)

/-- A pair goes to the first bucket of those that the pass considers in which it gets a slot. There
is none if both scans found no free slot, or if the pass misses every slot. -/
theorem placeNew_claims {W : World γ (Cells k v c.shape)}
    {E : Halt → γ → Cells k v c.shape → Prop} {primary secondary : Census}
    (hp : Bounded c primary) (hsec : Bounded c secondary)
    {Q : Option Stored → γ → Cells k v c.shape → Prop}
    (hfull : primary.free = 0 → secondary.free = 0 → Q (some .full) r s)
    (htaken : ∀ before b census after i,
      considered c key primary secondary = before ++ (b, census) :: after →
      (∀ x ∈ before, Missed s x.1 x.2) → Claims s b census i →
      W.ready r (s.fill ⟨b, i⟩ key value) ∧
        ∀ r' s', W.turn r (s.fill ⟨b, i⟩ key value) r' s' → Q (some .inserted) r' s')
    (hlost : ¬ (primary.free = 0 ∧ secondary.free = 0) →
      (∀ x ∈ considered c key primary secondary, Missed s x.1 x.2) → Q none r s) :
    (c.placeNew g key value primary secondary).Ensures W E r s Q := by
  rw [placeNew]
  by_cases hz : primary.free = 0 ∧ secondary.free = 0
  · rw [if_pos (by rw [hz.1, hz.2]; rfl)]
    exact hfull hz.1 hz.2
  rw [if_neg (by simpa [-not_and] using hz)]
  refine (load_yields hp s).ensures_bind ((load_yields hsec s).ensures_bind ?_)
  rw [Prog.ensures_bind]
  refine Prog.ensures_anyM (Q := fun placed r' s' => Prog.Ensures W E _ r' s' Q)
    (fun rest r' s' => r' = r ∧ s' = s ∧ ∃ before,
      considered c key primary secondary = before ++ rest ∧ ∀ x ∈ before, Missed s x.1 x.2)
    ?_ ?_ _ ⟨rfl, rfl, [], rfl, fun x hx => absurd hx List.not_mem_nil⟩
  · intro x rest r' s' hinv
    obtain ⟨b, census⟩ := x
    obtain ⟨rfl, rfl, before, horder, hbefore⟩ := hinv
    have hin : Bounded c census := by
      have hx : (b, census) ∈ considered c key primary secondary := horder ▸ by simp
      rcases mem_preference hx with he | he <;> cases he
      · exact hp
      · exact hsec
    refine place_ensures g hin (fun i hi => htaken before b census rest i horder hbefore hi)
      fun hmissed => ⟨rfl, rfl, before ++ [(b, census)], by simp [horder], fun x hx => ?_⟩
    rcases List.mem_append.1 hx with hx | hx
    · exact hbefore x hx
    · obtain rfl := List.mem_singleton.1 hx
      exact hmissed
  · intro r' s' hinv
    obtain ⟨rfl, rfl, before, horder, hbefore⟩ := hinv
    rw [List.append_nil] at horder
    exact hlost hz (horder ▸ hbefore)

/-- A pair gets a slot that is free, or both buckets were full, or the table was changed since. -/
theorem placeNew_ensures {W : World γ (Cells k v c.shape)}
    {E : Halt → γ → Cells k v c.shape → Prop} {changed : Prop} {primary secondary : Census}
    (hp : Snapshot key s (c.candidates key).primary changed primary)
    (hsec : Snapshot key s (c.candidates key).secondary changed secondary)
    {Q : Option Stored → γ → Cells k v c.shape → Prop}
    (hfull : primary.free = 0 → secondary.free = 0 → Q (some .full) r s)
    (htaken : ∀ p, c.MayLie key p.bucket → s.Free p → W.ready r (s.fill p key value) ∧
      ∀ r' s', W.turn r (s.fill p key value) r' s' → Q (some .inserted) r' s')
    (hlost : changed → Q none r s) :
    (c.placeNew g key value primary secondary).Ensures W E r s Q := by
  refine placeNew_claims g hp.bounded hsec.bounded hfull (fun before b census after i horder _ hi => ?_)
    fun hz hmissed => ?_
  · have hmem : (b, census) ∈ considered c key primary secondary := horder ▸ by simp
    exact htaken ⟨b, i⟩ (mayLie_preference hmem) hi.free
  · obtain ⟨x, hx, hne⟩ := exists_free_preference (c.candidates key) hz
      (secondary.occupancy c.shape.len.slots)
    have hseen : Snapshot key s x.1 changed x.2 := by
      rcases mem_preference hx with rfl | rfl
      · exact hp
      · exact hsec
    exact hlost ((hmissed x hx).changed hseen hne)

/-- An absent key gets a slot that is free at that instant. -/
theorem entered_of_taken (r : γ) (value : Word v) (hG : C.Ground T l key) (hs : c.Calm T l s)
    (habs : s.Absent key) {p : Place c.shape} (hb : c.MayLie key p.bucket) (hf : s.Free p) :
    C.ready r (s.fill p key value) ∧ ∀ r' s', C.turn r (s.fill p key value) r' s' →
      C.Around r s (Entered key value) r' s' := by
  have hstep : Entered key value s (s.fill p key value) := ⟨p, habs, hf, hb, rfl⟩
  exact ⟨hG.ready r _ (hstep.calm hG.live hs), fun r' s' ht =>
    ⟨r, s, _, C.refl r s, hstep, ht⟩⟩

/-! ## Passes -/

/-- How a pass ends that began in the first state. -/
def PassEnds (C : Company c v γ) (key : Word k) (value : Word v) (replace : Bool) (r₀ : γ)
    (s₀ : Cells k v c.shape) : Option Stored → γ → Cells k v c.shape → Prop
  | some stored, r, s => StoreEnds C key value replace r₀ s₀ stored r s
  | none, r, s => C.turn r₀ s₀ r s ∧ C.left r < C.left r₀

theorem crowded_of_free_eq_zero {tag : Tag} (h : ((s.bucket b).tags.census tag).free = 0) :
    Crowded s b := fun i hf => by
  obtain ⟨he, ht⟩ := (Tags.free_eq_zero _ _).1 h i i.isLt
  exact hf.elim he ht

theorem free_eq_zero_of_crowded {tag : Tag} (h : Crowded s b) :
    ((s.bucket b).tags.census tag).free = 0 :=
  (Tags.free_eq_zero _ _).2 fun i hi => ⟨fun he => h ⟨i, hi⟩ (.inl he), fun ht => h ⟨i, hi⟩ (.inr ht)⟩

/-- A pass over a key that is present finds it. -/
theorem storePass_present (hG : C.Ground T l key) (hs : c.Calm T l s) {p : Place c.shape}
    (hkey : s.key p = key) :
    (c.storePass g key value replace).Ensures C.toWorld Never r s fun stored r' s' =>
      stored = some .present ∧ C.Around r s (Kept key value replace) r' s' := by
  have hlive : c.Live (s.key p) := hkey ▸ hG.live
  rw [storePass, Prog.ensures_bind]
  refine scan_ensures g.toLanes _ (hG.ready _ _ hs) fun r₁ s₁ h₁ => ?_
  have hs₁ := Company.turn_calm hs h₁
  have hkey₁ : s₁.key p = key := (hG.key_iff hs h₁).2 hkey
  rw [Prog.ensures_bind]
  by_cases hp : p.bucket = (c.candidates key).primary
  · refine lookFor_found g hG hs₁ (i := p.index) (hp ▸ hkey₁) ?_ fun r' s' h =>
      ⟨rfl, h.before h₁⟩
    rw [← hp]
    exact matching_has hs.sound hG.live hkey
  have hsec : p.bucket = (c.candidates key).secondary :=
    (mayLie_iff.1 (hkey ▸ hs.sound.mayLie hlive)).resolve_left hp
  refine lookFor_missing g hG hs₁ (fun i hi => hp ?_) fun r₂ s₂ h₂ => ?_
  · exact congrArg Place.bucket (hs₁.sound.unique p ⟨_, i⟩ (hkey₁ ▸ hG.live) (by rw [hi, hkey₁]))
  have hs₂ := Company.turn_calm hs₁ h₂
  have hkey₂ : s₂.key p = key := (hG.key_iff hs₁ h₂).2 hkey₁
  rw [if_neg (by simp), if_neg (by rw [← hsec]; exact hp), Prog.ensures_bind]
  refine scan_ensures g.toLanes _ (hG.ready _ _ hs₂) fun r₃ s₃ h₃ => ?_
  have hs₃ := Company.turn_calm hs₂ h₃
  rw [Prog.ensures_bind]
  refine lookFor_found g hG hs₃ (i := p.index) (hsec ▸ (hG.key_iff hs₂ h₃).2 hkey₂) ?_
    fun r' s' h => ⟨rfl, h.before (C.trans h₁ (C.trans h₂ h₃))⟩
  rw [← hsec]
  exact matching_has hs₂.sound hG.live hkey₂

/-- What a pass that began in the first state has read when it is about to place the key: the
primary bucket as it was at the start, and the secondary one, if that is another, as it was at some
instant since. -/
inductive Scanned (C : Company c v γ) (key : Word k) (r₀ : γ) (s₀ : Cells k v c.shape) :
    Census → Census → γ → Cells k v c.shape → Prop
  | one {r : γ} {s : Cells k v c.shape}
    (same : (c.candidates key).secondary = (c.candidates key).primary) (turn : C.turn r₀ s₀ r s) :
    Scanned C key r₀ s₀ ((s₀.bucket (c.candidates key).primary).tags.census (Tag.ofKey key)) {} r s
  | two {r₁ r : γ} {s₁ s : Cells k v c.shape}
    (other : (c.candidates key).secondary ≠ (c.candidates key).primary)
    (first : C.turn r₀ s₀ r₁ s₁) (second : C.turn r₁ s₁ r s) :
    Scanned C key r₀ s₀ ((s₀.bucket (c.candidates key).primary).tags.census (Tag.ofKey key))
      ((s₁.bucket (c.candidates key).secondary).tags.census (Tag.ofKey key)) r s

theorem Scanned.turn {primary secondary : Census}
    (h : Scanned C key r₀ s₀ primary secondary r s) : C.turn r₀ s₀ r s := by
  cases h with
  | one _ h => exact h
  | two _ h h' => exact C.trans h h'

theorem Scanned.bounded {primary secondary : Census}
    (h : Scanned C key r₀ s₀ primary secondary r s) : Bounded c primary ∧ Bounded c secondary := by
  cases h with
  | one => exact ⟨bounded_census _ _, bounded_empty⟩
  | two => exact ⟨bounded_census _ _, bounded_census _ _⟩

/-- A pass over a key that is absent scans its buckets and comes to place it. -/
theorem storePass_scans (hG : C.Ground T l key) (hs : c.Calm T l s) (habs : s.Absent key)
    {Q : Option Stored → γ → Cells k v c.shape → Prop}
    (hplace : ∀ primary secondary r' s', Scanned C key r s primary secondary r' s' →
      (c.placeNew g key value primary secondary).Ensures C.toWorld Never r' s' Q) :
    (c.storePass g key value replace).Ensures C.toWorld Never r s Q := by
  rw [storePass, Prog.ensures_bind]
  refine scan_ensures g.toLanes _ (hG.ready _ _ hs) fun r₁ s₁ h₁ => ?_
  have hs₁ := Company.turn_calm hs h₁
  have habs₁ := hG.absent hs h₁ habs
  rw [Prog.ensures_bind]
  refine lookFor_missing g hG hs₁ (fun i => habs₁ _) fun r₂ s₂ h₂ => ?_
  have h₁₂ := C.trans h₁ h₂
  have hs₂ := Company.turn_calm hs₁ h₂
  have habs₂ := hG.absent hs₁ h₂ habs₁
  rw [if_neg (by simp)]
  by_cases heq : (c.candidates key).secondary = (c.candidates key).primary
  · rw [if_pos heq]
    exact hplace _ _ _ _ (.one heq h₁₂)
  rw [if_neg heq, Prog.ensures_bind]
  refine scan_ensures g.toLanes _ (hG.ready _ _ hs₂) fun r₃ s₃ h₃ => ?_
  have hs₃ := Company.turn_calm hs₂ h₃
  have habs₃ := hG.absent hs₂ h₃ habs₂
  rw [Prog.ensures_bind]
  refine lookFor_missing g hG hs₃ (fun i => habs₃ _) fun r₄ s₄ h₄ => ?_
  rw [if_neg (by simp)]
  exact hplace _ _ _ _ (.two heq h₁₂ (C.trans h₃ h₄))

/-- A pass over a key that is absent gives it a slot, or finds both buckets full, or others changed
the table. -/
theorem storePass_absent (hG : C.Ground T l key) (hs : c.Calm T l s) (habs : s.Absent key) :
    (c.storePass g key value replace).Ensures C.toWorld Never r s
      (PassEnds C key value replace r s) := by
  refine storePass_scans g hG hs habs fun primary secondary r' s' hscan => ?_
  have hturn := hscan.turn
  have hp : Snapshot key s' (c.candidates key).primary (C.left r' < C.left r) primary := by
    cases hscan <;> exact Stale.snapshot (.inr ⟨r, s, Nat.le_refl _, hturn, rfl⟩)
  have hsec : Snapshot key s' (c.candidates key).secondary (C.left r' < C.left r) secondary := by
    cases hscan with
    | one => exact .inl rfl
    | two _ h h' => exact Stale.snapshot (.inr ⟨_, _, Company.left_le h, h', rfl⟩)
  refine placeNew_ensures g hp hsec (fun hz hz' => ⟨habs, ?_⟩) (fun p hb hf => ?_)
    fun hlt => ⟨hturn, hlt⟩
  · cases hscan with
    | one heq h =>
      have hc := crowded_of_free_eq_zero hz
      exact ⟨r, s, r, s, C.refl _ _, hc, C.refl _ _, heq ▸ hc, h⟩
    | two _ h h' =>
      exact ⟨r, s, _, _, C.refl _ _, crowded_of_free_eq_zero hz, h, crowded_of_free_eq_zero hz', h'⟩
  · have hentered := entered_of_taken r' value hG (Company.turn_calm hs hturn)
      (hG.absent hs hturn habs) hb hf
    exact ⟨hentered.1, fun r'' s'' ht => (hentered.2 r'' s'' ht).before hturn⟩

/-- **A store ends** after one pass more than the others change the table. -/
theorem storePasses_ensures (hG : C.Ground T l key) :
    ∀ (n : Nat) {r : γ} {s : Cells k v c.shape}, c.Calm T l s → C.left r < n →
      (c.storePasses g key value replace n).Ensures C.toWorld Never r s
        (StoreEnds C key value replace r s)
  | 0, _, _, _, h => absurd h (Nat.not_lt_zero _)
  | n + 1, r, s, hs, h => by
    have hpass : (c.storePass g key value replace).Ensures C.toWorld Never r s
        (PassEnds C key value replace r s) := by
      by_cases hp : ∃ p, s.key p = key
      · obtain ⟨p, hp⟩ := hp
        refine (storePass_present g hG hs hp).mono fun stored r' s' h => ?_
        obtain ⟨rfl, hkept⟩ := h
        exact hkept
      · exact storePass_absent g hG hs fun p he => hp ⟨p, he⟩
    rw [storePasses, Prog.ensures_bind]
    refine hpass.mono fun stored r' s' hend => ?_
    cases stored with
    | some stored => exact hend
    | none =>
      have hlt : C.left r' < n := Nat.lt_of_lt_of_le hend.2 (Nat.le_of_lt_succ h)
      exact (storePasses_ensures hG n (Company.turn_calm hs hend.1) hlt).mono
        fun stored r'' s'' hend' => hend'.before hG hs hend.1

end

/-! ## The operations -/

section
variable {E : Halt → γ → Cells k v c.shape → Prop} (g : Group) {locked : Bool}

theorem store_ensures (hG : C.Ground T (c.hold key locked s.locks) key) (hs : c.Sound T s)
    (hfree : locked = true → s.locks.isLocked (c.candidates key).primary = false)
    (hpasses : C.left r < g.passes) {Q : Stored → γ → Cells k v c.shape → Prop}
    (hQ : ∀ stored r' s', StoreEnds C key value replace r
      (s.setLocks (c.hold key locked s.locks)) stored r' s' → Q stored r' (s'.setLocks s.locks)) :
    (c.store g key value replace locked).Ensures C.toWorld E r s Q := by
  rw [store]
  refine (Prog.yields_require (c := c.reserved.isReserved key = false) hG.live _ s).ensures_bind ?_
  have hs' : c.Calm T (c.hold key locked s.locks) (s.setLocks (c.hold key locked s.locks)) :=
    ⟨hs.setLocks _, rfl⟩
  refine guarded_ensures g.toLanes hG.ready hs hfree fun r₁ s₁ h₁ => ?_
  have hlt := Nat.lt_of_le_of_lt (Company.left_le h₁) hpasses
  refine (storePasses_ensures g hG _ (Company.turn_calm hs' h₁) hlt).mono fun stored r₂ s₂ h₂ => ?_
  have hend := h₂.before hG hs' h₁
  exact ⟨hend.calm hG.live hs', fun r₃ s₃ h₃ => hQ stored r₃ s₃ (hend.after h₃)⟩

end

end TwoChoice.Config
