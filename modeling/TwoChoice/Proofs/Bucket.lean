import TwoChoice.Table.Store
import TwoChoice.Proofs.Sound

/-!
# Programs on one bucket

What the programs on the tags and the slots of a bucket do to the whole table. A scan and a poll
answer what was true when they started and end with a pause (`scan_ensures`, `pollKey_ensures`).
Claims, writes and validated reads happen at one instant (`claimFirst_yields`, `publish_ensures`,
`find_ensures`).
-/

set_option autoImplicit false

namespace TwoChoice

/-! ## Slots -/

namespace Slots

variable {k v : Width} {L : BucketLen} (t : Slots k v L) (i : Fin L.slots)

/-- The slot at an index holds the key. -/
def holds (key : Word k) (index : Nat) : Bool := t.toVector[index]?.any fun x => x.key == key

/-- The value at an index if the slot there holds the key. -/
def valueIf (key : Word k) (index : Nat) : Option (Word v) :=
  t.toVector[index]?.bind fun x => if x.key = key then some x.value else none

theorem holds_eq (key : Word k) : t.holds key i = ((t.get i).key == key) := by
  simp [holds, get]

theorem valueIf_eq (key : Word k) :
    t.valueIf key i = if (t.get i).key = key then some (t.get i).value else none := by
  show _ = if t.toVector[i].key = key then some t.toVector[i].value else none
  simp [valueIf]

theorem get_put_self (x : Slot k v) : (t.put i x).get i = x := by
  rw [get_put, if_pos rfl]

theorem put_put (x y : Slot k v) : (t.put i x).put i y = t.put i y := by
  simp [put]

theorem slotAt_yields : (slotAt i.val).Yields t (t.get i) t := by
  show Prog.Yields (if h : i.val < L.slots then _ else _) t _ t
  rw [dif_pos i.isLt]
  exact ⟨rfl, rfl⟩

theorem keyAt_yields : (keyAt i.val).Yields t (t.get i).key t :=
  Prog.yields_bind (slotAt_yields t i) (Prog.yields_pure _ t)

theorem valueAt_yields : (valueAt i.val).Yields t (t.get i).value t :=
  Prog.yields_bind (slotAt_yields t i) (Prog.yields_pure _ t)

theorem update_yields (f : Slot k v → Slot k v) :
    (update i.val f).Yields t () (t.put i (f (t.get i))) := by
  refine Prog.yields_bind (Prog.yields_require i.isLt _ t) ?_
  have h := Prog.yields_modify (fun s : Slots k v L =>
    if h : i.val < L.slots then ⟨s.toVector.set i.val (f s.toVector[i.val])⟩ else s) t
  rwa [dif_pos i.isLt] at h

theorem setKey_yields (key : Word k) :
    (setKey i.val key).Yields t () (t.put i ⟨key, (t.get i).value⟩) :=
  update_yields t i _

theorem setValue_yields (value : Word v) :
    (setValue i.val value).Yields t () (t.put i ⟨(t.get i).key, value⟩) :=
  update_yields t i _

theorem exchangeKey_yields_true {current : Word k} (new : Word k)
    (h : (t.get i).key = current) :
    (exchangeKey i.val current new).Yields t true (t.put i ⟨new, (t.get i).value⟩) := by
  refine Prog.yields_bind (keyAt_yields t i) ?_
  rw [Word.compareExchange, if_pos h]
  exact Prog.yields_bind (setKey_yields t i new) (Prog.yields_pure _ _)

theorem valueOf_yields (key : Word k) : (valueOf i.val key).Yields t (t.valueIf key i) t := by
  rw [valueIf_eq]
  refine Prog.yields_bind (keyAt_yields t i) ?_
  by_cases h : (t.get i).key = key
  · rw [if_pos h, if_neg (by simpa using h)]
    refine Prog.yields_bind (valueAt_yields t i) (Prog.yields_bind (keyAt_yields t i) ?_)
    rw [if_pos (by simpa using h)]
    exact Prog.yields_pure _ t
  · rw [if_neg h, if_pos (by simpa using h)]
    exact Prog.yields_pure _ t

/-- The slots with the key in them, among the candidates. -/
def hits (key : Word k) (candidates : Mask) : Mask :=
  .collect L.slots fun i => candidates.has i && t.holds key i

theorem mem_hits (key : Word k) (candidates : Mask) {n : Nat} :
    n ∈ (t.hits key candidates).indices ↔
      ∃ i : Fin L.slots, n = i ∧ candidates.has i = true ∧ (t.get i).key = key := by
  rw [hits, Mask.mem_indices_collect L.slots_le]
  constructor
  · intro hvote
    obtain ⟨hn, h⟩ := hvote
    refine ⟨⟨n, hn⟩, rfl, ?_⟩
    have he := holds_eq t ⟨n, hn⟩ key
    simp only at he
    rw [he, Bool.and_eq_true, beq_iff_eq] at h
    exact h
  · rintro ⟨i, rfl, hc, hk⟩
    refine ⟨i.isLt, ?_⟩
    rw [holds_eq, hc, hk]
    simp

theorem yields_vote (key : Word k) (candidates : Mask) :
    (if candidates.has i then do return (← keyAt i.val) == key else return false :
      Prog (Slots k v L) Bool).Yields t (candidates.has i && t.holds key i) t := by
  cases hc : candidates.has i with
  | false => exact Prog.yields_pure _ t
  | true =>
    rw [Bool.true_and, holds_eq]
    exact Prog.yields_bind (keyAt_yields t i) (Prog.yields_pure _ t)

/-- The pair at an index, if there is one. -/
def pairAt (r : ReservedKeys k) (index : Nat) : Option (Word k × Word v) :=
  t.toVector[index]?.bind fun x => if r.isReserved x.key then none else some (x.key, x.value)

theorem pairAt_eq (r : ReservedKeys k) : t.pairAt r i =
    if r.isReserved (t.get i).key then none else some ((t.get i).key, (t.get i).value) := by
  rw [pairAt, Vector.getElem?_eq_getElem i.isLt]
  rfl

/-- The slots with a pair in them. -/
def liveMask (r : ReservedKeys k) : Mask := .collect L.slots fun i => (t.pairAt r i).isSome

theorem lt_of_mem_liveMask {r : ReservedKeys k} {n : Nat} (h : n ∈ (t.liveMask r).indices) :
    n < L.slots :=
  ((Mask.mem_indices_collect L.slots_le _).1 h).1

theorem readPair_yields (g : Lanes) (r : ReservedKeys k) :
    (readPair g r i.val).Yields t (t.pairAt r i) t := by
  refine g.yields_elect (g.owner_lt _) (Prog.yields_bind (keyAt_yields t i) ?_)
  rw [pairAt_eq]
  split
  · exact Prog.yields_pure _ t
  · have hvalue := valueOf_yields t i (t.get i).key
    rw [valueIf_eq, if_pos rfl] at hvalue
    exact Prog.yields_bind hvalue (Prog.yields_pure _ t)

end Slots

/-! ## Tables -/

namespace Config

variable {k v : Width} {c : Config k} {γ α : Type} {W : World γ (Cells k v c.shape)}
variable {E : Halt → γ → Cells k v c.shape → Prop} (g : Lanes)
variable {r : γ} {s s' : Cells k v c.shape} {b : Fin c.shape.count}

theorem atSlots_same {p : Prog (Slots k v c.shape.len) α} {a : α}
    (h : p.Yields (s.bucket b).slots a (s.bucket b).slots) : (c.atSlots b p).Yields s a s :=
  Prog.Yields.zoom_same (l := Cells.slotsLens b) h

theorem atTags_set {p : Prog (Tags c.shape.len) α} {a : α} {i : Fin c.shape.len.slots} {t : Tag}
    (h : p.Yields (s.bucket b).tags a ((s.bucket b).tags.set i t)) :
    (c.atTags b p).Yields s a (s.putTag ⟨b, i⟩ t) :=
  Prog.Yields.zoom (l := Cells.tagsLens b) h

theorem atSlots_put {p : Prog (Slots k v c.shape.len) α} {a : α} {i : Fin c.shape.len.slots}
    {x : Slot k v} (h : p.Yields (s.bucket b).slots a ((s.bucket b).slots.put i x)) :
    (c.atSlots b p).Yields s a (s.putSlot ⟨b, i⟩ x) :=
  Prog.Yields.zoom (l := Cells.slotsLens b) h

/-! ### Tags -/

/-- A scan answers the census of the bucket and pauses. -/
theorem scan_ensures (tag : Tag) {Q : Census → γ → Cells k v c.shape → Prop} (hr : W.ready r s)
    (hQ : ∀ r' s', W.turn r s r' s' → Q ((s.bucket b).tags.census tag) r' s') :
    (c.atTags b (Tags.scan g tag)).Ensures W E r s Q := by
  simp only [atTags, Tags.scan, Prog.zoom_bind]
  have hpoll : ∀ f : Nat → Bool, (Prog.zoom (Cells.tagsLens b)
      (g.poll c.shape.len.slots fun i => pure (f i))).Yields s (.collect c.shape.len.slots f) s :=
    fun f => (g.yields_poll c.shape.len.slots_le fun i _ => Prog.yields_pure _ _).zoom_same
  refine (Prog.Yields.zoom_same (Prog.yields_gets id _)).ensures_bind ?_
  refine (Prog.Yields.zoom_same (Prog.yields_announce _ _)).ensures_bind ?_
  refine (hpoll _).ensures_bind ((hpoll _).ensures_bind ((hpoll _).ensures_bind ?_))
  rw [Prog.zoom_pause, Prog.ensures_bind, Prog.ensures_pause]
  exact ⟨hr, hQ⟩

/-- A scan for the tag of a key matches the slot that holds the key. -/
theorem matching_has {T : Set (Place c.shape)} {key : Word k} {p : Place c.shape} (hs : c.Sound T s)
    (hl : c.Live key) (hkey : s.key p = key) :
    ((s.bucket p.bucket).tags.census (Tag.ofKey key)).matching.has p.index = true := by
  rw [Tags.has_matching _ _ p.index.isLt, beq_iff_eq, ← hkey]
  exact hs.tag_eq (hkey ▸ hl)

theorem matching_ne_zero {census : Census} {i : Fin c.shape.len.slots}
    (h : census.matching.has i = true) : ¬ (census.matching == 0) = true := by
  rw [beq_iff_eq]
  intro h0
  rw [h0, Mask.has_zero (Nat.lt_of_lt_of_le i.isLt c.shape.len.slots_le)] at h
  cases h

/-- A claim takes the first candidate whose tag is as expected, or finds that there is none. -/
theorem claimFirst_yields (expected tag : Tag) {xs : List Nat}
    (hxs : ∀ n ∈ xs, n < c.shape.len.slots) :
    (∃ (i : Fin c.shape.len.slots) (before after : List Nat), xs = before ++ i.val :: after ∧
      (∀ j : Fin c.shape.len.slots, j.val ∈ before → s.tag ⟨b, j⟩ ≠ expected) ∧
      s.tag ⟨b, i⟩ = expected ∧
      (c.atTags b (Tags.claimFirst g expected tag xs)).Yields s (some i.val)
        (s.putTag ⟨b, i⟩ tag)) ∨
    ((∀ i : Fin c.shape.len.slots, i.val ∈ xs → s.tag ⟨b, i⟩ ≠ expected) ∧
      (c.atTags b (Tags.claimFirst g expected tag xs)).Yields s none s) := by
  induction xs with
  | nil => exact .inr ⟨fun i hi => absurd hi List.not_mem_nil, Prog.yields_pure _ s⟩
  | cons n xs ih =>
    have hn : n < c.shape.len.slots := hxs n (by simp)
    have hget : (s.bucket b).tags.get n = s.tag ⟨b, ⟨n, hn⟩⟩ := rfl
    have hcas := (s.bucket b).tags.compareExchange_yields n expected tag
    by_cases h : s.tag ⟨b, ⟨n, hn⟩⟩ = expected
    · refine .inl ⟨⟨n, hn⟩, [], xs, rfl, fun j hj => absurd hj List.not_mem_nil, h,
        atTags_set (i := ⟨n, hn⟩) ?_⟩
      rw [hget, if_pos h, decide_eq_true h] at hcas
      refine Prog.yields_bind (Prog.yields_require hn _ _) (Prog.yields_bind
        (Prog.yields_announce _ _) (Prog.yields_bind (g.yields_elect (g.owner_lt n) hcas) ?_))
      exact Prog.yields_pure _ _
    · have hskip : ∀ {a : Option Nat} {s'' : Cells k v c.shape},
          (c.atTags b (Tags.claimFirst g expected tag xs)).Yields s a s'' →
          (c.atTags b (Tags.claimFirst g expected tag (n :: xs))).Yields s a s'' := by
        intro a s'' hrest
        rw [hget, if_neg h, decide_eq_false h] at hcas
        simp only [atTags, Tags.claimFirst, Prog.zoom_bind]
        refine Prog.yields_bind (Prog.Yields.zoom_same (Prog.yields_require hn _ _)) ?_
        refine Prog.yields_bind (Prog.Yields.zoom_same (Prog.yields_announce _ _)) ?_
        exact Prog.yields_bind (Prog.Yields.zoom_same (g.yields_elect (g.owner_lt n) hcas)) hrest
      have hhead : ∀ j : Fin c.shape.len.slots, j.val = n → s.tag ⟨b, j⟩ ≠ expected := by
        rintro j rfl
        exact h
      rcases ih fun m hm => hxs m (by simp [hm]) with ⟨i, before, after, hxs', hb, ht, hy⟩ | ⟨hno, hy⟩
      · refine .inl ⟨i, n :: before, after, by rw [hxs', List.cons_append], fun j hj => ?_, ht,
          hskip hy⟩
        exact (List.mem_cons.1 hj).elim (hhead j) (hb j)
      · refine .inr ⟨fun i hi => ?_, hskip hy⟩
        exact (List.mem_cons.1 hi).elim (hhead i) (hno i)

/-- The owner of a slot gives it another tag and pauses. -/
theorem retag_ensures {i : Fin c.shape.len.slots} (tag : Tag)
    {Q : Unit → γ → Cells k v c.shape → Prop} (hr : W.ready r (s.putTag ⟨b, i⟩ tag))
    (hQ : ∀ r' s', W.turn r (s.putTag ⟨b, i⟩ tag) r' s' → Q () r' s') :
    (c.atTags b (Tags.retag g i.val tag)).Ensures W E r s Q := by
  simp only [atTags, Tags.retag, Prog.zoom_bind]
  have hset : (g.elect (g.owner i.val) fun _ => do
      Prog.require (i.val < c.shape.len.slots) (.noSuchSlot i.val)
      Prog.modify (·.set i.val tag)).Yields (s.bucket b).tags ()
        ((s.bucket b).tags.set i.val tag) :=
    g.yields_elect (g.owner_lt _) (Prog.yields_bind (Prog.yields_require i.isLt _ _)
      (Prog.yields_modify (fun t : Tags c.shape.len => t.set i.val tag) _))
  refine (atTags_set hset).ensures_bind ?_
  rw [Prog.zoom_pause, Prog.ensures_pause]
  exact ⟨hr, hQ⟩

/-! ### Slots -/

/-- A poll for a key answers the candidates that hold it and pauses. -/
theorem pollKey_ensures (key : Word k) (candidates : Mask) {Q : Mask → γ → Cells k v c.shape → Prop}
    (hr : W.ready r s)
    (hQ : ∀ r' s', W.turn r s r' s' → Q ((s.bucket b).slots.hits key candidates) r' s') :
    (c.atSlots b (Slots.pollKey g key candidates)).Ensures W E r s Q := by
  simp only [atSlots, Slots.pollKey, Prog.zoom_bind]
  refine (Prog.Yields.zoom_same (Prog.yields_announce _ _)).ensures_bind ?_
  refine Prog.Yields.ensures_bind (Prog.Yields.zoom_same
    (a := (s.bucket b).slots.hits key candidates)
    (g.yields_poll c.shape.len.slots_le fun i hi => ?_)) ?_
  · exact Slots.yields_vote (s.bucket b).slots ⟨i, hi⟩ key candidates
  · rw [Prog.zoom_pause, Prog.ensures_bind, Prog.ensures_pause]
    exact ⟨hr, hQ⟩

/-- A vote on the slots with a pair answers them and pauses. -/
theorem pollLive_ensures {Q : Mask → γ → Cells k v c.shape → Prop} (hr : W.ready r s)
    (hQ : ∀ r' s', W.turn r s r' s' → Q ((s.bucket b).slots.liveMask c.reserved) r' s') :
    (c.atSlots b (Slots.pollLive (v := v) g c.reserved)).Ensures W E r s Q := by
  simp only [atSlots, Slots.pollLive, Prog.zoom_bind]
  refine (Prog.Yields.zoom_same (Prog.yields_announce _ _)).ensures_bind ?_
  refine Prog.Yields.ensures_bind (Prog.Yields.zoom_same
    (a := (s.bucket b).slots.liveMask c.reserved)
    (g.yields_poll c.shape.len.slots_le fun i hi => ?_)) ?_
  · have hpair : ((s.bucket b).slots.pairAt c.reserved i).isSome =
        !c.reserved.isReserved ((s.bucket b).slots.get ⟨i, hi⟩).key := by
      have he := Slots.pairAt_eq (s.bucket b).slots ⟨i, hi⟩ c.reserved
      simp only at he
      rw [he]
      cases c.reserved.isReserved ((s.bucket b).slots.get ⟨i, hi⟩).key <;> rfl
    rw [hpair]
    exact Prog.yields_bind (Slots.keyAt_yields _ ⟨i, hi⟩) (Prog.yields_pure _ _)
  · rw [Prog.zoom_pause, Prog.ensures_bind, Prog.ensures_pause]
    exact ⟨hr, hQ⟩

/-- A pair is read at one instant. -/
theorem readPair_yields {n : Nat} (hn : n < c.shape.len.slots) :
    (c.atSlots b (Slots.readPair g c.reserved n)).Yields s
      ((s.bucket b).slots.pairAt c.reserved n) s :=
  atSlots_same (Slots.readPair_yields (s.bucket b).slots ⟨n, hn⟩ g c.reserved)

/-- Nobody acts on a key that no candidate holds. -/
theorem actOnKey_ensures_none {key : Word k} {candidates : Mask}
    {act : Nat → Prog (Slots k v c.shape.len) Bool} {Q : Option Nat → γ → Cells k v c.shape → Prop}
    (hno : ∀ i : Fin c.shape.len.slots, candidates.has i = true → s.key ⟨b, i⟩ ≠ key)
    (hr : W.ready r s)
    (hQ : ∀ r' s', W.turn r s r' s' → Q none r' s') :
    (c.atSlots b (Slots.actOnKey g key candidates act)).Ensures W E r s Q := by
  have hnil : ((s.bucket b).slots.hits key candidates).indices = [] := by
    rw [List.eq_nil_iff_forall_not_mem]
    intro n hn
    obtain ⟨i, -, hc, hk⟩ := (Slots.mem_hits _ key candidates).1 hn
    exact hno i hc hk
  rw [atSlots, Slots.actOnKey, Prog.zoom_bind, Prog.ensures_bind]
  refine pollKey_ensures g key candidates hr fun r' s' ht => ?_
  rw [hnil]
  exact hQ r' s' ht

/-- The elected lane acts on the one slot of the bucket that holds the key. It succeeds and pauses,
or it leaves all as it is. -/
theorem actOnKey_ensures_some {key : Word k} {candidates : Mask}
    {act : Nat → Prog (Slots k v c.shape.len) Bool} {Q : Option Nat → γ → Cells k v c.shape → Prop}
    {i : Fin c.shape.len.slots} (hkey : s.key ⟨b, i⟩ = key)
    (huniq : ∀ j, s.key ⟨b, j⟩ = key → j = i) (hcand : candidates.has i = true) (hr : W.ready r s)
    (hQ : ∀ r' s', W.turn r s r' s' →
      (∃ x, (act i.val).Yields (s'.bucket b).slots true ((s'.bucket b).slots.put i x) ∧
        W.ready r' (s'.putSlot ⟨b, i⟩ x) ∧
        ∀ r'' s'', W.turn r' (s'.putSlot ⟨b, i⟩ x) r'' s'' → Q (some i.val) r'' s'') ∨
      ((act i.val).Yields (s'.bucket b).slots false (s'.bucket b).slots ∧ Q none r' s')) :
    (c.atSlots b (Slots.actOnKey g key candidates act)).Ensures W E r s Q := by
  have hone : ((s.bucket b).slots.hits key candidates).indices = [i.val] := by
    refine Mask.indices_single (Nat.lt_of_lt_of_le i.isLt c.shape.len.slots_le) fun j hj => ?_
    rw [Bool.eq_iff_iff, decide_eq_true_iff]
    constructor
    · intro h
      obtain ⟨j', he, -, hk⟩ := (Slots.mem_hits _ key candidates).1 (Mask.mem_indices.2 ⟨hj, h⟩)
      rw [he, huniq j' hk]
    · rintro rfl
      exact (Mask.mem_indices.1 ((Slots.mem_hits _ key candidates).2 ⟨i, rfl, hcand, hkey⟩)).2
  rw [atSlots, Slots.actOnKey, Prog.zoom_bind, Prog.ensures_bind]
  refine pollKey_ensures g key candidates hr fun r' s' ht => ?_
  rw [hone, List.findSomeM?, Prog.zoom_bind, Prog.zoom_bind, Prog.ensures_bind]
  rcases hQ r' s' ht with ⟨x, hact, hr', hQ'⟩ | ⟨hact, hQ'⟩
  · refine (atSlots_put (g.yields_elect (g.owner_lt _) hact)).ensures_bind ?_
    rw [if_pos rfl, Prog.zoom_bind, Prog.zoom_pause, Prog.ensures_bind, Prog.ensures_pause]
    exact ⟨hr', fun r'' s'' ht' => hQ' r'' s'' ht'⟩
  · refine (atSlots_same (g.yields_elect (g.owner_lt _) hact)).ensures_bind ?_
    exact hQ'

/-- A search answers a value that the key has at the end of it, or every candidate that held the key
when the search began holds it no more. -/
theorem find_ensures (key : Word k) (candidates : Mask)
    {Q : Option (Word v) → γ → Cells k v c.shape → Prop} (hr : W.ready r s)
    (hsome : ∀ r' s' i, W.turn r s r' s' → s'.key ⟨b, i⟩ = key →
      Q (some (s'.value ⟨b, i⟩)) r' s')
    (hnone : ∀ r' s', W.turn r s r' s' →
      (∀ i : Fin c.shape.len.slots, candidates.has i = true → s.key ⟨b, i⟩ = key →
        s'.key ⟨b, i⟩ ≠ key) → Q none r' s') :
    (c.atSlots b (Slots.find? g key candidates)).Ensures W E r s Q := by
  rw [atSlots, Slots.find?, Prog.zoom_bind, Prog.ensures_bind]
  refine pollKey_ensures g key candidates hr fun r' s' ht => ?_
  have hread : ∀ n ∈ ((s.bucket b).slots.hits key candidates).indices,
      (g.elect (g.owner n) fun _ => Slots.valueOf n key).Yields (s'.bucket b).slots
        ((s'.bucket b).slots.valueIf key n) (s'.bucket b).slots := by
    intro n hn
    obtain ⟨i, rfl, -, -⟩ := (Slots.mem_hits _ key candidates).1 hn
    exact g.yields_elect (g.owner_lt _) (Slots.valueOf_yields _ i key)
  refine (Prog.Yields.zoom_same (l := Cells.slotsLens b) (s := s')
    (Prog.yields_findSomeM? hread)).ensures ?_
  cases hf : ((s.bucket b).slots.hits key candidates).indices.findSome?
      ((s'.bucket b).slots.valueIf key) with
  | some x =>
    obtain ⟨n, hn, hx⟩ := List.exists_of_findSome?_eq_some hf
    obtain ⟨i, rfl, -, -⟩ := (Slots.mem_hits _ key candidates).1 hn
    rw [Slots.valueIf_eq] at hx
    split at hx
    · rename_i hk
      cases hx
      exact hsome r' s' i ht hk
    · cases hx
  | none =>
    rw [List.findSome?_eq_none_iff] at hf
    refine hnone r' s' ht fun i hc hk => ?_
    have := hf i ((Slots.mem_hits _ key candidates).2 ⟨i, rfl, hc, hk⟩)
    rw [Slots.valueIf_eq] at this
    split at this
    · cases this
    · assumption

/-- The owner of a slot publishes a pair in it and pauses. -/
theorem publish_ensures {i : Fin c.shape.len.slots} (key : Word k) (value : Word v)
    {Q : Unit → γ → Cells k v c.shape → Prop} (hr : W.ready r (s.putSlot ⟨b, i⟩ ⟨key, value⟩))
    (hQ : ∀ r' s', W.turn r (s.putSlot ⟨b, i⟩ ⟨key, value⟩) r' s' → Q () r' s') :
    (c.atSlots b (Slots.publish g c.reserved i.val key value)).Ensures W E r s Q := by
  simp only [atSlots, Slots.publish, Prog.zoom_bind]
  have hput : (g.elect (g.owner i.val) fun _ => do
      Slots.setKey i.val c.reserved.holding
      Slots.setValue i.val value
      Slots.setKey i.val key).Yields (s.bucket b).slots ()
        ((s.bucket b).slots.put i ⟨key, value⟩) := by
    refine g.yields_elect (g.owner_lt _) (Prog.yields_bind (Slots.setKey_yields _ i _)
      (Prog.yields_bind (Slots.setValue_yields _ i value) ?_))
    rw [Slots.put_put, Slots.get_put_self]
    have := Slots.setKey_yields ((s.bucket b).slots.put i ⟨c.reserved.holding, value⟩) i key
    rwa [Slots.put_put, Slots.get_put_self] at this
  refine (atSlots_put hput).ensures_bind ?_
  rw [Prog.zoom_pause, Prog.ensures_pause]
  exact ⟨hr, hQ⟩

end Config

end TwoChoice
