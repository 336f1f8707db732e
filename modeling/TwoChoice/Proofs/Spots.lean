import TwoChoice.Proofs.Alone
import TwoChoice.Proofs.Matches

/-!
# What is stored is found

Nothing is assumed here of what a table holds: a key may lie in several slots, outside its candidate
buckets, or under a tag that is not its own. With nobody else there, an operation sees a key only
where the tag is that of the key (`Config.Hit`), and of such slots in the candidate buckets it means
the first one (`Config.spot?`). A search answers the value there (`Config.solo_find?`), and a store
or an exchange that succeeds leaves its value there (`Landed.found`, `Swapped.found`). A key that has no
such slot cannot be taken out of one (`Config.erase_hits`).
-/

set_option autoImplicit false

namespace TwoChoice

variable {k v : Width}

namespace Prog

variable {σ α β ι : Type}

theorem Ensures.of_solo {E : Halt → Unit → σ → Prop} {p : Prog σ α} {s s' : σ} {a : α} {r : Unit}
    {Q : α → Unit → σ → Prop} (h : p.solo s = (.ok a, s')) (hQ : Q a r s') :
    p.Ensures (World.alone σ) E r s Q := by
  induction p generalizing s with
  | done =>
    cases h
    exact hQ
  | halt => cases h
  | read q ih => exact ih s h
  | write f p ih => exact ih h
  | emit e p ih => exact ih h
  | sync p ih => exact ⟨trivial, fun _ s'' ht => ht ▸ ih h⟩

/-- A search that changes nothing. -/
theorem solo_findSomeM? {f : ι → Prog σ (Option β)} {found : ι → Option β} {s : σ}
    (hf : ∀ a, (f a).solo s = (.ok (found a), s)) :
    ∀ xs : List ι, (xs.findSomeM? f).solo s = (.ok (xs.findSome? found), s)
  | [] => rfl
  | a :: xs => by
    rw [List.findSomeM?, List.findSome?, solo_bind_ok (hf a)]
    cases found a with
    | some b => rfl
    | none => exact solo_findSomeM? hf xs

end Prog

open Prog

namespace Config

variable {c : Config k} {s s' : Cells k v c.shape} {key oldKey mark : Word k}
variable {value oldValue : Word v} {replace update locked : Bool} {p : Place c.shape}
variable {b : Fin c.shape.count} {accept : Word v → Bool}

/-! ## Hits -/

/-- The slot holds the key under the tag of the key. -/
def Hit (s : Cells k v c.shape) (key : Word k) (p : Place c.shape) : Prop :=
  s.tag p = Tag.ofKey key ∧ s.key p = key

/-- The first slot of the bucket that holds the key under its tag, with an accepted value. -/
def hitIn? (s : Cells k v c.shape) (key : Word k) (accept : Word v → Bool)
    (b : Fin c.shape.count) : Option (Place c.shape) :=
  ((s.bucket b).slots.first? key ((s.bucket b).tags.census (Tag.ofKey key)).matching accept).map
    (Place.mk b)

/-- The slot in which the key is found: the first of all hits in its candidate buckets. -/
def spot? (c : Config k) (s : Cells k v c.shape) (key : Word k) : Option (Place c.shape) :=
  (c.candidates key).distinct.findSome? (hitIn? s key fun _ => true)

theorem matches_iff {i : Fin c.shape.len.slots} : (s.bucket b).slots.Matches key
    ((s.bucket b).tags.census (Tag.ofKey key)).matching accept i ↔
      Hit s key ⟨b, i⟩ ∧ accept (s.value ⟨b, i⟩) = true := by
  rw [Slots.Matches, Tags.has_matching _ _ i.isLt, beq_iff_eq, ← and_assoc]
  rfl

theorem hit_of_hitIn? (h : hitIn? s key accept b = some p) :
    p.bucket = b ∧ Hit s key p ∧ accept (s.value p) = true := by
  obtain ⟨i, hi, rfl⟩ := Option.map_eq_some_iff.1 h
  have hfirst := (s.bucket b).slots.firstMatch_first? key
    ((s.bucket b).tags.census (Tag.ofKey key)).matching accept
  rw [hi] at hfirst
  cases hfirst with
  | found here _ => exact ⟨rfl, matches_iff.1 here⟩

theorem hitIn?_eq_none :
    hitIn? s key accept b = none ↔ ∀ i, Hit s key ⟨b, i⟩ → accept (s.value ⟨b, i⟩) = false := by
  rw [hitIn?, Option.map_eq_none_iff, Slots.first?, List.find?_eq_none]
  simp only [List.mem_finRange, decide_eq_true_eq, forall_const, matches_iff, not_and,
    Bool.not_eq_true]

/-- A search that skips a bucket without a matching tag misses nothing. -/
theorem hitIn?_of_matching (h : ((s.bucket b).tags.census (Tag.ofKey key)).matching = 0) :
    hitIn? s key accept b = none := by
  refine hitIn?_eq_none.2 fun i hi => ?_
  have hmatch : ((s.bucket b).tags.census (Tag.ofKey key)).matching.has i = true := by
    rw [Tags.has_matching _ _ i.isLt, beq_iff_eq]
    exact hi.1
  exact absurd (beq_iff_eq.2 h) (matching_ne_zero hmatch)

theorem hit_of_spot? (h : c.spot? s key = some p) : Hit s key p := by
  obtain ⟨b, -, hb⟩ := List.exists_of_findSome?_eq_some h
  exact (hit_of_hitIn? hb).2.1

theorem spot?_eq_none : c.spot? s key = none ↔ ∀ p, c.MayLie key p.bucket → ¬ Hit s key p := by
  rw [spot?, List.findSome?_eq_none_iff]
  refine ⟨fun h p hp hit => ?_, fun h b hb => hitIn?_eq_none.2 fun i hi => absurd hi (h ⟨b, i⟩ hb)⟩
  cases hitIn?_eq_none.1 (h p.bucket hp) p.index hit

theorem spot?_eq_or (s : Cells k v c.shape) (key : Word k) : c.spot? s key =
    (hitIn? s key (fun _ => true) (c.candidates key).primary).or
      (if (c.candidates key).secondary = (c.candidates key).primary then none
        else hitIn? s key (fun _ => true) (c.candidates key).secondary) := by
  rw [spot?, Candidates.distinct]
  split <;> rw [List.findSome?_cons]
  · cases hitIn? s key (fun _ => true) (c.candidates key).primary <;> rfl
  · rw [List.findSome?_cons]
    cases hitIn? s key (fun _ => true) (c.candidates key).primary <;>
      cases hitIn? s key (fun _ => true) (c.candidates key).secondary <;> rfl

/-- Where a key is found depends on the tags and the keys alone. -/
theorem spot?_congr (htag : ∀ p, s'.tag p = s.tag p) (hkey : ∀ p, s'.key p = s.key p) :
    c.spot? s' key = c.spot? s key := by
  have hbucket : hitIn? s' key (fun _ => true) = hitIn? s key fun _ => true := by
    funext b
    rw [hitIn?, hitIn?, Slots.first?, Slots.first?]
    congr 2
    funext i
    rw [decide_eq_decide, matches_iff, matches_iff, Hit, Hit, htag, hkey]
  rw [spot?, spot?, hbucket]

/-- A key is found where it was found before, if its slot gets another value. -/
theorem spot?_putSlot (h : c.spot? s key = some p) (value : Word v) :
    c.spot? (s.putSlot p ⟨key, value⟩) key = some p := by
  refine (spot?_congr (fun q => s.tag_putSlot p q _) fun q => ?_).trans h
  rw [Cells.key_putSlot]
  split
  · rename_i hpq
    exact hpq ▸ (hit_of_spot? h).2.symm
  · rfl

/-- A key that was not found before is found in the slot that it is put in. -/
theorem spot?_fill (h : c.spot? s key = none) (hb : c.MayLie key p.bucket) (value : Word v) :
    c.spot? (s.fill p key value) key = some p := by
  have hp : Hit (s.fill p key value) key p := by simp [Hit]
  cases hq : c.spot? (s.fill p key value) key with
  | none => exact absurd hp (spot?_eq_none.1 hq p hb)
  | some q =>
    by_cases hpq : p = q
    · rw [hpq]
    · -- another slot with the key was there before, in a candidate bucket
      obtain ⟨b, hmem, hfirst⟩ := List.exists_of_findSome?_eq_some hq
      have hhit := hit_of_spot? hq
      rw [Hit, Cells.tag_fill, Cells.key_fill, if_neg hpq, if_neg hpq] at hhit
      exact absurd hhit (spot?_eq_none.1 h q ((hit_of_hitIn? hfirst).1 ▸ hmem))

/-! ## Searches -/

section
variable (g : Group)

theorem solo_findIn (b : Fin c.shape.count) : (do
    let census ← c.atTags b (Tags.scan g.toLanes (Tag.ofKey key))
    if census.matching == 0 then
      return none
    else
      c.atSlots b (Slots.find? g.toLanes key census.matching) :
        Prog (Cells k v c.shape) (Option (Word v))).solo s =
      (.ok ((hitIn? s key (fun _ => true) b).map s.value), s) := by
  refine (solo_bind_ok (pays_scan g.toLanes b _).solo).trans ?_
  by_cases hz : ((s.bucket b).tags.census (Tag.ofKey key)).matching = 0
  · rw [if_pos (by simpa using hz), hitIn?_of_matching hz]
    rfl
  · rw [if_neg (by simpa using hz), hitIn?, Option.map_map]
    have hfind := ((Slots.pays_find? g.toLanes (s.bucket b).slots key
      ((s.bucket b).tags.census (Tag.ofKey key)).matching).zoom (l := Cells.slotsLens b)).solo
    exact hfind.trans (congrArg (Prod.mk _) ((Cells.slotsLens b).set_get s))

/-- **A search answers the value in the slot in which the key is found.** -/
theorem solo_find? : (c.find? g key).solo s = (.ok ((c.spot? s key).map s.value), s) := by
  rw [find?, spot?, List.map_findSome?]
  exact solo_findSomeM? (solo_findIn g) _

/-- Some slots of a bucket, put back with another one where something was found. -/
theorem set_change (found : Option (Fin c.shape.len.slots)) (f : Slot k v → Slot k v) :
    (Cells.slotsLens b).set ((s.bucket b).slots.change found f) s =
      found.elim s fun i => s.putSlot ⟨b, i⟩ (f (s.slot ⟨b, i⟩)) := by
  cases found with
  | none => exact (Cells.slotsLens b).set_get s
  | some i => rfl

theorem solo_lookFor (value : Word v) (replace : Bool) (b : Fin c.shape.count) :
    (c.lookFor g b key value ((s.bucket b).tags.census (Tag.ofKey key)) replace).solo s =
      (.ok (hitIn? s key (fun _ => true) b).isSome, (hitIn? s key (fun _ => true) b).elim s fun p =>
        if replace then s.putSlot p ⟨key, value⟩ else s) := by
  rw [lookFor]
  by_cases hz : ((s.bucket b).tags.census (Tag.ofKey key)).matching = 0
  · rw [if_pos (by simpa using hz), hitIn?_of_matching hz]
    rfl
  rw [if_neg (by simpa using hz)]
  cases replace with
  | true =>
    have hput := ((Slots.pays_overwrite g.toLanes (s.bucket b).slots key
      ((s.bucket b).tags.census (Tag.ofKey key)).matching value).zoom (l := Cells.slotsLens b)).solo
    rw [set_change] at hput
    refine (solo_bind_ok hput).trans ?_
    cases hfirst : (s.bucket b).slots.first? key
      ((s.bucket b).tags.census (Tag.ofKey key)).matching fun _ => true with
    | none =>
      rw [hitIn?, hfirst]
      rfl
    | some i =>
      have hhit : hitIn? s key (fun _ => true) b = some ⟨b, i⟩ := by rw [hitIn?, hfirst]; rfl
      have hkey : (s.slot ⟨b, i⟩).key = key := (hit_of_hitIn? hhit).2.1.2
      rw [hhit]
      show (Except.ok true, s.putSlot ⟨b, i⟩ ⟨(s.slot ⟨b, i⟩).key, value⟩) = _
      rw [hkey]
      rfl
  | false =>
    have hlook := ((Slots.pays_findIndex? (v := v) g.toLanes (s.bucket b).slots key
      ((s.bucket b).tags.census (Tag.ofKey key)).matching).zoom (l := Cells.slotsLens b)).solo
    refine (solo_bind_ok (hlook.trans
      (congrArg (Prod.mk _) ((Cells.slotsLens b).set_get s)))).trans ?_
    rw [hitIn?]
    cases (s.bucket b).slots.first? key
      ((s.bucket b).tags.census (Tag.ofKey key)).matching fun _ => true <;> rfl

end

/-! ## Locks -/

section
variable {E : Halt → Unit → Cells k v c.shape → Prop} {α : Type} (g : Lanes) {u : Unit}

theorem lockAll_alone : ∀ (bs : List Nat) {s : Cells k v c.shape}, bs.Nodup →
    (∀ b ∈ bs, b < c.shape.count) → (∀ b ∈ bs, s.locks.isLocked b = false) →
    (bs.forM fun b => (Locks.lock g b).zoom Cells.locksLens).Ensures (World.alone _) E u s
      fun _ _ s' => s' = s.setLocks (bs.foldl Locks.acquire s.locks)
  | [], _, _, _, _ => rfl
  | b :: bs, s, hnodup, hlt, hfree => by
    have hb := hlt b (List.mem_cons_self ..)
    rw [List.forM_eq_forM, List.forM_cons, ensures_bind]
    refine lock_ensures g hb (hfree b (List.mem_cons_self ..)) trivial fun u' s' ht => ?_
    obtain rfl : s' = _ := ht
    refine lockAll_alone bs (List.nodup_cons.1 hnodup).2
      (fun a ha => hlt a (List.mem_cons_of_mem _ ha)) fun a ha => ?_
    have hne : b ≠ a := fun h => (List.nodup_cons.1 hnodup).1 (h ▸ ha)
    rw [Cells.locks_setLocks, Locks.isLocked_acquire _ (Locks.covers_of_lt hb),
      hfree a (List.mem_cons_of_mem _ ha)]
    simpa using hne

theorem unlockAll_alone : ∀ (bs : List Nat) {l : Locks c.shape.count} {s : Cells k v c.shape},
    bs.Nodup → (∀ b ∈ bs, b < c.shape.count) → (∀ b ∈ bs, l.isLocked b = false) →
    s.locks = bs.foldl Locks.acquire l →
    (bs.forM fun b => (Locks.unlock g b).zoom Cells.locksLens).Ensures (World.alone _) E u s
      fun _ _ s' => s' = s.setLocks l
  | [], l, s, _, _, _, hs => by
    obtain rfl : s.locks = l := hs
    exact rfl
  | b :: bs, l, s, hnodup, hlt, hfree, hs => by
    have hcovers : ∀ a ∈ b :: bs, Locks.covers c.shape.count a := fun a ha =>
      Locks.covers_of_lt (hlt a ha)
    rw [List.forM_eq_forM, List.forM_cons, ensures_bind]
    refine unlock_ensures g (hlt b (List.mem_cons_self ..)) trivial fun u' s' ht => ?_
    obtain rfl : s' = s := ht
    rw [hs]
    refine ⟨(Locks.isLocked_foldl hcovers l b).2 (.inl (List.mem_cons_self ..)), ?_⟩
    exact unlockAll_alone bs (List.nodup_cons.1 hnodup).2
      (fun a ha => hlt a (List.mem_cons_of_mem _ ha)) (fun a ha => hfree a (List.mem_cons_of_mem _ ha))
      (Locks.release_foldl hcovers (List.nodup_cons.1 hnodup).1 (hfree b (List.mem_cons_self ..)))

/-- With nobody else there, free locks are held while the body runs, and they do not show at the
end. -/
theorem withLocks_alone {bs : List Nat} {body : Prog (Cells k v c.shape) α}
    {Q : α → Unit → Cells k v c.shape → Prop} (hnodup : bs.Nodup)
    (hlt : ∀ b ∈ bs, b < c.shape.count) (hfree : ∀ b ∈ bs, s.locks.isLocked b = false)
    (hbody : body.Ensures (World.alone _) Never u (s.setLocks (bs.foldl Locks.acquire s.locks))
      fun a u' s' => s'.locks = bs.foldl Locks.acquire s.locks ∧ Q a u' (s'.setLocks s.locks)) :
    (c.withLocks g bs body).Ensures (World.alone _) E u s Q := by
  rw [withLocks, Locks.withLocks, ensures_bind]
  refine (lockAll_alone g bs hnodup hlt hfree).mono fun _ u₁ s₁ h₁ => ?_
  subst h₁
  rw [ensures_bind]
  refine attempt_ensures (hbody.mono fun a u₂ s₂ h₂ => ?_)
  rw [ensures_bind]
  refine (unlockAll_alone g bs hnodup hlt hfree h₂.1).mono fun _ u₃ s₃ h₃ => ?_
  subst h₃
  exact h₂.2

/-- As `withLocks_alone`, for the lock of one key, if it is asked for. -/
theorem guarded_alone {body : Prog (Cells k v c.shape) α} {Q : α → Unit → Cells k v c.shape → Prop}
    (hfree : ∀ b, s.locks.isLocked b = false)
    (hbody : ∀ l, body.Ensures (World.alone _) Never u (s.setLocks l)
      fun a u' s' => s'.locks = l ∧ Q a u' (s'.setLocks s.locks)) :
    (c.withLocks g (if locked then [(c.candidates key).primary.val] else []) body).Ensures
      (World.alone _) E u s Q := by
  refine withLocks_alone g ?_ (fun b hb => ?_) (fun b _ => hfree b) (hbody _)
  · cases locked <;> simp
  · cases locked with
    | false => exact absurd hb List.not_mem_nil
    | true => exact List.mem_singleton.1 hb ▸ Fin.isLt _

end

/-! ## Stores -/

/-- How a store ends with nobody else there, whatever is in the table. -/
inductive Landed (c : Config k) (s : Cells k v c.shape) (key : Word k) (value : Word v)
    (replace : Bool) : Stored → Cells k v c.shape → Prop
  | present {p : Place c.shape} (found : c.spot? s key = some p) :
    Landed c s key value replace .present (if replace then s.putSlot p ⟨key, value⟩ else s)
  | inserted {p : Place c.shape} (missing : c.spot? s key = none) (bucket : c.MayLie key p.bucket) :
    Landed c s key value replace .inserted (s.fill p key value)
  | full (missing : c.spot? s key = none) : Landed c s key value replace .full s

namespace Landed

variable {stored : Stored}

theorem unlock {l : Locks c.shape.count} (h : c.Landed (s.setLocks l) key value replace stored s') :
    s'.locks = l ∧ c.Landed s key value replace stored (s'.setLocks s.locks) := by
  cases h with
  | present found => cases replace <;> exact ⟨rfl, .present (s := s) found⟩
  | inserted missing bucket => exact ⟨rfl, .inserted (s := s) missing bucket⟩
  | full missing => exact ⟨rfl, .full (s := s) missing⟩

/-- **What is stored is found.** -/
theorem found (h : c.Landed s key value replace stored s')
    (hstored : stored = .inserted ∨ stored = .present ∧ replace = true) :
    (c.spot? s' key).map s'.value = some value := by
  cases h with
  | present found =>
    obtain ⟨-, rfl⟩ := hstored.resolve_left (by simp)
    rw [if_pos rfl, spot?_putSlot found]
    simp [Cells.value]
  | inserted missing bucket =>
    rw [spot?_fill missing bucket]
    simp [Cells.value]
  | full => simp at hstored

end Landed

section
variable (g : Group) {u : Unit}

theorem storePass_landed (key : Word k) (value : Word v) (replace : Bool)
    (s : Cells k v c.shape) :
    (c.storePass g key value replace).Ensures (World.alone _) Never u s fun stored _ s' =>
      ∃ x, stored = some x ∧ c.Landed s key value replace x s' := by
  have hscan : ∀ b, (c.atTags b (Tags.scan g.toLanes (Tag.ofKey key))).solo s =
      (.ok ((s.bucket b).tags.census (Tag.ofKey key)), s) := fun b => (pays_scan g.toLanes b _).solo
  have hnew : ∀ {secondary : Census}, c.spot? s key = none →
      Snapshot key s (c.candidates key).secondary False secondary →
      (c.placeNew g key value ((s.bucket (c.candidates key).primary).tags.census (Tag.ofKey key))
        secondary).Ensures (World.alone _) Never u s fun stored _ s' =>
          ∃ x, stored = some x ∧ c.Landed s key value replace x s' := by
    intro secondary hmissing hsec
    refine placeNew_ensures g (.inr ⟨s, rfl, .inl rfl⟩) hsec (fun _ _ => ⟨_, rfl, .full hmissing⟩)
      (fun p hp _ => ⟨trivial, fun _ s' ht => ?_⟩) fun h => h.elim
    obtain rfl : s' = _ := ht
    exact ⟨_, rfl, .inserted hmissing hp⟩
  rw [storePass, ensures_bind]
  refine .of_solo (hscan _) ?_
  rw [ensures_bind]
  refine .of_solo (solo_lookFor g value replace _) ?_
  have hspot := spot?_eq_or s key
  cases hfirst : hitIn? s key (fun _ => true) (c.candidates key).primary with
  | some p => exact ⟨_, rfl, .present (hspot.trans (by rw [hfirst, Option.some_or]))⟩
  | none =>
    rw [hfirst, Option.none_or] at hspot
    by_cases heq : (c.candidates key).secondary = (c.candidates key).primary
    · rw [if_pos heq] at hspot
      rw [if_neg (by simp), if_pos heq]
      exact hnew hspot (.inl rfl)
    · rw [if_neg heq] at hspot
      rw [if_neg (by simp), if_neg heq, ensures_bind]
      refine .of_solo (hscan _) ?_
      rw [ensures_bind]
      refine .of_solo (solo_lookFor g value replace _) ?_
      cases hsecond : hitIn? s key (fun _ => true) (c.candidates key).secondary with
      | some p => exact ⟨_, rfl, .present (hspot.trans hsecond)⟩
      | none => exact hnew (hspot.trans hsecond) (.inr ⟨s, rfl, .inl rfl⟩)

theorem store_landed (hg : 0 < g.passes) (hl : c.Live key) (value : Word v) (replace locked : Bool)
    (hfree : ∀ b, s.locks.isLocked b = false) :
    (c.store g key value replace locked).Ensures (World.alone _) Never u s fun stored _ s' =>
      c.Landed s key value replace stored s' := by
  rw [store]
  refine (Prog.yields_require (c := c.reserved.isReserved key = false) hl _ s).ensures_bind ?_
  refine guarded_alone g.toLanes hfree fun l => ?_
  obtain ⟨n, hn⟩ := Nat.exists_eq_succ_of_ne_zero hg.ne'
  rw [hn, storePasses, ensures_bind]
  refine (storePass_landed g key value replace _).mono fun stored u' s' h => ?_
  obtain ⟨x, rfl, hx⟩ := h
  exact hx.unlock

end

/-! ## Taking a key out of its slot -/

section
variable (g : Group) {u : Unit} {after : Fin c.shape.count → Nat → Prog (Cells k v c.shape) Unit}
variable {buckets : List (Fin c.shape.count)}

/-- A key is taken out of a slot in which it is hit, or of none. -/
theorem takeOut_alone {Q : Option Nat → Unit → Cells k v c.shape → Prop}
    (hsome : ∀ p, p.bucket ∈ buckets → Hit s key p → accept (s.value p) = true →
      (after p.bucket p.index).Ensures (World.alone _) Never u (s.vacate p mark)
        fun _ => Q (some p.index.val))
    (hnone : Q none u s) :
    (buckets.findSomeM? (takeFrom g key mark accept after)).Ensures (World.alone _) Never u s Q := by
  refine ensures_findSomeM? (fun rest _ s' => s' = s ∧ ∀ b ∈ rest, b ∈ buckets)
    (fun b rest u' s' hinv => ?_) (fun _ _ hinv => hinv.1 ▸ hnone) buckets ⟨rfl, fun _ hb => hb⟩
  obtain ⟨rfl, hin⟩ := hinv
  have hskip : s' = s' ∧ ∀ b ∈ rest, b ∈ buckets :=
    ⟨rfl, fun b hb => hin b (List.mem_cons_of_mem _ hb)⟩
  rw [takeFrom, ensures_bind]
  refine .of_solo (pays_scan g.toLanes b _).solo ?_
  split
  · exact hskip
  rw [ensures_bind]
  have hrekey := ((Slots.pays_rekey g.toLanes (s'.bucket b).slots key
    ((s'.bucket b).tags.census (Tag.ofKey key)).matching mark accept).zoom
      (l := Cells.slotsLens b)).solo
  rw [set_change] at hrekey
  refine .of_solo hrekey ?_
  cases hfirst : (s'.bucket b).slots.first? key
    ((s'.bucket b).tags.census (Tag.ofKey key)).matching accept with
  | none => exact hskip
  | some i =>
    have hhit : hitIn? s' key accept b = some ⟨b, i⟩ := by rw [hitIn?, hfirst]; rfl
    obtain ⟨-, hit, hacc⟩ := hit_of_hitIn? hhit
    show Prog.Ensures _ _ (_ >>= _) _ _ _
    rw [ensures_bind]
    exact hsome ⟨b, i⟩ (hin b (List.mem_cons_self ..)) hit hacc

/-- A key that has no slot is not removed. -/
theorem erase_missing (wanted : Option (Word v)) (locked : Bool)
    (hfree : ∀ b, s.locks.isLocked b = false) (hno : ∀ p, ¬ Hit s key p) :
    (c.erase g key wanted locked).Ensures (World.alone _) Never u s fun erased _ s' =>
      erased = false ∧ s' = s := by
  rw [erase_eq]
  refine guarded_alone g.toLanes hfree fun l => ?_
  rw [ensures_bind]
  exact takeOut_alone g (fun p _ hit => absurd hit (hno p)) ⟨rfl, rfl, rfl⟩

end

/-! ## Exchanges -/

/-- How an exchange ends with nobody else there, whatever is in the table. -/
inductive Swapped (c : Config k) (s : Cells k v c.shape) (key : Word k) (value : Word v)
    (oldKey : Word k) (update : Bool) : Bool → Cells k v c.shape → Prop
  | present {p : Place c.shape} (found : c.spot? s key = some p) :
    Swapped c s key value oldKey update update (if update then s.putSlot p ⟨key, value⟩ else s)
  | moved {p : Place c.shape} (missing : c.spot? s key = none) (old : Hit s oldKey p)
    (bucket : c.MayLie key p.bucket) :
    Swapped c s key value oldKey update true (s.fill p key value)
  | refused (missing : c.spot? s key = none) : Swapped c s key value oldKey update false s

namespace Swapped

variable {done : Bool}

theorem unlock {l : Locks c.shape.count} (h : c.Swapped (s.setLocks l) key value oldKey update done s') :
    s'.locks = l ∧ c.Swapped s key value oldKey update done (s'.setLocks s.locks) := by
  cases h with
  | present found => cases update <;> exact ⟨rfl, .present (s := s) found⟩
  | moved missing old bucket => exact ⟨rfl, .moved (s := s) missing old bucket⟩
  | refused missing => exact ⟨rfl, .refused (s := s) missing⟩

/-- **What is exchanged for another pair is found.** -/
theorem found (h : c.Swapped s key value oldKey update true s') :
    (c.spot? s' key).map s'.value = some value := by
  generalize hdone : true = done at h
  cases h with
  | present found =>
    subst hdone
    have hlanded : c.Landed s key value true .present _ := .present found
    exact hlanded.found (.inr ⟨rfl, rfl⟩)
  | @moved p missing _ bucket =>
    have hlanded : c.Landed s key value true .inserted (s.fill p key value) :=
      .inserted missing bucket
    exact hlanded.found (.inl rfl)
  | refused => cases hdone

/-- Nothing is exchanged for a pair whose key has no slot. -/
theorem eq_of_missing (h : c.Swapped s key value oldKey update done s')
    (hno : ∀ p, ¬ Hit s oldKey p) (hkey : update = true → c.spot? s key = none) :
    done = false ∧ s' = s := by
  cases h with
  | present found =>
    cases update with
    | false => exact ⟨rfl, rfl⟩
    | true => simp [hkey rfl] at found
  | moved _ old => exact absurd old (hno _)
  | refused => exact ⟨rfl, rfl⟩

end Swapped

section
variable (g : Group) {u : Unit}

theorem search_swapped (key : Word k) (value : Word v) (update : Bool) (s : Cells k v c.shape) :
    ((c.candidates key).distinct.anyM fun b => do
      let census ← c.atTags b (Tags.scan g.toLanes (Tag.ofKey key))
      c.lookFor g b key value census update).Ensures (World.alone _) Never u s fun found _ s' =>
        found = (c.spot? s key).isSome ∧
          s' = (c.spot? s key).elim s fun p => if update then s.putSlot p ⟨key, value⟩ else s := by
  refine ensures_anyM (fun rest _ s' => s' = s ∧
    rest.findSome? (hitIn? s key fun _ => true) = c.spot? s key) (fun b rest u' s' hinv => ?_)
    (fun u' s' hinv => ?_) _ ⟨rfl, rfl⟩
  · obtain ⟨rfl, hspot⟩ := hinv
    rw [ensures_bind]
    refine .of_solo (pays_scan g.toLanes b _).solo (.of_solo (solo_lookFor g value update b) ?_)
    rw [List.findSome?_cons] at hspot
    cases hfirst : hitIn? s' key (fun _ => true) b with
    | none =>
      rw [hfirst] at hspot
      exact ⟨rfl, hspot⟩
    | some p =>
      rw [hfirst] at hspot
      rw [← hspot]
      exact ⟨rfl, rfl⟩
  · obtain ⟨rfl, hspot⟩ := hinv
    rw [← hspot]
    exact ⟨rfl, rfl⟩

theorem exchange_swapped (hl : c.Live key) (value : Word v) (oldKey : Word k) (oldValue : Word v)
    (update : Bool) (hfree : ∀ b, s.locks.isLocked b = false) :
    (c.exchange g key value oldKey oldValue update).Ensures (World.alone _) Never u s
      fun done _ s' => c.Swapped s key value oldKey update done s' := by
  rw [exchange]
  refine (Prog.yields_require (c := c.reserved.isReserved key = false) hl _ s).ensures_bind ?_
  refine withLocks_alone g.toLanes
    ((Locks.order_ascending _ _).imp Nat.ne_of_lt) (fun b hb => ?_) (fun b _ => hfree b) ?_
  · rcases Locks.mem_order hb with rfl | rfl <;> exact Fin.isLt _
  generalize (Locks.order _ _).foldl Locks.acquire s.locks = l
  rw [ensures_bind]
  refine (search_swapped g key value update _).mono fun found u' s' h => ?_
  obtain ⟨rfl, rfl⟩ := h
  cases hspot : c.spot? (s.setLocks l) key with
  | some p => exact (Swapped.present hspot).unlock
  | none =>
    show (c.handOver g key value oldKey oldValue).Ensures _ _ _ _ _
    rw [handOver_eq, ensures_bind]
    refine takeOut_alone g (fun p hp hit _ => ?_) (Swapped.refused hspot).unlock
    rw [ensures_bind]
    refine retag_ensures g.toLanes _ trivial fun _ s₁ h₁ => ?_
    obtain rfl : s₁ = _ := h₁
    refine publish_ensures g.toLanes key value trivial fun _ s₂ h₂ => ?_
    obtain rfl : s₂ = _ := h₂
    have hmoved : c.Swapped (s.setLocks l) key value oldKey update true
      ((s.setLocks l).fill p key value) := .moved hspot hit hp
    rw [← fill_vacate _ p c.reserved.holding] at hmoved
    exact hmoved.unlock

end

end Config

end TwoChoice
