import TwoChoice.Proofs.Full
import TwoChoice.Proofs.Inert

/-!
# Probes

`p.probed s` is the number of probes that the program `p` announces from `s` on when nobody else is
there; a table that counts adds it to its count (`Table.handle_probes`). Votes, elections and pauses
cost nothing (`Silent`). A scan is one probe, a look at the candidates is one for each of them, and
so is an attempt to claim a slot.

With nobody else there, a store looks at the same slots as a search for its key. If it then claims a
slot at all it gets the first one that it tries: it costs one probe more than the search
(`Table.Reachable.store_probes`).
-/

set_option autoImplicit false

namespace TwoChoice

variable {k v : Width}

namespace Prog

variable {σ τ α β ι : Type}

/-- The probes that the program announces when nothing happens at its pauses. -/
def probed : Prog σ α → σ → Nat
  | .done _, _ => 0
  | .halt _, _ => 0
  | .read k, s => (k s).probed s
  | .write f p, s => p.probed (f s)
  | .emit (.probe n) p, s => n + p.probed s
  | .emit _ p, s => p.probed s
  | .sync p, s => p.probed s

theorem probed_bind (p : Prog σ α) (k : α → Prog σ β) (s : σ) :
    (p >>= k).probed s = p.probed s +
      match p.solo s with
      | (.ok a, s') => (k a).probed s'
      | (.error _, _) => 0 := by
  rw [bind_eq]
  induction p generalizing s with
  | done => exact (Nat.zero_add _).symm
  | halt => rfl
  | read q ih => exact ih s s
  | write f p ih => exact ih (f s)
  | emit e p ih =>
    cases e with
    | probe n =>
      rw [andThen, probed, probed, ih, Nat.add_assoc]
      rfl
    | _ => exact ih s
  | sync p ih => exact ih s

theorem probed_zoom (l : Lens σ τ) (p : Prog τ α) (s : σ) :
    (p.zoom l).probed s = p.probed (l.get s) := by
  induction p generalizing s with
  | done | halt => rfl
  | read q ih => exact ih (l.get s) s
  | write f p ih =>
    rw [zoom, probed, ih, Lens.modify, l.get_set]
    rfl
  | emit e p ih =>
    cases e with
    | probe n => exact congrArg (n + ·) (ih s)
    | _ => exact ih s
  | sync p ih => exact ih s

theorem solo_zoom (l : Lens σ τ) (p : Prog τ α) (s : σ) :
    (p.zoom l).solo s = ((p.solo (l.get s)).1, l.set (p.solo (l.get s)).2 s) := by
  induction p generalizing s with
  | done | halt => exact congrArg (Prod.mk _) (l.set_get s).symm
  | read q ih => exact ih (l.get s) s
  | write f p ih =>
    rw [zoom, solo, ih, Lens.modify, l.get_set, l.set_set]
    rfl
  | emit e p ih => exact ih s
  | sync p ih => exact ih s

theorem probed_attempt (p : Prog σ α) (s : σ) : p.attempt.probed s = p.probed s := by
  induction p generalizing s with
  | done => rfl
  | halt x => cases x <;> rfl
  | read q ih => exact ih s s
  | write f p ih => exact ih (f s)
  | emit e p ih =>
    cases e with
    | probe n => exact congrArg (n + ·) (ih s)
    | _ => exact ih s
  | sync p ih => exact ih s

/-- With nobody else there, the program makes so many probes, and it ends with that answer. -/
structure Pays (p : Prog σ α) (s : σ) (n : Nat) (a : α) (s' : σ) : Prop where
  solo : p.solo s = (.ok a, s')
  probed : p.probed s = n

namespace Pays

variable {p : Prog σ α} {k : α → Prog σ β} {s s' s'' : σ} {m n : Nat} {a : α} {b : β}

theorem probed_bind (h : p.Pays s m a s') : (p >>= k).probed s = m + (k a).probed s' := by
  rw [Prog.probed_bind, h.solo, h.probed]

theorem bind (h : p.Pays s m a s') (hk : (k a).Pays s' n b s'') :
    (p >>= k).Pays s (m + n) b s'' :=
  ⟨(solo_bind_ok h.solo).trans hk.solo, h.probed_bind.trans (congrArg (m + ·) hk.probed)⟩

theorem zoom {l : Lens σ τ} {p : Prog τ α} {t : τ} (h : p.Pays (l.get s) n a t) :
    (p.zoom l).Pays s n a (l.set t s) := by
  refine ⟨?_, (probed_zoom l p s).trans h.probed⟩
  rw [solo_zoom, h.solo]

theorem zoom_same {l : Lens σ τ} {p : Prog τ α} (h : p.Pays (l.get s) n a (l.get s)) :
    (p.zoom l).Pays s n a s := by
  have hzoom := h.zoom
  rwa [l.set_get] at hzoom

theorem of_ensures (hp : p.probed s = n)
    (h : p.Ensures (World.alone σ) (fun _ _ _ => False) () s fun a' _ s'' => a' = a ∧ s'' = s') :
    p.Pays s n a s' := by
  obtain ⟨_, _, hsolo, rfl, rfl⟩ := h.solo_ok
  exact ⟨hsolo, hp⟩

end Pays

/-! ## What costs nothing -/

/-- The program announces no probes. -/
def Silent (p : Prog σ α) : Prop := ∀ s, p.probed s = 0

theorem Silent.bind {p : Prog σ α} {k : α → Prog σ β} (h : p.Silent) (hk : ∀ a, (k a).Silent) :
    (p >>= k).Silent := by
  intro s
  rw [probed_bind, h s, Nat.zero_add]
  split
  · exact hk _ _
  · rfl

theorem Silent.pays {p : Prog σ α} {s s' : σ} {a : α} (hp : p.Silent)
    (h : p.solo s = (.ok a, s')) : p.Pays s 0 a s' :=
  ⟨h, hp s⟩

/-- After what is silent comes what costs something. -/
theorem Silent.probed_bind {p : Prog σ α} {k : α → Prog σ β} {s s' : σ} {a : α} (hp : p.Silent)
    (h : p.solo s = (.ok a, s')) : (p >>= k).probed s = (k a).probed s' :=
  (hp.pays h).probed_bind.trans (Nat.zero_add _)

/-- What is silent later costs what comes first. -/
theorem probed_bind_silent {p : Prog σ α} {k : α → Prog σ β} (hk : ∀ a, (k a).Silent) (s : σ) :
    (p >>= k).probed s = p.probed s := by
  rw [Prog.probed_bind]
  split
  · exact congrArg (p.probed s + ·) (hk _ _)
  · rfl

theorem Pays.attempt {p : Prog σ α} {s s' : σ} {n : Nat} {a : α} (h : p.Pays s n a s') :
    p.attempt.Pays s n (.ok a) s' := by
  refine ⟨?_, (probed_attempt p s).trans h.probed⟩
  rw [solo_attempt, h.solo]

theorem Yields.pays {p : Prog σ α} {s s' : σ} {a : α} (h : p.Yields s a s') (hp : p.Silent) :
    p.Pays s 0 a s' :=
  .of_ensures (hp s) (h.ensures ⟨rfl, rfl⟩)

theorem pays_pure (a : α) (s : σ) : (pure a : Prog σ α).Pays s 0 a s := ⟨rfl, rfl⟩

theorem silent_pure (a : α) : (pure a : Prog σ α).Silent := fun _ => rfl

theorem silent_gets (f : σ → α) : (gets f).Silent := fun _ => rfl

theorem silent_modify (f : σ → σ) : (modify f).Silent := fun _ => rfl

theorem silent_pause : (pause : Prog σ Unit).Silent := fun _ => rfl

theorem silent_require (c : Prop) [Decidable c] (f : Fault) :
    (require c f : Prog σ Unit).Silent := by
  rw [require]
  split <;> exact fun _ => rfl

theorem Silent.zoom {p : Prog τ α} (l : Lens σ τ) (h : p.Silent) : (p.zoom l).Silent :=
  fun s => (probed_zoom l p s).trans (h _)

theorem silent_findSomeM? {f : ι → Prog σ (Option β)} (h : ∀ a, (f a).Silent) :
    ∀ xs : List ι, (xs.findSomeM? f).Silent
  | [] => silent_pure _
  | a :: xs => by
    rw [List.findSomeM?]
    refine (h a).bind fun r => ?_
    cases r with
    | none => exact silent_findSomeM? h xs
    | some b => exact silent_pure _

theorem silent_forM {f : ι → Prog σ Unit} (h : ∀ a, (f a).Silent) :
    ∀ xs : List ι, (xs.forM f).Silent
  | [] => silent_pure _
  | a :: xs => (h a).bind fun _ => silent_forM h xs

theorem silent_foldlM {f : β → ι → Prog σ β} (h : ∀ b a, (f b a).Silent) :
    ∀ (xs : List ι) (b : β), (xs.foldlM f b).Silent
  | [], _ => silent_pure _
  | a :: xs, b => by
    rw [List.foldlM_cons]
    exact (h b a).bind fun b => silent_foldlM h xs b

end Prog

open Prog

namespace Lanes

variable {σ α : Type} (g : Lanes)

theorem silent_elect {lane : Nat} {act : Nat → Prog σ α} (h : ∀ i, (act i).Silent) :
    (g.elect lane act).Silent :=
  Silent.bind (p := announce (.elect lane)) (fun _ => rfl) fun _ =>
    (silent_require _ _).bind fun _ => h _

theorem silent_poll {len : Nat} {vote : Nat → Prog σ Bool} (h : ∀ i, (vote i).Silent) :
    (g.poll len vote).Silent := by
  refine (silent_require _ _).bind fun _ => silent_foldlM (fun mask stride => ?_) _ _
  refine Silent.bind (Silent.bind ?_ fun votes => ?_) fun votes => silent_pure _
  · refine silent_foldlM (fun votes lane => Silent.bind ?_ fun r => silent_pure _) _ _
    split
    · exact h _
    · exact silent_pure _
  · exact Silent.bind (p := announce (.ballot votes)) (fun _ => rfl) fun _ => silent_pure _

end Lanes

namespace Tags

variable {L : BucketLen} (g : Lanes)

/-- A scan is one probe, however many votes it takes. -/
theorem pays_scan (tag : Tag) (t : Tags L) : (scan g tag).Pays t 1 (t.census tag) t := by
  have hpoll : ∀ f : Nat → Bool, (g.poll L.slots fun i => (pure (f i) : Prog (Tags L) Bool)).Pays t
      0 (.collect L.slots f) t :=
    fun f => (g.yields_poll L.slots_le fun i _ => yields_pure _ t).pays
      (g.silent_poll fun _ => silent_pure _)
  have hread : (gets id : Prog (Tags L) (Tags L)).Pays t 0 t t := ⟨rfl, rfl⟩
  have hprobe : (probe 1 : Prog (Tags L) Unit).Pays t 1 () t := ⟨rfl, rfl⟩
  rw [scan]
  refine hread.bind (n := 1) (hprobe.bind (n := 0) ?_)
  refine (hpoll _).bind (n := 0) ((hpoll _).bind (n := 0) ((hpoll _).bind (n := 0) ?_))
  exact ⟨rfl, rfl⟩

/-- The owner of a candidate tries it. -/
theorem pays_attempt (expected tag : Tag) (i : Nat) (t : Tags L) :
    (g.elect (g.owner i) fun _ => (compareExchange i expected tag : Prog (Tags L) Bool)).Pays t 0
      (decide (t.get i = expected)) (if t.get i = expected then t.set i tag else t) := by
  refine (g.yields_elect (g.owner_lt i) (t.compareExchange_yields i expected tag)).pays ?_
  refine g.silent_elect fun _ => (silent_gets _).bind fun found => ?_
  split
  · exact (silent_modify _).bind fun _ => silent_pure _
  · exact silent_pure _

/-- Where the first candidate is as expected, one attempt is made. -/
theorem pays_claimFirst {expected : Tag} (tag : Tag) {i : Nat} (hi : i < L.slots) (rest : List Nat)
    {t : Tags L} (h : t.get i = expected) :
    (claimFirst g expected tag (i :: rest)).Pays t 1 (some i) (t.set i tag) := by
  have hattempt := pays_attempt g expected tag i t
  rw [if_pos h, decide_eq_true h] at hattempt
  have hrequire := (yields_require hi (.noSuchSlot i) t).pays (silent_require _ _)
  have hprobe : (probe 1 : Prog (Tags L) Unit).Pays t 1 () t := ⟨rfl, rfl⟩
  rw [claimFirst]
  exact hrequire.bind (n := 1) (hprobe.bind (n := 0) (hattempt.bind (n := 0) (pays_pure _ _)))

end Tags

namespace Locks

variable {n : Nat} (g : Lanes)

theorem silent_check (b : Nat) : (check b : Prog (Locks n) Bool).Silent :=
  (silent_require _ _).bind fun _ => silent_gets _

theorem silent_tryLock (b : Nat) : (tryLock b : Prog (Locks n) Bool).Silent := by
  refine (silent_check b).bind fun taken => ?_
  split
  · exact silent_pure _
  · exact (silent_modify _).bind fun _ => silent_pure _

theorem silent_lock (b : Nat) : (lock g b : Prog (Locks n) Unit).Silent := by
  refine (g.silent_elect fun _ => (silent_tryLock b).bind fun done => ?_).bind fun _ => silent_pause
  split <;> exact fun _ => rfl

theorem silent_unlock (b : Nat) : (unlock g b : Prog (Locks n) Unit).Silent :=
  silent_pause.bind fun _ => g.silent_elect fun _ => (silent_check b).bind fun _ =>
    (silent_modify _).bind fun _ => silent_require _ _

end Locks

namespace Slots

variable {L : BucketLen} (g : Lanes)

theorem silent_slotAt (index : Nat) : (slotAt index : Prog (Slots k v L) _).Silent := by
  intro s
  rw [slotAt, probed]
  split <;> rfl

theorem silent_keyAt (index : Nat) : (keyAt index : Prog (Slots k v L) _).Silent :=
  (silent_slotAt index).bind fun _ => silent_pure _

theorem silent_valueAt (index : Nat) : (valueAt index : Prog (Slots k v L) _).Silent :=
  (silent_slotAt index).bind fun _ => silent_pure _

theorem silent_update (index : Nat) (f : Slot k v → Slot k v) :
    (update index f : Prog (Slots k v L) _).Silent :=
  (silent_require _ _).bind fun _ => silent_modify _

theorem silent_exchangeKey (index : Nat) (current new : Word k) :
    (exchangeKey index current new : Prog (Slots k v L) _).Silent := by
  refine (silent_keyAt index).bind fun key => ?_
  split
  · exact (silent_update _ _).bind fun _ => silent_pure _
  · exact silent_pure _

theorem silent_overwriteAt (index : Nat) (key : Word k) (value : Word v) : (do
    if ← exchangeKey index key key then
      setValue index value
      return true
    else
      return false : Prog (Slots k v L) Bool).Silent := by
  refine (silent_exchangeKey index key key).bind fun done => ?_
  split
  · exact (silent_update _ _).bind fun _ => silent_pure _
  · exact silent_pure _

theorem silent_valueOf (index : Nat) (key : Word k) :
    (valueOf index key : Prog (Slots k v L) _).Silent := by
  refine (silent_keyAt index).bind fun found => ?_
  split
  · exact silent_pure _
  · exact (silent_valueAt index).bind fun _ => (silent_keyAt index).bind fun _ => silent_pure _

theorem silent_publish (r : ReservedKeys k) (index : Nat) (key : Word k) (value : Word v) :
    (publish g r index key value : Prog (Slots k v L) _).Silent :=
  Silent.bind (g.silent_elect fun _ => (silent_update _ _).bind fun _ =>
    (silent_update _ _).bind fun _ => silent_update _ _) fun _ => silent_pause

/-- A poll looks at each candidate. -/
theorem probed_pollKey {α : Type} (key : Word k) (candidates : Mask)
    {f : Mask → Prog (Slots k v L) α} (hf : ∀ m, (f m).Silent) (t : Slots k v L) :
    (pollKey g key candidates >>= f).probed t = candidates.count := by
  have hvote : ∀ i, (if candidates.has i then do return (← keyAt i) == key else return false :
      Prog (Slots k v L) Bool).Silent := by
    intro i
    split
    · exact (silent_keyAt i).bind fun _ => silent_pure _
    · exact silent_pure _
  rw [probed_bind_silent hf, pollKey, probed_bind_silent (p := probe candidates.count) fun _ =>
    (g.silent_poll hvote).bind fun _ => silent_pause.bind fun _ => silent_pure _]
  rfl

theorem probed_find? (key : Word k) (candidates : Mask) (t : Slots k v L) :
    (find? g key candidates).probed t = candidates.count :=
  probed_pollKey g key candidates (fun _ => silent_findSomeM? (fun _ =>
    g.silent_elect fun _ => silent_valueOf _ _) _) t

theorem probed_actOnKey (key : Word k) (candidates : Mask) {act : Nat → Prog (Slots k v L) Bool}
    (hact : ∀ i, (act i).Silent) (t : Slots k v L) :
    (actOnKey g key candidates act).probed t = candidates.count := by
  refine probed_pollKey g key candidates (fun _ => silent_findSomeM? (fun index => ?_) _) t
  refine (g.silent_elect fun _ => hact _).bind fun done => ?_
  split
  · exact silent_pause.bind fun _ => silent_pure _
  · exact silent_pure _

end Slots

namespace Config

variable {c : Config k} {s s' : Cells k v c.shape} {b : Fin c.shape.count} {key : Word k}
variable {value : Word v} {replace locked : Bool} (g : Lanes)

/-- What a look at a bucket costs: a scan, and one probe for each slot with the tag of the key. -/
def toll (c : Config k) (s : Cells k v c.shape) (key : Word k) (b : Fin c.shape.count) : Nat :=
  1 + ((s.bucket b).tags.census (Tag.ofKey key)).matching.count

/-- What a search for the key costs: it ends in the primary bucket if the key is there, or if there
is no other bucket. -/
def searchCost (c : Config k) (s : Cells k v c.shape) (key : Word k) : Nat :=
  let cands := c.candidates key
  if cands.secondary = cands.primary ∨ ∃ i, s.key ⟨cands.primary, i⟩ = key then
    c.toll s key cands.primary
  else c.toll s key cands.primary + c.toll s key cands.secondary

theorem pays_claimFirst {expected : Tag} (tag : Tag) {i : Fin c.shape.len.slots} (rest : List Nat)
    (h : s.tag ⟨b, i⟩ = expected) :
    (c.atTags b (Tags.claimFirst g expected tag (i.val :: rest))).Pays s 1 (some i.val)
      (s.putTag ⟨b, i⟩ tag) :=
  (Tags.pays_claimFirst g tag i.isLt rest h).zoom (l := Cells.tagsLens b)

/-! ## A pass -/

theorem pays_scan (b : Fin c.shape.count) (tag : Tag) :
    (c.atTags b (Tags.scan g tag)).Pays s 1 ((s.bucket b).tags.census tag) s :=
  (Tags.pays_scan g tag _).zoom_same (l := Cells.tagsLens b)

theorem probed_lookFor (g : Group) (census : Census) (s : Cells k v c.shape) :
    (c.lookFor g b key value census replace).probed s = census.matching.count := by
  rw [lookFor]
  split
  · rename_i hz
    rw [beq_iff_eq.1 hz, Mask.count_zero]
    rfl
  · rw [probed_bind_silent fun _ => silent_pure _, atSlots, probed_zoom]
    cases replace with
    | true =>
      exact Slots.probed_actOnKey g.toLanes key census.matching
        (fun index => Slots.silent_overwriteAt index key value) _
    | false => exact Slots.probed_pollKey g.toLanes key census.matching (fun _ => silent_pure _) _

/-- What follows a claim costs nothing. -/
theorem silent_claimed (g : Lanes) (b : Fin c.shape.count) (key : Word k) (value : Word v)
    (claimed : Option Nat) :
    (match claimed with
      | none => pure false
      | some index => do
        c.atSlots b (Slots.publish g c.reserved index key value)
        return true : Prog (Cells k v c.shape) Bool).Silent := by
  cases claimed with
  | none => exact silent_pure _
  | some index => exact (Silent.zoom _ (Slots.silent_publish g _ _ _ _)).bind fun _ => silent_pure _

/-- A bucket with room, seen as it is, gives up a slot at the first attempt. -/
theorem pays_place (g : Group) (key : Word k) (value : Word v) (hroom : ¬ Crowded s b) :
    ∃ s', (c.place g b key value ((s.bucket b).tags.census (Tag.ofKey key))).Pays s 1 true s' := by
  have hfree : ((s.bucket b).tags.census (Tag.ofKey key)).free ≠ 0 := fun hz =>
    hroom (crowded_of_free_eq_zero hz)
  have hplaced : (c.place g b key value ((s.bucket b).tags.census (Tag.ofKey key))).Ensures
      (World.alone _) (fun _ _ _ => False) () s fun placed _ _ => placed = true :=
    place_ensures g (bounded_census _ _) (fun _ _ => ⟨trivial, fun _ _ _ => rfl⟩)
      fun hmissed => absurd hmissed.free_eq_zero hfree
  obtain ⟨_, s', hsolo, rfl⟩ := hplaced.solo_ok
  refine ⟨s', hsolo, ?_⟩
  have htail := silent_claimed (c := c) g.toLanes b key value
  rw [place, if_neg (by simpa using hfree)]
  cases htomb : ((s.bucket b).tags.census (Tag.ofKey key)).tombstone.indices with
  | cons n rest =>
    obtain ⟨hn, htag⟩ := (Tags.mem_tombstone (s.bucket b).tags (Tag.ofKey key)).1
      (htomb ▸ List.mem_cons_self ..)
    have hclaim := pays_claimFirst g.toLanes (b := b) (s := s) (Tag.ofKey key) (i := ⟨n, hn⟩) rest
      htag
    rw [← htomb] at hclaim
    exact (Pays.probed_bind hclaim).trans (congrArg (1 + ·) (htail (some n) _))
  | nil =>
    have hnone : (c.atTags b (Tags.claimTombstone g.toLanes (Tag.ofKey key)
        ((s.bucket b).tags.census (Tag.ofKey key)).tombstone)).Pays s 0 none s := by
      rw [Tags.claimTombstone, htomb]
      exact ⟨rfl, rfl⟩
    refine hnone.probed_bind.trans ((Nat.zero_add _).trans ((probed_bind_silent htail s).trans ?_))
    cases hempty : ((s.bucket b).tags.census (Tag.ofKey key)).empty.indices with
    | nil =>
      refine absurd ((Tags.free_eq_zero _ _).2 fun i hi => ⟨fun he => ?_, fun ht => ?_⟩) hfree
      · have hmem := (Tags.mem_empty (s.bucket b).tags (Tag.ofKey key)).2 ⟨hi, he⟩
        exact List.not_mem_nil (hempty ▸ hmem)
      · have hmem := (Tags.mem_tombstone (s.bucket b).tags (Tag.ofKey key)).2 ⟨hi, ht⟩
        exact List.not_mem_nil (htomb ▸ hmem)
    | cons n rest =>
      obtain ⟨hn, htag⟩ := (Tags.mem_empty (s.bucket b).tags (Tag.ofKey key)).1
        (hempty ▸ List.mem_cons_self ..)
      have hclaim := pays_claimFirst g.toLanes (b := b) (s := s) (Tag.ofKey key) (i := ⟨n, hn⟩) rest
        htag
      rw [← hempty] at hclaim
      exact hclaim.probed

theorem pays_lookFor_missing (g : Group) (value : Word v) (replace : Bool) (hs : c.Sound ∅ s)
    (hl : c.Live key) (census : Census)
    (hno : ∀ i, s.key ⟨b, i⟩ ≠ key) :
    (c.lookFor g b key value census replace).Pays s census.matching.count false s :=
  .of_ensures (probed_lookFor g census s) (lookFor_missing g (Company.ground_alone hl) ⟨hs, rfl⟩ hno
    fun _ _ h => ⟨rfl, Company.turn_alone h⟩)

theorem pays_lookFor_found (g : Group) (value : Word v) (replace : Bool) (hs : c.Sound ∅ s)
    (hl : c.Live key)
    {i : Fin c.shape.len.slots} (hkey : s.key ⟨b, i⟩ = key) :
    let census := (s.bucket b).tags.census (Tag.ofKey key)
    ∃ s', (c.lookFor g b key value census replace).Pays s census.matching.count true s' := by
  intro census
  have hmatch : census.matching.has i = true := matching_has (p := ⟨b, i⟩) hs hl hkey
  have hfound : (c.lookFor g b key value census replace).Ensures (World.alone _)
      (fun _ _ _ => False) () s fun found _ _ => found = true :=
    lookFor_found (C := Company.alone c v) (T := ∅) (l := s.locks) g (Company.ground_alone hl)
      ⟨hs, rfl⟩ hkey hmatch fun _ _ _ => rfl
  obtain ⟨_, s', hsolo, rfl⟩ := hfound.solo_ok
  exact ⟨s', hsolo, probed_lookFor g census s⟩

/-- Who has seen the buckets as they are makes one attempt if there is a free slot, and gets it. -/
theorem pays_placeNew (g : Group) (value : Word v) (hs : c.Sound ∅ s)
    {primary secondary : Census} {r r' : Unit}
    (hscan : Scanned (Company.alone c v) key r s primary secondary r' s) :
    ∃ ended s', (ended = .inserted ↔ ¬ (primary.free = 0 ∧ secondary.free = 0)) ∧
      (c.placeNew g key value primary secondary).Pays s (if ended = .inserted then 1 else 0)
        (some ended) s' := by
  have hload : ∀ {census : Census}, Bounded c census →
      (census.load c.shape.len.slots).Pays s 0 (census.occupancy c.shape.len.slots) s := fun h =>
    (load_yields h s).pays ((silent_require _ _).bind fun _ => silent_pure _)
  rw [placeNew]
  by_cases hz : primary.free = 0 ∧ secondary.free = 0
  · rw [if_pos (by rw [hz.1, hz.2]; rfl)]
    exact ⟨.full, s, iff_of_false (by decide) (not_not_intro hz), rfl, rfl⟩
  rw [if_neg (by simpa [-not_and] using hz)]
  obtain ⟨rest, hfirst⟩ := considered_chosen hs hscan
  have hroom : ¬ Crowded s (c.chosen s key) := by
    intro hcrowded
    obtain ⟨hp, hq⟩ := crowded_of_chosen hs hcrowded
    cases hscan with
    | one => exact hz ⟨free_eq_zero_of_crowded hp, rfl⟩
    | two _ h _ =>
      obtain rfl := (Company.turn_alone h).symm
      exact hz ⟨free_eq_zero_of_crowded hp, free_eq_zero_of_crowded hq⟩
  obtain ⟨s', hplace⟩ := pays_place g key value hroom
  refine ⟨.inserted, s', iff_of_true rfl hz, ?_⟩
  rw [if_pos rfl]
  refine (hload hscan.bounded.1).bind (n := 1) ?_
  refine (hload hscan.bounded.2).bind (n := 1) ?_
  have hany : ((considered c key primary secondary).anyM fun x =>
      c.place g x.1 key value x.2).Pays s 1 true s' := by
    rw [hfirst, List.anyM]
    exact hplace.bind (n := 0) ⟨rfl, rfl⟩
  exact hany.bind (n := 0) ⟨rfl, rfl⟩

/-- A look at a bucket takes a scan and the probes of the slots with the tag of the key. -/
theorem pays_look {α : Type} (g : Group) {rest : Census → Bool → Prog (Cells k v c.shape) α}
    {found : Bool} {s₁ : Cells k v c.shape} {n : Nat} {a : α}
    (hlook : (c.lookFor g b key value ((s.bucket b).tags.census (Tag.ofKey key)) replace).Pays s
      ((s.bucket b).tags.census (Tag.ofKey key)).matching.count found s₁)
    (hrest : (rest ((s.bucket b).tags.census (Tag.ofKey key)) found).Pays s₁ n a s') :
    (do
      let census ← c.atTags b (Tags.scan g.toLanes (Tag.ofKey key))
      let found ← c.lookFor g b key value census replace
      rest census found).Pays s (c.toll s key b + n) a s' := by
  rw [toll, Nat.add_assoc]
  exact (pays_scan g.toLanes b _).bind (hlook.bind hrest)

/-- Alone, a pass costs what a search costs, and one probe more if it puts the key in a slot. -/
theorem pays_storePass (g : Group) (value : Word v) (replace : Bool) (hs : c.Sound ∅ s)
    (hl : c.Live key) :
    ∃ ended s', (c.storePass g key value replace).Pays s
      (c.searchCost s key + if ended = .inserted then 1 else 0) (some ended) s' := by
  have hmissing := fun b => pays_lookFor_missing (b := b) g value replace hs hl
    ((s.bucket b).tags.census (Tag.ofKey key))
  have hstay : (Company.alone c v).turn () s () s := rfl
  rw [storePass, searchCost]
  by_cases hp : ∃ i, s.key ⟨(c.candidates key).primary, i⟩ = key
  · obtain ⟨i, hi⟩ := hp
    obtain ⟨s', hlook⟩ := pays_lookFor_found g value replace hs hl hi
    refine ⟨.present, s', ?_⟩
    rw [if_pos (.inr ⟨i, hi⟩), if_neg (by decide)]
    exact pays_look g hlook ⟨rfl, rfl⟩
  have hmiss := hmissing _ fun i hi => hp ⟨i, hi⟩
  by_cases hsame : (c.candidates key).secondary = (c.candidates key).primary
  · obtain ⟨ended, s', -, hnew⟩ := pays_placeNew g value hs (.one hsame hstay)
    refine ⟨ended, s', ?_⟩
    rw [if_pos (.inl hsame)]
    refine pays_look g hmiss ?_
    rw [if_neg (by simp), if_pos hsame]
    exact hnew
  rw [if_neg (not_or.2 ⟨hsame, hp⟩)]
  simp only [if_neg hsame, Nat.add_assoc]
  by_cases hq : ∃ i, s.key ⟨(c.candidates key).secondary, i⟩ = key
  · obtain ⟨i, hi⟩ := hq
    obtain ⟨s', hlook⟩ := pays_lookFor_found g value replace hs hl hi
    refine ⟨.present, s', pays_look g hmiss ?_⟩
    exact pays_look g hlook ⟨rfl, rfl⟩
  · obtain ⟨ended, s', -, hnew⟩ := pays_placeNew g value hs (.two hsame hstay hstay)
    refine ⟨ended, s', pays_look g hmiss ?_⟩
    exact pays_look g (hmissing _ fun i hi => hq ⟨i, hi⟩) hnew

/-! ## A search -/

/-- One bucket of a search. -/
theorem pays_findIn (g : Group) (hs : c.Sound ∅ s) (hl : c.Live key) (b : Fin c.shape.count) :
    ∃ found : Option (Word v), (found.isSome ↔ ∃ i, s.key ⟨b, i⟩ = key) ∧ (do
      let census ← c.atTags b (Tags.scan g.toLanes (Tag.ofKey key))
      if census.matching == 0 then
        return none
      else
        c.atSlots b (Slots.find? g.toLanes key census.matching) :
          Prog (Cells k v c.shape) (Option (Word v))).Pays s (c.toll s key b) found s := by
  have hmatch : ∀ {i}, s.key ⟨b, i⟩ = key →
      ((s.bucket b).tags.census (Tag.ofKey key)).matching.has i = true := fun hi =>
    matching_has (p := ⟨b, _⟩) hs hl hi
  by_cases hz : ((s.bucket b).tags.census (Tag.ofKey key)).matching = 0
  · refine ⟨none, ?_, (pays_scan g.toLanes b _).bind ?_⟩
    · simp only [Option.isSome_none, Bool.false_eq_true, false_iff, not_exists]
      exact fun i hi => matching_ne_zero (hmatch hi) (by simpa using hz)
    · rw [if_pos (by simpa using hz), hz, Mask.count_zero]
      exact pays_pure _ _
  · have hfind : (c.atSlots b (Slots.find? g.toLanes key
        ((s.bucket b).tags.census (Tag.ofKey key)).matching)).Ensures (World.alone _)
        (fun _ _ _ => False) () s fun (found : Option (Word v)) _ s' =>
          s' = s ∧ (found.isSome ↔ ∃ i, s.key ⟨b, i⟩ = key) := by
      refine find_ensures g.toLanes key _ trivial (fun r' s' i h hi => ?_) fun r' s' h hgone => ?_
      · obtain rfl : s' = s := h
        exact ⟨rfl, by simpa using ⟨i, hi⟩⟩
      · obtain rfl : s' = s := h
        refine ⟨rfl, ?_⟩
        simp only [Option.isSome_none, Bool.false_eq_true, false_iff, not_exists]
        exact fun i hi => hgone i (hmatch hi) hi hi
    obtain ⟨found, _, hsolo, rfl, hfound⟩ := hfind.solo_ok
    refine ⟨found, hfound, (pays_scan g.toLanes b _).bind ?_⟩
    rw [if_neg (by simpa using hz)]
    exact ⟨hsolo, (probed_zoom _ _ _).trans (Slots.probed_find? _ _ _ _)⟩

/-- A search bucket by bucket that stops where the key is costs what a search costs, also if it
changes the bucket in which it finds the key. -/
theorem pays_search {α : Type} {look : Fin c.shape.count → Prog (Cells k v c.shape) (Option α)}
    (hlook : ∀ b, ∃ found s', (found.isSome ↔ ∃ i, s.key ⟨b, i⟩ = key) ∧
      (found = none → s' = s) ∧ (look b).Pays s (c.toll s key b) found s') :
    ∃ found s', ((c.candidates key).distinct.findSomeM? look).Pays s (c.searchCost s key) found
      s' := by
  have hone : ∀ {b s n found s'}, (look b).Pays s n found s' →
      ([b].findSomeM? look).Pays s n found s' := by
    intro b s n found s' h
    rw [List.findSomeM?]
    refine h.bind (n := 0) ?_
    cases found <;> exact pays_pure _ s'
  obtain ⟨found, s₁, hfound, hsame₁, hfirst⟩ := hlook (c.candidates key).primary
  rw [Candidates.distinct, searchCost]
  by_cases hsame : (c.candidates key).secondary = (c.candidates key).primary
  · refine ⟨found, s₁, ?_⟩
    rw [if_pos hsame, if_pos (.inl hsame)]
    exact hone hfirst
  rw [if_neg hsame, List.findSomeM?]
  cases found with
  | some x =>
    refine ⟨some x, s₁, ?_⟩
    rw [if_pos (.inr (hfound.1 rfl))]
    exact hfirst.bind (n := 0) (pays_pure _ s₁)
  | none =>
    obtain rfl := hsame₁ rfl
    obtain ⟨found', s₂, -, -, hsecond⟩ := hlook (c.candidates key).secondary
    have hmissing : ¬ ∃ i, s₁.key ⟨(c.candidates key).primary, i⟩ = key := fun h => by
      cases hfound.2 h
    refine ⟨found', s₂, ?_⟩
    rw [if_neg (not_or.2 ⟨hsame, hmissing⟩)]
    exact hfirst.bind (hone hsecond)

theorem probed_find? (g : Group) (hs : c.Sound ∅ s) (hl : c.Live key) :
    (c.find? (v := v) g key).probed s = c.searchCost s key := by
  obtain ⟨found, s', hpays⟩ := pays_search fun b => by
    obtain ⟨found, hfound, hpays⟩ := pays_findIn (v := v) g hs hl b
    exact ⟨found, s, hfound, fun _ => rfl, hpays⟩
  exact hpays.probed

/-! ## A store -/

/-- Locks cost nothing. -/
theorem pays_guarded {α : Type} {body : Prog (Cells k v c.shape) α} {n : Nat} {a : α}
    (hfree : locked = true → s.locks.isLocked (c.candidates key).primary = false)
    (hbody : body.Pays (s.setLocks (c.hold key locked s.locks)) n a s')
    (hlocks : s'.locks = c.hold key locked s.locks) :
    (c.withLocks g (if locked then [(c.candidates key).primary.val] else []) body).Pays s n a
      (s'.setLocks s.locks) := by
  have hb := (c.candidates key).primary.isLt
  let taken := if locked then [(c.candidates key).primary.val] else []
  have hlock : (taken.forM fun b => (Locks.lock g b).zoom Cells.locksLens).Pays s 0 ()
      (s.setLocks (c.hold key locked s.locks)) := by
    refine .of_ensures (silent_forM (fun b => (Locks.silent_lock g b).zoom _) _ s) ?_
    cases locked with
    | false => exact ⟨rfl, s.setLocks_self.symm⟩
    | true => exact Prog.ensures_bind.2 (lock_ensures g hb (hfree rfl) trivial
        fun _ _ h => ⟨rfl, h⟩)
  have hunlock : (taken.forM fun b => (Locks.unlock g b).zoom Cells.locksLens).Pays s' 0 ()
      (s'.setLocks s.locks) := by
    refine .of_ensures (silent_forM (fun b => (Locks.silent_unlock g b).zoom _) _ s') ?_
    cases locked with
    | false =>
      have hsame : s'.locks = s.locks := hlocks
      exact ⟨rfl, hsame ▸ s'.setLocks_self.symm⟩
    | true =>
      have hheld : s'.locks = s.locks.acquire (c.candidates key).primary := hlocks
      refine Prog.ensures_bind.2 (unlock_ensures g hb trivial fun _ s'' h => ⟨?_, rfl, ?_⟩)
      · rw [h, hheld, Locks.isLocked_acquire _ (Locks.covers_of_lt hb)]
        simp
      · rw [h, hheld, Locks.release_acquire (Locks.covers_of_lt hb) (hfree rfl)]
  rw [withLocks, Locks.withLocks, ← Nat.zero_add n]
  refine hlock.bind ?_
  refine hbody.attempt.bind (n := 0) ?_
  refine hunlock.bind (n := 0) ?_
  exact pays_pure a _

/-- **Alone, a store** costs what a search costs, and one probe more if it puts the key in a
slot. -/
theorem pays_store (g : Group) (value : Word v) (replace : Bool) (hg : 0 < g.passes)
    (hs : c.Sound ∅ s) (hl : c.Live key)
    (hfree : locked = true → s.locks.isLocked (c.candidates key).primary = false) :
    ∃ ended s', c.Seated s key value replace ended s' ∧
      (c.store g key value replace locked).Pays s
        (c.searchCost s key + if ended = .inserted then 1 else 0) ended s' := by
  have hs₀ : c.Calm ∅ (c.hold key locked s.locks) (s.setLocks (c.hold key locked s.locks)) :=
    ⟨hs.setLocks _, rfl⟩
  obtain ⟨ended, s', hpass⟩ := pays_storePass g value replace hs₀.sound hl
  have hends : (c.storePass g key value replace).Ensures (World.alone _) (fun _ _ _ => False) ()
      (s.setLocks (c.hold key locked s.locks)) fun stored _ s' => ∃ ended, stored = some ended ∧
        c.Seated (s.setLocks (c.hold key locked s.locks)) key value replace ended s' :=
    (storePass_seated g hs₀ hl).mono_halt fun _ _ _ h => h
  obtain ⟨_, _, hsolo, _, rfl, hseated⟩ := hends.solo_ok
  obtain ⟨n, hn⟩ : ∃ n, g.passes = n + 1 := ⟨g.passes - 1, by omega⟩
  have hended := hpass.solo.symm.trans hsolo
  cases hended
  have hpasses : (c.storePasses g key value replace g.passes).Pays
      (s.setLocks (c.hold key locked s.locks))
      (c.searchCost (s.setLocks (c.hold key locked s.locks)) key +
        if ended = .inserted then 1 else 0) ended s' := by
    rw [hn, storePasses]
    exact hpass.bind (n := 0) (pays_pure _ _)
  refine ⟨ended, s'.setLocks s.locks, hseated.unlock, ?_⟩
  have hrequire := (yields_require (c := c.reserved.isReserved key = false) hl
    (.reservedKey key.toNat) s).pays (silent_require _ _)
  have hall := hrequire.bind (k := fun _ => _) (pays_guarded g.toLanes hfree hpasses
    (hseated.calm hl hs₀).locks)
  rwa [Nat.zero_add] at hall

/-- A store adds an entry only if it puts the key in a slot. -/
theorem Seated.size {ended : Stored} (h : c.Seated s key value replace ended s') (hs : c.Sound ∅ s)
    (hl : c.Live key) :
    s'.size c.reserved = s.size c.reserved + if ended = .inserted then 1 else 0 := by
  cases h with
  | @present p found =>
    have hkept : Kept key value replace s (if replace then s.putSlot p ⟨key, value⟩ else s) :=
      ⟨p, found, rfl⟩
    exact size_congr fun q => by rw [hkept.key_eq q]
  | inserted absent seat =>
    exact size_fill hs (hs.not_live_of_free seat.next.free) value hl
      (seat.bucket ▸ mayLie_chosen s key) absent
  | full => rfl

end Config

/-- With an empty schedule, the tally counts the probes of the program. -/
theorem Scene.tally_probes {α : Type} (c : Config k) (lanes : Lanes)
    (p : Prog (Cells k v c.shape) α) (sc : Scene k v) (s : Cells k v c.shape) :
    (p.exec (env c lanes []) sc s).2.1.tally.probes.probes =
      sc.tally.probes.probes + UInt64.ofNat (p.probed s) := by
  induction p generalizing sc s with
  | done | halt => exact (UInt64.add_zero _).symm
  | read q ih => exact ih s sc s
  | write f p ih => exact ih sc (f s)
  | emit e p ih =>
    cases e with
    | probe n =>
      rw [probed, UInt64.ofNat_add, ← UInt64.add_assoc]
      exact ih (note sc (.probe n)) s
    | _ => exact ih _ s
  | sync p ih => exact ih _ s

namespace Table

open Config

/-- The probes of a call that nobody interferes with. -/
def probes (t : Table k v) (lanes : Lanes) (call : Call k v) : Nat :=
  (call.run t.config { lanes with passes := 1 }).probed t.cells

/-- A table that counts reports them. -/
theorem handle_probes (t : Table k v) (lanes : Lanes) (call : Call k v) (h : t.counting = true) :
    (t.handle lanes [] (.call call)).1.probes = UInt64.ofNat (t.probes lanes call) := by
  have htally := Scene.tally_probes t.config lanes
    (call.run t.config { lanes with passes := 1 }) {} t.cells
  rw [UInt64.zero_add] at htally
  exact (if_pos h).trans htally

/-- What a store comes to, what it says and what it costs. -/
theorem Reachable.store_pays {t : Table k v} (h : t.Reachable) (lanes : Lanes) {key : Word k}
    {value : Word v} {replace : Bool} {call : Call k v} (hcall : call.StoresPair key value replace)
    (hl : t.config.Live key) :
    ∃ ended, t.config.Seated t.cells key value replace ended
        (t.handle lanes [] (.call call)).2.cells ∧
      ((t.handle lanes [] (.call call)).1.isFull = true ↔ ended = .full) ∧
      t.probes lanes call = t.config.searchCost t.cells key +
        if ended = .inserted then 1 else 0 := by
  obtain ⟨locked, reply, hfull, hrun⟩ := hcall.run_eq hl
  obtain ⟨ended, s', hseated, hpays⟩ := pays_store { lanes with passes := 1 } value replace
    Nat.zero_lt_one h.quiet.sound hl fun (_ : locked = true) => h.quiet.unlocked _
  have hsolo : (call.run t.config { lanes with passes := 1 }).solo t.cells =
      (.ok (reply ended), s') := by
    rw [hrun, solo_map, hpays.solo]
    rfl
  obtain ⟨houtcome, -⟩ := handle_solo t lanes call
  rw [hsolo] at houtcome
  refine ⟨ended, ?_, ?_, ?_⟩
  · rw [handle_cells_solo, hsolo]
    exact hseated
  · rw [Report.isFull, houtcome]
    exact hfull ended
  · rw [probes, hrun, map_eq, probed_bind_silent fun _ => silent_pure _, hpays.probed]

/-- **Alone, a store makes as many probes as a search for its key**, and one more if it stores a new
key: it gets the first slot that it tries to claim. -/
theorem Reachable.store_probes {t : Table k v} (h : t.Reachable) (lanes : Lanes) {key : Word k}
    {value : Word v} {replace : Bool} {call : Call k v} (hcall : call.StoresPair key value replace)
    (hl : t.config.Live key) :
    t.probes lanes call = t.probes lanes (.find key) +
      if t.size < (t.handle lanes [] (.call call)).2.size then 1 else 0 := by
  obtain ⟨ended, hseated, -, hstore⟩ := h.store_pays lanes hcall hl
  have hfind : t.probes lanes (.find key) = t.config.searchCost t.cells key := by
    rw [probes, Call.run, map_eq, probed_bind_silent fun _ => silent_pure _]
    exact probed_find? _ h.quiet.sound hl
  have hgrew : t.size < (t.handle lanes [] (.call call)).2.size ↔ ended = .inserted := by
    have hsize := hseated.size h.quiet.sound hl
    refine (iff_of_eq (congrArg (t.cells.size t.config.reserved < ·) hsize)).trans ?_
    split <;> simp [*]
  rw [hstore, hfind]
  simp only [hgrew]

end Table

end TwoChoice
