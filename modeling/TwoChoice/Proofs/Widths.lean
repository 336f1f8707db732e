import TwoChoice.Table
import TwoChoice.Proofs.Watch

/-!
# The width of a group

The number of lanes shows in the votes and elections of a program, and in nothing else. `p.Alike q`:
the programs are the same but for their votes and elections. A poll is alike to a vote on one index
after the other (`Lanes.poll_alike`), and so every call is alike at every width (`Call.run_alike`).
An observer who does not listen to votes and elections sees the same of both, also of the
intrusions at their pauses (`Scene.watch_alike`, `Table.handle_width`).
-/

set_option autoImplicit false

namespace TwoChoice

namespace Prog

variable {σ τ ρ α β γ ι : Type}

/-- The program without its votes and elections. -/
def mute : Prog σ α → Prog σ α
  | .done a => .done a
  | .halt h => .halt h
  | .read k => .read fun s => (k s).mute
  | .write f p => .write f p.mute
  | .emit (.ballot _) p => p.mute
  | .emit (.elect _) p => p.mute
  | .emit e p => .emit e p.mute
  | .sync p => .sync p.mute

/-- The programs are the same but for their votes and elections. -/
def Alike (p q : Prog σ α) : Prop := p.mute = q.mute

theorem Alike.refl (p : Prog σ α) : p.Alike p := Eq.refl _

theorem Alike.symm {p q : Prog σ α} (h : p.Alike q) : q.Alike p := Eq.symm h

theorem Alike.trans {p q q' : Prog σ α} (h : p.Alike q) (h' : q.Alike q') : p.Alike q' :=
  Eq.trans h h'

theorem mute_bind (p : Prog σ α) (k : α → Prog σ β) :
    (p >>= k).mute = p.mute >>= fun a => (k a).mute := by
  rw [bind_eq, bind_eq]
  induction p with
  | done | halt => rfl
  | read q ih => simp only [andThen, mute, ih]
  | write f p ih => simp only [andThen, mute, ih]
  | emit e p ih => cases e <;> simp only [andThen, mute, ih]
  | sync p ih => simp only [andThen, mute, ih]

theorem mute_zoom (l : Lens σ τ) (p : Prog τ α) : (p.zoom l).mute = p.mute.zoom l := by
  induction p with
  | done | halt => rfl
  | read q ih => simp only [zoom, mute, ih]
  | write f p ih => simp only [zoom, mute, ih]
  | emit e p ih => cases e <;> simp only [zoom, mute, ih]
  | sync p ih => simp only [zoom, mute, ih]

theorem mute_attempt (p : Prog σ α) : p.attempt.mute = p.mute.attempt := by
  induction p with
  | done => rfl
  | halt h => cases h <;> rfl
  | read q ih => simp only [attempt, mute, ih]
  | write f p ih => simp only [attempt, mute, ih]
  | emit e p ih => cases e <;> simp only [attempt, mute, ih]
  | sync p ih => simp only [attempt, mute, ih]

theorem detached_mute (p : Prog σ α) : p.mute.detached = p.detached := by
  induction p with
  | done | halt => rfl
  | read q ih => simp only [detached, mute, ih]
  | write f p ih => simp only [detached, mute, ih]
  | emit e p ih => cases e <;> simp only [detached, mute, ih]
  | sync p ih => simp only [detached, mute, ih]

/-! ## Sequences and loops -/

theorem Alike.bind {p q : Prog σ α} {k l : α → Prog σ β} (h : p.Alike q)
    (hk : ∀ a, (k a).Alike (l a)) : (p >>= k).Alike (q >>= l) := by
  rw [Alike, mute_bind, mute_bind, show p.mute = q.mute from h]
  exact bind_congr hk

theorem Alike.map {p q : Prog σ α} (f : α → β) (h : p.Alike q) : (f <$> p).Alike (f <$> q) := by
  rw [map_eq, map_eq]
  exact h.bind fun a => .refl _

theorem Alike.zoom {p q : Prog τ α} (l : Lens σ τ) (h : p.Alike q) :
    (p.zoom l).Alike (q.zoom l) := by
  rw [Alike, mute_zoom, mute_zoom, show p.mute = q.mute from h]

theorem Alike.attempt {p q : Prog σ α} (h : p.Alike q) : p.attempt.Alike q.attempt := by
  rw [Alike, mute_attempt, mute_attempt, show p.mute = q.mute from h]

/-- Seen from outside there are no votes and elections at all. -/
theorem Alike.detached_eq {p q : Prog σ α} (h : p.Alike q) : p.detached = q.detached := by
  rw [← detached_mute p, ← detached_mute q, show p.mute = q.mute from h]

theorem alike_findSomeM? {f f' : ι → Prog σ (Option β)} (h : ∀ a, (f a).Alike (f' a)) :
    ∀ xs : List ι, (xs.findSomeM? f).Alike (xs.findSomeM? f')
  | [] => .refl _
  | a :: xs => by
    rw [List.findSomeM?, List.findSomeM?]
    refine (h a).bind fun r => ?_
    cases r with
    | some b => exact .refl _
    | none => exact alike_findSomeM? h xs

theorem alike_anyM {f f' : ι → Prog σ Bool} (h : ∀ a, (f a).Alike (f' a)) :
    ∀ xs : List ι, (xs.anyM f).Alike (xs.anyM f')
  | [] => .refl _
  | a :: xs => by
    rw [List.anyM, List.anyM]
    refine (h a).bind fun r => ?_
    cases r with
    | true => exact .refl _
    | false => exact alike_anyM h xs

theorem alike_forM {f f' : ι → Prog σ Unit} (h : ∀ a, (f a).Alike (f' a)) :
    ∀ xs : List ι, (xs.forM f).Alike (xs.forM f')
  | [] => .refl _
  | a :: xs => by
    rw [List.forM_eq_forM, List.forM_cons, List.forM_cons]
    exact (h a).bind fun _ => alike_forM h xs

theorem alike_mapM {f f' : ι → Prog σ β} (h : ∀ a, (f a).Alike (f' a)) :
    ∀ xs : List ι, (xs.mapM f).Alike (xs.mapM f')
  | [] => .refl _
  | a :: xs => by
    rw [List.mapM_cons, List.mapM_cons]
    exact (h a).bind fun _ => (alike_mapM h xs).bind fun _ => .refl _

theorem alike_foldlM {f f' : β → ι → Prog σ β} :
    ∀ (xs : List ι) (b : β), (∀ b, ∀ a ∈ xs, (f b a).Alike (f' b a)) →
      (xs.foldlM f b).Alike (xs.foldlM f' b)
  | [], _, _ => .refl _
  | a :: xs, b, h => by
    rw [List.foldlM_cons, List.foldlM_cons]
    refine (h b a (List.mem_cons_self ..)).bind fun b' => ?_
    exact alike_foldlM xs b' fun b x hx => h b x (List.mem_cons_of_mem _ hx)

/-- A loop with another view of what it accumulates. -/
theorem foldlM_view (view : β → γ) (f : β → ι → Prog σ β) (f' : γ → ι → Prog σ γ) :
    ∀ (xs : List ι) (b : β),
      (∀ b, ∀ a ∈ xs, (f b a >>= fun b' => pure (view b')) = f' (view b) a) →
      (xs.foldlM f b >>= fun b' => pure (view b')) = xs.foldlM f' (view b)
  | [], _, _ => rfl
  | a :: xs, b, h => by
    rw [List.foldlM_cons, List.foldlM_cons, ← h b a (List.mem_cons_self ..), bind_assoc, bind_assoc]
    refine bind_congr fun b' => ?_
    rw [pure_bind]
    exact foldlM_view view f f' xs b' fun b x hx => h b x (List.mem_cons_of_mem _ hx)

/-- Rows of equal length one after the other are one long row. -/
theorem foldlM_rows (f : β → Nat → Prog σ β) (width : Nat) (b : β) : ∀ rows : Nat,
    (List.range rows).foldlM (fun b row =>
        (List.range width).foldlM (fun b i => f b (row * width + i)) b) b =
      (List.range (rows * width)).foldlM f b
  | 0 => by rw [Nat.zero_mul]; rfl
  | rows + 1 => by
    rw [List.range_succ, List.foldlM_append, foldlM_rows f width b rows, Nat.add_mul, Nat.one_mul,
      List.range_add, List.foldlM_append]
    refine bind_congr fun b' => ?_
    rw [List.foldlM_cons, List.foldlM_map]
    exact bind_pure _

theorem foldlM_idle {f : β → ι → Prog σ β} {b : β} :
    ∀ xs : List ι, (∀ a ∈ xs, f b a = pure b) → xs.foldlM f b = pure b
  | [], _ => rfl
  | a :: xs, h => by
    rw [List.foldlM_cons, h a (List.mem_cons_self ..), pure_bind]
    exact foldlM_idle xs fun x hx => h x (List.mem_cons_of_mem _ hx)

end Prog

/-! ## Lanes -/

namespace Mask

theorem shiftLeft_or_bit (m : Mask) {base i : Nat} (h : base + i < 64) :
    (m ||| bit i) <<< UInt64.ofNat base = m <<< UInt64.ofNat base ||| bit (base + i) := by
  apply Mask.ext
  intro j hj
  rw [has_shiftLeft _ (by omega) hj, has_or _ _ hj, has_shiftLeft _ (by omega) hj,
    has_or _ _ (by omega), has_bit (by omega) (by omega), has_bit hj h]
  by_cases hb : base ≤ j
  · have hsub : decide (i = j - base) = decide (base + i = j) := decide_eq_decide.2 (by omega)
    simp [hb, hsub]
  · simp [hb, show base + i ≠ j by omega]

end Mask

namespace Lanes

variable {σ α : Type} (g g' : Lanes)

/-- A vote of one index more. -/
def count (vote : Nat → Prog σ Bool) (mask : Mask) (i : Nat) : Prog σ Mask := do
  return if ← vote i then mask ||| Mask.bit i else mask

/-- A vote on every index below `len`, one index after the other. -/
def roll (len : Nat) (vote : Nat → Prog σ Bool) : Prog σ Mask := do
  Prog.require (len ≤ 64) (.pollTooLong len)
  (List.range len).foldlM (count vote) 0

/-- A ballot takes the votes of its stride one after the other. -/
theorem ballot_alike {len : Nat} (hlen : len ≤ 64) (base : Nat) (vote : Nat → Prog σ Bool)
    (mask : Mask) :
    (do
      let votes ← g.ballot fun lane => if base + lane < len then vote (base + lane) else pure false
      return mask ||| votes <<< UInt64.ofNat base : Prog σ Mask).Alike
    ((List.range g.width).foldlM (fun mask lane =>
      if base + lane < len then count vote mask (base + lane) else pure mask) mask) := by
  have hview := Prog.foldlM_view (fun votes : Mask => mask ||| votes <<< UInt64.ofNat base)
    (fun votes lane => do
      return if ← (if base + lane < len then vote (base + lane) else pure false) then
        votes ||| Mask.bit lane else votes)
    (fun mask lane => if base + lane < len then count vote mask (base + lane) else pure mask)
    (List.range g.width) 0 ?_
  · rw [show mask ||| (0 : Mask) <<< UInt64.ofNat base = mask by simp] at hview
    rw [← hview, ballot, bind_assoc]
    exact (Prog.Alike.refl _).bind fun votes => .refl _
  · intro votes lane _
    by_cases h : base + lane < len
    · rw [if_pos h, if_pos h, count, bind_assoc]
      refine bind_congr fun vote => ?_
      rw [pure_bind]
      cases vote with
      | true => rw [if_pos rfl, if_pos rfl, Mask.shiftLeft_or_bit _ (by omega), UInt64.or_assoc]
      | false => rfl
    · rw [if_neg h, if_neg h]
      rfl

/-- A poll votes on one index after the other, whatever the width. -/
theorem poll_alike (len : Nat) (vote : Nat → Prog σ Bool) :
    (g.poll len vote).Alike (roll len vote) := by
  rw [poll, roll]
  by_cases hlen : len ≤ 64
  · refine (Prog.Alike.refl _).bind fun _ => ?_
    have hstrides := Prog.alike_foldlM (List.range (g.strides len)) (0 : Mask) fun mask stride _ =>
      g.ballot_alike hlen (stride * g.width) vote mask
    refine hstrides.trans ?_
    rw [Prog.foldlM_rows (fun mask i => if i < len then count vote mask i else pure mask)]
    obtain ⟨rest, hrest⟩ := Nat.exists_eq_add_of_le (g.le_strides_mul len)
    rw [hrest, List.range_add, List.foldlM_append]
    rw [show (List.range len).foldlM (count vote) (0 : Mask) =
      (List.range len).foldlM (count vote) 0 >>= pure from (bind_pure _).symm]
    refine Prog.Alike.bind (Prog.alike_foldlM _ _ fun mask i hi => ?_) fun mask => ?_
    · rw [if_pos (List.mem_range.1 hi)]
      exact .refl _
    · rw [Prog.foldlM_idle]
      · exact .refl _
      · intro i hi
        obtain ⟨j, -, rfl⟩ := List.mem_map.1 hi
        rw [if_neg (by omega)]
  · rw [Prog.require, if_neg hlen]
    exact .refl _

theorem poll_width (len : Nat) (vote : Nat → Prog σ Bool) :
    (g.poll len vote).Alike (g'.poll len vote) :=
  (g.poll_alike len vote).trans (g'.poll_alike len vote).symm

theorem elect_alike {lane : Nat} (h : lane < g.width) (act : Nat → Prog σ α) :
    (g.elect lane act).Alike (act lane) := by
  rw [elect, Prog.require, if_pos h]
  exact .refl _

theorem elect_owner (i : Nat) (act : Prog σ α) :
    (g.elect (g.owner i) fun _ => act).Alike (g'.elect (g'.owner i) fun _ => act) :=
  (g.elect_alike (g.owner_lt i) _).trans (g'.elect_alike (g'.owner_lt i) fun _ => act).symm

theorem elect_first (act : Prog σ α) :
    (g.elect 0 fun _ => act).Alike (g'.elect 0 fun _ => act) :=
  (g.elect_alike g.pos _).trans (g'.elect_alike g'.pos fun _ => act).symm

end Lanes

/-! ## Buckets and locks -/

namespace Tags

variable {L : BucketLen} (g g' : Lanes)

theorem scan_alike (tag : Tag) : (scan (L := L) g tag).Alike (scan g' tag) :=
  (Prog.Alike.refl _).bind fun _ => (Prog.Alike.refl _).bind fun _ =>
    (g.poll_width g' _ _).bind fun _ => (g.poll_width g' _ _).bind fun _ =>
      (g.poll_width g' _ _).bind fun _ => .refl _

theorem claimFirst_alike (expected tag : Tag) :
    ∀ xs : List Nat, (claimFirst (L := L) g expected tag xs).Alike (claimFirst g' expected tag xs)
  | [] => .refl _
  | index :: rest => by
    refine (Prog.Alike.refl _).bind fun _ => (Prog.Alike.refl _).bind fun _ =>
      (g.elect_owner g' index _).bind fun claimed => ?_
    cases claimed with
    | true => exact .refl _
    | false => exact claimFirst_alike expected tag rest

theorem retag_alike (index : Nat) (tag : Tag) :
    (retag (L := L) g index tag).Alike (retag g' index tag) :=
  (g.elect_owner g' index _).bind fun _ => .refl _

end Tags

namespace Slots

variable {k v : Width} {L : BucketLen} (g g' : Lanes) (r : ReservedKeys k) (key : Word k)
variable (candidates : Mask)

theorem pollKey_alike :
    (pollKey (v := v) (L := L) g key candidates).Alike (pollKey g' key candidates) :=
  (Prog.Alike.refl _).bind fun _ => (g.poll_width g' _ _).bind fun _ => .refl _

theorem find?_alike : (find? (v := v) (L := L) g key candidates).Alike (find? g' key candidates) :=
  (pollKey_alike g g' key candidates).bind fun hits =>
    Prog.alike_findSomeM? (fun index => g.elect_owner g' index _) hits.indices

theorem findIndex?_alike :
    (findIndex? (v := v) (L := L) g key candidates).Alike (findIndex? g' key candidates) :=
  (pollKey_alike g g' key candidates).bind fun _ => .refl _

theorem actOnKey_alike (act : Nat → Prog (Slots k v L) Bool) :
    (actOnKey g key candidates act).Alike (actOnKey g' key candidates act) :=
  (pollKey_alike g g' key candidates).bind fun hits =>
    Prog.alike_findSomeM? (fun index => (g.elect_owner g' index _).bind fun _ => .refl _)
      hits.indices

theorem pollLive_alike : (pollLive (v := v) (L := L) g r).Alike (pollLive g' r) :=
  (Prog.Alike.refl _).bind fun _ => (g.poll_width g' _ _).bind fun _ => .refl _

theorem readPair_alike (index : Nat) :
    (readPair (v := v) (L := L) g r index).Alike (readPair g' r index) :=
  g.elect_owner g' index _

theorem publish_alike (index : Nat) (value : Word v) :
    (publish (L := L) g r index key value).Alike (publish g' r index key value) :=
  (g.elect_owner g' index _).bind fun _ => .refl _

end Slots

namespace Locks

variable {n : Nat} {σ α : Type} (g g' : Lanes)

theorem lock_alike (bucket : Nat) : (lock (n := n) g bucket).Alike (lock g' bucket) :=
  (g.elect_first g' _).bind fun _ => .refl _

theorem unlock_alike (bucket : Nat) : (unlock (n := n) g bucket).Alike (unlock g' bucket) :=
  (Prog.Alike.refl _).bind fun _ => g.elect_first g' _

theorem withLocks_alike (l : Lens σ (Locks n)) (buckets : List Nat) {body body' : Prog σ α}
    (h : body.Alike body') : (withLocks g l buckets body).Alike (withLocks g' l buckets body') :=
  (Prog.alike_forM (fun b => (lock_alike g g' b).zoom l) buckets).bind fun _ =>
    h.attempt.bind fun _ =>
      (Prog.alike_forM (fun b => (unlock_alike g g' b).zoom l) buckets).bind fun _ => .refl _

end Locks

/-! ## Operations -/

namespace Config

variable {k v : Width} {c : Config k} (g g' : Group) (b : Fin c.shape.count)
variable (key oldKey : Word k) (value oldValue : Word v) (replace : Bool)

theorem scan_alike (tag : Tag) :
    (c.atTags (v := v) b (Tags.scan g.toLanes tag)).Alike (c.atTags b (Tags.scan g'.toLanes tag)) :=
  (Tags.scan_alike _ _ tag).zoom _

theorem find?_alike : (c.find? (v := v) g key).Alike (c.find? g' key) := by
  refine Prog.alike_findSomeM? (fun b => (scan_alike g g' b _).bind fun census => ?_) _
  split
  · exact .refl _
  · exact (Slots.find?_alike _ _ key _).zoom _

theorem findAll_alike (keys : List (Word k)) :
    (c.findAll (v := v) g keys).Alike (c.findAll g' keys) :=
  Prog.alike_mapM (find?_alike g g') keys

theorem contains_alike : (c.contains (v := v) g key).Alike (c.contains g' key) :=
  (find?_alike g g' key).bind fun _ => .refl _

theorem lookFor_alike (census : Census) :
    (c.lookFor g b key value census replace).Alike (c.lookFor g' b key value census replace) := by
  rw [lookFor, lookFor]
  split
  · exact .refl _
  · refine Prog.Alike.bind (Prog.Alike.zoom _ ?_) fun _ => .refl _
    split
    · exact Slots.actOnKey_alike _ _ key _ _
    · exact Slots.findIndex?_alike _ _ key _

theorem place_alike (census : Census) :
    (c.place g b key value census).Alike (c.place g' b key value census) := by
  rw [place, place]
  split
  · exact .refl _
  have hpublish : ∀ index, (c.atSlots b (Slots.publish g.toLanes c.reserved index key value)).Alike
      (c.atSlots b (Slots.publish g'.toLanes c.reserved index key value)) := fun index =>
    (Slots.publish_alike _ _ _ key index value).zoom _
  refine ((Tags.claimFirst_alike _ _ _ _ _).zoom _).bind fun claimed => ?_
  cases claimed with
  | some index => exact (hpublish index).bind fun _ => .refl _
  | none =>
    refine ((Tags.claimFirst_alike _ _ _ _ _).zoom _).bind fun claimed => ?_
    cases claimed with
    | some index => exact (hpublish index).bind fun _ => .refl _
    | none => exact .refl _

theorem placeNew_alike (primary secondary : Census) :
    (c.placeNew g key value primary secondary).Alike
      (c.placeNew g' key value primary secondary) := by
  rw [placeNew, placeNew]
  split
  · exact .refl _
  · refine (Prog.Alike.refl _).bind fun _ => (Prog.Alike.refl _).bind fun _ => ?_
    refine (Prog.alike_anyM (fun x => ?_) _).bind fun _ => .refl _
    exact place_alike g g' x.1 key value x.2

theorem storePass_alike :
    (c.storePass g key value replace).Alike (c.storePass g' key value replace) := by
  rw [storePass, storePass]
  refine (scan_alike g g' _ _).bind fun primary => ?_
  refine (lookFor_alike g g' _ key value replace primary).bind fun found => ?_
  split
  · exact .refl _
  split
  · exact placeNew_alike g g' key value _ _
  refine (scan_alike g g' _ _).bind fun secondary => ?_
  refine (lookFor_alike g g' _ key value replace secondary).bind fun found => ?_
  split
  · exact .refl _
  · exact placeNew_alike g g' key value _ _

theorem storePasses_alike : ∀ n : Nat,
    (c.storePasses g key value replace n).Alike (c.storePasses g' key value replace n)
  | 0 => .refl _
  | n + 1 => by
    rw [storePasses, storePasses]
    refine (storePass_alike g g' key value replace).bind fun stored => ?_
    cases stored with
    | some stored => exact .refl _
    | none => exact storePasses_alike n

theorem takeFrom_alike (mark : Word k) (accept : Word v → Bool)
    {after after' : Fin c.shape.count → Nat → Prog (Cells k v c.shape) Unit}
    (h : ∀ b index, (after b index).Alike (after' b index)) :
    (takeFrom g key mark accept after b).Alike (takeFrom g' key mark accept after' b) := by
  rw [takeFrom, takeFrom]
  refine (scan_alike g g' b _).bind fun census => ?_
  split
  · exact .refl _
  · refine ((Slots.actOnKey_alike _ _ key _ _).zoom _).bind fun taken => ?_
    cases taken with
    | none => exact .refl _
    | some index => exact (h b index).bind fun _ => .refl _

theorem erase_alike (wanted : Option (Word v)) (locked : Bool) :
    (c.erase g key wanted locked).Alike (c.erase g' key wanted locked) := by
  rw [erase_eq, erase_eq]
  refine Locks.withLocks_alike _ _ _ _ (Prog.Alike.bind ?_ fun _ => .refl _)
  refine Prog.alike_findSomeM? (fun b => takeFrom_alike g g' b key _ _ fun b index => ?_) _
  exact (Tags.retag_alike _ _ index _).zoom _

theorem handOver_alike :
    (c.handOver g key value oldKey oldValue).Alike (c.handOver g' key value oldKey oldValue) := by
  rw [handOver_eq, handOver_eq]
  refine Prog.Alike.bind ?_ fun _ => .refl _
  refine Prog.alike_findSomeM? (fun b => takeFrom_alike g g' b oldKey _ _ fun b index => ?_) _
  exact ((Tags.retag_alike _ _ index _).zoom _).bind fun _ =>
    (Slots.publish_alike _ _ _ key index value).zoom _

theorem exchange_alike :
    (c.exchange g key value oldKey oldValue replace).Alike
      (c.exchange g' key value oldKey oldValue replace) := by
  rw [exchange, exchange]
  refine (Prog.Alike.refl _).bind fun _ => Locks.withLocks_alike _ _ _ _ ?_
  refine Prog.Alike.bind (Prog.alike_anyM (fun b => ?_) _) fun found => ?_
  · exact (scan_alike g g' b _).bind fun census => lookFor_alike g g' b key value replace census
  · split
    · exact .refl _
    · exact handOver_alike g g' key oldKey value oldValue

theorem pollLive_alike :
    (c.atSlots b (Slots.pollLive (v := v) g.toLanes c.reserved)).Alike
      (c.atSlots b (Slots.pollLive g'.toLanes c.reserved)) :=
  (Slots.pollLive_alike _ _ _).zoom _

theorem readPair_alike (index : Nat) :
    (c.atSlots b (Slots.readPair (v := v) g.toLanes c.reserved index)).Alike
      (c.atSlots b (Slots.readPair g'.toLanes c.reserved index)) :=
  (Slots.readPair_alike _ _ _ index).zoom _

theorem pick_alike (salt : UInt64) : (c.pick (v := v) g key salt).Alike (c.pick g' key salt) := by
  have hend : ∀ live : List (Fin c.shape.count × Nat),
      (live.findSomeM? fun x =>
        c.atSlots (v := v) x.1 (Slots.readPair g.toLanes c.reserved x.2)).Alike
      (live.findSomeM? fun x =>
        c.atSlots x.1 (Slots.readPair g'.toLanes c.reserved x.2)) := fun live =>
    Prog.alike_findSomeM? (fun x => readPair_alike g g' x.1 x.2) live
  rw [pick, pick]
  refine (pollLive_alike g g' _).bind fun primary => ?_
  split
  · simp only [pure_bind]
    split
    · exact .refl _
    · exact hend _
  · refine (pollLive_alike g g' _).bind fun secondary => ?_
    dsimp only
    split
    · exact .refl _
    · exact hend _

theorem pickSmaller_alike : (c.pickSmaller (v := v) g key).Alike (c.pickSmaller g' key) := by
  rw [pickSmaller, pickSmaller]
  refine Prog.Alike.bind (Prog.alike_foldlM _ _ fun smallest b _ => ?_) fun _ => .refl _
  refine (pollLive_alike g g' b).bind fun live => ?_
  exact Prog.alike_foldlM _ _ fun smallest index _ =>
    (readPair_alike g g' b index).bind fun _ => .refl _

variable {g g'} (hpasses : g.passes = g'.passes)
include hpasses

theorem store_alike (locked : Bool) :
    (c.store g key value replace locked).Alike (c.store g' key value replace locked) := by
  rw [store, store, hpasses]
  refine (Prog.Alike.refl _).bind fun _ => ?_
  exact Locks.withLocks_alike _ _ _ _ (storePasses_alike g g' key value replace _)

theorem upsert_alike (locked : Bool) :
    (c.upsert g key value locked).Alike (c.upsert g' key value locked) :=
  (store_alike key value true hpasses locked).bind fun _ => .refl _

theorem insertNew_alike : (c.insertNew g key value).Alike (c.insertNew g' key value) := by
  rw [insertNew, insertNew]
  split
  · exact .refl _
  · exact (store_alike key value false hpasses true).bind fun _ => .refl _

theorem upsertAll_alike (pairs : List (Word k × Word v)) :
    (c.upsertAll g pairs).Alike (c.upsertAll g' pairs) :=
  Prog.alike_foldlM _ _ fun _ x _ => (upsert_alike x.1 x.2 hpasses true).bind fun _ => .refl _

omit hpasses in
/-- Workers have groups of their own, and nobody sees their votes and elections. -/
theorem inChunks_congr {α β : Type} (items : List α) (workers : Nat)
    {work work' : List α → Prog (Cells k v c.shape) β}
    (h : ∀ items, (work items).Alike (work' items)) :
    c.inChunks items workers work = c.inChunks items workers work' := by
  have hwork : ∀ chunk, (work chunk).detached = (work' chunk).detached := fun chunk =>
    (h chunk).detached_eq
  simp only [inChunks, hwork]

end Config

/-- **A call is alike at every width.** -/
theorem Call.run_alike {k v : Width} {c : Config k} (lanes lanes' : Lanes) (passes : Nat)
    (call : Call k v) :
    (call.run c { lanes with passes }).Alike (call.run c { lanes' with passes }) := by
  generalize hg : ({ lanes with passes } : Group) = g
  generalize hg' : ({ lanes' with passes } : Group) = g'
  have hpasses : g.passes = g'.passes := by rw [← hg, ← hg']
  cases call with
  | upsert key value locked => exact (Config.upsert_alike key value hpasses locked).map _
  | insertNew key value => exact (Config.insertNew_alike key value hpasses).map _
  | find key => exact (Config.find?_alike g g' key).map _
  | contains key => exact (Config.contains_alike g g' key).map _
  | erase key locked => exact (Config.erase_alike g g' key none locked).map _
  | erasePair key value => exact (Config.erase_alike g g' key (some value) true).map _
  | exchange key value oldKey oldValue update =>
    exact (Config.exchange_alike g g' key oldKey value oldValue update).map _
  | pick key salt => exact (Config.pick_alike g g' key salt).map _
  | pickSmaller key => exact (Config.pickSmaller_alike g g' key).map _
  | upsertAll pairs => exact (Config.upsertAll_alike hpasses pairs).map _
  | upsertEach pairs =>
    refine (Prog.alike_mapM (fun x => ?_) pairs).map _
    exact Config.upsert_alike x.1 x.2 hpasses true
  | insertEach pairs =>
    refine (Prog.alike_mapM (fun x => ?_) pairs).map _
    exact Config.insertNew_alike x.1 x.2 hpasses
  | findAll keys => exact (Config.findAll_alike g g' keys).map _
  | eraseEach keys =>
    exact (Prog.alike_mapM (fun key => Config.erase_alike g g' key none true) keys).map _
  | pickEach key salts => exact (Prog.alike_mapM (Config.pick_alike g g' key) salts).map _
  | upsertInChunks pairs workers =>
    rw [run, run, Config.upsertInChunks, Config.upsertInChunks,
      Config.inChunks_congr _ _ (Config.upsertAll_alike hpasses)]
    exact .refl _
  | findInChunks keys workers =>
    rw [run, run, Config.findInChunks, Config.findInChunks,
      Config.inChunks_congr _ _ (Config.findAll_alike g g')]
    exact .refl _
  | _ => exact .refl _

/-! ## Runs -/

namespace Prog

variable {ρ σ α : Type}

/-- The surroundings with an observer who does not listen to votes and elections. -/
def Env.deaf (V : Env ρ σ) : Env ρ σ where
  note r
    | .ballot _ | .elect _ => r
    | e => V.note r e
  pause := V.pause

theorem exec_mute (V : Env ρ σ) (p : Prog σ α) (r : ρ) (s : σ) :
    p.mute.exec V.deaf r s = p.exec V.deaf r s := by
  induction p generalizing r s with
  | done | halt => rfl
  | read q ih => exact ih s r s
  | write f p ih => exact ih r (f s)
  | emit e p ih => cases e <;> exact ih _ s
  | sync p ih => exact ih _ _

/-- Who does not listen to votes and elections sees the same of programs that are alike. -/
theorem Alike.exec_deaf {p q : Prog σ α} (h : p.Alike q) (V : Env ρ σ) (r : ρ) (s : σ) :
    p.exec V.deaf r s = q.exec V.deaf r s := by
  rw [← exec_mute V p, show p.mute = q.mute from h, exec_mute]

theorem solo_mute (p : Prog σ α) (s : σ) : p.mute.solo s = p.solo s := by
  induction p generalizing s with
  | done | halt => rfl
  | read q ih => exact ih s s
  | write f p ih => exact ih (f s)
  | emit e p ih => cases e <;> exact ih s
  | sync p ih => exact ih s

theorem Alike.solo {p q : Prog σ α} (h : p.Alike q) (s : σ) : p.solo s = q.solo s := by
  rw [← solo_mute p, show p.mute = q.mute from h, solo_mute]

end Prog

namespace Scene

variable {k v : Width} {c : Config k} (lanes lanes' : Lanes) (schedule : List (Intrusion k v))

theorem deaf_alone (σ : Type) : (Tally.alone σ).deaf = Tally.alone σ := by
  rw [Prog.Env.deaf, Tally.alone, Prog.Env.mk.injEq]
  refine ⟨?_, rfl⟩
  funext t e
  cases e <;> rfl

theorem intrude_width (sc : Scene k v) (s : Cells k v c.shape) (i : Intrusion k v) :
    sc.intrude c lanes s i = sc.intrude c lanes' s i := by
  have hexec := (Call.run_alike (c := c) lanes lanes' 1 i.call).exec_deaf (Tally.alone _) sc.tally s
  rw [deaf_alone] at hexec
  simp only [intrude, hexec]

theorem effect_width (s : Cells k v c.shape) (i : Intrusion k v) :
    i.effect c lanes s = i.effect c lanes' s := by
  simp only [Intrusion.effect, (Call.run_alike (c := c) lanes lanes' 1 i.call).solo s]

/-- The intrusions do the same at every width, and as much is seen of them. -/
theorem watchEnv_width : watchEnv c lanes schedule = watchEnv c lanes' schedule := by
  have hintrude : watchIntrude (v := v) c lanes = watchIntrude c lanes' := by
    funext w s i
    rw [watchIntrude, watchIntrude, intrude_width lanes lanes', effect_width lanes lanes']
  rw [watchEnv, watchEnv, hintrude]

/-- The scene without the votes and elections of the call. -/
def hushed (sc : Scene k v) : Scene k v := { sc with trace := sc.trace.filter (· = .pause) }

theorem hushed_note (sc : Scene k v) (e : Event) :
    (sc.note e).hushed = match e with
      | .ballot _ | .elect _ => sc.hushed
      | e => sc.hushed.note e := by
  cases e <;> simp [note, hushed]

theorem hushed_intrude (sc : Scene k v) (s : Cells k v c.shape) (i : Intrusion k v) :
    sc.hushed.intrude c lanes s i =
      ((sc.intrude c lanes s i).1.hushed, (sc.intrude c lanes s i).2) := by
  simp only [intrude, hushed]
  cases (i.call.locks c).find? fun b => s.locks.isLocked b.val <;> rfl

theorem hushed_intrusions (is : List (Intrusion k v)) (w : Scene k v × List (Sight c v))
    (s : Cells k v c.shape) :
    is.foldl (fun (w, s) i => watchIntrude c lanes w s i) ((w.1.hushed, w.2), s) =
      let after := is.foldl (fun (w, s) i => watchIntrude c lanes w s i) (w, s)
      ((after.1.1.hushed, after.1.2), after.2) := by
  induction is generalizing w s with
  | nil => rfl
  | cons i is ih =>
    rw [List.foldl_cons, List.foldl_cons]
    have hfirst : watchIntrude c lanes (w.1.hushed, w.2) s i =
        (((watchIntrude c lanes w s i).1.1.hushed, (watchIntrude c lanes w s i).1.2),
          (watchIntrude c lanes w s i).2) := by
      simp only [watchIntrude, hushed_intrude]
    dsimp only
    rw [hfirst]
    exact ih _ _

/-- Without the votes and elections, what is written down of a call is what a deaf observer writes
down. -/
theorem watch_hushed (call : Call k v) (s : Cells k v c.shape) :
    (call.run c { lanes with passes := schedule.length + 1 }).exec
        (watchEnv c lanes schedule).deaf ({}, []) s =
      ((watch c lanes schedule call s).1,
        ((watch c lanes schedule call s).2.1.1.hushed, sights c lanes schedule call s),
        (watch c lanes schedule call s).2.2) := by
  refine Prog.exec_map (fun w : Scene k v × List (Sight c v) => (w.1.hushed, w.2))
    (watchEnv c lanes schedule) (watchEnv c lanes schedule).deaf ?_ ?_ _ ({}, []) s
  · intro w e
    show ((w.1.note e).hushed, w.2) = _
    rw [hushed_note]
    cases e <;> rfl
  · intro w s
    have hpause : ({ w.1 with pauses := w.1.pauses + 1, trace := w.1.trace.push .pause } :
        Scene k v).hushed = { w.1.hushed with
          pauses := w.1.hushed.pauses + 1, trace := w.1.hushed.trace.push .pause } := by
      simp [hushed]
    refine (hushed_intrusions lanes _ (_, w.2 ++ [.pause s]) s).symm.trans ?_
    rw [hpause]
    rfl

/-- **A call is watched in the same way at every width**, but for its votes and elections. -/
theorem watch_alike (call : Call k v) (s : Cells k v c.shape) :
    (watch c lanes schedule call s).1 = (watch c lanes' schedule call s).1 ∧
      (watch c lanes schedule call s).2.1.1.hushed =
        (watch c lanes' schedule call s).2.1.1.hushed ∧
      sights c lanes schedule call s = sights c lanes' schedule call s ∧
      (watch c lanes schedule call s).2.2 = (watch c lanes' schedule call s).2.2 := by
  have h := watch_hushed lanes schedule call s
  rw [(Call.run_alike lanes lanes' (schedule.length + 1) call).exec_deaf,
    watchEnv_width lanes lanes', watch_hushed] at h
  simp only [Prod.mk.injEq] at h
  obtain ⟨houtcome, ⟨hscene, hsights⟩, hcells⟩ := h
  exact ⟨houtcome.symm, hscene.symm, hsights.symm, hcells.symm⟩

end Scene

/-- **The width of a group does not show.** Asked the same under the same schedule, a table passes
through the same number of pauses and shows the same cells at each of them; the same intrusions are
carried out and refused with the same outcomes, and the call ends with the same answer, the same
cells, the same probes and the same log records. -/
theorem Table.handle_width {k v : Width} (t : Table k v) (lanes lanes' : Lanes)
    (schedule : List (Intrusion k v)) (call : Call k v) :
    let ended := t.handle lanes schedule (.call call)
    let ended' := t.handle lanes' schedule (.call call)
    ended.2 = ended'.2 ∧ ended.1.outcome = ended'.1.outcome ∧ ended.1.probes = ended'.1.probes ∧
      ended.1.records = ended'.1.records ∧ ended.1.intruded = ended'.1.intruded ∧
      ended.1.trace.count .pause = ended'.1.trace.count .pause ∧
      Scene.sights t.config lanes schedule call t.cells =
        Scene.sights t.config lanes' schedule call t.cells := by
  intro ended ended'
  obtain ⟨houtcome, hscene, hsights, hcells⟩ :=
    Scene.watch_alike lanes lanes' schedule call t.cells
  -- the parts of a scene that the report tells of, but for the pauses in the trace
  have htally := congrArg Scene.tally hscene
  have hintruded := congrArg Scene.intruded hscene
  have htrace := congrArg Scene.trace hscene
  simp only [Scene.hushed] at htally hintruded htrace
  have hcount := congrArg (fun acts : Array Act => acts.toList.count Act.pause) htrace
  simp only [Array.toList_filter] at hcount
  rw [List.count_filter (by simp), List.count_filter (by simp)] at hcount
  simp only [ended, ended', handle, Scene.watch_eq_run]
  refine ⟨?_, ?_, ?_, ?_, ?_, hcount, hsights⟩
  · rw [hcells]
  · rw [houtcome]
  · rw [htally]
  · rw [htally]
  · rw [hintruded]

end TwoChoice
