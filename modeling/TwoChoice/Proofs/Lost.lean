import TwoChoice.Proofs.Full
import TwoChoice.Proofs.Inert

/-!
# Lost passes

A pass of a store is lost if it finds free slots and gets none of them. It is lost for a reason
(`Scene.Lost`): the buckets that it considered had free slots when it looked at them, and each of
these slots was claimed since, for a new key of an intrusion (`Scene.Claimed`). Nothing but the
insertion of a new key makes a free slot a taken one (`Follows.claimed`), so a slot that was claimed
and freed again is accounted for as well. A claim adds an entry, so in a lost pass some intrusion
leaves more entries than it found (`Scene.arrivals`, `Lost.arrives`).

The company of the pass are bystanders (`Scene.bystanders`): calls on single keys that store or remove
other keys than its own. `run_storePass_absent` follows a pass over an absent key among them.
-/

set_option autoImplicit false

namespace TwoChoice

variable {k v : Width}

open Config

/-! ## The parts of a pass -/

namespace Config

variable {c : Config k} {key : Word k}

/-- A look of a pass at a bucket: the ballots of a scan, and whether the key is in the bucket. -/
def look (c : Config k) (g : Group) (key : Word k) (value : Word v) (replace : Bool)
    (b : Fin c.shape.count) : Prog (Cells k v c.shape) (Census × Bool) := do
  let ballots ← c.atTags b (Tags.scan g.toLanes (Tag.ofKey key))
  let found ← c.lookFor g b key value ballots replace
  return (ballots, found)

/-- A pass looks at its buckets, and places the key if it is in neither of them. -/
theorem storePass_eq (g : Group) (value : Word v) (replace : Bool) :
    c.storePass g key value replace = (do
      let (primary, found) ← c.look g key value replace (c.candidates key).primary
      if found then
        return some .present
      else if (c.candidates key).secondary = (c.candidates key).primary then
        c.placeNew g key value primary {}
      else
        let (secondary, found) ← c.look g key value replace (c.candidates key).secondary
        if found then
          return some .present
        else
          c.placeNew g key value primary secondary) := by
  simp only [storePass, look, bind_assoc, pure_bind]

/-- A look for an absent key does not find it. -/
theorem look_ensures {γ : Type} {C : Company c v γ} {T : Set (Place c.shape)}
    {l : Locks c.shape.count} {r : γ} {s : Cells k v c.shape} (g : Group) (value : Word v)
    (replace : Bool) (hG : C.Ground T l key) (hs : c.Calm T l s) (habs : s.Absent key)
    (b : Fin c.shape.count) :
    (c.look g key value replace b).Ensures C.toWorld Never r s fun answer r' s' =>
      answer = ((s.bucket b).tags.census (Tag.ofKey key), false) ∧ C.turn r s r' s' := by
  rw [look, Prog.ensures_bind]
  refine scan_ensures g.toLanes _ (hG.ready _ _ hs) fun r₁ s₁ h₁ => ?_
  rw [Prog.ensures_bind]
  refine lookFor_missing g hG (Company.turn_calm hs h₁) (fun i => hG.absent hs h₁ habs _)
    fun r₂ s₂ h₂ => ⟨rfl, C.trans h₁ h₂⟩

end Config

/-- A call that adds to the table, and is not a bulk call, stores the key that it writes. -/
theorem Call.Adds.storesKey {x : Call k v} (h : x.Adds) (hx : ¬ x.Bulk) {key : Word k}
    (hk : key ∈ x.writes) : x.StoresKey key := by
  cases x with
  | upsert | insertNew => exact (List.mem_singleton.1 hk).symm
  | upsertAll | upsertEach | insertEach | upsertInChunks => exact absurd trivial hx
  | _ => exact h.elim

namespace Scene

variable {c : Config k} {lanes : Lanes} {schedule : List (Intrusion k v)}

/-! ## What intrusions do to free slots -/

/-- An intrusion on single keys takes no free slot, or it gives one new key its seat. -/
theorem effect_cases (lanes : Lanes) {s : Cells k v c.shape} {i : Intrusion k v} (hi : ¬ i.call.Bulk)
    (hs : c.Sound ∅ s) :
    Spares (· ∈ i.call.writes) s (i.effect c lanes s).2 ∨
      i.call.Adds ∧ Added c (· ∈ i.call.writes) s (i.effect c lanes s).2 := by
  rw [Intrusion.effect]
  cases hf : (i.call.locks c).find? fun b => s.locks.isLocked b.val with
  | some b => exact .inl .refl
  | none =>
    refine i.call.solo_cases hi Nat.zero_lt_one hs fun b hb => ?_
    simpa using List.find?_eq_none.1 hf b hb

/-- The slot is free, and later an intrusion stores a new key in it. -/
inductive Claimed (p : Place c.shape) : Cells k v c.shape → List (Sight c v) → Prop
  | here {s : Cells k v c.shape} {i : Intrusion k v} {outcome : Except Halt (Reply k v)}
    {new : Word k} {value : Word v} {rest : List (Sight c v)} (free : s.Free p)
    (stores : i.call.StoresKey new) (live : c.Live new) (absent : s.Absent new)
    (bucket : c.MayLie new p.bucket) :
    Claimed p s (.intrusion i outcome (s.fill p new value) :: rest)
  | later {s : Cells k v c.shape} {x : Sight c v} {rest : List (Sight c v)}
    (tail : Claimed p x.cells rest) : Claimed p s (x :: rest)

/-- The number of intrusions that left more entries than they found. -/
def arrivals (c : Config k) : Cells k v c.shape → List (Sight c v) → Nat
  | _, [] => 0
  | _, .pause s' :: rest => arrivals c s' rest
  | s, .intrusion _ _ s' :: rest =>
    (if s.size c.reserved < s'.size c.reserved then 1 else 0) + arrivals c s' rest

/-- The keys that the intrusions may store or remove. -/
def stirred (schedule : List (Intrusion k v)) (key : Word k) : Prop :=
  ∃ i ∈ schedule, key ∈ i.call.writes

section
variable (hbulk : ∀ i ∈ schedule, ¬ i.call.Bulk) {s s' : Cells k v c.shape}
variable {seen seen' : List (Sight c v)} {p : Place c.shape}

theorem effect_stirs (lanes : Lanes) {i : Intrusion k v} (hi : ¬ i.call.Bulk) (hmem : i ∈ schedule)
    (hs : c.Sound ∅ s) : c.Deeds (stirred schedule) s (i.effect c lanes s).2 := by
  have hmay : ∀ key, key ∈ i.call.writes → stirred schedule key := fun key hk => ⟨i, hmem, hk⟩
  rcases effect_cases lanes hi hs with hspares | ⟨-, hadded⟩
  · exact hspares.deeds.mono hmay
  · exact hadded.deeds.mono hmay

include hbulk

theorem Follows.stirs (h : Follows c lanes schedule s seen s') (hs : c.Sound ∅ s) :
    c.Deeds (stirred schedule) s s' := by
  induction h with
  | nil => exact .refl
  | pause _ ih => exact ih hs
  | @intrusion _ s i _ _ mem _ _ ih =>
    have hd := effect_stirs lanes (hbulk i mem) mem hs
    exact hd.trans (ih (Deeds.sound hd hs))

/-- **A free slot whose tag has changed was claimed.** -/
theorem Follows.claimed (h : Follows c lanes schedule s seen s') (hs : c.Sound ∅ s)
    (hfree : s.Free p) (hne : s'.tag p ≠ s.tag p) : Claimed p s seen := by
  induction h with
  | nil => exact absurd rfl hne
  | pause _ ih => exact .later (ih hs hfree hne)
  | @intrusion _ s i rest _ mem _ _ ih =>
    have hs' := Deeds.sound (effect_stirs lanes (hbulk i mem) mem hs) hs
    have hstays : (i.effect c lanes s).2.tag p = s.tag p → Claimed p s
        (.intrusion i (i.effect c lanes s).1 (i.effect c lanes s).2 :: rest) := fun htag =>
      .later (ih hs' (by rwa [Cells.Free, htag]) (by rwa [htag]))
    rcases effect_cases lanes (hbulk i mem) hs with hspares | ⟨hadds, hadded⟩
    · exact hstays (hspares.free p hfree)
    generalize (i.effect c lanes s).2 = after at hadded hstays ⊢
    cases hadded with
    | kept _ _ tags => exact hstays (tags p)
    | @seated q new value allowed live absent seat =>
      by_cases hpq : q = p
      · subst hpq
        exact .here hfree (hadds.storesKey (hbulk i mem) allowed) live absent
          (seat.bucket ▸ mayLie_chosen s new)
      · exact hstays (by rw [Cells.tag_fill, if_neg hpq])

end

/-! ### Counting arrivals -/

section
variable {s s' : Cells k v c.shape} {seen seen' : List (Sight c v)} {p : Place c.shape}

theorem arrivals_le_intrusions (s : Cells k v c.shape) (seen : List (Sight c v)) :
    arrivals c s seen ≤ (intrusions seen).length := by
  induction seen generalizing s with
  | nil => exact Nat.le_refl 0
  | cons x rest ih =>
    cases x with
    | pause s' => exact ih s'
    | intrusion i outcome s' =>
      have hle := ih s'
      show (if _ then 1 else 0) + _ ≤ (intrusions rest).length + 1
      split <;> omega

theorem arrivals_setLocks (s : Cells k v c.shape) (l : Locks c.shape.count) :
    arrivals c (s.setLocks l) seen = arrivals c s seen := by
  cases seen with
  | nil => rfl
  | cons x rest => cases x <;> rfl

theorem arrivals_le_append (s : Cells k v c.shape) (seen seen' : List (Sight c v)) :
    arrivals c s seen ≤ arrivals c s (seen ++ seen') := by
  induction seen generalizing s with
  | nil => exact Nat.zero_le _
  | cons x rest ih =>
    cases x with
    | pause s' => exact ih s'
    | intrusion _ _ s' => exact Nat.add_le_add_left (ih s') _

theorem Follows.arrivals_append (h : Follows c lanes schedule s seen s') :
    arrivals c s (seen ++ seen') = arrivals c s seen + arrivals c s' seen' := by
  induction h with
  | nil => exact (Nat.zero_add _).symm
  | pause _ ih => exact ih
  | intrusion _ _ _ ih => exact (congrArg (_ + ·) ih).trans (Nat.add_assoc ..).symm

theorem Follows.sound {i : Intrusion k v} {outcome : Except Halt (Reply k v)}
    {after : Cells k v c.shape}
    (h : Follows c lanes schedule s (.intrusion i outcome after :: seen) s') :
    ∃ T, c.Sound T s := by
  generalize hseen : Sight.intrusion i outcome after :: seen = all at h
  cases h with
  | nil | pause => cases hseen
  | intrusion _ sound _ => exact ⟨_, sound⟩

/-- A claim is an arrival. -/
theorem Claimed.arrives (h : Claimed p s seen) (hf : Follows c lanes schedule s seen s') :
    0 < arrivals c s seen := by
  induction h generalizing s' with
  | @here s _ _ new value _ free _ live absent bucket =>
    obtain ⟨T, hs⟩ := hf.sound
    have hsize := size_fill hs (hs.not_live_of_free free) value live bucket absent
    rw [arrivals, if_pos (by omega)]
    exact Nat.add_pos_left Nat.one_pos _
  | later _ ih =>
    cases hf with
    | pause tail => exact ih tail
    | intrusion _ _ tail => exact Nat.add_pos_right _ (ih tail)

end

/-! ## Bystanders -/

/-- The company of a call that the intrusions of a schedule leave alone: they are calls on single
keys, and none of them stores or removes its key. Any other key will do, also a reserved one. -/
def bystanders (c : Config k) (lanes : Lanes) (schedule : List (Intrusion k v)) :
    Company c v (List (Sight c v)) where
  ready _ s := c.Sound ∅ s
  turn seen s seen' s' :=
    Onward c lanes schedule seen s seen' s' ∧ c.Deeds (stirred schedule) s s'
  may _ := stirred schedule
  left seen := schedule.length - (intrusions seen).length
  refl seen s := ⟨.refl seen s, .refl⟩
  trans h h' := ⟨h.1.trans h'.1, h.2.trans h'.2⟩
  deeds h := h.2
  spent h := h.1.spent

section
variable (lanes) (hbulk : ∀ i ∈ schedule, ¬ i.call.Bulk) {key : Word k} {l : Locks c.shape.count}
variable {s s' : Cells k v c.shape} {seen seen' : List (Sight c v)}

theorem ground_bystanders (hl : c.Live key) (hapart : ∀ i ∈ schedule, key ∉ i.call.writes) :
    (bystanders c lanes schedule).Ground ∅ l key where
  live := hl
  kept h := by
    obtain ⟨i, hi, hk⟩ := h
    exact hapart i hi hk
  ready _ _ hs := hs.sound

theorem tag_ne_of_missed {b : Fin c.shape.count} {tag : Tag} {i : Fin c.shape.len.slots}
    (h : Missed s' b ((s.bucket b).tags.census tag)) (hfree : s.Free ⟨b, i⟩) :
    s'.tag ⟨b, i⟩ ≠ s.tag ⟨b, i⟩ := by
  rcases hfree with he | ht
  · rw [he]
    exact h.empty i (Mask.mem_indices.1 ((Tags.mem_empty _ _).2 ⟨i.isLt, he⟩)).2
  · rw [ht]
    exact h.tombstone i (Mask.mem_indices.1 ((Tags.mem_tombstone _ _).2 ⟨i.isLt, ht⟩)).2

theorem primary_mem_considered (key : Word k) (primary secondary : Census) :
    ((c.candidates key).primary, primary) ∈ considered c key primary secondary := by
  rw [considered, preference]
  split
  · exact List.mem_singleton_self _
  · split <;> simp

include hbulk

theorem steady_bystanders : Steady c lanes schedule (c.Sound ∅ : Cells k v c.shape → Prop) :=
  ⟨fun _ hs => ⟨∅, hs⟩, fun i hi _ hs => Deeds.sound (effect_stirs lanes (hbulk i hi) hi hs) hs⟩

theorem turn_bystanders (hs : c.Sound ∅ s) (h : Onward c lanes schedule seen s seen' s') :
    (bystanders c lanes schedule).turn seen s seen' s' := by
  refine ⟨h, ?_⟩
  obtain ⟨new, -, hf, -⟩ := h
  exact hf.stirs hbulk hs

/-- What a program ensures among bystanders holds at the end of its watched run. -/
theorem exec_bystanders {α : Type} {p : Prog (Cells k v c.shape) α}
    {w : Scene k v × List (Sight c v)} {Q : α → List (Sight c v) → Cells k v c.shape → Prop}
    (hw : Recorded schedule (c.Sound ∅) w)
    (h : p.Ensures (bystanders c lanes schedule).toWorld Never w.2 s Q) :
    ∃ a w' s', p.exec (watchEnv c lanes schedule) w s = (.ok a, w', s') ∧
      Recorded schedule (c.Sound ∅) w' ∧ Q a w'.2 s' := by
  obtain ⟨hrecorded, hend⟩ := hw.exec (steady_bystanders lanes hbulk) (fun _ _ hs => hs)
    (fun _ _ _ _ => turn_bystanders lanes hbulk) h
  split at hend
  · rename_i a w' s' heq
    rw [heq] at hrecorded
    exact ⟨a, w', s', heq, hrecorded, hend⟩
  · exact hend.elim

end

/-! ## Lost passes -/

/-- A moment of a watched run: the scene, what was seen so far, and the table. -/
abbrev Moment (c : Config k) (v : Width) : Type :=
  (Scene k v × List (Sight c v)) × Cells k v c.shape

/-- Runs a program from a moment on and watches it. -/
def Moment.run {α : Type} (x : Moment c v) (lanes : Lanes) (schedule : List (Intrusion k v))
    (p : Prog (Cells k v c.shape) α) : Except Halt α × Moment c v :=
  p.exec (watchEnv c lanes schedule) x.1 x.2

theorem Moment.run_bind {α β : Type} (x : Moment c v) (p : Prog (Cells k v c.shape) α)
    (f : α → Prog (Cells k v c.shape) β) :
    x.run lanes schedule (p >>= f) =
      match x.run lanes schedule p with
      | (.ok a, y) => y.run lanes schedule (f a)
      | (.error h, y) => (.error h, y) := by
  simp only [Moment.run, Prog.exec_bind]
  generalize p.exec _ _ _ = after
  obtain ⟨_ | a, r, s⟩ := after <;> rfl

theorem Moment.run_attempt {α : Type} (x : Moment c v) (p : Prog (Cells k v c.shape) α) :
    x.run lanes schedule p.attempt =
      match x.run lanes schedule p with
      | (.ok a, y) => (.ok (.ok a), y)
      | (.error (.fault f), y) => (.ok (.error f), y)
      | (.error h, y) => (.error h, y) := by
  simp only [Moment.run, Prog.exec_attempt]
  generalize p.exec _ _ _ = after
  obtain ⟨(_ | _ | _) | a, r, s⟩ := after <;> rfl

/-- What was seen from one moment to another, while only others changed the table. -/
structure Between (lanes : Lanes) (schedule : List (Intrusion k v)) (x : Moment c v)
    (new : List (Sight c v)) (y : Moment c v) : Prop where
  seen : y.1.2 = x.1.2 ++ new
  follows : Follows c lanes schedule x.2 new y.2

/-- The looks of a pass that finds its key nowhere: the ballots of both buckets, and the moment
after each look. A bucket that is its own alternative is looked at once. -/
inductive Looked (lanes : Lanes) (schedule : List (Intrusion k v)) (key : Word k) (value : Word v)
    (replace : Bool) (x : Moment c v) : Census → Moment c v → Census → Moment c v → Prop
  | one {primary : Census} {y : Moment c v}
    (same : (c.candidates key).secondary = (c.candidates key).primary)
    (look : x.run lanes schedule (c.look { lanes with } key value replace
      (c.candidates key).primary) = (.ok (primary, false), y)) :
    Looked lanes schedule key value replace x primary y {} y
  | two {primary secondary : Census} {y z : Moment c v}
    (other : (c.candidates key).secondary ≠ (c.candidates key).primary)
    (first : x.run lanes schedule (c.look { lanes with } key value replace
      (c.candidates key).primary) = (.ok (primary, false), y))
    (second : y.run lanes schedule (c.look { lanes with } key value replace
      (c.candidates key).secondary) = (.ok (secondary, false), z)) :
    Looked lanes schedule key value replace x primary y secondary z

/-- A pass lost every slot, from its first look to its end: the buckets that it considered had free
slots in its ballots, and each of those was claimed between its scan and the end of the pass. The
primary bucket is scanned at the beginning, and the secondary one when the first look is over. -/
inductive Lost (lanes : Lanes) (schedule : List (Intrusion k v)) (key : Word k) (value : Word v)
    (replace : Bool) (x : Moment c v) : Moment c v → Prop
  | intro {primary secondary : Census} {y z last : Moment c v} {first second : List (Sight c v)}
    (looked : Looked lanes schedule key value replace x primary y secondary z)
    (attempt : z.run lanes schedule (c.placeNew { lanes with } key value primary secondary) =
      (.ok none, last))
    (before : Between lanes schedule x first y) (since : Between lanes schedule y second last)
    (room : ∃ b ∈ considered c key primary secondary, ∃ i : Fin c.shape.len.slots,
      b.2.free.has i = true)
    (claimed : ∀ i : Fin c.shape.len.slots, primary.free.has i = true →
      Claimed ⟨(c.candidates key).primary, i⟩ x.2 (first ++ second))
    (claimed' : ((c.candidates key).secondary, secondary) ∈ considered c key primary secondary →
      ∀ i : Fin c.shape.len.slots, secondary.free.has i = true →
        Claimed ⟨(c.candidates key).secondary, i⟩ y.2 second) :
    Lost lanes schedule key value replace x last

section
variable {x y z : Moment c v} {first second : List (Sight c v)} {key : Word k} {value : Word v}
variable {replace : Bool} {primary secondary : Census}

theorem Between.refl (x : Moment c v) : Between lanes schedule x [] x :=
  ⟨(List.append_nil _).symm, .nil⟩

theorem Between.append (h : Between lanes schedule x first y)
    (h' : Between lanes schedule y second z) : Between lanes schedule x (first ++ second) z :=
  ⟨by rw [h'.seen, h.seen, List.append_assoc], h.follows.append h'.follows⟩

/-- After its looks, a pass is the placement. -/
theorem Looked.run_storePass (h : Looked lanes schedule key value replace x primary y secondary z) :
    x.run lanes schedule (c.storePass { lanes with } key value replace) =
      z.run lanes schedule (c.placeNew { lanes with } key value primary secondary) := by
  rw [storePass_eq, Moment.run_bind]
  cases h with
  | one same look =>
    rw [look]
    show y.run lanes schedule (if _ then _ else _) = _
    rw [if_neg (by simp), if_pos same]
  | two other first second =>
    rw [first]
    show y.run lanes schedule (if _ then _ else _) = _
    rw [if_neg (by simp), if_neg other, Moment.run_bind, second]
    show z.run lanes schedule (if _ then _ else _) = _
    rw [if_neg (by simp)]

/-- In a lost pass a new key arrives. -/
theorem Lost.arrives (h : Lost lanes schedule key value replace x z) :
    ∃ seen, Between lanes schedule x seen z ∧ 0 < arrivals c x.2 seen := by
  cases h with
  | @intro _ _ _ _ _ first second _ _ before since room claimed claimed' =>
    refine ⟨_, before.append since, ?_⟩
    obtain ⟨b, hb, i, hi⟩ := room
    rcases mem_preference hb with rfl | rfl
    · exact (claimed i hi).arrives (before.append since).follows
    · rw [before.follows.arrivals_append]
      exact Nat.add_pos_right _ ((claimed' hb i hi).arrives since.follows)

/-- The slots that were free in a scan and have another tag now were claimed. -/
theorem claimed_of_missed {b : Fin c.shape.count} {s s' : Cells k v c.shape} {tag : Tag}
    (hbulk : ∀ i ∈ schedule, ¬ i.call.Bulk) (hs : c.Sound ∅ s)
    (hf : Follows c lanes schedule s first s')
    (h : Missed s' b ((s.bucket b).tags.census tag)) (i : Fin c.shape.len.slots)
    (hi : ((s.bucket b).tags.census tag).free.has i = true) : Claimed ⟨b, i⟩ s first := by
  have hfree : s.Free ⟨b, i⟩ := by
    rw [Tags.has_free _ _ (Nat.lt_of_lt_of_le i.isLt c.shape.len.slots_le)] at hi
    simp only [Bool.and_eq_true, Bool.or_eq_true, beq_iff_eq] at hi
    exact hi.2
  exact hf.claimed hbulk hs hfree (tag_ne_of_missed h hfree)

/-- A pass that found its buckets with free slots found such a slot in a bucket that it considered. -/
theorem exists_room {key : Word k} (h : ¬ (primary.free = 0 ∧ secondary.free = 0))
    (hp : Bounded c primary) (hq : Bounded c secondary) :
    ∃ b ∈ considered c key primary secondary, ∃ i : Fin c.shape.len.slots,
      b.2.free.has i = true := by
  obtain ⟨b, hb, hne⟩ := exists_free_preference (c.candidates key) h
    (secondary.occupancy c.shape.len.slots)
  obtain ⟨i, hi, hfree⟩ := Mask.exists_has hne
  refine ⟨b, hb, ⟨i, ?_⟩, hfree⟩
  rcases mem_preference hb with rfl | rfl
  · exact hp i hi hfree
  · exact hq i hi hfree

end

section
variable (lanes) (hbulk : ∀ i ∈ schedule, ¬ i.call.Bulk) {key : Word k} (hl : c.Live key)
variable (hapart : ∀ i ∈ schedule, key ∉ i.call.writes) (value : Word v) (replace : Bool)
variable {l : Locks c.shape.count} {x : Moment c v} {primary secondary : Census}

include hbulk hl hapart

/-- A look for an absent key. -/
theorem run_look (hw : Recorded schedule (c.Sound ∅) x.1) (hs : c.Calm ∅ l x.2)
    (habs : x.2.Absent key) (b : Fin c.shape.count) :
    ∃ (y : Moment c v) (new : List (Sight c v)),
      x.run lanes schedule (c.look { lanes with } key value replace b) =
        (.ok ((x.2.bucket b).tags.census (Tag.ofKey key), false), y) ∧
      Between lanes schedule x new y ∧ Recorded schedule (c.Sound ∅) y.1 ∧ c.Calm ∅ l y.2 ∧
      y.2.Absent key := by
  have hG : (bystanders c lanes schedule).Ground ∅ l key := ground_bystanders lanes hl hapart
  obtain ⟨_, w, s, hrun, hw', rfl, hturn⟩ := exec_bystanders lanes hbulk hw
    (look_ensures { lanes with } value replace hG hs habs b)
  have hcalm := Company.turn_calm hs hturn
  have habs' := hG.absent hs hturn habs
  obtain ⟨⟨new, hseen, hf, -⟩, -⟩ := hturn
  exact ⟨(w, s), new, hrun, ⟨hseen, hf⟩, hw', hcalm, habs'⟩

/-- A placement finds both buckets full, or it gets a slot, or it misses every slot and leaves all
as it is. -/
theorem run_placeNew (hw : Recorded schedule (c.Sound ∅) x.1) (hs : c.Calm ∅ l x.2)
    (habs : x.2.Absent key) (hp : Bounded c primary) (hq : Bounded c secondary) :
    ∃ (answer : Option Stored) (y : Moment c v),
      x.run lanes schedule (c.placeNew { lanes with } key value primary secondary) =
        (.ok answer, y) ∧
      Recorded schedule (c.Sound ∅) y.1 ∧
      (answer = none → Between lanes schedule x [] y ∧ y.2 = x.2 ∧
        ¬ (primary.free = 0 ∧ secondary.free = 0) ∧
        ∀ b ∈ considered c key primary secondary, Missed x.2 b.1 b.2) := by
  have hG : (bystanders c lanes schedule).Ground ∅ l key := ground_bystanders lanes hl hapart
  have hplace : (c.placeNew { lanes with } key value primary secondary).Ensures
      (bystanders c lanes schedule).toWorld Never x.1.2 x.2 fun answer seen s => answer = none →
        (seen = x.1.2 ∧ s = x.2) ∧ ¬ (primary.free = 0 ∧ secondary.free = 0) ∧
          ∀ b ∈ considered c key primary secondary, Missed x.2 b.1 b.2 := by
    refine placeNew_claims _ hp hq (fun _ _ h => by cases h)
      (fun before b census after i horder _ hi => ⟨?_, fun _ _ _ h => by cases h⟩)
      fun hroom hall _ => ⟨⟨rfl, rfl⟩, hroom, hall⟩
    have hb : c.MayLie key b := by
      have hmem : (b, census) ∈ considered c key primary secondary := horder ▸ by simp
      exact mayLie_preference hmem
    exact (entered_of_taken x.1.2 value hG hs habs hb hi.free).1
  obtain ⟨answer, w, s, hrun, hw', hend⟩ := exec_bystanders lanes hbulk hw hplace
  refine ⟨answer, (w, s), hrun, hw', fun hnone => ?_⟩
  obtain ⟨⟨hseen, hcells⟩, hroom, hall⟩ := hend hnone
  refine ⟨⟨by rw [hseen, List.append_nil], ?_⟩, hcells, hroom, hall⟩
  rw [show ((w, s) : Moment c v).2 = x.2 from hcells]
  exact .nil

/-- A pass over an absent key finds both buckets full, or it stores the key, or it is lost. -/
theorem run_storePass_absent (hw : Recorded schedule (c.Sound ∅) x.1) (hs : c.Calm ∅ l x.2)
    (habs : x.2.Absent key) :
    ∃ (answer : Option Stored) (z : Moment c v),
      x.run lanes schedule (c.storePass { lanes with } key value replace) = (.ok answer, z) ∧
      (answer = none → Lost lanes schedule key value replace x z ∧
        Recorded schedule (c.Sound ∅) z.1 ∧ c.Calm ∅ l z.2) := by
  obtain ⟨y, first, hlook, hfirst, hw₁, hs₁, habs₁⟩ :=
    run_look lanes hbulk hl hapart value replace hw hs habs (c.candidates key).primary
  have hprimary := bounded_census (c := c) (x.2.bucket (c.candidates key).primary).tags
    (Tag.ofKey key)
  by_cases hsame : (c.candidates key).secondary = (c.candidates key).primary
  · obtain ⟨answer, z, hplace, hw₂, hmissed⟩ := run_placeNew lanes hbulk hl hapart value
      hw₁ hs₁ habs₁ hprimary bounded_empty
    have hlooked := Looked.one hsame hlook
    refine ⟨answer, z, hlooked.run_storePass.trans hplace, fun hnone => ?_⟩
    subst hnone
    obtain ⟨hstay, hcells, hroom, hall⟩ := hmissed rfl
    refine ⟨⟨hlooked, hplace, hfirst, hstay, exists_room hroom hprimary bounded_empty,
      fun i hi => ?_, fun _ i hi => ?_⟩, hw₂, hcells ▸ hs₁⟩
    · exact claimed_of_missed hbulk hs.sound (hfirst.append hstay).follows
        (hcells.symm ▸ hall _ (primary_mem_considered key _ _)) i hi
    · -- there are no free slots in the ballots of a bucket that is not looked at
      have hzero := Mask.has_zero (Nat.lt_of_lt_of_le i.isLt c.shape.len.slots_le)
      exact absurd (hi.symm.trans hzero) (by decide)
  · obtain ⟨z, second, hlook', hsecond, hw₂, hs₂, habs₂⟩ :=
      run_look lanes hbulk hl hapart value replace hw₁ hs₁ habs₁
        (c.candidates key).secondary
    have hsecondary := bounded_census (c := c) (y.2.bucket (c.candidates key).secondary).tags
      (Tag.ofKey key)
    obtain ⟨answer, last, hplace, hw₃, hmissed⟩ := run_placeNew lanes hbulk hl hapart
      value hw₂ hs₂ habs₂ hprimary hsecondary
    have hlooked := Looked.two hsame hlook hlook'
    refine ⟨answer, last, hlooked.run_storePass.trans hplace, fun hnone => ?_⟩
    subst hnone
    obtain ⟨hstay, hcells, hroom, hall⟩ := hmissed rfl
    have hsince := hsecond.append hstay
    refine ⟨⟨hlooked, hplace, hfirst, hsince, exists_room hroom hprimary hsecondary,
      claimed_of_missed hbulk hs.sound (hfirst.append hsince).follows
        (hcells.symm ▸ hall _ (primary_mem_considered key _ _)),
      fun hmem => claimed_of_missed hbulk hs₁.sound hsince.follows (hcells.symm ▸ hall _ hmem)⟩,
      hw₃, hcells ▸ hs₂⟩

end

end Scene

end TwoChoice
