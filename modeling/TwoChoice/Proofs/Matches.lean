import TwoChoice.Proofs.Probes

/-!
# The first match in a bucket

The operations on the slots of a bucket are told which slots are candidates, and they agree on the
slot that they mean: the first candidate that holds the key, and for those that are given a value,
the first one that holds the key with that value (`Slots.FirstMatch`). Nothing is assumed of the
slots and of the candidates: a key may be in many slots, a value may be stale, and a candidate may
lie past the end of the bucket. It is looked at and costs a probe like the others, and it never
matches (`Slots.operations_match`).
-/

set_option autoImplicit false

namespace TwoChoice

variable {k v : Width} {L : BucketLen}

/-! ## Runs -/

namespace Prog

variable {σ α β ι κ : Type}

/-- With nobody else there, a run of the program answers `a`, counts `n` probes and leaves `s'`. -/
def Runs (p : Prog σ α) (s : σ) (n : Nat) (a : α) (s' : σ) : Prop :=
  ∀ tally, (p.exec (Tally.alone σ) tally s).1 = .ok a ∧
    (p.exec (Tally.alone σ) tally s).2.1.probes = tally.probes.add (UInt64.ofNat n) ∧
    (p.exec (Tally.alone σ) tally s).2.2 = s'

/-- A tally counts the probes that a program announces. -/
theorem exec_probes (p : Prog σ α) (tally : Tally) (s : σ) :
    (p.exec (Tally.alone σ) tally s).2.1.probes =
      tally.probes.add (UInt64.ofNat (p.probed s)) := by
  induction p generalizing tally s with
  | done | halt => exact congrArg ProbeCount.mk (UInt64.add_zero _).symm
  | read q ih => exact ih s tally s
  | write f p ih => exact ih tally (f s)
  | emit e p ih =>
    cases e with
    | probe n =>
      refine (ih (tally.note (.probe n)) s).trans ?_
      rw [probed, UInt64.ofNat_add]
      exact congrArg ProbeCount.mk (UInt64.add_assoc ..)
    | _ => exact ih _ s
  | sync p ih => exact ih tally s

/-- As `Runs`, also for a program that halts. -/
def Ends (p : Prog σ α) (s : σ) (n : Nat) (outcome : Except Halt α) (s' : σ) : Prop :=
  ∀ tally, (p.exec (Tally.alone σ) tally s).1 = outcome ∧
    (p.exec (Tally.alone σ) tally s).2.1.probes = tally.probes.add (UInt64.ofNat n) ∧
    (p.exec (Tally.alone σ) tally s).2.2 = s'

theorem ends_of_solo {p : Prog σ α} {s s' : σ} {n : Nat} {outcome : Except Halt α}
    (hsolo : p.solo s = (outcome, s')) (hprobed : p.probed s = n) : p.Ends s n outcome s' := by
  intro tally
  obtain ⟨houtcome, hstate⟩ := exec_solo (V := Tally.alone σ) (fun _ _ => rfl) p tally s
  rw [hsolo] at houtcome hstate
  refine ⟨houtcome, ?_, hstate⟩
  rw [exec_probes, hprobed]

theorem Pays.runs {p : Prog σ α} {s s' : σ} {n : Nat} {a : α} (h : p.Pays s n a s') :
    p.Runs s n a s' :=
  ends_of_solo h.solo h.probed

/-- A program that nobody disturbs ends in one way. -/
theorem Runs.unique {p : Prog σ α} {s s' s'' : σ} {m n : Nat} {a b : α} (h : p.Runs s m a s')
    (h' : p.Runs s n b s'') : a = b ∧ s' = s'' := by
  obtain ⟨hanswer, -, hstate⟩ := h {}
  obtain ⟨hanswer', -, hstate'⟩ := h' {}
  exact ⟨Except.ok.inj (hanswer.symm.trans hanswer'), hstate.symm.trans hstate'⟩

/-- A search among things that are given under other names ends at the first one that is good. -/
theorem pays_findSomeM?_map {f : ι → Prog σ (Option β)} {name : κ → ι} {good : κ → Bool}
    {answer : κ → β} {after : κ → σ} {s : σ} :
    ∀ xs : List κ,
      (∀ a ∈ xs, good a = true → (f (name a)).Pays s 0 (some (answer a)) (after a)) →
      (∀ a ∈ xs, good a = false → (f (name a)).Pays s 0 none s) →
      ((xs.map name).findSomeM? f).Pays s 0 ((xs.find? good).map answer)
        ((xs.find? good).elim s after)
  | [], _, _ => pays_pure none s
  | a :: xs, hgood, hbad => by
    rw [List.map_cons, List.findSomeM?, List.find?_cons]
    cases ha : good a with
    | true => exact (hgood a (List.mem_cons_self ..) ha).bind (n := 0) (pays_pure _ _)
    | false =>
      refine (hbad a (List.mem_cons_self ..) ha).bind (n := 0) ?_
      exact pays_findSomeM?_map xs (fun b hb => hgood b (List.mem_cons_of_mem _ hb))
        fun b hb => hbad b (List.mem_cons_of_mem _ hb)

end Prog

open Prog

namespace Slots

/-! ## Matches -/

/-- The slot is a candidate that holds the key with an accepted value. -/
def Matches (t : Slots k v L) (key : Word k) (candidates : Mask) (accept : Word v → Bool)
    (i : Fin L.slots) : Prop :=
  candidates.has i = true ∧ (t.get i).key = key ∧ accept (t.get i).value = true

instance (t : Slots k v L) (key : Word k) (candidates : Mask) (accept : Word v → Bool)
    (i : Fin L.slots) : Decidable (t.Matches key candidates accept i) :=
  inferInstanceAs (Decidable (_ ∧ _ ∧ _))

/-- The lowest slot that matches, if there is one. -/
inductive FirstMatch (t : Slots k v L) (key : Word k) (candidates : Mask)
    (accept : Word v → Bool) : Option (Fin L.slots) → Prop
  | found {i} (here : t.Matches key candidates accept i)
    (below : ∀ j < i, ¬ t.Matches key candidates accept j) :
    FirstMatch t key candidates accept (some i)
  | missing (nowhere : ∀ i, ¬ t.Matches key candidates accept i) :
    FirstMatch t key candidates accept none

/-- The first of all slots that match. -/
def first? (t : Slots k v L) (key : Word k) (candidates : Mask) (accept : Word v → Bool) :
    Option (Fin L.slots) :=
  (List.finRange L.slots).find? fun i => decide (t.Matches key candidates accept i)

/-- The slots with another one where something was found. -/
def change (t : Slots k v L) (found : Option (Fin L.slots)) (f : Slot k v → Slot k v) :
    Slots k v L :=
  found.elim t fun i => t.put i (f (t.get i))

variable (g : Lanes) (r : ReservedKeys k) (t : Slots k v L) (key : Word k) (candidates : Mask)

theorem firstMatch_first? (accept : Word v → Bool) :
    t.FirstMatch key candidates accept (t.first? key candidates accept) := by
  cases h : t.first? key candidates accept with
  | none =>
    rw [first?, List.find?_eq_none] at h
    exact .missing fun i => by simpa using h i (List.mem_finRange i)
  | some i =>
    rw [first?, List.find?_eq_some_iff_getElem] at h
    obtain ⟨hi, n, hn, rfl, hbefore⟩ := h
    rw [List.getElem_finRange] at hi ⊢
    refine .found (of_decide_eq_true hi) fun j hj => ?_
    have hj' := hbefore j hj
    rw [List.getElem_finRange] at hj'
    simpa using hj'

/-- The slots that a poll finds are those that match whatever their value is. -/
theorem indices_hits : (t.hits key candidates).indices =
    ((List.finRange L.slots).filter fun i =>
      decide (t.Matches key candidates (fun _ => true) i)).map Fin.val := by
  rw [hits, Mask.indices_collect L.slots_le, ← List.map_coe_finRange_eq_range, List.filter_map]
  congr 1
  refine List.filter_congr fun i _ => ?_
  rw [Function.comp, holds_eq, Bool.eq_iff_iff, decide_eq_true_iff, Matches]
  simp

/-- The first one of those with an accepted value is the first match. -/
theorem find?_hits (accept : Word v → Bool) :
    ((List.finRange L.slots).filter fun i =>
      decide (t.Matches key candidates (fun _ => true) i)).find? (fun i => accept (t.get i).value) =
      t.first? key candidates accept := by
  rw [List.find?_filter, first?]
  congr 1
  funext i
  rw [decide_eq_decide, decide_eq_true_iff, Matches, Matches]
  simp [and_assoc]

/-! ## What the operations do -/

theorem pays_pollKey :
    (pollKey g key candidates).Pays t candidates.count (t.hits key candidates) t := by
  refine .of_ensures ?_ ?_
  · have hprobed := probed_pollKey g key candidates (f := pure) (fun m => silent_pure m) t
    rwa [bind_pure] at hprobed
  · rw [pollKey]
    refine (yields_announce _ t).ensures_bind ?_
    refine (g.yields_poll (f := fun i => candidates.has i && t.holds key i) L.slots_le
      fun i hi => yields_vote t ⟨i, hi⟩ key candidates).ensures_bind ?_
    rw [ensures_bind, ensures_pause]
    refine ⟨trivial, fun _ s' hs => ?_⟩
    obtain rfl : s' = t := hs
    exact ⟨rfl, rfl⟩

/-- What is done for each slot that a poll finds, as long as nothing comes of it, ends with the first
match. -/
theorem pays_hits {α : Type} {f : Nat → Prog (Slots k v L) (Option α)} {accept : Word v → Bool}
    {answer : Fin L.slots → α} {after : Fin L.slots → Slots k v L}
    (hmatch : ∀ i : Fin L.slots, (t.get i).key = key → accept (t.get i).value = true →
      (f i).Pays t 0 (some (answer i)) (after i))
    (hskip : ∀ i : Fin L.slots, (t.get i).key = key → accept (t.get i).value = false →
      (f i).Pays t 0 none t) :
    (do
      let hits ← pollKey g key candidates
      hits.indices.findSomeM? f).Pays t candidates.count
      ((t.first? key candidates accept).map answer)
      ((t.first? key candidates accept).elim t after) := by
  refine (pays_pollKey g t key candidates).bind (n := 0) ?_
  have hkey : ∀ {i : Fin L.slots}, i ∈ (List.finRange L.slots).filter
      (fun i => decide (t.Matches key candidates (fun _ => true) i)) → (t.get i).key = key :=
    fun hi => (of_decide_eq_true (List.mem_filter.1 hi).2).2.1
  rw [indices_hits, ← find?_hits t key candidates accept]
  exact pays_findSomeM?_map _ (fun i hi => hmatch i (hkey hi)) fun i hi => hskip i (hkey hi)

theorem pays_find? : (find? g key candidates).Pays t candidates.count
    ((t.first? key candidates fun _ => true).map fun i => (t.get i).value) t := by
  have hread : ∀ i : Fin L.slots, (t.get i).key = key →
      (g.elect (g.owner i) fun _ => valueOf i.val key).Pays t 0 (some (t.get i).value) t := by
    intro i hk
    have hvalue := valueOf_yields t i key
    rw [valueIf_eq, if_pos hk] at hvalue
    exact (g.yields_elect (g.owner_lt _) hvalue).pays (g.silent_elect fun _ => silent_valueOf _ _)
  have hsearch : (find? g key candidates).Pays t candidates.count
      ((t.first? key candidates fun _ => true).map fun i => (t.get i).value)
      ((t.first? key candidates fun _ => true).elim t fun _ => t) :=
    pays_hits g t key candidates (fun i hk _ => hread i hk) fun _ _ h => by cases h
  have hsame : (t.first? key candidates fun _ => true).elim t (fun _ => t) = t := by
    cases t.first? key candidates fun _ => true <;> rfl
  rwa [hsame] at hsearch

theorem pays_findIndex? : (findIndex? (v := v) g key candidates).Pays t candidates.count
    ((t.first? key candidates fun _ => true).map Fin.val) t := by
  refine (pays_pollKey g t key candidates).bind (n := 0) ?_
  rw [indices_hits, List.head?_map, List.head?_filter]
  exact pays_pure _ t

/-- An action on the slots that hold the key changes the first one that it succeeds on. -/
theorem pays_actOnKey {act : Nat → Prog (Slots k v L) Bool} {accept : Word v → Bool}
    {change : Slot k v → Slot k v} (hsilent : ∀ i, (act i).Silent)
    (hdone : ∀ i : Fin L.slots, (t.get i).key = key → accept (t.get i).value = true →
      (act i).Yields t true (t.put i (change (t.get i))))
    (hskip : ∀ i : Fin L.slots, (t.get i).key = key → accept (t.get i).value = false →
      (act i).Yields t false t) :
    (actOnKey g key candidates act).Pays t candidates.count
      ((t.first? key candidates accept).map Fin.val)
      (t.change (t.first? key candidates accept) change) := by
  have hact : ∀ {i : Fin L.slots} {done : Bool} {t' : Slots k v L}, (act i).Yields t done t' →
      (g.elect (g.owner i) fun _ => act i).Pays t 0 done t' := fun h =>
    (g.yields_elect (g.owner_lt _) h).pays (g.silent_elect fun _ => hsilent _)
  refine pays_hits g t key candidates (fun i hk hv => ?_) fun i hk hv => ?_
  · exact (hact (hdone i hk hv)).bind (n := 0) ⟨rfl, rfl⟩
  · exact (hact (hskip i hk hv)).bind (n := 0) ⟨rfl, rfl⟩

theorem pays_overwrite (value : Word v) : (overwrite g key value candidates).Pays t candidates.count
    ((t.first? key candidates fun _ => true).map Fin.val)
    (t.change (t.first? key candidates fun _ => true) fun x => { x with value }) := by
  refine pays_actOnKey g t key candidates (fun i => ?_) (fun i hk _ => ?_) fun _ _ h => by cases h
  · exact silent_overwriteAt i key value
  · refine yields_bind (exchangeKey_yields_true t i key hk) ?_
    refine yields_bind (setValue_yields _ i value) ?_
    rw [put_put, get_put_self, ← hk]
    exact yields_pure _ _

theorem pays_rekey (replacement : Word k) (accept : Word v → Bool) :
    (rekey g key replacement accept candidates).Pays t candidates.count
      ((t.first? key candidates accept).map Fin.val)
      (t.change (t.first? key candidates accept) fun x => { x with key := replacement }) := by
  refine pays_actOnKey g t key candidates (fun i => ?_) (fun i hk hv => ?_) fun i _ hv => ?_
  · refine (silent_valueAt i).bind fun value => ?_
    split
    · exact silent_exchangeKey _ _ _
    · exact silent_pure _
  · refine yields_bind (valueAt_yields t i) ?_
    rw [if_pos hv]
    exact exchangeKey_yields_true t i replacement hk
  · refine yields_bind (valueAt_yields t i) ?_
    rw [if_neg (by simp [hv])]
    exact yields_pure _ _

/-- **The operations on a bucket agree on the slot that they mean**, whatever is in the slots and
whichever the candidates are. A search answers the value of the first candidate that holds the key,
or its index. An overwriting and a removal act on that slot. A removal and a taking over that are
given a value act on the first candidate that holds the key with that value; the slot keeps the
value under the tombstone key or the holding key. Nothing else is changed, and nothing at all where
there is no such slot. Every time there are as many probes as candidates. -/
theorem operations_match :
    (∃ found, t.FirstMatch key candidates (fun _ => true) found ∧
      (find? g key candidates).Runs t candidates.count (found.map fun i => (t.get i).value) t ∧
      (findIndex? (v := v) g key candidates).Runs t candidates.count (found.map Fin.val) t ∧
      (∀ value, (overwrite g key value candidates).Runs t candidates.count (found.map Fin.val)
        (t.change found fun x => { x with value })) ∧
      (erase g r key candidates).Runs t candidates.count (found.map Fin.val)
        (t.change found fun x => { x with key := r.tombstone })) ∧
    ∀ value, ∃ found, t.FirstMatch key candidates (· == value) found ∧
      (erasePair g r key value candidates).Runs t candidates.count (found.map Fin.val)
        (t.change found fun x => { x with key := r.tombstone }) ∧
      (takePair g r key value candidates).Runs t candidates.count (found.map Fin.val)
        (t.change found fun x => { x with key := r.holding }) := by
  refine ⟨⟨_, firstMatch_first? t key candidates _, ?_, ?_, fun value => ?_, ?_⟩,
    fun value => ⟨_, firstMatch_first? t key candidates _, ?_, ?_⟩⟩
  · exact (pays_find? g t key candidates).runs
  · exact (pays_findIndex? g t key candidates).runs
  · exact (pays_overwrite g t key candidates value).runs
  · exact (pays_rekey g t key candidates r.tombstone fun _ => true).runs
  · exact (pays_rekey g t key candidates r.tombstone (· == value)).runs
  · exact (pays_rekey g t key candidates r.holding (· == value)).runs

end Slots

end TwoChoice
