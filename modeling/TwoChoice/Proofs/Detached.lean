import TwoChoice.Proofs.Guards
import TwoChoice.Proofs.Structure
import TwoChoice.Proofs.Traffic

/-!
# Detached slots come to rest

An operation that takes a key out of its slot leaves the slot detached at its next pause. Nothing is
assumed here of the keys that are asked for, of the table, or of what others do at the pauses: they
may bury the slot, store in it, or take the same key out of another one. In the end the operation
leaves no slot detached that was not so before (`Call.run_tidies`). So no slot is detached when no
operation is at work, by whatever calls, schedules and turns the table came about
(`Table.LeadsTo.clean`).

`World.Tidies W I`: in the world `W` one can tell, of a set of slots, that an operation has left no
others detached. `Config.anyhow` is the world in which anything may happen at a pause.
-/

set_option autoImplicit false

namespace TwoChoice

variable {k v : Width} {c : Config k} {γ : Type}

/-! ## What an operation leaves detached -/

namespace Config

variable {s s' : Cells k v c.shape} {p : Place c.shape}

theorem Detached.congr (htag : s'.tag p = s.tag p) (hkey : s'.key p = s.key p) :
    c.Detached s' p ↔ c.Detached s p := by
  rw [Detached, Detached, htag, hkey]

/-- The detached slots that an operation answers for: it left them so at its last pause, or they
were not detached when it went on. -/
def loose (c : Config k) (r : Set (Place c.shape) × Cells k v c.shape) (s : Cells k v c.shape) :
    Set (Place c.shape) :=
  {p | c.Detached s p ∧ (p ∈ r.1 ∨ ¬ c.Detached r.2 p)}

/-- What an operation sees of others who may do anything at all. It remembers what it left detached
at its last pause, and the table after it. -/
def anyhow (c : Config k) (v : Width) :
    World (Set (Place c.shape) × Cells k v c.shape) (Cells k v c.shape) where
  ready _ _ := True
  turn r s r' s' := r' = (c.loose r s, s')

end Config

namespace World

/-- `I T` says that the operation answers for no detached slots but those in `T`. A pause does not
break this, and a change of the table may break it by what it detaches only. -/
structure Tidies (W : World γ (Cells k v c.shape))
    (I : Set (Place c.shape) → γ → Cells k v c.shape → Prop) : Prop where
  stable : ∀ T, W.Stable (I T)
  step : ∀ {T T' r s s'}, I T r s →
    (∀ p, c.Detached s' p → p ∈ T' ∨ c.Detached s p ∧ p ∉ T) → I T' r s'

variable {W : World γ (Cells k v c.shape)} {I : Set (Place c.shape) → γ → Cells k v c.shape → Prop}
variable {T T' : Set (Place c.shape)} {r : γ} {s s' : Cells k v c.shape} {p : Place c.shape}

/-- One slot is changed, and no other one is left detached before. -/
theorem Tidies.change (hW : W.Tidies I) (h : I T r s) (hT : T ⊆ {p})
    (hother : ∀ q, q ≠ p → s'.tag q = s.tag q ∧ s'.key q = s.key q)
    (hp : c.Detached s' p → p ∈ T') : I T' r s' := by
  refine hW.step h fun q hq => ?_
  by_cases hqp : q = p
  · subst hqp
    exact .inl (hp hq)
  · obtain ⟨htag, hkey⟩ := hother q hqp
    exact .inr ⟨(Config.Detached.congr htag hkey).1 hq, fun hm => hqp (hT hm)⟩

theorem Tidies.putTag (hW : W.Tidies I) (h : I T r s) (hT : T ⊆ {p}) {t : Tag}
    (hp : c.Detached (s.putTag p t) p → p ∈ T') : I T' r (s.putTag p t) :=
  hW.change h hT (fun q hq => ⟨by simp [Ne.symm hq], by simp⟩) hp

theorem Tidies.putSlot (hW : W.Tidies I) (h : I T r s) (hT : T ⊆ {p}) {x : Slot k v}
    (hp : c.Detached (s.putSlot p x) p → p ∈ T') : I T' r (s.putSlot p x) :=
  hW.change h hT (fun q hq => ⟨by simp, by simp [Ne.symm hq]⟩) hp

theorem Tidies.setLocks (hW : W.Tidies I) (l : Locks c.shape.count) (h : I ∅ r s) :
    I ∅ r (s.setLocks l) :=
  hW.step h fun q hq => .inr ⟨(Config.Detached.congr rfl rfl).1 hq, Set.notMem_empty q⟩

theorem Tidies.keyed (hW : W.Tidies I) : W.Keyed (I ∅) :=
  { hW.stable ∅ with
    putSlot := fun {r s} p {x} hx h => by
      refine hW.step h fun q hq => .inr ⟨?_, Set.notMem_empty q⟩
      refine (Config.Detached.congr (by simp) ?_).1 hq
      rw [Cells.key_putSlot]
      split
      · rename_i hpq
        rw [hx, hpq]
      · rfl }

/-- A live key comes to a slot. -/
theorem Tidies.fill (hW : W.Tidies I) {key : Word k} (hl : c.Live key) (value : Word v)
    (h : I ∅ r s) : I ∅ r (s.fill p key value) := by
  refine hW.change (p := p) h (Set.empty_subset _) (fun q hq => ?_) fun hd => ?_
  · simp [Ne.symm hq]
  · rw [Config.Detached, Cells.key_fill, if_pos rfl] at hd
    exact absurd hl hd.2.2

/-- Alone, what an operation answers for does not change at its pauses. -/
theorem Tidies.alone (hW : W.Tidies I) (r : γ) :
    (World.alone (Cells k v c.shape)).Tidies fun T _ => I T r where
  stable _ := ⟨fun _ => trivial, fun h ht => ht ▸ h⟩
  step h hd := hW.step h hd

end World

/-! ## Operations -/

namespace Config

open World

variable {W : World γ (Cells k v c.shape)} {I : Set (Place c.shape) → γ → Cells k v c.shape → Prop}
variable {r : γ} {s : Cells k v c.shape} {key oldKey mark : Word k} {value oldValue : Word v}

section
variable (hW : W.Tidies I) (g : Group)
include hW

theorem storePass_tidies (hl : c.Live key) (replace : Bool) (h : I ∅ r s) :
    (c.storePass g key value replace).Ensures W (fun _ => I ∅) r s fun _ => I ∅ := by
  have hnew : ∀ {primary secondary : Census} {r' s'}, Bounded c primary → Bounded c secondary →
      I ∅ r' s' → (c.placeNew g key value primary secondary).Ensures W (fun _ => I ∅) r' s'
        fun _ => I ∅ := by
    intro primary secondary r' s' hp hsec h'
    refine placeNew_claims g hp hsec (fun _ _ => h') (fun _ b _ _ i _ _ _ => ?_) fun _ _ => h'
    have hfill : I ∅ r' (s'.fill ⟨b, i⟩ key value) := hW.fill hl value h'
    exact ⟨(hW.stable ∅).ready hfill, fun _ _ ht => (hW.stable ∅).turn hfill ht⟩
  refine storePass_keyed g hW.keyed replace (fun _ _ h' => h') (fun r' s' ht => ?_)
    (fun r₁ s₁ r' s' ht ht' => ?_) h
  · exact hnew (bounded_census _ _) bounded_empty ((hW.stable ∅).turns h ht)
  · exact hnew (bounded_census _ _) (bounded_census _ _) ((hW.stable ∅).turns h (ht.trans ht'))

theorem store_tidies (key : Word k) (value : Word v) (replace locked : Bool) (h : I ∅ r s) :
    (c.store g key value replace locked).Ensures W (fun _ => I ∅) r s fun _ => I ∅ := by
  rw [store, Prog.require]
  split
  · rename_i hl
    refine withLocks_keeps (hW.stable ∅) (fun l h => hW.setLocks l h) g.toLanes _ (fun _ _ h => ?_) h
    exact storePasses_keeps g (fun _ _ h => h) (fun _ _ h => storePass_tidies hW g hl replace h) _ h
  · exact h

/-- A key is taken out of a slot, and what is done next brings the slot to rest. -/
theorem takeFrom_tidies (accept : Word v → Bool)
    {after : Fin c.shape.count → Nat → Prog (Cells k v c.shape) Unit}
    (hafter : ∀ (p : Place c.shape) r s, I {p} r s →
      (after p.bucket p.index).Ensures W (fun _ => I ∅) r s fun _ => I ∅)
    (buckets : List (Fin c.shape.count)) (h : I ∅ r s) :
    (buckets.findSomeM? (takeFrom g key mark accept after)).Ensures W (fun _ => I ∅) r s
      fun _ => I ∅ := by
  refine Prog.ensures_findSomeM? (fun _ => I ∅) (fun b _ r s h => ?_) (fun _ _ h => h) _ h
  refine takeFrom_attempts g (hW.stable ∅) accept (fun i x r s h _ => ?_) (fun _ _ h => h) h
  have hput : I {⟨b, i⟩} r (s.putSlot ⟨b, i⟩ x) :=
    hW.putSlot h (Set.empty_subset _) fun _ => Set.mem_singleton _
  exact ⟨(hW.stable _).ready hput, fun r' s' ht =>
    hafter ⟨b, i⟩ r' s' ((hW.stable _).turn hput ht)⟩

theorem erase_tidies (key : Word k) (wanted : Option (Word v)) (locked : Bool) (h : I ∅ r s) :
    (c.erase g key wanted locked).Ensures W (fun _ => I ∅) r s fun _ => I ∅ := by
  rw [erase_eq]
  refine withLocks_keeps (hW.stable ∅) (fun l h => hW.setLocks l h) g.toLanes _ (fun r s h => ?_) h
  rw [Prog.ensures_bind]
  refine (takeFrom_tidies hW g (accepts wanted) (fun p r s h => ?_) _ h).mono fun _ _ _ h => h
  have hbury : I ∅ r (s.putTag p Tag.tombstone) :=
    hW.putTag h subset_rfl fun hd => absurd (by simp) hd.2.1
  exact retag_ensures g.toLanes Tag.tombstone ((hW.stable ∅).ready hbury)
    fun _ _ ht => (hW.stable ∅).turn hbury ht

theorem handOver_tidies (hl : c.Live key) (h : I ∅ r s) :
    (c.handOver g key value oldKey oldValue).Ensures W (fun _ => I ∅) r s fun _ => I ∅ := by
  rw [handOver_eq, Prog.ensures_bind]
  refine (takeFrom_tidies hW g (· == oldValue) (fun p r s h => ?_) _ h).mono fun _ _ _ h => h
  have hretag : I {p} r (s.putTag p (Tag.ofKey key)) :=
    hW.putTag h subset_rfl fun _ => Set.mem_singleton p
  rw [Prog.ensures_bind]
  refine retag_ensures g.toLanes (Tag.ofKey key) ((hW.stable _).ready hretag) fun r₁ s₁ h₁ => ?_
  have hpublish : I ∅ r₁ (s₁.putSlot p ⟨key, value⟩) :=
    hW.putSlot ((hW.stable _).turn hretag h₁) subset_rfl fun hd =>
      absurd (by rwa [Cells.key_putSlot, if_pos rfl]) hd.2.2
  exact publish_ensures g.toLanes key value ((hW.stable ∅).ready hpublish)
    fun _ _ ht => (hW.stable ∅).turn hpublish ht

theorem exchangeBody_tidies (hl : c.Live key) (update : Bool) (h : I ∅ r s) :
    (do
      if ← (c.candidates key).distinct.anyM fun b => do
          let census ← c.atTags b (Tags.scan g.toLanes (Tag.ofKey key))
          c.lookFor g b key value census update then
        return update
      else
        c.handOver g key value oldKey oldValue : Prog (Cells k v c.shape) Bool).Ensures
      W (fun _ => I ∅) r s fun _ => I ∅ := by
  rw [Prog.ensures_bind]
  refine (Prog.ensures_anyM (fun _ => I ∅) (Q := fun _ => I ∅) (fun b _ r s h => ?_)
    (fun _ _ h => h) _ h).mono fun found r' s' h' => ?_
  · rw [Prog.ensures_bind]
    refine scan_ensures g.toLanes _ ((hW.stable ∅).ready h) fun r₁ s₁ h₁ => ?_
    have hI := (hW.stable ∅).turn h h₁
    exact lookFor_keyed g hW.keyed update _ (fun _ _ h => h)
      (fun _ _ ht => (hW.stable ∅).turns hI ht) hI
  · cases found with
    | true => exact h'
    | false => exact handOver_tidies hW g hl h'

theorem exchange_tidies (key : Word k) (value : Word v) (oldKey : Word k) (oldValue : Word v)
    (update : Bool) (h : I ∅ r s) :
    (c.exchange g key value oldKey oldValue update).Ensures W (fun _ => I ∅) r s fun _ => I ∅ := by
  rw [exchange]
  by_cases hl : c.reserved.isReserved key = false
  · refine (Prog.yields_require hl _ s).ensures_bind ?_
    exact withLocks_keeps (hW.stable ∅) (fun l h => hW.setLocks l h) g.toLanes _
      (fun _ _ h => exchangeBody_tidies hW g hl update h) h
  · rw [Prog.require, if_neg hl, Prog.ensures_bind]
    exact h

end

end Config

namespace Call

open Config World

variable {W : World γ (Cells k v c.shape)} {I : Set (Place c.shape) → γ → Cells k v c.shape → Prop}
variable {r : γ} {s : Cells k v c.shape} {x : Call k v}

theorem part_tidies (hW : W.Tidies I) (g : Group) (hbulk : ¬ x.Bulk) (h : I ∅ r s) :
    (x.run c g).Ensures W (fun _ => I ∅) r s fun _ => I ∅ := by
  have hupdate : ∀ {key}, x.Updates key →
      (x.run c g).Ensures W (fun _ => I ∅) r s fun _ => I ∅ := fun {key} hx =>
    hx.keeps (fun value replace locked => store_tidies hW g key value replace locked h)
      (fun wanted locked => erase_tidies hW g key wanted locked h) h
  have hread : x.writes = [] → (x.run c g).Ensures W (fun _ => I ∅) r s fun _ => I ∅ := fun hw =>
    read_ensures (hW.stable ∅) hbulk hw (fun _ _ _ => h) h
  cases x with
  | upsert | insertNew | erase | erasePair => exact hupdate rfl
  | exchange key value oldKey oldValue update =>
    exact Prog.ensures_map.2 (exchange_tidies hW g key value oldKey oldValue update h)
  | upsertAll | upsertEach | insertEach | eraseEach | upsertInChunks => exact absurd trivial hbulk
  | _ => exact hread rfl

/-- **In the end a call leaves no slot detached**, on every way out of it. -/
theorem run_tidies (hW : W.Tidies I) (g : Group) (call : Call k v) (h : I ∅ r s) :
    (call.run c g).Ensures W (fun _ => I ∅) r s fun _ => I ∅ :=
  run_ensures (fun _ _ _ => Iff.rfl) call
    (fun _ hx _ _ => part_tidies hW g (eq_or_of_mem_parts hx).1)
    (fun _ hx r _ => part_tidies (hW.alone r) g (eq_or_of_mem_parts hx).1) h

end Call

/-! ## Runs -/

namespace Config

variable {r : Set (Place c.shape) × Cells k v c.shape} {s s' : Cells k v c.shape}

theorem tidies_anyhow : (anyhow c v).Tidies fun T r s => c.loose r s ⊆ T where
  stable T := by
    refine ⟨fun _ => trivial, fun {r s r' s'} h ht p hp => ?_⟩
    obtain rfl : r' = (c.loose r s, s') := ht
    exact h (hp.2.resolve_right fun hd => hd hp.1)
  step h hd p hp := (hd p hp.1).resolve_right fun ⟨hbefore, hT⟩ => hT (h ⟨hbefore, hp.2⟩)

/-- What was detached at the last pause was left so by the operation. -/
def AllLoose (r : Set (Place c.shape) × Cells k v c.shape) : Prop := ∀ p, c.Detached r.2 p → p ∈ r.1

/-- What is detached now was detached before, or the operation answers for it. -/
theorem detached_loose {p : Place c.shape} (hp : c.Detached s p) :
    p ∈ c.loose r s ∨ c.Detached r.2 p ∧ p ∉ r.1 := by
  by_cases hr : p ∈ r.1
  · exact .inl ⟨hp, .inl hr⟩
  by_cases hd : c.Detached r.2 p
  · exact .inr ⟨hd, hr⟩
  · exact .inl ⟨hp, .inr hd⟩

theorem AllLoose.loose (h : AllLoose r) {p : Place c.shape} (hp : c.Detached s p) : p ∈ c.loose r s :=
  (detached_loose hp).resolve_right fun hd => hd.2 (h p hd.1)

end Config

open Config

variable {s : Cells k v c.shape}

/-- Alone, a call leaves no slot detached that was not so before. -/
theorem Call.solo_detached (g : Group) (call : Call k v) {p : Place c.shape}
    (hp : c.Detached ((call.run c g).solo s).2 p) : c.Detached s p := by
  have hnone : c.loose (∅, s) s ⊆ ∅ := fun q hq => hq.2.elim id fun hd => hd hq.1
  have hrun := (Call.run_tidies (tidies_anyhow.alone (∅, s)) g call (r := ()) hnone).solo
  have hend : c.loose (∅, s) ((call.run c g).solo s).2 ⊆ ∅ := by
    split at hrun <;> rename_i heq <;> rw [heq] <;> exact hrun
  exact ((detached_loose hp).resolve_left fun hq => hend hq).1

namespace Scene

variable (lanes : Lanes) {p : Place c.shape}

theorem effect_detached {i : Intrusion k v} (hp : c.Detached (i.effect c lanes s).2 p) :
    c.Detached s p := by
  rw [Intrusion.effect] at hp
  cases hf : (i.call.locks c).find? fun b => s.locks.isLocked b.val with
  | some b => rwa [hf] at hp
  | none =>
    rw [hf] at hp
    exact i.call.solo_detached _ hp

theorem intrude_detached (is : List (Intrusion k v)) (sc : Scene k v)
    (hp : c.Detached (is.foldl (fun x i => x.1.intrude c lanes x.2 i) (sc, s)).2 p) :
    c.Detached s p := by
  induction is generalizing sc s with
  | nil => exact hp
  | cons i is ih =>
    have hfirst : c.Detached (sc.intrude c lanes s i).2 p := ih _ hp
    rw [(intrude_eq lanes sc s i).2.2] at hfirst
    exact effect_detached lanes hfirst

/-- **Under any schedule** a call leaves no slot detached if none was. -/
theorem run_attached {schedule : List (Intrusion k v)} (call : Call k v)
    (h : ∀ p, ¬ c.Detached s p) (p : Place c.shape) :
    ¬ c.Detached (run c lanes call schedule s).2.2 p := by
  have hnone : c.loose (∅, s) s ⊆ ∅ := fun q hq => h q hq.1
  have hpause : ∀ (sc : Scene k v) r s, AllLoose r → (anyhow c v).ready r s →
      ∃ r', (anyhow c v).turn r s r' ((env c lanes schedule).pause sc s).2 ∧ AllLoose r' := by
    intro sc r s hr _
    refine ⟨(c.loose r s, ((env c lanes schedule).pause sc s).2), rfl, fun p hp => hr.loose ?_⟩
    exact intrude_detached lanes (schedule.filter (·.moment == sc.pauses + 1))
      { sc with pauses := sc.pauses + 1, trace := sc.trace.push .pause } hp
  obtain ⟨r, hr, hend⟩ := Prog.Ensures.exec (V := env c lanes schedule) (R := fun _ => AllLoose)
    (fun _ _ _ h => h) hpause
    (Call.run_tidies tidies_anyhow { lanes with passes := schedule.length + 1 } call hnone)
    (r := {}) fun p hp => absurd hp (h p)
  rw [run]
  generalize (call.run c _).exec _ _ s = ended at hend ⊢
  obtain ⟨_ | _, _, s'⟩ := ended <;> exact fun hp => hend (hr.loose hp)

end Scene

namespace Traffic

variable {ι : Type} {calls : ι → Call k v} {groups : ι → Group} {t : Traffic c v ι}

/-- Every operation has answered or come to its fault. -/
def Over (t : Traffic c v ι) : Prop :=
  ∀ i, (∃ reply, t.left i = .done reply) ∨ ∃ f, t.left i = .halt (.fault f)

/-- The detached slots are those that the operations answer for, and each of them brings its own to
rest. -/
structure Tidy (own : ι → Set (Place c.shape)) (t : Traffic c v ι) : Prop where
  owned : ∀ p, c.Detached t.cells p → ∃ i, p ∈ own i
  goesOn : ∀ i s, (t.left i).Ensures (anyhow c v) (fun _ r s => c.loose r s ⊆ ∅) (own i, s) s
    fun _ r s => c.loose r s ⊆ ∅

/-- **One turn keeps this.** -/
theorem Tidy.advance [DecidableEq ι] {own : ι → Set (Place c.shape)} (h : t.Tidy own) (i : ι) :
    ∃ own', (t.advance i).Tidy own' := by
  have hturn := (h.goesOn i t.cells).segment fun _ => tidies_anyhow.stable ∅
  let left := c.loose (own i, t.cells) (t.advance i).cells
  refine ⟨fun j => if j = i then left else own j, fun p hp => ?_, fun j s => ?_⟩
  · rcases detached_loose (r := (own i, t.cells)) hp with hq | ⟨hd, hq⟩
    · exact ⟨i, by rwa [if_pos rfl]⟩
    · obtain ⟨j, hj⟩ := h.owned p hd
      have hji : j ≠ i := by
        rintro rfl
        exact hq hj
      exact ⟨j, by rwa [if_neg hji]⟩
  · by_cases hj : j = i
    · subst hj
      have hown : left = c.loose (own j, t.cells) ((t.left j).segment t.cells).2 := rfl
      simp only [Traffic.advance, if_pos, hown]
      generalize (t.left j).segment t.cells = after at hturn
      obtain ⟨_ | _, s'⟩ := after
      · exact fun p hp => hturn (hp.2.resolve_right fun hd => hd hp.1)
      · exact hturn.2 _ s rfl
    · simp only [Traffic.advance, if_neg hj]
      exact h.goesOn j s

theorem Reachable.tidy [DecidableEq ι] (h : ∀ p, ¬ c.Detached s p)
    (ht : Reachable calls groups s t) : ∃ own, t.Tidy own := by
  induction ht with
  | start =>
    exact ⟨fun _ => ∅, fun p hp => absurd hp (h p), fun i s =>
      Call.run_tidies tidies_anyhow _ _ fun p hp => hp.2.elim id fun hd => hd hp.1⟩
  | advance _ _ ih =>
    obtain ⟨own, hown⟩ := ih
    exact hown.advance _

end Traffic

/-! ## Tables -/

/-- No slot is detached and no bucket is locked: the table is as operations leave it. -/
structure Config.Clean (c : Config k) (s : Cells k v c.shape) : Prop where
  attached : ∀ p, ¬ c.Detached s p
  unlocked : ∀ b, s.locks.isLocked b = false

theorem Config.Quiet.clean (h : c.Quiet s) : c.Clean s :=
  ⟨fun _ hp => absurd (h.sound.mem_of_detached hp) (Set.notMem_empty _), h.unlocked⟩

/-- When all operations are over, the table is as they found it in this. -/
theorem Traffic.Reachable.clean {ι : Type} [DecidableEq ι] {calls : ι → Call k v}
    {groups : ι → Group} {t : Traffic c v ι} (hs : c.Clean s) (hsingle : ∀ i, (calls i).Single)
    (h : Traffic.Reachable calls groups s t) (hover : t.Over) : c.Clean t.cells := by
  obtain ⟨own, htidy⟩ := h.tidy hs.attached
  have horderly := h.orderly hsingle hs.unlocked
  refine ⟨fun p hp => ?_, fun b => Bool.eq_false_iff.2 fun hb => ?_⟩
  · obtain ⟨i, hi⟩ := htidy.owned p hp
    have hend : c.loose (own i, t.cells) t.cells ⊆ ∅ := by
      have hgo := htidy.goesOn i t.cells
      rcases hover i with ⟨reply, he⟩ | ⟨f, he⟩ <;> rw [he] at hgo <;> exact hgo
    exact hend ⟨hp, .inl hi⟩
  · obtain ⟨i, hi⟩ := (horderly.locked b).1 hb
    have hgo := horderly.goesOn i t.cells (horderly.rests i)
    have hend : Traffic.Holds ∅ ({b | t.holder b = some i}, t.cells) t.cells := by
      rcases hover i with ⟨reply, he⟩ | ⟨f, he⟩ <;> rw [he] at hgo <;> exact hgo
    exact (hend.2 ▸ Set.notMem_empty b) ⟨.inl hi, hb⟩

namespace Table

/-- What a table comes to when anything is asked of it, with any keys: calls under any schedules,
operations that take turns as they like until all of them are over, clearings and reseedings. -/
inductive LeadsTo (t₀ : Table k v) : Table k v → Prop
  | refl : LeadsTo t₀ t₀
  | handle {t} (before : LeadsTo t₀ t) (lanes : Lanes) (schedule : List (Intrusion k v))
    (asked : Request k v) : LeadsTo t₀ (t.handle lanes schedule asked).2
  | traffic {t} (before : LeadsTo t₀ t) {ι : Type} [DecidableEq ι] {calls : ι → Call k v}
    {groups : ι → Group} (single : ∀ i, (calls i).Single) {u : Traffic t.config v ι}
    (turns : Traffic.Reachable calls groups t.cells u) (ended : u.Over) :
    LeadsTo t₀ { t with cells := u.cells }

variable {t₀ t : Table k v}

/-- The reserved keys stay the same. -/
theorem LeadsTo.reserved (h : LeadsTo t₀ t) : t.config.reserved = t₀.config.reserved := by
  induction h with
  | refl => rfl
  | handle _ lanes schedule asked ih => cases asked <;> exact ih
  | traffic _ _ _ _ ih => exact ih

/-- **A table is clean whenever no operation is at work on it.** -/
theorem LeadsTo.clean (h : LeadsTo t₀ t) (h₀ : t₀.config.Clean t₀.cells) :
    t.config.Clean t.cells := by
  induction h with
  | refl => exact h₀
  | @handle t _ lanes schedule asked ih =>
    cases asked with
    | call call =>
      refine ⟨Scene.run_attached lanes call ih.attached, fun b => ?_⟩
      have hlocks := (Scene.watch_locks lanes schedule ih.unlocked call).1
      rw [← handle_cells] at hlocks
      rw [hlocks]
      exact ih.unlocked b
    | clear => exact clear_cells t ▸ (quiet_fresh t.config).clean
    | reseed seed => exact reseed_cells t seed ▸ (quiet_fresh (t.reseed seed).1.config).clean
  | traffic _ single turns ended ih => exact turns.clean ih single ended

end Table

end TwoChoice
