import TwoChoice.Proofs.Reads
import TwoChoice.Proofs.Traffic

/-!
# Overflow

A key lies outside its primary bucket only if that bucket was used up to the cutoff: so many of its
slots have a tag that is not the empty one (`Config.Justified`). A store decides this on a scan that
may be long outdated when the key is placed, but no slot that was used loses its mark, whoever
removes its key or takes it again (`Cells.Worn`).

`c.Careful s s'` says that a change keeps both. Every step of every call is careful but those of
exchanges, and nothing need be known of the table for it, nor of the keys that are asked for or of
the locks (`Call.run_heeds`). So all are careful if they take turns in any order
(`Traffic.Passage.chronicle`), also where whole calls are carried out at the pauses of another one
(`Scene.watch_careful`). `Table.Witnessed` keeps all instants since a table was last new.
-/

set_option autoImplicit false

namespace TwoChoice

variable {k v : Width}

/-! ## Marks -/

namespace Cells

variable {sh : Shape} {s s' s'' : Cells k v sh}

/-- The number of slots of a bucket whose tag is not the empty one. -/
def marked (s : Cells k v sh) (b : Fin sh.count) : Nat :=
  (List.finRange sh.len.slots).countP fun i => decide (s.tag ⟨b, i⟩ ≠ Tag.empty)

/-- The number of slots of a bucket that were used: at one of these instants the tag was not the
empty one. -/
def everMarked (past : List (Cells k v sh)) (b : Fin sh.count) : Nat :=
  (List.finRange sh.len.slots).countP fun i => decide (∃ s ∈ past, s.tag ⟨b, i⟩ ≠ Tag.empty)

/-- No tag is emptied. -/
def Worn (s s' : Cells k v sh) : Prop := ∀ p, s'.tag p = Tag.empty → s.tag p = Tag.empty

theorem Worn.refl (s : Cells k v sh) : s.Worn s := fun _ h => h

theorem Worn.trans (h : s.Worn s') (h' : s'.Worn s'') : s.Worn s'' := fun p hp => h p (h' p hp)

theorem Worn.marked_le (h : s.Worn s') (b : Fin sh.count) : s.marked b ≤ s'.marked b :=
  List.countP_mono_left fun i _ hi =>
    decide_eq_true fun he => of_decide_eq_true hi (h ⟨b, i⟩ he)

/-- What was used is marked in the end. -/
theorem everMarked_eq {past : List (Cells k v sh)} (h : ∀ x ∈ past, x.Worn s) (hs : s ∈ past)
    (b : Fin sh.count) : everMarked past b = s.marked b := by
  refine List.countP_congr fun i _ => ?_
  rw [decide_eq_true_iff, decide_eq_true_iff]
  constructor
  · rintro ⟨x, hx, hmark⟩
    exact fun he => hmark (h x hx ⟨b, i⟩ he)
  · exact fun hmark => ⟨s, hs, hmark⟩

end Cells

namespace Config

variable {c : Config k} {s s' s'' : Cells k v c.shape} {p : Place c.shape}

/-- A scan counts no slot that is not marked. -/
theorem occupancy_le_marked (s : Cells k v c.shape) (b : Fin c.shape.count) (tag : Tag) :
    ((s.bucket b).tags.census tag).occupancy c.shape.len.slots ≤ s.marked b := by
  rw [Tags.occupancy_census, Tags.occupancy, ← List.map_coe_finRange_eq_range, List.countP_map,
    Cells.marked]
  refine List.countP_mono_left fun i _ hi => decide_eq_true ?_
  simp only [Function.comp, Bool.and_eq_true, bne_iff_ne] at hi
  exact hi.1

/-! ## Careful changes -/

/-- A live key lies outside its primary bucket only if that is marked up to the cutoff. -/
def Justified (c : Config k) (s : Cells k v c.shape) : Prop :=
  ∀ p, c.Live (s.key p) → p.bucket ≠ (c.candidates (s.key p)).primary →
    c.shape.len.cutoff ≤ s.marked (c.candidates (s.key p)).primary

/-- A change that empties no tag and leaves every overflow justified. -/
structure Careful (c : Config k) (s s' : Cells k v c.shape) : Prop where
  worn : s.Worn s'
  justified : c.Justified s → c.Justified s'

namespace Careful

theorem refl (s : Cells k v c.shape) : c.Careful s s := ⟨.refl s, fun h => h⟩

theorem trans (h : c.Careful s s') (h' : c.Careful s' s'') : c.Careful s s'' :=
  ⟨h.worn.trans h'.worn, fun hj => h'.justified (h.justified hj)⟩

/-- No live key comes to a slot in which it was not before. -/
theorem of_keys (hworn : s.Worn s') (hkeys : ∀ p, c.Live (s'.key p) → s'.key p = s.key p) :
    c.Careful s s' := by
  refine ⟨hworn, fun h p hl hne => ?_⟩
  have hkey := hkeys p hl
  rw [hkey] at hl hne ⊢
  exact (h p hl hne).trans (hworn.marked_le _)

theorem putTag (s : Cells k v c.shape) (p : Place c.shape) {t : Tag} (ht : t ≠ Tag.empty) :
    c.Careful s (s.putTag p t) := by
  refine of_keys (fun q hq => ?_) fun q _ => s.key_putTag p q t
  rw [Cells.tag_putTag] at hq
  split at hq
  · exact absurd hq ht
  · exact hq

theorem putSlot (p : Place c.shape) {x : Slot k v} (hx : x.key = s.key p ∨ ¬ c.Live x.key) :
    c.Careful s (s.putSlot p x) := by
  refine of_keys (fun q hq => by rwa [Cells.tag_putSlot] at hq) fun q hl => ?_
  rw [Cells.key_putSlot] at hl ⊢
  split at hl
  · rename_i hpq
    rw [if_pos hpq, ← hpq]
    exact hx.resolve_right fun h => h hl
  · rename_i hpq
    rw [if_neg hpq]

theorem setLocks (s : Cells k v c.shape) (l : Locks c.shape.count) : c.Careful s (s.setLocks l) :=
  of_keys (.refl s) fun _ _ => rfl

/-- A key is placed in its primary bucket, or that is marked up to the cutoff. -/
theorem fill (s : Cells k v c.shape) (p : Place c.shape) {key : Word k} (value : Word v)
    (hp : p.bucket ≠ (c.candidates key).primary →
      c.shape.len.cutoff ≤ s.marked (c.candidates key).primary) :
    c.Careful s (s.fill p key value) := by
  have hworn : s.Worn (s.fill p key value) := fun q hq => by
    rw [Cells.tag_fill] at hq
    split at hq
    · exact absurd hq (Tag.ofKey_ne_empty _)
    · exact hq
  refine ⟨hworn, fun h q hl hne => ?_⟩
  rw [Cells.key_fill] at hl hne ⊢
  split at hl
  · rename_i hpq
    subst hpq
    rw [if_pos rfl] at hne ⊢
    exact (hp hne).trans (hworn.marked_le _)
  · rename_i hpq
    rw [if_neg hpq] at hne ⊢
    exact (h q hl hne).trans (hworn.marked_le _)

end Careful

end Config

/-! ## Programs -/

namespace World

variable {c : Config k} {γ : Type} {W : World γ (Cells k v c.shape)}
variable {I : γ → Cells k v c.shape → Prop} {r r' : γ} {s s' : Cells k v c.shape}

/-- A pause may come where `I` holds, and neither a pause nor a careful change breaks it. At a pause
no tag is emptied. -/
structure Heeds (W : World γ (Cells k v c.shape)) (I : γ → Cells k v c.shape → Prop) : Prop
    extends W.Stable I where
  step : ∀ {r s s'}, I r s → c.Careful s s' → I r s'
  worn : ∀ {r s r' s'}, I r s → W.turn r s r' s' → s.Worn s'

theorem Heeds.mild (h : W.Heeds I) : W.Mild I :=
  { h.toStable with
    putTag := fun p _ ht hI => h.step hI (.putTag _ p ht)
    putSlot := fun p _ hx hI => h.step hI (.putSlot p hx) }

theorem Heeds.worn_turns (h : W.Heeds I) (hI : I r s) (ht : W.Turns r s r' s') : s.Worn s' := by
  induction ht with
  | refl => exact .refl s
  | tail before last ih => exact ih.trans (h.worn (h.turns hI before) last)

theorem Heeds.alone (h : W.Heeds I) (r : γ) :
    (World.alone (Cells k v c.shape)).Heeds fun _ => I r where
  ready _ := trivial
  turn hI ht := ht ▸ hI
  step hI hs := h.step hI hs
  worn _ ht := ht ▸ .refl _

/-- Alone, all that is careful adds up. -/
theorem heeds_alone (s : Cells k v c.shape) :
    (World.alone (Cells k v c.shape)).Heeds fun _ => c.Careful s where
  ready _ := trivial
  turn hI ht := ht ▸ hI
  step hI hs := hI.trans hs
  worn _ ht := ht ▸ .refl _

end World

namespace Config

open World

variable {c : Config k} {γ α : Type} {W : World γ (Cells k v c.shape)}
variable {I : γ → Cells k v c.shape → Prop} {r : γ} {s : Cells k v c.shape} {key : Word k}
variable {value : Word v} {primary secondary : Census}

/-- A pass considers another bucket than the primary one only if that was loaded up to the
cutoff. -/
theorem cutoff_le_of_mem_considered {x : Fin c.shape.count × Census}
    (h : x ∈ considered c key primary secondary) (hne : x.1 ≠ (c.candidates key).primary) :
    c.shape.len.cutoff ≤ primary.occupancy c.shape.len.slots := by
  rw [considered, preference] at h
  split at h
  · obtain rfl := List.mem_singleton.1 h
    exact absurd rfl hne
  · rename_i hcut
    exact Nat.le_of_not_lt hcut

section
variable (hW : W.Heeds I) (g : Group)
include hW

/-- A key is placed with care: the marks that the scan of the primary bucket counted are still
there. -/
theorem placeNew_heeds (hp : Bounded c primary) (hsec : Bounded c secondary)
    (hload : primary.occupancy c.shape.len.slots ≤ s.marked (c.candidates key).primary)
    (h : I r s) : (c.placeNew g key value primary secondary).Ensures W (fun _ => I) r s
      fun _ => I := by
  refine placeNew_claims g hp hsec (fun _ _ => h) (fun before b census after i horder _ _ => ?_)
    fun _ _ => h
  have hmem : (b, census) ∈ considered c key primary secondary := horder ▸ by simp
  have hfill : I r (s.fill ⟨b, i⟩ key value) := hW.step h (.fill s ⟨b, i⟩ value fun hne =>
    (cutoff_le_of_mem_considered hmem hne).trans hload)
  exact ⟨hW.ready hfill, fun _ _ ht => hW.turn hfill ht⟩

theorem storePass_heeds (replace : Bool) (h : I r s) :
    (c.storePass g key value replace).Ensures W (fun _ => I) r s fun _ => I := by
  have hload : ∀ {r' s'}, W.Turns r s r' s' →
      ((s.bucket (c.candidates key).primary).tags.census (Tag.ofKey key)).occupancy
        c.shape.len.slots ≤ s'.marked (c.candidates key).primary := fun ht =>
    (occupancy_le_marked s _ _).trans ((hW.worn_turns h ht).marked_le _)
  refine storePass_keyed g hW.mild.keyed replace (fun _ _ h' => h') (fun r' s' ht => ?_)
    (fun r₁ s₁ r' s' ht ht' => ?_) h
  · exact placeNew_heeds hW g (bounded_census _ _) bounded_empty (hload ht) (hW.turns h ht)
  · exact placeNew_heeds hW g (bounded_census _ _) (bounded_census _ _) (hload (ht.trans ht'))
      (hW.turns h (ht.trans ht'))

omit g in
theorem withLocks_heeds (g : Lanes) (bs : List Nat) {body : Prog (Cells k v c.shape) α}
    (hbody : ∀ r s, I r s → body.Ensures W (fun _ => I) r s fun _ => I) (h : I r s) :
    (c.withLocks g bs body).Ensures W (fun _ => I) r s fun _ => I :=
  withLocks_keeps hW.toStable (fun l h => hW.step h (.setLocks _ l)) g bs hbody h

theorem store_heeds (key : Word k) (value : Word v) (replace locked : Bool) (h : I r s) :
    (c.store g key value replace locked).Ensures W (fun _ => I) r s fun _ => I := by
  rw [store, Prog.require]
  split
  · exact withLocks_heeds hW g.toLanes _ (fun _ _ h => storePasses_keeps g (fun _ _ h => h)
      (fun _ _ h => storePass_heeds hW g replace h) _ h) h
  · exact h

theorem erase_heeds (key : Word k) (wanted : Option (Word v)) (locked : Bool) (h : I r s) :
    (c.erase g key wanted locked).Ensures W (fun _ => I) r s fun _ => I := by
  rw [erase_eq]
  exact withLocks_heeds hW g.toLanes _ (fun _ _ h => eraseBody_mild hW.mild g wanted h) h

end

end Config

/-! ## Calls -/

namespace Call

open Config World

variable {c : Config k} {γ : Type} {W : World γ (Cells k v c.shape)}
variable {I : γ → Cells k v c.shape → Prop} {r : γ} {s : Cells k v c.shape} {call x : Call k v}

/-- The call hands a slot over from one key to another. -/
def Exchanges : Call k v → Prop
  | .exchange .. => True
  | _ => False

theorem not_exchanges_of_mem_parts (hx : x ∈ call.parts) (h : ¬ call.Exchanges) :
    ¬ x.Exchanges := by
  rcases (eq_or_of_mem_parts hx).2 with rfl | hno
  · exact h
  · cases x with
    | exchange => exact absurd rfl (hno _ _ _ _ _)
    | _ => exact fun h => h

section
variable (hW : W.Heeds I) (g : Group)
include hW

theorem part_heeds (hbulk : ¬ x.Bulk) (hplain : ¬ x.Exchanges) (h : I r s) :
    (x.run c g).Ensures W (fun _ => I) r s fun _ => I := by
  have hupdate : ∀ {key}, x.Updates key → (x.run c g).Ensures W (fun _ => I) r s fun _ => I :=
    fun {key} hx => Call.Updates.keeps hx
      (fun value replace locked => store_heeds hW g key value replace locked h)
      (fun wanted locked => erase_heeds hW g key wanted locked h) h
  have hread : x.writes = [] → (x.run c g).Ensures W (fun _ => I) r s fun _ => I := fun hw =>
    read_ensures hW.toStable hbulk hw (fun _ _ _ => h) h
  cases x with
  | upsert | insertNew | erase | erasePair => exact hupdate rfl
  | exchange => exact absurd trivial hplain
  | upsertAll | upsertEach | insertEach | eraseEach | upsertInChunks => exact absurd trivial hbulk
  | _ => exact hread rfl

/-- **A call that is no exchange makes careful steps only**, as long as the others do the same. -/
theorem run_heeds (hplain : ¬ call.Exchanges) (h : I r s) :
    (call.run c g).Ensures W (fun _ => I) r s fun _ => I :=
  run_ensures (fun _ _ _ => Iff.rfl) call
    (fun _ hx _ _ => part_heeds hW g (eq_or_of_mem_parts hx).1
      (not_exchanges_of_mem_parts hx hplain))
    (fun _ hx r _ => part_heeds (hW.alone r) g (eq_or_of_mem_parts hx).1
      (not_exchanges_of_mem_parts hx hplain)) h

end

theorem solo_careful (g : Group) (hplain : ¬ call.Exchanges) (s : Cells k v c.shape) :
    c.Careful s ((call.run c g).solo s).2 := by
  have hrun := (run_heeds (r := ()) (heeds_alone s) g hplain (.refl s)).solo
  split at hrun <;> rename_i heq <;> rw [heq] <;> exact hrun

end Call

/-! ## Instants -/

namespace Config

variable {c : Config k} {past rest : List (Cells k v c.shape)} {s s' : Cells k v c.shape}

/-- Others who are careful. What is remembered are the instants so far. -/
def considerate (c : Config k) (v : Width) :
    World (List (Cells k v c.shape)) (Cells k v c.shape) where
  ready past s := (past ++ [s]).Pairwise c.Careful
  turn _ s past' s' := s ∈ past' ∧ (past' ++ [s']).Pairwise c.Careful

theorem pairwise_snoc :
    (past ++ [s]).Pairwise c.Careful ↔ past.Pairwise c.Careful ∧ ∀ x ∈ past, c.Careful x s := by
  simp [List.pairwise_append]

/-- A careful change of the last table. -/
theorem pairwise_step (h : (past ++ [s]).Pairwise c.Careful) (hs : c.Careful s s') :
    (past ++ [s']).Pairwise c.Careful := by
  rw [pairwise_snoc] at h ⊢
  exact ⟨h.1, fun x hx => (h.2 x hx).trans hs⟩

/-- The last table is seen twice. -/
theorem pairwise_stay (h : (past ++ [s]).Pairwise c.Careful) :
    (past ++ [s] ++ [s]).Pairwise c.Careful := by
  refine pairwise_snoc.2 ⟨h, fun x hx => ?_⟩
  rcases List.mem_append.1 hx with hx | hx
  · exact (pairwise_snoc.1 h).2 x hx
  · exact List.mem_singleton.1 hx ▸ .refl s

theorem heeds_considerate :
    (considerate c v).Heeds fun past s => (past ++ [s]).Pairwise c.Careful where
  ready h := h
  turn _ ht := ht.2
  step h hs := pairwise_step h hs
  worn _ ht := ((pairwise_snoc.1 ht.2).2 _ ht.1).worn

/-- Instants one after the other: every change was careful, and every overflow is justified. -/
structure Chronicle (c : Config k) (past : List (Cells k v c.shape)) : Prop where
  careful : past.Pairwise c.Careful
  justified : ∀ s ∈ past, c.Justified s

theorem chronicle_fresh : c.Chronicle [(Cells.fresh c.reserved : Cells k v c.shape)] where
  careful := List.pairwise_singleton ..
  justified s hs := by
    obtain rfl := List.mem_singleton.1 hs
    intro p hl
    rw [Cells.key_fresh] at hl
    exact absurd hl not_live_empty

/-- What follows from the last instant goes on with the chronicle. -/
theorem Chronicle.append (h : c.Chronicle (past ++ [s])) (hrest : (s :: rest).Pairwise c.Careful) :
    c.Chronicle (past ++ s :: rest) := by
  obtain ⟨hpast, hlast⟩ := pairwise_snoc.1 h.careful
  have hfirst : ∀ {x}, x ∈ rest → c.Careful s x := List.rel_of_pairwise_cons hrest
  have hjustified : ∀ x ∈ s :: rest, c.Justified x := by
    intro x hx
    have hs : c.Justified s := h.justified s (by simp)
    rcases List.mem_cons.1 hx with rfl | hx
    · exact hs
    · exact (hfirst hx).justified hs
  refine ⟨List.pairwise_append.2 ⟨hpast, hrest, fun x hx y hy => ?_⟩, fun x hx => ?_⟩
  · rcases List.mem_cons.1 hy with rfl | hy
    · exact hlast x hx
    · exact (hlast x hx).trans (hfirst hy)
  · rcases List.mem_append.1 hx with hx | hx
    · exact h.justified x (List.mem_append_left _ hx)
    · exact hjustified x hx

end Config

namespace Scene

open Config

variable {c : Config k} (lanes : Lanes) {schedule : List (Intrusion k v)} {call : Call k v}

theorem effect_careful {i : Intrusion k v} (hplain : ¬ i.call.Exchanges) (s : Cells k v c.shape) :
    c.Careful s (i.effect c lanes s).2 := by
  rw [Intrusion.effect]
  cases (i.call.locks c).find? fun b => s.locks.isLocked b.val with
  | some b => exact .refl s
  | none => exact Call.solo_careful _ hplain s

/-- Intrusions one after the other. What was seen before them was seen after them. -/
theorem watchIntrude_careful (is : List (Intrusion k v)) (hplain : ∀ i ∈ is, ¬ i.call.Exchanges)
    (s : Cells k v c.shape) {x y : Cells k v c.shape} {w : Scene k v × List (Sight c v)}
    (hx : x ∈ instants s w.2) (h : (instants s w.2 ++ [y]).Pairwise c.Careful) :
    let after := is.foldl (fun (w, y) i => watchIntrude c lanes w y i) (w, y)
    x ∈ instants s after.1.2 ∧ (instants s after.1.2 ++ [after.2]).Pairwise c.Careful := by
  induction is generalizing w y with
  | nil => exact ⟨hx, h⟩
  | cons i is ih =>
    obtain ⟨-, -, hcells⟩ := intrude_eq lanes w.1 y i
    have hafter : (watchIntrude c lanes w y i).2 = (i.effect c lanes y).2 := hcells
    have hseen : instants s (watchIntrude c lanes w y i).1.2 =
        instants s w.2 ++ [(i.effect c lanes y).2] := by
      simp [watchIntrude, instants, Sight.cells, hcells]
    have hstep := effect_careful lanes (hplain i (List.mem_cons_self ..)) y
    refine ih (fun j hj => hplain j (List.mem_cons_of_mem _ hj))
      (w := (watchIntrude c lanes w y i).1) (y := (watchIntrude c lanes w y i).2) ?_ ?_
    · exact hseen ▸ List.mem_append_left _ hx
    · rw [hseen, hafter]
      exact pairwise_stay (pairwise_step h hstep)

/-- **Between the instants of a run all is careful**, by whatever way the run ends. -/
theorem watch_careful (hplain : ¬ call.Exchanges) (hothers : ∀ i ∈ schedule, ¬ i.call.Exchanges)
    (s : Cells k v c.shape) :
    (instants s (sights c lanes schedule call s) ++
      [(watch c lanes schedule call s).2.2]).Pairwise c.Careful := by
  have hpause : ∀ (w : Scene k v × List (Sight c v)) past s', past = instants s w.2 →
      (considerate c v).ready past s' →
      ∃ past', (considerate c v).turn past s' past' ((watchEnv c lanes schedule).pause w s').2 ∧
        past' = instants s ((watchEnv c lanes schedule).pause w s').1.2 := by
    rintro w _ s' rfl hs'
    have hseen : instants s (w.2 ++ [.pause s']) = instants s w.2 ++ [s'] := by
      simp [instants, Sight.cells]
    refine ⟨_, ?_, rfl⟩
    refine watchIntrude_careful lanes (schedule.filter (·.moment == w.1.pauses + 1))
      (fun i hi => hothers i (List.mem_of_mem_filter hi)) s (x := s') (y := s')
      (w := ({ w.1 with pauses := w.1.pauses + 1, trace := w.1.trace.push .pause },
        w.2 ++ [.pause s'])) ?_ ?_
    · exact hseen ▸ by simp
    · exact hseen ▸ pairwise_stay hs'
  have hstart : ([s] ++ [s]).Pairwise c.Careful := by
    simpa using Careful.refl s
  have hrun := Call.run_heeds (r := [s]) heeds_considerate
    { lanes with passes := schedule.length + 1 } hplain hstart
  obtain ⟨past, hpast, hend⟩ := Prog.Ensures.exec (V := watchEnv c lanes schedule)
    (R := fun w past => past = instants s w.2) (fun _ _ _ h => h) hpause hrun (r := ({}, [])) rfl
  subst hpast
  split at hend <;> rename_i heq <;> rw [sights, watch, heq] <;> rw [heq] at hend <;> exact hend

end Scene

namespace Traffic

open Config

variable {c : Config k} {ι : Type} [DecidableEq ι] {calls : ι → Call k v} {groups : ι → Group}
variable {s : Cells k v c.shape} {past : List (Cells k v c.shape)} {t : Traffic c v ι}

/-- What the operations come to in any order of turns, with the tables before each turn. -/
inductive Passage (calls : ι → Call k v) (groups : ι → Group) (s : Cells k v c.shape) :
    List (Cells k v c.shape) → Traffic c v ι → Prop
  | start : Passage calls groups s [] (start calls groups s)
  | advance {past t i} (before : Passage calls groups s past t) (free : t.awaited i = none) :
    Passage calls groups s (past ++ [t.cells]) (t.advance i)

/-- All was careful so far, and whatever the others do with care, an operation goes on with care. -/
structure Considerate (past : List (Cells k v c.shape)) (t : Traffic c v ι) : Prop where
  careful : (past ++ [t.cells]).Pairwise c.Careful
  goesOn : ∀ i more s, (past ++ t.cells :: more ++ [s]).Pairwise c.Careful →
    (t.left i).Ensures (considerate c v)
      (fun _ past s => (past ++ [s]).Pairwise c.Careful) (past ++ t.cells :: more) s
      fun _ past s => (past ++ [s]).Pairwise c.Careful

/-- One turn is careful. -/
theorem Considerate.advance (h : Considerate past t) (i : ι) :
    Considerate (past ++ [t.cells]) (t.advance i) := by
  have hturn := (h.goesOn i [] t.cells (pairwise_stay h.careful)).segment fun _ =>
    heeds_considerate.toStable
  have hown : (past ++ [t.cells] ++ [(t.advance i).cells]).Pairwise c.Careful ∧
      ∀ past' s, (considerate c v).turn (past ++ [t.cells]) (t.advance i).cells past' s →
        ((t.advance i).left i).Ensures (considerate c v)
          (fun _ past s => (past ++ [s]).Pairwise c.Careful) past' s
          fun _ past s => (past ++ [s]).Pairwise c.Careful := by
    simp only [Traffic.advance, if_pos]
    generalize (t.left i).segment t.cells = after at hturn
    obtain ⟨_ | _, s'⟩ := after
    · exact ⟨hturn, fun _ _ ht => ht.2⟩
    · exact hturn
  refine ⟨hown.1, fun j more s hs => ?_⟩
  by_cases hj : j = i
  · subst hj
    exact hown.2 _ s ⟨by simp, hs⟩
  · -- for the others the turn is one more instant that they are told of
    have hgo := h.goesOn j ((t.advance i).cells :: more) s (by simpa using hs)
    rw [show (t.advance i).left j = t.left j from if_neg hj]
    simpa using hgo

theorem Passage.considerate (hplain : ∀ i, ¬ (calls i).Exchanges)
    (h : Passage calls groups s past t) : Considerate past t := by
  induction h with
  | start =>
    exact ⟨List.pairwise_singleton .., fun i more s' hs =>
      Call.run_heeds heeds_considerate (groups i) (hplain i) hs⟩
  | advance _ _ ih => exact ih.advance _

/-- The first table is the one that the operations found. -/
theorem Passage.exists_cons (h : Passage calls groups s past t) :
    ∃ rest, past ++ [t.cells] = s :: rest := by
  induction h with
  | start => exact ⟨[], rfl⟩
  | @advance past t i _ _ ih =>
    obtain ⟨rest, hrest⟩ := ih
    exact ⟨rest ++ [(t.advance i).cells], by rw [hrest, List.cons_append]⟩

end Traffic

/-! ## Tables -/

namespace Table

open Config

/-- What a call leaves under a schedule. -/
def leaves (t : Table k v) (lanes : Lanes) (schedule : List (Intrusion k v)) (call : Call k v) :
    Cells k v t.config.shape :=
  (t.handle lanes schedule (.call call)).2.cells

/-- A table with its past: what it held at all instants since it was made, or since it was last
cleared or reseeded. There were no exchanges. Calls were asked under schedules, or several at a time
took turns as they liked, and these may have been left where they were. -/
inductive Witnessed : (t : Table k v) → List (Cells k v t.config.shape) → Prop
  | create {len capacity seed reserved counting t records}
    (made : Table.create len capacity seed reserved counting = .ok (t, records)) : Witnessed t []
  | call {t past} (before : Witnessed t past) (lanes : Lanes) {schedule : List (Intrusion k v)}
    {call : Call k v} (plain : ¬ call.Exchanges) (others : ∀ i ∈ schedule, ¬ i.call.Exchanges) :
    Witnessed { t with cells := t.leaves lanes schedule call }
      (past ++ Scene.instants t.cells (Scene.sights t.config lanes schedule call t.cells))
  | traffic {t past} (before : Witnessed t past) {ι : Type} [DecidableEq ι] {calls : ι → Call k v}
    {groups : ι → Group} (plain : ∀ i, ¬ (calls i).Exchanges)
    {seen : List (Cells k v t.config.shape)} {u : Traffic t.config v ι}
    (turns : Traffic.Passage calls groups t.cells seen u) :
    Witnessed { t with cells := u.cells } (past ++ seen)
  | clear {t past} (before : Witnessed t past) : Witnessed t.clear.1 []
  | reseed {t past} (before : Witnessed t past) (seed : UInt64) : Witnessed (t.reseed seed).1 []

/-- **At all instants** every overflow is justified, and no slot loses its mark. -/
theorem Witnessed.chronicle {t : Table k v} {past : List (Cells k v t.config.shape)}
    (h : t.Witnessed past) : t.config.Chronicle (past ++ [t.cells]) := by
  induction h with
  | @create len capacity seed reserved counting t records made =>
    exact create_cells made ▸ chronicle_fresh
  | @call t past before lanes schedule call plain others ih =>
    have hrun := Scene.watch_careful lanes plain others t.cells
    rw [← handle_cells] at hrun
    rw [List.append_assoc]
    exact ih.append hrun
  | @traffic t past before ι _ calls groups plain seen u turns ih =>
    obtain ⟨rest, hrest⟩ := turns.exists_cons
    rw [List.append_assoc, hrest]
    exact ih.append (hrest ▸ (turns.considerate plain).careful)
  | @clear t past before ih => exact clear_cells t ▸ chronicle_fresh
  | @reseed t past before seed ih =>
    exact reseed_cells t seed ▸ chronicle_fresh (c := (t.reseed seed).1.config)

/-- **Overflow is justified.** At every instant a live key lies outside its primary bucket only if
that bucket has so many slots with a tag that is not the empty one as the cutoff says. These are
the slots that were used since the table was last new. So while fewer slots of a bucket were used,
every key in the table whose primary bucket it is lies in it. -/
theorem Witnessed.overflow_justified {t : Table k v} {past : List (Cells k v t.config.shape)}
    (h : t.Witnessed past) {before rest : List (Cells k v t.config.shape)}
    {s : Cells k v t.config.shape} (hs : past ++ [t.cells] = before ++ s :: rest) :
    t.config.Justified s ∧
    ∀ b, Cells.everMarked (before ++ [s]) b = s.marked b ∧
      (Cells.everMarked (before ++ [s]) b < t.config.shape.len.cutoff →
        ∀ p, t.config.Live (s.key p) → (t.config.candidates (s.key p)).primary = b →
          p.bucket = b) := by
  have hall := h.chronicle
  rw [hs, List.append_cons] at hall
  have hjustified : t.config.Justified s := hall.justified s (by simp)
  have hpast := (List.pairwise_append.1 hall.careful).1
  refine ⟨hjustified, fun b => ?_⟩
  have hmarked : Cells.everMarked (before ++ [s]) b = s.marked b := by
    refine Cells.everMarked_eq (fun x hx => ?_) (by simp) b
    rcases List.mem_append.1 hx with hx | hx
    · exact ((pairwise_snoc.1 hpast).2 x hx).worn
    · exact List.mem_singleton.1 hx ▸ .refl s
  refine ⟨hmarked, fun hfew p hl hb => Classical.byContradiction fun hne => ?_⟩
  rw [hmarked] at hfew
  subst hb
  exact Nat.not_le_of_lt hfew (hjustified p hl hne)

/-- The small table with one bucket used up to the cutoff. -/
def usedUp : Table .w16 .w16 :=
  let call : Call .w16 .w16 := .upsertAll [(1, 1), (4, 4), (6, 6)]
  { small with cells := small.leaves fourLanes [] call }

/-- Another key of that bucket is stored, and one of the three is removed after its scan. -/
def overflowed : Table .w16 .w16 :=
  let call : Call .w16 .w16 := .upsert 11 11 false
  { usedUp with cells := usedUp.leaves fourLanes [⟨1, .erase 4 false⟩] call }

theorem witnessed_overflowed : ∃ past, overflowed.Witnessed past :=
  have made : Table.create ⟨1, by decide, by decide⟩ 8 7 .atTop false = .ok (small, _) := rfl
  have witnessed_usedUp : usedUp.Witnessed _ :=
    (Witnessed.create made).call _ (fun h => h) fun _ hi => absurd hi List.not_mem_nil
  ⟨_, witnessed_usedUp.call _ (fun h => h) fun i hi => by
    obtain rfl := List.mem_singleton.1 hi
    exact fun h => h⟩

/-- Key 11 lies in bucket 0, and its primary bucket 1 has two entries only. But three slots of that
were used. -/
theorem Witnessed.overflow_justified_late :
    let primary : Fin overflowed.config.shape.count := ⟨1, by decide +kernel⟩
    (overflowed.config.candidates 11).primary = primary ∧
    overflowed.placed = [(0, 0, 11, 11), (1, 0, 1, 1), (1, 2, 6, 6)] ∧
    ∃ past, overflowed.Witnessed past ∧ overflowed.config.Justified overflowed.cells ∧
      Cells.everMarked (past ++ [overflowed.cells]) primary =
        overflowed.config.shape.len.cutoff := by
  intro primary
  obtain ⟨past, hwitnessed⟩ := witnessed_overflowed
  have hmain := hwitnessed.overflow_justified rfl
  obtain ⟨hjustified, hmarked⟩ := hmain
  have hthree : overflowed.cells.marked primary = overflowed.config.shape.len.cutoff := by
    decide +kernel
  exact ⟨by decide +kernel, by decide +kernel, past, hwitnessed, hjustified,
    (hmarked primary).1.trans hthree⟩

end Table

end TwoChoice
