import TwoChoice.Table.Pick
import TwoChoice.Proofs.Bucket
import TwoChoice.Proofs.Remove

/-!
# Twins

Two programs are twins if they do the same to related states: they make the same steps, what they
read from related states leads to twins again, and what they write keeps the states related
(`Prog.Twin`). Their answers may differ as the answers of twins may. A run of one goes with a run of
the other step by step (`Prog.Twin.exec`).

States are related here if they have the same keys, tags and locks (`Cells.Twins`). An operation that
stores a value is the twin of the same operation with another value, and an operation that is not
told a value is its own twin, so no operation of these looks at a value to decide what to do.
-/

set_option autoImplicit false

namespace TwoChoice

/-- Two outcomes are both answers, which are related, or the same error. -/
inductive Agree {ε α : Type} (Q : α → α → Prop) : Except ε α → Except ε α → Prop
  | ok {a b} (h : Q a b) : Agree Q (.ok a) (.ok b)
  | error (e : ε) : Agree Q (.error e) (.error e)

/-- Related states have related parts, and related parts make related states. -/
structure Lens.Carries {σ τ : Type} (l : Lens σ τ) (R : σ → σ → Prop) (R₀ : τ → τ → Prop) :
    Prop where
  get : ∀ {s s'}, R s s' → R₀ (l.get s) (l.get s')
  set : ∀ {s s' t t'}, R s s' → R₀ t t' → R (l.set t s) (l.set t' s')

namespace Prog

variable {σ τ ρ α β ι : Type} {R : σ → σ → Prop}

/-- The programs go together on related states, and their answers are related. -/
inductive Twin (R : σ → σ → Prop) (Q : α → α → Prop) : Prog σ α → Prog σ α → Prop
  | done {a b} (h : Q a b) : Twin R Q (.done a) (.done b)
  | halt (x : Halt) : Twin R Q (.halt x) (.halt x)
  | read {q q'} (h : ∀ s s', R s s' → Twin R Q (q s) (q' s')) : Twin R Q (.read q) (.read q')
  | write {f f' p p'} (hf : ∀ s s', R s s' → R (f s) (f' s')) (h : Twin R Q p p') :
    Twin R Q (.write f p) (.write f' p')
  | emit (e : Event) {p p'} (h : Twin R Q p p') : Twin R Q (.emit e p) (.emit e p')
  | sync {p p'} (h : Twin R Q p p') : Twin R Q (.sync p) (.sync p')

namespace Twin

variable {Q Q' : α → α → Prop} {Qβ : β → β → Prop} {p p' : Prog σ α} {k k' : α → Prog σ β}

theorem mono (h : Twin R Q p p') (hQ : ∀ a b, Q a b → Q' a b) : Twin R Q' p p' := by
  induction h with
  | done h => exact .done (hQ _ _ h)
  | halt x => exact .halt x
  | read _ ih => exact .read ih
  | write hf _ ih => exact .write hf ih
  | emit e _ ih => exact .emit e ih
  | sync _ ih => exact .sync ih

theorem bind (h : Twin R Q p p') (hk : ∀ a b, Q a b → Twin R Qβ (k a) (k' b)) :
    Twin R Qβ (p >>= k) (p' >>= k') := by
  rw [bind_eq, bind_eq]
  induction h with
  | done h => exact hk _ _ h
  | halt x => exact .halt x
  | read _ ih => exact .read ih
  | write hf _ ih => exact .write hf ih
  | emit e _ ih => exact .emit e ih
  | sync _ ih => exact .sync ih

/-- Twins with the same answer go on with the same. -/
theorem same_bind (h : Twin R (· = ·) p p') (hk : ∀ a, Twin R Qβ (k a) (k' a)) :
    Twin R Qβ (p >>= k) (p' >>= k') :=
  h.bind fun a b hab => by
    subst hab
    exact hk a

theorem map {f : α → β} (h : Twin R Q p p') (hf : ∀ a b, Q a b → Qβ (f a) (f b)) :
    Twin R Qβ (f <$> p) (f <$> p') := by
  rw [map_eq, map_eq]
  exact h.bind fun a b hab => .done (hf a b hab)

theorem zoom {R₀ : τ → τ → Prop} {l : Lens σ τ} {p p' : Prog τ α} (hl : l.Carries R R₀)
    (h : Twin R₀ Q p p') : Twin R Q (p.zoom l) (p'.zoom l) := by
  induction h with
  | done h => exact .done h
  | halt x => exact .halt x
  | read _ ih => exact .read fun s s' hs => ih _ _ (hl.get hs)
  | write hf _ ih => exact .write (fun s s' hs => hl.set hs (hf _ _ (hl.get hs))) ih
  | emit e _ ih => exact .emit e ih
  | sync _ ih => exact .sync ih

theorem attempt (h : Twin R Q p p') : Twin R (Agree Q) p.attempt p'.attempt := by
  induction h with
  | done h => exact .done (.ok h)
  | halt x =>
    cases x with
    | fault f => exact .done (.error f)
    | waiting | starved => exact .halt _
  | read _ ih => exact .read ih
  | write hf _ ih => exact .write hf ih
  | emit e _ ih => exact .emit e ih
  | sync _ ih => exact .sync ih

theorem ofExcept {a b : Except Fault α} (h : Agree Q a b) :
    Twin R Q (Prog.ofExcept a) (Prog.ofExcept b) := by
  cases h with
  | ok h => exact .done h
  | error f => exact .halt (.fault f)

/-- Every program goes with itself on the same state. -/
theorem refl (p : Prog σ α) : Twin (· = ·) (· = ·) p p := by
  induction p with
  | done a => exact .done rfl
  | halt x => exact .halt x
  | read q ih => exact .read fun s s' hs => hs ▸ ih s
  | write f p ih => exact .write (fun _ _ hs => congrArg f hs) ih
  | emit e p ih => exact .emit e ih
  | sync p ih => exact .sync ih

theorem require (c : Prop) [Decidable c] (f : Fault) :
    Twin R (· = ·) (Prog.require c f) (Prog.require c f) := by
  rw [Prog.require]
  split
  · exact .done rfl
  · exact .halt _

theorem announce (e : Event) : Twin R (· = ·) (Prog.announce e) (Prog.announce e) :=
  .emit e (.done rfl)

theorem pause : Twin R (· = ·) (Prog.pause : Prog σ Unit) Prog.pause := .sync (.done rfl)

/-- **Twins run alike**, in surroundings that keep related states related and see the same of
both. -/
theorem exec {V : Env ρ σ} (hpause : ∀ r s s', R s s' →
      (V.pause r s').1 = (V.pause r s).1 ∧ R (V.pause r s).2 (V.pause r s').2)
    (h : Twin R Q p p') {r : ρ} {s s' : σ} (hs : R s s') :
    Agree Q (p.exec V r s).1 (p'.exec V r s').1 ∧
      (p'.exec V r s').2.1 = (p.exec V r s).2.1 ∧ R (p.exec V r s).2.2 (p'.exec V r s').2.2 := by
  induction h generalizing r s s' with
  | done h => exact ⟨.ok h, rfl, hs⟩
  | halt x => exact ⟨.error x, rfl, hs⟩
  | read _ ih => exact ih s s' hs hs
  | write hf _ ih => exact ih (hf s s' hs)
  | emit e _ ih => exact ih hs
  | sync _ ih =>
    obtain ⟨hr, hs'⟩ := hpause r s s' hs
    simp only [Prog.exec, hr]
    exact ih hs'

theorem solo (h : Twin R Q p p') {s s' : σ} (hs : R s s') :
    Agree Q (p.solo s).1 (p'.solo s').1 ∧ R (p.solo s).2 (p'.solo s').2 := by
  have hruns := h.exec (V := Tally.alone σ) (fun _ _ _ hs => ⟨rfl, hs⟩) (r := {}) hs
  obtain ⟨hanswer, hstate⟩ := exec_solo (V := Tally.alone σ) (fun _ _ => rfl) p {} s
  obtain ⟨hanswer', hstate'⟩ := exec_solo (V := Tally.alone σ) (fun _ _ => rfl) p' {} s'
  rw [hanswer, hanswer', hstate, hstate'] at hruns
  exact ⟨hruns.1, hruns.2.2⟩

end Twin

/-! ## Loops -/

theorem twin_findSomeM? {Q : β → β → Prop} {f f' : ι → Prog σ (Option β)}
    (h : ∀ a, Twin R (Option.Rel Q) (f a) (f' a)) :
    ∀ xs : List ι, Twin R (Option.Rel Q) (xs.findSomeM? f) (xs.findSomeM? f')
  | [] => .done .none
  | a :: xs => by
    rw [List.findSomeM?, List.findSomeM?]
    refine (h a).bind fun x y hxy => ?_
    cases hxy with
    | some hb => exact .done (.some hb)
    | none => exact twin_findSomeM? h xs

theorem rel_eq {x y : Option β} : Option.Rel (· = ·) x y ↔ x = y := by
  constructor
  · rintro (h | _)
    · rw [h]
    · rfl
  · rintro rfl
    cases x with
    | none => exact .none
    | some b => exact .some rfl

theorem twin_findSomeM?_same {f f' : ι → Prog σ (Option β)}
    (h : ∀ a, Twin R (· = ·) (f a) (f' a)) (xs : List ι) :
    Twin R (· = ·) (xs.findSomeM? f) (xs.findSomeM? f') :=
  (twin_findSomeM? (fun a => (h a).mono fun _ _ => rel_eq.2) xs).mono fun _ _ => rel_eq.1

theorem twin_anyM {f f' : ι → Prog σ Bool} (h : ∀ a, Twin R (· = ·) (f a) (f' a)) :
    ∀ xs : List ι, Twin R (· = ·) (xs.anyM f) (xs.anyM f')
  | [] => .done rfl
  | a :: xs => by
    rw [List.anyM, List.anyM]
    refine (h a).same_bind fun found => ?_
    cases found with
    | true => exact .done rfl
    | false => exact twin_anyM h xs

theorem twin_forM {f f' : ι → Prog σ Unit} (h : ∀ a, Twin R (· = ·) (f a) (f' a)) :
    ∀ xs : List ι, Twin R (· = ·) (xs.forM f) (xs.forM f')
  | [] => .done rfl
  | a :: xs => by
    rw [List.forM_eq_forM, List.forM_cons, List.forM_cons]
    exact (h a).same_bind fun _ => twin_forM h xs

theorem twin_foldlM {Q : β → β → Prop} {f f' : β → ι → Prog σ β}
    (h : ∀ b b' a, Q b b' → Twin R Q (f b a) (f' b' a)) :
    ∀ (xs : List ι) {b b' : β}, Q b b' → Twin R Q (xs.foldlM f b) (xs.foldlM f' b')
  | [], _, _, hb => .done hb
  | a :: xs, b, b', hb => by
    rw [List.foldlM_cons, List.foldlM_cons]
    exact (h b b' a hb).bind fun _ _ => twin_foldlM h xs

end Prog

open Prog

/-! ## Lanes -/

namespace Lanes

variable {σ α : Type} {R : σ → σ → Prop} (g : Lanes)

theorem twin_elect {Q : α → α → Prop} {act act' : Prog σ α} {lane : Nat} (h : Twin R Q act act') :
    Twin R Q (g.elect lane fun _ => act) (g.elect lane fun _ => act') :=
  (Twin.announce _).same_bind fun _ => (Twin.require _ _).same_bind fun _ => h

theorem twin_ballot {vote vote' : Nat → Prog σ Bool} (h : ∀ i, Twin R (· = ·) (vote i) (vote' i)) :
    Twin R (· = ·) (g.ballot vote) (g.ballot vote') := by
  refine Twin.same_bind (twin_foldlM (fun votes votes' lane hv => ?_) _ rfl) fun _ =>
    (Twin.announce _).same_bind fun _ => .done rfl
  subst hv
  exact (h lane).same_bind fun _ => .done rfl

theorem twin_poll (len : Nat) {vote vote' : Nat → Prog σ Bool}
    (h : ∀ i, Twin R (· = ·) (vote i) (vote' i)) :
    Twin R (· = ·) (g.poll len vote) (g.poll len vote') := by
  refine (Twin.require _ _).same_bind fun _ => twin_foldlM (fun mask mask' stride hm => ?_) _ rfl
  subst hm
  refine (g.twin_ballot fun lane => ?_).same_bind fun _ => .done rfl
  split
  · exact h _
  · exact .done rfl

end Lanes

/-! ## Slots -/

namespace Slots

variable {k v : Width} {L : BucketLen}

/-- The slots hold the same keys. -/
def Twins (t t' : Slots k v L) : Prop := ∀ i, (t'.get i).key = (t.get i).key

theorem Twins.put {t t' : Slots k v L} (h : t.Twins t') (i : Fin L.slots) {x x' : Slot k v}
    (hx : x'.key = x.key) : (t.put i x).Twins (t'.put i x') := by
  intro j
  rw [get_put, get_put]
  split
  · exact hx
  · exact h j

theorem twin_slotAt (index : Nat) :
    Twin Twins (fun x x' => x'.key = x.key) (slotAt (k := k) (v := v) (L := L) index)
      (slotAt index) :=
  .read fun s s' h => by
    split
    · rename_i hi
      exact .done (h ⟨index, hi⟩)
    · exact .halt _

theorem twin_keyAt (index : Nat) :
    Twin Twins (· = ·) (keyAt (k := k) (v := v) (L := L) index) (keyAt index) :=
  (twin_slotAt index).bind fun _ _ h => .done h.symm

theorem twin_valueAt (index : Nat) :
    Twin Twins (fun _ _ => True) (valueAt (k := k) (v := v) (L := L) index) (valueAt index) :=
  (twin_slotAt index).bind fun _ _ _ => .done trivial

theorem twin_update (index : Nat) {f f' : Slot k v → Slot k v}
    (hf : ∀ x x', x'.key = x.key → (f' x').key = (f x).key) :
    Twin Twins (· = ·) (update (L := L) index f) (update index f') := by
  refine (Twin.require _ _).same_bind fun _ => .write (fun s s' h => ?_) (.done rfl)
  split
  · rename_i hi
    exact h.put ⟨index, hi⟩ (hf _ _ (h ⟨index, hi⟩))
  · exact h

theorem twin_setKey (index : Nat) (key : Word k) :
    Twin Twins (· = ·) (setKey (v := v) (L := L) index key) (setKey index key) :=
  twin_update index fun _ _ _ => rfl

theorem twin_setValue (index : Nat) (value value' : Word v) :
    Twin Twins (· = ·) (setValue (k := k) (L := L) index value) (setValue index value') :=
  twin_update index fun _ _ h => h

theorem twin_exchangeKey (index : Nat) (current new : Word k) :
    Twin Twins (· = ·) (exchangeKey (v := v) (L := L) index current new)
      (exchangeKey index current new) := by
  refine (twin_keyAt index).same_bind fun key => ?_
  obtain ⟨_ | _, key'⟩ := Word.compareExchange key current new
  · exact .done rfl
  · exact (twin_setKey index key').same_bind fun _ => .done rfl

theorem twin_valueOf (index : Nat) (key : Word k) :
    Twin Twins (Option.Rel fun _ _ => True) (valueOf (v := v) (L := L) index key)
      (valueOf index key) := by
  refine (twin_keyAt index).same_bind fun found => ?_
  split
  · exact .done .none
  · refine (twin_valueAt index).bind fun _ _ _ => (twin_keyAt index).same_bind fun found => .done ?_
    split
    · exact .some trivial
    · exact .none

variable (g : Lanes) (r : ReservedKeys k) (key : Word k) (candidates : Mask)

theorem twin_pollKey :
    Twin Twins (· = ·) (pollKey (v := v) (L := L) g key candidates) (pollKey g key candidates) := by
  refine (Twin.announce _).same_bind fun _ => (g.twin_poll _ fun i => ?_).same_bind fun _ =>
    Twin.pause.same_bind fun _ => .done rfl
  split
  · exact (twin_keyAt i).same_bind fun _ => .done rfl
  · exact .done rfl

theorem twin_find? :
    Twin Twins (Option.Rel fun _ _ => True) (find? (v := v) (L := L) g key candidates)
      (find? g key candidates) :=
  (twin_pollKey g key candidates).same_bind fun hits =>
    twin_findSomeM? (fun index => g.twin_elect (twin_valueOf index key)) hits.indices

theorem twin_findIndex? :
    Twin Twins (· = ·) (findIndex? (v := v) (L := L) g key candidates)
      (findIndex? g key candidates) :=
  (twin_pollKey g key candidates).same_bind fun _ => .done rfl

theorem twin_actOnKey {act act' : Nat → Prog (Slots k v L) Bool}
    (h : ∀ index, Twin Twins (· = ·) (act index) (act' index)) :
    Twin Twins (· = ·) (actOnKey g key candidates act) (actOnKey g key candidates act') := by
  refine (twin_pollKey g key candidates).same_bind fun hits =>
    twin_findSomeM?_same (fun index => (g.twin_elect (h index)).same_bind fun done => ?_) hits.indices
  split
  · exact Twin.pause.same_bind fun _ => .done rfl
  · exact .done rfl

/-- The value that is written does not matter. -/
theorem twin_overwrite (value value' : Word v) :
    Twin Twins (· = ·) (overwrite (L := L) g key value candidates)
      (overwrite g key value' candidates) := by
  refine twin_actOnKey g key candidates fun index =>
    (twin_exchangeKey index key key).same_bind fun held => ?_
  split
  · exact (twin_setValue index value value').same_bind fun _ => .done rfl
  · exact .done rfl

/-- A key is replaced in the same slot, if no value is wanted. -/
theorem twin_rekey (replacement : Word k) :
    Twin Twins (· = ·) (rekey (v := v) (L := L) g key replacement (fun _ => true) candidates)
      (rekey g key replacement (fun _ => true) candidates) :=
  twin_actOnKey g key candidates fun index =>
    (twin_valueAt index).bind fun _ _ _ => twin_exchangeKey index key replacement

theorem twin_pollLive :
    Twin Twins (· = ·) (pollLive (v := v) (L := L) g r) (pollLive g r) :=
  (Twin.announce _).same_bind fun _ =>
    (g.twin_poll _ fun i => (twin_keyAt i).same_bind fun _ => .done rfl).same_bind fun _ =>
      Twin.pause.same_bind fun _ => .done rfl

theorem twin_readPair (index : Nat) :
    Twin Twins (Option.Rel fun e e' => e'.1 = e.1) (readPair (v := v) (L := L) g r index)
      (readPair g r index) := by
  refine g.twin_elect ((twin_keyAt index).same_bind fun found => ?_)
  split
  · exact .done .none
  · refine (twin_valueOf index found).bind fun _ _ h => .done ?_
    cases h with
    | some _ => exact .some rfl
    | none => exact .none

theorem twin_publish (index : Nat) (value value' : Word v) :
    Twin Twins (· = ·) (publish (L := L) g r index key value) (publish g r index key value') :=
  (g.twin_elect ((twin_setKey index _).same_bind fun _ =>
    (twin_setValue index value value').same_bind fun _ => twin_setKey index key)).same_bind
      fun _ => Twin.pause

end Slots

/-! ## Tables -/

namespace Cells

variable {k v : Width} {sh : Shape}

/-- The tables have the same keys, tags and locks. -/
structure Twins (s s' : Cells k v sh) : Prop where
  tag : ∀ p, s'.tag p = s.tag p
  key : ∀ p, s'.key p = s.key p
  locks : s'.locks = s.locks

theorem Twins.refl (s : Cells k v sh) : s.Twins s := ⟨fun _ => rfl, fun _ => rfl, rfl⟩

variable {s s' : Cells k v sh}

theorem Twins.tags (h : s.Twins s') (b : Fin sh.count) : (s.bucket b).tags = (s'.bucket b).tags :=
  Tags.ext_get fun i hi => (h.tag ⟨b, ⟨i, hi⟩⟩).symm

theorem Twins.slots (h : s.Twins s') (b : Fin sh.count) :
    (s.bucket b).slots.Twins (s'.bucket b).slots := fun i => h.key ⟨b, i⟩

/-- Tables with a twin in the place of one bucket. -/
theorem Twins.setBucket (h : s.Twins s') (b : Fin sh.count) {x x' : Bucket k v sh.len}
    (htags : x.tags = x'.tags) (hslots : x.slots.Twins x'.slots) :
    ((bucketLens b).set x s).Twins ((bucketLens b).set x' s') := by
  refine ⟨fun p => ?_, fun p => ?_, ?_⟩
  · rw [Cells.tag, Cells.tag, bucket_set, bucket_set]
    split
    · rw [htags]
    · exact h.tag p
  · rw [Cells.key, Cells.key, slot, slot, bucket_set, bucket_set]
    split
    · exact hslots p.index
    · exact h.key p
  · exact h.locks

theorem tagsLens_carries (b : Fin sh.count) :
    (tagsLens b : Lens (Cells k v sh) (Tags sh.len)).Carries Twins (· = ·) :=
  ⟨fun h => h.tags b, fun h ht => h.setBucket b ht (h.slots b)⟩

theorem slotsLens_carries (b : Fin sh.count) :
    (slotsLens b : Lens (Cells k v sh) (Slots k v sh.len)).Carries Twins Slots.Twins :=
  ⟨fun h => h.slots b, fun h ht => h.setBucket b (h.tags b) ht⟩

theorem locksLens_carries :
    (locksLens : Lens (Cells k v sh) (Locks sh.count)).Carries Twins (· = ·) :=
  ⟨fun h => h.locks.symm, fun h ht => ⟨h.tag, h.key, ht.symm⟩⟩

end Cells

/-! ## Operations -/

namespace Config

variable {k v : Width} {c : Config k} (g : Group) (b : Fin c.shape.count) (key : Word k)

theorem twin_atTags {α : Type} (p : Prog (Tags c.shape.len) α) :
    Twin Cells.Twins (· = ·) (c.atTags (v := v) b p) (c.atTags b p) :=
  (Twin.refl p).zoom (Cells.tagsLens_carries b)

theorem twin_atSlots {α : Type} {Q : α → α → Prop} {p p' : Prog (Slots k v c.shape.len) α}
    (h : Twin Slots.Twins Q p p') : Twin Cells.Twins Q (c.atSlots b p) (c.atSlots b p') :=
  h.zoom (Cells.slotsLens_carries b)

theorem twin_withLocks {α : Type} {Q : α → α → Prop} (lanes : Lanes) (buckets : List Nat)
    {body body' : Prog (Cells k v c.shape) α} (h : Twin Cells.Twins Q body body') :
    Twin Cells.Twins Q (c.withLocks lanes buckets body) (c.withLocks lanes buckets body') :=
  (twin_forM (fun _ => (Twin.refl _).zoom Cells.locksLens_carries) buckets).same_bind fun _ =>
    h.attempt.bind fun _ _ hended =>
      (twin_forM (fun _ => (Twin.refl _).zoom Cells.locksLens_carries) buckets).same_bind fun _ =>
        .ofExcept hended

theorem twin_find? :
    Twin Cells.Twins (Option.Rel fun _ _ => True) (c.find? (v := v) g key) (c.find? g key) := by
  refine twin_findSomeM? (fun b => (twin_atTags b _).same_bind fun census => ?_) _
  split
  · exact .done .none
  · exact twin_atSlots b (Slots.twin_find? g.toLanes key _)

theorem twin_contains :
    Twin Cells.Twins (· = ·) (c.contains (v := v) g key) (c.contains g key) :=
  (twin_find? g key).bind fun _ _ h => .done (by cases h <;> rfl)

section
variable (value value' : Word v) (replace : Bool)

theorem twin_lookFor (census : Census) :
    Twin Cells.Twins (· = ·) (c.lookFor g b key value census replace)
      (c.lookFor g b key value' census replace) := by
  rw [lookFor, lookFor]
  split
  · exact .done rfl
  · refine Twin.same_bind (twin_atSlots b ?_) fun _ => .done rfl
    split
    · exact Slots.twin_overwrite g.toLanes key _ value value'
    · exact Slots.twin_findIndex? g.toLanes key _

theorem twin_place (census : Census) :
    Twin Cells.Twins (· = ·) (c.place g b key value census) (c.place g b key value' census) := by
  rw [place, place]
  split
  · exact .done rfl
  have hpublish := fun index =>
    twin_atSlots b (Slots.twin_publish g.toLanes c.reserved key index value value')
  refine (twin_atTags b _).same_bind fun claimed => ?_
  cases claimed with
  | some index => exact (hpublish index).same_bind fun _ => .done rfl
  | none =>
    refine (twin_atTags b _).same_bind fun claimed => ?_
    cases claimed with
    | some index => exact (hpublish index).same_bind fun _ => .done rfl
    | none => exact .done rfl

theorem twin_placeNew (primary secondary : Census) :
    Twin Cells.Twins (· = ·) (c.placeNew g key value primary secondary)
      (c.placeNew g key value' primary secondary) := by
  rw [placeNew, placeNew]
  split
  · exact (Twin.announce _).same_bind fun _ => .done rfl
  have hload : ∀ census : Census, Twin Cells.Twins (· = ·)
      (census.load c.shape.len.slots : Prog (Cells k v c.shape) Nat)
      (census.load c.shape.len.slots) := fun _ =>
    (Twin.require _ _).same_bind fun _ => .done rfl
  refine (hload primary).same_bind fun _ => (hload secondary).same_bind fun _ => ?_
  refine (twin_anyM (fun x => ?_) _).same_bind fun placed => ?_
  · exact twin_place g x.1 key value value' x.2
  · split
    · exact .done rfl
    · exact (Twin.announce _).same_bind fun _ => .done rfl

theorem twin_storePass :
    Twin Cells.Twins (· = ·) (c.storePass g key value replace)
      (c.storePass g key value' replace) := by
  rw [storePass, storePass]
  refine (twin_atTags _ _).same_bind fun primary => ?_
  refine (twin_lookFor g _ key value value' replace primary).same_bind fun found => ?_
  split
  · exact .done rfl
  split
  · exact twin_placeNew g key value value' _ _
  refine (twin_atTags _ _).same_bind fun secondary => ?_
  refine (twin_lookFor g _ key value value' replace secondary).same_bind fun found => ?_
  split
  · exact .done rfl
  · exact twin_placeNew g key value value' _ _

theorem twin_storePasses : ∀ n : Nat,
    Twin Cells.Twins (· = ·) (c.storePasses g key value replace n)
      (c.storePasses g key value' replace n)
  | 0 => .halt _
  | n + 1 => by
    rw [storePasses, storePasses]
    refine (twin_storePass g key value value' replace).same_bind fun stored => ?_
    cases stored with
    | some stored => exact .done rfl
    | none => exact twin_storePasses n

/-- A store goes where a store of another value goes. -/
theorem twin_store (locked : Bool) :
    Twin Cells.Twins (· = ·) (c.store g key value replace locked)
      (c.store g key value' replace locked) :=
  (Twin.require _ _).same_bind fun _ =>
    twin_withLocks g.toLanes _ (twin_storePasses g key value value' replace g.passes)

theorem twin_upsert (locked : Bool) :
    Twin Cells.Twins (· = ·) (c.upsert g key value locked) (c.upsert g key value' locked) :=
  (twin_store g key value value' true locked).same_bind fun _ => .done rfl

theorem twin_insertNew :
    Twin Cells.Twins (· = ·) (c.insertNew g key value) (c.insertNew g key value') := by
  rw [insertNew, insertNew]
  split
  · exact .done rfl
  · refine (twin_store g key value value' false true).same_bind fun stored => ?_
    cases stored <;> exact .done rfl

end

/-- A removal that is given no value does not look at the values. -/
theorem twin_erase (locked : Bool) :
    Twin Cells.Twins (· = ·) (c.erase (v := v) g key none locked) (c.erase g key none locked) := by
  rw [erase_eq]
  refine twin_withLocks g.toLanes _ (Twin.same_bind (twin_findSomeM?_same (fun b => ?_) _) fun _ =>
    .done rfl)
  refine (twin_atTags b _).same_bind fun census => ?_
  split
  · exact .done rfl
  refine (twin_atSlots b (Slots.twin_rekey g.toLanes key census.matching _)).same_bind fun taken => ?_
  cases taken with
  | none => exact .done rfl
  | some index => exact (twin_atTags b _).same_bind fun _ => .done rfl

theorem twin_pick (salt : UInt64) :
    Twin Cells.Twins (Option.Rel fun e e' => e'.1 = e.1) (c.pick (v := v) g key salt)
      (c.pick g key salt) := by
  have hread : ∀ live : List (Fin c.shape.count × Nat),
      Twin Cells.Twins (Option.Rel fun e e' => e'.1 = e.1)
        (live.findSomeM? fun x => c.atSlots (v := v) x.1 (Slots.readPair g.toLanes c.reserved x.2))
        (live.findSomeM? fun x => c.atSlots x.1 (Slots.readPair g.toLanes c.reserved x.2)) :=
    twin_findSomeM? fun x => twin_atSlots x.1 (Slots.twin_readPair g.toLanes c.reserved x.2)
  rw [pick]
  refine (twin_atSlots _ (Slots.twin_pollLive g.toLanes c.reserved)).same_bind fun primary => ?_
  split
  · simp only [pure_bind]
    split
    · exact .done .none
    · exact hread _
  · refine (twin_atSlots _ (Slots.twin_pollLive g.toLanes c.reserved)).same_bind fun secondary => ?_
    dsimp only
    split
    · exact .done .none
    · exact hread _

theorem twin_pickSmaller :
    Twin Cells.Twins (Option.Rel fun e e' => e'.1 = e.1) (c.pickSmaller (v := v) g key)
      (c.pickSmaller g key) := by
  -- the best pairs so far have the same hash and the same key
  let same := fun e e' : UInt64 × Word k × Word v => e'.1 = e.1 ∧ e'.2.1 = e.2.1
  have hlesser : ∀ {best best' e e'}, Option.Rel same best best' → same e e' →
      Option.Rel same (lesser best e) (lesser best' e') := by
    intro best best' e e' hbest he
    cases hbest with
    | none => exact .some he
    | some h =>
      rw [lesser, lesser, he.1, h.1]
      split
      · exact .some he
      · exact .some h
  refine Twin.bind (Q := Option.Rel same) (twin_foldlM (fun best best' b hbest => ?_) _ .none)
    fun best best' hbest => .done ?_
  · refine (twin_atSlots b (Slots.twin_pollLive g.toLanes c.reserved)).same_bind fun live =>
      twin_foldlM (fun best best' index hbest => ?_) _ hbest
    refine (twin_atSlots b (Slots.twin_readPair g.toLanes c.reserved index)).bind fun x x' hx => ?_
    cases hx with
    | none => exact .done hbest
    | @some e e' he =>
      obtain ⟨key', value⟩ := e
      obtain ⟨key'', value'⟩ := e'
      obtain rfl : key'' = key' := he
      exact .done (hlesser hbest ⟨rfl, rfl⟩)
  · cases hbest with
    | none => exact .none
    | some h =>
      simp only [Option.filter, h.1]
      split
      · exact .some h.2
      · exact .none

end Config

end TwoChoice
