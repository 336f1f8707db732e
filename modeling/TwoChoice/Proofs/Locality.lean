import TwoChoice.Proofs.Picks

/-!
# Where an operation looks

A `Prog.Footprint` is a part of a state: it says when two states look the same there, and when a
state differs from another nowhere else. `p.Within F`: the program `p` reads and writes in `F` only.
Its reads can be answered by either of two states that look the same there, and its writes keep them
so. Everything that a program is built of keeps it within a footprint (`Within.bind`, `Covers.zoom`,
`within_findSomeM?` and so on), so that an operation is checked part by part, as it is written.

The operations on one key are within the candidate buckets of that key and the locks
(`Call.within_run`); the old key of an exchange decides about the locks only. So two operations with
no bucket in common do not see each other, and they commute (`Table.Reachable.local_commute`).
-/

set_option autoImplicit false

namespace TwoChoice

namespace Prog

variable {σ τ α β ι : Type}

/-- A part of a state. -/
structure Footprint (σ : Type) where
  /-- The states look the same in this part. -/
  Same : σ → σ → Prop
  /-- The second state differs from the first in this part only. -/
  Keeps : σ → σ → Prop
  refl : ∀ s, Keeps s s
  trans : ∀ {s s' s''}, Keeps s s' → Keeps s' s'' → Keeps s s''

/-- The program reads and writes in the footprint only. -/
def Within (F : Footprint σ) : Prog σ α → Prop
  | .done _ => True
  | .halt _ => True
  | .read k => (∀ s s', F.Same s s' → k s = k s') ∧ ∀ s, (k s).Within F
  | .write f p =>
    (∀ s s', F.Same s s' → F.Same (f s) (f s')) ∧ (∀ s, F.Keeps s (f s)) ∧ p.Within F
  | .emit _ p => p.Within F
  | .sync p => p.Within F

/-- The lens points into the footprint. -/
structure Footprint.Covers (F : Footprint σ) (l : Lens σ τ) : Prop where
  get : ∀ {s s'}, F.Same s s' → l.get s = l.get s'
  set : ∀ t {s s'}, F.Same s s' → F.Same (l.set t s) (l.set t s')
  keeps : ∀ t s, F.Keeps s (l.set t s)

variable {F : Footprint σ}

theorem Footprint.Covers.comp {υ : Type} {l : Lens σ τ} (h : F.Covers l) (m : Lens τ υ) :
    F.Covers (l.comp m) where
  get hs := congrArg m.get (h.get hs)
  set u s s' hs := by
    show F.Same (l.set (m.set u (l.get s)) s) (l.set (m.set u (l.get s')) s')
    rw [h.get hs]
    exact h.set _ hs
  keeps u s := h.keeps _ s

/-! ## What programs are built of -/

theorem Within.bind {p : Prog σ α} {k : α → Prog σ β} (h : p.Within F)
    (hk : ∀ a, (k a).Within F) : (p >>= k).Within F := by
  rw [bind_eq]
  induction p with
  | done a => exact hk a
  | halt => trivial
  | read q ih => exact ⟨fun s s' hs => congrArg (·.andThen k) (h.1 s s' hs), fun s => ih s (h.2 s)⟩
  | write f p ih => exact ⟨h.1, h.2.1, ih h.2.2⟩
  | emit e p ih => exact ih h
  | sync p ih => exact ih h

theorem Within.map {p : Prog σ α} (h : p.Within F) (f : α → β) : (f <$> p).Within F := by
  rw [map_eq]
  exact h.bind fun _ => trivial

/-- A program on a part in the footprint is within it, whatever it does. -/
theorem Footprint.Covers.zoom {l : Lens σ τ} (hl : F.Covers l) (p : Prog τ α) :
    (p.zoom l).Within F := by
  induction p with
  | done | halt => trivial
  | read q ih =>
    exact ⟨fun s s' hs => congrArg (fun t => (q t).zoom l) (hl.get hs), fun s => ih (l.get s)⟩
  | write f p ih =>
    refine ⟨fun s s' hs => ?_, fun s => hl.keeps _ s, ih⟩
    rw [Lens.modify, Lens.modify, hl.get hs]
    exact hl.set _ hs
  | emit e p ih => exact ih
  | sync p ih => exact ih

theorem Within.attempt {p : Prog σ α} (h : p.Within F) : p.attempt.Within F := by
  induction p with
  | done => trivial
  | halt x => cases x <;> trivial
  | read q ih => exact ⟨fun s s' hs => congrArg Prog.attempt (h.1 s s' hs), fun s => ih s (h.2 s)⟩
  | write f p ih => exact ⟨h.1, h.2.1, ih h.2.2⟩
  | emit e p ih => exact ih h
  | sync p ih => exact ih h

theorem within_ofExcept (x : Except Fault α) : (ofExcept x : Prog σ α).Within F := by
  cases x <;> trivial

theorem within_require {c : Prop} [Decidable c] (f : Fault) :
    (require c f : Prog σ Unit).Within F := by
  rw [require]
  split <;> trivial

theorem within_findSomeM? {f : ι → Prog σ (Option β)} :
    ∀ {xs : List ι}, (∀ a ∈ xs, (f a).Within F) → (xs.findSomeM? f).Within F
  | [], _ => trivial
  | a :: xs, h => by
    rw [List.findSomeM?]
    refine (h a (List.mem_cons_self ..)).bind fun r => ?_
    cases r with
    | none => exact within_findSomeM? fun b hb => h b (List.mem_cons_of_mem _ hb)
    | some => trivial

theorem within_anyM {f : ι → Prog σ Bool} :
    ∀ {xs : List ι}, (∀ a ∈ xs, (f a).Within F) → (xs.anyM f).Within F
  | [], _ => trivial
  | a :: xs, h => by
    rw [List.anyM]
    refine (h a (List.mem_cons_self ..)).bind fun r => ?_
    cases r with
    | false => exact within_anyM fun b hb => h b (List.mem_cons_of_mem _ hb)
    | true => trivial

theorem within_forM {f : ι → Prog σ Unit} (h : ∀ a, (f a).Within F) :
    ∀ xs : List ι, (xs.forM f).Within F
  | [] => trivial
  | a :: xs => by
    rw [List.forM_eq_forM, List.forM_cons]
    exact (h a).bind fun _ => within_forM h xs

/-! ## Runs -/

/-- From states that look the same, a program comes to the same end. -/
theorem Within.solo {p : Prog σ α} {s s' : σ} (h : p.Within F) (hs : F.Same s s') :
    (p.solo s).1 = (p.solo s').1 ∧ F.Same (p.solo s).2 (p.solo s').2 := by
  induction p generalizing s s' with
  | done | halt => exact ⟨rfl, hs⟩
  | read q ih =>
    rw [Prog.solo, Prog.solo, h.1 s s' hs]
    exact ih s' (h.2 s') hs
  | write f p ih => exact ih h.2.2 (h.1 s s' hs)
  | emit e p ih => exact ih h hs
  | sync p ih => exact ih h hs

theorem Within.solo_keeps {p : Prog σ α} (h : p.Within F) (s : σ) : F.Keeps s (p.solo s).2 := by
  induction p generalizing s with
  | done | halt => exact F.refl s
  | read q ih => exact ih s (h.2 s) s
  | write f p ih => exact F.trans (h.2.1 s) (ih h.2.2 (f s))
  | emit e p ih => exact ih h s
  | sync p ih => exact ih h s

end Prog

/-! ## Buckets -/

open Prog

variable {k v : Width}

/-- The buckets in `B`, and the locks. -/
def Cells.footprint {sh : Shape} (B : Fin sh.count → Prop) : Footprint (Cells k v sh) where
  Same s s' := (∀ b, B b → s.bucket b = s'.bucket b) ∧ s.locks = s'.locks
  Keeps s s' := ∀ b, ¬ B b → s'.bucket b = s.bucket b
  refl _ _ _ := rfl
  trans h h' b hb := (h' b hb).trans (h b hb)

section
variable {sh : Shape} {B : Fin sh.count → Prop}

theorem Cells.covers_bucket {b : Fin sh.count} (hb : B b) :
    (Cells.footprint B).Covers (bucketLens (k := k) (v := v) b) where
  get hs := hs.1 b hb
  set x s s' hs := by
    refine ⟨fun b' hb' => ?_, hs.2⟩
    rw [bucket_set, bucket_set, hs.1 b' hb']
  keeps x s b' hb' := by
    rw [bucket_set, if_neg]
    rintro rfl
    exact hb' hb

theorem Cells.covers_locks : (Cells.footprint B).Covers (locksLens (k := k) (v := v)) where
  get hs := hs.2
  set _ _ _ hs := ⟨hs.1, rfl⟩
  keeps _ _ _ _ := rfl

/-- **Programs with no bucket in common commute** if they leave the locks as they found them. -/
theorem Prog.Within.commute {α β : Type} {B' : Fin sh.count → Prop} {p : Prog (Cells k v sh) α}
    {q : Prog (Cells k v sh) β} {s : Cells k v sh} (hp : p.Within (Cells.footprint B))
    (hq : q.Within (Cells.footprint B')) (hapart : ∀ b, B b → ¬ B' b)
    (hlocks : ∀ s', s'.locks = s.locks → (p.solo s').2.locks = s.locks)
    (hlocks' : ∀ s', s'.locks = s.locks → (q.solo s').2.locks = s.locks) :
    (q.solo (p.solo s).2).1 = (q.solo s).1 ∧ (p.solo (q.solo s).2).1 = (p.solo s).1 ∧
      (q.solo (p.solo s).2).2 = (p.solo (q.solo s).2).2 := by
  have hkeeps := hp.solo_keeps
  have hkeeps' := hq.solo_keeps
  have hstart : (Cells.footprint B).Same (q.solo s).2 s :=
    ⟨fun b hb => hkeeps' s b (hapart b hb), hlocks' s rfl⟩
  have hstart' : (Cells.footprint B').Same (p.solo s).2 s :=
    ⟨fun b hb => hkeeps s b fun hb' => hapart b hb' hb, hlocks s rfl⟩
  obtain ⟨hfirst, hsame⟩ := hp.solo hstart
  obtain ⟨hsecond, hsame'⟩ := hq.solo hstart'
  refine ⟨hsecond, hfirst, (Cells.ext_buckets (fun b => ?_) ?_).symm⟩
  · by_cases hb : B b
    · rw [hsame.1 b hb, hkeeps' _ b (hapart b hb)]
    by_cases hb' : B' b
    · rw [hsame'.1 b hb', hkeeps _ b hb]
    · rw [hkeeps _ b hb, hkeeps' s b hb', hkeeps' _ b hb', hkeeps s b hb]
  · rw [hlocks _ (hlocks' s rfl), hlocks' _ (hlocks s rfl)]

end

namespace Config

variable {c : Config k} {key : Word k} {b : Fin c.shape.count} {α : Type} (g : Group)

variable (c) in
/-- The candidate buckets of the key, and the locks. -/
def around (v : Width) (key : Word k) : Footprint (Cells k v c.shape) :=
  Cells.footprint (c.MayLie key)

theorem covers_candidate : ∀ b, c.MayLie key b → (c.around v key).Covers (Cells.bucketLens b) :=
  fun _ => Cells.covers_bucket

variable {F : Footprint (Cells k v c.shape)}

theorem within_atTags (hb : F.Covers (Cells.bucketLens b)) (p : Prog (Tags c.shape.len) α) :
    (c.atTags b p).Within F :=
  (hb.comp Bucket.tagsLens).zoom p

theorem within_atSlots (hb : F.Covers (Cells.bucketLens b)) (p : Prog (Slots k v c.shape.len) α) :
    (c.atSlots b p).Within F :=
  (hb.comp Bucket.slotsLens).zoom p

theorem within_withLocks (buckets : List Nat) {body : Prog (Cells k v c.shape) α}
    (h : body.Within (c.around v key)) :
    (c.withLocks g.toLanes buckets body).Within (c.around v key) := by
  rw [withLocks, Locks.withLocks]
  refine (within_forM (fun _ => Cells.covers_locks.zoom _) buckets).bind fun _ => ?_
  refine h.attempt.bind fun result => ?_
  refine (within_forM (fun _ => Cells.covers_locks.zoom _) buckets).bind fun _ => ?_
  exact within_ofExcept result

/-! ## Stores and lookups -/

theorem within_find? : (c.find? g key).Within (c.around v key) := by
  refine within_findSomeM? fun b hb => ?_
  refine (within_atTags (covers_candidate b hb) _).bind fun census => ?_
  split
  · trivial
  · exact within_atSlots (covers_candidate b hb) _

theorem within_contains : (c.contains (v := v) g key).Within (c.around v key) :=
  (within_find? g).bind fun _ => trivial

theorem within_lookFor (hb : F.Covers (Cells.bucketLens b)) (value : Word v) (census : Census)
    (replace : Bool) : (c.lookFor g b key value census replace).Within F := by
  rw [lookFor]
  split
  · trivial
  · exact (within_atSlots hb _).bind fun _ => trivial

theorem within_place (hb : F.Covers (Cells.bucketLens b)) (value : Word v) (census : Census) :
    (c.place g b key value census).Within F := by
  rw [place]
  split
  · trivial
  refine (within_atTags hb _).bind fun tombstone => ?_
  cases tombstone with
  | some i => exact (within_atSlots hb _).bind fun _ => trivial
  | none =>
    refine (within_atTags hb _).bind fun empty => ?_
    cases empty with
    | some i => exact (within_atSlots hb _).bind fun _ => trivial
    | none => trivial

theorem within_load (census : Census) (len : Nat) : (census.load len).Within F :=
  (within_require _).bind fun _ => trivial

section
variable (hF : ∀ b, c.MayLie key b → F.Covers (Cells.bucketLens b))
include hF

theorem within_placeNew (value : Word v) (primary secondary : Census) :
    (c.placeNew g key value primary secondary).Within F := by
  rw [placeNew]
  split
  · trivial
  refine (within_load _ _).bind fun m => (within_load _ _).bind fun n => ?_
  refine (within_anyM fun x hx => ?_).bind fun placed => ?_
  · exact within_place g (hF _ (mayLie_preference hx)) value x.2
  · cases placed <;> trivial

theorem within_storePass (value : Word v) (replace : Bool) :
    (c.storePass g key value replace).Within F := by
  have hp := hF _ (mayLie_iff.2 (.inl rfl))
  have hs := hF _ (mayLie_iff.2 (.inr rfl))
  rw [storePass]
  refine (within_atTags hp _).bind fun primary => ?_
  refine (within_lookFor g hp value primary replace).bind fun found => ?_
  cases found with
  | true => trivial
  | false =>
    rw [if_neg (by simp)]
    split
    · exact within_placeNew g hF value primary {}
    refine (within_atTags hs _).bind fun secondary => ?_
    refine (within_lookFor g hs value secondary replace).bind fun found => ?_
    cases found with
    | true => trivial
    | false => exact within_placeNew g hF value primary secondary

theorem within_storePasses (value : Word v) (replace : Bool) :
    ∀ n, (c.storePasses g key value replace n).Within F
  | 0 => trivial
  | n + 1 => by
    rw [storePasses]
    refine (within_storePass g hF value replace).bind fun stored => ?_
    cases stored with
    | some => trivial
    | none => exact within_storePasses value replace n

end

theorem within_store (value : Word v) (replace locked : Bool) :
    (c.store g key value replace locked).Within (c.around v key) :=
  (within_require _).bind fun _ =>
    within_withLocks g _ (within_storePasses g covers_candidate value replace g.passes)

theorem within_upsert (value : Word v) (locked : Bool) :
    (c.upsert g key value locked).Within (c.around v key) :=
  (within_store g value true locked).bind fun _ => trivial

theorem within_insertNew (value : Word v) :
    (c.insertNew g key value).Within (c.around v key) := by
  rw [insertNew]
  split
  · trivial
  refine (within_store g value false true).bind fun stored => ?_
  cases stored <;> trivial

/-! ## Removals and exchanges -/

/-- The key that is taken out may be another one than that whose buckets are searched. -/
theorem within_takeFrom (hb : c.MayLie key b) (old mark : Word k) (accept : Word v → Bool)
    {after : Fin c.shape.count → Nat → Prog (Cells k v c.shape) Unit}
    (hafter : ∀ i, (after b i).Within (c.around v key)) :
    (takeFrom g old mark accept after b).Within (c.around v key) := by
  rw [takeFrom]
  refine (within_atTags (covers_candidate b hb) _).bind fun census => ?_
  split
  · trivial
  refine (within_atSlots (covers_candidate b hb) _).bind fun taken => ?_
  cases taken with
  | none => trivial
  | some i => exact (hafter i).bind fun _ => trivial

theorem within_erase (wanted : Option (Word v)) (locked : Bool) :
    (c.erase g key wanted locked).Within (c.around v key) := by
  rw [erase_eq]
  refine within_withLocks g _ ((within_findSomeM? fun b hb => ?_).bind fun _ => trivial)
  exact within_takeFrom g hb key _ _ fun i => within_atTags (covers_candidate b hb) _

theorem within_exchange (value : Word v) (oldKey : Word k) (oldValue : Word v) (update : Bool) :
    (c.exchange g key value oldKey oldValue update).Within (c.around v key) := by
  rw [exchange]
  refine (within_require _).bind fun _ => within_withLocks g _ ?_
  refine (within_anyM fun b hb => ?_).bind fun found => ?_
  · exact (within_atTags (covers_candidate b hb) _).bind fun census =>
      within_lookFor g (covers_candidate b hb) value census update
  cases found with
  | true => trivial
  | false =>
    rw [if_neg (by simp), handOver_eq]
    refine (within_findSomeM? fun b hb => ?_).bind fun _ => trivial
    have hcover := covers_candidate (v := v) b hb
    exact within_takeFrom g hb oldKey _ _ fun i =>
      (within_atTags hcover _).bind fun _ => within_atSlots hcover _

end Config

namespace Call

open Config

variable {c : Config k} {key : Word k} {call : Call k v} {s : Cells k v c.shape}

/-- The key whose candidate buckets an operation works on; for an exchange it is the new one. -/
def target? : Call k v → Option (Word k)
  | .upsert key .. | .insertNew key _ | .find key | .contains key | .erase key _ | .erasePair key _
  | .exchange key .. => some key
  | _ => none

/-- **An operation on one key** is within the candidate buckets of the key. -/
theorem within_run (g : Group) (hcall : call.target? = some key) :
    (call.run c g).Within (c.around v key) := by
  cases call with
  | upsert key' value locked =>
    obtain rfl := Option.some.inj hcall
    exact (within_upsert g value locked).map _
  | insertNew key' value =>
    obtain rfl := Option.some.inj hcall
    exact (within_insertNew g value).map _
  | find key' =>
    obtain rfl := Option.some.inj hcall
    exact (within_find? g).map _
  | contains key' =>
    obtain rfl := Option.some.inj hcall
    exact (within_contains g).map _
  | erase key' locked =>
    obtain rfl := Option.some.inj hcall
    exact (within_erase g none locked).map _
  | erasePair key' value =>
    obtain rfl := Option.some.inj hcall
    exact (within_erase g (some value) true).map _
  | exchange key' value oldKey oldValue update =>
    obtain rfl := Option.some.inj hcall
    exact (within_exchange g value oldKey oldValue update).map _
  | _ => cases hcall

end Call

namespace Table

open Config

/-- **Operations are local, and those apart from each other commute.** With nobody else there, an
operation on one key changes nothing outside the candidate buckets of the key. On two tables that
look the same there it answers the same, and they look the same there afterwards. Two operations on
keys without a common candidate bucket answer the same in either order and leave the same table. -/
theorem Reachable.local_commute {t : Table k v} (h : t.Reachable) (lanes : Lanes) {call : Call k v}
    {key : Word k} (hcall : call.target? = some key) :
    let after := t.handle lanes [] (.call call)
    (∀ b, ¬ t.config.MayLie key b → after.2.cells.bucket b = t.cells.bucket b) ∧
    (∀ s' counting, let t' : Table k v := { t with cells := s', counting }
      t'.Reachable → (∀ b, t.config.MayLie key b → s'.bucket b = t.cells.bucket b) →
        (t'.handle lanes [] (.call call)).1.outcome = after.1.outcome ∧
        ∀ b, t.config.MayLie key b →
          (t'.handle lanes [] (.call call)).2.cells.bucket b = after.2.cells.bucket b) ∧
    ∀ (lanes' : Lanes) (other : Call k v) (key' : Word k), other.target? = some key' →
      (∀ b, t.config.MayLie key b → ¬ t.config.MayLie key' b) →
      let after' := t.handle lanes' [] (.call other)
      (after.2.handle lanes' [] (.call other)).1.outcome = after'.1.outcome ∧
      (after'.2.handle lanes [] (.call call)).1.outcome = after.1.outcome ∧
      (after.2.handle lanes' [] (.call other)).2 = (after'.2.handle lanes [] (.call call)).2 := by
  intro after
  have hwithin := Call.within_run (c := t.config) { lanes with passes := 1 } hcall
  have hlocks : ∀ (x : Call k v) (g : Group), 0 < g.passes → ∀ s : Cells k v t.config.shape,
      s.locks = t.cells.locks → ((x.run t.config g).solo s).2.locks = t.cells.locks :=
    fun x g hg s hs => hs ▸ Call.solo_locks hg x fun b _ => hs ▸ h.quiet.unlocked b.val
  refine ⟨fun b hb => ?_, ?_, ?_⟩
  · rw [handle_cells_solo t lanes call]
    exact hwithin.solo_keeps t.cells b hb
  · intro s' counting t' h' hagree
    have hequal : s'.locks = t.cells.locks :=
      Locks.ext_isLocked fun b => (h'.quiet.unlocked b).trans (h.quiet.unlocked b).symm
    have hstart : (t.config.around v key).Same s' t.cells := ⟨hagree, hequal⟩
    obtain ⟨houtcome, hsame⟩ := hwithin.solo hstart
    refine ⟨?_, fun b hb => ?_⟩
    · rw [(handle_solo t' lanes call).1, (handle_solo t lanes call).1]
      exact congrArg (Except.map some) houtcome
    · rw [handle_cells_solo t' lanes call, handle_cells_solo t lanes call]
      exact hsame.1 b hb
  · intro lanes' other key' hother hapart after'
    obtain ⟨hsecond, hfirst, hend⟩ := hwithin.commute
      (Call.within_run { lanes' with passes := 1 } hother) hapart
      (hlocks call _ Nat.zero_lt_one) (hlocks other _ Nat.zero_lt_one)
    have htable := (handle_solo t lanes call).2
    have htable' := (handle_solo t lanes' other).2
    have houtcome := (handle_solo t lanes call).1
    have houtcome' := (handle_solo t lanes' other).1
    rw [houtcome, houtcome', htable, htable', (handle_solo _ lanes' other).1,
      (handle_solo _ lanes' other).2, (handle_solo _ lanes call).1, (handle_solo _ lanes call).2]
    exact ⟨congrArg (Except.map some) hsecond, congrArg (Except.map some) hfirst,
      congrArg (fun s => ({ t with cells := s } : Table k v)) hend⟩

/-- The cells of the small table with a pair in bucket 1. -/
def flanked : Cells .w16 .w16 small.config.shape :=
  (((Call.upsert 21 8 true).run small.config { fourLanes with passes := 1 }).solo small.cells).2

theorem reachable_flanked : ({ small with cells := flanked } : Table .w16 .w16).Reachable := by
  have h : (small.handle fourLanes [] (.call (.upsert 21 8 true))).2.Reachable :=
    reachable_small.call fourLanes (by decide +kernel)
  rwa [(handle_solo small fourLanes (.upsert 21 8 true)).2] at h

/-- An insertion in bucket 0 does not see the pair in bucket 1, and commutes with a store there. -/
theorem Reachable.local_commute_flanked :
    let beside : Table .w16 .w16 := { small with cells := flanked }
    let inserted := fun t : Table .w16 .w16 => t.handle fourLanes [] (.call (.insertNew 5 3))
    let stored := fun t : Table .w16 .w16 => t.handle fourLanes [] (.call (.upsert 7 4 false))
    beside.placed = [(1, 0, 21, 8)] ∧
      (inserted beside).1.outcome = (inserted small).1.outcome ∧
      (stored (inserted small).2).2 = (inserted (stored small).2).2 := by
  intro beside inserted stored
  have hcall : (Call.insertNew 5 3 : Call .w16 .w16).target? = some 5 := rfl
  have hlocal := reachable_small.local_commute fourLanes hcall
  have hagree : ∀ b, small.config.MayLie 5 b → flanked.bucket b = small.cells.bucket b := by
    decide +kernel
  refine ⟨by decide +kernel, ?_, ?_⟩
  · simpa only [inserted, beside] using
      (hlocal.2.1 flanked small.counting reachable_flanked hagree).1
  · exact (hlocal.2.2 fourLanes (.upsert 7 4 false) 7 rfl (by decide +kernel)).2.2

end Table

end TwoChoice
