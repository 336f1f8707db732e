import TwoChoice.Proofs.Loaders

/-!
# Workers

A worker stores the pairs of its chunk while others store other pairs of the same list. It works as
one of the operations of `Traffic`: it sees the locks of the others come and go, and it pauses after
each pair (`Config.upsertApart`). Without that pause the release of one lock and the step that takes
the next one would be in the same turn, and while it waits for the next it would keep the last.

In `Traffic.among P P'` an operation owes at its pauses that it stored pairs of `P`, and in exchange
the others store nothing but pairs of `P'`. What is known of a store that no locks concern
(`Config.storePasses_owing`) carries over to it, since a store looks at the buckets alone between
two steps on locks (`Traffic.among_of_owing`). So each store of a listed pair waits for its lock and
then succeeds (`Traffic.store_among`), and a worker stores all its pairs
(`Traffic.upsertApart_among`).
-/

set_option autoImplicit false

namespace TwoChoice

variable {k v : Width}

/-! ## Bodies and locks -/

/-- The buckets, without the locks. -/
def Cells.allBuckets {sh : Shape} : Prog.Footprint (Cells k v sh) where
  Same s s' := ∀ b, s.bucket b = s'.bucket b
  Keeps s s' := s'.locks = s.locks
  refl _ := rfl
  trans h h' := h'.trans h

theorem Cells.allBuckets_covers {sh : Shape} (b : Fin sh.count) :
    (Cells.allBuckets (k := k) (v := v)).Covers (bucketLens b) where
  get hs := hs b
  set x s s' hs b' := by rw [bucket_set, bucket_set, hs b']
  keeps _ _ := rfl

/-! ## One worker -/

theorem Prog.detached_bind {σ α β : Type} (p : Prog σ α) (q : α → Prog σ β) :
    (p >>= q).detached = p.detached >>= fun a => (q a).detached := by
  rw [bind_eq, bind_eq]
  induction p with
  | done | halt => rfl
  | read q ih => simp only [andThen, detached, ih]
  | write f p ih => simp only [andThen, detached, ih]
  | emit e p ih => cases e <;> simp only [andThen, detached, ih]
  | sync p ih => simp only [andThen, detached, ih]

theorem Prog.detached_foldlM_congr {σ β ι : Type} {f f' : β → ι → Prog σ β}
    (h : ∀ b a, (f b a).detached = (f' b a).detached) :
    ∀ (xs : List ι) (b : β), (xs.foldlM f b).detached = (xs.foldlM f' b).detached
  | [], _ => rfl
  | a :: xs, b => by
    rw [List.foldlM_cons, List.foldlM_cons, detached_bind, detached_bind, h b a]
    exact bind_congr fun b' => detached_foldlM_congr h xs b'

namespace Config

variable (c : Config k) (g : Group)

/-- What a worker does with its chunk while others are at work: the same as `upsertAll`, but it
pauses after each pair, so that it has released the lock of that pair when it waits for the next. A
worker that goes on at once takes two turns in a row. -/
def upsertApart (pairs : List (Word k × Word v)) : Prog (Cells k v c.shape) Bool :=
  pairs.foldlM (fun stored (key, value) => do
    let now ← upsert c g key value true
    Prog.pause
    return now && stored) true

/-- But for pauses this is `upsertAll`. -/
theorem detached_upsertApart (pairs : List (Word k × Word v)) :
    (c.upsertApart g pairs).detached = (c.upsertAll g pairs).detached := by
  refine Prog.detached_foldlM_congr (fun stored x => ?_) pairs true
  rw [Prog.detached_bind, Prog.detached_bind]
  rfl

end Config

namespace Traffic

open Config

variable {c : Config k} {P P' : Set (Word k × Word v)} {H : Set Nat}
variable {r r' : Set Nat × Cells k v c.shape} {s s' a : Cells k v c.shape} {α : Type}

variable (c) in
/-- An operation that stores pairs of `P` among others who store pairs of `P'`. -/
def among (P P' : Set (Word k × Word v)) :
    World (Set Nat × Cells k v c.shape) (Cells k v c.shape) where
  ready r s := (amid c v).ready r s ∧ c.Brings P r.2 s
  turn r s r' s' := (amid c v).turn r s r' s' ∧ c.Brings P' s s'

theorem Holds.congr (h : Holds H r s) (hlocks : s'.locks = s.locks) : Holds H r s' := by
  obtain ⟨hready, hgrip⟩ := h
  refine ⟨fun b hb hlocked => ?_, ?_⟩
  · rw [hlocks]
    exact hready b hb hlocked
  · rw [← hgrip, grip, grip, hlocks]

/-- **What a program on the buckets alone ensures without locks it ensures also while others take
and release locks.** -/
theorem among_of_owing {pairs : List (Word k × Word v)} (hkeys : (pairs.map Prod.fst).Nodup)
    (hP : P ⊆ {x | x ∈ pairs}) (hP' : P' ⊆ {x | x ∈ pairs}) {p : Prog (Cells k v c.shape) α}
    (hp : p.Within Cells.allBuckets) {n : Nat} (hn : c.pending pairs a ≤ n) (ha : c.Sound ∅ a)
    (hrest : Rests H (H, a) a) (hlocks : s.locks = a.locks)
    {Q : α → Nat × Cells k v c.shape → Cells k v c.shape → Prop}
    (h : p.Ensures ((c.loaders P').toWorld.owing (Relation.ReflTransGen (c.Puts P))) Never
      (n, a.bare) s.bare Q) :
    p.Ensures (among c P P') Never (H, a) s fun x r s' =>
      Holds H r s' ∧ ∃ n', Q x (n', r.2.bare) s'.bare := by
  induction p generalizing n a s with
  | done => exact ⟨hrest.holds.congr hlocks, n, h⟩
  | halt => exact h
  | read q ih =>
    have hsame : q s.bare = q s := hp.1 _ _ fun _ => rfl
    exact ih s (hp.2 s) hn ha hrest hlocks (hsame ▸ h)
  | write f p ih =>
    obtain ⟨hsame, hkeep, hp⟩ := hp
    have hbare : f s.bare = (f s).bare :=
      Cells.ext_buckets (hsame s.bare s fun _ => rfl) (hkeep s.bare)
    exact ih hp hn ha hrest ((hkeep s).trans hlocks) (hbare ▸ h)
  | emit e p ih => exact ih hp hn ha hrest hlocks h
  | sync p ih =>
    obtain ⟨⟨-, hown⟩, hgo⟩ := h
    have hheld := hrest.holds.congr hlocks
    have hmoved : c.Brings P a s := hown
    refine ⟨⟨hheld.1, hmoved⟩, fun r' s' ht => ?_⟩
    obtain ⟨hlocksTurn, hothers⟩ := ht
    obtain ⟨rfl, hlocked⟩ := hheld.turn hlocksTurn
    have hs := hmoved.sound ha
    have hle := (hmoved.pending_le hkeys ha hP).trans hn
    -- without the locks, the others have done what loaders do who have `pending` pairs left
    have hturn : (c.loaders P').turn n s.bare (c.pending pairs s') s'.bare := by
      refine ⟨hothers, ?_⟩
      rcases hothers.pending hkeys hs hP' with he | hlt
      · exact .inl ⟨he, (congrArg (c.pending pairs) he).le.trans hle⟩
      · exact .inr (hlt.trans_le hle)
    exact ih hp (Nat.le_refl _) (hothers.sound hs) ⟨rfl, hlocked⟩ rfl (hgo _ s'.bare ⟨hturn, rfl⟩)

/-- Between two pairs a worker holds no lock. -/
theorem upsertApart_amid (g : Group) (chunk : List (Word k × Word v)) (h : Rests ∅ r s) :
    (c.upsertApart g chunk).Ensures (amid c v) Stops r s fun _ => Holds ∅ := by
  refine (Prog.ensures_foldlM_inv (I := Rests ∅) (fun x _ all r s h => ?_) h).mono
    fun _ _ _ h => h.holds
  rw [Prog.ensures_bind, upsert, Prog.ensures_bind]
  refine (store_amid g x.1 x.2 true true h).mono fun stored r s h => ?_
  rw [Prog.ensures_pure, Prog.ensures_bind, Prog.ensures_pause]
  exact ⟨h.1, fun r' s' ht => h.turn ht⟩

/-- An operation halts only at a lock that is taken. -/
def Waits (h : Halt) (_ : Set Nat × Cells k v c.shape) (_ : Cells k v c.shape) : Prop :=
  ∃ b, h = .waiting b

section
variable {t : Table k v} {pairs : List (Word k × Word v)} {P P' : Set (Word k × Word v)}
variable {r r' : Set Nat × Cells k v t.config.shape} {s s' : Cells k v t.config.shape}

/-- What holds when an operation has stored these pairs. -/
structure Stocked (t : Table k v) (pairs stored : List (Word k × Word v))
    (P : Set (Word k × Word v)) (r : Set Nat × Cells k v t.config.shape)
    (s : Cells k v t.config.shape) : Prop where
  holds : Holds ∅ r s
  moved : t.config.Brings P r.2 s
  filling : t.Filling pairs s
  has : ∀ x ∈ stored, t.config.Has s x

/-- The others leave what was stored. -/
theorem Stocked.turn {stored : List (Word k × Word v)} (ht : t.config.Quiet t.cells)
    (hP' : P' ⊆ {x | x ∈ pairs}) (hapart : ∀ x ∈ P, ∀ y ∈ P', y.1 ≠ x.1)
    (hstored : ∀ x ∈ stored, x ∈ P) (h : Stocked t pairs stored P r s)
    (hturn : (among t.config P P').turn r s r' s') :
    Rests ∅ r' s' ∧ Stocked t pairs stored P r' s' := by
  have hrest := h.holds.turn hturn.1
  refine ⟨hrest, hrest.holds, ?_, h.filling.brings hP' hturn.2, fun x hx => ?_⟩
  · rw [hrest.1]
    exact .refl s'
  · exact hturn.2.has (h.filling.sound ht)
      (fun y hy he => absurd he (hapart x (hstored x hx) y hy)) (h.has x hx)

variable (hload : t.Loadable pairs) (ht : t.config.Quiet t.cells) (hP : P ⊆ {x | x ∈ pairs})
variable (hP' : P' ⊆ {x | x ∈ pairs}) (hapart : ∀ x ∈ P, ∀ y ∈ P', y.1 ≠ x.1)
include hload ht hP hP' hapart

/-- Among others who store other pairs, the passes of a store end with its pair stored. -/
theorem storePasses_among (g : Group) (hpasses : pairs.length < g.passes) {x : Word k × Word v}
    (hx : x ∈ P) (hs : t.Filling pairs s) (hrest : Rests H (H, s) s) :
    (t.config.storePasses g x.1 x.2 true g.passes).Ensures (among t.config P P') Never (H, s) s
      fun stored r' s' => stored ≠ .full ∧ Holds H r' s' ∧ t.config.Brings P r'.2 s' ∧
        t.config.Brings (insert x P') s s' ∧ t.config.Has s' x := by
  have hl : t.config.Live x.1 := hload.live x (hP hx)
  have hkey : ∀ y ∈ P', y.1 ≠ x.1 := hapart x hx
  have hwithin : (t.config.storePasses g x.1 x.2 true g.passes).Within Cells.allBuckets :=
    within_storePasses g (fun b _ => Cells.allBuckets_covers b) x.2 true g.passes
  have hbody : (t.config.storePasses g x.1 x.2 true g.passes).Ensures
      ((t.config.loaders P').toWorld.owing (Relation.ReflTransGen (t.config.Puts P))) Never
      (t.config.pending pairs s, s.bare) s.bare fun stored r' s' =>
        Relation.ReflTransGen (t.config.Puts P) r'.2 s' ∧
        StoreEnds (t.config.loaders P') x.1 x.2 true (t.config.pending pairs s) s.bare stored
          r'.1 s' :=
    storePasses_owing g (ground_loaders hl hkey) (fun _ => .refl)
      (fun _ _ hput => .single ⟨x, hx, hl, .inl hput⟩)
      (fun _ _ hput => .single ⟨x, hx, hl, .inr hput⟩) ⟨(hs.sound ht).setLocks _, rfl⟩
      ((pending_le s).trans_lt hpasses)
  refine (among_of_owing hload.nodup hP hP' hwithin (Nat.le_refl _) (hs.sound ht) hrest rfl
    hbody).mono fun stored r' s' hend => ?_
  obtain ⟨hheld, n, hown, hstore⟩ := hend
  obtain ⟨hstored, hbrings, hhas⟩ := hs.stored hload ht (hP hx) hP' hkey hstore
  exact ⟨hstored, hheld, hown, hbrings, hhas⟩

/-- **A store among others who store other pairs** waits for its lock, and then it has stored its
pair. -/
theorem store_among (g : Group) (hpasses : pairs.length < g.passes) {x : Word k × Word v}
    (hx : x ∈ P) (hs : t.Filling pairs s) (hrest : Rests ∅ r s) :
    (t.config.store g x.1 x.2 true true).Ensures (among t.config P P') Waits r s
      fun stored r' s' => stored ≠ .full ∧ Holds ∅ r' s' ∧ t.config.Brings P r'.2 s' ∧
        t.config.Brings (insert x P') s s' ∧ t.config.Has s' x := by
  have hl : t.config.Live x.1 := hload.live x (hP hx)
  have hb := (t.config.candidates x.1).primary.isLt
  cases hfree : s.locks.isLocked (t.config.candidates x.1).primary.val with
  | true => exact store_waits g hl hfree ⟨_, rfl⟩
  | false =>
    have hacquired := hrest.acquire hb hfree
    obtain ⟨rfl, -⟩ := hrest
    rw [store]
    refine (Prog.yields_require (c := t.config.reserved.isReserved x.1 = false) hl _ s).ensures_bind
      ?_
    rw [if_pos rfl]
    -- others come in after the lock is taken, during the passes and before it is released
    refine withLocks_one g.toLanes hb hfree ⟨hacquired.1, Brings.setLocks _ _⟩ fun r₁ s₁ h₁ => ?_
    have hothers₁ : t.config.Brings P' s s₁ := h₁.2.of_setLocks
    have hrest₁ := hacquired.turn h₁.1
    obtain ⟨rfl, -⟩ := id hrest₁
    refine (storePasses_among hload ht hP hP' hapart g hpasses hx (hs.brings hP' hothers₁)
      hrest₁).mono fun stored r₂ s₂ hend => ?_
    obtain ⟨hstored, hheld₂, hown, hbrings, hhas⟩ := hend
    refine ⟨⟨hheld₂.1, hown⟩, fun r₃ s₃ h₃ => ?_⟩
    have hothers₃ : t.config.Brings P' s₂ s₃ := h₃.2
    have hrest₃ := hheld₂.turn h₃.1
    have hreleased := hrest₃.release hb (Set.mem_insert ..)
    rw [Set.insert_sdiff_of_mem _ (Set.mem_singleton _), Set.empty_sdiff] at hreleased
    obtain ⟨rfl, hheld₃⟩ := hrest₃
    have hall : P' ⊆ insert x P' := Set.subset_insert x P'
    refine ⟨hheld₃ _ (Set.mem_insert ..), hstored, hreleased, Brings.setLocks _ _, ?_, ?_⟩
    · exact (hothers₁.mono hall).trans
        (hbrings.trans ((hothers₃.mono hall).trans (Brings.setLocks _ _)))
    · have hsound := hbrings.sound ((hs.brings hP' hothers₁).sound ht)
      exact (hothers₃.has hsound (fun y hy he => absurd he (hapart x hx y hy)) hhas).setLocks _

/-- **A worker stores all its pairs, whatever other pairs the others store.** -/
theorem upsertApart_among (g : Group) (hpasses : pairs.length < g.passes)
    {chunk : List (Word k × Word v)} (hchunk : ∀ x ∈ chunk, x ∈ P) (hs : t.Filling pairs s)
    (hrest : Rests ∅ r s) :
    (t.config.upsertApart g chunk).Ensures (among t.config P P') Waits r s
      fun all r' s' => all = true ∧ Stocked t pairs chunk P r' s' := by
  refine Prog.ensures_foldlM (fun rest all r s => all = true ∧ Rests ∅ r s ∧
    ∃ stored, stored ++ rest = chunk ∧ Stocked t pairs stored P r s) ?_ ?_ chunk
    ⟨rfl, hrest, [], rfl, hrest.holds, ?_, hs, fun _ hx => absurd hx List.not_mem_nil⟩
  · rintro x rest all r s ⟨rfl, hrest, stored, hsplit, hstock⟩
    have hx : x ∈ P := hchunk x (hsplit ▸ by simp)
    have hstored : ∀ y ∈ stored, y ∈ P := fun y hy => hchunk y (hsplit ▸ by simp [hy])
    rw [Prog.ensures_bind, upsert, Prog.ensures_bind]
    refine (store_among hload ht hP hP' hapart g hpasses hx hstock.filling hrest).mono
      fun stored₁ r₁ s₁ hend => ?_
    obtain ⟨hnow, hheld, hmoved, hbrings, hhas⟩ := hend
    have hstock₁ : Stocked t pairs (stored ++ [x]) P r₁ s₁ := by
      refine ⟨hheld, hmoved, hstock.filling.brings (Set.insert_subset (hP hx) hP') hbrings,
        List.forall_mem_append.2 ⟨fun y hy => ?_, List.forall_mem_singleton.2 hhas⟩⟩
      refine hbrings.has (hstock.filling.sound ht) (fun z hz he => ?_) (hstock.has y hy)
      rcases hz with rfl | hz
      · exact eq_of_fst_eq hload.nodup (hP (hstored y hy)) (hP hx) he
      · exact absurd he (hapart y (hstored y hy) z hz)
    rw [Prog.ensures_pure, Prog.ensures_bind, Prog.ensures_pause]
    refine ⟨⟨hheld.1, hmoved⟩, fun r₂ s₂ hturn => ?_⟩
    have hstored₁ : ∀ y ∈ stored ++ [x], y ∈ P :=
      List.forall_mem_append.2 ⟨hstored, List.forall_mem_singleton.2 hx⟩
    obtain ⟨hrest₂, hstock₂⟩ := hstock₁.turn ht hP' hapart hstored₁ hturn
    rw [Prog.ensures_pure]
    exact ⟨by simpa using hnow, hrest₂, stored ++ [x], by simpa using hsplit, hstock₂⟩
  · rintro all r s ⟨hall, -, stored, hsplit, hstock⟩
    rw [List.append_nil] at hsplit
    exact ⟨hall, hsplit ▸ hstock⟩
  · rw [hrest.1]
    exact .refl s

end

end Traffic

end TwoChoice
