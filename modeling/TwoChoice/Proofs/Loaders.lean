import TwoChoice.Proofs.Loading
import TwoChoice.Proofs.Locality
import TwoChoice.Proofs.Moves
import TwoChoice.Proofs.Traffic

/-!
# Loaders

Some store pairs while others store other pairs, and nobody removes any. `c.Brings P s s'`: pairs
of `P` were stored, one after the other, and the locks may have changed. So no key goes, what was
stored stays, and each pair that comes leaves one less to come (`Config.Brings.pending`). Hence the
others change the table a bounded number of times (`Config.loaders`).

`Table.Filling t pairs s`: the table `t` has come to `s` by pairs of a list that it can take
(`Table.Loadable`). A roomy bucket stays so at every point of the way, so a store of a listed pair
never finds both buckets full, whichever listed pairs arrive during it (`Table.Filling.stored`).
-/

set_option autoImplicit false

namespace TwoChoice

variable {k v : Width}

/-- The buckets of the table, with no lock. -/
def Cells.bare {sh : Shape} (s : Cells k v sh) : Cells k v sh := s.setLocks Locks.fresh

namespace Config

variable {c : Config k} {T : Set (Place c.shape)} {P P' : Set (Word k × Word v)}
variable {s s' s'' : Cells k v c.shape} {x : Word k × Word v} {key : Word k}

variable (c) in
/-- The pair is stored. -/
def Put (x : Word k × Word v) (s s' : Cells k v c.shape) : Prop :=
  c.Live x.1 ∧ (Kept x.1 x.2 true s s' ∨ Entered x.1 x.2 s s')

variable (c) in
/-- One of the pairs is stored. -/
def Puts (P : Set (Word k × Word v)) (s s' : Cells k v c.shape) : Prop := ∃ x ∈ P, c.Put x s s'

variable (c) in
/-- Some of the pairs are stored, one after the other. The locks do not matter. -/
def Brings (P : Set (Word k × Word v)) (s s' : Cells k v c.shape) : Prop :=
  Relation.ReflTransGen (c.Puts P) s.bare s'.bare

variable (c) in
/-- The table has the pair. -/
def Has (s : Cells k v c.shape) (x : Word k × Word v) : Prop :=
  (c.contents s x.1).map Prod.fst = some x.2

variable (c) in
/-- How many of the pairs the table does not have. -/
noncomputable def pending (pairs : List (Word k × Word v)) (s : Cells k v c.shape) : Nat :=
  {x | x ∈ pairs ∧ ¬ c.Has s x}.ncard

/-! ## One pair -/

/-- The map gets the pair, and else it stays as it is. -/
theorem Put.contents (h : c.Put x s s') (hs : c.Sound T s) :
    ∃ b, c.MayLie x.1 b ∧
      c.contents s' = Function.update (c.contents s) x.1 (some (x.2, b)) := by
  obtain ⟨hl, ⟨p, hkey, rfl⟩ | ⟨p, habs, hf, hb, rfl⟩⟩ := h
  · rw [if_pos rfl, ← hkey]
    rw [← hkey] at hl
    exact ⟨p.bucket, hs.mayLie hl, contents_overwrite hs hl x.2⟩
  · exact ⟨p.bucket, hb, contents_fill hs (hs.not_live_of_free hf) hl hb habs⟩

theorem Put.has (h : c.Put x s s') (hs : c.Sound T s) : c.Has s' x := by
  obtain ⟨b, -, hM⟩ := h.contents hs
  rw [Has, hM, Function.update_self]
  rfl

/-- A pair that the table has already changes nothing. -/
theorem Put.same (h : c.Put x s s') (hs : c.Sound T s) (hhas : c.Has s x) : s' = s := by
  obtain ⟨hl, ⟨p, hkey, rfl⟩ | ⟨p, habs, -, -, rfl⟩⟩ := h
  · rw [Has, ← hkey, contents_key hs (hkey ▸ hl)] at hhas
    have hslot : s.slot p = ⟨x.1, x.2⟩ := by
      rw [← hkey, ← Option.some.inj hhas]
      rfl
    rw [if_pos rfl, ← hslot, Cells.putSlot_self]
  · rw [Has, contents_absent habs] at hhas
    cases hhas

theorem Has.setLocks (h : c.Has s x) (l : Locks c.shape.count) : c.Has (s.setLocks l) x := h

theorem Puts.mono (hP : P ⊆ P') (h : c.Puts P s s') : c.Puts P' s s' := by
  obtain ⟨x, hx, hput⟩ := h
  exact ⟨x, hP hx, hput⟩

theorem Puts.deed (h : c.Puts P s s') : c.Deed (· ∈ Prod.fst '' P) s s' := by
  obtain ⟨x, hx, hl, ⟨p, hkey, rfl⟩ | ⟨p, habs, hf, hb, rfl⟩⟩ := h
  · have hmem : s.key p ∈ Prod.fst '' P := hkey ▸ Set.mem_image_of_mem _ hx
    rw [if_pos rfl, ← hkey]
    exact .overwrite x.2 hmem (hkey ▸ hl)
  · exact .insert x.2 (Set.mem_image_of_mem _ hx) hl habs hf hb

/-! ## Pair after pair -/

theorem puts_mono (hP : P ⊆ P') (h : Relation.ReflTransGen (c.Puts P) s s') :
    Relation.ReflTransGen (c.Puts P') s s' :=
  Relation.ReflTransGen.mono (fun _ _ hput => Puts.mono hP hput) _ _ h

theorem deeds_of_puts (h : Relation.ReflTransGen (c.Puts P) s s') :
    c.Deeds (· ∈ Prod.fst '' P) s s' :=
  Relation.ReflTransGen.mono (fun _ _ hput => Puts.deed hput) _ _ h

/-- Who stores a pair takes no lock. -/
theorem bare_of_puts (h : Relation.ReflTransGen (c.Puts P) s.bare s') : s'.bare = s' := by
  have hlocks : s'.locks = Locks.fresh := Deeds.locks (deeds_of_puts h)
  rw [Cells.bare, ← hlocks, s'.setLocks_self]

namespace Brings

theorem refl (s : Cells k v c.shape) : c.Brings P s s := Relation.ReflTransGen.refl

theorem trans (h : c.Brings P s s') (h' : c.Brings P s' s'') : c.Brings P s s'' :=
  Relation.ReflTransGen.trans h h'

theorem mono (hP : P ⊆ P') (h : c.Brings P s s') : c.Brings P' s s' := puts_mono hP h

/-- A change of the locks brings nothing. -/
theorem setLocks (s : Cells k v c.shape) (l : Locks c.shape.count) : c.Brings P s (s.setLocks l) :=
  refl s

theorem of_setLocks {l : Locks c.shape.count} (h : c.Brings P (s.setLocks l) s') :
    c.Brings P s s' := h

theorem sound (h : c.Brings P s s') (hs : c.Sound T s) : c.Sound T s' :=
  (Deeds.sound (deeds_of_puts h) (hs.setLocks Locks.fresh)).setLocks s'.locks

/-- What holds of the map and is kept by every pair that comes holds afterwards. -/
theorem contents_induction {I : Contents k v c.shape.count → Prop} (h : c.Brings P s s')
    (hs : c.Sound T s)
    (hput : ∀ M, ∀ x ∈ P, ∀ b, c.MayLie x.1 b → I M → I (Function.update M x.1 (some (x.2, b))))
    (hI : I (c.contents s)) : I (c.contents s') := by
  have main : ∀ s', Relation.ReflTransGen (c.Puts P) s.bare s' → I (c.contents s') := by
    intro s' h
    induction h with
    | refl => exact hI
    | tail before last ih =>
      obtain ⟨x, hx, hput'⟩ := last
      obtain ⟨b, hb, hM⟩ := hput'.contents
        (Deeds.sound (deeds_of_puts before) (hs.setLocks Locks.fresh))
      exact hM ▸ hput _ x hx b hb ih
  exact main s'.bare h

/-- The other keys stay as they are. -/
theorem contents_eq (h : c.Brings P s s') (hs : c.Sound T s) (hkey : ∀ x ∈ P, x.1 ≠ key) :
    c.contents s' key = c.contents s key :=
  h.contents_induction (I := fun M => M key = c.contents s key) hs (fun M x hx b _ hM => by
    rwa [Function.update_of_ne (hkey x hx).symm]) rfl

/-- No key goes. -/
theorem absent (h : c.Brings P s s') (hs : c.Sound T s) (hnone : c.contents s' key = none) :
    c.contents s key = none := by
  by_contra hsome
  refine h.contents_induction (I := fun M => M key ≠ none) hs (fun M x _ b _ hM => ?_) hsome hnone
  rw [Function.update_apply]
  split
  · exact nofun
  · exact hM

theorem within {keys : Set (Word k)} (h : c.Brings P s s') (hs : c.Sound T s)
    (hP : ∀ x ∈ P, x.1 ∈ keys) (hM : c.Within keys (c.contents s)) :
    c.Within keys (c.contents s') :=
  h.contents_induction hs (fun _ x hx _ hb hM => hM.update (hP x hx) hb) hM

/-- A pair stays in the table if no other pair with its key comes. -/
theorem has (h : c.Brings P s s') (hs : c.Sound T s) (hP : ∀ y ∈ P, y.1 = x.1 → y = x)
    (hx : c.Has s x) : c.Has s' x := by
  refine h.contents_induction (I := fun M => (M x.1).map Prod.fst = some x.2) hs
    (fun M y hy b _ hM => ?_) hx
  rw [Function.update_apply]
  split
  · rename_i heq
    rw [hP y hy heq.symm]
    rfl
  · exact hM

end Brings

/-! ## What is still to come -/

section
variable {pairs : List (Word k × Word v)} (hkeys : (pairs.map Prod.fst).Nodup)

theorem pending_le (s : Cells k v c.shape) : c.pending pairs s ≤ pairs.length := by
  refine (Set.ncard_le_ncard (t := ↑pairs.toFinset) (fun x hx => by simpa using hx.1)).trans ?_
  rw [Set.ncard_coe_finset]
  exact pairs.toFinset_card_le

include hkeys

theorem eq_of_fst_eq {y : Word k × Word v} (hx : x ∈ pairs) (hy : y ∈ pairs) (he : y.1 = x.1) :
    y = x :=
  List.inj_on_of_nodup_map hkeys hy hx he

/-- A pair that is stored changes nothing, or there is one less to come. -/
theorem Puts.pending (h : c.Puts P s s') (hs : c.Sound T s) (hP : P ⊆ {x | x ∈ pairs}) :
    s' = s ∨ c.pending pairs s' < c.pending pairs s := by
  obtain ⟨x, hx, hput⟩ := h
  by_cases hhas : c.Has s x
  · exact .inl (hput.same hs hhas)
  refine .inr (Set.ncard_lt_ncard ⟨fun y hy => ⟨hy.1, fun hold => hy.2 ?_⟩, fun hall => ?_⟩
    (pairs.toFinset.finite_toSet.subset fun y hy => by simpa using hy.1))
  · by_cases he : x.1 = y.1
    · rw [← eq_of_fst_eq hkeys hy.1 (hP hx) he]
      exact hput.has hs
    · obtain ⟨b, -, hM⟩ := hput.contents hs
      rwa [Has, hM, Function.update_of_ne (Ne.symm he)]
  · exact (hall ⟨hP hx, hhas⟩).2 (hput.has hs)

theorem Brings.pending (h : c.Brings P s s') (hs : c.Sound T s) (hP : P ⊆ {x | x ∈ pairs}) :
    s'.bare = s.bare ∨ c.pending pairs s' < c.pending pairs s := by
  have main : ∀ s', Relation.ReflTransGen (c.Puts P) s.bare s' →
      s' = s.bare ∨ c.pending pairs s' < c.pending pairs s.bare := by
    intro s' h
    induction h with
    | refl => exact .inl rfl
    | tail before last ih =>
      have hsound := Deeds.sound (deeds_of_puts before) (hs.setLocks Locks.fresh)
      rcases last.pending hkeys hsound hP with rfl | hlt
      · exact ih
      · rcases ih with rfl | hlt'
        · exact .inr hlt
        · exact .inr (hlt.trans hlt')
  exact main s'.bare h

theorem Brings.pending_le (h : c.Brings P s s') (hs : c.Sound T s) (hP : P ⊆ {x | x ∈ pairs}) :
    c.pending pairs s' ≤ c.pending pairs s := by
  rcases h.pending hkeys hs hP with he | hlt
  · exact (congrArg (c.pending pairs) he).le
  · exact hlt.le

end

/-! ## The others -/

variable (c) in
/-- Others who store these pairs. They change the table `n` times at most. -/
def loaders (P : Set (Word k × Word v)) : Company c v Nat where
  ready _ _ := True
  turn n s n' s' := Relation.ReflTransGen (c.Puts P) s s' ∧ (s' = s ∧ n' ≤ n ∨ n' < n)
  may _ key := key ∈ Prod.fst '' P
  left n := n
  refl n s := ⟨.refl, .inl ⟨rfl, Nat.le_refl n⟩⟩
  trans := by
    rintro n s n' s' n'' s'' ⟨h, hn⟩ ⟨h', hn'⟩
    refine ⟨h.trans h', ?_⟩
    rcases hn with ⟨rfl, hle⟩ | hlt <;> rcases hn' with ⟨rfl, hle'⟩ | hlt'
    · exact .inl ⟨rfl, hle'.trans hle⟩
    · exact .inr (hlt'.trans_le hle)
    · exact .inr (hle'.trans_lt hlt)
    · exact .inr (hlt'.trans hlt)
  deeds h := deeds_of_puts h.1
  spent h := h.2

theorem ground_loaders (hl : c.Live key) (hkey : ∀ x ∈ P, x.1 ≠ key) :
    (c.loaders P).Ground ∅ Locks.fresh key where
  live := hl
  kept := by
    rintro ⟨x, hx, rfl⟩
    exact hkey x hx rfl
  ready _ _ _ := trivial

/-- A store that ends otherwise than with full buckets has stored its pair. -/
theorem StoreEnds.brings {stored : Stored} {n n' : Nat} (hl : c.Live x.1)
    (hkey : ∀ y ∈ P, y.1 ≠ x.1) (hs : c.Sound T s) (hstored : stored ≠ .full)
    (h : StoreEnds (c.loaders P) x.1 x.2 true n s.bare stored n' s'.bare) :
    c.Brings (insert x P) s s' ∧ c.Has s' x := by
  have hstep : (c.loaders P).Around n s.bare (c.Put x) n' s'.bare := by
    cases stored with
    | present =>
      obtain ⟨r₁, s₁, s₂, before, made, after⟩ := h
      exact ⟨r₁, s₁, s₂, before, ⟨hl, .inl made⟩, after⟩
    | inserted =>
      obtain ⟨r₁, s₁, s₂, before, made, after⟩ := h
      exact ⟨r₁, s₁, s₂, before, ⟨hl, .inr made⟩, after⟩
    | full => exact absurd rfl hstored
  obtain ⟨r₁, s₁, s₂, ⟨before, -⟩, made, ⟨after, -⟩⟩ := hstep
  have hall : P ⊆ insert x P := Set.subset_insert x P
  have hsound := Deeds.sound (deeds_of_puts before) (hs.setLocks Locks.fresh)
  have hmade : Relation.ReflTransGen (c.Puts (insert x P)) s.bare s₂ :=
    (puts_mono hall before).tail ⟨x, Set.mem_insert x P, made⟩
  refine ⟨hmade.trans (puts_mono hall after), ?_⟩
  have hafter : c.Brings P s₂ s' := by rwa [Brings, bare_of_puts hmade]
  exact hafter.has (Deeds.sound (deeds_of_puts hmade) (hs.setLocks Locks.fresh))
    (fun y hy he => absurd he (hkey y hy)) (made.has hsound)

end Config

namespace Table

open Config

variable {t : Table k v} {pairs : List (Word k × Word v)} {P : Set (Word k × Word v)}
variable {s s' : Cells k v t.config.shape} {x : Word k × Word v}

/-- The table while pairs of the list are stored. -/
def Filling (t : Table k v) (pairs : List (Word k × Word v)) (s : Cells k v t.config.shape) :
    Prop :=
  t.config.Brings {x | x ∈ pairs} t.cells s

theorem Filling.brings (hs : t.Filling pairs s) (hP : P ⊆ {x | x ∈ pairs})
    (h : t.config.Brings P s s') : t.Filling pairs s' :=
  Brings.trans hs (h.mono hP)

theorem Filling.puts (hs : t.Filling pairs s) (hP : P ⊆ {x | x ∈ pairs})
    (h : Relation.ReflTransGen (t.config.Puts P) s.bare s') : t.Filling pairs s' :=
  hs.brings hP (by rwa [Brings, bare_of_puts h])

section
variable (h : t.Loadable pairs) (ht : t.config.Quiet t.cells)
include ht

theorem Filling.sound (hs : t.Filling pairs s) : t.config.Sound ∅ s := Brings.sound hs ht.sound

theorem Filling.within (hs : t.Filling pairs s) :
    t.config.Within (t.keysWith pairs) (t.config.contents s) :=
  Brings.within hs ht.sound (fun _ hx => .inl (List.mem_map_of_mem hx))
    (within_contents ht.sound fun _ => .inr)

include h

/-- As long as the pair is missing, one of its buckets has a free slot. -/
theorem Filling.exists_roomy (hs : t.Filling pairs s) (hx : x ∈ pairs) (habs : s.Absent x.1) :
    ∃ b, t.config.MayLie x.1 b ∧
      ∀ s', t.Filling pairs s' → s'.Absent x.1 → ¬ Crowded s' b := by
  obtain ⟨b, hb, hroom⟩ := h.room x hx (hs.absent ht.sound (contents_absent habs))
  refine ⟨b, hb, fun s' hs' habs' hcrowded => ?_⟩
  exact absurd (load_eq (hs'.sound ht) hcrowded)
    (hroom.load_lt (hs'.within ht) (.inl (List.mem_map_of_mem hx)) hb (contents_absent habs')).ne

/-- **A pair of the list is stored, whatever other pairs of the list others store.** -/
theorem Filling.stored {stored : Stored} {n n' : Nat} (hs : t.Filling pairs s) (hx : x ∈ pairs)
    (hP : P ⊆ {x | x ∈ pairs}) (hkey : ∀ y ∈ P, y.1 ≠ x.1)
    (hend : StoreEnds (t.config.loaders P) x.1 x.2 true n s.bare stored n' s'.bare) :
    stored ≠ .full ∧ t.config.Brings (insert x P) s s' ∧ t.config.Has s' x := by
  have hl := h.live x hx
  have hstored : stored ≠ .full := by
    rintro rfl
    -- each bucket was full at its scan, but one of them is roomy at all times
    obtain ⟨habs, r₁, s₁, r₂, s₂, h₁, hprimary, h₂, hsecondary, -⟩ := hend
    have hG := ground_loaders hl hkey
    have hcalm : t.config.Calm ∅ Locks.fresh s.bare := ⟨(hs.sound ht).setLocks _, rfl⟩
    have habs₁ := hG.absent hcalm h₁ habs
    have habs₂ := hG.absent (Company.turn_calm hcalm h₁) h₂ habs₁
    have hfill₁ := hs.puts hP h₁.1
    have hfill₂ := hs.puts hP (h₁.1.trans h₂.1)
    obtain ⟨b, hb, hroom⟩ := hs.exists_roomy h ht hx habs
    rcases mayLie_iff.1 hb with rfl | rfl
    · exact hroom s₁ hfill₁ habs₁ hprimary
    · exact hroom s₂ hfill₂ habs₂ hsecondary
  exact ⟨hstored, hend.brings hl hkey (hs.sound ht) hstored⟩

end

end Table

end TwoChoice
