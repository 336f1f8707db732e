import TwoChoice.Proofs.Reachable

/-!
# Lookups under a schedule

A lookup takes no lock, so the others may also remove its key in the meantime and store it in
another slot. No deed moves a key that is present (`Deed.stays`): between two sights a key keeps its
slot, or one of the sights is of a table without it (`Follows.stays`). So the answer of a lookup is
the entry of its key at some instant.
-/

set_option autoImplicit false

namespace TwoChoice

variable {k v : Width} {c : Config k}

namespace Config

variable {may : Word k → Prop} {T : Set (Place c.shape)} {s s' : Cells k v c.shape}
variable {p : Place c.shape}

/-- A key that is present keeps its slot over a deed, or the deed removes it. -/
theorem Deed.stays (h : c.Deed may s s') (hs : c.Sound T s) (hl : c.Live (s.key p)) :
    s'.key p = s.key p ∨ s'.Absent (s.key p) := by
  cases h with
  | @overwrite q value =>
    left
    rw [Cells.key_putSlot]
    split
    · rename_i hq
      rw [hq]
    · rfl
  | @insert q key value _ _ _ hf =>
    left
    rw [Cells.key_fill, if_neg]
    rintro rfl
    exact hs.not_live_of_free hf hl
  | @remove q _ hlq =>
    by_cases hq : q = p
    · subst hq
      right
      intro r
      rw [Cells.key_putTag]
      exact absent_vacate hs hl hl.ne_tombstone.symm r
    · left
      rw [Cells.key_putTag, Cells.key_vacate, if_neg hq]
  | @handOver q key value _ _ _ _ habs =>
    by_cases hq : q = p
    · subst hq
      right
      intro r
      rw [Cells.key_fill]
      split
      · exact fun he => habs q he.symm
      · rename_i hr
        exact fun he => hr (hs.unique q r hl he.symm)
    · left
      rw [Cells.key_fill, if_neg hq]

end Config

namespace Scene

open Config

variable {lanes : Lanes} {schedule : List (Intrusion k v)}

/-- Every intrusion is a call on single keys that may name entries. -/
def Simple (c : Config k) (schedule : List (Intrusion k v)) : Prop :=
  ∀ i ∈ schedule, i.call.Single ∧ ∀ key ∈ i.call.keys, c.Live key

/-- A key that is present keeps its slot, or one of the sights is without it. -/
theorem Follows.stays {T : Set (Place c.shape)} {s s' : Cells k v c.shape}
    {seen : List (Sight c v)} (h : Follows c lanes schedule s seen s') (hs : c.Sound T s)
    (hsimple : Simple c schedule) {key : Word k} (hl : c.Live key) {p : Place c.shape}
    (hp : s.key p = key) : s'.key p = key ∨ ∃ x ∈ seen, x.cells.Absent key := by
  induction h with
  | nil => exact .inl hp
  | pause _ ih =>
    refine (ih hs hp).imp_right ?_
    intro hex
    obtain ⟨x, hx, habs⟩ := hex
    exact ⟨x, List.mem_cons_of_mem _ hx, habs⟩
  | @intrusion _ s i rest s' mem _ _ ih =>
    have hrest : ∀ {t : Cells k v c.shape}, t = (i.effect c lanes s).2 → c.Sound T t →
        t.key p = key → s'.key p = key ∨ ∃ x ∈ (.intrusion i (i.effect c lanes s).1
          (i.effect c lanes s).2 :: rest : List (Sight c v)), x.cells.Absent key := by
      intro t he ht htp
      subst he
      refine (ih ht htp).imp_right ?_
      intro hex
      obtain ⟨x, hx, habs⟩ := hex
      exact ⟨x, List.mem_cons_of_mem _ hx, habs⟩
    obtain ⟨hsingle, hkeys⟩ := hsimple i mem
    rcases effect_single lanes hs hsingle hkeys with
      ⟨b, _, _, heffect⟩ | ⟨_, _, hacts, _⟩
    · exact hrest (by rw [heffect]) hs hp
    · rcases hacts.deed with hsame | hdeed
      · exact hrest hsame.symm hs hp
      · subst hp
        rcases hdeed.stays hs hl with hp' | habs
        · exact hrest rfl (hdeed.sound hs) hp'
        · exact .inr ⟨_, List.mem_cons_self .., habs⟩

theorem Simple.admissible_find (h : Simple c schedule) (key : Word k) :
    (Call.find key).Admissible c schedule where
  live _ hk := absurd hk List.not_mem_nil
  intrusions_live i hi key hk := (h i hi).2 key (Call.writes_subset_keys _ hk)
  apart _ _ _ _ hk := absurd hk List.not_mem_nil

/-- The tables at the start of a run and at everything that is seen of it. -/
def instants (s : Cells k v c.shape) (seen : List (Sight c v)) : List (Cells k v c.shape) :=
  s :: seen.map Sight.cells

/-- What was seen up to a certain instant follows as well. -/
theorem Follows.upto {s s' : Cells k v c.shape} {seen : List (Sight c v)}
    (h : Follows c lanes schedule s seen s') :
    ∀ t ∈ instants s seen, ∃ before, Follows c lanes schedule s before t ∧
      (intrusions before).length ≤ (intrusions seen).length := by
  induction h with
  | nil =>
    intro t ht
    obtain rfl := List.mem_singleton.1 ht
    exact ⟨[], .nil, Nat.le_refl _⟩
  | @pause s rest _ _ ih =>
    intro t ht
    rcases List.mem_cons.1 ht with rfl | ht
    · exact ⟨[], .nil, Nat.zero_le _⟩
    · obtain ⟨before, hbefore, hle⟩ := ih t ht
      exact ⟨.pause s :: before, .pause hbefore, hle⟩
  | @intrusion T s i rest _ mem sound _ ih =>
    intro t ht
    rcases List.mem_cons.1 ht with rfl | ht
    · exact ⟨[], .nil, Nat.zero_le _⟩
    · obtain ⟨before, hbefore, hle⟩ := ih t ht
      exact ⟨_, .intrusion mem sound hbefore, Nat.succ_le_succ hle⟩

/-- The others have turns up to each instant of a turn. -/
theorem turn_instants {call : Call k v} (adm : call.Admissible c schedule)
    {s s' : Cells k v c.shape} {r r' : List (Sight c v)}
    (ht : (others lanes adm).turn r s r' s') :
    ∃ new, r' = r ++ new ∧ Follows c lanes schedule s new s' ∧
      ∀ t ∈ instants s new, ∃ r'', (others lanes adm).turn r s r'' t := by
  obtain ⟨new, rfl, hfollows, hle⟩ := ht
  refine ⟨new, rfl, hfollows, fun t ht => ?_⟩
  obtain ⟨before, hbefore, hle'⟩ := hfollows.upto t ht
  refine ⟨r ++ before, before, rfl, hbefore, ?_⟩
  rw [intrusions_append, List.length_append] at hle ⊢
  omega

/-- In the crowd a lookup answers with the entry that its key has at some instant. -/
theorem find_crowd (hsimple : Simple c schedule) {key : Word k} (hl : c.Live key)
    {s : Cells k v c.shape} (hs : c.Sound ∅ s) (g : Group)
    {E : Halt → List (Sight c v) → Cells k v c.shape → Prop} :
    (c.find? g key).Ensures (others lanes (hsimple.admissible_find key)).toWorld E [] s
      fun x seen _ => ∃ t ∈ instants s seen, (c.contents t key).map Prod.fst = x := by
  have hwatched : Watched (others lanes (hsimple.admissible_find key)) key
      fun seen => ∃ t ∈ instants s seen, t.Absent key := by
    refine ⟨?_, ?_⟩
    · intro seen s seen' s' hturn hmissed
      obtain ⟨new, rfl, -, -⟩ := hturn
      obtain ⟨t, ht, habs⟩ := hmissed
      refine ⟨t, ?_, habs⟩
      rw [instants, List.map_append, ← List.cons_append]
      exact List.mem_append_left _ ht
    · intro T s p seen seen' s' hT hturn hp
      obtain ⟨new, rfl, hfollows, -⟩ := hturn
      refine (hfollows.stays hT hsimple hl hp).imp_right ?_
      intro hex
      obtain ⟨x, hx, habs⟩ := hex
      exact ⟨x.cells, List.mem_cons_of_mem _ (List.mem_map_of_mem (List.mem_append_right _ hx)),
        habs⟩
  have hready : ∀ r s', c.Calm ∅ s.locks s' →
      (others lanes (hsimple.admissible_find key)).ready r s' := fun _ _ h => .inl h.sound
  refine find?_ensures (l := s.locks) g hl ⟨hs, rfl⟩ hready hwatched
    (fun habs => ⟨s, List.mem_cons_self .., habs⟩) (fun seen s' p ht hp => ?_) ?_
  · have hs' := (Company.turn_calm ⟨hs, rfl⟩ ht).sound
    obtain ⟨new, rfl, hfollows, -⟩ := ht
    refine ⟨s', hfollows.mem_cells, ?_⟩
    rw [← hp, contents_key hs' (hp ▸ hl)]
    rfl
  · intro seen s' _ hmissed
    obtain ⟨t, ht, habs⟩ := hmissed
    refine ⟨t, ht, ?_⟩
    rw [contents_absent habs]
    rfl

end Scene

namespace Table

open Scene

/-- **A lookup is atomic.** Under every schedule of calls on single keys, also on its own, it
answers with the entry that its key has at some instant between its start and its end. A key that
is present at all of them is found. -/
theorem Reachable.find_some_instant {t : Table k v} (h : t.Reachable) (lanes : Lanes)
    {schedule : List (Intrusion k v)} (hsimple : Simple t.config schedule) {key : Word k}
    (hl : t.config.Live key) :
    let seen := instants t.cells (sights t.config lanes schedule (.find key) t.cells)
    ∃ x, (t.handle lanes schedule (.call (.find key))).1.outcome = .ok (some (.value x)) ∧
      (∃ s ∈ seen, (t.config.contents s key).map Prod.fst = x) ∧
      ((∀ s ∈ seen, (t.config.contents s key).isSome = true) → x.isSome = true) := by
  intro seen
  have hfind : ((Call.find key).run t.config { lanes with passes := schedule.length + 1 }).Ensures
      (others lanes (hsimple.admissible_find key)).toWorld (fun _ _ _ => False) [] t.cells
      fun reply seen _ => ∃ x, reply = .value x ∧
        ∃ s ∈ instants t.cells seen, (t.config.contents s key).map Prod.fst = x :=
    Prog.ensures_map.2 ((find_crowd hsimple hl h.quiet.sound _).mono fun x _ _ hx => ⟨x, rfl, hx⟩)
  obtain ⟨-, _, houtcome, x, rfl, s, hs, hx⟩ := handle_ensures _ hfind
  refine ⟨x, houtcome, ⟨s, hs, hx⟩, fun hall => ?_⟩
  rw [← hx, Option.isSome_map]
  exact hall s hs

/-- A lookup of a key that is removed and stored again in the meantime. -/
theorem Reachable.find_some_instant_recycled :
    let t := (small.handle ⟨4, by decide, by decide⟩ [] (.call (.upsert 5 1 true))).2
    let schedule := [⟨1, .erase 5 true⟩, ⟨1, .upsert 5 2 true⟩]
    ∃ x, (t.handle ⟨4, by decide, by decide⟩ schedule (.call (.find 5))).1.outcome =
        .ok (some (.value x)) ∧
      ∃ s ∈ instants t.cells (sights t.config ⟨4, by decide, by decide⟩ schedule (.find 5) t.cells),
        (t.config.contents s 5).map Prod.fst = x := by
  intro t schedule
  have hstore : (Call.upsert (v := .w16) 5 1 true).Admissible small.config [] := by
    decide +kernel
  have ht : t.Reachable := reachable_small.call ⟨4, by decide, by decide⟩ hstore
  have hconfig : t.config = small.config := handle_config ..
  have hlive : t.config.Live 5 := by
    rw [hconfig]
    decide +kernel
  have hsimple : Simple t.config schedule := by
    intro i hi
    rcases List.mem_pair.1 hi with rfl | rfl
    · exact ⟨trivial, fun key hk => List.mem_singleton.1 hk ▸ hlive⟩
    · exact ⟨trivial, fun key hk => List.mem_singleton.1 hk ▸ hlive⟩
  obtain ⟨x, houtcome, hseen, -⟩ :=
    ht.find_some_instant ⟨4, by decide, by decide⟩ hsimple hlive
  exact ⟨x, houtcome, hseen⟩

end Table

end TwoChoice
