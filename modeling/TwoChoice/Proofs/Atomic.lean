import TwoChoice.Proofs.Reads

/-!
# Writers under a schedule

What others see of a store or a removal. `Course c key M seen M'`: the sights lead from the map `M`
to the map `M'`, each intrusion is refused or answers what it means on the map of that instant, and
none of them changes the entry of `key`. A writer of the key parts the sights of its run in two such
courses (`Parted`), and in between it changes the map as it means to.
-/

set_option autoImplicit false

namespace TwoChoice

variable {k v : Width} {c : Config k}

namespace Scene

open Config

variable {lanes : Lanes} {schedule : List (Intrusion k v)} {call : Call k v} {key : Word k}

/-- The sights lead from a map to a map, and the entry of the key stays as it is. -/
inductive Course (c : Config k) (key : Word k) : Contents k v c.shape.count → List (Sight c v) →
    Contents k v c.shape.count → Prop
  | nil {M} : Course c key M [] M
  | pause {s rest M'} (tail : Course c key (c.contents s) rest M') :
    Course c key (c.contents s) (.pause s :: rest) M'
  | refused {s i b rest M'} (lock : b ∈ i.call.locks c) (locked : s.locks.isLocked b.val = true)
    (tail : Course c key (c.contents s) rest M') :
    Course c key (c.contents s) (.intrusion i (.error (.waiting b.val)) s :: rest) M'
  | served {M s i reply rest M'} (serves : c.Serves False i.call M reply (c.contents s))
    (same : c.contents s key = M key) (tail : Course c key (c.contents s) rest M') :
    Course c key M (.intrusion i (.ok reply) s :: rest) M'

namespace Course

variable {M M' M'' : Contents k v c.shape.count} {seen seen' : List (Sight c v)}

theorem append (h : Course c key M seen M') (h' : Course c key M' seen' M'') :
    Course c key M (seen ++ seen') M'' := by
  induction h with
  | nil => exact h'
  | pause _ ih => exact .pause (ih h')
  | refused lock locked _ ih => exact .refused lock locked (ih h')
  | served serves same _ ih => exact .served serves same (ih h')

/-- The entry of the key at the end is the one at the start. -/
theorem entry_end (h : Course c key M seen M') : M' key = M key := by
  induction h with
  | nil => rfl
  | pause _ ih => exact ih
  | refused _ _ _ ih => exact ih
  | served _ same _ ih => rw [ih, same]

/-- The key has the same entry in everything that is seen. -/
theorem entry_seen (h : Course c key M seen M') :
    ∀ x ∈ seen, c.contents x.cells key = M key := by
  induction h with
  | nil => exact fun _ hx => absurd hx List.not_mem_nil
  | pause _ ih | refused _ _ _ ih =>
    intro x hx
    rcases List.mem_cons.1 hx with rfl | hx
    · rfl
    · exact ih x hx
  | served _ same _ ih =>
    intro x hx
    rcases List.mem_cons.1 hx with rfl | hx
    · exact same
    · rw [ih x hx, same]

end Course

/-- Between two sights nothing happens but the intrusions, and these leave the key alone. -/
theorem Follows.course {T : Set (Place c.shape)} {s s' : Cells k v c.shape}
    {seen : List (Sight c v)} (h : Follows c lanes schedule s seen s') (hs : c.Sound T s)
    (hsimple : Simple c schedule) (hl : c.Live key) (hmay : ¬ may c schedule s.locks key) :
    Course c key (c.contents s) seen (c.contents s') := by
  induction h with
  | nil => exact .nil
  | pause _ ih => exact .pause (ih hs hmay)
  | @intrusion _ s i _ _ mem _ _ ih =>
    obtain ⟨hsingle, hkeys⟩ := hsimple i mem
    rcases effect_single lanes hs hsingle hkeys with
      ⟨b, hb, hlocked, heffect⟩ | ⟨reply, hreply, hacts, hserves⟩
    · rw [heffect] at ih ⊢
      exact .refused hb hlocked (ih hs hmay)
    · rw [hreply]
      have hsame := contents_deeds hacts.deeds hs hl fun h => hmay ⟨i, mem, h⟩
      refine .served (hserves.mono False.elim) hsame (ih (Deeds.sound hacts.deeds hs) ?_)
      rwa [hacts.locks]

/-- The sights fall apart into two courses, and in between the step is made. -/
def Parted (c : Config k) (key : Word k) (M : Contents k v c.shape.count) (seen : List (Sight c v))
    (M' : Contents k v c.shape.count)
    (step : Contents k v c.shape.count → Contents k v c.shape.count → Prop) : Prop :=
  ∃ before after M₁ M₂, seen = before ++ after ∧ Course c key M before M₁ ∧ step M₁ M₂ ∧
    Course c key M₂ after M'

section
variable (adm : call.Admissible c schedule) {l : Locks c.shape.count} {T : Set (Place c.shape)}
variable {seen seen' : List (Sight c v)} {s s' s₀ : Cells k v c.shape}
variable {step : Contents k v c.shape.count → Contents k v c.shape.count → Prop}

theorem course_of_turn (hG : (others lanes adm).Ground ∅ l key) (hsimple : Simple c schedule)
    (hs : c.Calm T l s) (ht : (others lanes adm).turn seen s seen' s') :
    ∃ new, seen' = seen ++ new ∧ Course c key (c.contents s) new (c.contents s') := by
  obtain ⟨new, rfl, hfollows, -⟩ := ht
  refine ⟨new, rfl, hfollows.course hs.sound hsimple hG.live ?_⟩
  rw [hs.locks]
  exact hG.kept

theorem course_of_start (hG : (others lanes adm).Ground ∅ l key) (hsimple : Simple c schedule)
    (hs : c.Calm T l s) (ht : (others lanes adm).turn [] s seen s') :
    Course c key (c.contents s) seen (c.contents s') := by
  obtain ⟨new, hseen, hcourse⟩ := course_of_turn adm hG hsimple hs ht
  rwa [hseen, List.nil_append]

/-- A step that is made at one instant parts the sights there. -/
theorem parted_of_around (hG : (others lanes adm).Ground ∅ l key) (hsimple : Simple c schedule)
    (hs₀ : c.Calm ∅ l s₀) {move : Cells k v c.shape → Cells k v c.shape → Prop}
    (hcalm : ∀ s₁ s₂, c.Calm ∅ l s₁ → move s₁ s₂ → c.Calm ∅ l s₂)
    (hstep : ∀ s₁ s₂, c.Calm ∅ l s₁ → move s₁ s₂ → step (c.contents s₁) (c.contents s₂))
    (h : (others lanes adm).Around [] s₀ move seen s) :
    Parted c key (c.contents s₀) seen (c.contents s) step := by
  obtain ⟨_, s₁, s₂, h1, hmove, h2⟩ := h
  have hs₁ := Company.turn_calm hs₀ h1
  obtain ⟨after, rfl, hafter⟩ := course_of_turn adm hG hsimple (hcalm _ _ hs₁ hmove) h2
  exact ⟨_, after, _, _, rfl, course_of_start adm hG hsimple hs₀ h1, hstep _ _ hs₁ hmove, hafter⟩

theorem StoreEnds.parted {value : Word v} {replace : Bool} {stored : Stored}
    (hG : (others lanes adm).Ground ∅ l key) (hsimple : Simple c schedule) (hs₀ : c.Calm ∅ l s₀)
    (h : StoreEnds (others lanes adm) key value replace [] s₀ stored seen s) :
    Parted c key (c.contents s₀) seen (c.contents s) fun M M' =>
      c.Stores False M key value replace stored M' := by
  cases stored with
  | present =>
    exact parted_of_around adm hG hsimple hs₀ (fun _ _ hs h => h.calm hG.live hs)
      (fun _ _ hs h => h.stores hs.sound hG.live) h
  | inserted =>
    exact parted_of_around adm hG hsimple hs₀ (fun _ _ hs h => h.calm hG.live hs)
      (fun _ _ hs h => h.stores hs.sound hG.live) h
  | full =>
    obtain ⟨habs, hseen⟩ := h
    have hafter := course_of_start adm hG hsimple hs₀ hseen.turn
    exact ⟨[], _, _, _, rfl, .nil, .full (contents_absent habs) False.elim, hafter⟩

theorem EraseEnds.parted {wanted : Option (Word v)} {erased : Bool}
    (hG : (others lanes adm).Ground ∅ l key) (hsimple : Simple c schedule) (hs₀ : c.Calm ∅ l s₀)
    (h : EraseEnds (others lanes adm) key wanted [] s₀ erased seen s) :
    Parted c key (c.contents s₀) seen (c.contents s) fun M M' =>
      c.Erases M key wanted erased M' := by
  cases erased with
  | true =>
    obtain ⟨p, _, s₁, _, s₂, h1, hk, hacc, h2, h3⟩ := h
    have hs₁ := Company.turn_calm hs₀ h1
    have hl₁ : c.Live (s₁.key p) := hk ▸ hG.live
    have hv : c.Calm (insert p ∅) l (s₁.vacate p c.reserved.tombstone) :=
      hs₁.vacate hl₁ (.inl rfl)
    have hs₂ := (Company.turn_calm hv h2).bury (Set.notMem_empty p) (key_of_vacate hv h2)
    obtain ⟨between, rfl, hbetween⟩ := course_of_turn adm hG hsimple hv h2
    obtain ⟨after, rfl, hafter⟩ := course_of_turn adm hG hsimple hs₂ h3
    rw [contents_putTag] at hafter
    exact ⟨_, between ++ after, _, _, List.append_assoc .., course_of_start adm hG hsimple hs₀ h1,
      erases_vacate hs₁.sound hG.live hk hacc, hbetween.append hafter⟩
  | false =>
    obtain ⟨h1, hno⟩ := h
    have hafter := course_of_start adm hG hsimple hs₀ h1
    exact ⟨[], _, _, _, rfl, .nil, erases_none hs₀.sound hno, hafter⟩

theorem Parted.mono {M M' : Contents k v c.shape.count}
    {step' : Contents k v c.shape.count → Contents k v c.shape.count → Prop}
    (h : Parted c key M seen M' step) (hstep : ∀ M₁ M₂, step M₁ M₂ → step' M₁ M₂) :
    Parted c key M seen M' step' := by
  obtain ⟨before, after, M₁, M₂, hseen, hbefore, hs, hafter⟩ := h
  exact ⟨before, after, M₁, M₂, hseen, hbefore, hstep _ _ hs, hafter⟩

variable (lanes) in
/-- In the crowd a writer of a key takes effect at one instant. -/
theorem write_crowd (hcall : call.Updates key) (hsimple : Simple c schedule) {g : Group}
    (hg : schedule.length < g.passes) (hfree : ∀ b, s.locks.isLocked b = false)
    (hs : c.Sound ∅ s) {E : Halt → List (Sight c v) → Cells k v c.shape → Prop} :
    (call.run c g).Ensures (others lanes adm).toWorld E [] s fun reply seen s' =>
      Parted c key (c.contents s) seen (c.contents s') fun M M' =>
        c.Serves False call M reply M' := by
  have hhold : ∀ {locked}, c.Calm ∅ (c.hold key locked s.locks)
      (s.setLocks (c.hold key locked s.locks)) := fun {_} => ⟨hs.setLocks _, rfl⟩
  rcases hcall.forms (c := c) with ⟨value, replace, locked, reply, h⟩ | ⟨wanted, locked, h⟩
  · have hG : (others lanes adm).Ground ∅ (c.hold key locked s.locks) key :=
      ground_others lanes adm h.part h.mem_writes h.unlocked_or_held
    refine h.run hG.live (store_ensures g hG hs (fun _ => hfree _)
      (left_others_lt lanes adm hg _) fun stored seen s' hend => ?_)
    have hparted := StoreEnds.parted adm hG hsimple hhold hend
    rw [contents_setLocks] at hparted
    exact hparted.mono fun _ _ => h.serves
  · have hG : (others lanes adm).Ground ∅ (c.hold key locked s.locks) key :=
      ground_others lanes adm h.part h.mem_writes h.unlocked_or_held
    refine h.run (erase_ensures g hG hs (bears_others lanes adm h.part h.vacates
      h.unlocked_or_held) (fun _ => hfree _) fun erased seen s' hend => ?_)
    have hparted := EraseEnds.parted adm hG hsimple hhold hend
    rw [contents_setLocks] at hparted
    exact hparted.mono fun _ _ => h.serves

end

end Scene

namespace Table

open Scene

/-- **A writer of a key is atomic.** Under every admissible schedule of calls on single keys its run
has one instant at which it does to the map what it means to do. Everything that is seen before has
the entry of the key as it was at the start, and everything that is seen afterwards as it is at the
end; each intrusion was refused or answered what it means on the map of its instant. -/
theorem Reachable.write_atomic {t : Table k v} (h : t.Reachable) (lanes : Lanes) {call : Call k v}
    {key : Word k} (hcall : call.Updates key) {schedule : List (Intrusion k v)}
    (adm : call.Admissible t.config schedule) (hsimple : Simple t.config schedule) :
    let c := t.config
    let ended := t.handle lanes schedule (.call call)
    ∃ reply before after M₁ M₂,
      ended.1.outcome = .ok (some reply) ∧
      ended.1.intruded = (intrusions (before ++ after)).map (fun x => ⟨x.1.moment, x.2⟩) ∧
      sights c lanes schedule call t.cells = before ++ after ∧
      Course c key (c.contents t.cells) before M₁ ∧
      (∀ x ∈ before, c.contents x.cells key = c.contents t.cells key) ∧
      c.Serves False call M₁ reply M₂ ∧ M₁ key = c.contents t.cells key ∧
      Course c key M₂ after (c.contents ended.2.cells) ∧
      ∀ x ∈ after, c.contents x.cells key = c.contents ended.2.cells key := by
  intro c ended
  have hquiet := h.quiet
  obtain ⟨hintruded, reply, houtcome, before, after, M₁, M₂, hseen, hbefore, hserves, hafter⟩ :=
    handle_ensures adm (write_crowd lanes adm hcall hsimple (Nat.lt_succ_self _)
      hquiet.unlocked hquiet.sound)
  rw [hseen] at hintruded
  refine ⟨reply, before, after, M₁, M₂, houtcome, hintruded, hseen, hbefore, hbefore.entry_seen,
    hserves, hbefore.entry_end, hafter, fun x hx => ?_⟩
  rw [hafter.entry_seen x hx, hafter.entry_end]

/-- A removal between two lookups of its key, of which the first one finds it. Before the removal a
store of another key goes through. -/
theorem Reachable.write_atomic_erase :
    let t := (small.handle fourLanes [] (.call (.upsert 5 1 true))).2
    let call : Call .w16 .w16 := .erase 5 true
    let schedule := [⟨3, .find 5⟩, ⟨3, .upsert 6 1 true⟩, ⟨4, .find 5⟩]
    let ended := t.handle fourLanes schedule (.call call)
    ended.1.outcome = .ok (some (.flag true)) ∧
    ended.1.intruded =
      [⟨3, .ok (.value (some 1))⟩, ⟨3, .ok (.flag true)⟩, ⟨4, .ok (.value none)⟩] ∧
    ∃ before after M₁ M₂,
      sights t.config fourLanes schedule call t.cells = before ++ after ∧
      (∀ x ∈ before, t.config.contents x.cells 5 = t.config.contents t.cells 5) ∧
      t.config.Serves False call M₁ (.flag true) M₂ ∧
      M₁ 5 = t.config.contents t.cells 5 ∧
      ∀ x ∈ after, t.config.contents x.cells 5 = none := by
  intro t call schedule ended
  have hstore : (Call.upsert (v := .w16) 5 1 true).Admissible small.config [] := by
    decide +kernel
  have ht : t.Reachable := reachable_small.call fourLanes hstore
  have hconfig : t.config = small.config := handle_config ..
  have adm : call.Admissible t.config schedule := by
    rw [hconfig]
    decide +kernel
  have hlive : t.config.Live 5 := by
    rw [hconfig]
    decide +kernel
  have hlive' : t.config.Live 6 := by
    rw [hconfig]
    decide +kernel
  have hsimple : Simple t.config schedule := by
    intro i hi
    simp only [schedule, List.mem_cons, List.not_mem_nil, or_false] at hi
    rcases hi with rfl | rfl | rfl
    · exact ⟨trivial, fun key hk => List.mem_singleton.1 hk ▸ hlive⟩
    · exact ⟨trivial, fun key hk => List.mem_singleton.1 hk ▸ hlive'⟩
    · exact ⟨trivial, fun key hk => List.mem_singleton.1 hk ▸ hlive⟩
  have hcall : call.Updates 5 := rfl
  have hdone : ended.1.outcome = .ok (some (.flag true)) := by
    decide +kernel
  have hhooks : ended.1.intruded =
      [⟨3, .ok (.value (some 1))⟩, ⟨3, .ok (.flag true)⟩, ⟨4, .ok (.value none)⟩] := by
    decide +kernel
  have hatomic := ht.write_atomic fourLanes hcall adm hsimple
  dsimp only at hatomic
  obtain ⟨reply, before, after, M₁, M₂, houtcome, -, hsights, -, hbefore, hserves, hstart, hcourse,
    -⟩ := hatomic
  cases hdone.symm.trans houtcome
  refine ⟨hdone, hhooks, before, after, M₁, M₂, hsights, hbefore, hserves, hstart, fun x hx => ?_⟩
  obtain ⟨_, herases, hflag⟩ := hserves
  cases hflag
  cases herases with
  | erased => rw [hcourse.entry_seen x hx, Function.update_self]

end Table

end TwoChoice
