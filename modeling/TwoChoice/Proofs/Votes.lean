import TwoChoice.Proofs.Guards

/-!
# Picks under a schedule

A pick by a salt votes on one candidate bucket after the other, pauses after each vote, and then
reads the slots that the votes named. In between others may remove pairs and store new ones, so both
votes may be out of date when the slots are read. The way round the named slots comes to each of
them (`mem_rotation`), whatever number the salt was reduced to: so the answer is a pair that is
still there, and there is no answer exactly if no slot was live both at its vote and at the end
(`NamedBy.picked_eq_none`).
-/

set_option autoImplicit false

namespace TwoChoice

variable {k v : Width}

/-- The tables at the pauses, in order. -/
def Scene.atPauses {c : Config k} (seen : List (Sight c v)) : List (Cells k v c.shape) :=
  seen.filterMap fun
    | .pause s => some s
    | .intrusion .. => none

/-- Going round a list from any of its elements is going through all of it. -/
theorem mem_rotation {α : Type} {xs : List α} {n : Nat} {x : α} :
    x ∈ xs.drop n ++ xs.take n ↔ x ∈ xs := by
  rw [List.mem_append, or_comm, ← List.mem_append, List.take_append_drop]

namespace Config

variable {c : Config k} {s s' : Cells k v c.shape} {key : Word k} {b : Fin c.shape.count} {n : Nat}

/-! ## Slots that were named -/

theorem pairAt_eq_some {e : Word k × Word v} :
    (s.bucket b).slots.pairAt c.reserved n = some e ↔
      ∃ i, i.val = n ∧ c.Live (s.key ⟨b, i⟩) ∧ e = (s.key ⟨b, i⟩, s.value ⟨b, i⟩) := by
  constructor
  · intro h
    have hn : n < c.shape.len.slots := by
      by_contra hout
      rw [Slots.pairAt, Vector.getElem?_eq_none (Nat.le_of_not_lt hout)] at h
      cases h
    have hpair := Slots.pairAt_eq (s.bucket b).slots ⟨n, hn⟩ c.reserved
    simp only at hpair
    rw [hpair] at h
    split at h
    · cases h
    · rename_i hlive
      exact ⟨⟨n, hn⟩, rfl, Bool.eq_false_iff.2 hlive, (Option.some.inj h).symm⟩
  · rintro ⟨i, rfl, hlive, rfl⟩
    exact (Slots.pairAt_eq (s.bucket b).slots i c.reserved).trans
      (if_neg (Bool.eq_false_iff.1 hlive))

/-- A vote names the live slots of the bucket. -/
theorem mem_liveMask : n ∈ ((s.bucket b).slots.liveMask c.reserved).indices ↔
    ∃ i, i.val = n ∧ c.Live (s.key ⟨b, i⟩) := by
  rw [Slots.liveMask, Mask.mem_indices_collect c.shape.len.slots_le, Option.isSome_iff_exists]
  simp only [pairAt_eq_some]
  constructor
  · rintro ⟨-, -, i, hi, hlive, -⟩
    exact ⟨i, hi, hlive⟩
  · rintro ⟨i, rfl, hlive⟩
    exact ⟨i.isLt, _, i, rfl, hlive, rfl⟩

/-- Each of the slots was live when its bucket was voted on. -/
def NamedBy (live : List (Fin c.shape.count × Nat))
    (votes : List (Fin c.shape.count × Cells k v c.shape)) : Prop :=
  ∀ b n, (b, n) ∈ live ↔
    ∃ voted i, (b, voted) ∈ votes ∧ i.val = n ∧ c.Live (voted.key ⟨b, i⟩)

theorem namedBy_one : NamedBy
    (c.named key ((s.bucket (c.candidates key).primary).slots.liveMask c.reserved) 0)
    [((c.candidates key).primary, s)] := by
  intro b n
  simp only [named, Mask.indices_zero, List.map_nil, List.append_nil, List.mem_map, Prod.mk.injEq,
    List.mem_singleton]
  constructor
  · rintro ⟨m, hm, rfl, rfl⟩
    obtain ⟨i, hi, hlive⟩ := mem_liveMask.1 hm
    exact ⟨s, i, ⟨rfl, rfl⟩, hi, hlive⟩
  · rintro ⟨_, i, ⟨rfl, rfl⟩, hi, hlive⟩
    exact ⟨n, mem_liveMask.2 ⟨i, hi, hlive⟩, rfl, rfl⟩

theorem namedBy_two : NamedBy
    (c.named key ((s.bucket (c.candidates key).primary).slots.liveMask c.reserved)
      ((s'.bucket (c.candidates key).secondary).slots.liveMask c.reserved))
    [((c.candidates key).primary, s), ((c.candidates key).secondary, s')] := by
  intro b n
  simp only [named, List.mem_append, List.mem_map, Prod.mk.injEq, List.mem_cons,
    List.not_mem_nil, or_false]
  constructor
  · rintro (⟨m, hm, rfl, rfl⟩ | ⟨m, hm, rfl, rfl⟩)
    · obtain ⟨i, hi, hlive⟩ := mem_liveMask.1 hm
      exact ⟨s, i, .inl ⟨rfl, rfl⟩, hi, hlive⟩
    · obtain ⟨i, hi, hlive⟩ := mem_liveMask.1 hm
      exact ⟨s', i, .inr ⟨rfl, rfl⟩, hi, hlive⟩
  · rintro ⟨_, i, (⟨rfl, rfl⟩ | ⟨rfl, rfl⟩), hi, hlive⟩
    · exact .inl ⟨n, mem_liveMask.2 ⟨i, hi, hlive⟩, rfl, rfl⟩
    · exact .inr ⟨n, mem_liveMask.2 ⟨i, hi, hlive⟩, rfl, rfl⟩

section
variable {live : List (Fin c.shape.count × Nat)}
variable {votes : List (Fin c.shape.count × Cells k v c.shape)}

/-- What is picked was live at its vote and still is. -/
theorem NamedBy.of_picked (h : NamedBy live votes) {salt : UInt64} {e : Word k × Word v}
    (he : c.picked salt live s = some e) : ∃ (p : Place c.shape) (voted : Cells k v c.shape),
      (p.bucket, voted) ∈ votes ∧ c.Live (voted.key p) ∧ c.Live (s.key p) ∧
      e = (s.key p, s.value p) := by
  obtain ⟨⟨b, n⟩, hmem, hpair⟩ := List.exists_of_findSome?_eq_some he
  obtain ⟨voted, i, hvote, rfl, hlive⟩ := (h b n).1 (mem_rotation.1 hmem)
  obtain ⟨j, hj, hlive', rfl⟩ := pairAt_eq_some.1 hpair
  obtain rfl := Fin.ext hj
  exact ⟨⟨b, j⟩, voted, hvote, hlive, hlive', rfl⟩

/-- Nothing is picked exactly if no slot was live at its vote and still is. -/
theorem NamedBy.picked_eq_none (h : NamedBy live votes) {salt : UInt64} :
    c.picked salt live s = none ↔ ∀ b voted, (b, voted) ∈ votes →
      ∀ i, c.Live (voted.key ⟨b, i⟩) → ¬ c.Live (s.key ⟨b, i⟩) := by
  rw [picked, List.findSome?_eq_none_iff]
  simp only [mem_rotation]
  constructor
  · intro hnone b voted hvote i hlive hlive'
    have hpair := hnone (b, i.val) ((h b i.val).2 ⟨voted, i, hvote, rfl, hlive⟩)
    rw [pairAt_eq_some.2 ⟨i, rfl, hlive', rfl⟩] at hpair
    cases hpair
  · rintro hgone ⟨b, n⟩ hmem
    obtain ⟨voted, i, hvote, rfl, hlive⟩ := (h b n).1 hmem
    refine Option.eq_none_iff_forall_ne_some.2 fun e he => ?_
    obtain ⟨j, hj, hlive', -⟩ := pairAt_eq_some.1 he
    obtain rfl := Fin.ext hj
    exact hgone b voted hvote j hlive hlive'

end

end Config

/-! ## The pauses of a pick -/

namespace Scene

open Config

variable {c : Config k} {lanes : Lanes} {schedule : List (Intrusion k v)}

theorem atPauses_append (seen seen' : List (Sight c v)) :
    atPauses (seen ++ seen') = atPauses seen ++ atPauses seen' :=
  List.filterMap_append

/-- There is no pause among intrusions. -/
theorem atPauses_carry (is : List (Intrusion k v)) (s : Cells k v c.shape) :
    atPauses (carry c lanes is s).1 = [] := by
  induction is generalizing s with
  | nil => rfl
  | cons i is ih => exact ih _

/-- A turn shows the table once at a pause. -/
theorem atPauses_turn {r r' : Nat × List (Sight c v)} {s s' : Cells k v c.shape}
    (ht : (paced c lanes schedule).turn r s r' s') : atPauses r'.2 = atPauses r.2 ++ [s] := by
  obtain ⟨rfl, -⟩ := ht
  rw [atPauses_append]
  exact congrArg (fun rest => atPauses r.2 ++ s :: rest) (atPauses_carry _ s)

/-- Under a schedule, a pick pauses once for each candidate bucket, after its vote on it. -/
theorem pick_paced (g : Group) (key : Word k) (salt : UInt64) (s : Cells k v c.shape) :
    (c.pick g key salt).Ensures (paced c lanes schedule) (fun _ _ _ => False) (0, []) s
      fun x r s' => (atPauses r.2).length = (c.candidates key).distinct.length ∧
        (atPauses r.2).head? = some s ∧ ∃ live,
          NamedBy live ((c.candidates key).distinct.zip (atPauses r.2)) ∧
            x = c.picked salt live s' := by
  refine pick_ensures g salt trivial (fun hsame r₁ s₁ h₁ => ?_) fun hother r₁ s₁ h₁ =>
    ⟨trivial, fun r₂ s₂ h₂ => ?_⟩
  · rw [atPauses_turn h₁, Candidates.distinct, if_pos hsame]
    exact ⟨rfl, rfl, _, namedBy_one, rfl⟩
  · rw [atPauses_turn h₂, atPauses_turn h₁, Candidates.distinct, if_neg hother]
    exact ⟨rfl, rfl, _, namedBy_two, rfl⟩

end Scene

namespace Table

/-- **A pick among others.** Whatever others do at its pauses, a pick by a salt answers. It pauses
once for each candidate bucket, right after its vote on it. If it answers a pair, then from a slot
that was live at its vote, and the slot holds this key and this value when the call returns. It
answers nothing exactly if no slot of the candidate buckets was live both when its bucket was voted
on and when the call returns. -/
theorem pick_among_others (t : Table k v) (lanes : Lanes) (schedule : List (Intrusion k v))
    (key : Word k) (salt : UInt64) :
    let after := t.handle lanes schedule (.call (.pick key salt))
    let buckets := (t.config.candidates key).distinct
    let tables := Scene.atPauses
      (Scene.sights t.config lanes schedule (.pick key salt) t.cells)
    tables.length = buckets.length ∧ tables.head? = some t.cells ∧
    ∃ x, after.1.outcome = .ok (some (.pick x)) ∧
      (∀ e, x = some e → ∃ p voted, t.config.MayLie key p.bucket ∧
        (p.bucket, voted) ∈ buckets.zip tables ∧ t.config.Live (voted.key p) ∧
        t.config.Live (after.2.cells.key p) ∧
        e = (after.2.cells.key p, after.2.cells.value p)) ∧
      (x = none ↔ ∀ b voted, (b, voted) ∈ buckets.zip tables → ∀ i,
        t.config.Live (voted.key ⟨b, i⟩) → ¬ t.config.Live (after.2.cells.key ⟨b, i⟩)) := by
  intro after buckets tables
  have hrun : ((Call.pick key salt).run t.config
      { lanes with passes := schedule.length + 1 }).Ensures (Scene.paced t.config lanes schedule)
      (fun _ _ _ => False) (0, []) t.cells fun reply r s' => ∃ x, reply = .pick x ∧
        (Scene.atPauses r.2).length = buckets.length ∧ (Scene.atPauses r.2).head? = some t.cells ∧
        ∃ live, Config.NamedBy live (buckets.zip (Scene.atPauses r.2)) ∧
          x = t.config.picked salt live s' :=
    Prog.ensures_map.2 ((Scene.pick_paced _ key salt t.cells).mono fun x _ _ h => ⟨x, rfl, h⟩)
  obtain ⟨n, hend⟩ := Scene.watch_paced hrun
  have houtcome := handle_outcome t lanes schedule (.pick key salt)
  have hcells := handle_cells t lanes schedule (.pick key salt)
  split at hend <;> rename_i heq
  · obtain ⟨x, rfl, hlength, hhead, live, hnamed, hx⟩ := hend
    rw [heq] at houtcome
    rw [← hcells] at hx
    refine ⟨hlength, hhead, x, houtcome, fun e he => ?_, ?_⟩
    · obtain ⟨p, voted, hvote, hlive, hlive', hpair⟩ := hnamed.of_picked (hx ▸ he)
      exact ⟨p, voted, (List.of_mem_zip hvote).1, hvote, hlive, hlive', hpair⟩
    · rw [hx]
      exact hnamed.picked_eq_none
  · exact hend.elim

end Table

end TwoChoice
