import TwoChoice.Proofs.Inert

/-!
# What an operation leaves behind

With nobody else there, an operation on one key that is refused, or that ends with a fault, leaves
the table as it was (`Call.refused_alone`), although it has taken locks and may have tried slots
with the tag of its key. A removal that succeeds writes one slot and nothing else: it leaves the
tombstone key with the old value there, under the tombstone tag (`Erased.buried`).
-/

set_option autoImplicit false

namespace TwoChoice

variable {k v : Width}

/-- One slot has this tag and this pair now, and nothing else is changed. -/
structure Cells.Written {sh : Shape} (s : Cells k v sh) (p : Place sh) (tag : Tag) (slot : Slot k v)
    (s' : Cells k v sh) : Prop where
  tag : s'.tag p = tag
  slot : s'.slot p = slot
  others : ∀ q, q ≠ p → s'.tag q = s.tag q ∧ s'.slot q = s.slot q
  locks : s'.locks = s.locks

namespace Config

variable {c : Config k} {s s' : Cells k v c.shape} {key oldKey : Word k} {value oldValue : Word v}
variable {wanted : Option (Word v)} {update : Bool}

namespace Erased

variable {erased : Bool} (h : c.Erased s key wanted erased s')
include h

theorem unchanged (he : erased = false) : s' = s := by
  cases h with
  | erased => cases he
  | kept => rfl

theorem buried (he : erased = true) : ∃ p, s.key p = key ∧
    s.Written p Tag.tombstone ⟨c.reserved.tombstone, s.value p⟩ s' := by
  cases h with
  | @erased p live found accepted =>
    refine ⟨p, found, ⟨by simp, by simp, fun q hq => ?_, by simp⟩⟩
    simp [Ne.symm hq]
  | kept => cases he

theorem iff_found :
    erased = true ↔ c.Live key ∧ ∃ p, s.key p = key ∧ accepts wanted (s.value p) = true := by
  cases h with
  | @erased p live found accepted => exact iff_of_true rfl ⟨live, p, found, accepted⟩
  | kept missing =>
    refine iff_of_false (by simp) ?_
    rintro ⟨hl, p, hk, hacc⟩
    rw [missing hl p hk] at hacc
    cases hacc

end Erased

theorem Exchanged.unchanged {done : Bool}
    (h : c.Exchanged s key value oldKey oldValue update done s') (hd : done = false) : s' = s := by
  cases h with
  | present => rw [hd, if_neg Bool.false_ne_true]
  | moved => cases hd
  | refused => rfl

theorem Seated.unchanged {stored : Stored} (h : c.Seated s key value false stored s')
    (hstored : stored ≠ .inserted) : s' = s := by
  cases h with
  | present => rfl
  | inserted => exact absurd rfl hstored
  | full => rfl

theorem Seated.unchanged_of_full {replace : Bool}
    (h : c.Seated s key value replace .full s') : s' = s := by
  cases h
  rfl

end Config

/-- The operation did not succeed. -/
def Reply.refuses : Reply k v → Bool
  | .flag b => !b
  | .insertion (.error _) => true
  | _ => false

/-- The call came to no answer or to a refusal. -/
def Report.failed (report : Report k v) : Bool :=
  match report.outcome with
  | .ok (some reply) => reply.refuses
  | .ok none => false
  | .error _ => true

namespace Call

open Config

variable {c : Config k} {s : Cells k v c.shape} {g : Group}

/-- The call removes the key, or only the pair of the key with the wanted value. -/
def Removal (key : Word k) : Option (Word v) → Call k v → Prop
  | none, .erase key' _ => key' = key
  | some value, .erasePair key' value' => key' = key ∧ value' = value
  | _, _ => False

theorem Removal.isErase {call : Call k v} {key : Word k} {wanted : Option (Word v)}
    (h : call.Removal key wanted) : ∃ locked, call.IsErase c key wanted locked := by
  cases call with
  | erase key' locked =>
    cases wanted with
    | none =>
      obtain rfl : key' = key := h
      exact ⟨locked, isErase_erase key' locked⟩
    | some => exact h.elim
  | erasePair key' value =>
    cases wanted with
    | none => exact h.elim
    | some =>
      obtain ⟨rfl, rfl⟩ := h
      exact ⟨true, isErase_erasePair key' value⟩
  | _ => cases wanted <;> exact h.elim

/-- **Alone, an operation on one key** that is refused changes nothing, and neither does one that
ends with a fault. -/
theorem refused_alone {x : Call k v} (hx : x.Single) (hg : 0 < g.passes) (hs : c.Sound ∅ s)
    (hfree : ∀ b ∈ x.locks c, s.locks.isLocked b.val = false) :
    (x.run c g).Ensures (World.alone _) (fun _ _ s' => s' = s) () s fun reply _ s' =>
      reply.refuses = true → s' = s := by
  have herase : ∀ {key wanted locked}, IsErase c x key wanted locked →
      (x.run c g).Ensures (World.alone _) (fun _ _ s' => s' = s) () s fun reply _ s' =>
        reply.refuses = true → s' = s := fun h =>
    h.run ((erase_erased g hs (h.free_iff.1 hfree)).mono fun _ _ _ herased hrefuses =>
      herased.unchanged (by simpa [Reply.refuses] using hrefuses))
  cases x with
  | upsert key value locked =>
    have h := isStore_upsert (c := c) key value locked
    by_cases hl : c.Live key
    · refine h.run hl ((store_seated g hg hs hl (h.free_iff.1 hfree)).mono ?_)
      intro stored _ s' hseated hrefuses
      cases stored with
      | full => exact hseated.unchanged_of_full
      | present | inserted => cases hrefuses
    · refine Prog.ensures_map.2 (Prog.ensures_bind.2 ?_)
      rw [store, Prog.require, if_neg (by simpa [Live] using hl)]
      rfl
  | insertNew key value =>
    have h := isStore_insertNew (c := c) key value
    by_cases hl : c.Live key
    · refine h.run hl ((store_seated g hg hs hl (h.free_iff.1 hfree)).mono ?_)
      intro stored _ s' hseated hrefuses
      refine hseated.unchanged ?_
      rintro rfl
      cases hrefuses
    · refine Prog.ensures_map.2 ?_
      rw [Config.insertNew, if_pos (by simpa [Live] using hl)]
      exact fun _ => rfl
  | erase key locked => exact herase (isErase_erase key locked)
  | erasePair key value => exact herase (isErase_erasePair key value)
  | exchange key value oldKey oldValue update =>
    have hfree₁ := hfree (c.candidates key).primary (by simp [Call.locks])
    have hfree₂ := hfree (c.candidates oldKey).primary (by simp [Call.locks])
    by_cases hl : c.Live key
    · exact Prog.ensures_map.2 ((exchange_exchanged g hs hl hfree₁ hfree₂).mono
        fun _ _ _ h hrefuses => h.unchanged (by simpa [Reply.refuses] using hrefuses))
    · refine Prog.ensures_map.2 ?_
      rw [Config.exchange, Prog.require, if_neg (by simpa [Live] using hl)]
      rfl
  | find key => exact (read_alone (x := .find key) id rfl).mono fun _ _ _ h _ => h
  | contains key => exact (read_alone (x := .contains key) id rfl).mono fun _ _ _ h _ => h
  | _ => exact hx.elim

end Call

namespace Table

open Config

variable {t : Table k v}

theorem handle_erased (h : t.Reachable) (lanes : Lanes) {key : Word k} {wanted : Option (Word v)}
    {call : Call k v} (hcall : call.Removal key wanted) :
    ∃ erased, (t.handle lanes [] (.call call)).1.outcome = .ok (some (.flag erased)) ∧
      t.config.Erased t.cells key wanted erased (t.handle lanes [] (.call call)).2.cells := by
  obtain ⟨locked, herase⟩ := hcall.isErase (c := t.config)
  obtain ⟨_, houtcome, erased, rfl, herased⟩ := handle_alone lanes (Q := fun x s' =>
    ∃ erased, x = .flag erased ∧ t.config.Erased t.cells key wanted erased s')
    (herase.run ((erase_erased _ h.quiet.sound fun _ => h.quiet.unlocked _).mono
      fun erased _ _ herased => ⟨erased, rfl, herased⟩))
  exact ⟨erased, houtcome, herased⟩

/-- **What fails leaves no trace, and what is removed leaves its value.** An operation on one key
that nobody interferes with and that does not succeed leaves the table as it was, also if it ends
with a fault because its key is reserved. A removal succeeds exactly if the key is present with an
accepted value. Then it puts the tombstone key and the tombstone tag where the key was, and changes
nothing else. -/
theorem Reachable.failure_unchanged (h : t.Reachable) (lanes : Lanes) :
    (∀ call : Call k v, call.Single → (t.handle lanes [] (.call call)).1.failed = true →
      (t.handle lanes [] (.call call)).2 = t) ∧
    ∀ (key : Word k) (wanted : Option (Word v)) (call : Call k v), call.Removal key wanted →
      let after := t.handle lanes [] (.call call)
      ∃ erased, after.1.outcome = .ok (some (.flag erased)) ∧
        (erased = true ↔ t.config.Live key ∧
          ∃ p, t.cells.key p = key ∧ accepts wanted (t.cells.value p) = true) ∧
        (erased = true → ∃ p, t.cells.key p = key ∧ t.cells.tag p = Tag.ofKey key ∧
          t.cells.Written p Tag.tombstone ⟨t.config.reserved.tombstone, t.cells.value p⟩
            after.2.cells) := by
  refine ⟨fun call hcall hfailed => ?_, fun key wanted call hcall => ?_⟩
  · have hrun := (Call.refused_alone (g := { lanes with passes := 1 }) hcall Nat.zero_lt_one
      h.quiet.sound fun b _ => h.quiet.unlocked b.val).solo
    obtain ⟨houtcome, htable⟩ := handle_solo t lanes call
    rw [Report.failed, houtcome] at hfailed
    rw [htable]
    split at hrun <;> rename_i heq <;> rw [heq] at hfailed ⊢
    · rw [hrun hfailed]
    · rw [hrun]
  · obtain ⟨erased, houtcome, herased⟩ := handle_erased h lanes hcall
    refine ⟨erased, houtcome, herased.iff_found, fun he => ?_⟩
    obtain ⟨p, hp, hburied⟩ := herased.buried he
    obtain ⟨hl, -⟩ := herased.iff_found.1 he
    subst hp
    exact ⟨p, rfl, h.quiet.sound.tag_eq hl, hburied⟩

/-- An exchange against a value that the old key does not have and a store of the tombstone key fail
and leave no trace, and the removal of a pair leaves its value. -/
theorem Reachable.failure_unchanged_gapped :
    let after := fun call => gapped.handle ⟨4, by decide, by decide⟩ [] (.call call)
    (after (.exchange 11 9 6 5 false)).2 = gapped ∧ (after (.upsert 65535 9 true)).2 = gapped ∧
      ∃ p, gapped.cells.key p = 6 ∧ gapped.cells.tag p = Tag.ofKey (w := .w16) 6 ∧
        gapped.cells.Written p Tag.tombstone
          ⟨gapped.config.reserved.tombstone, gapped.cells.value p⟩
          (after (.erasePair 6 6)).2.cells := by
  intro after
  obtain ⟨hfailed, hremoved⟩ :=
    reachable_gapped.failure_unchanged ⟨4, by decide, by decide⟩
  obtain ⟨erased, -, hfound, hburied⟩ := hremoved 6 (some 6) (.erasePair 6 6) ⟨rfl, rfl⟩
  refine ⟨hfailed _ trivial (by decide +kernel), hfailed _ trivial (by decide +kernel), ?_⟩
  exact hburied (hfound.2 ⟨by decide +kernel, ⟨⟨1, by decide +kernel⟩, ⟨2, by decide +kernel⟩⟩,
    by decide +kernel⟩)

end Table

end TwoChoice
