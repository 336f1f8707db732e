import TwoChoice.Proofs.Reachable

/-!
# Clearing makes a table new

`Table.Descends` are the tables that anything at all leads to from the making of a table of some
capacity: calls with any keys and under any schedules, clearings, reseedings, and locks that were
never released. To clear such a table is to make it anew with the seed that it has, and to reseed it
is to make it anew with the new seed (`Descends.renewed`), word for word. So whatever is asked of it
later, under any schedules, it answers as the new table does (`Table.visits`).
-/

set_option autoImplicit false

namespace TwoChoice.Table

variable {k v : Width} {len : BucketLen} {capacity : Nat} {reserved : ReservedKeys k}
variable {counting : Bool}

/-- A table that was made for that capacity, whatever became of it since. -/
inductive Descends (len : BucketLen) (capacity : Nat) (reserved : ReservedKeys k)
    (counting : Bool) : Table k v → Prop
  | create {seed t records} (made : create len capacity seed reserved counting = .ok (t, records)) :
    Descends len capacity reserved counting t
  | handle {t} (before : Descends len capacity reserved counting t) (lanes : Lanes)
    (schedule : List (Intrusion k v)) (asked : Request k v) :
    Descends len capacity reserved counting (t.handle lanes schedule asked).2
  | leaveLocked {t} (before : Descends len capacity reserved counting t)
    (locks : Locks t.config.shape.count) :
    Descends len capacity reserved counting { t with cells := t.cells.setLocks locks }

/-- What is asked of a table, by a group of some width and under a schedule. -/
structure Visit (k v : Width) where
  lanes : Lanes
  schedule : List (Intrusion k v) := []
  asked : Request k v

/-- Asks one thing after the other. Each time there is a report, and the table as it is then. -/
def visits (t : Table k v) : List (Visit k v) → List (Report k v × Table k v)
  | [] => []
  | x :: rest =>
    let ended := t.handle x.lanes x.schedule x.asked
    ended :: ended.2.visits rest

/-- What stays the same, whatever is asked. -/
structure Stamped (len : BucketLen) (capacity : Nat) (reserved : ReservedKeys k) (counting : Bool)
    (t : Table k v) : Prop where
  fits : capacity + len.slots < UInt64.size
  shape : t.config.shape = .ofCapacity len capacity
  reserved : t.config.reserved = reserved
  counting : t.counting = counting

theorem Descends.stamped {t : Table k v} (h : Descends len capacity reserved counting t) :
    Stamped len capacity reserved counting t := by
  induction h with
  | create made =>
    rw [Table.create] at made
    split at made
    · rename_i hfits
      cases made
      exact ⟨hfits, rfl, rfl, rfl⟩
    · cases made
  | handle _ lanes schedule asked ih =>
    cases asked with
    | call | clear | reseed => exact ⟨ih.fits, ih.shape, ih.reserved, ih.counting⟩
  | leaveLocked _ locks ih => exact ⟨ih.fits, ih.shape, ih.reserved, ih.counting⟩

/-- A table of that stamp without entries and locks is a new one. -/
theorem Stamped.create {t : Table k v} (h : Stamped len capacity reserved counting t)
    (hcells : t.cells = Cells.fresh t.config.reserved) :
    Table.create len capacity t.config.seed reserved counting =
      .ok (t, [.allocated t.config.shape.count len.slots t.config.seed]) := by
  obtain ⟨⟨shape, seed, keys⟩, cells, counts⟩ := t
  obtain ⟨hfits, hshape, hkeys, hcounts⟩ := h
  simp only at hshape hkeys hcounts hcells ⊢
  subst hshape hkeys hcounts hcells
  rw [Table.create, if_pos hfits]

/-- **Clearing makes a table new**, with the seed that it has, and **reseeding** makes it new with
the new seed: its slots, tags and locks are those of a table that was just made, and whatever is
asked later, every answer, every probe count and every table on the way are those of that table. -/
theorem Descends.renewed {t : Table k v} (h : Descends len capacity reserved counting t) :
    (∃ new records,
      Table.create len capacity t.config.seed reserved counting = .ok (new, records) ∧
      t.clear.1 = new ∧ ∀ asked, t.clear.1.visits asked = new.visits asked) ∧
    ∀ seed, ∃ new records, Table.create len capacity seed reserved counting = .ok (new, records) ∧
      (t.reseed seed).1 = new ∧ ∀ asked, (t.reseed seed).1.visits asked = new.visits asked := by
  obtain ⟨hfits, hshape, hkeys, hcounts⟩ := h.stamped
  have hclear : Stamped len capacity reserved counting t.clear.1 := ⟨hfits, hshape, hkeys, hcounts⟩
  refine ⟨⟨t.clear.1, _, hclear.create (clear_cells t), rfl, fun _ => rfl⟩, fun seed => ?_⟩
  have hreseed : Stamped len capacity reserved counting (t.reseed seed).1 :=
    ⟨hfits, hshape, hkeys, hcounts⟩
  exact ⟨(t.reseed seed).1, _, hreseed.create (reseed_cells t seed), rfl, fun _ => rfl⟩

/-- A table in which a key was removed, another one stored, and a lock never released. -/
def worn : Table .w16 .w16 :=
  let removed := ((small.handle fourLanes [] (.call (.upsert 5 1 true))).2.handle fourLanes []
    (.call (.erase 5 true))).2
  let stored := (removed.handle fourLanes [] (.call (.upsert 6 2 true))).2
  { stored with cells := stored.cells.setLocks (stored.cells.locks.acquire 1) }

theorem Descends.renewed_worn :
    Descends ⟨1, by decide, by decide⟩ 8 .atTop false worn ∧ worn.locked = [1] ∧
      worn.size = 1 ∧ worn.tagWords ≠ small.tagWords ∧
      worn.clear.1 = small ∧
      ∀ asked, (worn.reseed 9).1.visits asked =
        { small with config := { small.config with seed := 9 } }.visits asked := by
  have made : Table.create ⟨1, by decide, by decide⟩ 8 7 .atTop false = .ok (small, _) := rfl
  have hworn : Descends ⟨1, by decide, by decide⟩ 8 .atTop false worn :=
    .leaveLocked (.handle (.handle (.handle (.create made) _ _ _) _ _ _) _ _ _) _
  obtain ⟨⟨new, _, hnew, hclear, -⟩, hreseed⟩ := hworn.renewed
  obtain ⟨new', _, hnew', -, hvisits⟩ := hreseed 9
  cases hnew
  cases hnew'
  exact ⟨hworn, by decide +kernel, by decide +kernel, by decide +kernel, hclear, hvisits⟩

end TwoChoice.Table
