import TwoChoice.Proofs.Detached
import TwoChoice.Proofs.Renewal
import TwoChoice.Proofs.Spots
import TwoChoice.Proofs.Twins

/-!
# Placement never depends on values

Two requests are twins if they are the same but for the value that is stored. Tables with the same
keys, tags and locks answer twins with twins and are such tables afterwards (`Table.handle_twin`), so
this holds step by step of whatever is asked (`Table.visits_twin`). As a store finds its key where
another store has put it, the value that was stored before leaves no trace
(`Table.upsert_upsert`).
-/

set_option autoImplicit false

namespace TwoChoice

variable {k v : Width}

/-! ## Twins -/

/-- The calls are the same but for the value that is stored. No value is compared in them. -/
inductive Call.Twin : Call k v → Call k v → Prop
  | upsert (key : Word k) (value value' : Word v) (locked : Bool) :
    Twin (.upsert key value locked) (.upsert key value' locked)
  | insertNew (key : Word k) (value value' : Word v) :
    Twin (.insertNew key value) (.insertNew key value')
  | find (key : Word k) : Twin (.find key) (.find key)
  | contains (key : Word k) : Twin (.contains key) (.contains key)
  | erase (key : Word k) (locked : Bool) : Twin (.erase key locked) (.erase key locked)
  | pick (key : Word k) (salt : UInt64) : Twin (.pick key salt) (.pick key salt)
  | pickSmaller (key : Word k) : Twin (.pickSmaller key) (.pickSmaller key)

/-- The same but for the value that is stored. -/
inductive Request.Twin : Request k v → Request k v → Prop
  | call {x x' : Call k v} (h : x.Twin x') : Twin (.call x) (.call x')
  | clear : Twin .clear .clear
  | reseed (seed : UInt64) : Twin (.reseed seed) (.reseed seed)

/-- The answers are the same but for the values in them. -/
inductive Reply.Twin : Reply k v → Reply k v → Prop
  | flag (b : Bool) : Twin (.flag b) (.flag b)
  | insertion (result : Except TableError Unit) : Twin (.insertion result) (.insertion result)
  | value {x x' : Option (Word v)} (h : Option.Rel (fun _ _ => True) x x') :
    Twin (.value x) (.value x')
  | pick {e e' : Option (Word k × Word v)} (h : Option.Rel (fun e e' => e'.1 = e.1) e e') :
    Twin (.pick e) (.pick e')

/-- The outcomes are the same but for the values in the answer, and all else that is told is the
same. -/
structure Report.Twin (r r' : Report k v) : Prop where
  outcome : Agree (Option.Rel Reply.Twin) r.outcome r'.outcome
  probes : r'.probes = r.probes
  records : r'.records = r.records
  trace : r'.trace = r.trace
  intruded : r'.intruded = r.intruded

/-- The tables are the same but for the values in their slots: they have the same keys, tags and
locks. -/
def Table.Twin (t t' : Table k v) : Prop :=
  ∃ s : Cells k v t.config.shape, t' = { t with cells := s } ∧ t.cells.Twins s

/-- Twins are asked by groups of the same width, with nobody else there. -/
structure Table.Visit.Twin (x x' : Table.Visit k v) : Prop where
  lanes : x'.lanes = x.lanes
  alone : x.schedule = []
  alone' : x'.schedule = []
  asked : x.asked.Twin x'.asked

theorem Agree.map {ε α β : Type} {Q : α → α → Prop} {Q' : β → β → Prop} {f : α → β}
    {a b : Except ε α} (h : Agree Q a b) (hf : ∀ x y, Q x y → Q' (f x) (f y)) :
    Agree Q' (a.map f) (b.map f) := by
  cases h with
  | ok h => exact .ok (hf _ _ h)
  | error e => exact .error e

open Prog

/-- **Calls that are twins have programs that are twins.** -/
theorem Call.Twin.run {c : Config k} {x x' : Call k v} (h : x.Twin x') (g : Group) :
    Prog.Twin Cells.Twins Reply.Twin (x.run c g) (x'.run c g) := by
  cases h with
  | upsert key value value' locked =>
    exact (Config.twin_upsert g key value value' locked).map fun _ _ h => h ▸ .flag _
  | insertNew key value value' =>
    exact (Config.twin_insertNew g key value value').map fun _ _ h => h ▸ .insertion _
  | find key => exact (Config.twin_find? g key).map fun _ _ h => .value h
  | contains key => exact (Config.twin_contains g key).map fun _ _ h => h ▸ .flag _
  | erase key locked => exact (Config.twin_erase g key locked).map fun _ _ h => h ▸ .flag _
  | pick key salt => exact (Config.twin_pick g key salt).map fun _ _ h => .pick h
  | pickSmaller key => exact (Config.twin_pickSmaller g key).map fun _ _ h => .pick h

/-! ## Tables -/

namespace Table

open Config

variable {t t' : Table k v}

theorem Twin.refl (t : Table k v) : t.Twin t := ⟨t.cells, rfl, .refl _⟩

/-- **One step.** Twins are answered with twins and leave twins. -/
theorem handle_twin {x x' : Request k v} (ht : t.Twin t') (hx : x.Twin x') (lanes : Lanes) :
    (t.handle lanes [] x).1.Twin (t'.handle lanes [] x').1 ∧
      (t.handle lanes [] x).2.Twin (t'.handle lanes [] x').2 := by
  obtain ⟨s, rfl, hs⟩ := ht
  cases hx with
  | call hcall =>
    obtain ⟨houtcome, hscene, hcells⟩ := (hcall.run (c := t.config) { lanes with passes := 1 }).exec
      (V := Scene.env t.config lanes []) (fun _ _ _ h => ⟨rfl, h⟩) (r := {}) hs
    refine ⟨⟨houtcome.map fun _ _ h => .some h, ?_, ?_, ?_, ?_⟩, _, rfl, hcells⟩
    · exact congrArg (fun sc : Scene k v => if t.counting then sc.tally.probes.probes else 0) hscene
    · exact congrArg (fun sc : Scene k v => sc.tally.records.toList) hscene
    · exact congrArg (fun sc : Scene k v => sc.trace.toList) hscene
    · exact congrArg (fun sc : Scene k v => sc.intruded.toList) hscene
  | clear =>
    refine ⟨⟨.ok .none, rfl, rfl, rfl, rfl⟩, _, rfl, ?_⟩
    show (t.cells.clear t.config.reserved).Twins (s.clear t.config.reserved)
    rw [Cells.clear_eq_fresh, Cells.clear_eq_fresh]
    exact .refl _
  | reseed seed =>
    refine ⟨⟨.ok .none, rfl, rfl, rfl, rfl⟩, _, rfl, ?_⟩
    show (t.cells.clear t.config.reserved).Twins (s.clear t.config.reserved)
    rw [Cells.clear_eq_fresh, Cells.clear_eq_fresh]
    exact .refl _

/-- **A whole run.** After every step the reports and the tables are twins. -/
theorem visits_twin {asked asked' : List (Visit k v)} (h : List.Forall₂ Visit.Twin asked asked') :
    ∀ {t t' : Table k v}, t.Twin t' →
      List.Forall₂ (fun x x' => x.1.Twin x'.1 ∧ x.2.Twin x'.2) (t.visits asked)
        (t'.visits asked') := by
  induction h with
  | nil => exact fun _ => .nil
  | @cons x x' _ _ hx _ ih =>
    intro t t' ht
    have hstep : (t.handle x.lanes x.schedule x.asked).1.Twin
          (t'.handle x'.lanes x'.schedule x'.asked).1 ∧
        (t.handle x.lanes x.schedule x.asked).2.Twin
          (t'.handle x'.lanes x'.schedule x'.asked).2 := by
      rw [hx.lanes, hx.alone, hx.alone']
      exact handle_twin ht hx.asked x.lanes
    exact .cons hstep (ih hstep.2)

/-- What is asked one after the other leads to each of the tables on the way. -/
theorem LeadsTo.visits {t₀ : Table k v} (asked : List (Visit k v)) :
    ∀ {t : Table k v}, t₀.LeadsTo t → ∀ x ∈ t.visits asked, t₀.LeadsTo x.2 := by
  induction asked with
  | nil => exact fun _ x hx => absurd hx List.not_mem_nil
  | cons a rest ih =>
    intro t ht x hx
    rcases List.mem_cons.1 hx with rfl | hx
    · exact .handle ht a.lanes a.schedule a.asked
    · exact ih (.handle ht a.lanes a.schedule a.asked) x hx

end Table

/-! ## Two stores of one key -/

namespace Config

variable {c : Config k} {s s₁ s₂ : Cells k v c.shape} {key : Word k} {value value' : Word v}
variable {stored stored' : Stored}

/-- A store that was made before, in the same place, leaves no trace. -/
theorem Landed.eq_of_landed (h₁ : c.Landed s key value true stored s₁)
    (h₂ : c.Landed s key value' true stored' s₂) (htwins : s₁.Twins s₂) {s₃ : Cells k v c.shape}
    {stored₃ : Stored} (h₃ : c.Landed s₁ key value' true stored₃ s₃) (hfull : stored ≠ .full) :
    s₃ = s₂ := by
  -- the third store finds the key in the slot in which the first one has put it
  have hagain : ∀ {p}, c.spot? s₁ key = some p → s₃ = s₁.putSlot p ⟨key, value'⟩ := by
    intro p hp
    cases h₃ with
    | present found =>
      rw [hp] at found
      cases found
      rfl
    | inserted missing | full missing => simp [hp] at missing
  cases h₁ with
  | @present p found =>
    rw [if_pos rfl] at hagain
    rw [hagain (spot?_putSlot found value), Cells.putSlot_putSlot]
    cases h₂ with
    | present found' =>
      rw [found] at found'
      cases found'
      rfl
    | inserted missing | full missing => simp [found] at missing
  | @inserted p missing bucket =>
    rw [hagain (spot?_fill missing bucket value), Cells.fill, Cells.putSlot_putSlot]
    have hhit : Hit s₂ key p := ⟨by rw [htwins.tag]; simp, by rw [htwins.key]; simp⟩
    cases h₂ with
    | present found => simp [found] at missing
    | @inserted q missing' bucket' =>
      by_cases hqp : q = p
      · rw [hqp, Cells.fill]
      · rw [Hit, Cells.tag_fill, Cells.key_fill, if_neg hqp, if_neg hqp] at hhit
        exact absurd hhit (spot?_eq_none.1 missing p bucket)
    | full => exact absurd hhit (spot?_eq_none.1 missing p bucket)
  | full => exact absurd rfl hfull

/-- With nobody else there, a value that was stored before leaves no trace. -/
theorem solo_upsert_upsert {g : Group} (hg : 0 < g.passes) (locked : Bool)
    (hfree : ∀ b, s.locks.isLocked b = false) :
    ((c.upsert g key value' locked).solo ((c.upsert g key value locked).solo s).2).2 =
      ((c.upsert g key value' locked).solo s).2 := by
  by_cases hl : c.Live key
  · have hupsert : ∀ (value : Word v) {s : Cells k v c.shape},
        (∀ b, s.locks.isLocked b = false) → ∃ stored : Stored,
          c.Landed s key value true stored ((c.upsert g key value locked).solo s).2 ∧
            ((c.upsert g key value locked).solo s).2.locks = s.locks := by
      intro value s hfree
      obtain ⟨stored, s', hsolo, hlanded⟩ :=
        (store_landed (u := ()) g hg hl value true locked hfree).solo_ok
      have hsolo' : (c.upsert g key value locked).solo s = (.ok (stored != .full), s') :=
        solo_bind_ok hsolo
      rw [hsolo']
      exact ⟨stored, hlanded, (hlanded.unlock (s := s) (l := s.locks)).1⟩
    obtain ⟨stored₁, h₁, hlocks⟩ := hupsert value hfree
    obtain ⟨stored₂, h₂, -⟩ := hupsert value' hfree
    obtain ⟨stored₃, h₃, -⟩ := hupsert value' fun b => by rw [hlocks, hfree b]
    by_cases hfull : stored₁ = .full
    · subst hfull
      generalize ((c.upsert g key value locked).solo s).2 = s₁ at h₁
      cases h₁
      rfl
    · exact h₁.eq_of_landed h₂ ((twin_upsert g key value value' locked).solo (.refl s)).2 h₃ hfull
  · have hreserved := Bool.of_not_eq_false hl
    simp only [upsert_reserved hreserved]

end Config

namespace Table

/-- **The value that was stored before leaves no trace**, in a table without locks. -/
theorem upsert_upsert {t : Table k v} (hfree : ∀ b, t.cells.locks.isLocked b = false)
    (lanes : Lanes) (key : Word k) (value value' : Word v) (locked : Bool) :
    let upsert := fun (t : Table k v) value =>
      (t.handle lanes [] (.call (.upsert key value locked))).2
    upsert (upsert t value) value' = upsert t value' := by
  intro upsert
  have hupsert : ∀ (t : Table k v) value, upsert t value =
      { t with cells := ((t.config.upsert { lanes with passes := 1 } key value locked).solo
        t.cells).2 } := fun t value => by
    rw [show upsert t value = _ from (handle_solo t lanes (.upsert key value locked)).2, Call.run,
      Prog.solo_map]
  rw [hupsert, hupsert, hupsert]
  exact congrArg (fun s => ({ t with cells := s } : Table k v))
    (Config.solo_upsert_upsert Nat.one_pos locked hfree)

/-- **Placement never depends on values.** A new table is asked for stores, removals, look-ups and
picks, clearings and reseedings, one after the other and with nobody else there, and so is another
one like it with the same keys and salts, but with any other values to store. Step by step all
answers are the same but for the values in them, all probe counts, records and traces are the same,
and the tables have the same keys, tags and locks. After each step, to give a key one value and then
another is to give it the other at once. -/
theorem placement_ignores_values {len : BucketLen} {capacity : Nat} {seed : UInt64}
    {reserved : ReservedKeys k} {counting : Bool} {t₀ : Table k v} {records : List LogRecord}
    (made : Table.create len capacity seed reserved counting = .ok (t₀, records))
    {asked asked' : List (Visit k v)} (same : List.Forall₂ Visit.Twin asked asked') :
    List.Forall₂ (fun x x' => x.1.Twin x'.1 ∧ x.2.Twin x'.2) (t₀.visits asked)
      (t₀.visits asked') ∧
    ∀ t ∈ t₀ :: (t₀.visits asked).map Prod.snd, ∀ lanes key value value' locked,
      let upsert := fun (t : Table k v) value =>
        (t.handle lanes [] (.call (.upsert key value locked))).2
      upsert (upsert t value) value' = upsert t value' := by
  refine ⟨visits_twin same (.refl t₀), fun t ht => ?_⟩
  have hleads : t₀.LeadsTo t := by
    rcases List.mem_cons.1 ht with rfl | ht
    · exact .refl
    · obtain ⟨x, hx, rfl⟩ := List.mem_map.1 ht
      exact LeadsTo.refl.visits asked x hx
  exact upsert_upsert fun b => (hleads.clean (quiet_create made).clean).unlocked b

/-- Two runs that store one and two, and then two stores in the new table. -/
theorem placement_ignores_values_small :
    let asked := fun value : Word .w16 =>
      ([⟨fourLanes, [], .call (.upsert 5 value true)⟩, ⟨fourLanes, [], .call (.pick 5 3)⟩,
        ⟨fourLanes, [], .call (.erase 5 false)⟩, ⟨fourLanes, [], .reseed 9⟩] :
        List (Visit .w16 .w16))
    let upsert := fun (t : Table .w16 .w16) value =>
      (t.handle fourLanes [] (.call (.upsert 5 value true))).2
    List.Forall₂ (fun x x' => x.1.Twin x'.1 ∧ x.2.Twin x'.2) (small.visits (asked 1))
      (small.visits (asked 2)) ∧ upsert (upsert small 1) 2 = upsert small 2 := by
  intro asked upsert
  have made : Table.create ⟨1, by decide, by decide⟩ 8 7 .atTop false = .ok (small, _) := rfl
  have same : List.Forall₂ Visit.Twin (asked 1) (asked 2) :=
    .cons ⟨rfl, rfl, rfl, .call (.upsert 5 1 2 true)⟩
      (.cons ⟨rfl, rfl, rfl, .call (.pick 5 3)⟩
        (.cons ⟨rfl, rfl, rfl, .call (.erase 5 false)⟩
          (.cons ⟨rfl, rfl, rfl, .reseed 9⟩ .nil)))
  obtain ⟨hruns, hstores⟩ := placement_ignores_values made same
  exact ⟨hruns, hstores small (List.mem_cons_self ..) fourLanes 5 1 2 true⟩

end Table

end TwoChoice
