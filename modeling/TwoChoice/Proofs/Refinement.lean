import TwoChoice.Proofs.Reachable

/-!
# Tables are maps

Asked one thing after the other, with nobody else there, a table answers as the map that it stands
for. `Answers c M asked c' M'` says what a map may answer: a call answers what it means, and a
clearing or a reseeding empties the map. `session_answers` holds from every quiet table, and so from
every new one.
-/

set_option autoImplicit false

namespace TwoChoice

variable {k v : Width} {c : Config k}

/-- What is asked has a sequential meaning, and its keys may name entries. -/
structure Call.Meant (reserved : ReservedKeys k) (call : Call k v) : Prop where
  kind : call.Single ∨ (∃ pairs, call = .upsertAll pairs) ∨ call = .size ∨ call = .entries
  keys : ∀ key ∈ call.keys, reserved.isReserved key = false

/-- As `Call.Meant`; a clearing or a reseeding always has a meaning. -/
def Request.Meant (reserved : ReservedKeys k) : Request k v → Prop
  | .call c => c.Meant reserved
  | .clear | .reseed _ => True

namespace Config

/-- What a map may answer to one request after the other, and what becomes of it. -/
inductive Answers : (c : Config k) → Contents k v c.shape.count → List (Request k v) →
    List (Except Halt (Option (Reply k v))) → (c' : Config k) → Contents k v c'.shape.count → Prop
  | nil {c M} : Answers c M [] [] c M
  | call {c M call reply M' rest outcomes c' N} (serves : c.Serves True call M reply M')
    (tail : Answers c M' rest outcomes c' N) :
    Answers c M (.call call :: rest) (.ok (some reply) :: outcomes) c' N
  | clear {c M rest outcomes c' N} (tail : Answers c (fun _ => none) rest outcomes c' N) :
    Answers c M (.clear :: rest) (.ok none :: outcomes) c' N
  | reseed {c M seed rest outcomes c' N}
    (tail : Answers { c with seed } (fun _ => none) rest outcomes c' N) :
    Answers c M (.reseed seed :: rest) (.ok none :: outcomes) c' N

/-! ## Calls alone -/

variable {l : Locks c.shape.count} {s : Cells k v c.shape} {g : Group} {r : Unit}

theorem upsertAll_alone {E : Halt → Unit → Cells k v c.shape → Prop} (hg : 0 < g.passes)
    (hfree : ∀ b, l.isLocked b = false) {pairs : List (Word k × Word v)}
    (hlive : ∀ x ∈ pairs, c.Live x.1) (hs : c.Calm ∅ l s) :
    (c.upsertAll g pairs).Ensures (World.alone _) E r s fun all _ s' =>
      c.Calm ∅ l s' ∧ c.StoresAll True (c.contents s) pairs all (c.contents s') := by
  have main : ∀ (pairs : List (Word k × Word v)) (before : Bool) (r : Unit) (s),
      (∀ x ∈ pairs, c.Live x.1) → c.Calm ∅ l s →
      (pairs.foldlM (fun (stored : Bool) (x : Word k × Word v) => do
        return (← c.upsert g x.1 x.2 true) && stored) before).Ensures (World.alone _) E r s
        fun after _ s' => c.Calm ∅ l s' ∧ ∃ all, after = (all && before) ∧
          c.StoresAll True (c.contents s) pairs all (c.contents s') := by
    intro pairs
    induction pairs with
    | nil => exact fun before r s _ hs => ⟨hs, true, rfl, .nil⟩
    | cons x pairs ih =>
      intro before r s hlive hs
      have hl := hlive x (List.mem_cons_self ..)
      rw [List.foldlM_cons, Prog.ensures_bind]
      refine Prog.ensures_bind.2 (Prog.ensures_bind.2 ((store_alone g hg hs.sound hl
        fun _ => hs.locks ▸ hfree _).mono ?_))
      intro stored _ s₁ hhead
      obtain ⟨hacts, hstores⟩ := hhead
      have hs₁ : c.Calm ∅ l s₁ := ⟨Deeds.sound hacts.deeds hs.sound, hacts.locks.trans hs.locks⟩
      refine (ih _ _ _ (fun y hy => hlive y (List.mem_cons_of_mem _ hy)) hs₁).mono ?_
      intro after _ s₂ htail
      obtain ⟨hs₂, all, hafter, hall⟩ := htail
      refine ⟨hs₂, (stored != .full) && all, ?_, .cons (hstores.mono fun _ => rfl) hall⟩
      rw [hafter, Bool.and_left_comm, Bool.and_assoc]
  refine (main pairs true r s hlive hs).mono ?_
  intro after _ s' hmain
  obtain ⟨hs', all, hafter, hall⟩ := hmain
  rw [hafter, Bool.and_true]
  exact ⟨hs', hall⟩

/-- **Alone, a call** answers what it means. -/
theorem meant_alone {E : Halt → Unit → Cells k v c.shape → Prop} {call : Call k v}
    (hcall : call.Meant c.reserved) (hg : 0 < g.passes) (hs : c.Quiet s) :
    (call.run c g).Ensures (World.alone _) E () s fun reply _ s' =>
      c.Quiet s' ∧ c.Serves True call (c.contents s) reply (c.contents s') := by
  rcases hcall.kind with hsingle | ⟨pairs, rfl⟩ | rfl | rfl
  · refine (Call.run_alone hsingle hg hs.sound hcall.keys fun b _ => hs.unlocked b).mono ?_
    intro reply _ s' halone
    obtain ⟨hacts, hserves⟩ := halone
    refine ⟨⟨Deeds.sound hacts.deeds hs.sound, fun b => ?_⟩, hserves.mono fun _ => rfl⟩
    rw [hacts.locks]
    exact hs.unlocked b
  · have hlive : ∀ x ∈ pairs, c.Live x.1 := fun x hx =>
      hcall.keys x.1 (List.mem_map_of_mem hx)
    refine Prog.ensures_map.2 ((upsertAll_alone hg hs.unlocked hlive ⟨hs.sound, rfl⟩).mono ?_)
    intro all _ s' halone
    obtain ⟨hs', hall⟩ := halone
    exact ⟨⟨hs'.sound, fun b => by rw [hs'.locks]; exact hs.unlocked b⟩, all, hall, rfl⟩
  · exact ⟨hs, _, entries_enumerates hs.sound, rfl, rfl⟩
  · exact ⟨hs, _, entries_enumerates hs.sound, rfl, rfl⟩

theorem contents_fresh (c : Config k) :
    c.contents (Cells.fresh c.reserved : Cells k v c.shape) = fun _ => none := by
  funext key
  by_cases hl : c.Live key
  · refine contents_absent fun p hp => hl.ne_empty ?_
    rw [← hp, Cells.key_fresh]
  · exact contents_not_live (quiet_fresh c).sound hl

end Config

namespace Table

open Config

/-- Asks one thing after the other, each of a group of its own and with nobody else there. -/
def session (t : Table k v) : List (Lanes × Request k v) → List (Report k v) × Table k v
  | [] => ([], t)
  | asked :: rest =>
    let first := t.handle asked.1 [] asked.2
    let later := first.2.session rest
    (first.1 :: later.1, later.2)

/-- What a call ensures alone holds of its report when nobody interrupts it. -/
theorem handle_alone {t : Table k v} (lanes : Lanes) {call : Call k v}
    {Q : Reply k v → Cells k v t.config.shape → Prop}
    (h : (call.run t.config { lanes with passes := 1 }).Ensures (World.alone _)
      (fun _ _ _ => False) () t.cells fun reply _ => Q reply) :
    ∃ reply, (t.handle lanes [] (.call call)).1.outcome = .ok (some reply) ∧
      Q reply (t.handle lanes [] (.call call)).2.cells := by
  obtain ⟨houtcome, hcells⟩ := Prog.exec_solo (V := Scene.env t.config lanes [])
    (fun _ _ => rfl) (call.run t.config { lanes with passes := 1 }) {} t.cells
  have hsolo := h.solo
  split at hsolo
  · rename_i reply s' heq
    rw [heq] at houtcome hcells
    have hafter : (t.handle lanes [] (.call call)).2.cells = s' := hcells
    refine ⟨reply, ?_, hafter ▸ hsolo⟩
    show (Scene.run t.config lanes call [] t.cells).1.map some = _
    exact congrArg (Except.map some) houtcome
  · exact hsolo.elim

/-- **A quiet table answers as the map that it stands for.** -/
theorem session_answers (asked : List (Lanes × Request k v)) {t : Table k v}
    (ht : t.config.Quiet t.cells) (hmeant : ∀ x ∈ asked, x.2.Meant t.config.reserved) :
    Answers t.config (t.config.contents t.cells) (asked.map Prod.snd)
      ((t.session asked).1.map Report.outcome) (t.session asked).2.config
      ((t.session asked).2.config.contents (t.session asked).2.cells) := by
  induction asked generalizing t with
  | nil => exact .nil
  | cons x rest ih =>
    obtain ⟨lanes, request⟩ := x
    have hrest := fun y hy => hmeant y (List.mem_cons_of_mem _ hy)
    cases request with
    | call call =>
      obtain ⟨reply, houtcome, hquiet, hserves⟩ := handle_alone lanes
        (meant_alone (c := t.config) (hmeant _ (List.mem_cons_self ..)) Nat.zero_lt_one ht)
      have htail := ih (t := (t.handle lanes [] (.call call)).2) hquiet hrest
      rw [session, List.map_cons, List.map_cons, houtcome]
      exact .call hserves htail
    | clear =>
      have hcells := clear_cells t
      have hnone : t.clear.1.config.contents t.clear.1.cells = fun _ => none :=
        hcells ▸ contents_fresh t.config
      have htail := ih (t := t.clear.1) (hcells ▸ quiet_fresh t.config) hrest
      rw [hnone] at htail
      exact .clear htail
    | reseed seed =>
      have hcells := reseed_cells t seed
      have hnone : (t.reseed seed).1.config.contents (t.reseed seed).1.cells = fun _ => none :=
        hcells ▸ contents_fresh (t.reseed seed).1.config
      have htail := ih (t := (t.reseed seed).1)
        (hcells ▸ quiet_fresh (t.reseed seed).1.config) hrest
      rw [hnone] at htail
      exact .reseed htail

/-- **Every session with a new table** is answered as the empty map answers it. -/
theorem create_answers (len : BucketLen) {capacity : Nat}
    (hcapacity : capacity + len.slots < 2 ^ 64) (seed : UInt64) (reserved : ReservedKeys k)
    (counting : Bool) {asked : List (Lanes × Request k v)}
    (hmeant : ∀ x ∈ asked, x.2.Meant reserved) :
    ∃ t records, create len capacity seed reserved counting = .ok (t, records) ∧
      Answers ⟨.ofCapacity len capacity, seed, reserved⟩ (fun _ => none) (asked.map Prod.snd)
        ((t.session asked).1.map Report.outcome) (t.session asked).2.config
        ((t.session asked).2.config.contents (t.session asked).2.cells) := by
  let t : Table k v :=
    ⟨⟨.ofCapacity len capacity, seed, reserved⟩, Cells.fresh reserved, counting⟩
  have hanswers := session_answers asked (t := t) (quiet_fresh t.config) hmeant
  have hnone : t.config.contents t.cells = fun _ => none := contents_fresh t.config
  rw [hnone] at hanswers
  exact ⟨t, _, if_pos hcapacity, hanswers⟩

/-- A pair is stored and found, and then the table is cleared. -/
theorem create_answers_cleared :
    ∃ (t : Table .w16 .w16) (records : List LogRecord),
      create ⟨1, by decide, by decide⟩ 8 7 .atTop false = .ok (t, records) ∧
      ∃ c' N, Answers ⟨.ofCapacity ⟨1, by decide, by decide⟩ 8, 7, .atTop⟩ (fun _ => none)
        [.call (.upsert 5 1 true), .call (.find 5), .clear]
        ((t.session [(⟨4, by decide, by decide⟩, .call (.upsert 5 1 true)),
          (⟨1, by decide, by decide⟩, .call (.find 5)),
          (⟨1, by decide, by decide⟩, .clear)]).1.map Report.outcome) c' N := by
  have hlive : (ReservedKeys.atTop : ReservedKeys .w16).isReserved 5 = false := by decide +kernel
  have hkeys : ∀ key ∈ [(5 : Word .w16)], ReservedKeys.atTop.isReserved key = false :=
    fun key hk => List.mem_singleton.1 hk ▸ hlive
  have hmeant : ∀ x ∈ [((⟨4, by decide, by decide⟩, .call (.upsert 5 1 true)) :
      Lanes × Request .w16 .w16), (⟨1, by decide, by decide⟩, .call (.find 5)),
      (⟨1, by decide, by decide⟩, .clear)], x.2.Meant ReservedKeys.atTop := by
    intro x hx
    simp only [List.mem_cons, List.not_mem_nil, or_false] at hx
    rcases hx with rfl | rfl | rfl
    · exact ⟨.inl trivial, hkeys⟩
    · exact ⟨.inl trivial, hkeys⟩
    · trivial
  have hcapacity : 8 + BucketLen.slots ⟨1, by decide, by decide⟩ < 2 ^ 64 := by decide
  obtain ⟨t, records, hmade, hanswers⟩ := create_answers _ hcapacity 7 .atTop false hmeant
  exact ⟨t, records, hmade, _, _, hanswers⟩

end Table

end TwoChoice
