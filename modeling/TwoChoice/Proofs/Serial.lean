import TwoChoice.Call
import TwoChoice.Proofs.Contents
import TwoChoice.Proofs.Exchange

/-!
# The sequential meaning of calls

`c.Serves strict call M reply M'`: asked on a table that stands for the map `M`, a call may answer
`reply` and leave a table that stands for `M'`. A store gives an absent key one of its candidate
buckets that is not full. It may fail only if both of them are full, unless others are in between:
without `strict` it may also fail for no reason that the map knows of.

The step lemmas (`Kept.stores`, `Entered.stores`, `erases_vacate`, `exchanges_moved` and their
counterparts for calls without effect) say that what the operations do to a table is what they mean.
-/

set_option autoImplicit false

namespace TwoChoice

open Function (update)

variable {k v : Width} (c : Config k)

namespace Config

/-- What a store does to a map. -/
inductive Stores (strict : Prop) (M : Contents k v c.shape.count) (key : Word k) (value : Word v)
    (replace : Bool) : Stored → Contents k v c.shape.count → Prop
  | present {old b} (entry : M key = some (old, b)) :
    Stores strict M key value replace .present
      (if replace then update M key (some (value, b)) else M)
  | inserted {b} (absent : M key = none) (bucket : c.MayLie key b)
    (room : M.load b < c.shape.len.slots) :
    Stores strict M key value replace .inserted (update M key (some (value, b)))
  | full (absent : M key = none)
    (crowded : strict → ∀ b, c.MayLie key b → M.load b = c.shape.len.slots) :
    Stores strict M key value replace .full M

/-- What a removal does to a map. -/
inductive Erases (M : Contents k v c.shape.count) (key : Word k) (wanted : Option (Word v)) :
    Bool → Contents k v c.shape.count → Prop
  | erased {value b} (entry : M key = some (value, b)) (accepted : accepts wanted value = true) :
    Erases M key wanted true (update M key none)
  | kept (missing : ∀ value b, M key = some (value, b) → accepts wanted value = false) :
    Erases M key wanted false M

/-- What an exchange does to a map. -/
inductive Exchanges (M : Contents k v c.shape.count) (key : Word k) (value : Word v)
    (oldKey : Word k) (oldValue : Word v) (upsert : Bool) : Bool → Contents k v c.shape.count → Prop
  | present {old b} (entry : M key = some (old, b)) :
    Exchanges M key value oldKey oldValue upsert upsert
      (if upsert then update M key (some (value, b)) else M)
  | moved {b} (absent : M key = none) (entry : M oldKey = some (oldValue, b))
    (bucket : c.MayLie key b) :
    Exchanges M key value oldKey oldValue upsert true
      (update (update M oldKey none) key (some (value, b)))
  | refused (absent : M key = none) (gone : ∀ b, c.MayLie key b → M oldKey ≠ some (oldValue, b)) :
    Exchanges M key value oldKey oldValue upsert false M

/-- What storing all pairs does to a map, and whether all were stored. -/
inductive StoresAll (strict : Prop) : Contents k v c.shape.count → List (Word k × Word v) → Bool →
    Contents k v c.shape.count → Prop
  | nil {M} : StoresAll strict M [] true M
  | cons {M M' M'' key value pairs stored all} (head : c.Stores strict M key value true stored M')
    (tail : StoresAll strict M' pairs all M'') :
    StoresAll strict M ((key, value) :: pairs) (stored != .full && all) M''

/-- The answer of an insertion. -/
def insertion : Stored → Except TableError Unit
  | .inserted => .ok ()
  | .present => .error .occupied
  | .full => .error .tableFull

/-- **The sequential meaning of a call.** -/
def Serves (strict : Prop) (call : Call k v) (M : Contents k v c.shape.count) (reply : Reply k v)
    (M' : Contents k v c.shape.count) : Prop :=
  match call with
  | .upsert key value _ =>
    ∃ stored, c.Stores strict M key value true stored M' ∧ reply = .flag (stored != .full)
  | .insertNew key value =>
    ∃ stored, c.Stores strict M key value false stored M' ∧ reply = .insertion (insertion stored)
  | .find key => reply = .value ((M key).map Prod.fst) ∧ M' = M
  | .contains key => reply = .flag (M key).isSome ∧ M' = M
  | .erase key _ => ∃ erased, c.Erases M key none erased M' ∧ reply = .flag erased
  | .erasePair key value => ∃ erased, c.Erases M key (some value) erased M' ∧ reply = .flag erased
  | .exchange key value oldKey oldValue upsert =>
    ∃ done, c.Exchanges M key value oldKey oldValue upsert done M' ∧ reply = .flag done
  | .upsertAll pairs => ∃ all, c.StoresAll strict M pairs all M' ∧ reply = .flag all
  | .size => ∃ pairs, M.Enumerates pairs ∧ reply = .number pairs.length ∧ M' = M
  | .entries => ∃ pairs, M.Enumerates pairs ∧ reply = .entries pairs ∧ M' = M
  | _ => False

/-! ## More and less strict -/

section
variable {c}
variable {strict strict' : Prop} {key : Word k} {value : Word v} {replace all : Bool}
variable {stored : Stored} {M M' : Contents k v c.shape.count}

theorem Stores.mono (h : c.Stores strict M key value replace stored M') (hm : strict' → strict) :
    c.Stores strict' M key value replace stored M' := by
  cases h with
  | present entry => exact .present entry
  | inserted absent bucket room => exact .inserted absent bucket room
  | full absent crowded => exact .full absent fun h => crowded (hm h)

theorem StoresAll.mono {pairs : List (Word k × Word v)} (h : c.StoresAll strict M pairs all M')
    (hm : strict' → strict) : c.StoresAll strict' M pairs all M' := by
  induction h with
  | nil => exact .nil
  | cons head _ ih => exact .cons (head.mono hm) ih

theorem Serves.mono {call : Call k v} {reply : Reply k v} (h : c.Serves strict call M reply M')
    (hm : strict' → strict) : c.Serves strict' call M reply M' := by
  cases call with
  | upsert | insertNew | upsertAll =>
    obtain ⟨x, hx, hreply⟩ := h
    exact ⟨x, hx.mono hm, hreply⟩
  | _ => exact h

end

/-! ## Steps -/

section
variable {c}
variable {γ : Type} {C : Company c v γ} {T : Set (Place c.shape)} {l : Locks c.shape.count}
variable {key oldKey : Word k} {value oldValue : Word v} {replace update : Bool} {strict : Prop}
variable {r r₀ : γ} {s s' s₀ : Cells k v c.shape} {p : Place c.shape}

theorem Kept.stores (hs : c.Sound T s) (hl : c.Live key) (h : Kept key value replace s s') :
    c.Stores strict (c.contents s) key value replace .present (c.contents s') := by
  obtain ⟨p, rfl, rfl⟩ := h
  cases replace with
  | false => exact .present (contents_key hs hl)
  | true =>
    rw [if_pos rfl, contents_overwrite hs hl]
    exact .present (contents_key hs hl)

theorem Entered.stores (hs : c.Sound T s) (hl : c.Live key) (h : Entered key value s s') :
    c.Stores strict (c.contents s) key value replace .inserted (c.contents s') := by
  obtain ⟨p, habs, hf, hb, rfl⟩ := h
  rw [contents_fill hs (hs.not_live_of_free hf) hl hb habs]
  exact .inserted ((contents_eq_none hs hl).2 habs) hb (load_lt hs hf)

theorem erases_vacate (hs : c.Sound T s) (hl : c.Live key) {wanted : Option (Word v)}
    (hk : s.key p = key) (hacc : accepts wanted (s.value p) = true) :
    c.Erases (c.contents s) key wanted true (c.contents (s.vacate p c.reserved.tombstone)) := by
  subst hk
  rw [contents_vacate hs hl (.inl rfl)]
  exact .erased (contents_key hs hl) hacc

theorem erases_none (hs : c.Sound T s) {wanted : Option (Word v)}
    (h : ∀ p, s.key p = key → accepts wanted (s.value p) = false) :
    c.Erases (c.contents s) key wanted false (c.contents s) := by
  refine .kept fun x b hsome => ?_
  obtain ⟨-, i, hi⟩ := (contents_eq_some hs).1 hsome
  have hv : s.value ⟨b, i⟩ = x := congrArg Slot.value hi
  rw [← hv]
  exact h ⟨b, i⟩ (congrArg Slot.key hi)

theorem exchanges_moved (hs : c.Sound T s) (hl : c.Live key) (hl' : c.Live oldKey)
    (habs : s.Absent key) (hk : s.key p = oldKey) (hv : s.value p = oldValue)
    (hb : c.MayLie key p.bucket) :
    c.Exchanges (c.contents s) key value oldKey oldValue update true
      (c.contents ((s.vacate p c.reserved.holding).fill p key value)) := by
  subst hk
  subst hv
  have hs' := hs.vacate hl' (.inr rfl)
  have habs' : (s.vacate p c.reserved.holding).Absent key := by
    intro q
    rw [Cells.key_vacate]
    split
    · exact hl.ne_holding.symm
    · exact habs q
  have hheld : ¬ c.Live ((s.vacate p c.reserved.holding).key p) := by
    rw [Cells.key_vacate, if_pos rfl]
    exact not_live_holding
  rw [contents_fill hs' hheld hl hb habs', contents_vacate hs hl' (.inr rfl)]
  exact .moved ((contents_eq_none hs hl).2 habs) (contents_key hs hl') hb

theorem exchanges_refused (hs : c.Sound T s) (hl : c.Live key) (habs : s.Absent key)
    (h : ∀ p, s.key p = oldKey → c.MayLie key p.bucket → s.value p ≠ oldValue) :
    c.Exchanges (c.contents s) key value oldKey oldValue update false (c.contents s) := by
  refine .refused ((contents_eq_none hs hl).2 habs) fun b hb hsome => ?_
  obtain ⟨-, i, hi⟩ := (contents_eq_some hs).1 hsome
  exact h ⟨b, i⟩ (congrArg Slot.key hi) hb (congrArg Slot.value hi)

end

end Config

end TwoChoice
