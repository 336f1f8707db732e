/-!
# Lenses

A lens points at a part of a larger state: it reads the part and puts another in its place. The
three laws make the part behave like a variable of its own.
-/

set_option autoImplicit false

namespace TwoChoice

/-- A part of type `τ` inside a state of type `σ`. -/
structure Lens (σ τ : Type) where
  get : σ → τ
  set : τ → σ → σ
  get_set : ∀ t s, get (set t s) = t
  set_get : ∀ s, set (get s) s = s
  set_set : ∀ t t' s, set t' (set t s) = set t' s

namespace Lens

variable {σ τ υ : Type}

/-- Applies `f` to the part. -/
def modify (l : Lens σ τ) (f : τ → τ) (s : σ) : σ := l.set (f (l.get s)) s

/-- A part of a part. -/
def comp (l : Lens σ τ) (m : Lens τ υ) : Lens σ υ where
  get s := m.get (l.get s)
  set u s := l.set (m.set u (l.get s)) s
  get_set u s := by simp [l.get_set, m.get_set]
  set_get s := by simp [m.set_get, l.set_get]
  set_set u u' s := by simp [l.get_set, l.set_set, m.set_set]

/-- The element of a vector at a fixed index. -/
def index {n : Nat} (i : Fin n) : Lens (Vector τ n) τ where
  get v := v[i]
  set x v := v.set i x
  get_set x v := by simp
  set_get v := by simp
  set_set x y v := by simp

end Lens

end TwoChoice
