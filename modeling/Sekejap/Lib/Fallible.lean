import Mathlib.Tactic

/-!
# Fallible functions

A function that may refuse returns `Except`.  These are the rules by which a proof takes such a
function apart: **`bind_eq_ok`** says what a sequence that returned has gone through, and
**`refuse_eq_ok`** what a check that let it pass has found.
-/

namespace Fallible

universe u v

variable {ε : Type u} {α β : Type v} {x : Except ε α} {f : α → Except ε β} {a a' : α} {b : β} {e : ε}

/-- Refuse with `e` when `c` holds. -/
def refuse (c : Prop) [Decidable c] (e : ε) : Except ε Unit := if c then .error e else .ok ()

/-- The value that has to be there, or the error. -/
def orElse (o : Option α) (e : ε) : Except ε α :=
  match o with
  | some a => .ok a
  | none => .error e

@[simp] lemma bind_eq_ok : x >>= f = .ok b ↔ ∃ a, x = .ok a ∧ f a = .ok b := by
  cases x with
  | error e => simp [bind, Except.bind]
  | ok a => simp [bind, Except.bind]

@[simp] lemma pure_eq_ok : (pure a : Except ε α) = .ok a' ↔ a = a' := by
  simp [pure, Except.pure]

@[simp] lemma refuse_eq_ok {c : Prop} [Decidable c] {u : Unit} : refuse c e = .ok u ↔ ¬ c := by
  unfold refuse
  split_ifs with h <;> simp [h]

@[simp] lemma orElse_eq_ok {o : Option α} : orElse o e = .ok a ↔ o = some a := by
  cases o <;> simp [orElse]

@[simp] lemma throw_ne_ok : (throw e : Except ε α) ≠ .ok a := by
  simp [throw, throwThe, MonadExceptOf.throw]

@[simp] lemma mapError_eq_ok {ε' : Type u} {f : ε → ε'} : x.mapError f = .ok a ↔ x = .ok a := by
  cases x <;> simp [Except.mapError]

@[simp] lemma map_eq_ok {g : α → β} : g <$> x = .ok b ↔ ∃ a, x = .ok a ∧ g a = b := by
  cases x <;> simp [Functor.map, Except.map]

/-- It returned, and what it returned passes a test. -/
def okAnd (x : Except ε α) (p : α → Bool) : Bool :=
  match x with
  | .ok a => p a
  | .error _ => false

lemma exists_of_okAnd {p : α → Bool} (h : okAnd x p = true) : ∃ a, x = .ok a ∧ p a = true := by
  cases x with
  | error e => cases h
  | ok a => exact ⟨a, rfl, h⟩

end Fallible
