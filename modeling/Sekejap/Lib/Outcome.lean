import Mathlib.Tactic

/-!
# Machine arithmetic that may abort

What a call comes to: a value, an error, or an abort of the process.  An operation on 64-bit integers whose
result does not fit aborts where overflow is checked, and wraps where it is not.

* **`bind_eq_ok`**, **`bind_eq_abort`** — what a sequence came to, by its parts.
* **`fit_of_fits`** — a result that fits is the result, checked or not.
-/

universe u

/-- What a call comes to. -/
inductive Outcome (ε : Type u) (α : Type u) where
  | ok (a : α)
  | error (e : ε)
  | abort
  deriving DecidableEq, Repr

namespace Outcome

variable {ε α β : Type u} {x : Outcome ε α} {f : α → Outcome ε β}

/-- Go on with a value. -/
def bind (x : Outcome ε α) (f : α → Outcome ε β) : Outcome ε β :=
  match x with
  | ok a => f a
  | error e => error e
  | abort => abort

/-- A value, or the error where there is none. -/
def ofOption (o : Option α) (e : ε) : Outcome ε α :=
  match o with
  | some a => ok a
  | none => error e

instance : Monad (Outcome ε) where
  pure := ok
  bind := bind

@[simp] lemma pure_eq (a : α) : (pure a : Outcome ε α) = ok a := rfl

@[simp] lemma ok_bind (a : α) (f : α → Outcome ε β) : ok a >>= f = f a := rfl

@[simp] lemma error_bind (e : ε) (f : α → Outcome ε β) : error e >>= f = error e := rfl

@[simp] lemma abort_bind (f : α → Outcome ε β) : (abort : Outcome ε α) >>= f = abort := rfl

lemma bind_eq_ok {b : β} : x >>= f = ok b ↔ ∃ a, x = ok a ∧ f a = ok b := by
  cases x <;> simp

lemma bind_eq_abort : x >>= f = abort ↔ x = abort ∨ ∃ a, x = ok a ∧ f a = abort := by
  cases x <;> simp

lemma bind_ne_abort (hx : x ≠ abort) (hf : ∀ a, x = ok a → f a ≠ abort) : x >>= f ≠ abort := by
  intro habort
  obtain h | ⟨a, hok, h⟩ := bind_eq_abort.1 habort
  · exact hx h
  · exact hf a hok h

/-- A value or an error, where nothing aborts. -/
def ofExcept (x : Except ε α) : Outcome ε α :=
  match x with
  | .ok a => ok a
  | .error e => error e

@[simp] lemma ofExcept_eq_ok {x : Except ε α} {a : α} : ofExcept x = ok a ↔ x = .ok a := by
  cases x <;> simp [ofExcept]

@[simp] lemma ofExcept_ne_abort (x : Except ε α) : ofExcept x ≠ abort := by
  cases x <;> simp [ofExcept]

lemma ofOption_ne_abort (o : Option α) (e : ε) : ofOption o e ≠ abort := by
  cases o <;> simp [ofOption]

end Outcome

namespace Machine

/-- The least and the greatest 64-bit integers. -/
def i64Min : ℤ := -9223372036854775808
def i64Max : ℤ := 9223372036854775807

/-- It is a 64-bit integer. -/
def Fits (n : ℤ) : Prop := i64Min ≤ n ∧ n ≤ i64Max

instance (n : ℤ) : Decidable (Fits n) := inferInstanceAs (Decidable (_ ∧ _))

lemma fits_iff {n : ℤ} : Fits n ↔ -9223372036854775808 ≤ n ∧ n ≤ 9223372036854775807 := Iff.rfl

/-- The result of an operation, in a build that checks for overflow or in one that does not. -/
def fit {ε : Type} (checked : Bool) (n : ℤ) : Outcome ε ℤ :=
  if Fits n then .ok n else if checked then .abort else .ok (n.bmod 18446744073709551616)

variable {ε : Type} {checked : Bool} {n : ℤ}

lemma fit_of_fits (h : Fits n) : (fit checked n : Outcome ε ℤ) = .ok n := if_pos h

lemma fit_of_not_fits (h : ¬ Fits n) : (fit true n : Outcome ε ℤ) = .abort := by
  rw [fit, if_neg h, if_pos rfl]

lemma fits_bmod (n : ℤ) : Fits (n.bmod 18446744073709551616) := by
  have hlow := @Int.le_bmod n 18446744073709551616 (by decide)
  have hhigh := @Int.bmod_lt n 18446744073709551616 (by decide)
  rw [fits_iff]
  omega

/-- What an operation leaves fits. -/
lemma fits_of_fit {r : ℤ} (h : (fit checked n : Outcome ε ℤ) = .ok r) : Fits r := by
  rw [fit] at h
  split_ifs at h with hfits
  · cases h
    exact hfits
  · cases h
    exact fits_bmod n

/-- The nearest 64-bit integer. -/
def saturate (n : ℤ) : ℤ := max i64Min (min i64Max n)

lemma saturate_of_fits (h : Fits n) : saturate n = n := by
  rw [fits_iff] at h
  dsimp only [saturate, i64Min, i64Max]
  omega

lemma saturate_le_iff {t : ℤ} (ht : Fits t) : saturate n ≤ t ↔ t = i64Max ∨ n ≤ t := by
  rw [fits_iff] at ht
  dsimp only [saturate, i64Min, i64Max]
  omega

lemma lt_saturate_iff {t : ℤ} (ht : Fits t) : t < saturate n ↔ t ≠ i64Max ∧ t < n := by
  rw [← not_le, saturate_le_iff ht, not_or, not_le]

/-- The sum, where it fits. -/
def checkedAdd (a b : ℤ) : Option ℤ := if Fits (a + b) then some (a + b) else none

end Machine
