import Sekejap.Lib.Rounding
import Mathlib.Data.Prod.Lex

/-!
# What a float stands for

A float is nothing, an infinity or a number: all that comparisons look at.  Two floats that stand for the
same have the same bits, but for a zero and for what is not a number.

* **`Datum.partialCmp_eq`** — floats are compared by their places on one line.
* **`Format.eq_of_read_eq`** — the bits are those of the number.
-/

namespace Ieee

/-- What the bits of a float stand for. -/
inductive Datum where
  | nan
  | infinite (negative : Bool)
  | finite (q : ℚ)
  deriving DecidableEq

/-- A float by its bits: the largest exponent is that of the infinities and of what is no number. -/
def Format.read (f : Format) (bits : ℕ) : Datum :=
  if bits % f.signBit < f.infinity then .finite (f.value bits)
  else if bits % f.signBit = f.infinity then .infinite (f.isNegative bits)
  else .nan

/-- `f64::from`: the `f64` that stands for the same as an `f32`. -/
def f64From (lane : ℕ) : ℕ :=
  match f32.read lane with
  | .finite q => f64.nearest (f32.isNegative lane) q
  | .infinite negative => (if negative then f64.signBit else 0) + f64.infinity
  | .nan => (if f32.isNegative lane then f64.signBit else 0) + f64.infinity
      + lane % 2 ^ f32.mantissa * 2 ^ (f64.mantissa - f32.mantissa)

/-- The integer a number is cut to, toward zero. -/
def truncate (q : ℚ) : ℤ := if 0 ≤ q then ⌊q⌋ else ⌈q⌉

namespace Datum

/-- `is_nan` -/
def isNan : Datum → Bool
  | nan => true
  | _ => false

/-- `partial_cmp` -/
def partialCmp : Datum → Datum → Option Ordering
  | nan, _ => none
  | _, nan => none
  | infinite s, infinite t => some (compare t s)
  | infinite s, finite _ => some (if s then .lt else .gt)
  | finite _, infinite s => some (if s then .gt else .lt)
  | finite p, finite q => some (compare p q)

/-- `a < b` -/
def lt (a b : Datum) : Bool := a.partialCmp b == some .lt

/-- `a >= b` -/
def ge (a b : Datum) : Bool := a.partialCmp b == some .gt || a.partialCmp b == some .eq

/-- `trunc` -/
def trunc : Datum → Datum
  | finite q => finite (truncate q)
  | d => d

/-- `fract` -/
def fract : Datum → Datum
  | finite q => finite (q - truncate q)
  | _ => nan

/-- `abs` -/
def abs : Datum → Datum
  | finite q => finite |q|
  | infinite _ => infinite false
  | nan => nan

/-- A float cast to the integers from `lo` to `hi`: cut, and kept within them. -/
def toInt (lo hi : ℤ) : Datum → ℤ
  | nan => 0
  | infinite negative => if negative then lo else hi
  | finite q => max lo (min hi (truncate q))

/-- Where a float stands on one line with all others. -/
def place : Datum → ℤ ×ₗ ℚ
  | infinite true => toLex (-1, 0)
  | finite q => toLex (0, q)
  | infinite false => toLex (1, 0)
  | nan => toLex (2, 0)

lemma place_inj {a b : Datum} (h : a.place = b.place) : a = b := by
  have hfst := congrArg (fun p => (ofLex p).1) h
  have hsnd := congrArg (fun p => (ofLex p).2) h
  rcases a with _ | (_ | _) | p <;> rcases b with _ | (_ | _) | q <;>
    simp_all [place]

/-- **Floats are compared by their places.** -/
lemma partialCmp_eq {a b : Datum} (ha : a ≠ nan) (hb : b ≠ nan) :
    a.partialCmp b = some (compare a.place b.place) := by
  have hlt : ∀ {m n : ℤ} (p q : ℚ), m < n → compare (toLex (m, p)) (toLex (n, q)) = .lt := fun p q h =>
    compare_lt_iff_lt.2 (Prod.Lex.toLex_lt_toLex.2 (Or.inl h))
  have hgt : ∀ {m n : ℤ} (p q : ℚ), n < m → compare (toLex (m, p)) (toLex (n, q)) = .gt := fun p q h =>
    compare_gt_iff_gt.2 (Prod.Lex.toLex_lt_toLex.2 (Or.inl h))
  have heq : ∀ m : ℤ ×ₗ ℚ, compare m m = .eq := fun m => compare_eq_iff_eq.2 rfl
  rcases a with _ | (_ | _) | p
  · exact absurd rfl ha
  · rcases b with _ | (_ | _) | q
    · exact absurd rfl hb
    · exact congrArg some (heq _).symm
    · exact congrArg some (hgt 0 0 (by decide)).symm
    · exact congrArg some (hgt 0 q (by decide)).symm
  · rcases b with _ | (_ | _) | q
    · exact absurd rfl hb
    · exact congrArg some (hlt 0 0 (by decide)).symm
    · exact congrArg some (heq _).symm
    · exact congrArg some (hlt 0 q (by decide)).symm
  · rcases b with _ | (_ | _) | q
    · exact absurd rfl hb
    · exact congrArg some (hlt p 0 (by decide)).symm
    · exact congrArg some (hgt p 0 (by decide)).symm
    · refine congrArg some ?_
      rw [place, place, Prod.Lex.compare_def, compareLex, compareOn, compareOn]
      exact (congrArg (Ordering.then · (compare p q)) (compare_eq_iff_eq.2 rfl)).symm

end Datum

namespace Format

variable {f : Format} {x y : ℕ}

lemma value_eq_iff (hf : 0 < f.bias + f.mantissa) (hx : f.value x ≠ 0) (h : f.value x = f.value y) : x = y := by
  have hmag : ∀ {u v : ℕ}, f.magnitude u = f.magnitude v → u = v := by
    intro u v huv
    rcases lt_trichotomy u v with hlt | heq | hlt
    · exact absurd huv ((magnitude_lt hf).2 hlt).ne
    · exact heq
    · exact absurd huv ((magnitude_lt hf).2 hlt).ne'
  have hnonneg := @magnitude_nonneg f
  rw [value] at hx
  rw [value, value] at h
  simp only [isNegative, decide_eq_true_eq] at h hx
  split_ifs at h hx with hxs hys hys
  · have := hmag (neg_injective h)
    omega
  · -- one is below zero and the other is not
    have h1 := hnonneg (x - f.signBit)
    have h2 := hnonneg y
    exact absurd (le_antisymm (by linarith) (by linarith) : -f.magnitude (x - f.signBit) = 0) hx
  · have h1 := hnonneg x
    have h2 := hnonneg (y - f.signBit)
    exact absurd (le_antisymm (by linarith) h1) hx
  · exact hmag h

lemma value_of_read {q : ℚ} (h : f.read x = .finite q) : f.value x = q := by
  rw [read] at h
  split_ifs at h
  exact Datum.finite.inj h

lemma bits_of_read {negative : Bool} (hx : x < 2 * f.signBit) (h : f.read x = .infinite negative) :
    x = (if negative then f.signBit else 0) + f.infinity := by
  rw [read] at h
  split_ifs at h with hlt heq
  rw [← Datum.infinite.inj h, isNegative]
  by_cases hneg : f.signBit ≤ x
  · rw [Nat.mod_eq_sub_mod hneg, Nat.mod_eq_of_lt (by omega)] at heq
    rw [decide_eq_true hneg, if_pos rfl]
    omega
  · rw [Nat.mod_eq_of_lt (by omega)] at heq
    rw [decide_eq_false hneg, if_neg (by decide)]
    omega

/-- **The bits are those of the number**, but for a zero and for what is no number. -/
lemma eq_of_read_eq (hf : 0 < f.bias + f.mantissa) (hx : x < 2 * f.signBit) (hy : y < 2 * f.signBit)
    (h : f.read x = f.read y) (hzero : f.read x ≠ .finite 0) (hnan : f.read x ≠ .nan) : x = y := by
  cases hd : f.read x with
  | nan => exact absurd hd hnan
  | infinite negative => rw [bits_of_read hx hd, bits_of_read hy (h ▸ hd)]
  | finite q =>
      refine value_eq_iff hf (fun h0 => hzero ?_) ((value_of_read hd).trans (value_of_read (h ▸ hd)).symm)
      rw [hd, ← value_of_read hd, h0]

end Format

end Ieee
