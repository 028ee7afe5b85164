import Mathlib.Data.Int.Log
import Mathlib.Data.Rat.Floor
import Mathlib.Tactic

/-!
# Binary floating point

The interchange formats of IEEE 754, by the bits of a number: what the bits of a finite number are
worth, and the number nearest to a rational, ties to even.  An operation on finite numbers is the
operation on the rationals they are worth, rounded once.

* **`Format.magnitude_lt`** — the bits below the sign are in the order of what they are worth.
* **`Format.round_mono`**, **`Format.monotone_round`** — rounding is monotone, so that a chain of rounded
  operations by positive constants keeps the order of its operands.
* **`Format.value_nearest`** — the bits that a number is rounded to are worth the rounded number.
-/

namespace Ieee

/-- The widths of the two fields of a binary format. -/
structure Format where
  mantissa : ℕ
  exponent : ℕ

def f32 : Format := ⟨23, 8⟩

def f64 : Format := ⟨52, 11⟩

/-- The integer nearest to a rational, an even one on a tie. -/
def roundEven (x : ℚ) : ℤ :=
  if x - ⌊x⌋ < 1 / 2 ∨ (x - ⌊x⌋ = 1 / 2 ∧ ⌊x⌋ % 2 = 0) then ⌊x⌋ else ⌊x⌋ + 1

namespace Format

variable (f : Format)

def bias : ℕ := 2 ^ (f.exponent - 1) - 1

/-- The bit of the sign. -/
def signBit : ℕ := 2 ^ (f.mantissa + f.exponent)

def isNegative (bits : ℕ) : Bool := decide (f.signBit ≤ bits)

/-- What the bits below the sign are worth. -/
def magnitude (bits : ℕ) : ℚ :=
  let e := bits / 2 ^ f.mantissa
  let t := bits % 2 ^ f.mantissa
  if e = 0 then (t : ℚ) / (2 ^ (f.bias + f.mantissa - 1) : ℕ)
  else ((2 ^ f.mantissa + t) * 2 ^ e : ℕ) / (2 ^ (f.bias + f.mantissa) : ℕ)

/-- What the bits of a finite number are worth. -/
def value (bits : ℕ) : ℚ :=
  if f.isNegative bits then -f.magnitude (bits - f.signBit) else f.magnitude bits

/-- The exponent of the leading bit of a number near `q`; of the least normal number, below it. -/
def leading (q : ℚ) : ℤ := max (Int.log 2 |q|) (1 - f.bias)

/-- A number near `q` is a multiple of this. -/
def lastPlace (q : ℚ) : ℚ := 2 ^ (f.leading q - f.mantissa)

/-- What the number nearest to `q` is worth. -/
def round (q : ℚ) : ℚ := roundEven (q / f.lastPlace q) * f.lastPlace q

/-- The bits of infinity. -/
def infinity : ℕ := (2 ^ f.exponent - 1) * 2 ^ f.mantissa

/-- The bits of the number nearest to `q`, with a sign. -/
def nearest (negative : Bool) (q : ℚ) : ℕ :=
  (if negative then f.signBit else 0)
    + if q = 0 then 0
      else min f.infinity
        ((f.leading q + f.bias - 1).toNat * 2 ^ f.mantissa + (roundEven (|q| / f.lastPlace q)).toNat)

end Format

/-! ## Rounding is monotone -/

lemma roundEven_intCast (n : ℤ) : roundEven n = n := by
  simp [roundEven]

lemma roundEven_le (x : ℚ) : roundEven x ≤ ⌊x⌋ + 1 := by
  rw [roundEven]
  split_ifs
  · omega
  · exact le_rfl

lemma floor_le_roundEven (x : ℚ) : ⌊x⌋ ≤ roundEven x := by
  rw [roundEven]
  split_ifs
  · exact le_rfl
  · omega

lemma roundEven_mono {x y : ℚ} (h : x ≤ y) : roundEven x ≤ roundEven y := by
  rcases (Int.floor_le_floor h).lt_or_eq with hlt | heq
  · calc roundEven x ≤ ⌊x⌋ + 1 := roundEven_le x
      _ ≤ ⌊y⌋ := hlt
      _ ≤ roundEven y := floor_le_roundEven y
  · -- the same integer below, so only the fraction decides
    rw [roundEven, roundEven, heq]
    by_cases hy : y - ⌊y⌋ < 1 / 2 ∨ (y - ⌊y⌋ = 1 / 2 ∧ ⌊y⌋ % 2 = 0)
    · rw [if_pos hy, if_pos]
      rcases hy with hy | ⟨hy, heven⟩
      · exact Or.inl (by linarith)
      · rcases h.lt_or_eq with hlt | rfl
        · exact Or.inl (by linarith)
        · exact Or.inr ⟨hy, heven⟩
    · rw [if_neg hy]
      split_ifs
      · omega
      · exact le_rfl

lemma roundEven_neg (x : ℚ) : roundEven (-x) = -roundEven x := by
  by_cases hint : (⌊x⌋ : ℚ) = x
  · rw [← hint, ← Int.cast_neg, roundEven_intCast, roundEven_intCast]
  · have hfloor : ⌊-x⌋ = -⌊x⌋ - 1 := by
      rw [Int.floor_eq_iff]
      have hlo := Int.floor_le x
      have hhi := Int.lt_floor_add_one x
      have hlt : (⌊x⌋ : ℚ) < x := lt_of_le_of_ne hlo hint
      push_cast
      constructor
      · linarith
      · linarith
    rw [roundEven, roundEven, hfloor]
    push_cast
    by_cases hx : x - ⌊x⌋ < 1 / 2 ∨ (x - ⌊x⌋ = 1 / 2 ∧ ⌊x⌋ % 2 = 0)
    · rw [if_pos hx, if_neg]
      · omega
      · rintro (hlt | ⟨heq, hodd⟩)
        · rcases hx with hx | ⟨hx, -⟩
          · linarith
          · linarith
        · rcases hx with hx | ⟨-, heven⟩
          · linarith
          · omega
    · rw [if_neg hx, if_pos]
      · omega
      · rw [not_or, not_and] at hx
        obtain ⟨hge, hodd⟩ := hx
        rcases (not_lt.1 hge).eq_or_lt with heq | hlt
        · have := hodd heq.symm
          exact Or.inr ⟨by linarith, by omega⟩
        · exact Or.inl (by linarith)

namespace Format

variable {f : Format} {q r : ℚ}

lemma lastPlace_pos (q : ℚ) : 0 < f.lastPlace q := by
  rw [lastPlace]
  positivity

/-- A power of two that is a multiple of the last place is a number of the format, and rounding does
not go past it. -/
lemma roundEven_zpow {u l : ℤ} (h : u ≤ l) :
    (roundEven ((2 : ℚ) ^ l / 2 ^ u) : ℚ) * 2 ^ u = 2 ^ l := by
  obtain ⟨n, rfl⟩ := Int.le.dest h
  have hint : (2 : ℚ) ^ (u + n) / 2 ^ u = ((2 ^ n : ℕ) : ℤ) := by
    rw [zpow_add₀ two_ne_zero, mul_div_cancel_left₀ _ (zpow_ne_zero _ two_ne_zero)]
    push_cast
    exact zpow_natCast 2 n
  rw [hint, roundEven_intCast, ← hint]
  exact div_mul_cancel₀ _ (zpow_ne_zero _ two_ne_zero)

lemma round_le_zpow {l : ℤ} (hl : f.leading q - f.mantissa ≤ l) (h : q ≤ 2 ^ l) :
    f.round q ≤ 2 ^ l := by
  have hpos := f.lastPlace_pos q
  rw [← roundEven_zpow hl, round]
  refine mul_le_mul_of_nonneg_right ?_ hpos.le
  exact_mod_cast roundEven_mono (div_le_div_of_nonneg_right h hpos.le)

lemma zpow_le_round {l : ℤ} (hl : f.leading q - f.mantissa ≤ l) (h : 2 ^ l ≤ q) :
    2 ^ l ≤ f.round q := by
  have hpos := f.lastPlace_pos q
  rw [← roundEven_zpow hl, round]
  refine mul_le_mul_of_nonneg_right ?_ hpos.le
  exact_mod_cast roundEven_mono (div_le_div_of_nonneg_right h hpos.le)

lemma round_nonneg (h : 0 ≤ q) : 0 ≤ f.round q := by
  have hpos := f.lastPlace_pos q
  refine mul_nonneg ?_ hpos.le
  have hround := roundEven_mono (div_nonneg h hpos.le)
  rw [show (0 : ℚ) = ((0 : ℤ) : ℚ) from rfl, roundEven_intCast] at hround
  exact_mod_cast hround

lemma round_nonpos (h : q ≤ 0) : f.round q ≤ 0 := by
  have hpos := f.lastPlace_pos q
  refine mul_nonpos_of_nonpos_of_nonneg ?_ hpos.le
  have hround := roundEven_mono (div_nonpos_of_nonpos_of_nonneg h hpos.le)
  rw [show (0 : ℚ) = ((0 : ℤ) : ℚ) from rfl, roundEven_intCast] at hround
  exact_mod_cast hround

/-- **Rounding is monotone** on numbers that are not negative. -/
theorem round_mono (hq : 0 ≤ q) (h : q ≤ r) : f.round q ≤ f.round r := by
  rcases hq.eq_or_lt with rfl | hqpos
  · exact (round_nonpos le_rfl).trans (round_nonneg h)
  have hrpos : 0 < r := hqpos.trans_le h
  have hle : f.leading q ≤ f.leading r := by
    rw [leading, leading, abs_of_pos hqpos, abs_of_pos hrpos]
    exact max_le_max (Int.log_mono_right hqpos h) le_rfl
  rcases hle.eq_or_lt with heq | hlt
  · have hlast : f.lastPlace q = f.lastPlace r := by rw [lastPlace, lastPlace, heq]
    have hpos := f.lastPlace_pos r
    rw [round, round, hlast]
    refine mul_le_mul_of_nonneg_right ?_ hpos.le
    exact_mod_cast roundEven_mono (div_le_div_of_nonneg_right h hpos.le)
  · -- the power of two that leads `r` lies between them
    have hlog : Int.log 2 |q| ≤ f.leading q := le_max_left _ _
    have hlead : f.leading r = Int.log 2 r := by
      have hmin : 1 - (f.bias : ℤ) ≤ f.leading q := le_max_right _ _
      have hr : f.leading r = max (Int.log 2 r) (1 - f.bias) := by rw [leading, abs_of_pos hrpos]
      rcases max_choice (Int.log 2 r) (1 - (f.bias : ℤ)) with hmax | hmax
      · exact hr.trans hmax
      · omega
    rw [abs_of_pos hqpos] at hlog
    have hq2 : q ≤ 2 ^ f.leading r := by
      have hself : q < (2 : ℚ) ^ (Int.log 2 q + 1) := Int.lt_zpow_succ_log_self (by norm_num) q
      exact hself.le.trans (zpow_le_zpow_right₀ (by norm_num) (by omega))
    have hr2 : 2 ^ f.leading r ≤ r := by
      rw [hlead]
      exact Int.zpow_log_le_self (by norm_num) hrpos
    exact (round_le_zpow (by omega) hq2).trans (zpow_le_round (by omega) hr2)

@[simp] lemma leading_neg : f.leading (-q) = f.leading q := by rw [leading, leading, abs_neg]

@[simp] lemma lastPlace_neg : f.lastPlace (-q) = f.lastPlace q := by rw [lastPlace, lastPlace, leading_neg]

lemma round_neg (q : ℚ) : f.round (-q) = -f.round q := by
  rw [round, round, lastPlace_neg, neg_div, roundEven_neg]
  push_cast
  exact neg_mul _ _

/-- **Rounding is monotone.** -/
theorem monotone_round : Monotone f.round := by
  intro q r h
  rcases le_total 0 q with hq | hq
  · exact round_mono hq h
  rcases le_total 0 r with hr | hr
  · exact (round_nonpos hq).trans (round_nonneg hr)
  · have hneg := round_mono (f := f) (neg_nonneg.2 hr) (neg_le_neg h)
    rw [round_neg, round_neg] at hneg
    exact neg_le_neg_iff.1 hneg

end Format

/-! ## The order of the bits -/

namespace Format

variable {f : Format} {x y : ℕ}

/-- What the bits below the sign are worth, in units of the last place of the least numbers. -/
def units (f : Format) (bits : ℕ) : ℕ :=
  if bits / 2 ^ f.mantissa = 0 then bits % 2 ^ f.mantissa
  else (2 ^ f.mantissa + bits % 2 ^ f.mantissa) * 2 ^ (bits / 2 ^ f.mantissa - 1)

lemma magnitude_eq (hf : 0 < f.bias + f.mantissa) (bits : ℕ) :
    f.magnitude bits = (f.units bits : ℚ) / (2 ^ (f.bias + f.mantissa - 1) : ℕ) := by
  rw [magnitude, units]
  split_ifs with h
  · rfl
  · obtain ⟨e, he⟩ := Nat.exists_eq_succ_of_ne_zero h
    obtain ⟨b, hb⟩ := Nat.exists_eq_succ_of_ne_zero hf.ne'
    rw [he, hb]
    simp only [Nat.succ_eq_add_one, Nat.add_sub_cancel, pow_succ, Nat.cast_mul, Nat.cast_add,
      Nat.cast_pow, Nat.cast_ofNat]
    field_simp

lemma units_lt_succ (bits : ℕ) : f.units bits < f.units (bits + 1) := by
  have hpos : 0 < 2 ^ f.mantissa := by positivity
  generalize hm : 2 ^ f.mantissa = m at hpos
  have hdm := Nat.div_add_mod bits m
  have hlt := Nat.mod_lt bits hpos
  rcases eq_or_ne (bits % m + 1) m with hcarry | hcarry
  · -- a carry out of the mantissa is one more in the exponent
    have hnext : bits + 1 = m * (bits / m + 1) := by rw [Nat.mul_add, Nat.mul_one]; omega
    have hdiv : (bits + 1) / m = bits / m + 1 := by rw [hnext, Nat.mul_div_cancel_left _ hpos]
    have hmod : (bits + 1) % m = 0 := by rw [hnext, Nat.mul_mod_right]
    rw [units, units, hm, hdiv, hmod, if_neg (Nat.succ_ne_zero _), Nat.add_sub_cancel, Nat.add_zero]
    split_ifs with h0
    · rw [h0]
      omega
    · obtain ⟨e, he⟩ := Nat.exists_eq_succ_of_ne_zero h0
      rw [he, Nat.succ_eq_add_one, Nat.add_sub_cancel, pow_succ]
      have he' : 0 < 2 ^ e := by positivity
      calc (m + bits % m) * 2 ^ e < (m * 2) * 2 ^ e := Nat.mul_lt_mul_of_pos_right (by omega) he'
        _ = m * (2 ^ e * 2) := by ring
  · have hdiv : (bits + 1) / m = bits / m := by
      rw [Nat.succ_div, if_neg, Nat.add_zero]
      intro hd
      have := Nat.mod_eq_zero_of_dvd hd
      rw [Nat.add_mod] at this
      rcases eq_or_ne m 1 with rfl | h1
      · omega
      · rw [Nat.mod_eq_of_lt (by omega : 1 < m), Nat.mod_eq_of_lt (by omega)] at this
        omega
    have hmod : (bits + 1) % m = bits % m + 1 := by
      have := Nat.div_add_mod (bits + 1) m
      rw [hdiv] at this
      omega
    rw [units, units, hm, hdiv, hmod]
    split_ifs
    · omega
    · exact Nat.mul_lt_mul_of_pos_right (by omega) (by positivity)

lemma units_strictMono : StrictMono f.units := strictMono_nat_of_lt_succ units_lt_succ

/-- **The bits below the sign are in the order of what they are worth.** -/
lemma magnitude_lt (hf : 0 < f.bias + f.mantissa) : f.magnitude x < f.magnitude y ↔ x < y := by
  have hpos : (0 : ℚ) < (2 ^ (f.bias + f.mantissa - 1) : ℕ) := by positivity
  rw [magnitude_eq hf, magnitude_eq hf, div_lt_div_iff_of_pos_right hpos, Nat.cast_lt]
  exact units_strictMono.lt_iff_lt

lemma magnitude_zero : f.magnitude 0 = 0 := by simp [magnitude]

lemma magnitude_nonneg (bits : ℕ) : 0 ≤ f.magnitude bits := by
  rw [magnitude]
  split_ifs <;> positivity

/-! ## The bits of a rounded number -/

variable {q : ℚ}

/-- An exponent over a mantissa with its leading bit, which may have been carried. -/
lemma units_add {E n : ℕ} (hlo : 2 ^ f.mantissa ≤ n) (hhi : n ≤ 2 * 2 ^ f.mantissa) :
    f.units (E * 2 ^ f.mantissa + n) = n * 2 ^ E := by
  have hpos : 0 < 2 ^ f.mantissa := by positivity
  rw [units]
  generalize 2 ^ f.mantissa = m at hlo hhi hpos
  rcases hhi.eq_or_lt with rfl | hlt
  · have hsplit : E * m + 2 * m = (E + 2) * m := by ring
    rw [hsplit, Nat.mul_div_cancel _ hpos, Nat.mul_mod_left, if_neg (by omega)]
    have hexp : E + 2 - 1 = E + 1 := rfl
    rw [hexp, pow_succ]
    ring
  · obtain ⟨t, rfl⟩ := Nat.exists_eq_add_of_le hlo
    have ht : t < m := by omega
    have hsplit : E * m + (m + t) = t + m * (E + 1) := by ring
    rw [hsplit, Nat.add_mul_div_left _ _ hpos, Nat.add_mul_mod_self_left, Nat.div_eq_of_lt ht,
      Nat.mod_eq_of_lt ht, Nat.zero_add, if_neg (Nat.succ_ne_zero _), Nat.add_sub_cancel]

/-- What is below the least normal number has no leading bit. -/
lemma units_lt {n : ℕ} (h : n < 2 ^ f.mantissa) : f.units n = n := by
  rw [units, Nat.div_eq_of_lt h, if_pos rfl, Nat.mod_eq_of_lt h]

/-- The multiple of the last place that a number is rounded to. -/
def places (f : Format) (q : ℚ) : ℕ := (roundEven (|q| / f.lastPlace q)).toNat

/-- The exponent of the bits of a rounded number, from that of its last place. -/
def exponentOf (f : Format) (q : ℚ) : ℕ := (f.leading q + f.bias - 1).toNat

lemma leading_abs (q : ℚ) : f.leading |q| = f.leading q := by rw [leading, leading, abs_abs]

lemma places_eq (q : ℚ) : (f.places q : ℚ) * f.lastPlace q = f.round |q| := by
  have hpos := f.lastPlace_pos q
  have hnonneg : 0 ≤ roundEven (|q| / f.lastPlace q) := by
    rw [← roundEven_intCast 0]
    exact roundEven_mono (by push_cast; positivity)
  have hlast : f.lastPlace |q| = f.lastPlace q := by rw [lastPlace, lastPlace, leading_abs]
  rw [round, hlast, places]
  congr 1
  exact_mod_cast congrArg (fun n : ℤ => (n : ℚ)) (Int.toNat_of_nonneg hnonneg)

lemma places_le (q : ℚ) : f.places q ≤ 2 * 2 ^ f.mantissa := by
  have hpos := f.lastPlace_pos q
  have hlt : |q| / f.lastPlace q ≤ ((2 * 2 ^ f.mantissa : ℕ) : ℤ) := by
    rw [div_le_iff₀ hpos]
    have hself : |q| < (2 : ℚ) ^ (Int.log 2 |q| + 1) := Int.lt_zpow_succ_log_self (by norm_num) _
    refine hself.le.trans ?_
    have hpow : ((2 * 2 ^ f.mantissa : ℕ) : ℚ) * f.lastPlace q = 2 ^ (f.leading q + 1) := by
      rw [lastPlace, zpow_sub₀ two_ne_zero, zpow_add₀ two_ne_zero, zpow_natCast]
      push_cast
      field_simp
    push_cast at hpow ⊢
    rw [hpow]
    refine zpow_le_zpow_right₀ (by norm_num) ?_
    have := le_max_left (Int.log 2 |q|) (1 - (f.bias : ℤ))
    rw [leading]
    omega
  have hround := roundEven_mono hlt
  rw [roundEven_intCast] at hround
  rw [places]
  omega

/-- A normal number has its leading bit. -/
lemma le_places (hq : q ≠ 0) (h : 1 - (f.bias : ℤ) < f.leading q) : 2 ^ f.mantissa ≤ f.places q := by
  have hpos := f.lastPlace_pos q
  have hlog : f.leading q = Int.log 2 |q| := by
    rw [leading] at h ⊢
    omega
  have hle : (((2 ^ f.mantissa : ℕ) : ℤ) : ℚ) ≤ |q| / f.lastPlace q := by
    rw [le_div_iff₀ hpos]
    have hself : (2 : ℚ) ^ Int.log 2 |q| ≤ |q| := Int.zpow_log_le_self (by norm_num) (abs_pos.2 hq)
    refine le_trans (le_of_eq ?_) hself
    rw [lastPlace, ← hlog, zpow_sub₀ two_ne_zero, zpow_natCast]
    push_cast
    field_simp
  have hround := roundEven_mono hle
  rw [roundEven_intCast] at hround
  rw [places]
  omega

lemma magnitude_places (hf : 0 < f.bias + f.mantissa) (hq : q ≠ 0) :
    f.magnitude (f.exponentOf q * 2 ^ f.mantissa + f.places q) = f.round |q| := by
  have hunits : f.units (f.exponentOf q * 2 ^ f.mantissa + f.places q)
      = f.places q * 2 ^ f.exponentOf q := by
    rcases le_or_gt (2 ^ f.mantissa) (f.places q) with hlo | hlt
    · exact units_add hlo (places_le q)
    · have hzero : f.exponentOf q = 0 := by
        have hmin : 1 - (f.bias : ℤ) ≤ f.leading q := le_max_right _ _
        have hnot : ¬ 1 - (f.bias : ℤ) < f.leading q := fun h => absurd (le_places hq h) (not_le.2 hlt)
        rw [exponentOf]
        omega
      rw [hzero, Nat.zero_mul, Nat.zero_add, units_lt hlt, pow_zero, Nat.mul_one]
  rw [magnitude_eq hf, hunits, ← places_eq]
  have hmin : 1 - (f.bias : ℤ) ≤ f.leading q := le_max_right _ _
  have hexp : ((f.exponentOf q : ℕ) : ℤ) = f.leading q + f.bias - 1 := by
    rw [exponentOf]
    omega
  have hplace : (2 : ℚ) ^ f.exponentOf q = f.lastPlace q * (2 ^ (f.bias + f.mantissa - 1) : ℕ) := by
    rw [lastPlace, ← zpow_natCast, hexp]
    push_cast
    rw [← zpow_natCast, ← zpow_add₀ two_ne_zero]
    congr 1
    omega
  push_cast at hplace ⊢
  rw [hplace]
  field_simp

/-- The bits below the sign of a number that is not too great are those of a finite one. -/
lemma places_lt (hf : 0 < f.exponent) (h : f.leading q < f.bias) :
    f.exponentOf q * 2 ^ f.mantissa + f.places q < f.infinity := by
  obtain ⟨e, he⟩ := Nat.exists_eq_succ_of_ne_zero hf.ne'
  have hbias : 2 ^ f.exponent = 2 * (f.bias + 1) := by
    rw [bias, he, Nat.succ_eq_add_one, Nat.add_sub_cancel, Nat.sub_add_cancel Nat.one_le_two_pow, pow_succ]
    ring
  have hmin : 1 - (f.bias : ℤ) ≤ f.leading q := le_max_right _ _
  have hexp : f.exponentOf q + 2 < 2 ^ f.exponent - 1 := by
    rw [exponentOf, hbias]
    omega
  calc f.exponentOf q * 2 ^ f.mantissa + f.places q
      ≤ f.exponentOf q * 2 ^ f.mantissa + 2 * 2 ^ f.mantissa := Nat.add_le_add_left (places_le q) _
    _ = (f.exponentOf q + 2) * 2 ^ f.mantissa := by ring
    _ < f.infinity := Nat.mul_lt_mul_of_pos_right hexp (by positivity)

lemma infinity_lt_signBit (f : Format) : f.infinity < f.signBit := by
  rw [infinity, signBit, pow_add, Nat.mul_comm (2 ^ f.mantissa)]
  exact Nat.mul_lt_mul_of_pos_right (Nat.sub_lt (by positivity) one_pos) (by positivity)

/-- **The bits nearest to a number are worth the rounded number**, and are those of a finite one, where the
number is not too great. -/
theorem value_nearest (hf : 0 < f.exponent) (hm : 0 < f.bias + f.mantissa) (h : f.leading q < f.bias) :
    f.value (f.nearest (decide (q < 0)) q) = f.round q
      ∧ f.nearest (decide (q < 0)) q % f.signBit < f.infinity := by
  have hinf := f.infinity_lt_signBit
  rcases eq_or_ne q 0 with rfl | hq
  · have hnot : ¬ f.signBit ≤ 0 := by omega
    have hpos : 0 < f.infinity := by
      by_contra hzero
      have := places_lt hf h
      omega
    have hround : f.round 0 = 0 := le_antisymm (round_nonpos le_rfl) (round_nonneg le_rfl)
    simp [nearest, value, isNegative, hnot, magnitude_zero, hround, hpos]
  have hlt := places_lt hf h
  have hmag := magnitude_places hm hq
  have hnearest : ∀ negative, f.nearest negative q
      = (if negative then f.signBit else 0) + (f.exponentOf q * 2 ^ f.mantissa + f.places q) := by
    intro negative
    rw [nearest, if_neg hq]
    congr 1
    exact min_eq_right hlt.le
  rw [hnearest]
  generalize f.exponentOf q * 2 ^ f.mantissa + f.places q = bits at hlt hmag
  by_cases hneg : q < 0
  · have hsign : f.signBit ≤ f.signBit + bits := Nat.le_add_right _ _
    rw [decide_eq_true hneg, if_pos rfl, value, isNegative, decide_eq_true hsign, if_pos rfl,
      Nat.add_sub_cancel_left, hmag, abs_of_neg hneg, round_neg, neg_neg, Nat.add_mod_left,
      Nat.mod_eq_of_lt (hlt.trans hinf)]
    exact ⟨rfl, hlt⟩
  · have hsign : ¬ f.signBit ≤ bits := by omega
    rw [decide_eq_false hneg, if_neg Bool.false_ne_true, Nat.zero_add, value, isNegative,
      decide_eq_false hsign, if_neg Bool.false_ne_true, hmag, abs_of_nonneg (not_lt.1 hneg),
      Nat.mod_eq_of_lt (hlt.trans hinf)]
    exact ⟨rfl, hlt⟩

end Format

end Ieee
