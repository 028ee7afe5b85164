import Mathlib.Data.Nat.Digits.Lemmas
import Sekejap.Lib.Slices

/-!
# Decimal numerals

Whole numbers as texts: read with a sign, and written with leading zeros.

* **`parseI64_eq_some`** — what is read is digits, or a sign and digits.
* **`parseI64_padded`** — what is written reads as the number.
-/

namespace Numerals

open Machine Utf8

variable {f : List Char} {v : ℤ} {n w : ℕ}

/-- The number that digits write. -/
def number (f : List Char) : ℕ := Nat.ofDigits 10 (f.reverse.map fun c => c.toNat - 48)

/-- There are digits, and only digits. -/
def Digits (f : List Char) : Prop := f ≠ [] ∧ ∀ c ∈ f, c.isDigit

-- over the characters of the text, not over all characters
instance instDecidableDigits (f : List Char) : Decidable (Digits f) :=
  @instDecidableAnd _ _ _ (List.decidableBAll (fun c => c.isDigit) f)

/-- The digits of a number, where it fits with its sign. -/
def signed (sign : ℤ) (f : List Char) : Option ℤ :=
  if Digits f ∧ Fits (sign * number f) then some (sign * number f) else none

/-- `str::parse::<i64>`. -/
def parseI64 : List Char → Option ℤ
  | '-' :: f => signed (-1) f
  | '+' :: f => signed 1 f
  | f => signed 1 f

lemma signed_eq_some {sign : ℤ} : signed sign f = some v ↔ Digits f ∧ Fits (sign * number f) ∧ sign * number f = v := by
  rw [signed]
  split_ifs with h
  · simp [h.1, h.2]
  · constructor
    · rintro ⟨⟩
    · rintro ⟨hdigits, hfits, -⟩
      exact absurd ⟨hdigits, hfits⟩ h

/-- **A number that is read** is digits, or a sign and digits. -/
lemma parseI64_eq_some : parseI64 f = some v ↔ (Digits f ∧ Fits (number f) ∧ (number f : ℤ) = v)
    ∨ (∃ r, f = '+' :: r ∧ Digits r ∧ Fits (number r) ∧ (number r : ℤ) = v)
    ∨ ∃ r, f = '-' :: r ∧ Digits r ∧ Fits (-number r) ∧ -(number r : ℤ) = v := by
  have hsign : ∀ c r, c = '+' ∨ c = '-' → ¬ Digits (c :: r) := by
    rintro c r (rfl | rfl) hdigits
    · exact absurd (hdigits.2 '+' (List.mem_cons_self ..)) (by decide)
    · exact absurd (hdigits.2 '-' (List.mem_cons_self ..)) (by decide)
  fun_cases parseI64 f with
  | case1 r =>
      rw [signed_eq_some, neg_one_mul]
      simp [hsign '-' r (Or.inr rfl)]
  | case2 r =>
      rw [signed_eq_some, one_mul]
      simp [hsign '+' r (Or.inl rfl)]
  | case3 f hminus hplus =>
      rw [signed_eq_some, one_mul]
      constructor
      · exact Or.inl
      · rintro (h | ⟨r, rfl, -⟩ | ⟨r, rfl, -⟩)
        · exact h
        · exact absurd rfl (hplus r)
        · exact absurd rfl (hminus r)

lemma digit_ascii {c : Char} (h : c.isDigit) : 48 ≤ c.toNat ∧ c.toNat ≤ 57 := by
  rw [Char.isDigit, Bool.and_eq_true, decide_eq_true_eq, decide_eq_true_eq] at h
  exact h

lemma size_of_ascii (h : ∀ c ∈ f, c.toNat < 128) : size f = f.length := by
  induction f with
  | nil => rfl
  | cons c f ih =>
      rw [size_cons, size_ascii (h c (List.mem_cons_self ..)), ih fun d hd => h d (List.mem_cons_of_mem c hd),
        List.length_cons, add_comm]

lemma Digits.ascii (h : Digits f) : ∀ c ∈ f, c.toNat < 128 := by
  intro c hc
  have := (digit_ascii (h.2 c hc)).2
  omega

lemma Digits.number_lt (h : Digits f) : number f < 10 ^ f.length := by
  have hlt := Nat.ofDigits_lt_base_pow_length (b := 10) (l := f.reverse.map fun c => c.toNat - 48) (by decide) (by
    intro d hd
    obtain ⟨c, hc, rfl⟩ := List.mem_map.1 hd
    have := digit_ascii (h.2 c (List.mem_reverse.1 hc))
    omega)
  rwa [List.length_map, List.length_reverse] at hlt

/-- What reads as a number is of ASCII. -/
lemma size_of_parse (h : parseI64 f = some v) : size f = f.length := by
  refine size_of_ascii ?_
  obtain ⟨hdigits, -⟩ | ⟨r, rfl, hdigits, -⟩ | ⟨r, rfl, hdigits, -⟩ := parseI64_eq_some.1 h
  · exact hdigits.ascii
  · exact List.forall_mem_cons.2 ⟨by decide, hdigits.ascii⟩
  · exact List.forall_mem_cons.2 ⟨by decide, hdigits.ascii⟩

/-- A number of so many characters. -/
lemma abs_lt_of_parse (h : parseI64 f = some v) : |v| < 10 ^ f.length := by
  have hpow : ∀ r : List Char, (10 : ℤ) ^ r.length ≤ 10 ^ (r.length + 1) := fun r =>
    pow_le_pow_right₀ (by decide) (Nat.le_succ _)
  obtain ⟨hdigits, -, rfl⟩ | ⟨r, rfl, hdigits, -, rfl⟩ | ⟨r, rfl, hdigits, -, rfl⟩ := parseI64_eq_some.1 h
  · rw [abs_of_nonneg (Int.natCast_nonneg _)]
    exact_mod_cast hdigits.number_lt
  · rw [abs_of_nonneg (Int.natCast_nonneg _), List.length_cons]
    exact lt_of_lt_of_le (by exact_mod_cast hdigits.number_lt) (hpow r)
  · rw [abs_neg, abs_of_nonneg (Int.natCast_nonneg _), List.length_cons]
    exact lt_of_lt_of_le (by exact_mod_cast hdigits.number_lt) (hpow r)

/-! ## Leading zeros -/

/-- `{n:0w}` of a natural number. -/
def zeroPadded (w n : ℕ) : List Char :=
  (Nat.digits 10 n ++ List.replicate (w - (Nat.digits 10 n).length) 0).reverse.map Nat.digitChar

/-- `{v:0w}` of an integer, whose sign is one of its characters. -/
def padded (w : ℕ) (v : ℤ) : List Char :=
  if v < 0 then '-' :: zeroPadded (w - 1) v.natAbs else zeroPadded w v.natAbs

lemma digitChar_table : ∀ d < 10, (Nat.digitChar d).isDigit ∧ (Nat.digitChar d).toNat - 48 = d := by
  decide

lemma length_zeroPadded : (zeroPadded w n).length = max w (Nat.digits 10 n).length := by
  rw [zeroPadded, List.length_map, List.length_reverse, List.length_append, List.length_replicate]
  omega

lemma length_zeroPadded_of_lt (h : n < 10 ^ w) : (zeroPadded w n).length = w := by
  rw [length_zeroPadded, max_eq_left]
  exact (Nat.digits_length_le_iff (by decide) n).2 h

lemma digits_mem_lt : ∀ d ∈ Nat.digits 10 n ++ List.replicate (w - (Nat.digits 10 n).length) 0, d < 10 := by
  intro d hd
  obtain hd | hd := List.mem_append.1 hd
  · exact Nat.digits_lt_base (by decide) hd
  · rw [List.eq_of_mem_replicate hd]
    decide

lemma digits_zeroPadded (hw : 0 < w) : Digits (zeroPadded w n) := by
  constructor
  · rw [← List.length_pos_iff, length_zeroPadded]
    omega
  · intro c hc
    rw [zeroPadded] at hc
    obtain ⟨d, hd, rfl⟩ := List.mem_map.1 hc
    exact (digitChar_table d (digits_mem_lt d (List.mem_reverse.1 hd))).1

lemma number_zeroPadded : number (zeroPadded w n) = n := by
  rw [number, zeroPadded, ← List.map_reverse, List.reverse_reverse, List.map_map]
  have hid : (Nat.digits 10 n ++ List.replicate (w - (Nat.digits 10 n).length) 0).map
      ((fun c : Char => c.toNat - 48) ∘ Nat.digitChar)
        = Nat.digits 10 n ++ List.replicate (w - (Nat.digits 10 n).length) 0 := by
    conv_rhs => rw [← List.map_id (Nat.digits 10 n ++ List.replicate (w - (Nat.digits 10 n).length) 0)]
    exact List.map_congr_left fun d hd => (digitChar_table d (digits_mem_lt d hd)).2
  rw [hid, Nat.ofDigits_append_replicate_zero, Nat.ofDigits_digits]

/-- **What is written reads as the number.** -/
lemma parseI64_zeroPadded (hw : 0 < w) (h : Fits n) : parseI64 (zeroPadded w n) = some (n : ℤ) := by
  refine parseI64_eq_some.2 (Or.inl ⟨digits_zeroPadded hw, ?_, ?_⟩) <;> rw [number_zeroPadded]
  exact h

lemma parseI64_padded (hw : 1 < w) (h : Fits v) : parseI64 (padded w v) = some v := by
  rw [padded]
  split_ifs with hneg
  · refine parseI64_eq_some.2 (Or.inr (Or.inr ⟨_, rfl, digits_zeroPadded (by omega), ?_, ?_⟩))
    all_goals rw [number_zeroPadded]
    · have : (-(v.natAbs : ℤ)) = v := by omega
      rwa [this]
    · omega
  · have hv : ((v.natAbs : ℕ) : ℤ) = v := by omega
    rw [parseI64_zeroPadded (by omega) (by rwa [hv]), hv]

end Numerals
