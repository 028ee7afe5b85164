import Mathlib.Data.Nat.Bitwise
import Sekejap.Lib.Bytes

/-!
# Small numbers packed into bytes

Bit `p` of a byte string is bit `p % 8` of byte `p / 8`.  A writer ors a small number in at a bit
position of a byte, a reader shifts a byte and masks it.

* **`bitAt_orAt`** — what a write does to every bit.
* **`testBit_fieldAt`** — what a read finds, bit by bit.
-/

namespace Bytes

/-- Bit `p`; beyond the end there are none set. -/
def bitAt (b : Bytes) (p : ℕ) : Bool := (b.getD (p / 8) 0).toNat.testBit (p % 8)

/-- `b[p / 8] |= x << (p % 8)` -/
def orAt (b : Bytes) (p x : ℕ) : Bytes :=
  b.modify (p / 8) fun c => UInt8.ofNat (c.toNat ||| x <<< (p % 8))

/-- The `n` bits from `p` on, in one byte: `(b[p / 8] >> (p % 8)) & mask`. -/
def fieldAt (b : Bytes) (p n : ℕ) : ℕ := (b.getD (p / 8) 0).toNat >>> (p % 8) &&& (2 ^ n - 1)

variable {b : Bytes} {p q x n j : ℕ}

@[simp] lemma length_orAt (b : Bytes) (p x : ℕ) : (orAt b p x).length = b.length := by simp [orAt]

lemma toNat_or_shift {c : UInt8} (hx : x < 2 ^ (8 - p % 8)) :
    (UInt8.ofNat (c.toNat ||| x <<< (p % 8))).toNat = c.toNat ||| x <<< (p % 8) := by
  have hshift : x <<< (p % 8) < 2 ^ 8 := by
    rw [Nat.shiftLeft_eq]
    calc x * 2 ^ (p % 8) < 2 ^ (8 - p % 8) * 2 ^ (p % 8) :=
          Nat.mul_lt_mul_of_pos_right hx (Nat.two_pow_pos _)
      _ = 2 ^ 8 := by rw [← pow_add, Nat.sub_add_cancel (by omega)]
  exact Nat.mod_eq_of_lt (Nat.or_lt_two_pow c.toNat_lt hshift)

/-- **A write sets the bits of the number**, and leaves the others. -/
lemma bitAt_orAt (hp : p / 8 < b.length) (hx : x < 2 ^ (8 - p % 8)) (q : ℕ) :
    bitAt (orAt b p x) q = (bitAt b q || (decide (p ≤ q ∧ q / 8 = p / 8) && x.testBit (q - p))) := by
  unfold bitAt orAt
  rw [List.getD_eq_getElem?_getD, List.getElem?_modify, List.getD_eq_getElem?_getD]
  by_cases hq : p / 8 = q / 8
  · rw [← hq, List.getElem?_eq_getElem hp]
    simp only [Option.map_eq_map, Option.map_some, if_true, Option.getD_some, toNat_or_shift hx,
      Nat.testBit_or, Nat.testBit_shiftLeft, and_true]
    congr 1
    by_cases hle : p ≤ q
    · have hmod : p % 8 ≤ q % 8 := by omega
      have hsub : q % 8 - p % 8 = q - p := by omega
      simp [hle, hmod, hsub]
    · have hmod : ¬ p % 8 ≤ q % 8 := by omega
      simp [hle, hmod]
  · have hne : ¬ (p ≤ q ∧ q / 8 = p / 8) := fun h => hq h.2.symm
    simp [hq, hne]

lemma testBit_fieldAt (hn : p % 8 + n ≤ 8) (j : ℕ) :
    (fieldAt b p n).testBit j = (decide (j < n) && bitAt b (p + j)) := by
  rw [fieldAt, Nat.testBit_and, Nat.testBit_shiftRight, Nat.testBit_two_pow_sub_one, bitAt, Bool.and_comm]
  by_cases hj : j < n
  · have hdiv : (p + j) / 8 = p / 8 := by omega
    have hmod : (p + j) % 8 = p % 8 + j := by omega
    rw [hdiv, hmod]
  · simp [hj]

lemma fieldAt_lt (b : Bytes) (p n : ℕ) : fieldAt b p n < 2 ^ n :=
  Nat.and_lt_two_pow _ (Nat.sub_lt (Nat.two_pow_pos n) Nat.one_pos)

/-- A field reads `x` when its bits are those of `x`. -/
lemma fieldAt_eq (hn : p % 8 + n ≤ 8) (hx : x < 2 ^ n) (h : ∀ j < n, bitAt b (p + j) = x.testBit j) :
    fieldAt b p n = x := by
  refine Nat.eq_of_testBit_eq fun j => ?_
  rw [testBit_fieldAt hn]
  by_cases hj : j < n
  · simp [hj, h j hj]
  · rw [Nat.testBit_lt_two_pow (hx.trans_le (Nat.pow_le_pow_right (by omega) (Nat.not_lt.1 hj)))]
    simp [hj]

@[simp] lemma bitAt_replicate (n p : ℕ) : bitAt (List.replicate n 0) p = false := by
  rw [bitAt, List.getD_eq_getElem?_getD, List.getElem?_replicate]
  split_ifs <;> simp

end Bytes
