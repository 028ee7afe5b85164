import Sekejap.Collections.Document
import Sekejap.Lib.Bytes
import Sekejap.Lib.Fallible

/-!
# Variable-width integers

The packed values of a text index (`core/engine/src/index/text/segments.rs`) hold integers seven bits to
a byte, the lowest first, each byte but the last with its high bit set.  An integer is read back off
the front of whatever follows (`readVarint_putVarint`), and what is read was written: a longer form of
the same integer is refused (`eq_putVarint_of_readVarint`).
-/

open Fallible

namespace Engine.Segments

/-- `put_varint`: what is appended for a `u64`. -/
def putVarint (value : ℕ) : Bytes :=
  if value / 128 = 0 then [UInt8.ofNat (value % 128)]
  else UInt8.ofNat (value % 128 + 128) :: putVarint (value / 128)
termination_by value

/-- `varint_len` -/
def varintLen (value : ℕ) : ℕ := if 128 ≤ value then varintLen (value / 128) + 1 else 1
termination_by value

/-- The loop of `read_varint`: the bits collected so far, and where the next go. -/
def readVarintFrom (shift value : ℕ) : Bytes → Except Error (ℕ × Bytes)
  | [] => .error (.corrupt "text segment varint is truncated")
  | byte :: rest =>
      if 64 ≤ shift ∨ shift = 63 ∧ 1 < byte.toNat then
        .error (.corrupt "text segment varint overflows 64 bits")
      else if byte.toNat < 128 then
        if byte.toNat = 0 ∧ shift ≠ 0 then
          .error (.corrupt "text segment varint is not minimal")
        else .ok (value + byte.toNat * 2 ^ shift, rest)
      else readVarintFrom (shift + 7) (value + byte.toNat % 128 * 2 ^ shift) rest

/-- `read_varint` -/
def readVarint (b : Bytes) : Except Error (ℕ × Bytes) := readVarintFrom 0 0 b

variable {n m k : ℕ} {b rest : Bytes}

/-! ## Widths -/

lemma putVarint_small (h : n < 128) : putVarint n = [UInt8.ofNat n] := by
  rw [putVarint, if_pos (Nat.div_eq_of_lt h), Nat.mod_eq_of_lt h]

lemma putVarint_large (h : 128 ≤ n) :
    putVarint n = UInt8.ofNat (n % 128 + 128) :: putVarint (n / 128) := by
  rw [putVarint, if_neg (Nat.div_pos h (by norm_num)).ne']

lemma varintLen_eq (n : ℕ) : varintLen n = (putVarint n).length := by
  induction n using Nat.strong_induction_on with
  | h n ih =>
      rw [varintLen]
      by_cases h : 128 ≤ n
      · rw [if_pos h, putVarint_large h, List.length_cons,
          ih _ (Nat.div_lt_self (by omega) (by norm_num))]
      · rw [if_neg h, putVarint_small (by omega)]
        rfl

lemma putVarint_ne_nil (n : ℕ) : putVarint n ≠ [] := by
  rw [putVarint]
  split <;> simp

/-- **An integer of `k` groups takes at most `k` bytes.** -/
lemma length_putVarint_le (hk : 0 < k) (h : n < 128 ^ k) : (putVarint n).length ≤ k := by
  induction k generalizing n with
  | zero => omega
  | succ k ih =>
      by_cases hn : 128 ≤ n
      · rw [putVarint_large hn, List.length_cons]
        have hk' : k ≠ 0 := by
          rintro rfl
          omega
        have hdiv : n / 128 < 128 ^ k := Nat.div_lt_of_lt_mul (by rwa [← pow_succ'])
        exact Nat.succ_le_succ (ih (by omega) hdiv)
      · rw [putVarint_small (by omega)]
        exact Nat.succ_le_succ (Nat.zero_le k)

/-- A `u64` takes at most ten bytes. -/
lemma length_putVarint_word (h : n < 2 ^ 64) : (putVarint n).length ≤ 10 :=
  length_putVarint_le (by norm_num) (h.trans (by norm_num))

/-- A `u32` takes at most five bytes. -/
lemma length_putVarint_half (h : n < 2 ^ 32) : (putVarint n).length ≤ 5 :=
  length_putVarint_le (by norm_num) (h.trans (by norm_num))

lemma length_putVarint_pos (n : ℕ) : 0 < (putVarint n).length :=
  List.length_pos_of_ne_nil (putVarint_ne_nil n)

/-! ## Reading what was written -/

lemma toNat_low (h : n < 256) : (UInt8.ofNat n).toNat = n := by
  rw [UInt8.toNat_ofNat']
  omega

lemma readVarintFrom_putVarint {shift value : ℕ} (hn : n * 2 ^ shift < 2 ^ 64)
    (hpos : shift ≠ 0 → n ≠ 0) :
    readVarintFrom shift value (putVarint n ++ rest) = .ok (value + n * 2 ^ shift, rest) := by
  induction n using Nat.strong_induction_on generalizing shift value with
  | h n ih =>
      have hshift : n ≠ 0 → shift < 64 := by
        intro h0
        by_contra hge
        have h1 : 2 ^ 64 ≤ 2 ^ shift := Nat.pow_le_pow_right (by norm_num) (by omega)
        have h2 : 2 ^ shift ≤ n * 2 ^ shift := Nat.le_mul_of_pos_left _ (Nat.pos_of_ne_zero h0)
        omega
      have hlast : shift = 63 → n ≤ 1 := by
        rintro rfl
        omega
      by_cases h : 128 ≤ n
      · have hb : (UInt8.ofNat (n % 128 + 128)).toNat = n % 128 + 128 := toNat_low (by omega)
        have hlow : (n % 128 + 128) % 128 = n % 128 := by omega
        have hover : ¬ (64 ≤ shift ∨ shift = 63 ∧ 1 < n % 128 + 128) := by
          have := hshift (by omega)
          omega
        have hsum : n % 128 * 2 ^ shift + n / 128 * 2 ^ (shift + 7) = n * 2 ^ shift := by
          rw [pow_add, mul_comm (2 ^ shift) (2 ^ 7), ← mul_assoc, ← add_mul]
          congr 1
          omega
        rw [putVarint_large h, List.cons_append, readVarintFrom, hb, if_neg hover, if_neg (by omega),
          hlow, ih _ (Nat.div_lt_self (by omega) (by norm_num)) (by omega)
            (fun _ => (Nat.div_pos h (by norm_num)).ne'), add_assoc, hsum]
      · have hb : (UInt8.ofNat n).toNat = n := toNat_low (by omega)
        have hover : ¬ (64 ≤ shift ∨ shift = 63 ∧ 1 < n) := by
          by_cases h0 : n = 0
          · subst h0
            have : shift = 0 := by
              by_contra hs
              exact hpos hs rfl
            omega
          · have := hshift h0
            omega
        rw [putVarint_small (by omega), List.cons_append, List.nil_append, readVarintFrom, hb,
          if_neg hover, if_pos (by omega), if_neg (fun hz => hpos hz.2 hz.1)]

/-- **An integer is read off the front of whatever follows it.** -/
lemma readVarint_putVarint (h : n < 2 ^ 64) : readVarint (putVarint n ++ rest) = .ok (n, rest) := by
  have := @readVarintFrom_putVarint n rest 0 0 (by simpa using h) (by simp)
  simpa [readVarint] using this

/-- A group below others that fit in a word fits with them. -/
lemma lt_of_group {low m i : ℕ} (hlow : low < 128) (hm : m ≠ 0)
    (hword : m * 2 ^ (7 * (i + 1)) < 2 ^ 64) : (low + 128 * m) * 2 ^ (7 * i) < 2 ^ 64 := by
  have hQ : 2 ^ (7 * (i + 1)) = 128 * 2 ^ (7 * i) := by
    rw [show 7 * (i + 1) = 7 + 7 * i by ring, pow_add]
    norm_num
  have hle : 7 * (i + 1) ≤ 64 := by
    by_contra hgt
    have h1 : 2 ^ 64 ≤ 2 ^ (7 * (i + 1)) := Nat.pow_le_pow_right (by norm_num) (by omega)
    have h2 : 2 ^ (7 * (i + 1)) ≤ m * 2 ^ (7 * (i + 1)) :=
      Nat.le_mul_of_pos_left _ (Nat.pos_of_ne_zero hm)
    omega
  have hsplit : 2 ^ 64 = 2 ^ (64 - 7 * (i + 1)) * 2 ^ (7 * (i + 1)) := by
    rw [← pow_add, Nat.sub_add_cancel hle]
  have hroom : m < 2 ^ (64 - 7 * (i + 1)) := by
    rw [hsplit] at hword
    exact Nat.lt_of_mul_lt_mul_right hword
  calc (low + 128 * m) * 2 ^ (7 * i) < 128 * (m + 1) * 2 ^ (7 * i) :=
        Nat.mul_lt_mul_of_pos_right (by omega) (by positivity)
    _ = (m + 1) * 2 ^ (7 * (i + 1)) := by
        rw [hQ]
        ring
    _ ≤ 2 ^ (64 - 7 * (i + 1)) * 2 ^ (7 * (i + 1)) := Nat.mul_le_mul_right _ hroom
    _ = 2 ^ 64 := hsplit.symm

lemma readVarintFrom_eq_ok {i value : ℕ} (h : readVarintFrom (7 * i) value b = .ok (n, rest)) :
    ∃ m, n = value + m * 2 ^ (7 * i) ∧ b = putVarint m ++ rest ∧ (i ≠ 0 → m ≠ 0) ∧
      m * 2 ^ (7 * i) < 2 ^ 64 := by
  induction b generalizing i value with
  | nil => cases h
  | cons byte b ih =>
      rw [readVarintFrom] at h
      have hbyte : byte = UInt8.ofNat byte.toNat := (UInt8.ofNat_toNat).symm
      have hlt := byte.toNat_lt
      split_ifs at h with hover hsmall hzero
      · -- the last byte
        obtain ⟨rfl, rfl⟩ : value + byte.toNat * 2 ^ (7 * i) = n ∧ b = rest := by simpa using h
        refine ⟨byte.toNat, rfl, ?_, fun hi h0 => hzero ⟨h0, by omega⟩, ?_⟩
        · rw [putVarint_small hsmall, ← hbyte]
          rfl
        · have hi : i ≤ 9 := by omega
          rcases hi.eq_or_lt with rfl | hi
          · have : byte.toNat ≤ 1 := by omega
            calc byte.toNat * 2 ^ (7 * 9) ≤ 1 * 2 ^ (7 * 9) := Nat.mul_le_mul_right _ this
              _ < 2 ^ 64 := by norm_num
          · have h7 : 2 ^ (7 * i) ≤ 2 ^ 56 := Nat.pow_le_pow_right (by norm_num) (by omega)
            calc byte.toNat * 2 ^ (7 * i) ≤ 127 * 2 ^ 56 := Nat.mul_le_mul (by omega) h7
              _ < 2 ^ 64 := by norm_num
      · obtain ⟨m, rfl, rfl, hm, hword⟩ := ih (i := i + 1) h
        have hm0 : m ≠ 0 := hm (Nat.succ_ne_zero i)
        have hshift : 2 ^ (7 * (i + 1)) = 128 * 2 ^ (7 * i) := by
          rw [show 7 * (i + 1) = 7 + 7 * i by ring, pow_add]
          norm_num
        refine ⟨byte.toNat % 128 + 128 * m, ?_, ?_, by omega, ?_⟩
        · rw [hshift]
          ring
        · have hmod : (byte.toNat % 128 + 128 * m) % 128 + 128 = byte.toNat := by omega
          have hdiv : (byte.toNat % 128 + 128 * m) / 128 = m := by omega
          have hlarge : 128 ≤ byte.toNat % 128 + 128 * m := by omega
          rw [putVarint_large hlarge, hmod, hdiv, ← hbyte]
          rfl
        · exact lt_of_group (Nat.mod_lt _ (by norm_num)) hm0 hword

/-- **What is read was written so.** -/
lemma eq_putVarint_of_readVarint (h : readVarint b = .ok (n, rest)) :
    b = putVarint n ++ rest ∧ n < 2 ^ 64 := by
  obtain ⟨m, hn, hb, -, hword⟩ := @readVarintFrom_eq_ok n b rest 0 0 h
  obtain rfl : n = m := by simpa using hn
  exact ⟨hb, by simpa using hword⟩

end Engine.Segments
