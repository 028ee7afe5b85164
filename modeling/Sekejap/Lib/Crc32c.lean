import Mathlib.Data.Nat.Bitwise
import Sekejap.Lib.Bytes

/-!
# CRC-32C

The Castagnoli checksum in its usual reflected form: polynomial `0x82F63B78`, register initialised
to all ones and inverted at the end.  `crc32cAppend c b` continues a finished checksum `c` over
more bytes.

What is built on it depends little on which function this is: a checksum is recomputed over the
bytes it was computed from, and what it is *for* — rejecting bytes that were not written whole — is
assumed where it is used.  The register is fed by injective steps, so **`crc32c_ne`** tells texts that
differ in one byte.
-/

namespace Crc32c

/-- One bit of the register. -/
def shift (c : UInt32) : UInt32 :=
  if c &&& 1 = 1 then (c >>> 1) ^^^ 0x82F63B78 else c >>> 1

/-- One byte. -/
def feed (c : UInt32) (b : UInt8) : UInt32 :=
  shift (shift (shift (shift (shift (shift (shift (shift (c ^^^ b.toUInt32))))))))

/-- Continue the finished checksum `c` over `b`. -/
def crc32cAppend (c : UInt32) (b : Bytes) : UInt32 := ~~~ (b.foldl feed (~~~ c))

/-- The checksum of `b`. -/
def crc32c (b : Bytes) : UInt32 := crc32cAppend 0 b

-- the check value of the algorithm: the nine ASCII digits
example : crc32c [0x31, 0x32, 0x33, 0x34, 0x35, 0x36, 0x37, 0x38, 0x39] = 0xE3069283 := by
  decide +kernel

/-! ## One byte changed -/

lemma toNat_shift (c : UInt32) : (shift c).toNat
    = if c.toNat % 2 = 1 then c.toNat / 2 ^^^ 0x82F63B78 else c.toNat / 2 := by
  have hbit : c &&& 1 = 1 ↔ c.toNat % 2 = 1 := by
    rw [← UInt32.toNat_inj, UInt32.toNat_and]
    exact Eq.congr_left (Nat.and_one_is_mod _)
  have hhalf : (c >>> 1).toNat = c.toNat / 2 := by
    rw [UInt32.toNat_shiftRight]
    exact Nat.shiftRight_one _
  rw [shift]
  by_cases hodd : c.toNat % 2 = 1
  · rw [if_pos (hbit.2 hodd), if_pos hodd, UInt32.toNat_xor, hhalf]
    rfl
  · rw [if_neg (mt hbit.1 hodd), if_neg hodd, hhalf]

/-- The highest bit of the register is the one that was shifted out. -/
lemma testBit_shift (c : UInt32) : (shift c).toNat.testBit 31 = decide (c.toNat % 2 = 1) := by
  have hhalf : (c.toNat / 2).testBit 31 = false := Nat.testBit_lt_two_pow (by have := c.toNat_lt; omega)
  rw [toNat_shift]
  split_ifs with hodd
  · rw [Nat.testBit_xor, hhalf, decide_eq_true hodd]
    decide
  · rw [hhalf, decide_eq_false hodd]

lemma shift_injective : Function.Injective shift := by
  intro c d h
  have hodd : c.toNat % 2 = 1 ↔ d.toNat % 2 = 1 := by
    rw [← decide_eq_decide, ← testBit_shift, ← testBit_shift, h]
  have hhalf := congrArg UInt32.toNat h
  rw [toNat_shift, toNat_shift] at hhalf
  by_cases hc : c.toNat % 2 = 1
  · rw [if_pos hc, if_pos (hodd.1 hc), Nat.xor_left_inj] at hhalf
    exact UInt32.toNat_inj.1 (by omega)
  · rw [if_neg hc, if_neg (mt hodd.2 hc)] at hhalf
    exact UInt32.toNat_inj.1 (by omega)

lemma feed_eq_iff {c d : UInt32} {a b : UInt8} :
    feed c a = feed d b ↔ c ^^^ a.toUInt32 = d ^^^ b.toUInt32 := by
  simp only [feed, shift_injective.eq_iff]

lemma feed_injective (b : UInt8) : Function.Injective fun c => feed c b := by
  intro c d h
  exact UInt32.xor_left_inj _ |>.1 (feed_eq_iff.1 h)

lemma foldl_feed_injective (y : Bytes) : Function.Injective fun c => y.foldl feed c := by
  induction y with
  | nil => exact fun _ _ h => h
  | cons b y ih => exact ih.comp (feed_injective b)

/-- **Texts that differ in one byte have different checksums.** -/
lemma crc32c_ne {a b : UInt8} (x y : Bytes) (hab : a ≠ b) :
    crc32c (x ++ a :: y) ≠ crc32c (x ++ b :: y) := by
  intro h
  simp only [crc32c, crc32cAppend, List.foldl_append, List.foldl_cons, UInt32.not_inj] at h
  have hfeed := feed_eq_iff.1 (foldl_feed_injective y h)
  rw [UInt32.xor_right_inj] at hfeed
  exact hab (UInt8.toNat_inj.1 (by simpa using congrArg UInt32.toNat hfeed))

-- a checksum is compared, never computed, in what follows
attribute [irreducible] crc32cAppend crc32c

end Crc32c
