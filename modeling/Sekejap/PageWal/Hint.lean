import Sekejap.PageWal.Image

/-!
# The publication hint

48 bytes, in two copies at offsets 0 and 48 of `readers.lock`, written one after the other without
a barrier: the transaction a reader may be pointed at, and where its commit frame ends.  A copy that was
written whole is read back (`hintDecode_encode`); one that was not has no hint, by its checksum.
-/

open Bytes Page Crc32c

namespace PageWal

def hintBytes : ℕ := 48
/-- `HINT_FILE_BYTES` -/
def hintFileBytes : ℕ := 2 * hintBytes
/-- `E4PWHNT1` -/
def hintMagic : Bytes := [0x45, 0x34, 0x50, 0x57, 0x48, 0x4E, 0x54, 0x31]

structure Hint where
  identity : Bytes
  checkpointTx : ℕ
  publishedTx : ℕ
  publishedEnd : ℕ
  deriving DecidableEq, Repr

attribute [ext] Hint

/-- The 44 bytes under the checksum. -/
def hintBody (h : Hint) : Bytes :=
  hintMagic ++ h.identity ++ leBytes 8 h.checkpointTx ++ leBytes 8 h.publishedTx
    ++ leBytes 4 h.publishedEnd

def hintEncode (h : Hint) : Bytes := hintBody h ++ leBytes 4 (crc32c (hintBody h)).toNat

def hintDecode (b : Bytes) : Option Hint :=
  if b.length ≠ hintBytes ∨ b.slice 0 8 ≠ hintMagic ∨ (crc32c (b.slice 0 44)).toNat ≠ u32At b 44 then
    none
  else some ⟨b.slice 8 16, u64At b 24, u64At b 32, u32At b 40⟩

/-! ## A hint is read back -/

structure Hint.Valid (h : Hint) : Prop where
  identity : h.identity.length = 16
  checkpointTx : h.checkpointTx < 2 ^ 64
  publishedTx : h.publishedTx < 2 ^ 64
  publishedEnd : h.publishedEnd < 2 ^ 32

section

variable {h : Hint}

lemma length_hintBody (hv : h.Valid) : (hintBody h).length = 44 := by
  simp [hintBody, hintMagic, hv.identity]

lemma length_hintEncode (hv : h.Valid) : (hintEncode h).length = hintBytes := by
  rw [hintEncode, List.length_append, length_hintBody hv, length_leBytes]; rfl

lemma hintDecode_encode (hv : h.Valid) : hintDecode (hintEncode h) = some h := by
  have hb := length_hintBody hv
  have hi := hv.identity
  have e44 : (hintEncode h).slice 44 4 = leBytes 4 (crc32c (hintBody h)).toNat :=
    slice_last (hintBody h) rfl hb (length_leBytes _ _)
  have e0 : (hintEncode h).slice 0 44 = hintBody h := by
    rw [hintEncode, slice_append_left (by omega), slice_eq_self hb]
  have hm : (hintEncode h).slice 0 8 = hintMagic :=
    slice_segment [] (by simp only [hintEncode, hintBody, List.append_assoc]; rfl) rfl rfl
  have e8 : (hintEncode h).slice 8 16 = h.identity :=
    slice_segment hintMagic (by simp only [hintEncode, hintBody, List.append_assoc]; rfl)
      (by simp [hintMagic]) hi
  have e24 : (hintEncode h).slice 24 8 = leBytes 8 h.checkpointTx :=
    slice_segment (hintMagic ++ h.identity)
      (by simp only [hintEncode, hintBody, List.append_assoc]; rfl)
      (by simp [hintMagic, hi]) (length_leBytes _ _)
  have e32 : (hintEncode h).slice 32 8 = leBytes 8 h.publishedTx :=
    slice_segment (hintMagic ++ h.identity ++ leBytes 8 h.checkpointTx)
      (by simp only [hintEncode, hintBody, List.append_assoc]; rfl)
      (by simp [hintMagic, hi]) (length_leBytes _ _)
  have e40 : (hintEncode h).slice 40 4 = leBytes 4 h.publishedEnd :=
    slice_segment (hintMagic ++ h.identity ++ leBytes 8 h.checkpointTx ++ leBytes 8 h.publishedTx)
      (by simp only [hintEncode, hintBody, List.append_assoc]; rfl)
      (by simp [hintMagic, hi]) (length_leBytes _ _)
  have hcrc : u32At (hintEncode h) 44 = (crc32c (hintBody h)).toNat := by
    rw [u32At, e44]
    exact leNat_leBytes_of_lt (lt_of_lt_of_le (UInt32.toNat_lt _) (by norm_num))
  rw [hintDecode, if_neg (by rw [length_hintEncode hv, hm, e0, hcrc]; simp)]
  refine congrArg some (Hint.ext e8 ?_ ?_ ?_)
  · show u64At (hintEncode h) 24 = h.checkpointTx
    rw [u64At, e24, leNat_leBytes_of_lt (lt_of_lt_of_le hv.checkpointTx (by norm_num))]
  · show u64At (hintEncode h) 32 = h.publishedTx
    rw [u64At, e32, leNat_leBytes_of_lt (lt_of_lt_of_le hv.publishedTx (by norm_num))]
  · show u32At (hintEncode h) 40 = h.publishedEnd
    rw [u32At, e40, leNat_leBytes_of_lt (lt_of_lt_of_le hv.publishedEnd (by norm_num))]

end

end PageWal
