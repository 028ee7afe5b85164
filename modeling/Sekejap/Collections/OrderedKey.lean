import Sekejap.Collections.Document
import Sekejap.Lib.ByteOrder
import Sekejap.Lib.Fallible

/-!
# Numbers in keys

A number in a key (`core/engine/src/collections/mod.rs`) is a byte that says its width and then its
bytes, highest first and without leading zeros.  It says where it ends, so it is read off the front of
whatever follows (`readOrdered_orderedInto`), and numbers keep their order (`partCode_orderedInto`).
-/

open Bytes Fallible

namespace Engine

/-- `ordered_into`: what is appended for a `u64`. -/
def orderedInto (n : ℕ) : Bytes :=
  let bytes := bigEndian 8 n
  let start := (bytes.findIdx? (· ≠ 0)).getD 7
  UInt8.ofNat (0x80 + (8 - start)) :: bytes.drop start

/-- `read_ordered`: the number at the front, and what follows it. -/
def readOrdered : Bytes → Except Error (ℕ × Bytes)
  | [] => .error (.corrupt "truncated integer key")
  | tag :: rest => do
      refuse (tag.toNat < 0x80) (.corrupt "integer key tag")
      let width := tag.toNat - 0x80
      refuse (¬ (1 ≤ width ∧ width ≤ 8)) (.corrupt "integer key width")
      refuse (rest.length < width) (.corrupt "truncated integer key")
      let bytes := rest.take width
      refuse (1 < width ∧ bytes.head? = some 0) (.corrupt "noncanonical integer key")
      pure (bytes.foldl (fun out b => out * 256 + b.toNat) 0, rest.drop width)

/-! ## The width of a number -/

/-- How many bytes a number takes without leading zeros, and one at least. -/
def widthOf (n : ℕ) : ℕ := 8 - ((bigEndian 8 n).findIdx? (· ≠ 0)).getD 7

variable {n m w : ℕ}

lemma bigEndian_add (w k n : ℕ) :
    bigEndian (w + k) n = bigEndian w (n / 256 ^ k) ++ bigEndian k n := by
  induction k generalizing n with
  | zero => simp [bigEndian, leBytes]
  | succ k ih =>
      have hsplit : ∀ j z, bigEndian (j + 1) z = bigEndian j (z / 256) ++ [UInt8.ofNat z] := by
        intro j z
        simp [bigEndian, leBytes]
      rw [← Nat.add_assoc, hsplit, hsplit, ih, Nat.div_div_eq_div_mul, ← pow_succ', List.append_assoc]

lemma bigEndian_zero (w : ℕ) : ∀ b ∈ bigEndian w 0, b = 0 := by
  induction w with
  | zero => simp [bigEndian, leBytes]
  | succ w ih =>
      simp only [bigEndian, List.mem_reverse] at ih
      simpa [bigEndian, leBytes, or_imp, forall_and] using ih

/-- A number whose bytes are all zero is zero. -/
lemma eq_zero_of_bigEndian (h : n < 256 ^ w) (hzero : ∀ b ∈ bigEndian w n, b = 0) : n = 0 := by
  have hsame : bigEndian w n = bigEndian w 0 := by
    have hn := List.eq_replicate_iff.mpr ⟨length_bigEndian w n, hzero⟩
    have h0 := List.eq_replicate_iff.mpr ⟨length_bigEndian w 0, bigEndian_zero w⟩
    rw [hn, h0]
  rw [← bigEndianNat_bigEndian h, hsame, bigEndianNat_bigEndian (by positivity)]

/-- What the first byte that is not zero says of the number. -/
lemma find_spec {i : ℕ} (h : n < 256 ^ 8) (hi : (bigEndian 8 n).findIdx? (· ≠ 0) = some i) :
    i < 8 ∧ n < 256 ^ (8 - i) ∧ 256 ^ (7 - i) ≤ n := by
  obtain ⟨hlt, hne, hbefore⟩ := List.findIdx?_eq_some_iff_getElem.mp hi
  rw [length_bigEndian] at hlt
  refine ⟨hlt, ?_, ?_⟩
  · -- the bytes before it are those of the quotient
    have hsum : i + (8 - i) = 8 := by omega
    have hsplit := bigEndian_add i (8 - i) n
    rw [hsum] at hsplit
    have hquot : n / 256 ^ (8 - i) < 256 ^ i := by
      refine Nat.div_lt_of_lt_mul ?_
      rwa [← pow_add, Nat.add_comm, hsum]
    have hzero : ∀ b ∈ bigEndian i (n / 256 ^ (8 - i)), b = 0 := by
      intro b hb
      obtain ⟨j, hj, rfl⟩ := List.getElem_of_mem hb
      rw [length_bigEndian] at hj
      have := hbefore j hj
      simpa [hsplit, hj] using this
    have := eq_zero_of_bigEndian hquot hzero
    exact (Nat.div_eq_zero_iff_lt (by positivity)).mp this
  · by_contra hsmall
    have hsum : i + 1 + (7 - i) = 8 := by omega
    have hsplit := bigEndian_add (i + 1) (7 - i) n
    rw [hsum, Nat.div_eq_of_lt (not_le.mp hsmall)] at hsplit
    have htake : (bigEndian 8 n).take (i + 1) = bigEndian (i + 1) 0 := by
      rw [hsplit]
      exact List.take_left' (length_bigEndian _ _)
    have hmem : (bigEndian 8 n)[i] ∈ bigEndian (i + 1) 0 := by
      rw [← htake]
      exact List.mem_take_iff_getElem.mpr ⟨i, by simp [hlt], rfl⟩
    exact absurd (bigEndian_zero _ _ hmem) (of_decide_eq_true hne)

/-- **The width of a number**: it takes that many bytes, and no fewer. -/
lemma widthOf_spec (h : n < 256 ^ 8) :
    1 ≤ widthOf n ∧ widthOf n ≤ 8 ∧ n < 256 ^ widthOf n ∧
      (1 < widthOf n → 256 ^ (widthOf n - 1) ≤ n) := by
  rw [widthOf]
  cases hi : (bigEndian 8 n).findIdx? (· ≠ 0) with
  | none =>
      have hzero : n = 0 := by
        refine eq_zero_of_bigEndian h fun b hb => ?_
        simpa using List.findIdx?_eq_none_iff.mp hi b hb
      simp [hzero]
  | some i =>
      obtain ⟨hlt, hn, hle⟩ := find_spec h hi
      rw [Option.getD_some]
      refine ⟨by omega, by omega, hn, fun _ => ?_⟩
      have hsub : 8 - i - 1 = 7 - i := by omega
      rwa [hsub]

/-- What is written for a number. -/
lemma orderedInto_eq (h : n < 256 ^ 8) :
    orderedInto n = UInt8.ofNat (0x80 + widthOf n) :: bigEndian (widthOf n) n := by
  obtain ⟨-, hle, -, -⟩ := widthOf_spec h
  have hsum : 8 - widthOf n + widthOf n = 8 := Nat.sub_add_cancel hle
  have hstart : ((bigEndian 8 n).findIdx? (· ≠ 0)).getD 7 = 8 - widthOf n := by
    rw [widthOf]
    cases hi : (bigEndian 8 n).findIdx? (· ≠ 0) with
    | none => rfl
    | some i =>
        have := (find_spec h hi).1
        rw [Option.getD_some]
        omega
  have hdrop : (bigEndian 8 n).drop (8 - widthOf n) = bigEndian (widthOf n) n := by
    have hsplit := bigEndian_add (8 - widthOf n) (widthOf n) n
    rw [hsum] at hsplit
    rw [hsplit]
    exact List.drop_left' (length_bigEndian _ _)
  simp only [orderedInto, hstart, hdrop, Nat.sub_sub_self hle]

/-! ## Reading -/

lemma toNat_tag (h : w ≤ 8) : (UInt8.ofNat (0x80 + w)).toNat = 0x80 + w := by
  rw [UInt8.toNat_ofNat']
  omega

lemma foldl_eq_bigEndianNat (b : Bytes) :
    b.foldl (fun out b => out * 256 + b.toNat) 0 = bigEndianNat b := by
  have hrev : ∀ r : Bytes, r.reverse.foldl (fun out b => out * 256 + b.toNat) 0 = leNat r := by
    intro r
    induction r with
    | nil => rfl
    | cons x r ih =>
        rw [List.reverse_cons, List.foldl_append, ih, leNat, List.foldl_cons, List.foldl_nil]
        omega
  rw [bigEndianNat, ← hrev, List.reverse_reverse]

/-- No leading zero. -/
lemma head_bigEndian (hw : 1 < w) (hle : 256 ^ (w - 1) ≤ n) (hn : n < 256 ^ w) :
    (bigEndian w n).head? ≠ some 0 := by
  have hsum : 1 + (w - 1) = w := by omega
  have hsplit := bigEndian_add 1 (w - 1) n
  rw [hsum] at hsplit
  have hlt : n / 256 ^ (w - 1) < 256 := by
    refine Nat.div_lt_of_lt_mul ?_
    rwa [← pow_succ, Nat.sub_add_cancel (by omega)]
  have hpos : 0 < n / 256 ^ (w - 1) := Nat.div_pos hle (by positivity)
  have hone : bigEndian 1 (n / 256 ^ (w - 1)) = [UInt8.ofNat (n / 256 ^ (w - 1))] := rfl
  rw [hsplit, hone]
  intro h
  have hzero : UInt8.ofNat (n / 256 ^ (w - 1)) = 0 := by simpa using h
  have := congrArg UInt8.toNat hzero
  rw [UInt8.toNat_ofNat', Nat.mod_eq_of_lt hlt] at this
  exact hpos.ne' this

/-- **A number is read off the front of whatever follows it.** -/
lemma readOrdered_orderedInto (h : n < 256 ^ 8) (rest : Bytes) :
    readOrdered (orderedInto n ++ rest) = .ok (n, rest) := by
  obtain ⟨hone, hle, hn, hlead⟩ := widthOf_spec h
  rw [orderedInto_eq h, List.cons_append, readOrdered]
  have hwidth : (UInt8.ofNat (0x80 + widthOf n)).toNat - 0x80 = widthOf n := by
    rw [toNat_tag hle, Nat.add_sub_cancel_left]
  have htake : (bigEndian (widthOf n) n ++ rest).take (widthOf n) = bigEndian (widthOf n) n :=
    List.take_left' (length_bigEndian _ _)
  have hdrop : (bigEndian (widthOf n) n ++ rest).drop (widthOf n) = rest :=
    List.drop_left' (length_bigEndian _ _)
  have htag : ¬ (UInt8.ofNat (0x80 + widthOf n)).toNat < 0x80 := by
    rw [toNat_tag hle]
    omega
  have hlen : ¬ (bigEndian (widthOf n) n ++ rest).length < widthOf n := by simp
  have hhead : ¬ (1 < widthOf n ∧ (bigEndian (widthOf n) n).head? = some 0) := fun hc =>
    head_bigEndian hc.1 (hlead hc.1) hn hc.2
  simp only [hwidth, htake, hdrop, refuse, htag, hlen, hhead, hone, hle, and_self, not_true_eq_false,
    if_false, foldl_eq_bigEndianNat, bigEndianNat_bigEndian hn]
  rfl

/-! ## Order -/

/-- **Numbers keep their order.** -/
lemma partCode_orderedInto : PartCode orderedInto (· < 256 ^ 8) where
  before := by
    intro x y hx hy h
    obtain ⟨-, hlex, -, hleadx⟩ := widthOf_spec hx
    obtain ⟨honey, hley, hny, -⟩ := widthOf_spec hy
    rw [orderedInto_eq hx, orderedInto_eq hy]
    rcases lt_trichotomy (widthOf x) (widthOf y) with hlt | heq | hgt
    · refine before_cons ?_
      rw [UInt8.lt_iff_toNat_lt, toNat_tag hlex, toNat_tag hley]
      omega
    · rw [heq]
      exact (before_bigEndian h hny).after (c := [_])
    · -- the wider number is no less
      have hwide := hleadx (by omega)
      have hpow : 256 ^ widthOf y ≤ 256 ^ (widthOf x - 1) := Nat.pow_le_pow_right (by norm_num) (by omega)
      omega
  ne_nil := by
    intro x h
    cases h

end Engine
