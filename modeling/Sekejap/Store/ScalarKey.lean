import Mathlib.Data.Nat.Bitwise
import Sekejap.Lib.ByteOrder
import Sekejap.Lib.Rounding
import Sekejap.Collections.BinaryJson

/-!
# Scalar index keys as bytes

A scalar key (`core/engine/src/store/scalar_key.rs`) is a tag and a value written so that the order of the
bytes is that of the values, whatever follows: sign-flipped big-endian numbers, and texts with their zero
bytes escaped.  `decode` reads a key off the front of a longer one, and `width` only steps over it.

* **`encode_scalars`** — keys keep the order of their values, over any suffixes, and are read back; what
  is read is the key of a value.
* **`width_decode_iff`** — stepping over a key agrees with reading it, but for a text that is not UTF-8.
-/

open Bytes

open Fallible

namespace Engine

namespace ScalarKey

/-! ## Writing -/

/-- `SIGN` -/
def sign : UInt64 := 0x8000000000000000

/-- `tag` -/
def tag : Kind → Option UInt8
  | .bool => some 1
  | .int => some 2
  | .real => some 3
  | .text => some 4
  | _ => none

/-- `to_be_bytes` of a `u64`. -/
def toBeBytes (x : UInt64) : Bytes := bigEndian 8 x.toNat

/-- `from_be_bytes` of a `u64`. -/
def fromBeBytes (b : Bytes) : UInt64 := UInt64.ofNat (bigEndianNat b)

/-- The bits of a float, put in order. -/
def ordered (bits : UInt64) : UInt64 := if bits &&& sign ≠ 0 then ~~~bits else bits ^^^ sign

/-- The bits of a float from those put in order. -/
def unordered (ordered : UInt64) : UInt64 :=
  if ordered &&& sign ≠ 0 then ordered ^^^ sign else ~~~ordered

/-- The bits a float has in a key; the two zeros share one. -/
def keyBits (n : ℕ) : UInt64 := if n % 2 ^ 63 = 0 then 0 else UInt64.ofNat n

/-- `encode_into` of a value that is there. -/
def encodeValue (tag : UInt8) (kind : Kind) (value : Value) : Except Error Bytes :=
  match kind with
  | .bool => do
      let b ← required value.asBool "scalar Bool value required"
      pure [tag, if b then 1 else 0]
  | .int => do
      let n ← required value.asI64 "scalar i64 value required"
      pure (tag :: toBeBytes ((Int64.ofInt n).toUInt64 ^^^ sign))
  | .real => do
      let n ← required (value.asF64.filter isFinite) "finite scalar Real value required"
      pure (tag :: toBeBytes (ordered (keyBits n)))
  | .text => do
      let s ← required value.asStr "scalar Text value required"
      refuse (s.utf8ByteSize > textLimit)
        (.invalid "scalar Text index value exceeds 1024 UTF-8 bytes")
      pure (tag :: (escape (utf8 s) ++ [0, 0]))
  | _ => .error (.invalid "scalar index requires Bool, Int, Real, or Text")

/-- `encode_into` -/
def encodeInto (kind : Kind) (value : Option Value) : Except Error Bytes := do
  let tag ← required (tag kind) "scalar index requires Bool, Int, Real, or Text"
  match value.filter fun v => !v.isNull with
  | none => pure [0]
  | some value => encodeValue tag kind value

/-! ## Reading -/

/-- `String::from_utf8` of the bytes of a text. -/
def textOf (out : Bytes) : Except Error Value :=
  match String.fromUTF8? ⟨out.toArray⟩ with
  | some s => .ok (.string s)
  | none => .error (.corrupt "invalid UTF-8 scalar key")

/-- The loop of `decode` over a text: the bytes so far, where it stands, and what is left. -/
def decodeText (out : Bytes) (position : ℕ) : Bytes → Except Error (Value × ℕ)
  | [] => .error (.corrupt "unterminated scalar Text key")
  | b :: rest =>
      if b = 0 then
        match rest with
        | 0 :: _ => do
            let s ← textOf out
            pure (s, position + 2)
        | 255 :: rest =>
            if out.length = textLimit then
              .error (.corrupt "scalar Text key exceeds 1024 UTF-8 bytes")
            else decodeText (out ++ [b]) (position + 2) rest
        | _ => .error (.corrupt "invalid scalar Text escape")
      else if out.length = textLimit then
        .error (.corrupt "scalar Text key exceeds 1024 UTF-8 bytes")
      else decodeText (out ++ [b]) (position + 1) rest

/-- The loop of `width` over a text: the bytes counted, where it stands, and what is left. -/
def widthText (length position : ℕ) : Bytes → Except Error ℕ
  | [] => .error (.corrupt "unterminated scalar Text key")
  | b :: rest =>
      if b = 0 then
        match rest with
        | 0 :: _ => .ok (position + 2)
        | 255 :: rest =>
            if length = textLimit then
              .error (.corrupt "scalar Text key exceeds 1024 UTF-8 bytes")
            else widthText (length + 1) (position + 2) rest
        | _ => .error (.corrupt "invalid scalar Text escape")
      else if length = textLimit then
        .error (.corrupt "scalar Text key exceeds 1024 UTF-8 bytes")
      else widthText (length + 1) (position + 1) rest

/-- The eight bytes of a number. -/
def numeric (rest : Bytes) : Except Error Bytes :=
  if 8 ≤ rest.length then .ok (rest.take 8) else .error (.corrupt "truncated scalar numeric key")

/-- A float that is no float of a key: not finite, or the negative zero. -/
def noncanonical (bits : UInt64) : Bool := !isFinite bits.toNat || decide (bits = sign)

/-- `decode`: the value at the front, and how many bytes it takes. -/
def decode (kind : Kind) (bytes : Bytes) : Except Error (Value × ℕ) := do
  let expected ← orElse (tag kind) (.corrupt "unsupported scalar index kind")
  match bytes with
  | [] => .error (.corrupt "missing scalar key tag")
  | actual :: rest =>
      if actual = 0 then .ok (.null, 1)
      else if actual ≠ expected then
        .error (.corrupt "scalar key tag does not match declared kind")
      else
        match kind with
        | .bool =>
            match rest with
            | 0 :: _ => .ok (.bool false, 2)
            | 1 :: _ => .ok (.bool true, 2)
            | _ => .error (.corrupt "invalid scalar Bool key")
        | .int => do
            let encoded ← numeric rest
            pure (.number (.int (fromBeBytes encoded ^^^ sign).toInt64.toInt), 9)
        | .real => do
            let encoded ← numeric rest
            let bits := unordered (fromBeBytes encoded)
            refuse (noncanonical bits = true)
              (.corrupt "noncanonical or nonfinite scalar Real key")
            pure (.number (.float bits.toNat), 9)
        | .text => decodeText [] 1 rest
        | _ => .error (.corrupt "unsupported scalar index kind")

/-- `width`: how many bytes the key at the front takes. -/
def width (kind : Kind) (bytes : Bytes) : Except Error ℕ := do
  let expected ← orElse (tag kind) (.corrupt "unsupported scalar index kind")
  match bytes with
  | [] => .error (.corrupt "missing scalar key tag")
  | actual :: rest =>
      if actual = 0 then .ok 1
      else if actual ≠ expected then
        .error (.corrupt "scalar key tag does not match declared kind")
      else
        match kind with
        | .bool =>
            match rest with
            | 0 :: _ => .ok 2
            | 1 :: _ => .ok 2
            | _ => .error (.corrupt "invalid scalar Bool key")
        | .int =>
            if (actual :: rest).length < 9 then .error (.corrupt "truncated scalar numeric key")
            else .ok 9
        | .real => do
            let encoded ← numeric rest
            let bits := unordered (fromBeBytes encoded)
            refuse (noncanonical bits = true)
              (.corrupt "noncanonical or nonfinite scalar Real key")
            pure 9
        | .text => widthText 0 1 rest
        | _ => .error (.corrupt "unsupported scalar index kind")

/-! ## The bits -/

lemma xor_two_pow (i x : ℕ) (h : x < 2 ^ i) : x ^^^ 2 ^ i = 2 ^ i + x := by
  refine Nat.eq_of_testBit_eq fun j => ?_
  rw [Nat.testBit_xor, Nat.testBit_two_pow]
  rcases lt_trichotomy j i with hlt | rfl | hgt
  · rw [Nat.testBit_two_pow_add_gt hlt, decide_eq_false hlt.ne', Bool.xor_false]
  · rw [Nat.testBit_two_pow_add_eq, decide_eq_true rfl, Bool.xor_true]
  · have h1 : x < 2 ^ j := h.trans (Nat.pow_lt_pow_right (by norm_num) hgt)
    have h2 : 2 ^ i + x < 2 ^ j := by
      have : 2 ^ (i + 1) ≤ 2 ^ j := Nat.pow_le_pow_right (by norm_num) hgt
      rw [pow_succ] at this
      omega
    rw [Nat.testBit_lt_two_pow h1, Nat.testBit_lt_two_pow h2, decide_eq_false hgt.ne, Bool.xor_false]

/-- The sign bit is flipped. -/
lemma toNat_xor_sign (x : UInt64) :
    (x ^^^ sign).toNat = if x.toNat < 2 ^ 63 then 2 ^ 63 + x.toNat else x.toNat - 2 ^ 63 := by
  have hsign : sign.toNat = 2 ^ 63 := rfl
  rw [UInt64.toNat_xor, hsign]
  split_ifs with h
  · exact xor_two_pow 63 _ h
  · have hlt := x.toNat_lt
    obtain ⟨y, hy⟩ := Nat.exists_eq_add_of_le (not_lt.1 h)
    have hy' : y < 2 ^ 63 := by omega
    rw [hy, Nat.add_sub_cancel_left, ← xor_two_pow 63 y hy', Nat.xor_assoc, Nat.xor_self, Nat.xor_zero]

lemma and_sign (x : UInt64) : x &&& sign ≠ 0 ↔ 2 ^ 63 ≤ x.toNat := by
  have hsign : sign.toNat = 2 ^ 63 := rfl
  rw [ne_eq, ← UInt64.toNat_inj, UInt64.toNat_and, hsign, Nat.and_two_pow, UInt64.toNat_zero]
  have hlt := x.toNat_lt
  by_cases h : 2 ^ 63 ≤ x.toNat
  · have hbit : x.toNat.testBit 63 = true := by
      rw [Nat.testBit_eq_decide_div_mod_eq, decide_eq_true_iff]
      omega
    simp only [hbit, Bool.toNat_true, Nat.one_mul, h, iff_true]
    norm_num
  · have hbit : x.toNat.testBit 63 = false := Nat.testBit_lt_two_pow (not_le.1 h)
    simp only [hbit, Bool.toNat_false, Nat.zero_mul, not_true_eq_false, h]

/-- What puts the bits of a float in order. -/
lemma toNat_ordered (x : UInt64) :
    (ordered x).toNat = if x.toNat < 2 ^ 63 then 2 ^ 63 + x.toNat else 2 ^ 64 - 1 - x.toNat := by
  rw [ordered]
  by_cases h : x.toNat < 2 ^ 63
  · rw [if_neg (by rw [and_sign]; omega), toNat_xor_sign, if_pos h, if_pos h]
  · rw [if_pos (by rw [and_sign]; omega), if_neg h, UInt64.toNat_not]
    rfl

lemma toNat_unordered (x : UInt64) :
    (unordered x).toNat = if x.toNat < 2 ^ 63 then 2 ^ 64 - 1 - x.toNat else x.toNat - 2 ^ 63 := by
  rw [unordered]
  by_cases h : x.toNat < 2 ^ 63
  · rw [if_neg (by rw [and_sign]; omega), if_pos h, UInt64.toNat_not]
    rfl
  · rw [if_pos (by rw [and_sign]; omega), toNat_xor_sign, if_neg h, if_neg h]

lemma unordered_ordered (x : UInt64) : unordered (ordered x) = x := by
  have hlt := x.toNat_lt
  rw [← UInt64.toNat_inj, toNat_unordered, toNat_ordered]
  split_ifs <;> omega

lemma ordered_unordered (x : UInt64) : ordered (unordered x) = x := by
  have hlt := x.toNat_lt
  rw [← UInt64.toNat_inj, toNat_ordered, toNat_unordered]
  split_ifs <;> omega

lemma xor_sign_xor_sign (x : UInt64) : x ^^^ sign ^^^ sign = x := by
  rw [UInt64.xor_assoc, UInt64.xor_self, UInt64.xor_zero]

@[simp] lemma length_toBeBytes (x : UInt64) : (toBeBytes x).length = 8 := length_bigEndian 8 _

lemma fromBeBytes_toBeBytes (x : UInt64) : fromBeBytes (toBeBytes x) = x := by
  rw [fromBeBytes, toBeBytes, bigEndianNat_bigEndian (by have := x.toNat_lt; norm_num at *; omega),
    UInt64.ofNat_toNat]

lemma toBeBytes_fromBeBytes {b : Bytes} (h : b.length = 8) : toBeBytes (fromBeBytes b) = b := by
  have hlt := bigEndianNat_lt b
  rw [h] at hlt
  rw [toBeBytes, fromBeBytes, UInt64.toNat_ofNat_of_lt' (by norm_num [UInt64.size] at *; omega),
    bigEndian_bigEndianNat h]

lemma before_toBeBytes {x y : UInt64} (h : x.toNat < y.toNat) : Before (toBeBytes x) (toBeBytes y) :=
  before_bigEndian h (by have := y.toNat_lt; norm_num at *; omega)

/-! ## Texts -/

section Texts

variable {out p s b : Bytes} {position length n : ℕ} {v : Value}

section

attribute [local simp] decodeText widthText

lemma decodeText_cons {x : UInt8} (hx : x ≠ 0) (hlen : out.length ≠ textLimit) :
    decodeText out position (x :: b) = decodeText (out ++ [x]) (position + 1) b := by
  rw [decodeText.eq_def]
  simp only [if_neg hx, if_neg hlen]

lemma decodeText_zero (hlen : out.length ≠ textLimit) :
    decodeText out position (0 :: 255 :: b) = decodeText (out ++ [0]) (position + 2) b := by
  simp [hlen]

lemma widthText_cons {x : UInt8} (hx : x ≠ 0) (hlen : length ≠ textLimit) :
    widthText length position (x :: b) = widthText (length + 1) (position + 1) b := by
  rw [widthText.eq_def]
  simp only [if_neg hx, if_neg hlen]

lemma widthText_zero (hlen : length ≠ textLimit) :
    widthText length position (0 :: 255 :: b) = widthText (length + 1) (position + 2) b := by
  simp [hlen]

end

lemma decodeText_escape (h : out.length + p.length ≤ textLimit) :
    decodeText out position (escape p ++ 0 :: 0 :: s)
      = (textOf (out ++ p)).map fun t => (t, position + (escape p).length + 2) := by
  induction p generalizing out position with
  | nil =>
      rw [escape_nil, List.append_nil, List.nil_append, decodeText.eq_def]
      cases textOf out <;> rfl
  | cons x p ih =>
      rw [List.length_cons] at h
      have hlen : out.length ≠ textLimit := by omega
      have hnext : (out ++ [x]).length + p.length ≤ textLimit := by
        rw [List.length_append, List.length_singleton]
        omega
      by_cases hx : x = 0
      · subst hx
        rw [escape_zero, List.cons_append, List.cons_append, decodeText_zero hlen, ih hnext,
          List.append_assoc, List.singleton_append, List.length_cons, List.length_cons]
        congr
        funext t
        congr 2
        omega
      · rw [escape_cons hx, List.cons_append, decodeText_cons hx hlen, ih hnext, List.append_assoc,
          List.singleton_append, List.length_cons]
        congr
        funext t
        congr 2
        omega

lemma decodeText_ok (h : decodeText out position b = .ok (v, n)) (hout : out.length ≤ textLimit) :
    ∃ p s, b = escape p ++ 0 :: 0 :: s ∧ out.length + p.length ≤ textLimit
      ∧ textOf (out ++ p) = .ok v ∧ n = position + (escape p).length + 2 := by
  fun_induction decodeText out position b with
  | case1 => cases h
  | case2 out position rest =>
      simp only [bind_eq_ok, pure_eq_ok, Prod.mk.injEq] at h
      obtain ⟨t, ht, rfl, rfl⟩ := h
      exact ⟨[], rest, rfl, by simpa using hout, by simpa using ht, by simp⟩
  | case3 => cases h
  | case4 out position rest hne ih =>
      obtain ⟨p, s, rfl, hlen, ht, rfl⟩ := ih h (by simp; omega)
      rw [List.length_append, List.length_singleton] at hlen
      refine ⟨0 :: p, s, rfl, by rw [List.length_cons]; omega, by simpa using ht, ?_⟩
      rw [escape_zero, List.length_cons, List.length_cons]
      omega
  | case5 => cases h
  | case6 => cases h
  | case7 out position x rest hx hne ih =>
      obtain ⟨p, s, rfl, hlen, ht, rfl⟩ := ih h (by simp; omega)
      rw [List.length_append, List.length_singleton] at hlen
      refine ⟨x :: p, s, by rw [escape_cons hx]; rfl, by rw [List.length_cons]; omega,
        by simpa using ht, ?_⟩
      rw [escape_cons hx, List.length_cons]
      omega

lemma widthText_escape (h : length + p.length ≤ textLimit) :
    widthText length position (escape p ++ 0 :: 0 :: s) = .ok (position + (escape p).length + 2) := by
  induction p generalizing length position with
  | nil => simp [widthText]
  | cons x p ih =>
      rw [List.length_cons] at h
      have hlen : length ≠ textLimit := by omega
      by_cases hx : x = 0
      · subst hx
        rw [escape_zero, List.cons_append, List.cons_append, widthText_zero hlen, ih (by omega),
          List.length_cons, List.length_cons]
        congr 1
        omega
      · rw [escape_cons hx, List.cons_append, widthText_cons hx hlen, ih (by omega),
          List.length_cons]
        congr 1
        omega

lemma widthText_ok (h : widthText length position b = .ok n) (hlength : length ≤ textLimit) :
    ∃ p s, b = escape p ++ 0 :: 0 :: s ∧ length + p.length ≤ textLimit := by
  fun_induction widthText length position b with
  | case1 => cases h
  | case2 length position rest => exact ⟨[], rest, rfl, by simpa using hlength⟩
  | case3 => cases h
  | case4 length position rest hne ih =>
      obtain ⟨p, s, rfl, hlen⟩ := ih h (by omega)
      exact ⟨0 :: p, s, rfl, by rw [List.length_cons]; omega⟩
  | case5 => cases h
  | case6 => cases h
  | case7 length position x rest hx hne ih =>
      obtain ⟨p, s, rfl, hlen⟩ := ih h (by omega)
      exact ⟨x :: p, s, by rw [escape_cons hx]; rfl, by rw [List.length_cons]; omega⟩

end Texts

/-! ## Numbers -/

/-- The key of an integer is the integer, moved up. -/
lemma toNat_int64 (x : Int64) : ((x.toUInt64 ^^^ sign).toNat : ℤ) = x.toInt + 2 ^ 63 := by
  have hx : x.toInt = if 2 * x.toUInt64.toNat < 2 ^ 64 then (x.toUInt64.toNat : ℤ)
      else x.toUInt64.toNat - 2 ^ 64 := BitVec.toInt_eq_toNat_cond x.toBitVec
  have hlt := x.toUInt64.toNat_lt
  rw [toNat_xor_sign, hx]
  split_ifs <;> omega

lemma toInt_ofInt {n : ℤ} (h : -2 ^ 63 ≤ n ∧ n < 2 ^ 63) : (Int64.ofInt n).toInt = n :=
  Int64.toInt_ofInt_of_le (by simpa [Int64.minValue] using h.1) (by simpa using h.2)

section Reals

variable {x y : ℕ}

lemma toNat_keyBits (h : x < 2 ^ 64) : (keyBits x).toNat = if x % 2 ^ 63 = 0 then 0 else x := by
  rw [keyBits]
  split_ifs
  · rfl
  · exact UInt64.toNat_ofNat_of_lt' h

open Ieee (f64)

lemma value_of_lt (h : x < 2 ^ 63) : f64.value x = f64.magnitude x := by
  have hneg : f64.isNegative x = false := decide_eq_false (not_le.2 h)
  simp [Ieee.Format.value, hneg]

lemma value_of_le (h : 2 ^ 63 ≤ x) : f64.value x = -f64.magnitude (x - 2 ^ 63) := by
  have hneg : f64.isNegative x = true := decide_eq_true h
  simp only [Ieee.Format.value, hneg, if_true]
  rfl

lemma value_keyBits (h : x < 2 ^ 64) : f64.value (keyBits x).toNat = f64.value x := by
  rw [toNat_keyBits h]
  split_ifs with h0
  · rw [value_of_lt (by norm_num), Ieee.Format.magnitude_zero]
    rcases lt_or_ge x (2 ^ 63) with hlt | hge
    · have : x = 0 := by omega
      rw [this, value_of_lt (by norm_num), Ieee.Format.magnitude_zero]
    · have : x - 2 ^ 63 = 0 := by omega
      rw [value_of_le hge, this, Ieee.Format.magnitude_zero, neg_zero]
  · rfl

/-- **The keys of floats are in the order of the floats.** -/
lemma ordered_lt {a b : UInt64} (ha : a.toNat ≠ 2 ^ 63) (hb : b.toNat ≠ 2 ^ 63) :
    (ordered a).toNat < (ordered b).toNat ↔ f64.value a.toNat < f64.value b.toNat := by
  have hf : 0 < f64.bias + f64.mantissa := by decide
  have hlt : ∀ {x y}, f64.magnitude x < f64.magnitude y ↔ x < y := Ieee.Format.magnitude_lt hf
  have hpos : ∀ x, x ≠ 0 → 0 < f64.magnitude x := by
    intro x hx
    rw [← Ieee.Format.magnitude_zero (f := f64), hlt]
    exact Nat.pos_of_ne_zero hx
  have ha' := a.toNat_lt
  have hb' := b.toNat_lt
  rw [toNat_ordered, toNat_ordered]
  rcases lt_or_ge a.toNat (2 ^ 63) with h1 | h1 <;> rcases lt_or_ge b.toNat (2 ^ 63) with h2 | h2
  · rw [if_pos h1, if_pos h2, value_of_lt h1, value_of_lt h2, hlt]
    omega
  · rw [if_pos h1, if_neg (not_lt.2 h2), value_of_lt h1, value_of_le h2]
    have := Ieee.Format.magnitude_nonneg (f := f64) a.toNat
    have := hpos (b.toNat - 2 ^ 63) (by omega)
    refine iff_of_false (by omega) ?_
    linarith
  · rw [if_neg (not_lt.2 h1), if_pos h2, value_of_le h1, value_of_lt h2]
    have := Ieee.Format.magnitude_nonneg (f := f64) b.toNat
    have := hpos (a.toNat - 2 ^ 63) (by omega)
    refine iff_of_true (by omega) ?_
    linarith
  · rw [if_neg (not_lt.2 h1), if_neg (not_lt.2 h2), value_of_le h1, value_of_le h2, neg_lt_neg_iff, hlt]
    omega

lemma keyBits_ne (h : x < 2 ^ 64) : (keyBits x).toNat ≠ 2 ^ 63 := by
  rw [toNat_keyBits h]
  split_ifs <;> omega

lemma keyBits_lt (hx : x < 2 ^ 64) (hy : y < 2 ^ 64) (h : f64.value x < f64.value y) :
    (ordered (keyBits x)).toNat < (ordered (keyBits y)).toNat := by
  rwa [ordered_lt (keyBits_ne hx) (keyBits_ne hy), value_keyBits hx, value_keyBits hy]

lemma keyBits_eq (hx : x < 2 ^ 64) (hy : y < 2 ^ 64) (h : f64.value x = f64.value y) :
    keyBits x = keyBits y := by
  have h1 := ordered_lt (keyBits_ne hx) (keyBits_ne hy)
  have h2 := ordered_lt (keyBits_ne hy) (keyBits_ne hx)
  rw [value_keyBits hx, value_keyBits hy, h] at h1 h2
  have heq : ordered (keyBits x) = ordered (keyBits y) := by
    rw [← UInt64.toNat_inj]
    have := lt_irrefl (f64.value y)
    rcases lt_trichotomy (ordered (keyBits x)).toNat (ordered (keyBits y)).toNat with hlt | heq | hlt
    · exact absurd (h1.1 hlt) this
    · exact heq
    · exact absurd (h2.1 hlt) this
  rw [← unordered_ordered (keyBits x), heq, unordered_ordered]

end Reals

/-! ## The keys of an index -/

end ScalarKey

/-! ## What a key stands for -/

/-- A scalar: of a real what it is worth, of a text its bytes. -/
inductive Scalar where
  | null
  | bool (b : Bool)
  | int (n : ℤ)
  | real (q : ℚ)
  | text (b : Bytes)

/-- The order of the scalars of one kind: null first, texts by their bytes. -/
def Scalar.Less : Scalar → Scalar → Prop
  | null, null => False
  | null, _ => True
  | bool x, bool y => x < y
  | int x, int y => x < y
  | real x, real y => x < y
  | text x, text y => x < y
  | _, _ => False

namespace ScalarKey

/-- The scalar of a value of a kind, if it is one an index can hold; missing is null. -/
def scalarOf (kind : Kind) (value : Option Value) : Option Scalar :=
  if kind.isScalar then
    match value.filter fun v => !v.isNull with
    | none => some .null
    | some v =>
        match kind with
        | .bool => v.asBool.map .bool
        | .int => v.asI64.map .int
        | .real => (v.asF64.filter fun bits => isFinite bits && decide (bits < 2 ^ 64)).map fun bits =>
            .real (Ieee.f64.value bits)
        | .text => (v.asStr.filter fun s => decide (s.utf8ByteSize ≤ textLimit)).map fun s =>
            .text (utf8 s)
        | _ => none
  else none

/-- A value with its scalar and its key. -/
inductive KeyFor : Kind → Option Value → Scalar → Bytes → Prop
  | null {kind : Kind} {a : Option Value} (hk : kind.isScalar = true)
      (ha : a.filter (fun v => !v.isNull) = none) : KeyFor kind a .null [0]
  | bool {a : Option Value} {v : Value} {b : Bool} (ha : a.filter (fun v => !v.isNull) = some v)
      (hv : v.asBool = some b) : KeyFor .bool a (.bool b) [1, if b then 1 else 0]
  | int {a : Option Value} {v : Value} {n : ℤ} (ha : a.filter (fun v => !v.isNull) = some v)
      (hv : v.asI64 = some n) :
      KeyFor .int a (.int n) (2 :: toBeBytes ((Int64.ofInt n).toUInt64 ^^^ sign))
  | real {a : Option Value} {v : Value} {n : ℕ} (ha : a.filter (fun v => !v.isNull) = some v)
      (hv : v.asF64 = some n) (hfinite : isFinite n = true) (hn : n < 2 ^ 64) :
      KeyFor .real a (.real (Ieee.f64.value n)) (3 :: toBeBytes (ordered (keyBits n)))
  | text {a : Option Value} {v : Value} {s : String} (ha : a.filter (fun v => !v.isNull) = some v)
      (hv : v.asStr = some s) (hs : s.utf8ByteSize ≤ textLimit) :
      KeyFor .text a (.text (utf8 s)) (4 :: (escape (utf8 s) ++ [0, 0]))

section Keys

variable {kind : Kind} {a b : Option Value} {x y : Scalar} {k l s : Bytes} {v : Value} {n : ℕ}

lemma asI64_bounds {m : ℤ} (h : v.asI64 = some m) : -2 ^ 63 ≤ m ∧ m < 2 ^ 63 := by
  cases v with
  | number d =>
      cases d with
      | int z =>
          simp only [Value.asI64] at h
          split_ifs at h with hz
          cases h
          exact hz
      | float bits => cases h
  | null | bool | string | array | object => cases h

lemma keyFor_of_scalarOf (h : scalarOf kind a = some x) : ∃ k, KeyFor kind a x k := by
  rw [scalarOf] at h
  split_ifs at h with hk
  split at h
  · rename_i ha
    cases h
    exact ⟨_, .null hk ha⟩
  · rename_i v ha
    cases kind <;> simp only [Option.map_eq_some_iff, Option.filter_eq_some_iff, Bool.and_eq_true,
      decide_eq_true_eq, reduceCtorEq] at h
    · obtain ⟨s, ⟨hv, hs⟩, rfl⟩ := h
      exact ⟨_, .text ha hv hs⟩
    · obtain ⟨n, hv, rfl⟩ := h
      exact ⟨_, .int ha hv⟩
    · obtain ⟨n, ⟨hv, hfinite, hn⟩, rfl⟩ := h
      exact ⟨_, .real ha hv hfinite hn⟩
    · obtain ⟨b, hv, rfl⟩ := h
      exact ⟨_, .bool ha hv⟩

lemma KeyFor.scalarOf (h : KeyFor kind a x k) : scalarOf kind a = some x := by
  cases h with
  | null hk ha => simp [ScalarKey.scalarOf, hk, ha]
  | bool ha hv => simp [ScalarKey.scalarOf, Kind.isScalar, ha, hv]
  | int ha hv => simp [ScalarKey.scalarOf, Kind.isScalar, ha, hv]
  | real ha hv hfinite hn =>
      simp only [ScalarKey.scalarOf, Kind.isScalar, ha, hv, if_true, Option.map_eq_some_iff,
        Option.filter_eq_some_iff]
      exact ⟨_, ⟨rfl, by rw [hfinite, decide_eq_true hn]; rfl⟩, rfl⟩
  | text ha hv hs => simp [ScalarKey.scalarOf, Kind.isScalar, ha, hv, hs]

lemma KeyFor.encode (h : KeyFor kind a x k) : encodeInto kind a = .ok k := by
  cases h with
  | null hk ha =>
      rw [encodeInto, ha]
      cases kind <;> first | rfl | cases hk
  | bool ha hv =>
      rw [encodeInto, ha]
      simp [tag, required, encodeValue, hv]
  | int ha hv =>
      rw [encodeInto, ha]
      simp [tag, required, encodeValue, hv]
  | real ha hv hfinite hn =>
      rw [encodeInto, ha]
      simp only [tag, required, encodeValue, hv, bind_eq_ok, orElse_eq_ok, Option.filter_some_pos hfinite]
      exact ⟨3, rfl, _, rfl, rfl⟩
  | text ha hv hs =>
      rw [encodeInto, ha]
      simp only [tag, required, encodeValue, hv, bind_eq_ok, orElse_eq_ok, refuse_eq_ok, not_lt]
      exact ⟨4, rfl, _, rfl, (), hs, rfl⟩

/-- **The order of the scalars is that of the keys.** -/
lemma KeyFor.before (ha : KeyFor kind a x k) (hb : KeyFor kind b y l) (h : x.Less y) : Before k l := by
  cases ha with
  | null hk ha =>
      cases hb with
      | null => exact h.elim
      | bool | int | real | text => exact before_cons (by decide)
  | @bool _ _ p ha hv =>
      cases hb with
      | null => exact h.elim
      | @bool _ _ q hb hw =>
          have hlt : p < q := h
          obtain ⟨rfl, rfl⟩ := Bool.lt_iff.1 hlt
          exact (before_cons (by decide)).after (c := [1])
  | @int _ _ p ha hv =>
      cases hb with
      | null => exact h.elim
      | @int _ _ q hb hw =>
          have hlt : p < q := h
          have h1 := toNat_int64 (Int64.ofInt p)
          have h2 := toNat_int64 (Int64.ofInt q)
          rw [toInt_ofInt (asI64_bounds hv)] at h1
          rw [toInt_ofInt (asI64_bounds hw)] at h2
          exact (before_toBeBytes (by omega)).after (c := [2])
  | @real _ _ p ha hv _ hp =>
      cases hb with
      | null => exact h.elim
      | @real _ _ q hb hw _ hq => exact (before_toBeBytes (keyBits_lt hp hq h)).after (c := [3])
  | @text _ _ p ha hv hp =>
      cases hb with
      | null => exact h.elim
      | @text _ _ q hb hw hq => exact (before_escaped h).after (c := [4])

lemma KeyFor.unique (ha : KeyFor kind a x k) (hb : KeyFor kind b x l) : k = l := by
  cases ha with
  | null hk ha => cases hb with | null => rfl
  | bool ha hv => cases hb with | bool => rfl
  | int ha hv => cases hb with | int => rfl
  | @real _ _ p ha hv _ hp =>
      generalize hq : Ieee.f64.value p = q at hb
      cases hb with
      | @real _ _ r hb hw _ hr => rw [keyBits_eq hp hr hq]
  | @text _ _ p ha hv hp =>
      generalize hq : utf8 p = q at hb
      cases hb with
      | @text _ _ r hb hw hr => rfl

lemma textOf_utf8 (t : String) : textOf (utf8 t) = .ok (.string t) := by
  rw [textOf, fromUTF8_utf8]

lemma textOf_ok {out : Bytes} (h : textOf out = .ok v) : ∃ t, v = .string t ∧ utf8 t = out := by
  rw [textOf] at h
  split at h
  · rename_i t ht
    cases h
    refine ⟨t, rfl, ?_⟩
    rw [String.fromUTF8?] at ht
    split_ifs at ht with hvalid
    cases ht
    simp [utf8, String.fromUTF8]
  · cases h

lemma length_utf8 (t : String) : (utf8 t).length = t.utf8ByteSize := by
  simp [utf8]

lemma numeric_append {e : Bytes} (he : e.length = 8) : numeric (e ++ s) = .ok e := by
  rw [numeric, if_pos (by rw [List.length_append]; omega), ← he, List.take_left]

lemma numeric_ok {rest e : Bytes} (h : numeric rest = .ok e) : e.length = 8 ∧ ∃ s, rest = e ++ s := by
  rw [numeric] at h
  split_ifs at h with hlen
  cases h
  exact ⟨by rw [List.length_take]; omega, rest.drop 8, (List.take_append_drop 8 rest).symm⟩

lemma toNat_of_noncanonical {bits : UInt64} (h : noncanonical bits = false) :
    isFinite bits.toNat = true ∧ keyBits bits.toNat = bits := by
  simp only [noncanonical, Bool.or_eq_false_iff, Bool.not_eq_false', decide_eq_false_iff_not] at h
  refine ⟨h.1, ?_⟩
  have hne : bits.toNat ≠ 2 ^ 63 := fun heq => h.2 (UInt64.toNat_inj.1 heq)
  have hlt := bits.toNat_lt
  rw [← UInt64.toNat_inj, toNat_keyBits hlt]
  split_ifs with h0 <;> omega

lemma noncanonical_keyBits {p : ℕ} (hp : p < 2 ^ 64) (hfinite : isFinite p = true) :
    noncanonical (keyBits p) = false := by
  have hne : keyBits p ≠ sign := fun heq => keyBits_ne hp (congrArg UInt64.toNat heq)
  have hfin : isFinite (keyBits p).toNat = true := by
    rw [toNat_keyBits hp]
    split_ifs
    · rfl
    · exact hfinite
  simp [noncanonical, hfin, hne]

lemma decode_int (rest : Bytes) : ScalarKey.decode .int (2 :: rest)
    = (numeric rest >>= fun e => pure (.number (.int (fromBeBytes e ^^^ sign).toInt64.toInt), 9)) := rfl

lemma decode_real (rest : Bytes) : ScalarKey.decode .real (3 :: rest) = (numeric rest >>= fun e =>
    refuse (noncanonical (unordered (fromBeBytes e)) = true)
      (.corrupt "noncanonical or nonfinite scalar Real key") >>= fun _ =>
    pure (.number (.float (unordered (fromBeBytes e)).toNat), 9)) := rfl

/-- **A key is read back, whatever follows it.** -/
lemma KeyFor.decode (h : KeyFor kind a x k) (s : Bytes) :
    ∃ v l, ScalarKey.decode kind (k ++ s) = .ok (v, k.length) ∧ KeyFor kind (some v) x l := by
  cases h with
  | null hk ha =>
      refine ⟨.null, [0], ?_, .null hk rfl⟩
      cases kind <;> first | rfl | cases hk
  | @bool _ _ p ha hv =>
      cases p with
      | false => exact ⟨.bool false, _, rfl, .bool rfl rfl⟩
      | true => exact ⟨.bool true, _, rfl, .bool rfl rfl⟩
  | @int _ _ p ha hv =>
      have hp := asI64_bounds hv
      refine ⟨.number (.int p), _, ?_, .int rfl (by simp only [Value.asI64]; rw [if_pos hp])⟩
      rw [List.cons_append, decode_int, numeric_append (length_toBeBytes _), bind_eq_ok]
      refine ⟨_, rfl, ?_⟩
      rw [fromBeBytes_toBeBytes, xor_sign_xor_sign, Int64.toInt64_toUInt64, toInt_ofInt hp]
      simp
  | @real _ _ p ha hv hfinite hp =>
      have hcanon := noncanonical_keyBits hp hfinite
      obtain ⟨hfin, hbits⟩ := toNat_of_noncanonical hcanon
      refine ⟨.number (.float (keyBits p).toNat), 3 :: toBeBytes (ordered (keyBits (keyBits p).toNat)),
        ?_, ?_⟩
      · rw [List.cons_append, decode_real, numeric_append (length_toBeBytes _), bind_eq_ok]
        refine ⟨_, rfl, ?_⟩
        rw [fromBeBytes_toBeBytes, unordered_ordered, bind_eq_ok]
        exact ⟨(), by rw [refuse_eq_ok, hcanon]; simp, by simp⟩
      · rw [← value_keyBits hp]
        exact .real rfl rfl hfin (UInt64.toNat_lt _)
  | @text _ _ p ha hv hp =>
      refine ⟨.string p, _, ?_, .text rfl rfl hp⟩
      change decodeText [] 1 ((escape (utf8 p) ++ [0, 0]) ++ s) = _
      rw [List.append_assoc, List.cons_append, List.cons_append, List.nil_append,
        decodeText_escape (by rw [length_utf8]; simpa using hp), List.nil_append, textOf_utf8]
      simp only [Except.map, List.length_cons, List.length_append, List.length_nil]
      congr 2
      omega

/-- **What is read is the key of a value.** -/
lemma decode_keyFor {bytes : Bytes} (h : ScalarKey.decode kind bytes = .ok (v, n)) :
    ∃ x k s, KeyFor kind (some v) x k ∧ bytes = k ++ s ∧ n = k.length := by
  rw [ScalarKey.decode, bind_eq_ok] at h
  obtain ⟨expected, htag, h⟩ := h
  rw [orElse_eq_ok] at htag
  have hk : kind.isScalar = true := by cases kind <;> first | rfl | cases htag
  cases bytes with
  | nil => cases h
  | cons actual rest =>
      simp only at h
      split_ifs at h with h0 hne
      · cases h
        subst h0
        exact ⟨.null, [0], rest, .null hk rfl, rfl, rfl⟩
      · rw [not_not] at hne
        subst hne
        cases kind with
        | bool =>
            cases htag
            simp only at h
            split at h
            · cases h
              exact ⟨_, _, _, .bool (b := false) rfl rfl, rfl, rfl⟩
            · cases h
              exact ⟨_, _, _, .bool (b := true) rfl rfl, rfl, rfl⟩
            · cases h
        | int =>
            cases htag
            simp only [bind_eq_ok, pure_eq_ok, Prod.mk.injEq] at h
            obtain ⟨e, he, rfl, rfl⟩ := h
            obtain ⟨hlen, s, rfl⟩ := numeric_ok he
            generalize hx : (fromBeBytes e ^^^ sign).toInt64 = y
            have hb : -2 ^ 63 ≤ y.toInt ∧ y.toInt < 2 ^ 63 := ⟨y.le_toInt, y.toInt_lt⟩
            refine ⟨.int y.toInt, _, s, .int rfl (by simp only [Value.asI64]; rw [if_pos hb]), ?_, ?_⟩
            · have he' : toBeBytes ((Int64.ofInt y.toInt).toUInt64 ^^^ sign) = e := by
                rw [Int64.ofInt_toInt, ← hx, UInt64.toUInt64_toInt64, xor_sign_xor_sign,
                  toBeBytes_fromBeBytes hlen]
              rw [he']
              rfl
            · simp
        | real =>
            cases htag
            simp only [bind_eq_ok, pure_eq_ok, refuse_eq_ok, Bool.not_eq_true, Prod.mk.injEq] at h
            obtain ⟨e, he, _, hcanon, rfl, rfl⟩ := h
            obtain ⟨hlen, s, rfl⟩ := numeric_ok he
            obtain ⟨hfin, hbits⟩ := toNat_of_noncanonical hcanon
            refine ⟨_, _, s, .real rfl rfl hfin (UInt64.toNat_lt _), ?_, ?_⟩
            · rw [hbits, ordered_unordered, toBeBytes_fromBeBytes hlen]
              rfl
            · simp
        | text =>
            cases htag
            obtain ⟨p, s, rfl, hlen, ht, rfl⟩ := decodeText_ok h (Nat.zero_le _)
            obtain ⟨t, rfl, hutf⟩ := textOf_ok ht
            rw [List.nil_append] at hutf
            have hsize : t.utf8ByteSize ≤ textLimit := by
              rw [← length_utf8, hutf]
              simpa using hlen
            refine ⟨_, _, s, .text rfl rfl hsize, ?_, ?_⟩
            · rw [hutf]
              simp
            · rw [hutf]
              simp only [List.length_cons, List.length_append, List.length_nil]
              omega
        | json | geo | point | vector => cases hk

/-- **Scalar keys keep the order of their values and are read back.**  Of two values of a kind that an
index can hold, the keys are those of the scalars alone; the lesser value has the lesser key whatever
follows either; and a key is read back, with its length, as a value of the same scalar.  Whatever is read
is the key of a value, and a suffix. -/
theorem encode_scalars (kind : Kind) :
    (∀ a b x y, scalarOf kind a = some x → scalarOf kind b = some y →
      ∃ k l, encodeInto kind a = .ok k ∧ encodeInto kind b = .ok l
        ∧ (x.Less y → ∀ s t, k ++ s < l ++ t) ∧ (x = y → k = l)
        ∧ ∀ s, ∃ v, ScalarKey.decode kind (k ++ s) = .ok (v, k.length)
          ∧ scalarOf kind (some v) = some x)
      ∧ ∀ bytes v n, ScalarKey.decode kind bytes = .ok (v, n) →
        ∃ k s, encodeInto kind (some v) = .ok k ∧ bytes = k ++ s ∧ n = k.length := by
  refine ⟨?_, ?_⟩
  · intro a b x y ha hb
    obtain ⟨k, hk⟩ := keyFor_of_scalarOf ha
    obtain ⟨l, hl⟩ := keyFor_of_scalarOf hb
    refine ⟨k, l, hk.encode, hl.encode, ?_, ?_, ?_⟩
    · intro hless s t
      exact (hk.before hl hless).append_lt
    · rintro rfl
      exact hk.unique hl
    · intro s
      obtain ⟨v, _, hv, hkey⟩ := hk.decode s
      exact ⟨v, hv, hkey.scalarOf⟩
  · intro bytes v n h
    obtain ⟨x, k, s, hk, hbytes, hn⟩ := decode_keyFor h
    exact ⟨k, s, hk.encode, hbytes, hn⟩

/-- A text with a zero byte, between one that it extends and one that is above it. -/
theorem encode_scalars_zero : ∃ k l, encodeInto .text (some (.string "a\x00")) = .ok k
    ∧ encodeInto .text (some (.string "aa")) = .ok l
    ∧ (Scalar.Less (.text [97, 0]) (.text [97, 97]) → ∀ s t, k ++ s < l ++ t)
    ∧ (Scalar.text [97, 0] = .text [97, 97] → k = l)
    ∧ ∀ s, ∃ v, ScalarKey.decode .text (k ++ s) = .ok (v, k.length)
      ∧ scalarOf .text (some v) = some (.text [97, 0]) :=
  (encode_scalars .text).1 _ _ _ _ rfl rfl

/-! ## Stepping over a key -/

/-- `width` and `decode` agree on a string: one succeeds when the other does, over as many bytes. -/
def WidthAgrees (kind : Kind) (bytes : Bytes) : Prop :=
  ∀ n, width kind bytes = .ok n ↔ ∃ v, ScalarKey.decode kind bytes = .ok (v, n)

/-- A text key in front, complete and not too long, whose text is not UTF-8. -/
def NotUtf8 (kind : Kind) (bytes : Bytes) : Prop :=
  kind = .text ∧ ∃ p s, bytes = 4 :: (escape p ++ 0 :: 0 :: s) ∧ p.length ≤ textLimit
    ∧ String.fromUTF8? ⟨p.toArray⟩ = none

lemma widthText_iff {rest : Bytes} (h : ¬ NotUtf8 .text (4 :: rest)) :
    widthText 0 1 rest = .ok n ↔ ∃ v, decodeText [] 1 rest = .ok (v, n) := by
  constructor
  · intro hw
    obtain ⟨p, s, rfl, hlen⟩ := widthText_ok hw (Nat.zero_le _)
    rw [Nat.zero_add] at hlen
    rw [widthText_escape (by simpa using hlen)] at hw
    cases hw
    rw [decodeText_escape (by simpa using hlen), List.nil_append, textOf]
    cases ht : String.fromUTF8? ⟨p.toArray⟩ with
    | none => exact absurd ⟨rfl, p, s, rfl, hlen, ht⟩ h
    | some t => exact ⟨.string t, rfl⟩
  · rintro ⟨v, hv⟩
    obtain ⟨p, s, rfl, hlen, -, rfl⟩ := decodeText_ok hv (Nat.zero_le _)
    exact widthText_escape (by simpa using hlen)

/-- **Stepping over a key agrees with reading it exactly where no text is not UTF-8.**  A cursor passes the
values it does not need with `width`, which makes no string of a text: of any other key both find the same
end or both refuse. -/
theorem width_decode_iff (kind : Kind) (bytes : Bytes) :
    WidthAgrees kind bytes ↔ ¬ NotUtf8 kind bytes := by
  constructor
  · rintro h ⟨rfl, p, s, rfl, hlen, ht⟩
    have hw : width .text (4 :: (escape p ++ 0 :: 0 :: s)) = .ok (1 + (escape p).length + 2) :=
      widthText_escape (by simpa using hlen)
    obtain ⟨v, hv⟩ := (h _).1 hw
    have hd : decodeText [] 1 (escape p ++ 0 :: 0 :: s) = .ok (v, 1 + (escape p).length + 2) := hv
    rw [decodeText_escape (by simpa using hlen), List.nil_append, textOf, ht] at hd
    cases hd
  · intro h n
    rw [width, ScalarKey.decode, bind_eq_ok]
    simp only [bind_eq_ok, orElse_eq_ok]
    cases htag : tag kind with
    | none => simp
    | some expected =>
        simp only [Option.some.injEq, exists_eq_left']
        cases bytes with
        | nil => simp
        | cons actual rest =>
            by_cases h0 : actual = 0
            · simp [h0, eq_comm]
            · by_cases hne : actual = expected
              · subst hne
                simp only [h0, if_false, ne_eq, not_true_eq_false]
                cases kind with
                | bool =>
                    simp only
                    split <;> simp [eq_comm]
                | int =>
                    by_cases hlen : 8 ≤ rest.length
                    · have hlen' : ¬ (actual :: rest).length < 9 := by
                        rw [List.length_cons]
                        omega
                      simp only [numeric, if_pos hlen, if_neg hlen']
                      constructor
                      · intro hn
                        cases hn
                        exact ⟨_, rfl⟩
                      · rintro ⟨v, hv⟩
                        cases hv
                        rfl
                    · have hlen' : (actual :: rest).length < 9 := by
                        rw [List.length_cons]
                        omega
                      simp only [numeric, if_neg hlen, if_pos hlen']
                      simp
                | real =>
                    simp only [bind_eq_ok, pure_eq_ok, Prod.mk.injEq]
                    constructor
                    · rintro ⟨e, he, u, hu, rfl⟩
                      exact ⟨_, e, he, u, hu, rfl, rfl⟩
                    · rintro ⟨v, e, he, u, hu, -, rfl⟩
                      exact ⟨e, he, u, hu, rfl⟩
                | text =>
                    cases htag
                    exact widthText_iff h
                | json | geo | point | vector => cases htag
              · simp [h0, hne]

/-- A byte that is in no UTF-8 text is stepped over, and not read. -/
theorem width_not_decode : ¬ WidthAgrees .text [4, 255, 0, 0] := by
  intro h
  obtain ⟨v, hv⟩ := (h 4).1 rfl
  have herr : ScalarKey.decode .text [4, 255, 0, 0] = .error (.corrupt "invalid UTF-8 scalar key") := by
    rfl
  rw [herr] at hv
  cases hv

end Keys
end ScalarKey

end Engine
