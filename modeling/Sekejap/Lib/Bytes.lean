import Mathlib.Tactic

/-!
# Byte strings: slices, overwrites and little-endian numbers

A file and a page are both a list of bytes that code reads by `(offset, length)` and overwrites
in place.  This file gives the two operations and the one fact every format proof needs about
them — **a read that does not touch the overwritten range does not see the overwrite**
(`slice_splice_before`, `slice_splice_after`), and a read of exactly that range sees exactly the
new bytes (`slice_splice_self`).

Numbers are stored little-endian; `leNat_leBytes` and `leBytes_leNat` are the two halves of the
round trip.
-/

/-- A byte string. -/
abbrev Bytes := List UInt8

namespace Bytes

/-! ## Reading and overwriting -/

/-- The `len` bytes that start at `off` (fewer when the string ends first). -/
def slice (b : Bytes) (off len : ℕ) : Bytes := (b.drop off).take len

/-- The string with its bytes from `off` on overwritten by `x`.  A write that starts past the end
fills the gap with zeros, as a sparse file does. -/
def splice (b : Bytes) (off : ℕ) (x : Bytes) : Bytes :=
  b.take off ++ List.replicate (off - b.length) 0 ++ x ++ b.drop (off + x.length)

/-- The string cut, or extended with zeros, to `n` bytes. -/
def resize (b : Bytes) (n : ℕ) : Bytes := b.take n ++ List.replicate (n - b.length) 0

@[simp] lemma length_slice (b : Bytes) (off len : ℕ) :
    (slice b off len).length = min len (b.length - off) := by
  simp [slice]

lemma length_slice_of_le {b : Bytes} {off len : ℕ} (h : off + len ≤ b.length) :
    (slice b off len).length = len := by
  rw [length_slice]; omega

@[simp] lemma length_splice (b : Bytes) (off : ℕ) (x : Bytes) :
    (splice b off x).length = max b.length (off + x.length) := by
  simp only [splice, List.length_append, List.length_take, List.length_replicate,
    List.length_drop]
  omega

lemma length_splice_of_le {b : Bytes} {off : ℕ} {x : Bytes} (h : off + x.length ≤ b.length) :
    (splice b off x).length = b.length := by
  rw [length_splice]; omega

@[simp] lemma length_resize (b : Bytes) (n : ℕ) : (resize b n).length = n := by
  simp only [resize, List.length_append, List.length_take, List.length_replicate]
  omega

lemma slice_zero_length (b : Bytes) : slice b 0 b.length = b := by simp [slice]

lemma slice_eq_self {b : Bytes} {n : ℕ} (h : b.length = n) : slice b 0 n = b := by
  simp [slice, ← h]

lemma getElem?_slice (b : Bytes) (off len i : ℕ) :
    (slice b off len)[i]? = if i < len then b[off + i]? else none := by
  by_cases h : i < len
  · simp [slice, h]
  · simp [slice, h]

lemma getElem?_splice (b : Bytes) (off : ℕ) (x : Bytes) (i : ℕ) :
    (splice b off x)[i]?
      = if i < off then (if i < b.length then b[i]? else some 0)
        else if i < off + x.length then x[i - off]? else b[i]? := by
  rcases lt_or_ge i off with h | h
  · rcases lt_or_ge i b.length with hb | hb
    · rw [if_pos h, if_pos hb, splice, List.append_assoc, List.append_assoc,
        List.getElem?_append_left (by rw [List.length_take]; omega), List.getElem?_take, if_pos h]
    · rw [if_pos h, if_neg (by omega), splice, List.append_assoc, List.append_assoc,
        List.getElem?_append_right (by rw [List.length_take]; omega), List.length_take,
        List.getElem?_append_left (by rw [List.length_replicate]; omega), List.getElem?_replicate,
        if_pos (by omega)]
  · have hpre : (b.take off ++ List.replicate (off - b.length) 0 : Bytes).length = off := by
      simp only [List.length_append, List.length_take, List.length_replicate]; omega
    rw [if_neg (by omega), splice, List.append_assoc _ x, List.getElem?_append_right (by omega),
      hpre]
    rcases lt_or_ge i (off + x.length) with hx | hx
    · rw [if_pos hx, List.getElem?_append_left (by omega)]
    · rw [if_neg (by omega), List.getElem?_append_right (by omega), List.getElem?_drop]
      congr 1; omega

/-- **A read of the range just written sees the new bytes.** -/
lemma slice_splice_self (b : Bytes) (off : ℕ) (x : Bytes) :
    slice (splice b off x) off x.length = x := by
  refine List.ext_getElem? fun i => ?_
  rw [getElem?_slice]
  split_ifs with h
  · rw [getElem?_splice, if_neg (by omega), if_pos (by omega)]
    congr 1; omega
  · rw [List.getElem?_eq_none (by omega)]

/-- **A read that ends before the write sees the old bytes.** -/
lemma slice_splice_before {b : Bytes} {off : ℕ} {x : Bytes} {p n : ℕ} (h : p + n ≤ off)
    (hb : p + n ≤ b.length) : slice (splice b off x) p n = slice b p n := by
  refine List.ext_getElem? fun i => ?_
  rw [getElem?_slice, getElem?_slice]
  split_ifs with hi
  · rw [getElem?_splice, if_pos (by omega), if_pos (by omega)]
  · rfl

/-- **A read that starts after the write sees the old bytes.** -/
lemma slice_splice_after {b : Bytes} {off : ℕ} {x : Bytes} {p n : ℕ} (h : off + x.length ≤ p) :
    slice (splice b off x) p n = slice b p n := by
  refine List.ext_getElem? fun i => ?_
  rw [getElem?_slice, getElem?_slice]
  split_ifs with hi
  · rw [getElem?_splice, if_neg (by omega), if_neg (by omega)]
  · rfl

/-- A read inside the range just written is a read of the new bytes. -/
lemma slice_splice_inside {b : Bytes} {off : ℕ} {x : Bytes} {p n : ℕ} (h : off ≤ p)
    (hx : p + n ≤ off + x.length) : slice (splice b off x) p n = slice x (p - off) n := by
  refine List.ext_getElem? fun i => ?_
  rw [getElem?_slice, getElem?_slice]
  split_ifs with hi
  · rw [getElem?_splice, if_neg (by omega), if_pos (by omega)]
    congr 1; omega
  · rfl

/-- Two writes one after the other are one. -/
lemma splice_splice_append {b x y : Bytes} {off : ℕ} (h : off + x.length + y.length ≤ b.length) :
    splice (splice b off x) (off + x.length) y = splice b off (x ++ y) := by
  refine List.ext_getElem? fun i => ?_
  simp only [getElem?_splice, length_splice, List.length_append, List.getElem?_append]
  split_ifs <;> first | rfl | omega | (congr 1; omega)

/-- A read around the range just written. -/
lemma slice_splice_around {b y : Bytes} {off len p : ℕ} (h : off ≤ p) (hp : p + y.length ≤ off + len)
    (hb : off + len ≤ b.length) : slice (splice b p y) off len = splice (slice b off len) (p - off) y := by
  refine List.ext_getElem? fun i => ?_
  simp only [getElem?_slice, getElem?_splice, length_slice]
  split_ifs <;> first | rfl | omega | (congr 1; omega)

lemma slice_append_left {a b : Bytes} {p n : ℕ} (h : p + n ≤ a.length) :
    slice (a ++ b) p n = slice a p n := by
  refine List.ext_getElem? fun i => ?_
  rw [getElem?_slice, getElem?_slice]
  split_ifs with hi
  · rw [List.getElem?_append_left (by omega)]
  · rfl

lemma slice_append_right {a b : Bytes} {p n : ℕ} (h : a.length ≤ p) :
    slice (a ++ b) p n = slice b (p - a.length) n := by
  refine List.ext_getElem? fun i => ?_
  rw [getElem?_slice, getElem?_slice]
  split_ifs with hi
  · rw [List.getElem?_append_right (by omega)]
    congr 1; omega
  · rfl

/-- One segment of a concatenation, by its place and length. -/
lemma slice_segment (pre : Bytes) {b x post : Bytes} {p n : ℕ} (h : b = pre ++ (x ++ post))
    (hp : pre.length = p) (hn : x.length = n) : slice b p n = x := by
  rw [h, ← hp, ← hn, slice_append_right le_rfl, Nat.sub_self, slice_append_left (by simp),
    slice_zero_length]

/-- The last segment of a concatenation. -/
lemma slice_last (pre : Bytes) {b x : Bytes} {p n : ℕ} (h : b = pre ++ x)
    (hp : pre.length = p) (hn : x.length = n) : slice b p n = x :=
  slice_segment pre (by rw [h, List.append_nil]) hp hn

/-- Overwriting one segment of a concatenation. -/
lemma splice_segment (pre : Bytes) {b z x post : Bytes} {p : ℕ} (h : b = pre ++ (z ++ post))
    (hp : pre.length = p) (hz : z.length = x.length) : splice b p x = pre ++ (x ++ post) := by
  subst h hp
  simp [splice, ← hz]

lemma slice_slice (b : Bytes) {p n q m : ℕ} (h : q + m ≤ n) :
    slice (slice b p n) q m = slice b (p + q) m := by
  refine List.ext_getElem? fun i => ?_
  rw [getElem?_slice, getElem?_slice b (p + q)]
  split_ifs with hi
  · rw [getElem?_slice, if_pos (by omega)]
    congr 1; omega
  · rfl

lemma slice_take {b : Bytes} {k p n : ℕ} (h : p + n ≤ k) :
    slice (b.take k) p n = slice b p n := by
  refine List.ext_getElem? fun i => ?_
  rw [getElem?_slice, getElem?_slice]
  split_ifs with hi
  · rw [List.getElem?_take, if_pos (by omega)]
  · rfl

lemma slice_resize {b : Bytes} {k p n : ℕ} (h : p + n ≤ k) (hb : p + n ≤ b.length) :
    slice (resize b k) p n = slice b p n := by
  rw [resize, slice_append_left (by rw [List.length_take]; omega), slice_take h]

/-- Appending at the end is a plain concatenation. -/
lemma splice_length (b x : Bytes) : splice b b.length x = b ++ x := by
  simp [splice]

lemma resize_of_le {b : Bytes} {n : ℕ} (h : n ≤ b.length) : resize b n = b.take n := by
  simp [resize, Nat.sub_eq_zero_of_le h]

/-! ## Little-endian numbers -/

/-- The number a byte string stores, least significant byte first. -/
def leNat : Bytes → ℕ
  | [] => 0
  | b :: bs => b.toNat + 256 * leNat bs

/-- The low `n` bytes of `x`, least significant byte first. -/
def leBytes : ℕ → ℕ → Bytes
  | 0, _ => []
  | n + 1, x => UInt8.ofNat x :: leBytes n (x / 256)

section

attribute [local simp] leNat leBytes

@[simp] lemma length_leBytes : ∀ n x : ℕ, (leBytes n x).length = n
  | 0, _ => rfl
  | n + 1, x => by simp [length_leBytes n]

lemma leNat_leBytes : ∀ n x : ℕ, leNat (leBytes n x) = x % 256 ^ n
  | 0, x => by simp [Nat.mod_one]
  | n + 1, x => by
      have hb : (UInt8.ofNat x).toNat = x % 256 := by simp
      rw [leBytes, leNat, leNat_leBytes n, hb, pow_succ', Nat.mod_mul]

lemma leNat_leBytes_of_lt {n x : ℕ} (h : x < 256 ^ n) : leNat (leBytes n x) = x := by
  rw [leNat_leBytes, Nat.mod_eq_of_lt h]

lemma leNat_lt : ∀ b : Bytes, leNat b < 256 ^ b.length
  | [] => by simp
  | b :: bs => by
      have ih := leNat_lt bs
      have hb : b.toNat < 256 := b.toNat_lt
      rw [leNat, List.length_cons, pow_succ]
      omega

lemma leNat_replicate_zero : ∀ n : ℕ, leNat (List.replicate n 0) = 0
  | 0 => rfl
  | n + 1 => by rw [List.replicate_succ, leNat, leNat_replicate_zero n]; rfl

lemma slice_replicate (n : ℕ) (x : UInt8) (p k : ℕ) :
    slice (List.replicate n x) p k = List.replicate (min k (n - p)) x := by
  rw [slice, List.drop_replicate, List.take_replicate]

lemma leBytes_leNat : ∀ b : Bytes, leBytes b.length (leNat b) = b
  | [] => rfl
  | b :: bs => by
      have hb : b.toNat < 256 := b.toNat_lt
      have h1 : UInt8.ofNat (b.toNat + 256 * leNat bs) = b := by
        apply UInt8.toNat_inj.mp
        simp
      have h2 : (b.toNat + 256 * leNat bs) / 256 = leNat bs := by omega
      rw [leNat, List.length_cons, leBytes, h1, h2, leBytes_leNat bs]

end

/-- The 16-bit number at `p`. -/
def u16At (b : Bytes) (p : ℕ) : ℕ := leNat (slice b p 2)

/-- The 32-bit number at `p`. -/
def u32At (b : Bytes) (p : ℕ) : ℕ := leNat (slice b p 4)

/-- The 64-bit number at `p`. -/
def u64At (b : Bytes) (p : ℕ) : ℕ := leNat (slice b p 8)

end Bytes
