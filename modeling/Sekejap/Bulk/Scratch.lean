import Mathlib.Data.Nat.Bitwise
import Sekejap.BTree.Cells
import Sekejap.Lib.Crc32c

/-!
# Scratch records of the bulk loader

The records of a sort (`core/kernel/src/bulk.rs`) are framed by the lengths of their key and value and a
checksum, the top bit of the value's length telling an overflow marker from a value.

* **`writeItem_ok_iff`** — which records are framed.
* **`readItem_frame`** — a framed record is read back.
-/

open Bytes Page Fallible Crc32c

namespace Bulk

/-! ## Records -/

/-- A record of the sort: `marker` tells that `val` is the marker of an overflow chain. -/
structure Item where
  key : Bytes
  val : Bytes
  marker : Bool
  deriving DecidableEq, Repr

/-- `MARKER_BIT` -/
def markerBit : ℕ := 1 <<< 31

/-- `SCRATCH_HEADER_LEN` -/
def scratchHeaderLen : ℕ := 12

/-- The checksum of a header and what follows it. -/
def itemCrc (header key val : Bytes) : ℕ :=
  (crc32cAppend (crc32cAppend (crc32c header) key) val).toNat

/-- `write_item` -/
def writeItem (r : Item) : Except Error Bytes := do
  refuse (2 ^ 32 ≤ r.key.length) (.io "scratch key is too long")
  refuse (2 ^ 32 ≤ r.val.length) (.io "scratch value is too long")
  refuse (r.val.length &&& markerBit ≠ 0) (.io "scratch value is too long for the marker bit")
  let rawVl := r.val.length ||| if r.marker then markerBit else 0
  let header := leBytes 4 r.key.length ++ leBytes 4 rawVl
  return header ++ leBytes 4 (itemCrc header r.key r.val) ++ r.key ++ r.val

/-- `read_exact` of the next `n` bytes, and what is left -/
def readExact (n : ℕ) (b : Bytes) : Except Error (Bytes × Bytes) :=
  if n ≤ b.length then .ok (b.take n, b.drop n) else .error (.io "failed to fill whole buffer")

/-- `read_item`: the next record and what is left, or none at the end -/
def readItem (maxKeyLen maxValLen : ℕ) (b : Bytes) : Except Error (Option (Item × Bytes)) :=
  if b = [] then .ok none
  else do
    let (h, b) ← readExact scratchHeaderLen b
    let kl := u32At h 0
    let raw := u32At h 4
    let marker := decide (raw &&& markerBit ≠ 0)
    let vl := raw &&& (markerBit - 1)
    refuse (maxKeyLen < kl ∨ maxValLen < vl) (.io "scratch record length exceeds its writer's bound")
    let (k, b) ← readExact kl b
    let (v, b) ← readExact vl b
    refuse (itemCrc (h.take 8) k v ≠ u32At h 8) (.io "scratch record checksum mismatch")
    return some (⟨k, v, marker⟩, b)

/-- What the frame of a record has room for. -/
def Item.Framed (r : Item) : Prop := r.key.length < 2 ^ 32 ∧ r.val.length < 2 ^ 31

/-- The bytes of a framed record. -/
def Item.frame (r : Item) : Bytes :=
  let header := leBytes 4 r.key.length ++ leBytes 4 (r.val.length ||| if r.marker then markerBit else 0)
  header ++ leBytes 4 (itemCrc header r.key r.val) ++ r.key ++ r.val

/-- The bytes of a run. -/
def frames (rs : List Item) : Bytes := rs.flatMap Item.frame

/-- `(SCRATCH_HEADER_LEN + key.len() + val.len()) as u64` -/
def Item.framedLen (r : Item) : ℕ := scratchHeaderLen + r.key.length + r.val.length

@[simp] lemma frames_nil : frames [] = [] := rfl

@[simp] lemma frames_cons (r : Item) (rs : List Item) : frames (r :: rs) = r.frame ++ frames rs := rfl

lemma length_frame (r : Item) : r.frame.length = r.framedLen := by
  simp [Item.frame, Item.framedLen, scratchHeaderLen]
  omega

section Marker

variable {n : ℕ} {m : Bool}

lemma and_markerBit : n &&& markerBit ≠ 0 ↔ n.testBit 31 = true := by
  rw [markerBit, Nat.one_shiftLeft, Nat.and_two_pow]
  cases n.testBit 31 <;> simp

lemma marked_eq (h : n < 2 ^ 31) :
    (n ||| if m then markerBit else 0) = n + if m then 2 ^ 31 else 0 := by
  cases m with
  | false => simp
  | true =>
      rw [if_pos rfl, if_pos rfl, markerBit, Nat.one_shiftLeft, Nat.or_comm, Nat.add_comm]
      exact (Nat.two_pow_add_eq_or_of_lt h 1).symm.trans (by simp)

lemma marked_lt (h : n < 2 ^ 31) : (n ||| if m then markerBit else 0) < 256 ^ 4 := by
  rw [marked_eq h]
  split_ifs <;> omega

/-- The top bit is the marker. -/
lemma marker_of_marked (h : n < 2 ^ 31) :
    decide ((n ||| if m then markerBit else 0) &&& markerBit ≠ 0) = m := by
  simp only [and_markerBit, Nat.testBit_or, Nat.testBit_lt_two_pow h, Bool.false_or]
  cases m <;> decide

/-- The other bits are the length. -/
lemma length_of_marked (h : n < 2 ^ 31) :
    (n ||| if m then markerBit else 0) &&& (markerBit - 1) = n := by
  rw [marked_eq h, markerBit, Nat.one_shiftLeft, Nat.and_two_pow_sub_one_eq_mod]
  split_ifs <;> omega

end Marker

lemma writeItem_ok_iff {r : Item} {b : Bytes} : writeItem r = .ok b ↔ r.Framed ∧ b = r.frame := by
  simp only [writeItem, bind_eq_ok, refuse_eq_ok, pure_eq_ok, exists_and_left, exists_const, not_le,
    Item.Framed, Item.frame, and_markerBit, Bool.not_eq_true]
  constructor
  · rintro ⟨h1, h2, h3, rfl⟩
    refine ⟨⟨h1, ?_⟩, rfl⟩
    by_contra hle
    have := Nat.testBit_of_two_pow_le_and_two_pow_add_one_gt (not_lt.1 hle) h2
    rw [h3] at this
    cases this
  · rintro ⟨⟨h1, h2⟩, rfl⟩
    exact ⟨h1, by omega, Nat.testBit_lt_two_pow h2, rfl⟩

lemma readExact_append {n : ℕ} {a b : Bytes} (h : a.length = n) : readExact n (a ++ b) = .ok (a, b) := by
  rw [readExact, if_pos (by simp; omega), List.take_left' h, List.drop_left' h]

/-- The three numbers of a header. -/
lemma u32At_header {x y z : ℕ} (hx : x < 256 ^ 4) (hy : y < 256 ^ 4) (hz : z < 256 ^ 4) :
    u32At (leBytes 4 x ++ leBytes 4 y ++ leBytes 4 z) 0 = x ∧
    u32At (leBytes 4 x ++ leBytes 4 y ++ leBytes 4 z) 4 = y ∧
    u32At (leBytes 4 x ++ leBytes 4 y ++ leBytes 4 z) 8 = z := by
  have h0 : (leBytes 4 x ++ leBytes 4 y ++ leBytes 4 z).slice 0 4 = leBytes 4 x :=
    slice_segment [] (List.append_assoc _ _ _) rfl (by simp)
  have h4 : (leBytes 4 x ++ leBytes 4 y ++ leBytes 4 z).slice 4 4 = leBytes 4 y :=
    slice_segment (leBytes 4 x) (List.append_assoc _ _ _) (by simp) (by simp)
  have h8 : (leBytes 4 x ++ leBytes 4 y ++ leBytes 4 z).slice 8 4 = leBytes 4 z :=
    slice_last (leBytes 4 x ++ leBytes 4 y) rfl (by simp) (by simp)
  simp only [u32At, h0, h4, h8, leNat_leBytes_of_lt, hx, hy, hz, and_self]

/-- **A framed record is read back.** -/
lemma readItem_frame {r : Item} {maxKeyLen maxValLen : ℕ} (h : r.Framed) (hk : r.key.length ≤ maxKeyLen)
    (hv : r.val.length ≤ maxValLen) (b : Bytes) :
    readItem maxKeyLen maxValLen (r.frame ++ b) = .ok (some (r, b)) := by
  obtain ⟨h1, h2⟩ := h
  have hne : r.frame ++ b ≠ [] := by
    intro h0
    have := congrArg List.length h0
    rw [List.length_append, length_frame, Item.framedLen, scratchHeaderLen, List.length_nil] at this
    omega
  rw [readItem, if_neg hne, Item.frame]
  generalize hraw : (r.val.length ||| if r.marker then markerBit else 0) = raw
  generalize hcrc : itemCrc (leBytes 4 r.key.length ++ leBytes 4 raw) r.key r.val = crc
  have hlt : crc < 256 ^ 4 := by
    rw [← hcrc, itemCrc]
    exact UInt32.toNat_lt _
  obtain ⟨hkl, hrl, hcl⟩ := u32At_header (show r.key.length < 256 ^ 4 by omega)
    (hraw ▸ marked_lt h2) hlt
  have hbytes : leBytes 4 r.key.length ++ leBytes 4 raw ++ leBytes 4 crc ++ r.key ++ r.val ++ b
      = (leBytes 4 r.key.length ++ leBytes 4 raw ++ leBytes 4 crc) ++ (r.key ++ (r.val ++ b)) := by
    simp
  have hheader : (leBytes 4 r.key.length ++ leBytes 4 raw ++ leBytes 4 crc).length
      = scratchHeaderLen := by simp [scratchHeaderLen]
  have htake : (leBytes 4 r.key.length ++ leBytes 4 raw ++ leBytes 4 crc).take 8
      = leBytes 4 r.key.length ++ leBytes 4 raw := List.take_left' (by simp)
  have hmarker : decide (raw &&& markerBit ≠ 0) = r.marker := hraw ▸ marker_of_marked h2
  have hvl : raw &&& (markerBit - 1) = r.val.length := hraw ▸ length_of_marked h2
  rw [hbytes, readExact_append hheader]
  simp only [bind, Except.bind, hkl, hrl, hcl, htake, hmarker, hvl, readExact_append rfl, hcrc, refuse]
  rw [if_neg (by omega), if_neg (by simp)]
  rfl

end Bulk
