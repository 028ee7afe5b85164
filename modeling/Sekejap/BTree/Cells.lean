import Sekejap.Lib.ByteOrder
import Sekejap.Kernel.Page
import Sekejap.Lib.Fallible

/-!
# The cells of a tree page

A leaf cell (`enc_leaf` of `core/kernel/src/btree.rs`) is plain, with the lengths of its key and value;
or compact, with the length of its key only; or, for an integer key that tells its own length, without
any.  The three are told apart by their first two bytes.  `decode_record` (`verify.rs`) reads a cell with
every check; `validated_key`, `validated_leaf` and `validated_child` read one that has been checked, and
would panic where it is cut short: here, return none.

* **`decode_cells`** — what is written is read back, and the readers without checks return what the one
  with checks returned.
-/

open Bytes Page

open Fallible

namespace BTree

/-- `OVERFLOW_VLEN` -/
def overflowVlen : ℕ := 0xFFFF

/-! ## Writing -/

/-- A key of the width-tagged integers. -/
def isIntegerKey (key : Bytes) : Bool :=
  match key with
  | [] => false
  | b :: _ => decide (0x81 ≤ b ∧ b ≤ 0x88) && decide (key.length = 1 + (b.toNat - 0x80))

/-- `enc_leaf` -/
def encLeaf (key val : Bytes) (compact : Bool) : Bytes :=
  if compact && isIntegerKey key then 0xff :: (key ++ val)
  else if compact && decide (key.length ≤ 0x0fff) then
    leBytes 2 (0x4000 ||| key.length) ++ key ++ val
  else leBytes 2 key.length ++ key ++ leBytes 2 val.length ++ val

/-- `enc_leaf_marker` -/
def encLeafMarker (key marker : Bytes) : Bytes :=
  leBytes 2 key.length ++ key ++ leBytes 2 overflowVlen ++ marker

/-- `enc_interior` -/
def encInterior (key : Bytes) (child : ℕ) : Bytes := leBytes 2 key.length ++ key ++ leBytes 4 child

@[simp] lemma length_encInterior (key : Bytes) (child : ℕ) :
    (encInterior key child).length = 6 + key.length := by
  simp [encInterior]
  omega

/-- A value that does not go into a leaf beside its key is written to overflow pages. -/
def spills (key val : Bytes) : Bool := decide (maxRecordLen < 4 + key.length + val.length)

/-- The record `insert` puts into a leaf: the value, or the marker of its overflow chain. -/
def leafRecord (key val marker : Bytes) (compact : Bool) : Except Error Bytes :=
  let cell := if spills key val then encLeafMarker key marker else encLeaf key val compact
  if maxRecordLen < cell.length then .error .tooLarge else .ok cell

/-! ## Reading -/

/-- `rec.get(a..b)` -/
def range? (b : Bytes) (first last : ℕ) : Option Bytes :=
  if first ≤ last ∧ last ≤ b.length then some (b.slice first (last - first)) else none

inductive DecodedRecord where
  | leaf (key value : Bytes) (overflow : Bool)
  | interior (key : Bytes) (child : ℕ)
  deriving DecidableEq, Repr

/-- The bytes an integer cell starts with. -/
def isInteger (rec : Bytes) : Bool :=
  decide (rec[0]? = some 0xff) && rec[1]?.any fun b => decide (0x81 ≤ b ∧ b ≤ 0x88)

/-- The bytes a compact cell starts with. -/
def isCompact (rec : Bytes) : Bool := rec[1]?.any fun b => decide (b &&& 0xf0 = 0x40)

/-- Where the key of an integer cell ends. -/
def integerEnd (rec : Bytes) : ℕ := 2 + ((rec.getD 1 0).toNat - 0x80)

/-- Where the key of a compact cell ends. -/
def compactEnd (rec : Bytes) : ℕ := 2 + u16At rec 0 % 0x1000

/-- `decode_record` of a plain cell, whose key is known. -/
def decodeValue (rec key : Bytes) (keyEnd pageNo : ℕ) : Except Error DecodedRecord := do
  let vlen ← orElse (range? rec keyEnd (keyEnd + 2)) (.corrupt pageNo "leaf record has no value length")
  if leNat vlen = overflowVlen then do
    let marker ← orElse (range? rec (keyEnd + 2) (keyEnd + 14))
      (.corrupt pageNo "overflow marker crosses its slot")
    refuse (keyEnd + 14 ≠ rec.length) (.corrupt pageNo "overflow marker has trailing bytes")
    pure (.leaf key marker true)
  else do
    refuse (keyEnd + 2 + leNat vlen ≠ rec.length)
      (.corrupt pageNo "leaf value length does not match its slot")
    pure (.leaf key (rec.slice (keyEnd + 2) (leNat vlen)) false)

/-- `decode_record` -/
def decodeRecord (rec : Bytes) (pageNo : ℕ) (kind : PageKind) : Except Error DecodedRecord :=
  if kind = .leaf ∧ isInteger rec = true then do
    let key ← orElse (range? rec 1 (integerEnd rec))
      (.corrupt pageNo "compact integer key crosses its slot")
    pure (.leaf key (rec.drop (integerEnd rec)) false)
  else if kind = .leaf ∧ isCompact rec = true then do
    let key ← orElse (range? rec 2 (compactEnd rec)) (.corrupt pageNo "compact key crosses its slot")
    pure (.leaf key (rec.drop (compactEnd rec)) false)
  else do
    let klen ← orElse (range? rec 0 2) (.corrupt pageNo "record has no key length")
    let key ← orElse (range? rec 2 (2 + leNat klen)) (.corrupt pageNo "record key crosses its slot")
    if kind = .interior then do
      refuse (2 + leNat klen + 4 ≠ rec.length)
        (.corrupt pageNo "interior record length does not match its slot")
      pure (.interior key (u32At rec (2 + leNat klen)))
    else do
      refuse (kind ≠ .leaf) (.corrupt pageNo "non-tree page contains a tree record")
      decodeValue rec key (2 + leNat klen) pageNo

/-- The first two bytes, which every reader looks at. -/
def head? (rec : Bytes) : Option Bytes := range? rec 0 2

/-- `validated_key` -/
def validatedKey (rec : Bytes) : Option Bytes := do
  let head ← head? rec
  if isInteger rec then range? rec 1 (integerEnd rec)
  else if isCompact rec then range? rec 2 (compactEnd rec)
  else range? rec 2 (2 + leNat head)

/-- `validated_leaf` -/
def validatedLeaf (rec : Bytes) : Option (Bytes × Bytes × Bool) := do
  let head ← head? rec
  if isInteger rec then
    let key ← range? rec 1 (integerEnd rec)
    let value ← range? rec (integerEnd rec) rec.length
    return (key, value, false)
  else if isCompact rec then
    let key ← range? rec 2 (compactEnd rec)
    let value ← range? rec (compactEnd rec) rec.length
    return (key, value, false)
  else
    let k := leNat head
    let v ← range? rec (2 + k) (4 + k)
    let valueLen := if leNat v = overflowVlen then 12 else leNat v
    let key ← range? rec 2 (2 + k)
    let value ← range? rec (4 + k) (4 + k + valueLen)
    return (key, value, decide (leNat v = overflowVlen))

/-- `validated_child` -/
def validatedChild (rec : Bytes) : Option ℕ := do
  let head ← head? rec
  let child ← range? rec (2 + leNat head) (6 + leNat head)
  return leNat child

/-! ## Ranges -/

section Ranges

variable {b x pre q : Bytes} {first last : ℕ}

lemma range?_eq_some (h : range? b first last = some x) :
    first ≤ last ∧ last ≤ b.length ∧ x = b.slice first (last - first) := by
  rw [range?] at h
  split_ifs at h with hb
  cases h
  exact ⟨hb.1, hb.2, rfl⟩

/-- A segment of a concatenation, by where it starts and ends. -/
lemma range?_segment (pre : Bytes) (h : b = pre ++ (x ++ q)) (hfirst : pre.length = first)
    (hlast : pre.length + x.length = last) : range? b first last = some x := by
  rw [range?, if_pos ⟨by omega, by rw [h, List.length_append, List.length_append]; omega⟩,
    slice_segment pre h hfirst (by omega)]

lemma range?_drop (h : first ≤ b.length) : range? b first b.length = some (b.drop first) := by
  rw [range?, if_pos ⟨h, le_rfl⟩, slice, List.take_of_length_le (by simp)]

end Ranges

/-! ## The three families -/

lemma toNat_and_high (b : UInt8) : b &&& 0xf0 = 0x40 ↔ b.toNat / 16 = 4 := by
  have h : ∀ n : Fin 256, UInt8.ofNat n.val &&& 0xf0 = 0x40 ↔ n.val / 16 = 4 := by decide +kernel
  have := h ⟨b.toNat, b.toNat_lt⟩
  rwa [UInt8.ofNat_toNat] at this

lemma isInteger_cons (x y : UInt8) (rest : Bytes) :
    isInteger (x :: y :: rest) = (decide (x = 0xff) && decide (0x81 ≤ y ∧ y ≤ 0x88)) := by
  simp [isInteger]

lemma isCompact_cons (x y : UInt8) (rest : Bytes) :
    isCompact (x :: y :: rest) = decide (y.toNat / 16 = 4) := by
  simp [isCompact, toNat_and_high]

/-- A cell that starts with a length below a page's is plain. -/
lemma plain_of_lt {n : ℕ} (h : n < 0x4000) (rest : Bytes) :
    isInteger (leBytes 2 n ++ rest) = false ∧ isCompact (leBytes 2 n ++ rest) = false := by
  have hl : leBytes 2 n ++ rest = UInt8.ofNat n :: UInt8.ofNat (n / 256) :: rest := rfl
  have hy : (UInt8.ofNat (n / 256)).toNat = n / 256 := by
    rw [UInt8.toNat_ofNat']
    omega
  rw [hl, isInteger_cons, isCompact_cons, hy]
  refine ⟨?_, decide_eq_false (by omega)⟩
  rw [Bool.and_eq_false_iff]
  right
  refine decide_eq_false ?_
  rintro ⟨h1, -⟩
  have h129 : (0x81 : UInt8).toNat = 129 := rfl
  rw [UInt8.le_iff_toNat_le, hy, h129] at h1
  omega

lemma compact_head {n : ℕ} (h : n < 0x1000) (rest : Bytes) :
    isInteger (leBytes 2 (0x4000 ||| n) ++ rest) = false
      ∧ isCompact (leBytes 2 (0x4000 ||| n) ++ rest) = true
      ∧ compactEnd (leBytes 2 (0x4000 ||| n) ++ rest) = 2 + n := by
  have hor : 0x4000 ||| n = 0x4000 + n := by
    have := Nat.two_pow_add_eq_or_of_lt (i := 14) (b := n) (by omega) 1
    norm_num at this
    exact this.symm
  rw [hor]
  have hl : leBytes 2 (0x4000 + n) ++ rest
      = UInt8.ofNat (0x4000 + n) :: UInt8.ofNat ((0x4000 + n) / 256) :: rest := rfl
  have hy : (UInt8.ofNat ((0x4000 + n) / 256)).toNat = (0x4000 + n) / 256 := by
    rw [UInt8.toNat_ofNat']
    omega
  have hu : u16At (leBytes 2 (0x4000 + n) ++ rest) 0 = 0x4000 + n := by
    have hs : (leBytes 2 (0x4000 + n) ++ rest).slice 0 2 = leBytes 2 (0x4000 + n) :=
      slice_segment [] rfl rfl (length_leBytes 2 _)
    rw [u16At, hs, leNat_leBytes_of_lt (by omega)]
  refine ⟨?_, ?_, by rw [compactEnd, hu]; omega⟩
  · rw [hl, isInteger_cons, Bool.and_eq_false_iff]
    right
    refine decide_eq_false ?_
    rintro ⟨h1, -⟩
    have h129 : (0x81 : UInt8).toNat = 129 := rfl
    rw [UInt8.le_iff_toNat_le, hy, h129] at h1
    omega
  · rw [hl, isCompact_cons, hy]
    exact decide_eq_true (by omega)

lemma integer_head {key : Bytes} (h : isIntegerKey key = true) (val : Bytes) :
    isInteger (0xff :: (key ++ val)) = true ∧ integerEnd (0xff :: (key ++ val)) = 1 + key.length := by
  cases key with
  | nil => cases h
  | cons b rest =>
      rw [isIntegerKey, Bool.and_eq_true, decide_eq_true_eq, decide_eq_true_eq] at h
      constructor
      · rw [List.cons_append, isInteger_cons, decide_eq_true h.1]
        rfl
      · rw [h.2, ← Nat.add_assoc]
        rfl

/-! ## Written and read back -/

section Written

variable {key val marker rest : Bytes} {pageNo : ℕ}

/-- What is read of a plain cell after its key. -/
lemma decodeRecord_plain (h : key.length < 0x4000) :
    decodeRecord (leBytes 2 key.length ++ (key ++ rest)) pageNo .leaf
      = decodeValue (leBytes 2 key.length ++ (key ++ rest)) key (2 + key.length) pageNo := by
  obtain ⟨h1, h2⟩ := plain_of_lt h (key ++ rest)
  have hhead : range? (leBytes 2 key.length ++ (key ++ rest)) 0 2 = some (leBytes 2 key.length) :=
    range?_segment [] rfl rfl (by simp)
  have hkey : range? (leBytes 2 key.length ++ (key ++ rest)) 2 (2 + key.length) = some key :=
    range?_segment (leBytes 2 key.length) rfl (by simp) (by simp)
  have hlen : leNat (leBytes 2 key.length) = key.length := leNat_leBytes_of_lt (by omega)
  rw [decodeRecord]
  simp only [h1, h2, Bool.false_eq_true, and_false, if_false, hhead, hkey, orElse, hlen, bind,
    Except.bind, refuse, reduceCtorEq, ne_eq, not_true_eq_false]

lemma range?_vlen (n : ℕ) : range? (leBytes 2 key.length ++ (key ++ (leBytes 2 n ++ rest)))
    (2 + key.length) (2 + key.length + 2) = some (leBytes 2 n) :=
  range?_segment (q := rest) (leBytes 2 key.length ++ key) (by simp) (by simp) (by simp)

lemma decodeRecord_encLeaf (h : 4 + key.length + val.length ≤ maxRecordLen) (compact : Bool) :
    decodeRecord (encLeaf key val compact) pageNo .leaf = .ok (.leaf key val false) := by
  have hmax : maxRecordLen = 4052 := rfl
  rw [encLeaf]
  by_cases hint : (compact && isIntegerKey key) = true
  · rw [if_pos hint]
    rw [Bool.and_eq_true] at hint
    obtain ⟨h1, h2⟩ := integer_head hint.2 val
    have hkey : range? (0xff :: (key ++ val)) 1 (1 + key.length) = some key :=
      range?_segment [0xff] rfl rfl (by simp)
    have hdrop : (0xff :: (key ++ val)).drop (1 + key.length) = val := by
      rw [Nat.add_comm, List.drop_succ_cons, List.drop_left]
    rw [decodeRecord, if_pos ⟨rfl, h1⟩, h2, hkey, hdrop]
    rfl
  · rw [if_neg hint]
    by_cases hcomp : (compact && decide (key.length ≤ 0x0fff)) = true
    · rw [if_pos hcomp]
      rw [Bool.and_eq_true, decide_eq_true_eq] at hcomp
      obtain ⟨h1, h2, h3⟩ := compact_head (n := key.length) (by omega) (key ++ val)
      have hkey : range? (leBytes 2 (0x4000 ||| key.length) ++ (key ++ val)) 2 (2 + key.length)
          = some key := range?_segment (leBytes 2 (0x4000 ||| key.length)) rfl (by simp) (by simp)
      have hdrop : (leBytes 2 (0x4000 ||| key.length) ++ (key ++ val)).drop (2 + key.length) = val := by
        rw [← List.append_assoc]
        exact List.drop_left' (by simp)
      rw [List.append_assoc, decodeRecord, if_neg (by simp [h1]), if_pos ⟨rfl, h2⟩, h3, hkey, hdrop]
      rfl
    · have hvlen : leNat (leBytes 2 val.length) = val.length := leNat_leBytes_of_lt (by omega)
      rw [if_neg hcomp, List.append_assoc, List.append_assoc, decodeRecord_plain (by omega), decodeValue,
        range?_vlen]
      simp only [orElse, bind, Except.bind, hvlen]
      rw [if_neg (by rw [overflowVlen]; omega), refuse, if_neg (by simp; omega)]
      have hval : (leBytes 2 key.length ++ (key ++ (leBytes 2 val.length ++ val))).slice
          (2 + key.length + 2) val.length = val := by
        refine slice_last (leBytes 2 key.length ++ key ++ leBytes 2 val.length) (by simp) ?_ rfl
        simp
        omega
      rw [hval]
      rfl

lemma decodeRecord_encLeafMarker (h : 4 + key.length + 12 ≤ maxRecordLen) (hm : marker.length = 12) :
    decodeRecord (encLeafMarker key marker) pageNo .leaf = .ok (.leaf key marker true) := by
  have hmax : maxRecordLen = 4052 := rfl
  have hmarker : range? (leBytes 2 key.length ++ (key ++ (leBytes 2 overflowVlen ++ marker)))
      (2 + key.length + 2) (2 + key.length + 14) = some marker := by
    refine range?_segment (q := []) (leBytes 2 key.length ++ key ++ leBytes 2 overflowVlen)
      (by simp) (by simp; omega) (by simp; omega)
  rw [encLeafMarker, List.append_assoc, List.append_assoc, decodeRecord_plain (by omega), decodeValue,
    range?_vlen]
  simp only [orElse, bind, Except.bind]
  rw [if_pos (by decide), hmarker]
  simp only
  rw [refuse, if_neg (by simp; omega)]
  rfl

/-- An interior cell is read back. -/
lemma decodeRecord_encInterior {child : ℕ} (h : key.length < 2 ^ 16) (hc : child < 2 ^ 32) :
    decodeRecord (encInterior key child) pageNo .interior = .ok (.interior key child) := by
  have hhead : range? (leBytes 2 key.length ++ (key ++ leBytes 4 child)) 0 2
      = some (leBytes 2 key.length) := range?_segment [] rfl rfl (by simp)
  have hkey : range? (leBytes 2 key.length ++ (key ++ leBytes 4 child)) 2 (2 + key.length) = some key :=
    range?_segment (leBytes 2 key.length) rfl (by simp) (by simp)
  have hlen : leNat (leBytes 2 key.length) = key.length := leNat_leBytes_of_lt (by omega)
  have hchild : u32At (leBytes 2 key.length ++ (key ++ leBytes 4 child)) (2 + key.length) = child := by
    have hs : (leBytes 2 key.length ++ (key ++ leBytes 4 child)).slice (2 + key.length) 4
        = leBytes 4 child := slice_last (leBytes 2 key.length ++ key) (by simp) (by simp) (by simp)
    rw [u32At, hs, leNat_leBytes_of_lt (by omega)]
  rw [encInterior, List.append_assoc, decodeRecord, if_neg (by simp), if_neg (by simp), hhead]
  simp only [orElse, bind, Except.bind, hlen, hkey, if_true]
  rw [refuse, if_neg (by simp; omega), hchild]
  rfl

end Written

/-! ## The readers without checks -/

section Validated

variable {rec : Bytes} {pageNo : ℕ} {d : DecodedRecord}

/-- A leaf cell that is accepted. -/
lemma decodeRecord_leaf (h : decodeRecord rec pageNo .leaf = .ok d) :
    ∃ key value overflow, d = .leaf key value overflow
      ∧ validatedKey rec = some key ∧ validatedLeaf rec = some (key, value, overflow) := by
  rw [decodeRecord] at h
  by_cases h1 : isInteger rec = true
  · rw [if_pos ⟨rfl, h1⟩] at h
    simp only [bind_eq_ok, orElse_eq_ok, pure_eq_ok] at h
    obtain ⟨key, hkey, rfl⟩ := h
    obtain ⟨ha, hb, -⟩ := range?_eq_some hkey
    have hhead : ∃ head, head? rec = some head := by
      rw [head?, range?, if_pos ⟨by omega, (Nat.le_add_right 2 _).trans hb⟩]
      exact ⟨_, rfl⟩
    obtain ⟨head, hhead⟩ := hhead
    refine ⟨_, _, _, rfl, ?_⟩
    rw [validatedKey, validatedLeaf, hhead]
    simp [h1, hkey, range?_drop hb]
  · rw [if_neg (by simp [h1])] at h
    by_cases h2 : isCompact rec = true
    · rw [if_pos ⟨rfl, h2⟩] at h
      simp only [bind_eq_ok, orElse_eq_ok, pure_eq_ok] at h
      obtain ⟨key, hkey, rfl⟩ := h
      obtain ⟨ha, hb, -⟩ := range?_eq_some hkey
      have hhead : ∃ head, head? rec = some head := by
        rw [head?, range?, if_pos ⟨by omega, by omega⟩]
        exact ⟨_, rfl⟩
      obtain ⟨head, hhead⟩ := hhead
      refine ⟨_, _, _, rfl, ?_⟩
      rw [validatedKey, validatedLeaf, hhead]
      simp [h1, h2, hkey, range?_drop hb]
    · rw [if_neg (by simp [h2])] at h
      simp only [bind_eq_ok, orElse_eq_ok, reduceCtorEq, if_false, refuse_eq_ok] at h
      obtain ⟨head, hhead, key, hkey, -, -, h⟩ := h
      rw [decodeValue] at h
      simp only [bind_eq_ok, orElse_eq_ok] at h
      obtain ⟨vlen, hvlen, h⟩ := h
      have hv : range? rec (2 + leNat head) (4 + leNat head) = some vlen := by
        rw [← hvlen]
        congr 1
        omega
      by_cases hover : leNat vlen = overflowVlen
      · rw [if_pos hover] at h
        simp only [bind_eq_ok, orElse_eq_ok, refuse_eq_ok, pure_eq_ok] at h
        obtain ⟨marker, hmarker, -, -, rfl⟩ := h
        have hm : range? rec (4 + leNat head) (4 + leNat head + 12) = some marker := by
          rw [← hmarker]
          congr 1 <;> omega
        refine ⟨_, _, _, rfl, ?_⟩
        rw [validatedKey, validatedLeaf, head?, hhead]
        simp [h1, h2, hkey, hv, hover, hm]
      · rw [if_neg hover] at h
        simp only [bind_eq_ok, refuse_eq_ok, pure_eq_ok, not_not] at h
        obtain ⟨-, hend, rfl⟩ := h
        have hm : range? rec (4 + leNat head) (4 + leNat head + leNat vlen)
            = some (rec.slice (2 + leNat head + 2) (leNat vlen)) := by
          rw [range?, if_pos ⟨by omega, by omega⟩]
          congr 2 <;> omega
        refine ⟨_, _, _, rfl, ?_⟩
        rw [validatedKey, validatedLeaf, head?, hhead]
        simp [h1, h2, hkey, hv, hover, hm]

/-- An interior cell of a page that is accepted. -/
lemma decodeRecord_interior (hlen : rec.length ≤ pageSize)
    (h : decodeRecord rec pageNo .interior = .ok d) :
    ∃ key child, d = .interior key child
      ∧ validatedKey rec = some key ∧ validatedChild rec = some child := by
  have hsize : pageSize = 4096 := rfl
  rw [decodeRecord, if_neg (by simp), if_neg (by simp)] at h
  simp only [bind_eq_ok, orElse_eq_ok, if_true, refuse_eq_ok, pure_eq_ok, not_not] at h
  obtain ⟨head, hhead, key, hkey, -, hend, rfl⟩ := h
  -- the length of a key in a page is below that of the other families' first bytes
  have hfront : rec = leBytes 2 (leNat head) ++ rec.drop 2 := by
    obtain ⟨-, h2, hslice⟩ := range?_eq_some hhead
    have hl : head.length = 2 := by
      rw [hslice, length_slice_of_le (by omega)]
    have hle : leBytes 2 (leNat head) = head := by rw [← hl, leBytes_leNat]
    rw [hle, hslice, slice, List.drop_zero, Nat.sub_zero, List.take_append_drop]
  obtain ⟨h1, h2⟩ := plain_of_lt (n := leNat head) (by omega) (rec.drop 2)
  rw [← hfront] at h1 h2
  refine ⟨_, _, rfl, ?_⟩
  rw [validatedKey, validatedChild, head?, hhead]
  have hchild : range? rec (2 + leNat head) (6 + leNat head)
      = some (rec.slice (2 + leNat head) 4) := by
    rw [range?, if_pos ⟨by omega, by omega⟩]
    congr 2
    omega
  simp [h1, h2, hkey, hchild, u32At]

/-- An interior cell that is accepted is what is written of its key and child. -/
lemma eq_encInterior {key : Bytes} {child : ℕ}
    (h : decodeRecord rec pageNo .interior = .ok (.interior key child)) : rec = encInterior key child := by
  rw [decodeRecord, if_neg (by simp), if_neg (by simp)] at h
  simp only [bind_eq_ok, orElse_eq_ok, if_true, refuse_eq_ok, pure_eq_ok, not_not] at h
  obtain ⟨head, hhead, k, hkey, -, hend, heq⟩ := h
  cases heq
  obtain ⟨-, h2, hslice⟩ := range?_eq_some hhead
  obtain ⟨-, hk, hkslice⟩ := range?_eq_some hkey
  rw [Nat.sub_zero] at hslice
  rw [Nat.add_sub_cancel_left] at hkslice
  have hl : head.length = 2 := by rw [hslice, length_slice_of_le (by omega)]
  have hkl : key.length = leNat head := by rw [hkslice, length_slice_of_le (by omega)]
  have h4 : leBytes 4 (u32At rec (2 + leNat head)) = rec.slice (2 + leNat head) 4 := by
    have hlen4 : (rec.slice (2 + leNat head) 4).length = 4 := length_slice_of_le (by omega)
    have := leBytes_leNat (rec.slice (2 + leNat head) 4)
    rwa [hlen4] at this
  have hdrop : rec.slice (2 + leNat head) 4 = (rec.drop 2).drop (leNat head) := by
    rw [slice, List.drop_drop, List.take_of_length_le]
    rw [List.length_drop]
    omega
  have hhead2 : head = rec.take 2 := hslice
  have hk2 : key = (rec.drop 2).take (leNat head) := hkslice
  have hlen2 : leBytes 2 (leNat head) = head := by
    have := leBytes_leNat head
    rwa [hl] at this
  rw [encInterior, hkl, hlen2, h4, hdrop, List.append_assoc]
  conv_lhs => rw [← List.take_append_drop 2 rec, ← hhead2,
    ← List.take_append_drop (leNat head) (rec.drop 2), ← hk2]

end Validated

/-- The record `insert` puts into a leaf is read back. -/
lemma decodeRecord_leafRecord {key val marker cell : Bytes} {compact : Bool} (pageNo : ℕ)
    (hm : marker.length = 12) (h : leafRecord key val marker compact = .ok cell) :
    decodeRecord cell pageNo .leaf
      = .ok (.leaf key (if spills key val then marker else val) (spills key val)) := by
  rw [leafRecord] at h
  cases hs : spills key val with
  | true =>
      rw [hs] at h
      simp only [if_true] at h
      split_ifs at h with hlen
      cases h
      rw [encLeafMarker] at hlen
      simp only [List.length_append, length_leBytes, hm, not_lt] at hlen
      exact decodeRecord_encLeafMarker (by omega) hm
  | false =>
      rw [hs] at h
      simp only [Bool.false_eq_true, if_false] at h
      split_ifs at h with hlen
      cases h
      rw [spills, decide_eq_false_iff_not, not_lt] at hs
      exact decodeRecord_encLeaf hs compact

/-- **The cells of a page.**  The record `insert` puts into a leaf is read back, in either encoding.  Of a
leaf cell that is accepted the readers without checks stay in bounds and return what was read with
checks; of an interior cell too, when it is no longer than a page. -/
theorem decode_cells :
    (∀ (key val marker cell : Bytes) (compact : Bool) (pageNo : ℕ), marker.length = 12 →
      leafRecord key val marker compact = .ok cell → decodeRecord cell pageNo .leaf
        = .ok (.leaf key (if spills key val then marker else val) (spills key val)))
    ∧ (∀ (rec : Bytes) (pageNo : ℕ) (d : DecodedRecord), decodeRecord rec pageNo .leaf = .ok d →
      ∃ key value overflow, d = .leaf key value overflow
        ∧ validatedKey rec = some key ∧ validatedLeaf rec = some (key, value, overflow))
    ∧ ∀ (rec : Bytes) (pageNo : ℕ) (d : DecodedRecord), rec.length ≤ pageSize →
      decodeRecord rec pageNo .interior = .ok d →
      ∃ key child, d = .interior key child
        ∧ validatedKey rec = some key ∧ validatedChild rec = some child :=
  ⟨fun _ _ _ _ _ pageNo hm h => decodeRecord_leafRecord pageNo hm h,
    fun _ _ _ h => decodeRecord_leaf h, fun _ _ _ hlen h => decodeRecord_interior hlen h⟩

/-- An integer key, compact and plain, and an interior cell. -/
theorem decode_cells_integer :
    decodeRecord [0xff, 0x81, 7, 9] 2 .leaf = .ok (.leaf [0x81, 7] [9] false)
    ∧ (∃ key value overflow, DecodedRecord.leaf [0x81, 7] [9] false = .leaf key value overflow
      ∧ validatedKey [2, 0, 0x81, 7, 1, 0, 9] = some key
      ∧ validatedLeaf [2, 0, 0x81, 7, 1, 0, 9] = some (key, value, overflow))
    ∧ ∃ key child, DecodedRecord.interior [0x81, 7] 5 = .interior key child
      ∧ validatedKey [2, 0, 0x81, 7, 5, 0, 0, 0] = some key
      ∧ validatedChild [2, 0, 0x81, 7, 5, 0, 0, 0] = some child :=
  ⟨decode_cells.1 [0x81, 7] [9] (List.replicate 12 0) [0xff, 0x81, 7, 9] true 2 rfl (by decide),
    decode_cells.2.1 [2, 0, 0x81, 7, 1, 0, 9] 2 _ (by decide),
    decode_cells.2.2 [2, 0, 0x81, 7, 5, 0, 0, 0] 2 _ (by decide) (by decide)⟩

lemma validatedKey_empty (rest : Bytes) : validatedKey (0 :: 0x40 :: rest) = some [] := by
  have hlen : 2 ≤ (0 :: 0x40 :: rest : Bytes).length := Nat.le_add_left 2 _
  have hhead : head? (0 :: 0x40 :: rest) = some [0, 0x40] := by
    rw [head?, range?, if_pos ⟨by norm_num, hlen⟩]
    rfl
  have h1 : isInteger (0 :: 0x40 :: rest) = false := rfl
  have h2 : isCompact (0 :: 0x40 :: rest) = true := rfl
  have hend : compactEnd (0 :: 0x40 :: rest) = 2 := by simp [compactEnd, u16At, slice, leNat]
  rw [validatedKey, hhead]
  simp only [h1, h2, hend, range?, Bool.false_eq_true, if_false, if_true, bind, Option.bind]
  rw [if_pos ⟨le_rfl, hlen⟩, slice, Nat.sub_self, List.take_zero]

/-- A string longer than a page, with a key length that reads as a compact cell's, is accepted for an
interior page, and read without checks as having an empty key. -/
theorem validatedKey_oversized :
    decodeRecord (encInterior (List.replicate 0x4000 0) 7) 2 .interior
        = .ok (.interior (List.replicate 0x4000 0) 7)
      ∧ validatedKey (encInterior (List.replicate 0x4000 0) 7) ≠ some (List.replicate 0x4000 0) := by
  refine ⟨decodeRecord_encInterior (by rw [List.length_replicate]; norm_num) (by norm_num), ?_⟩
  have hrec : encInterior (List.replicate 0x4000 0) 7
      = 0 :: 0x40 :: (List.replicate 0x4000 0 ++ leBytes 4 7) := by
    rw [encInterior, List.length_replicate]
    rfl
  have hempty : validatedKey (encInterior (List.replicate 0x4000 0) 7) = some [] := by
    rw [hrec, validatedKey_empty]
  rw [hempty]
  intro h
  have := congrArg List.length (Option.some.inj h)
  rw [List.length_replicate] at this
  cases this

end BTree
