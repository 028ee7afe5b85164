import Sekejap.Text.Segments

/-!
# Norm blocks

A late build packs the lengths of the documents (`core/engine/src/index/text/segments.rs`): one value for each
256 consecutive sequences, of a bit for each of them and then the length of each document that is there.

* **`decode_normBlock`**, **`eq_normBlock_of_decode`** — a value is read back, and what is read was
  written so.
* **`normPackAll_eq`** — the values of an ascending list are those of its blocks, one after another.
-/

open Fallible

namespace Engine.Segments

/-! ## Reading -/

/-- `norm_block_of` -/
def normBlockOf (sequence : ℕ) : ℕ := sequence / 256

/-- `norm_slot_of` -/
def normSlotOf (sequence : ℕ) : ℕ := sequence % 256

/-- `NORM_BITMAP_BYTES` -/
def normBitmapBytes : ℕ := 32

/-- A slot's bit. -/
def hasBit (bitmap : Bytes) (slot : ℕ) : Bool := (bitmap.getD (slot / 8) 0).toNat.testBit (slot % 8)

/-- The bitmap with a slot's bit set. -/
def setBit (bitmap : Bytes) (slot : ℕ) : Bytes :=
  bitmap.set (slot / 8) (UInt8.ofNat ((bitmap.getD (slot / 8) 0).toNat ||| 2 ^ (slot % 8)))

/-- `count_ones` of a byte. -/
def countOnes (b : UInt8) : ℕ := (List.range 8).countP (b.toNat.testBit ·)

/-- The loop of `decode_norm_block` over the slots, from `slot` on. -/
def decodeSlots (bitmap : Bytes) : ℕ → ℕ → Bytes → Except Error (List (ℕ × ℕ) × Bytes)
  | 0, _, b => .ok ([], b)
  | n + 1, slot, b =>
      if hasBit bitmap slot then do
        let (length, b) ← readVarint b
        refuse (2 ^ 32 ≤ length) (.corrupt "text norm block length bounds")
        let (out, b) ← decodeSlots bitmap n (slot + 1) b
        pure ((slot, length) :: out, b)
      else decodeSlots bitmap n (slot + 1) b

/-- `decode_norm_block` -/
def decodeNormBlock : Bytes → Except Error (List (ℕ × ℕ))
  | [] => .error (.corrupt "empty text norm block")
  | tag :: b => do
      refuse (tag ≠ format) (.corrupt "unknown text norm block format")
      refuse (b.length < normBitmapBytes) (.corrupt "text norm block bitmap is truncated")
      let bitmap := b.take normBitmapBytes
      let present := (bitmap.map countOnes).sum
      refuse (present = 0) (.corrupt "text norm block presents no document")
      let b := b.drop normBitmapBytes
      refuse (b.length < present) (.corrupt "text norm block presence exceeds its bytes")
      let (out, b) ← decodeSlots bitmap 256 0 b
      refuse (b ≠ []) (.corrupt "text norm block has trailing bytes")
      pure out

/-! ## Packing -/

structure NormPacker where
  block : ℕ
  bitmap : Bytes
  body : Bytes
  previous : ℕ
  count : ℕ

/-- No bit set. -/
def emptyBitmap : Bytes := List.replicate normBitmapBytes 0

namespace NormPacker

def new : NormPacker := ⟨0, emptyBitmap, [], 0, 0⟩

def take (p : NormPacker) : Except Error ((ℕ × Bytes) × NormPacker) :=
  if p.count = 0 then .error (.corrupt "empty text norm block")
  else .ok ((p.block, format :: (p.bitmap ++ p.body)),
    { p with bitmap := emptyBitmap, body := [], count := 0 })

/-- The document joins what is held. -/
def add (p : NormPacker) (sequence length : ℕ) : NormPacker :=
  ⟨normBlockOf sequence, setBit p.bitmap (normSlotOf sequence), p.body ++ putVarint length, sequence,
    p.count + 1⟩

def push (p : NormPacker) (sequence length : ℕ) :
    Except Error (Option (ℕ × Bytes) × NormPacker) := do
  refuse (sequence = 0) (.corrupt "text norm block sequence bounds")
  refuse (p.count ≠ 0 ∧ sequence ≤ p.previous) (.corrupt "text norm block sequences must ascend")
  if p.count ≠ 0 ∧ normBlockOf sequence ≠ p.block then do
    let (finished, p) ← p.take
    pure (some finished, p.add sequence length)
  else
    pure (none, p.add sequence length)

def finish (p : NormPacker) : Except Error (Option (ℕ × Bytes) × NormPacker) :=
  if p.count = 0 then .ok (none, p)
  else do
    let (finished, p) ← p.take
    pure (some finished, p)

/-- Every document is pushed, and then the packer is finished: the values in the order they come. -/
def packAll (p : NormPacker) : List (ℕ × ℕ) → Except Error (List (ℕ × Bytes))
  | [] => do
      let (finished, _) ← p.finish
      pure finished.toList
  | x :: documents => do
      let (finished, p) ← p.push x.1 x.2
      let rest ← p.packAll documents
      pure (finished.toList ++ rest)

end NormPacker

/-! ## Bitmaps -/

/-- The bitmap of some slots. -/
def bitmapOf (slots : List ℕ) : Bytes := slots.foldl setBit emptyBitmap

section Bitmaps

variable {bitmap bitmap' : Bytes} {slot s : ℕ} {slots : List ℕ}

@[simp] lemma length_setBit : (setBit bitmap slot).length = bitmap.length := by
  simp [setBit]

lemma length_bitmapOf (slots : List ℕ) : (bitmapOf slots).length = 32 := by
  have hfold : ∀ bitmap : Bytes, (slots.foldl setBit bitmap).length = bitmap.length := by
    induction slots with
    | nil => exact fun _ => rfl
    | cons x slots ih =>
        intro bitmap
        rw [List.foldl_cons, ih, length_setBit]
  rw [bitmapOf, hfold, emptyBitmap, List.length_replicate, normBitmapBytes]

lemma hasBit_setBit (hlen : bitmap.length = 32) (hslot : slot < 256) :
    hasBit (setBit bitmap slot) s = (decide (s = slot) || hasBit bitmap s) := by
  have hget : (setBit bitmap slot).getD (s / 8) 0 = if s / 8 = slot / 8 then
      UInt8.ofNat ((bitmap.getD (slot / 8) 0).toNat ||| 2 ^ (slot % 8)) else bitmap.getD (s / 8) 0 := by
    rw [setBit, List.getD_eq_getElem?_getD, List.getElem?_set]
    by_cases heq : slot / 8 = s / 8
    · have hlt : s / 8 < bitmap.length := by omega
      rw [if_pos heq, if_pos heq.symm, if_pos (by omega)]
      rfl
    · rw [if_neg heq, if_neg fun h => heq h.symm, List.getD_eq_getElem?_getD]
  rw [hasBit, hget]
  by_cases heq : s / 8 = slot / 8
  · have hbyte : ((bitmap.getD (slot / 8) 0).toNat ||| 2 ^ (slot % 8)) < 2 ^ 8 :=
      Nat.or_lt_two_pow (UInt8.toNat_lt _) (Nat.pow_lt_pow_right (by norm_num) (Nat.mod_lt _ (by norm_num)))
    rw [if_pos heq, toNat_low hbyte, Nat.testBit_or, Nat.testBit_two_pow, hasBit, heq, Bool.or_comm]
    have hiff : slot % 8 = s % 8 ↔ s = slot := by omega
    simp only [hiff]
  · have hne : s ≠ slot := by
      rintro rfl
      exact heq rfl
    rw [if_neg heq, hasBit, decide_eq_false hne, Bool.false_or]

lemma hasBit_empty : hasBit emptyBitmap s = false := by
  rw [hasBit, emptyBitmap, List.getD_eq_getElem?_getD, List.getElem?_replicate]
  split <;> simp

lemma hasBit_bitmapOf (h : ∀ x ∈ slots, x < 256) : hasBit (bitmapOf slots) s = true ↔ s ∈ slots := by
  induction slots using List.reverseRecOn with
  | nil => simp [bitmapOf, hasBit_empty]
  | append_singleton slots x ih =>
      have hstep : bitmapOf (slots ++ [x]) = setBit (bitmapOf slots) x := by
        simp [bitmapOf, List.foldl_append]
      rw [hstep, hasBit_setBit (length_bitmapOf slots) (h x (by simp)), Bool.or_eq_true,
        ih fun y hy => h y (by simp [hy])]
      simp [or_comm]

/-- A bitmap is known by its bits. -/
lemma bitmap_ext (hlen : bitmap.length = 32) (hlen' : bitmap'.length = 32)
    (h : ∀ s < 256, hasBit bitmap s = hasBit bitmap' s) : bitmap = bitmap' := by
  refine List.ext_getElem (hlen.trans hlen'.symm) fun i hi hi' => ?_
  refine UInt8.toNat_inj.mp (Nat.eq_of_testBit_eq fun j => ?_)
  by_cases hj : j < 8
  · have := h (8 * i + j) (by omega)
    rw [hasBit, hasBit] at this
    have hdiv : (8 * i + j) / 8 = i := by omega
    have hmod : (8 * i + j) % 8 = j := by omega
    simpa [hdiv, hmod, List.getD_eq_getElem?_getD, hi, hi'] using this
  · have hpow : 2 ^ 8 ≤ 2 ^ j := Nat.pow_le_pow_right (by norm_num) (by omega)
    rw [Nat.testBit_lt_two_pow ((UInt8.toNat_lt _).trans_le hpow),
      Nat.testBit_lt_two_pow ((UInt8.toNat_lt _).trans_le hpow)]

/-- The bits that are set are counted byte by byte. -/
lemma sum_countOnes (bitmap : Bytes) :
    (bitmap.map countOnes).sum = ((List.range (8 * bitmap.length)).filter (hasBit bitmap)).length := by
  induction bitmap with
  | nil => rfl
  | cons b bitmap ih =>
      have hhead : (List.range 8).filter (hasBit (b :: bitmap)) = (List.range 8).filter (b.toNat.testBit ·) := by
        refine List.filter_congr fun i hi => ?_
        rw [List.mem_range] at hi
        rw [hasBit, Nat.div_eq_of_lt hi, Nat.mod_eq_of_lt hi]
        rfl
      have htail : (List.range (8 * bitmap.length)).filter (hasBit (b :: bitmap) ∘ (8 + ·)) =
          (List.range (8 * bitmap.length)).filter (hasBit bitmap) := by
        refine List.filter_congr fun i _ => ?_
        have hdiv : (8 + i) / 8 = i / 8 + 1 := by omega
        have hmod : (8 + i) % 8 = i % 8 := by omega
        rw [Function.comp_apply, hasBit, hasBit, hdiv, hmod, List.getD_cons_succ]
      have hlen : 8 * (b :: bitmap).length = 8 + 8 * bitmap.length := by
        rw [List.length_cons]
        ring
      rw [List.map_cons, List.sum_cons, ih, hlen, List.range_add, List.filter_append, List.filter_map,
        List.length_append, List.length_map, hhead, htail, countOnes, List.countP_eq_length_filter]

end Bitmaps

/-! ## A value and its documents -/

/-- The value of some slots with their lengths. -/
def normBlock (pairs : List (ℕ × ℕ)) : Bytes :=
  format :: (bitmapOf (pairs.map Prod.fst) ++ pairs.flatMap fun x => putVarint x.2)

/-- Slots in ascending order, with lengths that fit. -/
structure Slots (pairs : List (ℕ × ℕ)) : Prop where
  ascends : pairs.Pairwise fun x y => x.1 < y.1
  slot_lt : ∀ x ∈ pairs, x.1 < 256
  length_lt : ∀ x ∈ pairs, x.2 < 2 ^ 32

section Values

variable {bitmap b rest : Bytes} {pairs : List (ℕ × ℕ)} {n slot : ℕ}

/-- The slots of a value are those whose bits are set. -/
lemma Slots.filter_eq (h : Slots pairs) :
    (List.range' 0 256).filter (hasBit (bitmapOf (pairs.map Prod.fst))) = pairs.map Prod.fst := by
  have hlt : ∀ s ∈ pairs.map Prod.fst, s < 256 := by
    simpa using h.slot_lt
  have hsorted : (pairs.map Prod.fst).Pairwise (· < ·) := List.pairwise_map.mpr h.ascends
  have hrange : ((List.range' 0 256).filter (hasBit (bitmapOf (pairs.map Prod.fst)))).Pairwise (· < ·) :=
    List.Pairwise.filter _ List.pairwise_lt_range'
  have hnodup {l : List ℕ} (hl : l.Pairwise (· < ·)) : l.Nodup := hl.imp fun h => h.ne
  have hperm : ((List.range' 0 256).filter (hasBit (bitmapOf (pairs.map Prod.fst)))).Perm
      (pairs.map Prod.fst) := by
    refine (List.perm_ext_iff_of_nodup (hnodup hrange) (hnodup hsorted)).mpr fun s => ?_
    rw [List.mem_filter, hasBit_bitmapOf hlt, List.mem_range'_1]
    constructor
    · exact fun h => h.2
    · exact fun h => ⟨⟨Nat.zero_le s, by simpa using hlt s h⟩, h⟩
  exact hperm.eq_of_pairwise (fun a b _ _ h h' => absurd h h'.not_gt) hrange hsorted

lemma decodeSlots_eq (hslots : (List.range' slot n).filter (hasBit bitmap) = pairs.map Prod.fst)
    (hlt : ∀ x ∈ pairs, x.2 < 2 ^ 32) :
    decodeSlots bitmap n slot ((pairs.flatMap fun x => putVarint x.2) ++ rest) = .ok (pairs, rest) := by
  induction n generalizing slot pairs with
  | zero =>
      obtain rfl : pairs = [] := by simpa using hslots.symm
      rfl
  | succ n ih =>
      rw [List.range'_succ, List.filter_cons] at hslots
      rw [decodeSlots]
      by_cases hbit : hasBit bitmap slot = true
      · rw [if_pos hbit] at hslots ⊢
        cases pairs with
        | nil => simp at hslots
        | cons x pairs =>
            obtain ⟨rfl, hrest⟩ := List.cons.inj hslots
            rw [List.forall_mem_cons] at hlt
            have hword : x.2 < 2 ^ 64 := hlt.1.trans (by norm_num)
            rw [List.flatMap_cons, List.append_assoc, readVarint_putVarint hword]
            simp only [bind, Except.bind, refuse, if_neg hlt.1.not_ge, ih hrest hlt.2]
            rfl
      · rw [if_neg hbit] at hslots ⊢
        exact ih hslots hlt

lemma eq_of_decodeSlots (h : decodeSlots bitmap n slot b = .ok (pairs, rest)) :
    b = (pairs.flatMap fun x => putVarint x.2) ++ rest ∧
      (List.range' slot n).filter (hasBit bitmap) = pairs.map Prod.fst ∧ ∀ x ∈ pairs, x.2 < 2 ^ 32 := by
  induction n generalizing slot b pairs with
  | zero =>
      obtain ⟨rfl, rfl⟩ : [] = pairs ∧ b = rest := by simpa [decodeSlots] using h
      simp
  | succ n ih =>
      rw [decodeSlots] at h
      rw [List.range'_succ, List.filter_cons]
      by_cases hbit : hasBit bitmap slot = true
      · rw [if_pos hbit] at h ⊢
        simp only [bind_eq_ok, refuse_eq_ok, pure_eq_ok, Prod.exists, Prod.mk.injEq] at h
        obtain ⟨length, b₁, hread, -, hlt, out, b₂, hout, rfl, rfl⟩ := h
        obtain ⟨rfl, -⟩ := eq_putVarint_of_readVarint hread
        obtain ⟨rfl, hslots, hall⟩ := ih hout
        refine ⟨by simp, by simp [hslots], ?_⟩
        rw [List.forall_mem_cons]
        exact ⟨not_le.mp hlt, hall⟩
      · rw [if_neg hbit] at h ⊢
        exact ih h

lemma sum_bits (hlen : bitmap.length = 32) :
    (bitmap.map countOnes).sum = ((List.range' 0 256).filter (hasBit bitmap)).length := by
  rw [sum_countOnes, hlen, List.range_eq_range']

lemma length_le_flatMap (pairs : List (ℕ × ℕ)) :
    pairs.length ≤ (pairs.flatMap fun x => putVarint x.2).length := by
  induction pairs with
  | nil => exact le_rfl
  | cons x pairs ih =>
      have := length_putVarint_pos x.2
      rw [List.flatMap_cons, List.length_append, List.length_cons]
      omega

/-- **A value is read back.** -/
lemma decode_normBlock (hne : pairs ≠ []) (h : Slots pairs) :
    decodeNormBlock (normBlock pairs) = .ok pairs := by
  set bitmap := bitmapOf (pairs.map Prod.fst) with hbitmap
  set tail := pairs.flatMap fun x => putVarint x.2 with htail
  have hlen : bitmap.length = normBitmapBytes := length_bitmapOf _
  have hpresent : (bitmap.map countOnes).sum = pairs.length := by
    rw [sum_bits hlen, h.filter_eq, List.length_map]
  have hzero : ¬ pairs.length = 0 := by simpa using hne
  have hbody : decodeSlots bitmap 256 0 tail = .ok (pairs, []) := by
    have := @decodeSlots_eq bitmap [] pairs 256 0 h.filter_eq h.length_lt
    rwa [List.append_nil] at this
  have htake : (bitmap ++ tail).take normBitmapBytes = bitmap := List.take_left' hlen
  have hdrop : (bitmap ++ tail).drop normBitmapBytes = tail := List.drop_left' hlen
  have hshort : ¬ (bitmap ++ tail).length < normBitmapBytes := by
    rw [List.length_append, hlen]
    omega
  have hbytes : ¬ tail.length < pairs.length := (length_le_flatMap pairs).not_gt
  simp only [normBlock, decodeNormBlock, ← hbitmap, ← htail, htake, hdrop, hpresent, hbody, bind,
    Except.bind, refuse, ne_eq, not_true_eq_false, if_false, if_neg hshort, if_neg hzero,
    if_neg hbytes]
  rfl

/-- **What is read was written so**: a value is the value of its slots. -/
lemma eq_normBlock_of_decode (h : decodeNormBlock b = .ok pairs) :
    b = normBlock pairs ∧ pairs ≠ [] ∧ Slots pairs := by
  cases b with
  | nil => cases h
  | cons tag b =>
      simp only [decodeNormBlock, bind_eq_ok, refuse_eq_ok, pure_eq_ok, Prod.exists, not_not] at h
      obtain ⟨-, rfl, -, hshort, -, hpresent, -, -, out, rest, hout, -, rfl, rfl⟩ := h
      have hlen : (b.take normBitmapBytes).length = 32 := by
        rw [List.length_take]
        simp only [normBitmapBytes] at hshort ⊢
        omega
      obtain ⟨hdrop, hslots, hlt⟩ := eq_of_decodeSlots hout
      rw [List.append_nil] at hdrop
      have hslot : ∀ x ∈ out, x.1 < 256 := by
        intro x hx
        have hmem : x.1 ∈ (List.range' 0 256).filter (hasBit (b.take normBitmapBytes)) := by
          rw [hslots]
          exact List.mem_map_of_mem hx
        simpa using (List.mem_range'_1.mp (List.mem_filter.mp hmem).1).2
      have hasc : out.Pairwise fun x y => x.1 < y.1 := by
        rw [← List.pairwise_map (f := Prod.fst) (R := (· < ·)), ← hslots]
        exact List.Pairwise.filter _ List.pairwise_lt_range'
      have hbitmap : b.take normBitmapBytes = bitmapOf (out.map Prod.fst) := by
        refine bitmap_ext hlen (length_bitmapOf _) fun s hs => ?_
        rw [Bool.eq_iff_iff, hasBit_bitmapOf (by simpa using hslot), ← hslots, List.mem_filter,
          List.mem_range'_1]
        simp [hs]
      refine ⟨?_, ?_, hasc, hslot, hlt⟩
      · rw [normBlock, ← hbitmap, ← hdrop, List.take_append_drop]
      · rintro rfl
        rw [sum_bits hlen, hslots] at hpresent
        exact hpresent rfl

end Values

/-! ## What a packer does -/

/-- The slots of some documents of one block. -/
def slotsOf (documents : List (ℕ × ℕ)) : List (ℕ × ℕ) := documents.map fun x => (normSlotOf x.1, x.2)

/-- The block of some documents, which is that of the last of them. -/
def blockOf (documents : List (ℕ × ℕ)) : ℕ := normBlockOf (lastOf 0 documents)

/-- The packer holds some documents. -/
structure NormPacker.Holds (p : NormPacker) (held : List (ℕ × ℕ)) : Prop where
  bitmap : p.bitmap = bitmapOf ((slotsOf held).map Prod.fst)
  body : p.body = (slotsOf held).flatMap fun x => putVarint x.2
  count : p.count = held.length
  block : held ≠ [] → p.block = blockOf held
  previous : held ≠ [] → p.previous = lastOf 0 held

/-- The blocks that documents are cut into, after those that are held. -/
def blocks (held : List (ℕ × ℕ)) : List (ℕ × ℕ) → List (List (ℕ × ℕ))
  | [] => if held = [] then [] else [held]
  | x :: documents =>
      if held ≠ [] ∧ normBlockOf x.1 ≠ blockOf held then held :: blocks [x] documents
      else blocks (held ++ [x]) documents

section Packing

variable {p : NormPacker} {held documents c : List (ℕ × ℕ)} {x : ℕ × ℕ} {segs : List (ℕ × Bytes)}

lemma holds_new : NormPacker.new.Holds [] :=
  ⟨rfl, rfl, rfl, fun h => absurd rfl h, fun h => absurd rfl h⟩

lemma NormPacker.Holds.add (h : p.Holds held) (x : ℕ × ℕ) : (p.add x.1 x.2).Holds (held ++ [x]) where
  bitmap := by simp [NormPacker.add, h.bitmap, slotsOf, bitmapOf, List.foldl_append]
  body := by simp [NormPacker.add, h.body, slotsOf]
  count := by simp [NormPacker.add, h.count]
  block _ := by simp [NormPacker.add, blockOf, lastOf_append, lastOf]
  previous _ := by simp [NormPacker.add, lastOf_append, lastOf]

lemma NormPacker.Holds.count_eq_zero (h : p.Holds held) : p.count = 0 ↔ held = [] := by
  rw [h.count, List.length_eq_zero_iff]

/-- **What a packer gives when it is emptied.** -/
lemma NormPacker.Holds.take (h : p.Holds held) (hne : held ≠ []) :
    ∃ q : NormPacker, p.take = .ok ((blockOf held, normBlock (slotsOf held)), q) ∧ q.Holds [] := by
  refine ⟨{ p with bitmap := emptyBitmap, body := [], count := 0 }, ?_, rfl, rfl, rfl, ?_, ?_⟩
  · rw [NormPacker.take, if_neg (mt h.count_eq_zero.mp hne), h.block hne, h.bitmap, h.body]
    rfl
  · exact fun h => absurd rfl h
  · exact fun h => absurd rfl h

/-- **What a push does.** -/
lemma NormPacker.Holds.push (h : p.Holds held) (hzero : x.1 ≠ 0)
    (hasc : held ≠ [] → lastOf 0 held < x.1) :
    ∃ q : NormPacker, if held ≠ [] ∧ normBlockOf x.1 ≠ blockOf held then
        p.push x.1 x.2 = .ok (some (blockOf held, normBlock (slotsOf held)), q) ∧ q.Holds [x]
      else p.push x.1 x.2 = .ok (none, q) ∧ q.Holds (held ++ [x]) := by
  have hcount : p.count ≠ 0 ↔ held ≠ [] := not_congr h.count_eq_zero
  have hless : ¬ (p.count ≠ 0 ∧ x.1 ≤ p.previous) := by
    rintro ⟨hne, hle⟩
    rw [h.previous (hcount.mp hne)] at hle
    exact absurd hle (hasc (hcount.mp hne)).not_ge
  have hpush : p.push x.1 x.2 = if p.count ≠ 0 ∧ normBlockOf x.1 ≠ p.block then
        p.take >>= fun r => pure (some r.1, r.2.add x.1 x.2)
      else pure (none, p.add x.1 x.2) := by
    simp only [NormPacker.push, refuse, if_neg hzero, if_neg hless, bind, Except.bind]
  rw [hpush]
  by_cases hcut : held ≠ [] ∧ normBlockOf x.1 ≠ blockOf held
  · obtain ⟨q, htake, hq⟩ := h.take hcut.1
    refine ⟨q.add x.1 x.2, ?_⟩
    have hgo : p.count ≠ 0 ∧ normBlockOf x.1 ≠ p.block := by
      rw [h.block hcut.1]
      exact ⟨hcount.mpr hcut.1, hcut.2⟩
    rw [if_pos hcut, if_pos hgo, htake]
    exact ⟨rfl, hq.add x⟩
  · refine ⟨p.add x.1 x.2, ?_⟩
    have hstay : ¬ (p.count ≠ 0 ∧ normBlockOf x.1 ≠ p.block) := by
      rintro ⟨hne, hblock⟩
      rw [h.block (hcount.mp hne)] at hblock
      exact hcut ⟨hcount.mp hne, hblock⟩
    rw [if_neg hcut, if_neg hstay]
    exact ⟨rfl, h.add x⟩

/-- **The values of an ascending list are those of its blocks.** -/
lemma normPackAll_eq (h : p.Holds held) (hzero : ∀ x ∈ documents, x.1 ≠ 0)
    (hasc : (held ++ documents).Pairwise fun x y => x.1 < y.1) :
    p.packAll documents =
      .ok ((blocks held documents).map fun c => (blockOf c, normBlock (slotsOf c))) := by
  induction documents generalizing p held with
  | nil =>
      rw [NormPacker.packAll, blocks, NormPacker.finish]
      by_cases hne : held = []
      · rw [if_pos (h.count_eq_zero.mpr hne), if_pos hne]
        rfl
      · obtain ⟨q, htake, -⟩ := h.take hne
        rw [if_neg (mt h.count_eq_zero.mp hne), if_neg hne, htake]
        rfl
  | cons x documents ih =>
      rw [List.forall_mem_cons] at hzero
      have hless : held ≠ [] → lastOf 0 held < x.1 := by
        intro hne
        obtain ⟨y, hy, heq⟩ := @exists_lastOf 0 held hne
        rw [heq]
        exact (List.pairwise_append.mp hasc).2.2 y hy x List.mem_cons_self
      obtain ⟨q, hq⟩ := h.push hzero.1 hless
      rw [NormPacker.packAll, blocks]
      by_cases hcut : held ≠ [] ∧ normBlockOf x.1 ≠ blockOf held
      · rw [if_pos hcut] at hq ⊢
        rw [hq.1]
        simp only [bind, Except.bind, ih hq.2 hzero.2 (List.pairwise_append.mp hasc).2.1]
        rfl
      · rw [if_neg hcut] at hq ⊢
        rw [hq.1]
        simp only [bind, Except.bind, ih hq.2 hzero.2 (by simpa using hasc)]
        rfl

lemma blocks_flatten : (blocks held documents).flatten = held ++ documents := by
  induction documents generalizing held with
  | nil =>
      rw [blocks]
      split <;> simp_all
  | cons x documents ih =>
      rw [blocks]
      split
      · simp [ih]
      · simp [ih]

/-- What is held is of one block. -/
def OneBlock (documents : List (ℕ × ℕ)) : Prop := ∀ x ∈ documents, normBlockOf x.1 = blockOf documents

lemma OneBlock.add (h : OneBlock held) (hstay : held ≠ [] → normBlockOf x.1 = blockOf held) :
    OneBlock (held ++ [x]) := by
  have hlast : blockOf (held ++ [x]) = normBlockOf x.1 := by simp [blockOf, lastOf_append, lastOf]
  intro y hy
  rw [hlast]
  rcases List.mem_append.mp hy with hy | hy
  · rw [h y hy, hstay (List.ne_nil_of_mem hy)]
  · rw [List.mem_singleton.mp hy]

/-- **Every part is of one block, and not empty.** -/
lemma of_mem_blocks (hone : OneBlock held) (h : c ∈ blocks held documents) : c ≠ [] ∧ OneBlock c := by
  induction documents generalizing held with
  | nil =>
      rw [blocks] at h
      split at h
      · cases h
      · rename_i hne
        rw [List.mem_singleton.mp h]
        exact ⟨hne, hone⟩
  | cons x documents ih =>
      rw [blocks] at h
      split at h
      · rename_i hcut
        rcases List.mem_cons.mp h with rfl | h
        · exact ⟨hcut.1, hone⟩
        · exact ih (@OneBlock.add _ _ (fun y hy => by cases hy) fun h => absurd rfl h) h
      · rename_i hcut
        refine ih (hone.add fun hne => ?_) h
        by_contra hblock
        exact hcut ⟨hne, hblock⟩

/-- The blocks are in order, from that of what is held on. -/
lemma blocks_ascend (hasc : (held ++ documents).Pairwise fun x y => x.1 < y.1) :
    (∀ c ∈ blocks held documents, blockOf held ≤ blockOf c) ∧
      (blocks held documents).Pairwise fun c c' => blockOf c < blockOf c' := by
  induction documents generalizing held with
  | nil =>
      rw [blocks]
      split <;> simp
  | cons x documents ih =>
      have hle : blockOf held ≤ normBlockOf x.1 := by
        by_cases hne : held = []
        · simp [hne, blockOf, lastOf, normBlockOf]
        · obtain ⟨y, hy, heq⟩ := @exists_lastOf 0 held hne
          have hlt := (List.pairwise_append.mp hasc).2.2 y hy x List.mem_cons_self
          rw [blockOf, heq]
          exact Nat.div_le_div_right hlt.le
      rw [blocks]
      split
      · rename_i hcut
        have hlt : blockOf held < normBlockOf x.1 := lt_of_le_of_ne hle hcut.2.symm
        obtain ⟨hall, hpair⟩ := @ih [x] (List.pairwise_append.mp hasc).2.1
        have hless : ∀ c ∈ blocks [x] documents, blockOf held < blockOf c := fun c hc =>
          hlt.trans_le (hall c hc)
        exact ⟨List.forall_mem_cons.mpr ⟨le_rfl, fun c hc => (hless c hc).le⟩,
          List.pairwise_cons.mpr ⟨hless, hpair⟩⟩
      · have hlast : blockOf (held ++ [x]) = normBlockOf x.1 := by simp [blockOf, lastOf_append, lastOf]
        obtain ⟨hall, hpair⟩ := @ih (held ++ [x]) (by simpa using hasc)
        exact ⟨fun c hc => hle.trans (hlast ▸ hall c hc), hpair⟩

/-- The slots of a block. -/
lemma OneBlock.slots (h : OneBlock c) (hasc : c.Pairwise fun x y => x.1 < y.1)
    (hlt : ∀ x ∈ c, x.2 < 2 ^ 32) : Slots (slotsOf c) where
  ascends := by
    rw [slotsOf, List.pairwise_map]
    refine hasc.imp_of_mem fun {x y} hx hy hxy => ?_
    have hblock := (h x hx).trans (h y hy).symm
    simp only [normBlockOf, normSlotOf] at hblock ⊢
    omega
  slot_lt := by
    intro x hx
    obtain ⟨y, -, rfl⟩ := List.mem_map.mp hx
    exact Nat.mod_lt _ (by norm_num)
  length_lt := by
    intro x hx
    obtain ⟨y, hy, rfl⟩ := List.mem_map.mp hx
    exact hlt y hy

/-- A block and a slot are a sequence. -/
lemma OneBlock.documents_eq (h : OneBlock c) :
    (slotsOf c).map (fun x => (256 * blockOf c + x.1, x.2)) = c := by
  rw [slotsOf, List.map_map]
  conv_rhs => rw [← List.map_id c]
  refine List.map_congr_left fun x hx => ?_
  have hblock := h x hx
  simp only [Function.comp_apply, id_eq, ← hblock, normBlockOf, normSlotOf, Nat.div_add_mod]

/-- A block has 256 slots, so its value is small. -/
lemma length_normBlock_le {pairs : List (ℕ × ℕ)} (h : Slots pairs) :
    (normBlock pairs).length ≤ maxSegmentBytes := by
  have hcount : pairs.length ≤ 256 := by
    have hsub := List.filter_sublist (p := hasBit (bitmapOf (pairs.map Prod.fst))) (l := List.range' 0 256)
    have := hsub.length_le
    rwa [h.filter_eq, List.length_map, List.length_range'] at this
  have hbody : ∀ l : List (ℕ × ℕ), (∀ x ∈ l, x.2 < 2 ^ 32) →
      (l.flatMap fun x => putVarint x.2).length ≤ 5 * l.length := by
    intro l hl
    induction l with
    | nil => simp
    | cons x l ih =>
        rw [List.forall_mem_cons] at hl
        have h1 := length_putVarint_half hl.1
        have h2 := ih hl.2
        rw [List.flatMap_cons, List.length_append, List.length_cons]
        omega
  have := hbody pairs h.length_lt
  rw [normBlock, List.length_cons, List.length_append, length_bitmapOf, maxSegmentBytes]
  omega

/-- A list that is packed has no document of sequence zero. -/
lemma ne_zero_of_normPackAll (h : p.packAll documents = .ok segs) : ∀ x ∈ documents, x.1 ≠ 0 := by
  induction documents generalizing p segs with
  | nil => simp
  | cons y documents ih =>
      simp only [NormPacker.packAll, bind_eq_ok, pure_eq_ok, Prod.exists] at h
      obtain ⟨finished, q, hpush, rest, hrest, -⟩ := h
      simp only [NormPacker.push, bind_eq_ok, refuse_eq_ok] at hpush
      intro x hx
      rcases List.mem_cons.mp hx with rfl | hx
      · obtain ⟨-, hzero, -⟩ := hpush
        exact hzero
      · exact ih hrest x hx

/-- Keys in order tell the blocks apart. -/
lemma find_block {cuts : List (List (ℕ × ℕ))}
    (hkeys : cuts.Pairwise fun c c' => blockOf c < blockOf c') (hc : c ∈ cuts) :
    cuts.find? (fun d => blockOf d = blockOf c) = some c := by
  induction cuts with
  | nil => cases hc
  | cons d cuts ih =>
      rw [List.pairwise_cons] at hkeys
      rcases List.mem_cons.mp hc with rfl | hc
      · rw [List.find?_cons_of_pos (by simp)]
      · rw [List.find?_cons_of_neg (by simpa using (hkeys.1 c hc).ne)]
        exact ih hkeys.2 hc

/-- **The values of an ascending list of documents.** -/
lemma norms_packed (hzero : ∀ x ∈ documents, x.1 ≠ 0)
    (hasc : documents.Pairwise fun x y => x.1 < y.1) (hlt : ∀ x ∈ documents, x.2 < 2 ^ 32) :
    ∃ segs cuts, NormPacker.new.packAll documents = .ok segs ∧
      Packed decodeNormBlock slotsOf blockOf (fun s block => block = normBlockOf s) documents segs cuts ∧
      ∀ c ∈ cuts, OneBlock c := by
  have hflat : (blocks [] documents).flatten = documents := blocks_flatten
  have hcut : (blocks [] documents).flatten.Pairwise fun x y => x.1 < y.1 := by rwa [hflat]
  rw [List.pairwise_flatten] at hcut
  have hmem : ∀ c ∈ blocks [] documents, c ≠ [] ∧ OneBlock c := fun c hc =>
    of_mem_blocks (fun y hy => by cases hy) hc
  obtain ⟨-, hkeys⟩ := @blocks_ascend [] documents hasc
  have hslots : ∀ c ∈ blocks [] documents, Slots (slotsOf c) := by
    intro c hc
    refine (hmem c hc).2.slots (hcut.1 c hc) fun x hx => hlt x ?_
    rw [← hflat]
    exact List.mem_flatten.mpr ⟨c, hc, hx⟩
  refine ⟨_, blocks [] documents, normPackAll_eq holds_new hzero hasc, ⟨?_, hflat, hcut.2, ?_, ?_⟩,
    fun c hc => (hmem c hc).2⟩
  · rw [List.forall₂_map_left_iff, List.forall₂_same]
    intro c hc
    have hne : slotsOf c ≠ [] := by simpa [slotsOf] using (hmem c hc).1
    exact ⟨rfl, decode_normBlock hne (hslots c hc), length_normBlock_le (hslots c hc), (hmem c hc).1⟩
  · rw [List.pairwise_map]
    exact hkeys
  · intro seg c hzip x hx
    obtain ⟨rfl, hc⟩ := eq_of_mem_zip_map hzip
    rw [(hmem c hc).2 x hx, List.find?_map, Function.comp_def, find_block hkeys hc]
    rfl

lemma blocks_of_oneBlock {k : ℕ} (hne : held ++ documents ≠ [])
    (hall : ∀ x ∈ held ++ documents, normBlockOf x.1 = k) :
    blocks held documents = [held ++ documents] := by
  induction documents generalizing held with
  | nil =>
      rw [List.append_nil] at hne ⊢
      rw [blocks, if_neg hne]
  | cons x documents ih =>
      have hstay : ¬ (held ≠ [] ∧ normBlockOf x.1 ≠ blockOf held) := by
        rintro ⟨hheld, hcut⟩
        obtain ⟨y, hy, heq⟩ := @exists_lastOf 0 held hheld
        rw [blockOf, heq, hall y (by simp [hy]), hall x (by simp)] at hcut
        exact hcut rfl
      have hone : held ++ x :: documents = held ++ [x] ++ documents := by simp
      rw [hone] at hne hall ⊢
      rw [blocks, if_neg hstay]
      exact ih hne hall

/-- **A block that is read is packed to the same bytes**, as any block in which its slots are
sequences. -/
lemma normPackAll_of_decode {b : Bytes} {pairs : List (ℕ × ℕ)} (h : decodeNormBlock b = .ok pairs)
    (k : ℕ) (hzero : ∀ x ∈ pairs, 256 * k + x.1 ≠ 0) :
    NormPacker.new.packAll (pairs.map fun x => (256 * k + x.1, x.2)) = .ok [(k, b)] := by
  obtain ⟨rfl, hne, hslots⟩ := eq_normBlock_of_decode h
  set documents := pairs.map fun x => (256 * k + x.1, x.2) with hdocuments
  have hblock : ∀ x ∈ documents, normBlockOf x.1 = k := by
    intro x hx
    obtain ⟨y, hy, rfl⟩ := List.mem_map.mp hx
    have := hslots.slot_lt y hy
    simp only [normBlockOf]
    omega
  have hback : slotsOf documents = pairs := by
    rw [slotsOf, hdocuments, List.map_map]
    conv_rhs => rw [← List.map_id pairs]
    refine List.map_congr_left fun x hx => ?_
    have := hslots.slot_lt x hx
    simp only [Function.comp_apply, normSlotOf, id_eq]
    refine Prod.ext ?_ rfl
    simp only
    omega
  have hnonempty : documents ≠ [] := by simpa [hdocuments] using hne
  have hlast : blockOf documents = k := by
    obtain ⟨x, hx, heq⟩ := @exists_lastOf 0 documents hnonempty
    rw [blockOf, heq, hblock x hx]
  have hasc : documents.Pairwise fun x y => x.1 < y.1 := by
    rw [hdocuments, List.pairwise_map]
    exact hslots.ascends.imp fun h => Nat.add_lt_add_left h _
  have hwhole : blocks [] documents = [documents] := blocks_of_oneBlock hnonempty hblock
  have hnumbers : ∀ x ∈ documents, x.1 ≠ 0 := by
    intro x hx
    obtain ⟨y, hy, rfl⟩ := List.mem_map.mp hx
    exact hzero y hy
  have hpack := normPackAll_eq holds_new hnumbers hasc
  rw [hpack, hwhole, List.map_singleton, hlast, hback]

end Packing

/-! ## Both codecs -/

/-- **Packed postings and lengths.**  An ascending list without zeros is packed, and any other is refused;
the values are read back and are the list one after another, in order, each small enough and filed
under its last sequence, or under its block, so that a seek to a sequence comes to the one value that
can hold it.  What is read was written so: a value of lengths is packed again to the same bytes, and a
value of postings is the value of its postings, which the packer makes one value of just when they fit
with the widest header. -/
theorem text_codecs :
    (∀ postings : List Posting, (∀ x ∈ postings, x.1 < 2 ^ 64 ∧ x.2 < 2 ^ 32) →
      (postings.Pairwise fun x y => x.1 < y.1) →
      ((∃ segs, Packer.new.packAll postings = .ok segs) ↔ ∀ x ∈ postings, x.1 ≠ 0 ∧ x.2 ≠ 0) ∧
      ∀ segs, Packer.new.packAll postings = .ok segs →
        ∃ cuts, Packed decode id (lastOf 0) (fun s last => s ≤ last) postings segs cuts) ∧
    (∀ documents : List (ℕ × ℕ), (∀ x ∈ documents, x.1 < 2 ^ 64 ∧ x.2 < 2 ^ 32) →
      (documents.Pairwise fun x y => x.1 < y.1) →
      ((∃ segs, NormPacker.new.packAll documents = .ok segs) ↔ ∀ x ∈ documents, x.1 ≠ 0) ∧
      ∀ segs, NormPacker.new.packAll documents = .ok segs →
        ∃ cuts, Packed decodeNormBlock slotsOf blockOf (fun s block => block = normBlockOf s) documents
            segs cuts ∧
          ∀ c ∈ cuts, (slotsOf c).map (fun x => (256 * blockOf c + x.1, x.2)) = c) ∧
    (∀ b postings, decode b = .ok postings → b = segment postings ∧
      (Packer.new.packAll postings = .ok [(lastOf 0 postings, b)] ↔
        maxHeaderBytes + (bodyOf 0 postings).length ≤ maxSegmentBytes)) ∧
    ∀ b pairs k, decodeNormBlock b = .ok pairs → (∀ x ∈ pairs, 256 * k + x.1 ≠ 0) →
      NormPacker.new.packAll (pairs.map fun x => (256 * k + x.1, x.2)) = .ok [(k, b)] := by
  refine ⟨fun postings hwords hasc => ?_, fun documents hwords hasc => ?_, fun b postings h => ?_,
    fun b pairs k h hzero => normPackAll_of_decode h k hzero⟩
  · have hpacked (hzero : ∀ x ∈ postings, x.1 ≠ 0 ∧ x.2 ≠ 0) := postings_packed <|
      ascends_of_pairwise (fun x hx => Nat.pos_of_ne_zero (hzero x hx).1) hwords
        (fun x hx => (hzero x hx).2) hasc
    refine ⟨⟨fun ⟨segs, h⟩ => ne_zero_of_packAll h, fun hzero => ?_⟩, fun segs h => ?_⟩
    · obtain ⟨segs, -, h, -⟩ := hpacked hzero
      exact ⟨segs, h⟩
    · obtain ⟨segs', cuts, h', hcuts⟩ := hpacked (ne_zero_of_packAll h)
      obtain rfl := Except.ok.inj (h.symm.trans h')
      exact ⟨cuts, hcuts⟩
  · have hpacked (hzero : ∀ x ∈ documents, x.1 ≠ 0) :=
      norms_packed hzero hasc fun x hx => (hwords x hx).2
    refine ⟨⟨fun ⟨segs, h⟩ => ne_zero_of_normPackAll h, fun hzero => ?_⟩, fun segs h => ?_⟩
    · obtain ⟨segs, -, h, -⟩ := hpacked hzero
      exact ⟨segs, h⟩
    · obtain ⟨segs', cuts, h', hcuts, hone⟩ := hpacked (ne_zero_of_normPackAll h)
      obtain rfl := Except.ok.inj (h.symm.trans h')
      exact ⟨cuts, hcuts, fun c hc => (hone c hc).documents_eq⟩
  · obtain ⟨rfl, hne, hasc⟩ := eq_segment_of_decode h
    exact ⟨rfl, (packAll_eq_single hasc hne).trans not_lt⟩

theorem text_codecs_three : ∃ segs, Packer.new.packAll [(1, 7), (2, 1), (900, 4)] = .ok segs :=
  (text_codecs.1 [(1, 7), (2, 1), (900, 4)] (by simp) (by simp)).1.mpr (by simp)

/-- So many postings, of the sequences from `k + 1` on. -/
def oneByOne (k n : ℕ) : List Posting := (List.range' (k + 1) n).map fun i => (i, 1)

lemma oneByOne_succ (k n : ℕ) : oneByOne k (n + 1) = (k + 1, 1) :: oneByOne (k + 1) n := rfl

lemma ascends_oneByOne {k n : ℕ} (h : k + n < 2 ^ 64) : Ascends k (oneByOne k n) := by
  induction n generalizing k with
  | zero => trivial
  | succ n ih =>
      rw [oneByOne_succ]
      exact ⟨Nat.lt_succ_self k, by simp only; omega, by norm_num, by norm_num, ih (by omega)⟩

lemma length_bodyOf_oneByOne (k n : ℕ) : (bodyOf k (oneByOne k n)).length = 2 * n := by
  induction n generalizing k with
  | zero => rfl
  | succ n ih =>
      have hone : putVarint 1 = [1] := putVarint_small (by norm_num)
      rw [oneByOne_succ, bodyOf, List.length_append, ih, Nat.add_sub_cancel_left, hone]
      simp only [List.length_append, List.length_singleton]
      omega

/-- **A value can hold more postings than the packer puts in one.** -/
theorem packAll_cuts_value : ¬ ∀ b postings, decode b = .ok postings →
    Packer.new.packAll postings = .ok [(lastOf 0 postings, b)] := by
  intro h
  have hasc : Ascends 0 (oneByOne 0 1790) := ascends_oneByOne (by norm_num)
  have hne : oneByOne 0 1790 ≠ [] := by
    rw [oneByOne_succ]
    exact List.cons_ne_nil _ _
  have hfits := (packAll_eq_single hasc hne).mp (h _ _ (decode_segment hne hasc))
  rw [Overflows, length_bodyOf_oneByOne, maxSegmentBytes, maxHeaderBytes] at hfits
  omega

end Engine.Segments
