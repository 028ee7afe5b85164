import Sekejap.PageWal.Format

/-!
# WAL frames

A frame is one page image, or the commit of the images before it: 32 bytes of header, a page of
payload, and the identity of the database it belongs to (`frame`, `read_frame` and `torn_tail` of
`core/engine/src/store/pagewal/mod.rs`).

* `Verifies b` — what `readFrame` checks of the bytes it read; `readFrame_ok_iff` says it checks
  nothing else and changes nothing.
* `frame_verifies` and the field lemmas — a frame reads back as what it was made of.
* `tornTail_iff` — the one exception to "a complete bad frame refuses", as a statement about the
  frames after it.
-/

open Bytes Page Crc32c

namespace PageWal

/-- `const FRAME` -/
def frameLen : ℕ := 4144
/-- `const WAL_CAP` -/
def walCap : ℕ := 16 * 1024 * 1024

/-- `FileIo::read_at`: the whole range, or an I/O error. -/
def readAt (c : Bytes) (off n : ℕ) : Except Error Bytes :=
  if off + n ≤ c.length then .ok (c.slice off n) else .error (.io "failed to fill whole buffer")

/-- A frame with its checksum field still zero. -/
def rawFrame (kind no tx pages : ℕ) (payload identity : Bytes) : Bytes :=
  magicBytes ++ leBytes 4 kind ++ leBytes 4 no ++ leBytes 8 tx ++ leBytes 4 pages
    ++ leBytes 4 0 ++ payload ++ identity

def frame (kind no tx pages : ℕ) (payload identity : Bytes) : Bytes :=
  let b := rawFrame kind no tx pages payload identity
  b.splice 28 (leBytes 4 (crc32c b).toNat)

/-- The checksum a frame carries. -/
def frameCrc (b : Bytes) : ℕ := u32At b 28
def frameKind (b : Bytes) : ℕ := u32At b 8
def frameNo (b : Bytes) : ℕ := u32At b 12
def frameTx (b : Bytes) : ℕ := u64At b 16
def framePages (b : Bytes) : ℕ := u32At b 24
def framePayload (b : Bytes) : Bytes := b.slice 32 page
def frameIdentity (b : Bytes) : Bytes := b.slice (32 + page) 16

/-- The checksum test of `read_frame`, on bytes already read. -/
def Verifies (b : Bytes) : Prop :=
  b.slice 0 8 = magicBytes ∧ (crc32c (b.splice 28 (leBytes 4 0))).toNat = frameCrc b

instance (b : Bytes) : Decidable (Verifies b) := inferInstanceAs (Decidable (_ ∧ _))

def readFrame (wal : Bytes) (off : ℕ) : Except Error Bytes := do
  let b ← readAt wal off frameLen
  let want := frameCrc b
  let b := b.splice 28 (leBytes 4 0)
  if b.slice 0 8 ≠ magicBytes ∨ (crc32c b).toNat ≠ want then
    throw (bad "page WAL frame checksum/magic")
  return b.splice 28 (leBytes 4 want)

/-- `const SECTOR` of `torn_tail`. -/
def sector : ℕ := 512

/-- The loop of `torn_tail`, over the `n` complete frames from `next` on. -/
def tornTailLoop (wal : Bytes) (start : ℕ) : ℕ → ℕ → Bool
  | 0, _ => true
  | n + 1, next =>
      match readAt wal (next + (frameLen - sector)) sector with
      | .error _ => false
      | .ok tail =>
          if tail.any (· ≠ 0) then false
          else if next > start ∧ (readFrame wal next).isOk then false
          else tornTailLoop wal start n (next + frameLen)

/-- The damaged frame at `start` is a torn tail: it and every complete frame after it end in a
zero sector, and none after it verifies. -/
def tornTail (wal : Bytes) (start len : ℕ) : Bool :=
  tornTailLoop wal start ((len - start) / frameLen) start

/-- Where a page image stands in the log, and the checksum its frame must have. -/
structure FrameRef where
  offset : ℕ
  checksum : ℕ
  deriving DecidableEq, Repr

abbrev Index := Std.ExtTreeMap ℕ FrameRef

def readIndexedFrame (wal : Bytes) (reference : FrameRef) : Except Error Bytes := do
  let bytes ← readFrame wal reference.offset
  if frameCrc bytes ≠ reference.checksum then
    throw (bad "WAL frame differs from published version")
  return bytes

/-! ## Reading a frame -/

lemma readAt_ok {c : Bytes} {off n : ℕ} (h : off + n ≤ c.length) :
    readAt c off n = .ok (c.slice off n) := by rw [readAt, if_pos h]

lemma readAt_error {c : Bytes} {off n : ℕ} (h : c.length < off + n) :
    readAt c off n = .error (.io "failed to fill whole buffer") := by
  rw [readAt, if_neg (by omega)]

/-- Clearing the checksum field and restoring it changes nothing. -/
lemma splice_crc_restore {b : Bytes} (h : 32 ≤ b.length) :
    (b.splice 28 (leBytes 4 0)).splice 28 (leBytes 4 (frameCrc b)) = b := by
  have hs : leBytes 4 (frameCrc b) = b.slice 28 4 := by
    have hl : (b.slice 28 4).length = 4 := length_slice_of_le (by omega)
    have := leBytes_leNat (b.slice 28 4)
    rwa [hl] at this
  have hb : b = b.take 28 ++ (b.slice 28 4 ++ b.drop 32) := by
    rw [slice, show 32 = 28 + 4 from rfl, ← List.drop_drop, List.take_append_drop,
      List.take_append_drop]
  have hp : (b.take 28).length = 28 := by rw [List.length_take]; omega
  have hz : (b.slice 28 4).length = (leBytes 4 0).length := by
    rw [length_slice_of_le (by omega), length_leBytes]
  rw [hs, splice_segment (b.take 28) hb hp hz,
    splice_segment (b.take 28) rfl hp (by rw [← hz])]
  exact hb.symm

/-- **`read_frame` returns the bytes at the offset, exactly when they are there and verify.** -/
lemma readFrame_ok_iff {wal b : Bytes} {off : ℕ} :
    readFrame wal off = .ok b ↔
      off + frameLen ≤ wal.length ∧ b = wal.slice off frameLen ∧ Verifies b := by
  by_cases h : off + frameLen ≤ wal.length
  · have hl : (wal.slice off frameLen).length = frameLen := length_slice_of_le h
    have h32 : 32 ≤ (wal.slice off frameLen).length := by rw [hl]; decide
    have hm : ((wal.slice off frameLen).splice 28 (leBytes 4 0)).slice 0 8
        = (wal.slice off frameLen).slice 0 8 := slice_splice_before (by norm_num) (by omega)
    simp only [readFrame, readAt_ok h, bind, Except.bind, hm, splice_crc_restore h32]
    by_cases hv : Verifies (wal.slice off frameLen)
    · rw [if_neg (by rw [not_or, not_not, not_not]; exact hv)]
      constructor
      · rintro he
        cases he
        exact ⟨h, rfl, hv⟩
      · rintro ⟨-, rfl, -⟩
        rfl
    · rw [if_pos (by by_contra hc; rw [not_or, not_not, not_not] at hc; exact hv hc)]
      constructor
      · intro he; cases he
      · rintro ⟨-, rfl, hv'⟩
        exact absurd hv' hv
  · simp only [readFrame, readAt_error (by omega : wal.length < off + frameLen), bind, Except.bind]
    constructor
    · intro he; cases he
    · rintro ⟨h', -⟩
      exact absurd h' h

lemma readFrame_ok {wal : Bytes} {off : ℕ} (h : off + frameLen ≤ wal.length)
    (hv : Verifies (wal.slice off frameLen)) :
    readFrame wal off = .ok (wal.slice off frameLen) := readFrame_ok_iff.2 ⟨h, rfl, hv⟩

/-- A complete frame that does not verify is refused with the source's text. -/
lemma readFrame_bad {wal : Bytes} {off : ℕ} (h : off + frameLen ≤ wal.length)
    (hv : ¬ Verifies (wal.slice off frameLen)) :
    readFrame wal off = .error (bad "page WAL frame checksum/magic") := by
  have hl : (wal.slice off frameLen).length = frameLen := length_slice_of_le h
  have hm : ((wal.slice off frameLen).splice 28 (leBytes 4 0)).slice 0 8
      = (wal.slice off frameLen).slice 0 8 :=
    slice_splice_before (by norm_num) (by rw [hl]; decide)
  simp only [readFrame, readAt_ok h, bind, Except.bind, hm]
  rw [if_pos (by by_contra hc; rw [not_or, not_not, not_not] at hc; exact hv hc)]
  rfl

/-! ## The fields of a frame -/

section fields

variable {kind no tx pages : ℕ} {payload identity : Bytes}

/-- A frame as its eight segments. -/
lemma frame_eq (kind no tx pages : ℕ) (payload identity : Bytes) :
    frame kind no tx pages payload identity
      = (magicBytes ++ leBytes 4 kind ++ leBytes 4 no ++ leBytes 8 tx ++ leBytes 4 pages)
        ++ (leBytes 4 (crc32c (rawFrame kind no tx pages payload identity)).toNat
          ++ (payload ++ identity)) := by
  refine splice_segment _ (z := leBytes 4 0) ?_ (by simp [magicBytes]) (by simp)
  simp only [rawFrame, List.append_assoc]

lemma length_frame (hp : payload.length = page) (hi : identity.length = 16) :
    (frame kind no tx pages payload identity).length = frameLen := by
  rw [frame_eq]
  simp [magicBytes, hp, hi, page, frameLen]

lemma frameKind_frame (h : kind < 2 ^ 32) :
    frameKind (frame kind no tx pages payload identity) = kind := by
  rw [frameKind, u32At, frame_eq, slice_segment magicBytes (x := leBytes 4 kind)
    (by simp only [List.append_assoc]; rfl) (by simp [magicBytes]) (length_leBytes _ _)]
  exact leNat_leBytes_of_lt (lt_of_lt_of_le h (by norm_num))

lemma frameNo_frame (h : no < 2 ^ 32) :
    frameNo (frame kind no tx pages payload identity) = no := by
  rw [frameNo, u32At, frame_eq, slice_segment (magicBytes ++ leBytes 4 kind)
    (x := leBytes 4 no) (by simp only [List.append_assoc]; rfl) (by simp [magicBytes])
    (length_leBytes _ _)]
  exact leNat_leBytes_of_lt (lt_of_lt_of_le h (by norm_num))

lemma frameTx_frame (h : tx < 2 ^ 64) :
    frameTx (frame kind no tx pages payload identity) = tx := by
  rw [frameTx, u64At, frame_eq, slice_segment (magicBytes ++ leBytes 4 kind ++ leBytes 4 no)
    (x := leBytes 8 tx) (by simp only [List.append_assoc]; rfl) (by simp [magicBytes])
    (length_leBytes _ _)]
  exact leNat_leBytes_of_lt (lt_of_lt_of_le h (by norm_num))

lemma framePages_frame (h : pages < 2 ^ 32) :
    framePages (frame kind no tx pages payload identity) = pages := by
  rw [framePages, u32At, frame_eq, slice_segment
    (magicBytes ++ leBytes 4 kind ++ leBytes 4 no ++ leBytes 8 tx)
    (x := leBytes 4 pages) (by simp only [List.append_assoc]; rfl) (by simp [magicBytes])
    (length_leBytes _ _)]
  exact leNat_leBytes_of_lt (lt_of_lt_of_le h (by norm_num))

lemma framePayload_frame (hp : payload.length = page) :
    framePayload (frame kind no tx pages payload identity) = payload := by
  rw [framePayload, frame_eq, ← List.append_assoc]
  exact slice_segment _ rfl (by simp [magicBytes]) hp

lemma frameIdentity_frame (hp : payload.length = page) (hi : identity.length = 16) :
    frameIdentity (frame kind no tx pages payload identity) = identity := by
  rw [frameIdentity, frame_eq, ← List.append_assoc, ← List.append_assoc]
  exact slice_last _ rfl (by simp [magicBytes, hp]; omega) hi

lemma frame_verifies : Verifies (frame kind no tx pages payload identity) := by
  constructor
  · rw [frame_eq]
    exact slice_segment [] (by simp only [List.append_assoc]; rfl) rfl (by simp [magicBytes])
  · have hz : (frame kind no tx pages payload identity).splice 28 (leBytes 4 0)
        = rawFrame kind no tx pages payload identity := by
      rw [splice_segment _ (frame_eq kind no tx pages payload identity) (by simp [magicBytes])
        (by simp)]
      simp only [rawFrame, List.append_assoc]
    have hc : frameCrc (frame kind no tx pages payload identity)
        = (crc32c (rawFrame kind no tx pages payload identity)).toNat := by
      rw [frameCrc, u32At, slice_segment _ (frame_eq kind no tx pages payload identity)
        (by simp [magicBytes]) (length_leBytes _ _)]
      exact leNat_leBytes_of_lt (lt_of_lt_of_le (UInt32.toNat_lt _) (by norm_num))
    rw [hz, hc]

end fields

-- from here on a frame is known by its fields
attribute [irreducible] frame

/-! ## The torn tail -/

/-- The last 512 bytes of the frame at `next` are there and zero. -/
def ZeroEnd (wal : Bytes) (next : ℕ) : Prop :=
  wal.slice (next + (frameLen - sector)) sector = List.replicate sector 0

lemma any_ne_zero_eq_false {b : Bytes} :
    b.any (· ≠ 0) = false ↔ b = List.replicate b.length 0 := by
  rw [List.any_eq_false, List.eq_replicate_iff]
  simp

lemma tornTailLoop_iff (wal : Bytes) (start : ℕ) : ∀ n next : ℕ,
    next + n * frameLen ≤ wal.length →
    (tornTailLoop wal start n next = true ↔
      ∀ k < n, ZeroEnd wal (next + k * frameLen)
        ∧ (start < next + k * frameLen → ¬ (readFrame wal (next + k * frameLen)).isOk))
  | 0, next, _ => by simp [tornTailLoop]
  | n + 1, next, h => by
      have hf : frameLen = 4144 := rfl
      have hs : sector = 512 := rfl
      have hlen : next + (frameLen - sector) + sector ≤ wal.length := by
        rw [Nat.add_mul] at h; omega
      have ih := tornTailLoop_iff wal start n (next + frameLen) (by rw [Nat.add_mul] at h; omega)
      have hk : ∀ k, next + frameLen + k * frameLen = next + (k + 1) * frameLen := by
        intro k; rw [Nat.add_mul]; omega
      have hsl : (wal.slice (next + (frameLen - sector)) sector).length = sector :=
        length_slice_of_le hlen
      simp only [tornTailLoop, readAt_ok hlen]
      constructor
      · intro ht
        split_ifs at ht with hz hv
        intro k hk'
        cases k with
        | zero =>
            rw [Nat.zero_mul, Nat.add_zero]
            refine ⟨?_, fun hgt hok => hv ⟨hgt, hok⟩⟩
            rw [Bool.not_eq_true, any_ne_zero_eq_false, hsl] at hz
            exact hz
        | succ k =>
            rw [← hk]
            exact ih.1 ht k (by omega)
      · intro hall
        have h0 := hall 0 (by omega)
        rw [Nat.zero_mul, Nat.add_zero] at h0
        have hz : ¬ (wal.slice (next + (frameLen - sector)) sector).any (· ≠ 0) = true := by
          rw [Bool.not_eq_true, any_ne_zero_eq_false, hsl]
          exact h0.1
        rw [if_neg hz, if_neg fun hc => h0.2 hc.1 hc.2]
        refine ih.2 fun k hk' => ?_
        rw [hk]
        exact hall (k + 1) (by omega)

/-- **A torn tail**: every complete frame from `start` on ends in zeros, and none after the first
verifies. -/
lemma tornTail_iff {wal : Bytes} {start : ℕ} (h : start ≤ wal.length) :
    tornTail wal start wal.length = true ↔
      ∀ k < (wal.length - start) / frameLen, ZeroEnd wal (start + k * frameLen)
        ∧ (0 < k → ¬ (readFrame wal (start + k * frameLen)).isOk) := by
  have hd : (wal.length - start) / frameLen * frameLen ≤ wal.length - start :=
    Nat.div_mul_le_self _ _
  rw [tornTail, tornTailLoop_iff wal start _ _ (by omega)]
  refine forall₂_congr fun k _ => and_congr_right fun _ => ?_
  have : start < start + k * frameLen ↔ 0 < k := by
    have : frameLen = 4144 := rfl
    rw [this]; omega
  rw [this]

end PageWal
