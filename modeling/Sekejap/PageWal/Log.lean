import Sekejap.PageWal.Inspect

/-!
# What an inspection returns

A log is a list of transactions, each a list of page images and the extent its commit frame
declares; `encodeLog` is its bytes.  The scan of `Pager::inspect_bounded` is followed frame by
frame in those terms: after the transactions `Ts` and the images `us` of an unfinished one, the
loop stands in the state `scanned Ts us` (`scanFrame_image`, `scanFrame_commit`, and by induction
`scanLoop_log`).

**`inspectBounded_log`** is what the rest of the development uses: the inspection of a well-formed
log succeeds and yields the state `recovered` of its last commit.
-/

open Bytes Page Crc32c

namespace PageWal

/-- One committed transaction: its images in the order they were appended, the header among
them, and its extent. -/
structure Txn where
  images : List (ℕ × Bytes)
  header : Header
  pages : ℕ

/-- The frame of one page image. -/
def imageFrame (id : Bytes) (tx : ℕ) (i : ℕ × Bytes) : Bytes := frame 1 i.1 tx 0 i.2 id

/-- The running checksum of a transaction's frames. -/
def framesCrc (id : Bytes) (tx : ℕ) (us : List (ℕ × Bytes)) : UInt32 :=
  us.foldl (fun c i => crc32cAppend c (imageFrame id tx i)) 0

/-- The payload of a commit frame: the checksum, then zeros. -/
def commitBody (crc : UInt32) : Bytes := leBytes 4 crc.toNat ++ List.replicate (page - 4) 0

def u32Max : ℕ := 2 ^ 32 - 1

def commitFrame (id : Bytes) (tx pages : ℕ) (crc : UInt32) : Bytes :=
  frame 2 u32Max tx pages (commitBody crc) id

def encodeImages (id : Bytes) (tx : ℕ) (us : List (ℕ × Bytes)) : Bytes :=
  (us.map (imageFrame id tx)).flatten

def encodeTxn (id : Bytes) (tx : ℕ) (T : Txn) : Bytes :=
  encodeImages id tx T.images ++ commitFrame id tx T.pages (framesCrc id tx T.images)

/-- The bytes of the transactions `tx, tx + 1, …`. -/
def encodeLog (id : Bytes) : ℕ → List Txn → Bytes
  | _, [] => []
  | tx, T :: Ts => encodeTxn id tx T ++ encodeLog id (tx + 1) Ts

/-- The references to the frames of `us`, the first of which is at `off`. -/
def trackImages (id : Bytes) (tx : ℕ) : ℕ → List (ℕ × Bytes) → Index → Index
  | _, [], idx => idx
  | off, i :: us, idx =>
      trackImages id tx (off + frameLen) us
        (idx.insert i.1 ⟨off, frameCrc (imageFrame id tx i)⟩)

/-- How many frames a transaction has. -/
def Txn.frames (T : Txn) : ℕ := T.images.length + 1

def logFrames (Ts : List Txn) : ℕ := (Ts.map Txn.frames).sum

/-- Where a log ends. -/
def logEnd (Ts : List Txn) : ℕ := logFrames Ts * frameLen

/-- The index of a log that starts at `off`. -/
def indexLog (id : Bytes) : ℕ → ℕ → List Txn → Index → Index
  | _, _, [], idx => idx
  | tx, off, T :: Ts, idx =>
      indexLog id (tx + 1) (off + T.frames * frameLen) Ts (trackImages id tx off T.images idx)

/-- The header the images of a transaction carry: the last one written. -/
def lastHeader : Option Header → List (ℕ × Bytes) → Option Header
  | h, [] => h
  | h, i :: us => lastHeader (if i.1 = 0 then (Header.decode i.2 0).toOption else h) us

/-! ## Well-formed logs -/

/-- A page image the transaction `tx` may carry. -/
structure ImageOk (id : Bytes) (features tx : ℕ) (i : ℕ × Bytes) : Prop where
  ne_one : i.1 ≠ 1
  lt : i.1 < 2 ^ 32
  length : i.2.length = page
  opens : PageRef.openChecked i.2 i.1 = .ok ⟨i.2⟩
  header : i.1 = 0 → ∃ h, Header.decode i.2 0 = .ok h ∧ h.identity = id ∧ h.features = features
    ∧ h.tx = tx

structure TxnOk (id : Bytes) (features tx : ℕ) (T : Txn) : Prop where
  image : ∀ i ∈ T.images, ImageOk id features tx i
  lt_pages : ∀ i ∈ T.images, i.1 < T.pages
  pages_lt : T.pages < 2 ^ 32
  header : lastHeader none T.images = some T.header
  extent : T.header.validateExtent T.pages = .ok ()
  tx_lt : tx < u64Max

/-- **A log a file with metadata `disk` may have**: it starts no later than the next
transaction, and if it reaches back to the checkpoint it agrees with it. -/
structure LogOk (disk : Header) (t₀ : ℕ) (Ts : List Txn) : Prop where
  pos : 0 < t₀
  le : t₀ ≤ disk.tx + 1
  txn : ∀ k T, Ts[k]? = some T → TxnOk disk.identity disk.features (t₀ + k) T
  floor : ∀ k T, Ts[k]? = some T → t₀ + k = disk.tx → T.header = disk

section sizes

variable {id : Bytes} {tx : ℕ}

lemma encodeImages_append (us vs : List (ℕ × Bytes)) :
    encodeImages id tx (us ++ vs) = encodeImages id tx us ++ encodeImages id tx vs := by
  simp [encodeImages]

lemma encodeImages_singleton (i : ℕ × Bytes) : encodeImages id tx [i] = imageFrame id tx i := by
  simp [encodeImages]

lemma encodeLog_append (Us : List Txn) : ∀ (tx : ℕ) (Ts : List Txn),
    encodeLog id tx (Ts ++ Us) = encodeLog id tx Ts ++ encodeLog id (tx + Ts.length) Us
  | tx, [] => by simp [encodeLog]
  | tx, T :: Ts => by
      rw [List.cons_append, encodeLog, encodeLog, encodeLog_append Us (tx + 1) Ts,
        List.append_assoc, List.length_cons, show tx + 1 + Ts.length = tx + (Ts.length + 1) by omega]

lemma length_imageFrame (hid : id.length = 16) {i : ℕ × Bytes} (h : i.2.length = page) :
    (imageFrame id tx i).length = frameLen := length_frame h hid

lemma length_commitBody (crc : UInt32) : (commitBody crc).length = page := by
  rw [commitBody, List.length_append, length_leBytes, List.length_replicate]; rfl

lemma length_commitFrame (hid : id.length = 16) (pages : ℕ) (crc : UInt32) :
    (commitFrame id tx pages crc).length = frameLen := length_frame (length_commitBody crc) hid

lemma length_encodeImages (hid : id.length = 16) : ∀ us : List (ℕ × Bytes),
    (∀ i ∈ us, i.2.length = page) → (encodeImages id tx us).length = us.length * frameLen
  | [], _ => by simp [encodeImages]
  | i :: us, h => by
      have ih := length_encodeImages hid us fun j hj => h j (List.mem_cons_of_mem _ hj)
      rw [show i :: us = [i] ++ us from rfl, encodeImages_append, encodeImages_singleton,
        List.length_append, ih, length_imageFrame hid (h i List.mem_cons_self), List.length_append,
        Nat.add_mul, List.length_singleton, Nat.one_mul]

lemma length_encodeTxn (hid : id.length = 16) {T : Txn} (h : ∀ i ∈ T.images, i.2.length = page) :
    (encodeTxn id tx T).length = T.frames * frameLen := by
  rw [encodeTxn, List.length_append, length_encodeImages hid _ h, length_commitFrame hid,
    Txn.frames, Nat.add_mul, Nat.one_mul]

lemma length_encodeLog (hid : id.length = 16) : ∀ (tx : ℕ) (Ts : List Txn),
    (∀ T ∈ Ts, ∀ i ∈ T.images, i.2.length = page) → (encodeLog id tx Ts).length = logEnd Ts
  | _, [], _ => by simp [encodeLog, logEnd, logFrames]
  | tx, T :: Ts, h => by
      rw [encodeLog, List.length_append, length_encodeTxn hid (h T List.mem_cons_self),
        length_encodeLog hid (tx + 1) Ts fun U hU => h U (List.mem_cons_of_mem _ hU), logEnd, logEnd,
        logFrames, logFrames, List.map_cons, List.sum_cons, Nat.add_mul]

lemma logFrames_append (Ts Us : List Txn) :
    logFrames (Ts ++ Us) = logFrames Ts + logFrames Us := by
  simp [logFrames]

lemma logFrames_singleton (T : Txn) : logFrames [T] = T.images.length + 1 := by
  simp [logFrames, Txn.frames]

lemma logEnd_append (Ts Us : List Txn) : logEnd (Ts ++ Us) = logEnd Ts + logEnd Us := by
  rw [logEnd, logFrames_append, Nat.add_mul]; rfl

lemma logEnd_singleton (T : Txn) : logEnd [T] = T.images.length * frameLen + frameLen := by
  simp [logEnd, logFrames, Txn.frames, Nat.add_mul]

lemma logEnd_nil : logEnd [] = 0 := by simp [logEnd, logFrames]

lemma logEnd_eq_zero_iff {Ts : List Txn} : logEnd Ts = 0 ↔ Ts = [] := by
  cases Ts with
  | nil => simp [logEnd_nil]
  | cons T Ts =>
      have : frameLen = 4144 := rfl
      simp [logEnd, logFrames, Txn.frames, this]

lemma framesCrc_append (us : List (ℕ × Bytes)) (i : ℕ × Bytes) :
    framesCrc id tx (us ++ [i]) = crc32cAppend (framesCrc id tx us) (imageFrame id tx i) := by
  simp [framesCrc]

end sizes

section index

variable {id : Bytes}

lemma trackImages_append (tx : ℕ) (i : ℕ × Bytes) : ∀ (us : List (ℕ × Bytes)) (off : ℕ)
    (idx : Index), trackImages id tx off (us ++ [i]) idx
      = (trackImages id tx off us idx).insert i.1
          ⟨off + us.length * frameLen, frameCrc (imageFrame id tx i)⟩
  | [], off, idx => by simp [trackImages]
  | u :: us, off, idx => by
      have := trackImages_append tx i us (off + frameLen)
        (idx.insert u.1 ⟨off, frameCrc (imageFrame id tx u)⟩)
      rw [List.cons_append, trackImages, this, trackImages, List.length_cons, Nat.add_mul,
        Nat.one_mul, show off + frameLen + us.length * frameLen
          = off + (us.length * frameLen + frameLen) by omega]

lemma union_insert (a b : Index) (k : ℕ) (v : FrameRef) : a ∪ b.insert k v = (a ∪ b).insert k v := by
  refine Std.ExtTreeMap.ext_getElem? fun p => ?_
  rw [Std.ExtTreeMap.getElem?_union, Std.ExtTreeMap.getElem?_insert, Std.ExtTreeMap.getElem?_insert,
    Std.ExtTreeMap.getElem?_union]
  split_ifs <;> simp

lemma union_empty (a : Index) : a ∪ (∅ : Index) = a := by
  refine Std.ExtTreeMap.ext_getElem? fun p => ?_
  rw [Std.ExtTreeMap.getElem?_union]
  simp

/-- `committed.append(&mut pending)` after a transaction is tracking it in place. -/
lemma union_trackImages (a : Index) (tx : ℕ) : ∀ (us : List (ℕ × Bytes)) (off : ℕ) (b : Index),
    a ∪ trackImages id tx off us b = trackImages id tx off us (a ∪ b)
  | [], _, _ => rfl
  | i :: us, off, b => by
      rw [trackImages, union_trackImages a tx us, union_insert, trackImages]

lemma indexLog_append (T : Txn) : ∀ (Ts : List Txn) (tx off : ℕ) (idx : Index),
    indexLog id tx off (Ts ++ [T]) idx
      = trackImages id (tx + Ts.length) (off + logEnd Ts) T.images (indexLog id tx off Ts idx)
  | [], tx, off, idx => by simp [indexLog, logEnd_nil]
  | U :: Ts, tx, off, idx => by
      rw [List.cons_append, indexLog, indexLog_append T Ts, indexLog, List.length_cons,
        show logEnd (U :: Ts) = U.frames * frameLen + logEnd Ts by
          simp [logEnd, logFrames, Nat.add_mul],
        show tx + 1 + Ts.length = tx + (Ts.length + 1) by omega, Nat.add_assoc]

lemma mem_keys_trackImages (tx : ℕ) : ∀ (us : List (ℕ × Bytes)) (off : ℕ) (idx : Index) (p : ℕ),
    p ∈ trackImages id tx off us idx ↔ p ∈ idx ∨ ∃ i ∈ us, i.1 = p
  | [], off, idx, p => by simp [trackImages]
  | i :: us, off, idx, p => by
      rw [trackImages, mem_keys_trackImages tx us, Std.ExtTreeMap.mem_insert]
      simp only [Nat.compare_eq_eq, List.mem_cons, exists_eq_or_imp]
      tauto

end index

/-! ## The scan, frame by frame -/

/-- Where the loop stands after the transactions `Ts` and the images `us` of an unfinished
one. -/
def scanned (disk : Header) (dataPages t₀ : ℕ) (Ts : List Txn) (us : List (ℕ × Bytes)) : Scan where
  committed := indexLog disk.identity t₀ 0 Ts ∅
  pending := trackImages disk.identity (t₀ + Ts.length) (logEnd Ts) us ∅
  pages := (Ts.getLast?.map Txn.pages).getD dataPages
  pos := logEnd Ts + us.length * frameLen
  last := logEnd Ts
  tx := if Ts = [] ∧ us = [] then disk.tx + 1 else t₀ + Ts.length
  crc := framesCrc disk.identity (t₀ + Ts.length) us
  firstTx := if Ts = [] ∧ us = [] then none else some t₀
  committedHeader := Ts.getLast?.map Txn.header
  pendingHeader := lastHeader none us
  floorProven := decide (t₀ ≤ disk.tx ∧ disk.tx < t₀ + Ts.length)

lemma lastHeader_append (i : ℕ × Bytes) : ∀ (us : List (ℕ × Bytes)) (h : Option Header),
    lastHeader h (us ++ [i])
      = if i.1 = 0 then (Header.decode i.2 0).toOption else lastHeader h us
  | [], h => rfl
  | u :: us, h => by rw [List.cons_append, lastHeader, lastHeader_append i us, lastHeader]

section scan

variable {disk : Header} {dataPages t₀ : ℕ} {Ts : List Txn} {us : List (ℕ × Bytes)}

lemma scanned_nil : scanned disk dataPages t₀ [] [] = Scan.start dataPages (disk.tx + 1) := by
  simp [scanned, Scan.start, indexLog, trackImages, framesCrc, lastHeader, logEnd_nil]

lemma scanned_pos_eq_zero :
    (scanned disk dataPages t₀ Ts us).pos = 0 ↔ Ts = [] ∧ us = [] := by
  have hf : frameLen = 4144 := rfl
  show logEnd Ts + us.length * frameLen = 0 ↔ _
  rw [Nat.add_eq_zero_iff, logEnd_eq_zero_iff, hf, Nat.mul_eq_zero]
  simp

/-- The checks every frame passes: it belongs to this database and to transaction `t`. -/
lemma scanFrame_of {disk : Option Header} {identity : Bytes} {features floor t : ℕ} {b : Bytes}
    {s : Scan} (hid : frameIdentity b = identity) (ht : frameTx b = t)
    (h0 : s.pos = 0 → 0 < t ∧ t ≤ floor + 1) (hf : floor + 1 ≤ u64Max)
    (hn : s.pos ≠ 0 → s.tx = t) :
    scanFrame disk identity features floor b s
      = (let s' := if s.pos = 0 then { s with tx := t, firstTx := some t } else s
        if frameKind b = 1 then scanImage identity features b s'
        else if frameKind b = 2 then scanCommit disk floor b s'
        else throw (bad "unknown WAL frame kind")) := by
  by_cases hp : s.pos = 0
  · obtain ⟨hpos, hle⟩ := h0 hp
    simp only [scanFrame, hid, ht, hp, ne_eq, not_true_eq_false, if_false, if_true,
      checkedAdd64, if_pos hf, bind, Except.bind, pure, Except.pure, gt_iff_lt,
      Nat.ne_of_gt hpos, Nat.not_lt_of_le hle]
  · have hs := hn hp
    simp only [scanFrame, hid, ht, hp, hs, ne_eq, not_true_eq_false, if_false, bind, Except.bind,
      pure, Except.pure]

/-- Opening the transaction the loop stands in. -/
lemma scanned_opened :
    (if (scanned disk dataPages t₀ Ts us).pos = 0 then
        { scanned disk dataPages t₀ Ts us with
          tx := t₀ + Ts.length, firstTx := some (t₀ + Ts.length) }
      else scanned disk dataPages t₀ Ts us)
      = { scanned disk dataPages t₀ Ts us with tx := t₀ + Ts.length, firstTx := some t₀ } := by
  by_cases hp : Ts = [] ∧ us = []
  · rw [if_pos (scanned_pos_eq_zero.2 hp), hp.1]
    rfl
  · rw [if_neg fun h => hp (scanned_pos_eq_zero.1 h)]
    simp only [scanned, if_neg hp]

lemma scanned_first (hlog : LogOk disk t₀ Ts) (hp : (scanned disk dataPages t₀ Ts us).pos = 0) :
    0 < t₀ + Ts.length ∧ t₀ + Ts.length ≤ disk.tx + 1 := by
  obtain ⟨rfl, -⟩ := scanned_pos_eq_zero.1 hp
  exact ⟨by simpa using hlog.pos, by simpa using hlog.le⟩

lemma scanned_tx (hp : (scanned disk dataPages t₀ Ts us).pos ≠ 0) :
    (scanned disk dataPages t₀ Ts us).tx = t₀ + Ts.length := by
  simp only [scanned, if_neg fun h => hp (scanned_pos_eq_zero.2 h)]

/-- **An image frame of the transaction being read is tracked.** -/
lemma scanFrame_image (hlog : LogOk disk t₀ Ts) (hv : disk.Valid) (hdt : disk.tx < u64Max)
    {i : ℕ × Bytes} (hi : ImageOk disk.identity disk.features (t₀ + Ts.length) i)
    (ht : t₀ + Ts.length ≤ u64Max) :
    scanFrame (some disk) disk.identity disk.features disk.tx
        (imageFrame disk.identity (t₀ + Ts.length) i) (scanned disk dataPages t₀ Ts us)
      = .ok (scanned disk dataPages t₀ Ts (us ++ [i])) := by
  have hu : u64Max = 2 ^ 64 - 1 := rfl
  have hno : frameNo (imageFrame disk.identity (t₀ + Ts.length) i) = i.1 := frameNo_frame hi.lt
  have hpay : framePayload (imageFrame disk.identity (t₀ + Ts.length) i) = i.2 :=
    framePayload_frame hi.length
  have hid : frameIdentity (imageFrame disk.identity (t₀ + Ts.length) i) = disk.identity :=
    frameIdentity_frame hi.length hv.identity
  have htx : frameTx (imageFrame disk.identity (t₀ + Ts.length) i) = t₀ + Ts.length :=
    frameTx_frame (by omega)
  have hk : frameKind (imageFrame disk.identity (t₀ + Ts.length) i) = 1 :=
    frameKind_frame (by norm_num)
  rw [scanFrame_of hid htx (scanned_first hlog) (by omega) scanned_tx, scanned_opened]
  simp only [hk, if_true, scanImage, hno, hpay, hi.ne_one, if_false, hi.opens, bind,
    Except.bind, pure, Except.pure]
  by_cases h0 : i.1 = 0
  · obtain ⟨h, hd, h1, h2, h3⟩ := hi.header h0
    simp only [h0, if_true, hd, h1, h2, h3, ne_eq, not_true_eq_false, or_self, if_false]
    simp [scanned, trackImages_append, framesCrc_append, lastHeader_append, h0, hd,
      Except.toOption, Nat.add_mul, Nat.add_assoc]
  · simp only [h0, if_false]
    simp [scanned, trackImages_append, framesCrc_append, lastHeader_append, h0, Nat.add_mul,
      Nat.add_assoc]

lemma commitFrame_verifies {id : Bytes} {tx pages : ℕ} {crc : UInt32} :
    Verifies (commitFrame id tx pages crc) := frame_verifies

lemma u32At_commitFrame {id : Bytes} {tx pages : ℕ} {crc : UInt32} :
    u32At (commitFrame id tx pages crc) 32 = crc.toNat := by
  rw [u32At, commitFrame, frame_eq, slice_segment
    (magicBytes ++ leBytes 4 2 ++ leBytes 4 u32Max ++ leBytes 8 tx ++ leBytes 4 pages
      ++ leBytes 4 (crc32c (rawFrame 2 u32Max tx pages (commitBody crc) id)).toNat)
    (x := leBytes 4 crc.toNat) (by simp only [commitBody, List.append_assoc]; rfl)
    (by simp [magicBytes]) (length_leBytes _ _)]
  exact leNat_leBytes_of_lt (lt_of_lt_of_le (UInt32.toNat_lt _) (by norm_num))

/-- **A commit frame commits the images before it.** -/
lemma scanFrame_commit {T : Txn} (hlog : LogOk disk t₀ (Ts ++ [T])) (hv : disk.Valid)
    (hdt : disk.tx < u64Max) :
    scanFrame (some disk) disk.identity disk.features disk.tx
        (commitFrame disk.identity (t₀ + Ts.length) T.pages
          (framesCrc disk.identity (t₀ + Ts.length) T.images))
        (scanned disk dataPages t₀ Ts T.images)
      = .ok (scanned disk dataPages t₀ (Ts ++ [T]) []) := by
  have hu : u64Max = 2 ^ 64 - 1 := rfl
  have hT : TxnOk disk.identity disk.features (t₀ + Ts.length) T := hlog.txn _ T (by simp)
  have hflo : t₀ + Ts.length = disk.tx → T.header = disk := hlog.floor _ T (by simp)
  have htl := hT.tx_lt
  set crc := framesCrc disk.identity (t₀ + Ts.length) T.images with hcrc
  have hpages : framePages (commitFrame disk.identity (t₀ + Ts.length) T.pages crc) = T.pages :=
    framePages_frame hT.pages_lt
  have hid : frameIdentity (commitFrame disk.identity (t₀ + Ts.length) T.pages crc)
      = disk.identity := frameIdentity_frame (length_commitBody crc) hv.identity
  have htx : frameTx (commitFrame disk.identity (t₀ + Ts.length) T.pages crc) = t₀ + Ts.length :=
    frameTx_frame (by omega)
  have hk : frameKind (commitFrame disk.identity (t₀ + Ts.length) T.pages crc) = 2 :=
    frameKind_frame (by norm_num)
  have hkeys : ((trackImages disk.identity (t₀ + Ts.length) (logEnd Ts) T.images ∅).keys.any
      (· ≥ T.pages)) = false := by
    rw [List.any_eq_false]
    intro p hp
    rw [Std.ExtTreeMap.mem_keys, mem_keys_trackImages] at hp
    rcases hp with hp | ⟨i, hi, rfl⟩
    · simp at hp
    · have := hT.lt_pages i hi
      simpa using this
  have hle : ∀ us, (scanned disk dataPages t₀ Ts us).pos = 0 →
      0 < t₀ + Ts.length ∧ t₀ + Ts.length ≤ disk.tx + 1 := by
    intro us hp
    obtain ⟨rfl, -⟩ := scanned_pos_eq_zero.1 hp
    exact ⟨by simpa using hlog.pos, by simpa using hlog.le⟩
  rw [scanFrame_of hid htx (hle _) (by omega) scanned_tx, scanned_opened]
  simp only [hk]
  rw [if_neg (by norm_num), if_pos trivial]
  simp only [scanCommit, u32At_commitFrame, hpages, bind, Except.bind, pure, Except.pure, scanned,
    ← hcrc, ne_eq, not_true_eq_false, if_false, hkeys, Bool.false_eq_true, hT.header, hT.extent,
    checkedAdd64, if_pos (show t₀ + Ts.length + 1 ≤ u64Max by omega)]
  rw [if_neg (by rintro ⟨h1, h2⟩; exact h2 (by rw [hflo h1]))]
  simp only [Except.ok.injEq, Scan.mk.injEq]
  refine ⟨?_, rfl, by simp, ?_, ?_, by simp; omega, rfl, by simp, by simp, rfl, ?_⟩
  · rw [union_trackImages, union_empty, indexLog_append, Nat.zero_add]
  · rw [logEnd_append, logEnd_singleton, List.length_nil, Nat.zero_mul, Nat.add_assoc, Nat.add_zero]
  · rw [logEnd_append, logEnd_singleton, Nat.add_assoc]
  · rw [List.length_append, List.length_singleton]
    split_ifs with he
    · exact (decide_eq_true (by omega)).symm
    · exact decide_eq_decide.2 (by omega)

lemma LogOk.left {Us : List Txn} (h : LogOk disk t₀ (Ts ++ Us)) : LogOk disk t₀ Ts where
  pos := h.pos
  le := h.le
  txn k T hk := h.txn k T (by rw [List.getElem?_append_left (List.getElem?_eq_some_iff.1 hk).1, hk])
  floor k T hk := h.floor k T
    (by rw [List.getElem?_append_left (List.getElem?_eq_some_iff.1 hk).1, hk])

lemma LogOk.length_image (h : LogOk disk t₀ Ts) : ∀ T ∈ Ts, ∀ i ∈ T.images, i.2.length = page := by
  intro T hT i hi
  obtain ⟨k, hk⟩ := List.mem_iff_getElem?.1 hT
  exact ((h.txn k T hk).image i hi).length

lemma readFrame_segment {wal pre f rest : Bytes} {pos : ℕ} (hw : wal = pre ++ (f ++ rest))
    (hp : pre.length = pos) (hf : f.length = frameLen) (hv : Verifies f) :
    readFrame wal pos = .ok f :=
  readFrame_ok_iff.2 ⟨by rw [hw]; simp only [List.length_append]; omega,
    (slice_segment pre hw hp hf).symm, hv⟩

/-- One frame of the loop. -/
lemma scanLoop_step {wal b : Bytes} {bounded : Bool} {disk : Option Header} {identity : Bytes}
    {features floor : ℕ} {s s' : Scan} (hr : readFrame wal s.pos = .ok b)
    (hs : scanFrame disk identity features floor b s = .ok s') (n : ℕ) :
    scanLoop wal bounded disk identity features floor (n + 1) s
      = scanLoop wal bounded disk identity features floor n s' := by
  simp only [scanLoop, hr, hs, bind, Except.bind]

variable {bounded : Bool} {wal rest : Bytes}

/-- The images of an unfinished transaction are scanned. -/
lemma scanLoop_images (hlog : LogOk disk t₀ Ts) (hv : disk.Valid) (hdt : disk.tx < u64Max)
    (ht : t₀ + Ts.length ≤ u64Max) : ∀ (us : List (ℕ × Bytes)) (rest : Bytes),
    (∀ i ∈ us, ImageOk disk.identity disk.features (t₀ + Ts.length) i) →
    wal = encodeLog disk.identity t₀ Ts
      ++ (encodeImages disk.identity (t₀ + Ts.length) us ++ rest) → ∀ m : ℕ,
    scanLoop wal bounded (some disk) disk.identity disk.features disk.tx (us.length + m)
        (scanned disk dataPages t₀ Ts [])
      = scanLoop wal bounded (some disk) disk.identity disk.features disk.tx m
          (scanned disk dataPages t₀ Ts us) := by
  intro us
  induction us using List.reverseRecOn with
  | nil => intro rest _ _ m; simp
  | append_singleton us i ih =>
      intro rest hus hw m
      have hi := hus i (by simp)
      have hus' : ∀ j ∈ us, ImageOk disk.identity disk.features (t₀ + Ts.length) j :=
        fun j hj => hus j (by simp [hj])
      rw [encodeImages_append, encodeImages_singleton, List.append_assoc] at hw
      have hpre : (encodeLog disk.identity t₀ Ts
          ++ encodeImages disk.identity (t₀ + Ts.length) us).length
            = (scanned disk dataPages t₀ Ts us).pos := by
        rw [List.length_append, length_encodeLog hv.identity _ _ hlog.length_image,
          length_encodeImages hv.identity _ fun j hj => (hus' j hj).length]
        rfl
      have hread : readFrame wal (scanned disk dataPages t₀ Ts us).pos
          = .ok (imageFrame disk.identity (t₀ + Ts.length) i) :=
        readFrame_segment (by rw [hw, List.append_assoc]) hpre
          (length_imageFrame hv.identity hi.length) frame_verifies
      rw [List.length_append, List.length_singleton, Nat.add_assoc, ih _ hus' hw (1 + m),
        Nat.add_comm 1 m]
      exact scanLoop_step hread (scanFrame_image hlog hv hdt hi ht) m

/-- **The scan of a log** stands where its last transaction ends. -/
lemma scanLoop_log (hv : disk.Valid) (hdt : disk.tx < u64Max) : ∀ (Ts : List Txn) (rest : Bytes),
    LogOk disk t₀ Ts → wal = encodeLog disk.identity t₀ Ts ++ rest → ∀ m : ℕ,
    scanLoop wal bounded (some disk) disk.identity disk.features disk.tx (logFrames Ts + m)
        (.start dataPages (disk.tx + 1))
      = scanLoop wal bounded (some disk) disk.identity disk.features disk.tx m
          (scanned disk dataPages t₀ Ts []) := by
  intro Ts
  induction Ts using List.reverseRecOn with
  | nil => intro rest _ _ m; rw [scanned_nil]; simp [logFrames]
  | append_singleton Ts T ih =>
      intro rest hlog hw m
      have hT : TxnOk disk.identity disk.features (t₀ + Ts.length) T := hlog.txn _ T (by simp)
      have hl := hlog.left
      rw [encodeLog_append, encodeLog, encodeLog, List.append_nil, encodeTxn, List.append_assoc,
        List.append_assoc] at hw
      have hpre : (encodeLog disk.identity t₀ Ts
          ++ encodeImages disk.identity (t₀ + Ts.length) T.images).length
            = (scanned disk dataPages t₀ Ts T.images).pos := by
        rw [List.length_append, length_encodeLog hv.identity _ _ hl.length_image,
          length_encodeImages hv.identity _ fun j hj => (hT.image j hj).length]
        rfl
      have hread : readFrame wal (scanned disk dataPages t₀ Ts T.images).pos
          = .ok (commitFrame disk.identity (t₀ + Ts.length) T.pages
              (framesCrc disk.identity (t₀ + Ts.length) T.images)) :=
        readFrame_segment (by rw [hw, List.append_assoc]) hpre
          (length_commitFrame hv.identity _ _) commitFrame_verifies
      have hn : logFrames (Ts ++ [T]) + m = logFrames Ts + (T.images.length + (m + 1)) := by
        rw [logFrames_append, logFrames_singleton]
        omega
      rw [hn, ih _ hl hw, scanLoop_images hl hv hdt hT.tx_lt.le _ _ hT.image hw]
      exact scanLoop_step hread (scanFrame_commit hlog hv hdt) m

end scan

/-! ## The recovered state -/

/-- The header in force after a log: its last commit's, or the checkpoint's. -/
def headerAfter (disk : Header) (Ts : List Txn) : Header := (Ts.getLast?.map Txn.header).getD disk

/-- The extent after a log. -/
def pagesAfter (dataPages : ℕ) (Ts : List Txn) : ℕ := (Ts.getLast?.map Txn.pages).getD dataPages

/-- **The state of the last commit of a log.** -/
def recovered (disk : Header) (dataPages t₀ : ℕ) (Ts : List Txn) : State where
  latest := indexLog disk.identity t₀ 0 Ts ∅
  committed := indexLog disk.identity t₀ 0 Ts ∅
  endOff := logEnd Ts
  lastCommit := logEnd Ts
  pages := pagesAfter dataPages Ts
  committedPages := pagesAfter dataPages Ts
  tx := (headerAfter disk Ts).tx + 1
  txCrc := 0
  cap := (headerAfter disk Ts).cap
  freeHead := (headerAfter disk Ts).free
  identity := disk.identity
  features := disk.features
  floor := disk.tx
  hintCurrent := false
  hintPublished := false
  dataLimit := u64Max
  walLimit := u64Max
  trackedLimit := u64Max

/-- What the checks after the loop ask of a log with an unfinished transaction `us` behind it. -/
structure Accepts (disk : Header) (dataLen t₀ : ℕ) (Ts : List Txn) (us : List (ℕ × Bytes)) :
    Prop where
  /-- a log that reaches back to the checkpoint contains it -/
  floor : Ts ≠ [] ∨ us ≠ [] → t₀ ≤ disk.tx → disk.tx < t₀ + Ts.length
  /-- the data file has every page of the extent, or the log supplies what it lacks -/
  extent : (dataLen % page = 0 ∧ pagesAfter (dataLen / page) Ts ≤ dataLen / page) ∨
    (Ts ≠ [] ∧ dataLen / page < pagesAfter (dataLen / page) Ts
      ∧ ∀ p, dataLen / page ≤ p → p < pagesAfter (dataLen / page) Ts →
        p ∈ indexLog disk.identity t₀ 0 Ts ∅)
  cap : logEnd Ts + pagesAfter (dataLen / page) Ts * page ≤ (headerAfter disk Ts).cap
  tx : (headerAfter disk Ts).tx < u64Max

lemma exists_of_lastHeader : ∀ (us : List (ℕ × Bytes)) (acc : Option Header) {h : Header},
    lastHeader acc us = some h → acc = some h ∨ ∃ i ∈ us, i.1 = 0 ∧ Header.decode i.2 0 = .ok h
  | [], acc, h, he => Or.inl he
  | i :: us, acc, h, he => by
      rw [lastHeader] at he
      rcases exists_of_lastHeader us _ he with hd | ⟨j, hj, h0, hd⟩
      · by_cases h0 : i.1 = 0
        · rw [if_pos h0] at hd
          refine Or.inr ⟨i, List.mem_cons_self, h0, ?_⟩
          cases hdec : Header.decode i.2 0 with
          | error e => rw [hdec] at hd; cases hd
          | ok h' => rw [hdec] at hd; cases hd; rfl
        · rw [if_neg h0] at hd
          exact Or.inl hd
      · exact Or.inr ⟨j, List.mem_cons_of_mem _ hj, h0, hd⟩

lemma TxnOk.header_fields {id : Bytes} {features tx : ℕ} {T : Txn} (h : TxnOk id features tx T) :
    T.header.identity = id ∧ T.header.features = features ∧ T.header.tx = tx := by
  rcases exists_of_lastHeader _ _ h.header with hc | ⟨i, hi, h0, hd⟩
  · cases hc
  · obtain ⟨h', hd', h1, h2, h3⟩ := (h.image i hi).header h0
    cases hd.symm.trans hd'
    exact ⟨h1, h2, h3⟩

lemma size_ge_of_range {m : Index} {a n : ℕ} (h : ∀ i < n, a + i ∈ m) : n ≤ m.size := by
  have hsub : ∀ p ∈ List.range' a n, p ∈ m.keys := by
    intro p hp
    rw [List.mem_range'_1] at hp
    rw [Std.ExtTreeMap.mem_keys, show p = a + (p - a) by omega]
    exact h _ (by omega)
  have := (List.subperm_of_subset List.nodup_range' hsub).length_le
  rwa [List.length_range', Std.ExtTreeMap.length_keys] at this

section recovered

variable {disk : Header} {dataLen t₀ : ℕ} {Ts : List Txn} {us : List (ℕ × Bytes)}

/-- The checks after the loop pass. -/
lemma finishInspect_scanned (ha : Accepts disk dataLen t₀ Ts us) :
    finishInspect (some disk) disk.identity disk.features disk.tx dataLen
        (scanned disk (dataLen / page) t₀ Ts us)
      = .ok (recovered disk (dataLen / page) t₀ Ts) := by
  have hhdr : (Ts.getLast?.map Txn.header).or (some disk) = some (headerAfter disk Ts) := by
    cases hl : Ts.getLast? <;> simp [headerAfter, hl]
  have htx := ha.tx
  have hfloor : ¬ ((if Ts = [] ∧ us = [] then none else some t₀).any (· ≤ disk.tx) = true
      ∧ ¬ decide (t₀ ≤ disk.tx ∧ disk.tx < t₀ + Ts.length) = true) := by
    rintro ⟨h1, h2⟩
    split_ifs at h1 with hn
    · cases h1
    · have hle : t₀ ≤ disk.tx := by simpa using h1
      have := ha.floor (by by_contra hc; push Not at hc; exact hn hc) hle
      exact h2 (decide_eq_true ⟨hle, this⟩)
  have hext : ¬ ((dataLen % page ≠ 0 ∨ pagesAfter (dataLen / page) Ts > dataLen / page) ∧
      (logEnd Ts = 0 ∨ pagesAfter (dataLen / page) Ts ≤ dataLen / page
        ∨ pagesAfter (dataLen / page) Ts - dataLen / page
            > (indexLog disk.identity t₀ 0 Ts ∅).size
        ∨ (List.range (pagesAfter (dataLen / page) Ts - dataLen / page)).any
            (fun i => !((indexLog disk.identity t₀ 0 Ts ∅).contains (dataLen / page + i)))
              = true)) := by
    rintro ⟨h1, h2⟩
    rcases ha.extent with ⟨h3, h4⟩ | ⟨h3, h4, h5⟩
    · rcases h1 with h1 | h1
      · exact h1 h3
      · omega
    · have hin : ∀ i < pagesAfter (dataLen / page) Ts - dataLen / page,
          dataLen / page + i ∈ indexLog disk.identity t₀ 0 Ts ∅ :=
        fun i hi => h5 _ (by omega) (by omega)
      rcases h2 with h2 | h2 | h2 | h2
      · exact h3 (logEnd_eq_zero_iff.1 h2)
      · omega
      · have := size_ge_of_range hin
        omega
      · obtain ⟨i, hi, hc⟩ := List.any_eq_true.1 h2
        have := hin i (List.mem_range.1 hi)
        rw [← Std.ExtTreeMap.contains_iff_mem] at this
        simp [this] at hc
  have hcap : ¬ (logEnd Ts + pagesAfter (dataLen / page) Ts * page > (headerAfter disk Ts).cap) :=
    Nat.not_lt_of_le ha.cap
  have hpages : (Ts.getLast?.map Txn.pages).getD (dataLen / page)
      = pagesAfter (dataLen / page) Ts := rfl
  simp only [finishInspect, scanned, hpages, if_neg hfloor, if_neg hext, hhdr, Option.map_some,
    Option.getD_some, checkedAdd64, if_pos (show (headerAfter disk Ts).tx + 1 ≤ u64Max from htx),
    bind, Except.bind, pure, Except.pure, if_neg hcap]
  rfl

variable {d wal rest : Bytes} {bound : Option ℕ} {cf : ℕ}

variable (hm : MetaOk d disk) (hv : disk.Valid) (hdt : disk.tx < u64Max)
  (hlog : LogOk disk t₀ Ts) (ht : t₀ + Ts.length ≤ u64Max)
  (hus : ∀ i ∈ us, ImageOk disk.identity disk.features (t₀ + Ts.length) i)
  (hw : wal = encodeLog disk.identity t₀ Ts
    ++ (encodeImages disk.identity (t₀ + Ts.length) us ++ rest))
include hm hv hdt hlog ht hus hw

/-- An inspection stands where the log and the images behind it end. -/
lemma inspectBounded_eq {m : ℕ} (hn : bound.getD wal.length / frameLen = logFrames Ts + (us.length + m))
    (hcap : bound.getD wal.length ≤ walCap) (hd : d.length / page < 2 ^ 32) :
    inspectBounded cf d wal bound
      = (scanLoop wal bound.isSome (some disk) disk.identity disk.features disk.tx m
          (scanned disk (d.length / page) t₀ Ts us)).bind
        (finishInspect (some disk) disk.identity disk.features disk.tx d.length) := by
  simp only [inspectBounded, diskHeader_eq hm, if_neg (Nat.not_lt_of_le hcap), hn,
    Option.isNone_some, Bool.false_eq_true, false_and, if_false, if_neg (Nat.not_le_of_lt hd),
    Option.map_some, Option.getD_some, checkedAdd64,
    if_pos (show disk.tx + 1 ≤ u64Max from hdt), bind, Except.bind]
  rw [scanLoop_log hv hdt Ts _ hlog hw, scanLoop_images hlog hv hdt ht us _ hus hw]

/-- **Inspecting a well-formed log yields the state of its last commit.**  Behind the log there
may be an unfinished transaction, and behind that less than one frame. -/
lemma inspectBounded_log (hn : bound.getD wal.length / frameLen = logFrames Ts + us.length)
    (hcap : bound.getD wal.length ≤ walCap) (hd : d.length / page < 2 ^ 32)
    (ha : Accepts disk d.length t₀ Ts us) :
    inspectBounded cf d wal bound = .ok (recovered disk (d.length / page) t₀ Ts) := by
  rw [inspectBounded_eq hm hv hdt hlog ht hus hw (m := 0) hn hcap hd, scanLoop]
  exact finishInspect_scanned ha

end recovered

end PageWal
