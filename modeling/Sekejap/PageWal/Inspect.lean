import Sekejap.PageWal.Frame

/-!
# Strict inspection of the files

`Pager::inspect_bounded`: what a database holds is read off its two files, the newest intact
checkpoint metadata and the frames of the log after it.  The loop over the frames is `scanLoop`,
one turn of it `scanFrame`; `inspectBounded` is the whole function, with the checks before and
after the loop in the source's order.

Nothing is proved here: what an inspection returns is `Sekejap.PageWal.Log`.
-/

open Bytes Page Crc32c

namespace PageWal

def u64Max : ℕ := 2 ^ 64 - 1

/-- `u64::checked_add(..).ok_or(Error::TooLarge)` -/
def checkedAdd64 (a b : ℕ) : Except Error ℕ :=
  if a + b ≤ u64Max then .ok (a + b) else .error .tooLarge

/-- The writer's bookkeeping (`struct State`). -/
structure State where
  latest : Index
  committed : Index
  endOff : ℕ
  lastCommit : ℕ
  pages : ℕ
  committedPages : ℕ
  tx : ℕ
  txCrc : UInt32
  cap : ℕ
  freeHead : ℕ
  identity : Bytes
  features : ℕ
  /-- Newest verified checkpoint metadata transaction. -/
  floor : ℕ
  /-- Both hint copies describe the current published state. -/
  hintCurrent : Bool
  /-- Copy 0 of the last hint write landed: readers can already see it. -/
  hintPublished : Bool
  dataLimit : ℕ
  walLimit : ℕ
  trackedLimit : ℕ

/-- The local variables of the inspection loop. -/
structure Scan where
  committed : Index
  pending : Index
  pages : ℕ
  pos : ℕ
  last : ℕ
  tx : ℕ
  crc : UInt32
  firstTx : Option ℕ
  committedHeader : Option Header
  pendingHeader : Option Header
  floorProven : Bool

/-- Kind 1: a page image of the transaction being read. -/
def scanImage (identity : Bytes) (features : ℕ) (b : Bytes) (s : Scan) : Except Error Scan := do
  let p := frameNo b
  if p = 1 then throw (bad "WAL image targets checkpoint-only metadata copy")
  let _ ← PageRef.openChecked (framePayload b) p
  let pendingHeader ←
    if p = 0 then do
      let h ← Header.decode (framePayload b) 0
      if h.identity ≠ identity ∨ h.features ≠ features ∨ h.tx ≠ s.tx then
        throw (bad "WAL metadata identity/history mismatch")
      pure (some h)
    else pure s.pendingHeader
  return { s with
    pendingHeader
    pending := s.pending.insert p ⟨s.pos, frameCrc b⟩
    crc := crc32cAppend s.crc b
    pos := s.pos + frameLen }

/-- Kind 2: the transaction being read is committed. -/
def scanCommit (disk : Option Header) (floor : ℕ) (b : Bytes) (s : Scan) : Except Error Scan := do
  if u32At b 32 ≠ s.crc.toNat then throw (bad "WAL transaction checksum")
  let pages := framePages b
  if s.pending.keys.any (· ≥ pages) then throw (bad "page beyond committed extent")
  match s.pendingHeader with
  | none => throw (bad "commit lacks transaction metadata")
  | some h =>
      h.validateExtent pages
      if s.tx = floor ∧ some h ≠ disk then throw (bad "WAL conflicts with checkpoint history")
      let tx ← checkedAdd64 s.tx 1
      return { s with
        pages
        pendingHeader := none
        floorProven := if s.tx = floor then true else s.floorProven
        committedHeader := some h
        committed := s.committed ∪ s.pending
        pending := ∅
        last := s.pos + frameLen
        tx
        crc := 0
        pos := s.pos + frameLen }

/-- One turn of the loop, on a frame that verified. -/
def scanFrame (disk : Option Header) (identity : Bytes) (features floor : ℕ) (b : Bytes)
    (s : Scan) : Except Error Scan := do
  if frameIdentity b ≠ identity then throw (bad "WAL belongs to another database")
  let s ←
    if s.pos = 0 then do
      if frameTx b = 0 then throw (bad "WAL starts beyond checkpoint history")
      let next ← checkedAdd64 floor 1
      if frameTx b > next then throw (bad "WAL starts beyond checkpoint history")
      pure { s with tx := frameTx b, firstTx := some (frameTx b) }
    else pure s
  if frameTx b ≠ s.tx then throw (bad "WAL transaction sequence")
  if frameKind b = 1 then scanImage identity features b s
  else if frameKind b = 2 then scanCommit disk floor b s
  else throw (bad "unknown WAL frame kind")

/-- The loop, over the `n` complete frames from `s.pos` on.  Without a bound, a frame that does
not verify may be a torn tail, which ends the log. -/
def scanLoop (wal : Bytes) (bounded : Bool) (disk : Option Header) (identity : Bytes)
    (features floor : ℕ) : ℕ → Scan → Except Error Scan
  | 0, s => .ok s
  | n + 1, s =>
      match readFrame wal s.pos with
      | .ok b => do
          let s ← scanFrame disk identity features floor b s
          scanLoop wal bounded disk identity features floor n s
      | .error e => if !bounded && tornTail wal s.pos wal.length then .ok s else .error e

/-- The checks and the state after the loop. -/
def finishInspect (disk : Option Header) (identity : Bytes) (features floor dataLen : ℕ)
    (s : Scan) : Except Error State := do
  let dataPages := dataLen / page
  if s.firstTx.any (· ≤ floor) ∧ ¬ s.floorProven then
    throw (bad "WAL predates the durable checkpoint")
  -- no zero-filled holes: missing data pages must all be supplied by the log
  if (dataLen % page ≠ 0 ∨ s.pages > dataPages) ∧
      (s.last = 0 ∨ s.pages ≤ dataPages ∨ s.pages - dataPages > s.committed.size
        ∨ (List.range (s.pages - dataPages)).any
            (fun i => !(s.committed.contains (dataPages + i)))) then
    throw (bad "incomplete data extent without committed WAL coverage")
  let h := s.committedHeader.or disk
  let next ← checkedAdd64 ((h.map (·.tx)).getD 0) 1
  let cap := (h.map (·.cap)).getD u64Max
  if s.last + s.pages * page > cap then
    throw (.resourceLimit "persisted page-WAL cap exceeded")
  return {
    latest := s.committed, committed := s.committed, endOff := s.last, lastCommit := s.last
    pages := s.pages, committedPages := s.pages, tx := next, txCrc := 0, cap
    freeHead := (h.map (·.free)).getD 0, identity, features, floor
    hintCurrent := false, hintPublished := false
    dataLimit := u64Max, walLimit := u64Max, trackedLimit := u64Max }

/-- Where the loop starts. -/
def Scan.start (dataPages tx : ℕ) : Scan where
  committed := ∅
  pending := ∅
  pages := dataPages
  pos := 0
  last := 0
  tx
  crc := 0
  firstTx := none
  committedHeader := none
  pendingHeader := none
  floorProven := false

/-- `Pager::inspect_bounded`.  `createFeatures` is the process-wide feature set of new databases,
read only when both metadata copies are damaged. -/
def inspectBounded (createFeatures : ℕ) (data wal : Bytes) (bound : Option ℕ) :
    Except Error State := do
  let disk ← diskHeader data
  let len := bound.getD wal.length
  if len > walCap then throw (bad "WAL exceeds pilot bounded lookup allowance")
  if disk.isNone ∧ len ≠ 0 then throw (bad "WAL ownership/history lacks checkpoint metadata")
  if data.length / page ≥ 2 ^ 32 then throw .tooLarge
  let floor := (disk.map (·.tx)).getD 0
  let identity := (disk.map (·.identity)).getD (List.replicate 16 0)
  let features := (disk.map (·.features)).getD createFeatures
  let tx ← checkedAdd64 floor 1
  let s ← scanLoop wal bound.isSome disk identity features floor (len / frameLen)
    (.start (data.length / page) tx)
  finishInspect disk identity features floor data.length s

/-- `Pager::inspect` -/
def inspect (createFeatures : ℕ) (data wal : Bytes) : Except Error State :=
  inspectBounded createFeatures data wal none

end PageWal
