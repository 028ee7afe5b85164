import Sekejap.PageWal.Disk

/-!
# The pager

The writer's side of `core/engine/src/store/pagewal/mod.rs`, as programs over the calls of
`Sekejap.PageWal.Disk`: the frames a transaction appends, the publication of a transaction
(commit frame, barrier, hint, then the in-memory swap), the checkpoint, and the tail
normalisation every open and rollback ends with.

A refusal keeps the changes made before it, as the `&mut State` of the source does: the extent is
raised before the append that may refuse.
-/

open Bytes Page Crc32c Proc

namespace PageWal

/-- The barrier a publication point issues. -/
inductive SyncMode where
  | full | normal | off
  deriving DecidableEq, Repr

structure Pager where
  state : State
  /-- `finish_open` has opened the hint file -/
  hintOpen : Bool
  sync : SyncMode

namespace Pager

/-- `Pager::with_state` -/
def withState (st : State) (sync : SyncMode) : Pager := ⟨st, false, sync⟩

/-- A change of the state under the mutex. -/
def update (f : State → State) : Proc Call Error Pager Unit :=
  modify fun P => { P with state := f P.state }

/-- `barrier_at` -/
def barrier (e : Call (Except Error Unit)) : Proc Call Error Pager Unit := do
  let P ← current
  if P.sync = .off then pure () else try' e

/-- A frame at the end of the log, within the caps; the end moves once it is written. -/
def append (b : Bytes) : Proc Call Error Pager Unit := do
  let P ← current
  let s := P.state
  let next ← ofExcept (checkedAdd64 s.endOff b.length)
  refuseIf (next > walCap ∨ next + s.pages * page > s.cap)
    (.resourceLimit "page-WAL managed-byte allowance")
  refuseIf (next > s.walLimit) (.resourceLimit "page-WAL wal_bytes allowance")
  try' (.writeWal s.endOff b)
  update fun s => { s with endOff := next }

/-- Refuse extent growth before the page is framed. -/
def grow (p : ℕ) : Proc Call Error Pager Unit := do
  let P ← current
  refuseIf (p + 1 > u32Max) .tooLarge
  let pages := max P.state.pages (p + 1)
  refuseIf (pages * page > P.state.dataLimit) (.resourceLimit "page-WAL data_bytes allowance")
  update fun s => { s with pages }

def track (p : ℕ) : Proc Call Error Pager Unit := do
  let P ← current
  refuseIf (p ∉ P.state.latest ∧ P.state.latest.size ≥ P.state.trackedLimit)
    (.resourceLimit "page-WAL tracked_pages allowance")

/-- Frame one page image of the open transaction and remember where it is. -/
def appendImage (p : ℕ) (b : Bytes) : Proc Call Error Pager Unit := do
  let P ← current
  let s := P.state
  let f := frame 1 p s.tx 0 b s.identity
  append f
  update fun t => { t with
    txCrc := crc32cAppend t.txCrc f
    latest := t.latest.insert p ⟨s.endOff, frameCrc f⟩ }

/-- `FileIo::write_at` of the pager. -/
def writeAt (b : Bytes) (off : ℕ) : Proc Call Error Pager Unit := do
  refuseIf (off % page ≠ 0 ∨ b.length ≠ page) (bad "unaligned page write")
  let p := off / page
  refuseIf (p > u32Max) .tooLarge
  let _ ← ofExcept (PageRef.openChecked b p)
  track p
  grow p
  appendImage p b

/-- `FileIo::read_at` of the pager, for one page. -/
def readAt (p : ℕ) : Proc Call Error Pager Bytes := do
  let P ← current
  let data ← ask .dataContents
  let wal ← ask .walContents
  ofExcept (readPage data wal P.state.latest p)

/-- A free page with one slot, as it is framed. -/
def freeImage (p : ℕ) (slot : Bytes) : Except Error Bytes := do
  let b ← PageMut.insertSlot (PageMut.init .free 0 p) 0 slot
  return sealPage (PageMut.finalise b 0) 1

/-- `b"taken"` -/
def takenSlot : Bytes := [0x74, 0x61, 0x6B, 0x65, 0x6E]

/-- The head of the free list, if there is one, is handed out once the log says that it is taken. -/
def popFreePage : Proc Call Error Pager (Option ℕ) := do
  let P ← current
  let p := P.state.freeHead
  if p = 0 then pure none
  else
    refuseIf (p < 2 ∨ p ≥ P.state.pages) (bad "free head extent")
    track p
    let b ← readAt p
    let page ← ofExcept (PageRef.openChecked b p)
    refuseIf (page.kind ≠ .free ∨ page.nentries ≠ 1 ∨ (page.slot 0).length ≠ 4)
      (bad "free page state")
    let next := u32At (page.slot 0) 0
    refuseIf (next = p ∨ (next ≠ 0 ∧ (next < 2 ∨ next ≥ P.state.pages)))
      (bad "free next extent/cycle")
    -- marked taken through the log before it is handed out
    let b ← ofExcept (freeImage p takenSlot)
    appendImage p b
    update fun s => { s with freeHead := next }
    pure (some p)

def pushFreePage (p : ℕ) : Proc Call Error Pager Unit := do
  refuseIf (p < 2) (bad "free page extent")
  track p
  grow p
  let P ← current
  let b ← ofExcept (freeImage p (leBytes 4 P.state.freeHead))
  appendImage p b
  update fun s => { s with freeHead := p }

/-- Copy 0 alone already publishes to readers. -/
def writeHint (publishedTx publishedEnd : ℕ) : Proc Call Error Pager Unit := do
  let P ← current
  refuseIf (P.hintOpen = false) (bad "publication hint file unavailable")
  let b := hintEncode ⟨P.state.identity, P.state.floor, publishedTx, publishedEnd % 2 ^ 32⟩
  update fun s => { s with hintCurrent := false, hintPublished := false }
  try' (.writeHint .first b)
  update fun s => { s with hintPublished := true }
  try' (.writeHint .second b)
  update fun s => { s with hintCurrent := true }

/-- Commit frame, barrier, hint, then the in-memory swap. -/
def publish : Proc Call Error Pager Unit := do
  let P ← current
  let s := P.state
  let next ← ofExcept (checkedAdd64 s.tx 1)
  append (frame 2 u32Max s.tx s.pages (commitBody s.txCrc) s.identity)
  barrier .syncWal
  let Q ← current
  let r ← attempt (writeHint Q.state.tx Q.state.endOff)
  update fun s =>
    if s.hintPublished then
      { s with
        committed := s.latest, committedPages := s.pages, lastCommit := s.endOff
        tx := next, txCrc := 0 }
    else s
  ofExcept r

/-- The page copies of a checkpoint, in index order. -/
def copyBack : List (ℕ × FrameRef) → Proc Call Error Pager Unit
  | [] => pure ()
  | (p, off) :: rest =>
      if p = 0 then copyBack rest
      else do
        let wal ← ask .walContents
        let b ← ofExcept (readIndexedFrame wal off)
        refuseIf (frameNo b ≠ p) (bad "WAL lookup identity")
        let _ ← ofExcept (PageRef.openChecked (framePayload b) p)
        try' (.writeData (p * page) (framePayload b))
        copyBack rest

/-- The independent read-back before the log is dropped. -/
def readBack : List (ℕ × FrameRef) → Proc Call Error Pager Unit
  | [] => pure ()
  | (p, off) :: rest =>
      if p = 0 then readBack rest
      else do
        let contents ← ask .dataContents
        let data ← ofExcept (PageWal.readAt contents (p * page) page)
        let wal ← ask .walContents
        let b ← ofExcept (readIndexedFrame wal off)
        refuseIf (data ≠ framePayload b) (bad "checkpoint read-back mismatch")
        let _ ← ofExcept (PageRef.openChecked data p)
        readBack rest

/-- One metadata copy: written, for the first barriered, and read back. -/
def writeMetadata (header : Header) (no : ℕ) (sync : Bool) : Proc Call Error Pager Unit := do
  let b ← ofExcept (header.page no)
  try' (.writeData (no * page) b)
  if sync then barrier .syncData else pure ()
  let data ← ask .dataContents
  let actual ← ofExcept (PageWal.readAt data (no * page) page)
  refuseIf (actual ≠ b) (bad "checkpoint metadata read-back mismatch")
  let _ ← ofExcept (Header.decode actual no)

/-- The committed log is copied into the data file, barriered and read back. -/
def copyLog : Proc Call Error Pager Unit := do
  let P ← current
  copyBack P.state.latest.toList
  try' (.setLenData (P.state.pages * page))
  barrier .syncData
  readBack P.state.latest.toList

/-- The two metadata copies are replaced, and the log is reset. -/
def absorbLog : Proc Call Error Pager Bool := do
  let P ← current
  match P.state.latest[0]? with
  | none => raise (bad "checkpoint lacks metadata")
  | some ref => do
      let wal ← ask .walContents
      let b ← ofExcept (readIndexedFrame wal ref)
      let header ← ofExcept (Header.decode (framePayload b) 0)
      let data ← ask .dataContents
      let order ← ofExcept (metadataWriteOrder data)
      writeMetadata header order.1 true
      writeMetadata header order.2 false
      try' (.setLenWal 0)
      update fun s => { s with
        latest := ∅, committed := ∅, endOff := 0, lastCommit := 0, txCrc := 0, floor := header.tx }
      let P ← current
      writeHint (P.state.tx - 1) 0
      pure true

/-- The part of a checkpoint that writes. -/
def foldLog : Proc Call Error Pager Bool := do
  copyLog
  absorbLog

/-- `checkpoint_with_crash`, without the crash. -/
def checkpoint : Proc Call Error Pager Bool := do
  let readers ← ask .readers
  if readers ≠ 0 then pure false
  else
    let P ← current
    refuseIf (P.state.endOff ≠ P.state.lastCommit) (bad "checkpoint with unpublished pages")
    refuseIf (P.state.hintCurrent = false)
      (bad "checkpoint requires a current publication hint; rollback or reopen")
    if P.state.endOff = 0 then pure true else foldLog

/-- 4 MiB, or half of whichever allowance would otherwise refuse the next transaction first. -/
def checkpointDue (P : Pager) : Bool :=
  let s := P.state
  let allowance := s.cap - s.pages * page
  s.endOff ≥ max (min (min (4 * 1024 * 1024) (allowance / 2)) (s.walLimit / 2)) frameLen

/-- Truncate the uncommitted tail, barrier the recovered prefix and publish it.  The gate is
held. -/
def normaliseTail : Proc Call Error Pager Unit := do
  let P ← current
  let wal ← ask .walContents
  if wal.length ≠ P.state.lastCommit then try' (.setLenWal P.state.lastCommit) else pure ()
  barrier .syncWal
  modify fun P => { P with hintOpen := true }
  let P ← current
  writeHint (P.state.tx - 1) P.state.lastCommit

/-- `finish_open`, taking the gate itself. -/
def finishOpen : Proc Call Error Pager Unit := do
  ask .lockGate
  let r ← attempt normaliseTail
  ask .unlock
  ofExcept r

end Pager

end PageWal
