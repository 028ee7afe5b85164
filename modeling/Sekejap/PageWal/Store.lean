import Sekejap.PageWal.Pager

/-!
# The store

`PageWalStore` is the pager under a buffer pool: pages are changed in the pool and reach the log
when a frame is given up or the transaction is committed.  Of the pool the model keeps what the
log depends on — the next fresh page number and the dirty pages; a clean frame holds what the
pager would read.  Which dirty frame the clock hand gives up, and the order in which a flush meets
the frames, are arguments of the operations.

A tree operation of the source (`put`, `delete`, `tree_put`, …) is `beginMutation`, then pool
actions the tree chooses by what it meets, each a `mutate`, then `setRoot`.  A mutator that fails
poisons the handle, and only `rollback` or a reopen clears that.
-/

open Bytes Page Crc32c Proc

namespace PageWal

structure Pool where
  nextPage : ℕ
  dirty : Std.ExtTreeMap ℕ Bytes

/-- `BufferPool::new` over a pager. -/
def Pool.new (pages : ℕ) : Pool := ⟨pages, ∅⟩

/-- A handle: its pager, the pages it has changed, and the header it will write. -/
structure Store where
  pager : Pager
  pool : Pool
  root : ℕ
  poisoned : Bool
  dirty : Bool
  /-- `(data_bytes, wal_bytes, tracked_pages)`, reinstalled after a rollback -/
  limits : ℕ × ℕ × ℕ

/-- One thing a tree does to the pool. -/
inductive Act where
  /-- `allocate`, giving up the dirty frame `victim` -/
  | allocate (victim : Option ℕ)
  /-- `get_mut(p)` and the bytes the page has afterwards -/
  | edit (victim : Option ℕ) (p : ℕ) (b : Bytes)
  | free (p : ℕ)

namespace Store

/-- The state under the pager's mutex. -/
abbrev state (σ : Store) : State := σ.pager.state

def onPager {α : Type} (p : Proc Call Error Pager α) : Proc Call Error Store α :=
  zoom Store.pager (fun P σ => { σ with pager := P }) p

def updatePool (f : Pool → Pool) : Proc Call Error Store Unit :=
  modify fun σ => { σ with pool := f σ.pool }

/-- A mutator that fails poisons the handle. -/
def poisoning {α : Type} (m : Proc Call Error Store α) : Proc Call Error Store α := do
  match ← attempt m with
  | .ok a => pure a
  | .error e => do
      modify fun σ => { σ with poisoned := true }
      raise e

/-- `writable`, on a writer's handle. -/
def writable : Proc Call Error Store Unit := do
  let σ ← current
  refuseIf (σ.poisoned = true) .storePoisoned

/-! ## The pool -/

/-- Write a dirty frame out, sealed with generation 1. -/
def writeOut (p : ℕ) : Proc Call Error Store Unit := do
  let σ ← current
  match σ.pool.dirty[p]? with
  | none => pure ()
  | some b => do
      onPager (Pager.writeAt (sealPage b 1) (p * page))
      updatePool fun pool => { pool with dirty := pool.dirty.erase p }

/-- The frame the clock hand gives up. -/
def giveUp : Option ℕ → Proc Call Error Store Unit
  | none => pure ()
  | some p => writeOut p

/-- `BufferPool::load` -/
def load (victim : Option ℕ) (p : ℕ) : Proc Call Error Store Bytes := do
  let σ ← current
  match σ.pool.dirty[p]? with
  | some b => pure b
  | none => do
      giveUp victim
      onPager (Pager.readAt p)

/-- `BufferPool::allocate`: a page from the free list, or the next one of the file. -/
def allocate (victim : Option ℕ) : Proc Call Error Store ℕ := do
  let popped ← onPager Pager.popFreePage
  let p ←
    match popped with
    | some p => do
        updatePool fun pool => { pool with dirty := pool.dirty.erase p }
        pure p
    | none => do
        let σ ← current
        refuseIf (σ.pool.nextPage + 1 > u32Max) .tooLarge
        updatePool fun pool => { pool with nextPage := pool.nextPage + 1 }
        pure σ.pool.nextPage
  giveUp victim
  updatePool fun pool =>
    { pool with dirty := pool.dirty.insert p (PageMut.finalise (PageMut.init .free 0 p) 0) }
  pure p

/-- `BufferPool::free_page` -/
def freePage (p : ℕ) : Proc Call Error Store Unit := do
  if p < 2 then pure ()
  else
    updatePool fun pool => { pool with dirty := pool.dirty.erase p }
    onPager (Pager.pushFreePage p)

/-- The page an action hands out, if it does. -/
def act : Act → Proc Call Error Store (Option ℕ)
  | .allocate victim => do
      let p ← allocate victim
      pure (some p)
  | .edit victim p b => do
      let _ ← load victim p
      updatePool fun pool => { pool with dirty := pool.dirty.insert p b }
      pure none
  | .free p => do
      freePage p
      pure none

/-- Write out the frames `order` names, in that order. -/
def flush : List ℕ → Proc Call Error Store Unit
  | [] => pure ()
  | p :: order => do
      writeOut p
      flush order

/-- `flush_all`: every dirty frame.  `order` is the order in which the frames happen to lie. -/
def flushAll (order : List ℕ) : Proc Call Error Store Unit := do
  flush order
  let σ ← current
  flush σ.pool.dirty.keys

/-! ## Transactions -/

/-- Every checkpoint path: readers in any process defer it. -/
def checkpointGuarded : Proc Call Error Store Bool := do
  if ← ask .excludeReaders then
    let r ← attempt (onPager Pager.checkpoint)
    ask .unlock
    ofExcept r
  else pure false

/-- Fold the committed log before the first frame of a transaction that would not fit. -/
def foldCommittedWalIfAtCap : Proc Call Error Store Unit := do
  let σ ← current
  if σ.dirty then pure ()
  else if ¬ σ.pager.checkpointDue ∧ ¬ σ.state.endOff + frameLen > σ.state.walLimit then pure ()
  else if σ.state.endOff ≠ σ.state.lastCommit then pure ()
  else do
    let _ ← poisoning checkpointGuarded

/-- A tree operation begins. -/
def beginMutation : Proc Call Error Store Unit := do
  writable
  foldCommittedWalIfAtCap
  modify fun σ => { σ with dirty := true }

/-- The next thing the tree operation does. -/
def mutate (a : Act) : Proc Call Error Store (Option ℕ) := poisoning (act a)

/-- The tree operation ends with the root the tree reports. -/
def setRoot (root : ℕ) : Proc Call Error Store Unit :=
  modify fun σ => { σ with root }

/-- The header of the transaction being committed. -/
def nextHeader (σ : Store) : Header where
  root := σ.root
  free := σ.state.freeHead
  cap := σ.state.cap
  identity := σ.state.identity
  tx := σ.state.tx
  features := σ.state.features

/-- Nothing has changed since the last acknowledged commit. -/
def settled (σ : Store) : Bool :=
  !σ.dirty && σ.state.endOff = σ.state.lastCommit && σ.state.hintCurrent

/-- The transaction is put on the log and published; the result says whether a checkpoint is
due. -/
def publishTransaction (victim : Option ℕ) (order : List ℕ) : Proc Call Error Store Bool :=
  poisoning do
    let σ ← current
    let _ ← load victim 0
    let b ← ofExcept (PageMut.insertSlot (PageMut.init .metaPage 0 0) 0 σ.nextHeader.bytes)
    updatePool fun pool => { pool with dirty := pool.dirty.insert 0 (PageMut.finalise b 0) }
    flushAll order
    onPager Pager.publish
    modify fun σ => { σ with dirty := false }
    let σ ← current
    pure σ.pager.checkpointDue

/-- The first half of `commit`. -/
def commitPublish (victim : Option ℕ) (order : List ℕ) : Proc Call Error Store Bool := do
  writable
  let σ ← current
  if σ.settled then pure false else publishTransaction victim order

def checkpoint : Proc Call Error Store Bool := do
  writable
  let σ ← current
  refuseIf (σ.dirty = true) (bad "checkpoint requires commit")
  poisoning checkpointGuarded

/-- The first half of `set_cap`; the commit that persists the cap follows. -/
def setCapState (bytes : ℕ) : Proc Call Error Store Unit := do
  writable
  let σ ← current
  refuseIf (σ.dirty = true) (bad "set cap requires committed state")
  refuseIf (σ.state.endOff + σ.state.pages * page + 2 * frameLen > bytes)
    (.resourceLimit "cap lacks policy commit headroom")
  onPager (Pager.update fun s => { s with cap := bytes })
  modify fun σ => { σ with dirty := true }

/-- The allowances of this handle; what exists must be within them. -/
def setRuntimeLimits (dataBytes walBytes trackedPages : ℕ) : Proc Call Error Store Unit := do
  let σ ← current
  refuseIf (σ.state.pages * page > dataBytes ∨ σ.state.endOff > walBytes
      ∨ σ.state.latest.size > trackedPages)
    (.resourceLimit "existing extent exceeds the requested allowance")
  onPager (Pager.update fun s =>
    { s with dataLimit := dataBytes, walLimit := walBytes, trackedLimit := trackedPages })
  modify fun σ => { σ with limits := (dataBytes, walBytes, trackedPages) }

/-! ## Opening -/

/-- The header of page 0 is put in force; its caps are checked against the files. -/
def loadHeader : Proc Call Error Store Unit := do
  let b ← load none 0
  let p ← ofExcept (PageRef.openResident b 0)
  refuseIf (p.kind ≠ .metaPage ∨ p.nentries ≠ 1) (bad "pilot header shape")
  let h ← ofExcept (Header.decodeSlot (p.slot 0))
  let σ ← current
  ofExcept (h.validateExtent σ.pool.nextPage)
  modify fun σ => { σ with root := h.root }
  onPager (Pager.update fun s => { s with freeHead := h.free, cap := h.cap })
  let σ ← current
  refuseIf (σ.state.endOff + σ.state.pages * page > σ.state.cap)
    (.resourceLimit "persisted page-WAL cap exceeded")

/-- Discard every uncommitted change: the files are inspected as a reopen would, the tail is
truncated and the recovered prefix republished. -/
def rollback (createFeatures : ℕ) : Proc Call Error Store Unit := do
  let data ← ask .dataContents
  let wal ← ask .walContents
  let fresh ← ofExcept (inspect createFeatures data wal)
  let σ ← current
  refuseIf (fresh.identity ≠ σ.state.identity ∨ fresh.features ≠ σ.state.features)
    (bad "rollback identity/features changed")
  onPager (Pager.update fun _ => { fresh with
    dataLimit := σ.limits.1, walLimit := σ.limits.2.1, trackedLimit := σ.limits.2.2 })
  onPager Pager.finishOpen
  modify fun σ => { σ with
    pool := .new σ.state.pages, root := 0, poisoned := true, dirty := false }
  loadHeader
  modify fun σ => { σ with poisoned := false }

/-- A handle on the state an inspection found, before its header is loaded. -/
def opened (st : State) (sync : SyncMode) : Store where
  pager := .withState st sync
  pool := .new st.pages
  root := 0
  poisoned := false
  dirty := false
  limits := (u64Max, u64Max, u64Max)

/-- `open_inner` on existing files, with the gate held from before the inspection to the end.
The handle it starts from is the one being replaced. -/
def reopen (createFeatures : ℕ) (sync : SyncMode) : Proc Call Error Store Unit := do
  ask .lockGate
  let r ← attempt do
    let data ← ask .dataContents
    let wal ← ask .walContents
    let st ← ofExcept (inspect createFeatures data wal)
    modify fun _ => opened st sync
    loadHeader
    onPager Pager.normaliseTail
  ask .unlock
  ofExcept r

end Store

end PageWal
