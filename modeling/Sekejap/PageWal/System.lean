import Sekejap.PageWal.Recovery

/-!
# Runs of one writer

`Sys` is a database with its one writer, stopped anywhere: between two operations, or between any
two calls of one.  `Step` is one call, or the beginning or the end of an operation; `Reachable` is
every state of every run from a fresh database.

The history of a run is part of the state and nothing reads it: the image of the last transaction
whose publication returned (`acked`), the image of the one being published (`target`), and the
pages handed out and not pushed back (`owned`), as they are and as of the last commit.
-/

open Bytes Page Crc32c Proc

namespace PageWal

/-- What the writer does. -/
inductive Stage where
  | beginMutation
  | act (a : Act)
  | setRoot (root : ℕ)
  /-- the first half of `commit` -/
  | publish (victim : Option ℕ) (order : List ℕ)
  /-- its second half, when a checkpoint is due -/
  | fold
  | checkpoint
  /-- the first half of `set_cap`; a commit follows -/
  | setCap (bytes : ℕ) (victim : Option ℕ) (order : List ℕ)
  | setRuntimeLimits (dataBytes walBytes trackedPages : ℕ)
  | rollback (createFeatures : ℕ)
  | reopen (createFeatures : ℕ) (sync : SyncMode)

namespace Stage

@[reducible] def Result : Stage → Type
  | act _ => Option ℕ
  | publish _ _ => Bool
  | fold => Bool
  | checkpoint => Bool
  | _ => Unit

def proc : (st : Stage) → Proc Call Error Store st.Result
  | beginMutation => Store.beginMutation
  | act a => Store.mutate a
  | setRoot root => Store.setRoot root
  | publish victim order => Store.commitPublish victim order
  | fold => Store.poisoning Store.checkpointGuarded
  | checkpoint => Store.checkpoint
  | setCap bytes _ _ => Store.setCapState bytes
  | setRuntimeLimits d w t => Store.setRuntimeLimits d w t
  | rollback cf => Store.rollback cf
  | reopen cf sync => Store.reopen cf sync

/-- When the writer may begin it.  The tree acts within its operation, on pages of the file;
everything else may be asked for at any time. -/
def May (σ : Store) : Stage → Prop
  | act a => σ.poisoned = false ∧ σ.dirty = true ∧ a.Ok σ
  | setRoot root => σ.poisoned = false ∧ σ.dirty = true ∧ 2 ≤ root ∧ root < σ.pool.nextPage
  | fold => False
  | setCap bytes _ _ => bytes ≤ u64Max
  | reopen _ sync => sync ≠ .off
  | _ => True

end Stage

/-- The header the database has once a commit of the open transaction returned.  A commit that
finds nothing to do writes no metadata page, so the last one keeps its number. -/
def Store.pendingHeader (σ : Store) : Header :=
  if σ.settled then { σ.nextHeader with tx := σ.state.tx - 1 } else σ.nextHeader

/-- A page as the open transaction has it: in the pool, or as the pager reads it. -/
def Store.pendingPage (σ : Store) (w : Disk) (p : ℕ) : Option Bytes :=
  match σ.pool.dirty[p]? with
  | some b => some (sealPage b 1)
  | none => (readPage w.data.contents w.wal.contents σ.state.latest p).toOption

/-- **The image the open transaction would commit**: what every page holds, in the pool or as the
pager reads it, under the root, free head and cap of the handle. -/
def Store.pendingImage (σ : Store) (w : Disk) : Image where
  root := σ.root
  free := σ.state.freeHead
  cap := σ.state.cap
  pages := σ.pool.nextPage
  page := fun p =>
    if p ≠ 1 ∧ p < σ.pool.nextPage then
      if p = 0 then (σ.pendingHeader.page 0).toOption else σ.pendingPage w p
    else none

/-- Which pages the callers of the store hold. -/
structure Holdings where
  owned : Finset ℕ
  /-- as of the last commit -/
  saved : Finset ℕ

/-- What an operation that returned did to them. -/
def Holdings.after (H : Holdings) : (st : Stage) → st.Result → Holdings
  | .act (.allocate _), some p => { H with owned := insert p H.owned }
  | .act (.free p), _ => { H with owned := H.owned.erase p }
  | .rollback _, _ => { H with owned := H.saved }
  | .reopen _ _, _ => { H with owned := H.saved }
  | _, _ => H

/-- What the writer is doing. -/
inductive Job : Type 1
  | idle (σ : Store)
  | busy (st : Stage) (p : Prog Call (Except Error st.Result × Store))
  /-- a reopen failed; `σ` is what it had built -/
  | closed (σ : Store)

/-- The files, what the writer is in the middle of, and the history that the results speak of: the image last
acknowledged, the one a publication under way would acknowledge, and the pages the tree may touch. -/
structure Sys where
  disk : Disk
  job : Job
  acked : Image
  target : Image
  /-- the commit frames written when `acked` was acknowledged -/
  commits : ℕ
  holdings : Holdings

namespace Sys

/-- An operation begins.  A poisoned handle publishes nothing. -/
def start (s : Sys) (σ : Store) (st : Stage) : Sys :=
  { s with
    job := .busy st (st.proc σ)
    target := match st with
      | .publish _ _ => if σ.poisoned then s.acked else σ.pendingImage s.disk
      | _ => s.acked }

/-- A publication returned: its transaction is acknowledged, whatever it wrote. -/
def acknowledge (s : Sys) : Sys :=
  { s with
    acked := s.target
    commits := s.disk.commits
    holdings := { s.holdings with saved := s.holdings.owned } }

/-- An operation ends; `commit` and `set_cap` have a second half. -/
def finish (s : Sys) (σ : Store) : (st : Stage) → Except Error st.Result → Sys
  | .publish _ _, .ok true => s.acknowledge.start σ .fold
  | .publish _ _, .ok false => { s.acknowledge with job := .idle σ }
  | .setCap _ victim order, .ok _ => s.start σ (.publish victim order)
  | .reopen _ _, .error _ => { s with job := .closed σ }
  | st, .ok r => { s with job := .idle σ, holdings := s.holdings.after st r }
  | _, .error _ => { s with job := .idle σ }

end Sys

/-- **One step.**  `may` restricts what the tree does. -/
inductive Step (may : Holdings → Act → Prop) : Sys → Sys → Prop
  | start {s : Sys} {σ : Store} {st : Stage} (h : s.job = .idle σ) (hst : st.May σ)
      (hmay : ∀ a, st = .act a → may s.holdings a) : Step may s (s.start σ st)
  | restart {s : Sys} {σ : Store} {cf : ℕ} {sync : SyncMode} (h : s.job = .closed σ)
      (hs : sync ≠ .off) : Step may s (s.start σ (.reopen cf sync))
  | call {s : Sys} {st : Stage} {β : Type} {e : Call β}
      {k : β → Prog Call (Except Error st.Result × Store)} {r : β} {w : Disk}
      (h : s.job = .busy st (.call e k)) (hx : Disk.exec e s.disk r w) :
      Step may s { s with disk := w, job := .busy st (k r) }
  | finish {s : Sys} {st : Stage} {r : Except Error st.Result} {σ : Store}
      (h : s.job = .busy st (.ret (r, σ))) : Step may s (s.finish σ st r)

/-! ## A fresh database -/

/-- The header `initialize` writes. -/
def freshHeader (identity : Bytes) (features : ℕ) : Header where
  root := 0
  free := 0
  cap := u64Max
  identity := identity
  tx := 0
  features := features

/-- The state an inspection of the fresh files finds, published by `finish_open`. -/
def freshPager (identity : Bytes) (features : ℕ) (sync : SyncMode) : Pager where
  state :=
    { latest := ∅, committed := ∅, endOff := 0, lastCommit := 0, pages := 2, committedPages := 2
      tx := 1, txCrc := 0, cap := u64Max, freeHead := 0, identity := identity, features := features
      floor := 0, hintCurrent := true, hintPublished := true
      dataLimit := u64Max, walLimit := u64Max, trackedLimit := u64Max }
  hintOpen := true
  sync := sync

/-- The handle `open_inner` commits when it creates a database: one empty leaf, page 2. -/
def freshStore (identity : Bytes) (features : ℕ) (sync : SyncMode) : Store where
  pager := freshPager identity features sync
  pool := ⟨3, (∅ : Std.ExtTreeMap ℕ Bytes).insert 2 (PageMut.finalise (PageMut.init .leaf 1 2) 0)⟩
  root := 2
  poisoned := false
  dirty := true
  limits := (u64Max, u64Max, u64Max)

/-- The files beside it. -/
def freshDisk (identity m₀ m₁ : Bytes) : Disk where
  data := .ofBytes (m₀ ++ m₁)
  wal := .ofBytes []
  hint := hintEncode ⟨identity, 0, 0, 0⟩ ++ hintEncode ⟨identity, 0, 0, 0⟩
  held := .none
  commits := 0

/-- **A database as it is created**, before its first commit. -/
structure Fresh (s : Sys) : Prop where
  intro ::
  exists_eq : ∃ identity features sync m₀ m₁, identity.length = 16
    ∧ identity ≠ List.replicate 16 0 ∧ features < 2 ∧ sync ≠ SyncMode.off
    ∧ (freshHeader identity features).page 0 = .ok m₀
    ∧ (freshHeader identity features).page 1 = .ok m₁
    ∧ s = {
        disk := freshDisk identity m₀ m₁
        job := .idle (freshStore identity features sync)
        acked := (Version.mk (freshHeader identity features) 2 fun _ => []).image
        target := (Version.mk (freshHeader identity features) 2 fun _ => []).image
        commits := 0
        holdings := ⟨{2}, ∅⟩ }

/-- A new database of identity `1, 1, …`. -/
def newSys : Sys :=
  let header := freshHeader (List.replicate 16 1) 0
  let metadata := fun no => (header.page no).toOption.getD []
  { disk := freshDisk (List.replicate 16 1) (metadata 0) (metadata 1)
    job := .idle (freshStore (List.replicate 16 1) 0 .full)
    acked := (Version.mk header 2 fun _ => []).image
    target := (Version.mk header 2 fun _ => []).image
    commits := 0
    holdings := ⟨{2}, ∅⟩ }

/-- Every state of every run. -/
inductive Reachable (may : Holdings → Act → Prop) : Sys → Prop
  | fresh {s : Sys} (h : Fresh s) : Reachable may s
  | step {s s' : Sys} (h : Reachable may s) (hs : Step may s s') : Reachable may s'

end PageWal
