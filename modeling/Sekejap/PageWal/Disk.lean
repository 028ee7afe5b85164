import Sekejap.Lib.DurableFile
import Sekejap.Lib.Program
import Sekejap.PageWal.Hint

/-!
# The files of a database, and the calls its writer makes on them

`Disk` is what the operating system holds: the two durable files, the hint file, which is never
synced, and the advisory locks the writer has.  A `Call` is one call the writer makes; a program
can be stopped between any two of them, and another process can act there.

`Disk.exec` is what a call does.  What the power takes away is in `DurableFile`.
The rules below turn a call of a program into what it does to the disk.
-/

open Bytes

namespace PageWal

/-- The locks the writer holds beside `writer.lock`. -/
inductive Held where
  | none
  /-- the admission gate, exclusively -/
  | gate
  /-- the gate and every reader slot -/
  | all
  deriving DecidableEq, Repr

structure Disk where
  data : DurableFile
  wal : DurableFile
  hint : Bytes
  held : Held
  /-- history: how many commit frames have been written out -/
  commits : ℕ

/-- Which copy of the hint. -/
inductive HintCopy where
  | first | second
  deriving DecidableEq, Repr

def HintCopy.offset : HintCopy → ℕ
  | .first => 0
  | .second => hintBytes

/-- What the writer asks of the files and the locks.  Between two calls anything may crash, and the readers
of other processes run. -/
inductive Call : Type → Type
  /-- reads of the data file, which only the writer changes -/
  | dataContents : Call Bytes
  | walContents : Call Bytes
  | writeData (off : ℕ) (b : Bytes) : Call (Except Error Unit)
  | setLenData (n : ℕ) : Call (Except Error Unit)
  | syncData : Call (Except Error Unit)
  | writeWal (off : ℕ) (b : Bytes) : Call (Except Error Unit)
  | setLenWal (n : ℕ) : Call (Except Error Unit)
  | syncWal : Call (Except Error Unit)
  | writeHint (copy : HintCopy) (b : Bytes) : Call (Except Error Unit)
  /-- `exclude_readers`: the gate and every slot, or nothing -/
  | excludeReaders : Call Bool
  /-- `lock_exclusive` on the gate -/
  | lockGate : Call Unit
  /-- a guard is dropped -/
  | unlock : Call Unit
  /-- the snapshots this process has open -/
  | readers : Call ℕ

namespace Disk

/-- `b` is a whole commit frame. -/
def isCommit (b : Bytes) : Bool := b.length = frameLen && frameKind b = 2

def pushData (w : Disk) (op : FileOp) : Disk := { w with data := w.data.push op }
def pushWal (w : Disk) (op : FileOp) : Disk := { w with wal := w.wal.push op }
def putWal (w : Disk) (off : ℕ) (b : Bytes) : Disk :=
  { w.pushWal (.writeAt off b) with commits := w.commits + if isCommit b then 1 else 0 }
def barrierData (w : Disk) : Disk := { w with data := w.data.barrier }
def barrierWal (w : Disk) : Disk := { w with wal := w.wal.barrier }
def putHint (w : Disk) (copy : HintCopy) (b : Bytes) : Disk :=
  { w with hint := w.hint.splice copy.offset b }
def hold (w : Disk) (h : Held) : Disk := { w with held := h }

/-- A call that succeeds. -/
def exec : {β : Type} → Call β → Disk → β → Disk → Prop
  | _, .dataContents, w, r, w' => r = w.data.contents ∧ w' = w
  | _, .walContents, w, r, w' => r = w.wal.contents ∧ w' = w
  | _, .writeData off b, w, r, w' => r = .ok () ∧ w' = w.pushData (.writeAt off b)
  | _, .setLenData n, w, r, w' => r = .ok () ∧ w' = w.pushData (.setLen n)
  | _, .syncData, w, r, w' => r = .ok () ∧ w' = w.barrierData
  | _, .writeWal off b, w, r, w' => r = .ok () ∧ w' = w.putWal off b
  | _, .setLenWal n, w, r, w' => r = .ok () ∧ w' = w.pushWal (.setLen n)
  | _, .syncWal, w, r, w' => r = .ok () ∧ w' = w.barrierWal
  | _, .writeHint copy b, w, r, w' => r = .ok () ∧ w' = w.putHint copy b
  | _, .excludeReaders, w, r, w' => (r = true ∧ w' = w.hold .all) ∨ (r = false ∧ w' = w)
  | _, .lockGate, w, _, w' => w' = w.hold .gate
  | _, .unlock, w, _, w' => w' = w.hold .none
  | _, .readers, w, _, w' => w' = w

section fields

variable (w : Disk)

@[simp] lemma data_pushWal (op : FileOp) : (w.pushWal op).data = w.data := rfl
@[simp] lemma wal_pushWal (op : FileOp) : (w.pushWal op).wal = w.wal.push op := rfl
@[simp] lemma hint_pushWal (op : FileOp) : (w.pushWal op).hint = w.hint := rfl
@[simp] lemma held_pushWal (op : FileOp) : (w.pushWal op).held = w.held := rfl
@[simp] lemma commits_pushWal (op : FileOp) : (w.pushWal op).commits = w.commits := rfl

@[simp] lemma data_putWal (off : ℕ) (b : Bytes) : (w.putWal off b).data = w.data := rfl
@[simp] lemma wal_putWal (off : ℕ) (b : Bytes) : (w.putWal off b).wal = w.wal.push (.writeAt off b) := rfl
@[simp] lemma hint_putWal (off : ℕ) (b : Bytes) : (w.putWal off b).hint = w.hint := rfl
@[simp] lemma held_putWal (off : ℕ) (b : Bytes) : (w.putWal off b).held = w.held := rfl
@[simp] lemma commits_putWal (off : ℕ) (b : Bytes) : (w.putWal off b).commits = w.commits + if isCommit b then 1 else 0 := rfl

@[simp] lemma data_pushData (op : FileOp) : (w.pushData op).data = w.data.push op := rfl
@[simp] lemma wal_pushData (op : FileOp) : (w.pushData op).wal = w.wal := rfl
@[simp] lemma hint_pushData (op : FileOp) : (w.pushData op).hint = w.hint := rfl
@[simp] lemma held_pushData (op : FileOp) : (w.pushData op).held = w.held := rfl
@[simp] lemma commits_pushData (op : FileOp) : (w.pushData op).commits = w.commits := rfl

@[simp] lemma data_barrierData : w.barrierData.data = w.data.barrier := rfl
@[simp] lemma wal_barrierData : w.barrierData.wal = w.wal := rfl
@[simp] lemma hint_barrierData : w.barrierData.hint = w.hint := rfl
@[simp] lemma held_barrierData : w.barrierData.held = w.held := rfl
@[simp] lemma commits_barrierData : w.barrierData.commits = w.commits := rfl

@[simp] lemma data_barrierWal : w.barrierWal.data = w.data := rfl
@[simp] lemma wal_barrierWal : w.barrierWal.wal = w.wal.barrier := rfl
@[simp] lemma hint_barrierWal : w.barrierWal.hint = w.hint := rfl
@[simp] lemma held_barrierWal : w.barrierWal.held = w.held := rfl
@[simp] lemma commits_barrierWal : w.barrierWal.commits = w.commits := rfl

@[simp] lemma data_putHint (c : HintCopy) (b : Bytes) : (w.putHint c b).data = w.data := rfl
@[simp] lemma wal_putHint (c : HintCopy) (b : Bytes) : (w.putHint c b).wal = w.wal := rfl
@[simp] lemma hint_putHint (c : HintCopy) (b : Bytes) : (w.putHint c b).hint = w.hint.splice c.offset b := rfl
@[simp] lemma held_putHint (c : HintCopy) (b : Bytes) : (w.putHint c b).held = w.held := rfl
@[simp] lemma commits_putHint (c : HintCopy) (b : Bytes) : (w.putHint c b).commits = w.commits := rfl

@[simp] lemma data_hold (h : Held) : (w.hold h).data = w.data := rfl
@[simp] lemma wal_hold (h : Held) : (w.hold h).wal = w.wal := rfl
@[simp] lemma hint_hold (h : Held) : (w.hold h).hint = w.hint := rfl
@[simp] lemma held_hold (h : Held) : (w.hold h).held = h := rfl
@[simp] lemma commits_hold (h : Held) : (w.hold h).commits = w.commits := rfl

end fields

end Disk

/-! ## The calls of a program -/

section calls

variable {σ : Type} {G : Disk → Disk → Prop} {X : Error → σ → Disk → Prop} {s : σ} {w : Disk}

open Proc

attribute [local simp] Disk.exec

@[simp] lemma spec_dataContents {Q : Bytes → σ → Disk → Prop} :
    Spec Disk.exec G (ask .dataContents) Q X s w ↔ G w w ∧ Q w.data.contents s w := by
  simp [spec_ask]

@[simp] lemma spec_walContents {Q : Bytes → σ → Disk → Prop} :
    Spec Disk.exec G (ask .walContents) Q X s w ↔ G w w ∧ Q w.wal.contents s w := by
  simp [spec_ask]

@[simp] lemma spec_readers {Q : ℕ → σ → Disk → Prop} :
    Spec Disk.exec G (ask .readers) Q X s w ↔ ∀ n, G w w ∧ Q n s w := by
  simp [spec_ask]

@[simp] lemma spec_writeData {Q : Unit → σ → Disk → Prop} (off : ℕ) (b : Bytes) :
    Spec Disk.exec G (try' (.writeData off b)) Q X s w ↔
      G w (w.pushData (.writeAt off b)) ∧ Q () s (w.pushData (.writeAt off b)) := by
  simp [spec_try, post]

@[simp] lemma spec_setLenData {Q : Unit → σ → Disk → Prop} (n : ℕ) :
    Spec Disk.exec G (try' (.setLenData n)) Q X s w ↔
      G w (w.pushData (.setLen n)) ∧ Q () s (w.pushData (.setLen n)) := by
  simp [spec_try, post]

@[simp] lemma spec_syncData {Q : Unit → σ → Disk → Prop} :
    Spec Disk.exec G (try' .syncData) Q X s w ↔ G w w.barrierData ∧ Q () s w.barrierData := by
  simp [spec_try, post]

@[simp] lemma spec_writeWal {Q : Unit → σ → Disk → Prop} (off : ℕ) (b : Bytes) :
    Spec Disk.exec G (try' (.writeWal off b)) Q X s w ↔
      G w (w.putWal off b) ∧ Q () s (w.putWal off b) := by
  simp [spec_try, post]

@[simp] lemma spec_setLenWal {Q : Unit → σ → Disk → Prop} (n : ℕ) :
    Spec Disk.exec G (try' (.setLenWal n)) Q X s w ↔
      G w (w.pushWal (.setLen n)) ∧ Q () s (w.pushWal (.setLen n)) := by
  simp [spec_try, post]

@[simp] lemma spec_syncWal {Q : Unit → σ → Disk → Prop} :
    Spec Disk.exec G (try' .syncWal) Q X s w ↔ G w w.barrierWal ∧ Q () s w.barrierWal := by
  simp [spec_try, post]

@[simp] lemma spec_writeHint {Q : Unit → σ → Disk → Prop} (c : HintCopy) (b : Bytes) :
    Spec Disk.exec G (try' (.writeHint c b)) Q X s w ↔
      G w (w.putHint c b) ∧ Q () s (w.putHint c b) := by
  simp [spec_try, post]

@[simp] lemma spec_excludeReaders {Q : Bool → σ → Disk → Prop} :
    Spec Disk.exec G (ask .excludeReaders) Q X s w ↔
      (G w (w.hold .all) ∧ Q true s (w.hold .all)) ∧ G w w ∧ Q false s w := by
  simp only [spec_ask, Disk.exec]
  constructor
  · intro h
    exact ⟨h _ _ (Or.inl ⟨rfl, rfl⟩), h _ _ (Or.inr ⟨rfl, rfl⟩)⟩
  · rintro ⟨h1, h2⟩ r w' (⟨rfl, rfl⟩ | ⟨rfl, rfl⟩)
    · exact h1
    · exact h2

@[simp] lemma spec_lockGate {Q : Unit → σ → Disk → Prop} :
    Spec Disk.exec G (ask .lockGate) Q X s w ↔ G w (w.hold .gate) ∧ Q () s (w.hold .gate) := by
  simp only [spec_ask, Disk.exec, forall_eq]
  exact ⟨fun h => h (), fun h _ => h⟩

@[simp] lemma spec_unlock {Q : Unit → σ → Disk → Prop} :
    Spec Disk.exec G (ask .unlock) Q X s w ↔ G w (w.hold .none) ∧ Q () s (w.hold .none) := by
  simp only [spec_ask, Disk.exec, forall_eq]
  exact ⟨fun h => h (), fun h _ => h⟩

end calls

end PageWal
