import Sekejap.Lib.Bytes

/-!
# Files that lose their unsynced tail

A file is what its last barrier made durable plus the calls made since, in order.  A running
process sees all of them (`DurableFile.contents`); a crash keeps the durable part and **some
prefix of the later calls**, the last of which may be a write cut short (`DurableFile.Crash`).

What a checksum makes of a write cut short is not a fact about files, so `Crash` takes it as a
parameter: `R old new torn` says that the torn contents, between those before and after the
write, are ones a crash is allowed to leave.

`Crash.push` is the rule the proofs use: one more call adds exactly the outcomes of that call to
the outcomes there were.  `Crash.barrier` is its counterpart, and leaves a single outcome.
-/

/-- A call that changes a file. -/
inductive FileOp where
  | writeAt (off : ℕ) (b : Bytes)
  | setLen (n : ℕ)
  deriving DecidableEq, Repr

/-- The contents after the call. -/
def FileOp.apply (c : Bytes) : FileOp → Bytes
  | .writeAt off b => c.splice off b
  | .setLen n => c.resize n

/-- `d` is left by a write that stopped part way, and `R` allows it. -/
def FileOp.Torn (R : Bytes → Bytes → Bytes → Prop) (c : Bytes) : FileOp → Bytes → Prop
  | .writeAt off b, d =>
      ∃ j < b.length, d = c.splice off (b.take j) ∧ R c (c.splice off b) d
  | .setLen _, _ => False

/-- A file: its contents at the last barrier, and the calls made since, oldest first. -/
structure DurableFile where
  durable : Bytes
  pending : List FileOp
  deriving DecidableEq, Repr

namespace DurableFile

/-- What a running process reads. -/
def contents (f : DurableFile) : Bytes := f.pending.foldl FileOp.apply f.durable

/-- One more call. -/
def push (f : DurableFile) (op : FileOp) : DurableFile :=
  { f with pending := f.pending ++ [op] }

/-- Everything written so far is made durable. -/
def barrier (f : DurableFile) : DurableFile := ⟨f.contents, []⟩

/-- A file whose whole contents are durable. -/
def ofBytes (b : Bytes) : DurableFile := ⟨b, []⟩

@[simp] lemma contents_push (f : DurableFile) (op : FileOp) :
    (f.push op).contents = op.apply f.contents := by
  simp [contents, push]

@[simp] lemma contents_barrier (f : DurableFile) : f.barrier.contents = f.contents := rfl

@[simp] lemma contents_ofBytes (b : Bytes) : (ofBytes b).contents = b := rfl

/-- The outcomes of a crash while the calls `ops` are still volatile over the contents `c`. -/
def CrashFrom (R : Bytes → Bytes → Bytes → Prop) (c : Bytes) : List FileOp → Bytes → Prop
  | [], d => d = c
  | op :: ops, d => d = c ∨ op.Torn R c d ∨ CrashFrom R (op.apply c) ops d

/-- `d` is what a crash may leave of `f`. -/
def Crash (R : Bytes → Bytes → Bytes → Prop) (f : DurableFile) (d : Bytes) : Prop :=
  CrashFrom R f.durable f.pending d

section

variable {R : Bytes → Bytes → Bytes → Prop}

lemma crashFrom_append : ∀ (ops : List FileOp) (op : FileOp) (c d : Bytes),
    CrashFrom R c (ops ++ [op]) d ↔
      CrashFrom R c ops d ∨ op.Torn R (ops.foldl FileOp.apply c) d
        ∨ d = op.apply (ops.foldl FileOp.apply c)
  | [], op, c, d => by simp [CrashFrom]
  | o :: ops, op, c, d => by
      simp only [List.cons_append, CrashFrom, List.foldl_cons,
        crashFrom_append ops op (o.apply c) d]
      tauto

/-- A crash may lose nothing. -/
lemma crash_contents (f : DurableFile) : Crash R f f.contents := by
  obtain ⟨c, ops⟩ := f
  induction ops using List.reverseRecOn with
  | nil => rfl
  | append_singleton ops op _ =>
      rw [Crash, crashFrom_append]
      exact Or.inr (Or.inr (by simp [contents]))

/-- **One more call adds the outcomes of that call**: it is lost, cut short, or kept. -/
lemma Crash.push {f : DurableFile} {op : FileOp} {d : Bytes} :
    Crash R (f.push op) d ↔
      Crash R f d ∨ op.Torn R f.contents d ∨ d = op.apply f.contents := by
  rw [Crash, DurableFile.push, crashFrom_append]
  rfl

/-- **A barrier leaves a single outcome.** -/
lemma Crash.barrier {f : DurableFile} {d : Bytes} :
    Crash R f.barrier d ↔ d = f.contents := Iff.rfl

lemma Crash.ofBytes {b d : Bytes} : Crash R (ofBytes b) d ↔ d = b := Iff.rfl

end

end DurableFile
