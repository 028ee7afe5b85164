import Sekejap.PageWal.Inspect

/-!
# Row identities

A row is addressed by its collection and a sequence number, and numbers are handed out by
`Database::allocate` (`core/engine/src/collections/mod.rs`).  The next number lives in four places:
the open `Sequence`, the blocks this transaction left mid-way (`row_id_pending`), the blocks as of
the last commit (`row_id_blocks`), and `NEXT` in the file.  A Register file reserves numbers in
blocks of 1024, so that `NEXT` is written once per block; a 0.18 file writes it in every flush.

The store below is what the pager of `Sekejap.PageWal` gives: a working tree, and the durable one
that a rollback and a reopen go back to.  A commit that returns an error may still have become
durable.

* **`allocate_fresh_reachable`** — no number is handed out while its row is present, and the `NEXT`
  of a committed state is above every row of it, in every run without the one step that breaks it:
  a rollback, on a Register file, after a commit that failed and became durable and had handed out
  numbers in a collection whose block the handle holds.
* **`allocate_reuses`** — after that step a number is handed out twice.
-/

open PageWal (u64Max)

namespace Collections

/-- `ROW_ID_BLOCK` -/
def rowIdBlock : ℕ := 1024

inductive Error where
  | invalid (why : String)
  | corrupt (why : String)
  | failed
  deriving DecidableEq, Repr

structure EntityId where
  collection : ℕ
  sequence : ℕ
  deriving DecidableEq, Repr

/-- `u64::checked_add`, or the error `allocate` gives for it. -/
def checkedAdd (a b : ℕ) : Except Error ℕ :=
  if a + b ≤ u64Max then .ok (a + b) else .error (.invalid "entity sequence exhausted")

/-- What the trees of a database hold of the rows: the stored `NEXT` of every collection and the
record of every row, here its external key. -/
structure Contents where
  nextCollection : ℕ
  next : ℕ → Option ℕ
  rows : EntityId → Option String

/-- The row numbers of one collection that are being handed out, one collection at a time. -/
structure Sequence where
  collection : ℕ
  next : ℕ
  /-- on a Register file, the bound written to `NEXT` -/
  reserved : ℕ
  /-- this transaction raised it -/
  dirty : Bool
  deriving DecidableEq, Repr

/-- A handle, as far as row numbers go. -/
structure Database where
  /-- `supportive.is_some()`: a Register file, not one of the 0.18 format -/
  register : Bool
  failed : Bool
  sequence : Option Sequence
  rowIdBlocks : ℕ → Option (ℕ × ℕ)
  rowIdPending : ℕ → Option (ℕ × ℕ)
  /-- the working tree -/
  store : Contents
  /-- what a rollback or a reopen finds -/
  durable : Contents
  /-- history: the collections whose numbers a commit handed out that failed and became durable -/
  uncertain : ℕ → Bool

namespace Database

/-- The `NEXT` of a collection, in either format. -/
def readSequence (db : Database) (c : ℕ) : Except Error ℕ :=
  let missing :=
    .corrupt (if db.register then "row sequence NEXT" else "all metadata copies missing or damaged")
  match db.store.next c with
  | some n => if n = 0 then .error missing else .ok n
  | none => .error missing

def writeSequence (db : Database) (c next : ℕ) : Database :=
  { db with store := { db.store with next := Function.update db.store.next c (some next) } }

def flushSequence (db : Database) : Database :=
  match db.sequence with
  | none => db
  | some s =>
      let db := { db with sequence := none }
      if !db.register then db.writeSequence s.collection s.next
      else
        let db := if s.dirty then db.writeSequence s.collection s.reserved else db
        { db with
          rowIdPending := Function.update db.rowIdPending s.collection (some (s.next, s.reserved)) }

/-- The block of a collection this handle holds. -/
def block (db : Database) (c : ℕ) : Option (ℕ × ℕ) := (db.rowIdPending c).or (db.rowIdBlocks c)

/-- The sequence of `c` is the open one. -/
def openSequence (db : Database) (c : ℕ) : Except Error (Sequence × Database) :=
  match db.sequence with
  | some s => if s.collection = c then .ok (s, db) else reopen
  | none => reopen
where
  reopen : Except Error (Sequence × Database) := do
    let db := db.flushSequence
    let (next, reserved) ←
      match db.block c with
      | some b => pure b
      | none => do
          let next ← db.readSequence c
          pure (next, next)
    pure (⟨c, next, reserved, false⟩, db)

/-- A Register file reserves the next block when the last is used up. -/
def reserve (register : Bool) (s : Sequence) : Except Error Sequence :=
  if register ∧ s.next ≥ s.reserved then do
    let reserved ← checkedAdd s.next rowIdBlock
    pure { s with reserved, dirty := true }
  else pure s

def allocate (db : Database) (c : ℕ) : Except Error (EntityId × Database) := do
  let (s, db) ← db.openSequence c
  let s ← reserve db.register s
  let next ← checkedAdd s.next 1
  pure (⟨c, s.next⟩, { db with sequence := some { s with next } })

/-- A new row: `write_entity` without an old one. -/
def insert (db : Database) (c : ℕ) (key : String) : Except Error (EntityId × Database) := do
  if db.failed then throw .failed
  let (id, db) ← db.allocate c
  pure (id, { db with store := { db.store with rows := Function.update db.store.rows id (some key) } })

def delete (db : Database) (id : EntityId) : Database :=
  { db with store := { db.store with rows := Function.update db.store.rows id none } }

/-- A collection is created, with its row sequence at 1. -/
def createCollection (db : Database) : Database :=
  { db with store := { db.store with
      nextCollection := db.store.nextCollection + 1
      next := Function.update db.store.next db.store.nextCollection (some 1) } }

/-- A commit that returns. -/
def commit (db : Database) : Database :=
  let db := db.flushSequence
  { db with
    durable := db.store
    rowIdBlocks := db.block
    rowIdPending := fun _ => none }

/-- A commit that fails after it became durable. -/
def commitUncertain (db : Database) : Database :=
  let db := db.flushSequence
  { db with
    failed := true
    durable := db.store
    uncertain := fun c => (db.rowIdPending c).isSome }

/-- The handle's own state is forgotten, the blocks of the last commit excepted. -/
def rollback (db : Database) : Database :=
  { db with
    failed := false
    sequence := none
    rowIdPending := fun _ => none
    store := db.durable
    uncertain := fun _ => false }

/-- A new handle on the files. -/
def reopen (db : Database) : Database where
  register := db.register
  failed := false
  sequence := none
  rowIdBlocks := fun _ => none
  rowIdPending := fun _ => none
  store := db.durable
  durable := db.durable
  uncertain := fun _ => false

/-- A new database. -/
def create (register : Bool) : Database where
  register := register
  failed := false
  sequence := none
  rowIdBlocks := fun _ => none
  rowIdPending := fun _ => none
  store := ⟨1, fun _ => none, fun _ => none⟩
  durable := ⟨1, fun _ => none, fun _ => none⟩
  uncertain := fun _ => false

/-- A collection that was dropped hands out no more numbers. -/
def forget (db : Database) (c : ℕ) : Database :=
  { db with
    sequence := db.sequence.filter fun s => s.collection ≠ c
    rowIdBlocks := Function.update db.rowIdBlocks c none
    rowIdPending := Function.update db.rowIdPending c none
    store := { db.store with next := Function.update db.store.next c none } }

/-- One past the last number of a collection, as `collection_span` has it. -/
def collectionSpan (db : Database) (c : ℕ) : Except Error ℕ :=
  match db.sequence with
  | some s => if s.collection = c then .ok s.next else closed
  | none => closed
where
  closed : Except Error ℕ :=
    match db.block c with
    | some (next, _) => .ok next
    | none => db.readSequence c

end Database

open Database

/-! ## Runs -/

/-- What a caller does, and what came of it. -/
inductive Op where
  | createCollection
  | insert (c : ℕ) (key : String)
  | delete (id : EntityId)
  | commit
  /-- the commit failed, and became durable -/
  | commitUncertain
  /-- any of these failed and nothing became durable -/
  | fail
  | rollback
  | rollbackFails
  | reopen

/-- **One step of a run.**  A failed handle is only rolled back or reopened; what a failure left of
the handle's own state is arbitrary. -/
inductive Step : Database → Op → Database → Prop
  | createCollection {db : Database} (h : db.failed = false) :
      Step db .createCollection db.createCollection
  | insert {db db' : Database} {c : ℕ} {key : String} {id : EntityId}
      (h : db.insert c key = .ok (id, db')) : Step db (.insert c key) db'
  | delete {db : Database} {id : EntityId} (h : db.failed = false) :
      Step db (.delete id) (db.delete id)
  | commit {db : Database} (h : db.failed = false) : Step db .commit db.commit
  | commitUncertain {db : Database} (h : db.failed = false) :
      Step db .commitUncertain db.commitUncertain
  | fail {db : Database} (h : db.failed = false) (sequence : Option Sequence)
      (pending : ℕ → Option (ℕ × ℕ)) (store : Contents) :
      Step db .fail { db with failed := true, sequence, rowIdPending := pending, store }
  | rollback {db : Database} : Step db .rollback db.rollback
  | rollbackFails {db : Database} :
      Step db .rollbackFails
        { db with failed := true, sequence := none, rowIdPending := fun _ => none }
  | reopen {db : Database} : Step db .reopen db.reopen

/-- Every state of every run from a new database whose steps meet `P`. -/
inductive Reachable (P : Database → Op → Prop) : Database → Prop
  | create (register : Bool) : Reachable P (Database.create register)
  | step {db db' : Database} {op : Op} (h : Reachable P db) (hp : P db op) (hs : Step db op db') :
      Reachable P db'

/-- **The step that breaks it, left out**: a rollback does not keep a block the durable state has
gone past. -/
def Certain (db : Database) : Op → Prop
  | .rollback => ∀ c, db.uncertain c = true → db.rowIdBlocks c = none
  | _ => True

/-! ## The invariant -/

/-- The rows of `c` have numbers below `n`. -/
def Below (x : Contents) (c n : ℕ) : Prop := ∀ i k, x.rows ⟨c, i⟩ = some k → i < n

/-- The rows of `c` are below the stored `NEXT`. -/
def Kept (x : Contents) (c : ℕ) : Prop := ∀ i k, x.rows ⟨c, i⟩ = some k → ∃ n, x.next c = some n ∧ i < n

/-- A block that may be used on `x`: its numbers are free, and its bound is stored. -/
structure Held (x : Contents) (c : ℕ) (b : ℕ × ℕ) : Prop where
  le : b.1 ≤ b.2
  stored : x.next c = some b.2
  below : Below x c b.1

lemma Held.kept {x : Contents} {c : ℕ} {b : ℕ × ℕ} (h : Held x c b) : Kept x c := fun i k hk =>
  ⟨b.2, h.stored, lt_of_lt_of_le (h.below i k hk) h.le⟩

/-- An open sequence that may be used: its numbers are free, and on a Register file they are within
a bound that is stored or will be. -/
structure Opened (register : Bool) (x : Contents) (s : Sequence) : Prop where
  below : Below x s.collection s.next
  le : register = true → s.next ≤ s.reserved
  stored : register = true → s.dirty = false → x.next s.collection = some s.reserved

/-- No sequence of `c` is open. -/
def Shut (sequence : Option Sequence) (c : ℕ) : Prop := ∀ s, sequence = some s → s.collection ≠ c

/-- **The handle agrees with its working tree.** -/
structure Live (db : Database) : Prop where
  known : ∀ c, db.store.nextCollection ≤ c →
    db.store.next c = none ∧ db.block c = none ∧ Shut db.sequence c
  block : ∀ c b, Shut db.sequence c → db.block c = some b → Held db.store c b
  rest : ∀ c, Shut db.sequence c → db.block c = none → Kept db.store c
  opened : ∀ s, db.sequence = some s → Opened db.register db.store s
  legacy : db.register = false → ∀ c, db.rowIdPending c = none

/-- **The invariant of every run.** -/
structure Inv (db : Database) : Prop where
  durable : ∀ c, Kept db.durable c
  known : ∀ c, db.durable.nextCollection ≤ c → db.durable.next c = none ∧ db.rowIdBlocks c = none
  block : ∀ c b, db.rowIdBlocks c = some b → db.uncertain c = false → Held db.durable c b
  legacy : db.register = false → ∀ c, db.rowIdBlocks c = none
  certain : db.failed = false → ∀ c, db.uncertain c = false
  live : db.failed = false → Live db

section live

variable {db db' : Database} {c : ℕ} {s : Sequence} {id : EntityId}

lemma shut_none (c : ℕ) : Shut none c := fun _ h => by cases h

lemma flushSequence_none (hs : db.sequence = none) : db.flushSequence = db := by
  unfold Database.flushSequence; rw [hs]

lemma flushSequence_legacy (hs : db.sequence = some s) (hr : db.register = false) :
    db.flushSequence = { db with
      sequence := none
      store := { db.store with
        next := Function.update db.store.next s.collection (some s.next) } } := by
  unfold Database.flushSequence; rw [hs, hr]; rfl

lemma flushSequence_register (hs : db.sequence = some s) (hr : db.register = true) :
    db.flushSequence = { db with
      sequence := none
      rowIdPending := Function.update db.rowIdPending s.collection (some (s.next, s.reserved))
      store := { db.store with
        next := if s.dirty then Function.update db.store.next s.collection (some s.reserved)
          else db.store.next } } := by
  unfold Database.flushSequence; rw [hs, hr]
  obtain ⟨c, next, reserved, dirty⟩ := s
  cases dirty <;> rfl

lemma block_flushSequence (hs : db.sequence = some s) (hr : db.register = true) (d : ℕ) :
    db.flushSequence.block d
      = if d = s.collection then some (s.next, s.reserved) else db.block d := by
  rw [flushSequence_register hs hr]
  simp only [Database.block, Function.update_apply]
  split_ifs <;> rfl

lemma Live.shut (h : db.sequence = some s) (hc : c ≠ s.collection) : Shut db.sequence c := by
  intro t ht
  cases h.symm.trans ht
  exact hc.symm

lemma Live.lt (h : Live db) (hs : db.sequence = some s) : s.collection < db.store.nextCollection := by
  by_contra hge
  exact (h.known _ (not_lt.1 hge)).2.2 s hs rfl

/-- **The sequence is put away**: what it handed out is below the bound that is stored. -/
lemma Live.flushSequence (h : Live db) (hl : db.register = false → ∀ c, db.rowIdBlocks c = none) :
    Live db.flushSequence := by
  cases hs : db.sequence with
  | none => rw [flushSequence_none hs]; exact h
  | some s =>
      have ho := h.opened s hs
      have hlt := h.lt hs
      cases hr : db.register with
      | false =>
          rw [flushSequence_legacy hs hr]
          have hnone : ∀ c, db.block c = none := fun c => by
            rw [Database.block, h.legacy hr c, hl hr c]; rfl
          refine ⟨fun c hc => ⟨?_, hnone c, shut_none c⟩, fun c b _ hb => ?_, fun c _ _ => ?_,
            fun s h => (by cases h), fun _ => h.legacy hr⟩
          · exact (Function.update_of_ne (hlt.trans_le hc).ne' _ _).trans (h.known c hc).1
          · exact absurd ((hnone c).symm.trans hb) (by simp)
          · by_cases hc : c = s.collection
            · subst hc
              exact fun i k hk => ⟨s.next, Function.update_self .., ho.below i k hk⟩
            · intro i k hk
              obtain ⟨n, hn, hi⟩ := h.rest c (Live.shut hs hc) (hnone c) i k hk
              exact ⟨n, (Function.update_of_ne hc _ _).trans hn, hi⟩
      | true =>
          -- the bound is stored, whether or not this transaction raised it
          have hnext : ∀ c, (if s.dirty then
              Function.update db.store.next s.collection (some s.reserved) else db.store.next) c
              = if c = s.collection then some s.reserved else db.store.next c := by
            intro c
            cases hd : s.dirty with
            | true => exact Function.update_apply ..
            | false =>
                simp only [Bool.false_eq_true, if_false]
                split_ifs with hc
                · rw [hc]; exact ho.stored hr hd
                · rfl
          have hblock := block_flushSequence hs hr
          rw [flushSequence_register hs hr] at hblock ⊢
          refine ⟨fun c hc => ⟨?_, ?_, shut_none c⟩, fun c b _ hb => ?_, fun c _ hb => ?_,
            fun s h => (by cases h), fun hf => absurd (hr.symm.trans hf) (by decide)⟩
          · exact (hnext c).trans ((if_neg (hlt.trans_le hc).ne').trans (h.known c hc).1)
          · exact (hblock c).trans ((if_neg (hlt.trans_le hc).ne').trans (h.known c hc).2.1)
          · by_cases hc : c = s.collection
            · subst hc
              cases ((hblock _).trans (if_pos rfl)).symm.trans hb
              exact ⟨ho.le hr, (hnext _).trans (if_pos rfl), ho.below⟩
            · have hh := h.block c b (Live.shut hs hc) (((hblock c).trans (if_neg hc)).symm.trans hb)
              exact ⟨hh.le, (hnext c).trans ((if_neg hc).trans hh.stored), hh.below⟩
          · by_cases hc : c = s.collection
            · subst hc
              exact absurd (((hblock _).trans (if_pos rfl)).symm.trans hb) (by simp)
            · intro i k hk
              obtain ⟨n, hn, hi⟩ := h.rest c (Live.shut hs hc)
                (((hblock c).trans (if_neg hc)).symm.trans hb) i k hk
              exact ⟨n, (hnext c).trans ((if_neg hc).trans hn), hi⟩

lemma sequence_flushSequence (db : Database) : db.flushSequence.sequence = none := by
  cases hs : db.sequence with
  | none => rw [flushSequence_none hs, hs]
  | some s =>
      cases hr : db.register with
      | false => rw [flushSequence_legacy hs hr]
      | true => rw [flushSequence_register hs hr]

/-- Everything of a database that handing out numbers leaves alone. -/
structure Frame (db db' : Database) : Prop where
  register : db'.register = db.register
  failed : db'.failed = db.failed
  blocks : db'.rowIdBlocks = db.rowIdBlocks
  durable : db'.durable = db.durable
  uncertain : db'.uncertain = db.uncertain
  rows : db'.store.rows = db.store.rows
  nextCollection : db'.store.nextCollection = db.store.nextCollection

lemma Frame.refl (db : Database) : Frame db db := ⟨rfl, rfl, rfl, rfl, rfl, rfl, rfl⟩

lemma frame_flushSequence (db : Database) : Frame db db.flushSequence := by
  cases hs : db.sequence with
  | none => rw [flushSequence_none hs]; exact .refl db
  | some s =>
      cases hr : db.register with
      | false => rw [flushSequence_legacy hs hr]; exact ⟨rfl, rfl, rfl, rfl, rfl, rfl, rfl⟩
      | true => rw [flushSequence_register hs hr]; exact ⟨rfl, rfl, rfl, rfl, rfl, rfl, rfl⟩

lemma readSequence_ok {n : ℕ} (h : db.readSequence c = .ok n) : db.store.next c = some n := by
  rw [Database.readSequence] at h
  split at h
  · rename_i m hm
    split_ifs at h
    cases h
    exact hm
  · cases h

/-- A sequence may be opened where none is. -/
lemma Live.opening (h : Live db) (hs : db.sequence = none) (ho : Opened db.register db.store s)
    (hlt : s.collection < db.store.nextCollection) : Live { db with sequence := some s } := by
  have hshut : ∀ c, Shut (some s) c → Shut db.sequence c := fun c _ => by
    rw [hs]; exact shut_none c
  refine ⟨fun c hc => ⟨(h.known c hc).1, (h.known c hc).2.1, ?_⟩, fun c b hc => h.block c b (hshut c hc),
    fun c hc => h.rest c (hshut c hc), ?_, h.legacy⟩
  · intro t ht
    cases ht
    exact (hlt.trans_le hc).ne
  · intro t ht
    cases ht
    exact ho

/-- **The open sequence hands out free numbers.** -/
lemma Live.openSequence (h : Live db) (hl : db.register = false → ∀ c, db.rowIdBlocks c = none)
    (ho : db.openSequence c = .ok (s, db')) :
    s.collection = c ∧ Frame db db' ∧ Live { db' with sequence := some s } := by
  have hre : Database.openSequence.reopen db c = .ok (s, db') →
      s.collection = c ∧ Frame db db' ∧ Live { db' with sequence := some s } := by
    intro hre
    have hf := h.flushSequence hl
    have hnone := sequence_flushSequence db
    have hshut : Shut db.flushSequence.sequence c := by rw [hnone]; exact shut_none c
    have hlt : db.flushSequence.store.next c ≠ none → c < db.flushSequence.store.nextCollection := by
      intro hn
      by_contra hge
      exact hn (hf.known c (not_lt.1 hge)).1
    rw [Database.openSequence.reopen] at hre
    cases hb : db.flushSequence.block c with
    | some b =>
        simp only [hb] at hre
        cases hre
        have hh := hf.block c b hshut hb
        refine ⟨rfl, frame_flushSequence db, hf.opening hnone ⟨hh.below, fun _ => hh.le, fun _ _ =>
          hh.stored⟩ (hlt ?_)⟩
        rw [hh.stored]; simp
    | none =>
        simp only [hb] at hre
        cases hn : db.flushSequence.readSequence c with
        | error e => rw [hn] at hre; cases hre
        | ok n =>
            rw [hn] at hre
            cases hre
            have hstored := readSequence_ok hn
            refine ⟨rfl, frame_flushSequence db, hf.opening hnone ⟨fun i k hk => ?_, fun _ => le_rfl,
              fun _ _ => hstored⟩ (hlt ?_)⟩
            · obtain ⟨m, hm, hi⟩ := hf.rest c hshut hb i k hk
              cases hstored.symm.trans hm
              exact hi
            · rw [hstored]; simp
  rw [Database.openSequence] at ho
  split at ho
  · rename_i t ht
    split_ifs at ho with hc
    · cases ho
      refine ⟨hc, .refl db, ?_⟩
      rw [← ht]
      exact h
    · exact hre ho
  · exact hre ho

lemma checkedAdd_ok {a b n : ℕ} (h : checkedAdd a b = .ok n) : n = a + b := by
  rw [checkedAdd] at h
  split_ifs at h
  cases h
  rfl

/-- A block is reserved before it is used. -/
lemma Opened.reserve {register : Bool} {x : Contents} {s s' : Sequence} (ho : Opened register x s)
    (hr : Database.reserve register s = .ok s') :
    s'.collection = s.collection ∧ s'.next = s.next ∧ Opened register x s'
      ∧ (register = true → s'.next < s'.reserved) := by
  rw [Database.reserve] at hr
  split_ifs at hr with hc
  · cases hn : checkedAdd s.next rowIdBlock with
    | error e => rw [hn] at hr; cases hr
    | ok n =>
        rw [hn] at hr
        cases hr
        have hlt : s.next < n := by
          rw [checkedAdd_ok hn]
          exact Nat.lt_add_of_pos_right (by decide)
        exact ⟨rfl, rfl, ⟨ho.below, fun _ => hlt.le, fun _ hd => by cases hd⟩, fun _ => hlt⟩
  · cases hr
    refine ⟨rfl, rfl, ho, fun hreg => ?_⟩
    by_contra hge
    exact hc ⟨hreg, not_lt.1 hge⟩

/-- The open sequence may be replaced by another of its collection. -/
lemma Live.replace {t : Sequence} (h : Live { db with sequence := some s })
    (hc : t.collection = s.collection) (ho : Opened db.register db.store t) :
    Live { db with sequence := some t } := by
  have hshut : ∀ c, Shut (some t) c ↔ Shut (some s) c := by
    intro c
    constructor
    · rintro hs u ⟨⟩
      rw [← hc]; exact hs t rfl
    · rintro hs u ⟨⟩
      rw [hc]; exact hs s rfl
  refine ⟨fun c hk => ⟨(h.known c hk).1, (h.known c hk).2.1, (hshut c).2 (h.known c hk).2.2⟩,
    fun c b hs => h.block c b ((hshut c).1 hs), fun c hs => h.rest c ((hshut c).1 hs), ?_, h.legacy⟩
  rintro u ⟨⟩
  exact ho

/-- **What `allocate` returns**: the number the sequence was at. -/
lemma Live.allocate (h : Live db) (hl : db.register = false → ∀ c, db.rowIdBlocks c = none)
    (ha : db.allocate c = .ok (id, db')) :
    Frame db db' ∧ ∃ s, id = ⟨s.collection, s.next⟩ ∧ Live { db' with sequence := some s }
      ∧ db'.sequence = some { s with next := s.next + 1 }
      ∧ (db'.register = true → s.next < s.reserved) := by
  simp only [Database.allocate, bind, Except.bind, pure, Except.pure] at ha
  cases hop : db.openSequence c with
  | error e => simp [hop] at ha
  | ok r =>
      obtain ⟨s, db₁⟩ := r
      obtain ⟨rfl, hf, hlive⟩ := h.openSequence hl hop
      cases hres : Database.reserve db₁.register s with
      | error e => simp [hop, hres] at ha
      | ok s' =>
          obtain ⟨hcoll, -, ho, hlt⟩ := (hlive.opened s rfl).reserve hres
          cases hn : checkedAdd s'.next 1 with
          | error e => simp [hop, hres, hn] at ha
          | ok n =>
              simp only [hop, hres, hn, Except.ok.injEq, Prod.mk.injEq] at ha
              obtain ⟨rfl, rfl⟩ := ha
              obtain rfl := checkedAdd_ok hn
              exact ⟨⟨hf.register, hf.failed, hf.blocks, hf.durable, hf.uncertain, hf.rows,
                hf.nextCollection⟩, s', by rw [hcoll], hlive.replace hcoll ho, rfl, hlt⟩

lemma allocate_collection (ha : db.allocate c = .ok (id, db')) : id.collection = c := by
  simp only [Database.allocate, bind, Except.bind, pure, Except.pure] at ha
  split at ha
  · cases ha
  · split at ha
    · cases ha
    · split at ha
      · cases ha
      · cases ha
        rfl

/-- **The number is free.** -/
lemma Live.rows_eq_none (h : Live { db with sequence := some s }) :
    db.store.rows ⟨s.collection, s.next⟩ = none := by
  cases hrow : db.store.rows ⟨s.collection, s.next⟩ with
  | none => rfl
  | some k => exact absurd ((h.opened s rfl).below _ k hrow) (lt_irrefl _)

/-- The row is put, and the sequence goes on behind it. -/
lemma Live.put (h : Live { db with sequence := some s }) (hr : db.register = true → s.next < s.reserved)
    (key : String) :
    Live { db with
      sequence := some { s with next := s.next + 1 }
      store := { db.store with
        rows := Function.update db.store.rows ⟨s.collection, s.next⟩ (some key) } } := by
  have ho := h.opened s rfl
  have hshut : ∀ c, Shut (some { s with next := s.next + 1 }) c → c ≠ s.collection := fun c hc =>
    (hc _ rfl).symm
  have hold : ∀ c, c ≠ s.collection → Shut (some s) c := by
    rintro c hc t ⟨⟩
    exact hc.symm
  have hrows : ∀ c i, c ≠ s.collection →
      Function.update db.store.rows ⟨s.collection, s.next⟩ (some key) ⟨c, i⟩
        = db.store.rows ⟨c, i⟩ := by
    intro c i hc
    refine Function.update_of_ne (fun he => hc ?_) _ _
    exact congrArg EntityId.collection he
  refine ⟨fun c hk => ⟨(h.known c hk).1, (h.known c hk).2.1, ?_⟩, fun c b hc hb => ?_,
    fun c hc hb i k hk => ?_, ?_, h.legacy⟩
  · rintro t ⟨⟩
    exact (h.known c hk).2.2 s rfl
  · have hh := h.block c b (hold c (hshut c hc)) hb
    exact ⟨hh.le, hh.stored, fun i k hk => hh.below i k ((hrows c i (hshut c hc)).symm.trans hk)⟩
  · exact h.rest c (hold c (hshut c hc)) hb i k ((hrows c i (hshut c hc)).symm.trans hk)
  · rintro t ⟨⟩
    refine ⟨fun i k hk => ?_, fun hreg => hr hreg, ho.stored⟩
    show i < s.next + 1
    by_cases hi : i = s.next
    · omega
    · have hne : (⟨s.collection, i⟩ : EntityId) ≠ ⟨s.collection, s.next⟩ := fun he =>
        hi (congrArg EntityId.sequence he)
      exact Nat.lt_succ_of_lt (ho.below i k ((Function.update_of_ne hne _ _).symm.trans hk))

/-- A row is removed. -/
lemma Live.delete (h : Live db) (id : EntityId) : Live (db.delete id) := by
  have hrows : ∀ j k, Function.update db.store.rows id none j = some k → db.store.rows j = some k := by
    intro j k hk
    by_cases hj : j = id
    · subst hj
      rw [Function.update_self] at hk
      cases hk
    · rwa [Function.update_of_ne hj] at hk
  refine ⟨h.known, fun c b hc hb => ?_, fun c hc hb i k hk => h.rest c hc hb i k (hrows _ k hk),
    fun s hs => ?_, h.legacy⟩
  · have hh := h.block c b hc hb
    exact ⟨hh.le, hh.stored, fun i k hk => hh.below i k (hrows _ k hk)⟩
  · have ho := h.opened s hs
    exact ⟨fun i k hk => ho.below i k (hrows _ k hk), ho.le, ho.stored⟩

/-- A collection is created. -/
lemma Live.createCollection (h : Live db) : Live db.createCollection := by
  have hnew := h.known db.store.nextCollection le_rfl
  have hne : ∀ c, db.store.next c ≠ none → c ≠ db.store.nextCollection := fun c hc he =>
    hc (he ▸ hnew.1)
  have hnext : ∀ c n, db.store.next c = some n →
      Function.update db.store.next db.store.nextCollection (some 1) c = some n := by
    intro c n hn
    rw [Function.update_of_ne (hne c (by rw [hn]; simp))]
    exact hn
  refine ⟨fun c hc => ?_, fun c b hc hb => ?_, fun c hc hb i k hk => ?_, fun s hs => ?_, h.legacy⟩
  · have hc' : db.store.nextCollection + 1 ≤ c := hc
    have hk := h.known c (by omega)
    exact ⟨(Function.update_of_ne (by omega) _ _).trans hk.1, hk.2.1, hk.2.2⟩
  · have hh := h.block c b hc hb
    exact ⟨hh.le, hnext c _ hh.stored, hh.below⟩
  · obtain ⟨n, hn, hi⟩ := h.rest c hc hb i k hk
    exact ⟨n, hnext c n hn, hi⟩
  · have ho := h.opened s hs
    exact ⟨ho.below, ho.le, fun hr hd => hnext _ _ (ho.stored hr hd)⟩

/-- A collection without rows is forgotten. -/
lemma Live.forget (h : Live db) (hrows : ∀ i, db.store.rows ⟨c, i⟩ = none) : Live (db.forget c) := by
  have hseq : ∀ s, (db.forget c).sequence = some s → db.sequence = some s ∧ s.collection ≠ c := by
    intro s hs
    have := Option.filter_eq_some_iff.1 hs
    exact ⟨this.1, by simpa using this.2⟩
  have hshut : ∀ d, d ≠ c → Shut (db.forget c).sequence d → Shut db.sequence d := by
    intro d hd hs s hsome hsd
    refine hs s (Option.filter_eq_some_iff.2 ⟨hsome, ?_⟩) hsd
    simpa [hsd] using hd
  have hblock : ∀ d, d ≠ c → (db.forget c).block d = db.block d := by
    intro d hd
    simp only [Database.block, Database.forget, Function.update_of_ne hd]
  have hblockc : (db.forget c).block c = none := by
    simp only [Database.block, Database.forget, Function.update_self]
    rfl
  have hnext : ∀ d, d ≠ c → (db.forget c).store.next d = db.store.next d := fun d hd =>
    Function.update_of_ne hd _ _
  refine ⟨fun d hd => ?_, fun d b hs hb => ?_, fun d hs hb i k hk => ?_, fun s hs => ?_, ?_⟩
  · by_cases hc : d = c
    · subst hc
      exact ⟨Function.update_self .., hblockc, fun s hs => (hseq s hs).2⟩
    · have hk := h.known d hd
      exact ⟨(hnext d hc).trans hk.1, (hblock d hc).trans hk.2.1, fun s hs => hk.2.2 s (hseq s hs).1⟩
  · by_cases hc : d = c
    · subst hc
      rw [hblockc] at hb
      cases hb
    · have hh := h.block d b (hshut d hc hs) ((hblock d hc).symm.trans hb)
      exact ⟨hh.le, (hnext d hc).trans hh.stored, hh.below⟩
  · by_cases hc : d = c
    · subst hc
      exact absurd ((hrows i).symm.trans hk) (by simp)
    · obtain ⟨n, hn, hi⟩ := h.rest d (hshut d hc hs) ((hblock d hc).symm.trans hb) i k hk
      exact ⟨n, (hnext d hc).trans hn, hi⟩
  · obtain ⟨hs, hne⟩ := hseq s hs
    have ho := h.opened s hs
    exact ⟨ho.below, ho.le, fun hr hd => (hnext _ hne).trans (ho.stored hr hd)⟩
  · intro hr d
    simp only [Database.forget, Function.update_apply]
    split_ifs
    · rfl
    · exact h.legacy hr d

end live

/-! ## Every run -/

section runs

variable {db db' : Database} {op : Op}

/-- A collection's rows are below what is stored, once nothing is open. -/
lemma Live.kept (h : Live db) (hs : db.sequence = none) (c : ℕ) : Kept db.store c := by
  have hshut : Shut db.sequence c := by rw [hs]; exact shut_none c
  cases hb : db.block c with
  | none => exact h.rest c hshut hb
  | some b => exact (h.block c b hshut hb).kept

/-- The handle a rollback or a reopen leaves. -/
lemma live_durable (hi : Inv db) (blocks : ℕ → Option (ℕ × ℕ))
    (hb : ∀ c b, blocks c = some b → Held db.durable c b)
    (hk : ∀ c, db.durable.nextCollection ≤ c → blocks c = none) :
    Live { db with
      failed := false, sequence := none, rowIdBlocks := blocks, rowIdPending := fun _ => none
      store := db.durable, uncertain := fun _ => false } :=
  ⟨fun c hc => ⟨(hi.known c hc).1, hk c hc, shut_none c⟩, fun c b _ h => hb c b h,
    fun c _ _ => hi.durable c, fun s h => (by cases h), fun _ _ => rfl⟩

lemma inv_create (register : Bool) : Inv (Database.create register) := by
  refine ⟨fun c i k hk => (by cases hk), fun c _ => ⟨rfl, rfl⟩, fun c b hb => (by cases hb),
    fun _ _ => rfl, fun _ _ => rfl, fun _ => ?_⟩
  exact ⟨fun c _ => ⟨rfl, rfl, shut_none c⟩, fun c b _ hb => (by cases hb),
    fun c _ _ i k hk => (by cases hk), fun s hs => (by cases hs), fun _ _ => rfl⟩

/-- Numbers are handed out and rows are put. -/
lemma Inv.frame (h : Inv db) (hf : db.failed = false)
    (hr : db'.register = db.register) (hb : db'.rowIdBlocks = db.rowIdBlocks)
    (hd : db'.durable = db.durable) (hu : db'.uncertain = db.uncertain) (hl : Live db') : Inv db' :=
  ⟨by rw [hd]; exact h.durable, by rw [hd, hb]; exact h.known, by rw [hd, hb, hu]; exact h.block,
    by rw [hr, hb]; exact h.legacy, fun _ => by rw [hu]; exact h.certain hf, fun _ => hl⟩

/-- An insert that returned took a number and put its row. -/
lemma insert_ok {c : ℕ} {key : String} {id : EntityId} (h : db.insert c key = .ok (id, db')) :
    db.failed = false ∧ ∃ db₁, db.allocate c = .ok (id, db₁)
      ∧ { db₁ with store := { db₁.store with
          rows := Function.update db₁.store.rows id (some key) } } = db' := by
  simp only [Database.insert, bind, Except.bind, pure, Except.pure] at h
  cases hf : db.failed with
  | true => simp [hf, throw, throwThe, MonadExceptOf.throw] at h
  | false =>
      cases ha : db.allocate c with
      | error e => simp [hf, ha] at h
      | ok r =>
          simp only [hf, ha, Bool.false_eq_true, if_false, Except.ok.injEq, Prod.mk.injEq] at h
          obtain ⟨rfl, rfl⟩ := h
          exact ⟨rfl, r.2, rfl, rfl⟩

/-- **Every step keeps the invariant**, but for the rollback that keeps a block it must not. -/
lemma Step.inv (h : Inv db) (hp : Certain db op) (hs : Step db op db') : Inv db' := by
  cases hs with
  | createCollection hf =>
      exact h.frame hf rfl rfl rfl rfl (h.live hf).createCollection
  | @insert _ c key id hins =>
      obtain ⟨hf, db₁, ha, rfl⟩ := insert_ok hins
      obtain ⟨hfr, s, rfl, hl, hseq, hlt⟩ := (h.live hf).allocate h.legacy ha
      have hput := hl.put hlt key
      rw [← hseq] at hput
      exact h.frame hf hfr.register hfr.blocks hfr.durable hfr.uncertain hput
  | @delete id hf => exact h.frame hf rfl rfl rfl rfl ((h.live hf).delete id)
  | commit hf =>
      have hfl := (h.live hf).flushSequence h.legacy
      have hnone := sequence_flushSequence db
      have hfr := frame_flushSequence db
      have hshut : ∀ c, Shut db.flushSequence.sequence c := fun c => by rw [hnone]; exact shut_none c
      refine ⟨hfl.kept hnone, fun c hc => ⟨(hfl.known c hc).1, (hfl.known c hc).2.1⟩,
        fun c b hb _ => hfl.block c b (hshut c) hb, ?_, ?_, fun _ => ?_⟩
      · intro hr c
        have hr' : db.register = false := hfr.register.symm.trans hr
        show (db.flushSequence.rowIdPending c).or (db.flushSequence.rowIdBlocks c) = none
        rw [hfl.legacy hr c, hfr.blocks, h.legacy hr' c]; rfl
      · intro _ c
        show db.flushSequence.uncertain c = false
        rw [hfr.uncertain]; exact h.certain hf c
      · exact ⟨hfl.known, hfl.block, hfl.rest, hfl.opened, fun _ _ => rfl⟩
  | commitUncertain hf =>
      have hfl := (h.live hf).flushSequence h.legacy
      have hnone := sequence_flushSequence db
      have hfr := frame_flushSequence db
      have hshut : ∀ c, Shut db.flushSequence.sequence c := fun c => by rw [hnone]; exact shut_none c
      have hblock : ∀ c, db.flushSequence.rowIdPending c = none →
          db.flushSequence.block c = db.flushSequence.rowIdBlocks c := fun c hc => by
        rw [Database.block, hc]; rfl
      refine ⟨hfl.kept hnone, fun c hc => ⟨(hfl.known c hc).1, ?_⟩, fun c b hb hu => ?_, ?_,
        fun hff => (by cases hff), fun hff => by cases hff⟩
      · exact (Option.or_eq_none_iff.1 (hfl.known c hc).2.1).2
      · have hp : db.flushSequence.rowIdPending c = none := Option.isSome_eq_false_iff.1 hu |>
          Option.isNone_iff_eq_none.1
        exact hfl.block c b (hshut c) ((hblock c hp).trans hb)
      · intro hr c
        show db.flushSequence.rowIdBlocks c = none
        rw [hfr.blocks]
        exact h.legacy (hfr.register.symm.trans hr) c
  | fail hf sequence pending store =>
      exact ⟨h.durable, h.known, h.block, h.legacy, fun hff => (by cases hff),
        fun hff => by cases hff⟩
  | rollback =>
      have hheld : ∀ c b, db.rowIdBlocks c = some b → Held db.durable c b := by
        intro c b hb
        cases hu : db.uncertain c with
        | false => exact h.block c b hb hu
        | true => exact absurd (hb.symm.trans (hp c hu)) (by simp)
      exact ⟨h.durable, h.known, fun c b hb _ => hheld c b hb, h.legacy, fun _ _ => rfl,
        fun _ => live_durable h db.rowIdBlocks hheld fun c hc => (h.known c hc).2⟩
  | rollbackFails =>
      exact ⟨h.durable, h.known, h.block, h.legacy, fun hff => (by cases hff),
        fun hff => by cases hff⟩
  | reopen =>
      exact ⟨h.durable, fun c hc => ⟨(h.known c hc).1, rfl⟩, fun c b hb => (by cases hb),
        fun _ _ => rfl, fun _ _ => rfl, fun _ => live_durable h (fun _ => none)
          (fun c b hb => by cases hb) fun _ _ => rfl⟩

lemma Reachable.inv (h : Reachable Certain db) : Inv db := by
  induction h with
  | create register => exact inv_create register
  | step _ hp hs ih => exact hs.inv ih hp

lemma Inv.forget (h : Inv db) (hf : db.failed = false) {c : ℕ}
    (hrows : ∀ i, db.store.rows ⟨c, i⟩ = none) : Inv (db.forget c) := by
  have hblocks : ∀ d b, (db.forget c).rowIdBlocks d = some b → db.rowIdBlocks d = some b := by
    intro d b hb
    simp only [Database.forget, Function.update_apply] at hb
    split_ifs at hb
    exact hb
  refine ⟨h.durable, fun d hd => ⟨(h.known d hd).1, ?_⟩, fun d b hb hu => h.block d b (hblocks d b hb) hu,
    fun hr d => ?_, h.certain, fun _ => (h.live hf).forget hrows⟩
  · simp only [Database.forget, Function.update_apply, (h.known d hd).2, ite_self]
  · simp only [Database.forget, Function.update_apply, h.legacy hr d, ite_self]

/-- A failure leaves at most the blocks of the last commit. -/
lemma Inv.failed (h : Inv db) (hf : db'.failed = true) (hr : db'.register = db.register)
    (hd : db'.durable = db.durable) (hu : db'.uncertain = db.uncertain)
    (hb : ∀ c, db'.rowIdBlocks c = none ∨ db'.rowIdBlocks c = db.rowIdBlocks c) : Inv db' := by
  have hnone : ∀ c, db.rowIdBlocks c = none → db'.rowIdBlocks c = none := fun c hc =>
    (hb c).elim id fun h => h.trans hc
  refine ⟨by rw [hd]; exact h.durable, fun c hc => ?_, fun c b hbb huc => ?_, fun hreg c => ?_,
    fun hff => ?_, fun hff => ?_⟩
  · rw [hd] at hc ⊢
    exact ⟨(h.known c hc).1, hnone c (h.known c hc).2⟩
  · rw [hd]
    rw [hu] at huc
    rcases hb c with hc | hc
    · rw [hc] at hbb
      cases hbb
    · exact h.block c b (hc.symm.trans hbb) huc
  · exact hnone c (h.legacy (hr.symm.trans hreg) c)
  · rw [hf] at hff
    cases hff
  · rw [hf] at hff
    cases hff

/-! ## Numbers start at 1 and end below the last `u64` -/

/-- A number a row may have. -/
def Valid (n : ℕ) : Prop := 0 < n ∧ n < u64Max

/-- Every number that is held or in use is one a row may have, but the last. -/
structure Numbered (db : Database) : Prop where
  blocks : ∀ c b, db.rowIdBlocks c = some b → 0 < b.1
  durable : ∀ id k, db.durable.rows id = some k → Valid id.sequence
  sequence : db.failed = false → ∀ s, db.sequence = some s → 0 < s.next
  pending : db.failed = false → ∀ c b, db.rowIdPending c = some b → 0 < b.1
  rows : db.failed = false → ∀ id k, db.store.rows id = some k → Valid id.sequence

lemma numbered_create (register : Bool) : Numbered (Database.create register) := by
  refine ⟨fun c b h => ?_, fun id k h => ?_, fun _ s h => ?_, fun _ c b h => ?_, fun _ id k h => ?_⟩ <;>
    cases h

lemma Numbered.block (h : Numbered db) (hf : db.failed = false) {c : ℕ} {b : ℕ × ℕ}
    (hb : db.block c = some b) : 0 < b.1 := by
  rw [Database.block, Option.or_eq_some_iff] at hb
  rcases hb with hb | ⟨-, hb⟩
  · exact h.pending hf c b hb
  · exact h.blocks c b hb

lemma Numbered.flushSequence (h : Numbered db) : Numbered db.flushSequence := by
  cases hs : db.sequence with
  | none => rw [flushSequence_none hs]; exact h
  | some s =>
      cases hr : db.register with
      | false =>
          rw [flushSequence_legacy hs hr]
          exact ⟨h.blocks, h.durable, fun _ t ht => (by cases ht), h.pending, h.rows⟩
      | true =>
          rw [flushSequence_register hs hr]
          refine ⟨h.blocks, h.durable, fun _ t ht => (by cases ht), fun hf c b hb => ?_, h.rows⟩
          simp only [Function.update_apply] at hb
          split_ifs at hb with hc
          · cases hb
            exact h.sequence hf s hs
          · exact h.pending hf c b hb

/-- The open sequence is at a number a row may have. -/
lemma Numbered.openSequence (h : Numbered db) (hf : db.failed = false) {c : ℕ} {s : Sequence}
    (ho : db.openSequence c = .ok (s, db')) : 0 < s.next ∧ Numbered db' ∧ db'.failed = false := by
  have hre : Database.openSequence.reopen db c = .ok (s, db') →
      0 < s.next ∧ Numbered db' ∧ db'.failed = false := by
    intro hre
    have hfl := h.flushSequence
    have hff : db.flushSequence.failed = false := (frame_flushSequence db).failed.trans hf
    rw [Database.openSequence.reopen] at hre
    cases hb : db.flushSequence.block c with
    | some b =>
        simp only [hb] at hre
        cases hre
        exact ⟨hfl.block hff hb, hfl, hff⟩
    | none =>
        simp only [hb] at hre
        cases hn : db.flushSequence.readSequence c with
        | error e => rw [hn] at hre; cases hre
        | ok n =>
            rw [hn] at hre
            cases hre
            refine ⟨Nat.pos_of_ne_zero ?_, hfl, hff⟩
            rintro rfl
            rw [Database.readSequence] at hn
            split at hn
            · split_ifs at hn with h0
              cases hn
              exact h0 rfl
            · cases hn
  rw [Database.openSequence] at ho
  split at ho
  · rename_i t ht
    split_ifs at ho with hc
    · cases ho
      exact ⟨h.sequence hf _ ht, h, hf⟩
    · exact hre ho
  · exact hre ho

lemma reserve_next {register : Bool} {s s' : Sequence} (hr : Database.reserve register s = .ok s') :
    s'.next = s.next := by
  rw [Database.reserve] at hr
  split_ifs at hr with hc
  · cases hn : checkedAdd s.next rowIdBlock with
    | error e => rw [hn] at hr; cases hr
    | ok n => rw [hn] at hr; cases hr; rfl
  · cases hr; rfl

lemma checkedAdd_le {a b n : ℕ} (h : checkedAdd a b = .ok n) : a + b ≤ u64Max := by
  rw [checkedAdd] at h
  split_ifs at h with hle
  exact hle

lemma Numbered.allocate (h : Numbered db) (hf : db.failed = false) {c : ℕ} {id : EntityId}
    (ha : db.allocate c = .ok (id, db')) :
    Valid id.sequence ∧ Numbered db' ∧ db'.failed = false := by
  simp only [Database.allocate, bind, Except.bind, pure, Except.pure] at ha
  cases hop : db.openSequence c with
  | error e => simp [hop] at ha
  | ok r =>
      obtain ⟨s, db₁⟩ := r
      obtain ⟨hpos, hnum, hf₁⟩ := h.openSequence hf hop
      cases hres : Database.reserve db₁.register s with
      | error e => simp [hop, hres] at ha
      | ok s' =>
          have hnext := reserve_next hres
          cases hn : checkedAdd s'.next 1 with
          | error e => simp [hop, hres, hn] at ha
          | ok n =>
              simp only [hop, hres, hn, Except.ok.injEq, Prod.mk.injEq] at ha
              obtain ⟨rfl, rfl⟩ := ha
              have hle := checkedAdd_le hn
              obtain rfl := checkedAdd_ok hn
              refine ⟨⟨hnext ▸ hpos, hle⟩, ⟨hnum.blocks, hnum.durable, ?_, hnum.pending, hnum.rows⟩,
                hf₁⟩
              rintro - t ⟨⟩
              exact Nat.succ_pos _

lemma Step.numbered (h : Numbered db) (hs : Step db op db') : Numbered db' := by
  cases hs with
  | createCollection hf => exact ⟨h.blocks, h.durable, h.sequence, h.pending, h.rows⟩
  | @insert _ c key id hins =>
      obtain ⟨hf, db₁, ha, rfl⟩ := insert_ok hins
      obtain ⟨hvalid, hn, hf₁⟩ := h.allocate hf ha
      refine ⟨hn.blocks, hn.durable, hn.sequence, hn.pending, fun _ j k hk => ?_⟩
      simp only [Function.update_apply] at hk
      split_ifs at hk with hj
      · rw [hj]; exact hvalid
      · exact hn.rows hf₁ j k hk
  | @delete id hf =>
      refine ⟨h.blocks, h.durable, h.sequence, h.pending, fun _ j k hk => ?_⟩
      simp only [Database.delete, Function.update_apply] at hk
      split_ifs at hk
      exact h.rows hf j k hk
  | commit hf =>
      have hfl := h.flushSequence
      have hff : db.flushSequence.failed = false := (frame_flushSequence db).failed.trans hf
      exact ⟨fun c b hb => hfl.block hff hb, hfl.rows hff, fun _ => hfl.sequence hff,
        fun _ c b hb => (by cases hb), fun _ => hfl.rows hff⟩
  | commitUncertain hf =>
      have hfl := h.flushSequence
      have hff : db.flushSequence.failed = false := (frame_flushSequence db).failed.trans hf
      exact ⟨hfl.blocks, hfl.rows hff, fun hf' => (by cases hf'), fun hf' => (by cases hf'),
        fun hf' => by cases hf'⟩
  | fail hf sequence pending store =>
      exact ⟨h.blocks, h.durable, fun hf' => (by cases hf'), fun hf' => (by cases hf'),
        fun hf' => by cases hf'⟩
  | rollback =>
      exact ⟨h.blocks, h.durable, fun _ s hs => (by cases hs), fun _ c b hb => (by cases hb),
        fun _ => h.durable⟩
  | rollbackFails =>
      exact ⟨h.blocks, h.durable, fun hf' => (by cases hf'), fun hf' => (by cases hf'),
        fun hf' => by cases hf'⟩
  | reopen =>
      exact ⟨fun c b hb => (by cases hb), h.durable, fun _ s hs => (by cases hs),
        fun _ c b hb => (by cases hb), fun _ => h.durable⟩

lemma Numbered.forget (h : Numbered db) (c : ℕ) : Numbered (db.forget c) := by
  refine ⟨fun d b hb => ?_, h.durable, fun hf s hs => ?_, fun hf d b hb => ?_, h.rows⟩
  · simp only [Database.forget, Function.update_apply] at hb
    split_ifs at hb
    exact h.blocks d b hb
  · exact h.sequence hf s (Option.filter_eq_some_iff.1 hs).1
  · simp only [Database.forget, Function.update_apply] at hb
    split_ifs at hb
    exact h.pending hf d b hb

lemma Numbered.failed (h : Numbered db) (hf : db'.failed = true) (hd : db'.durable = db.durable)
    (hb : ∀ c, db'.rowIdBlocks c = none ∨ db'.rowIdBlocks c = db.rowIdBlocks c) : Numbered db' := by
  refine ⟨fun c b hbb => ?_, by rw [hd]; exact h.durable, fun hff => ?_, fun hff => ?_, fun hff => ?_⟩
  · rcases hb c with hc | hc
    · rw [hc] at hbb
      cases hbb
    · exact h.blocks c b (hc.symm.trans hbb)
  all_goals
    rw [hf] at hff
    cases hff

lemma Inv.fresh (hi : Inv db) (hf : db.failed = false) {c : ℕ} {id : EntityId}
    (ha : db.allocate c = .ok (id, db')) : db.store.rows id = none := by
  obtain ⟨hfr, s, rfl, hl, -, -⟩ := (hi.live hf).allocate hi.legacy ha
  rw [← hfr.rows]
  exact hl.rows_eq_none

/-- **No identity is handed out while it is in use**, in every run without a rollback that keeps a block of row
numbers the durable state has gone past.  `Inv` carries it: wherever the next number is taken from, the open
sequence, a block or the stored record, it lies above every row of the tree that it is taken for. -/
theorem allocate_fresh_reachable (h : Reachable Certain db) :
    (db.failed = false → ∀ c id db', db.allocate c = .ok (id, db') → db.store.rows id = none)
      ∧ ∀ id k, db.durable.rows id = some k →
        ∃ n, db.durable.next id.collection = some n ∧ id.sequence < n := by
  have hi := h.inv
  exact ⟨fun hf c id db' ha => hi.fresh hf ha,
    fun id k hk => hi.durable id.collection id.sequence k hk⟩

/-- The database after an insert that returned. -/
def inserted (db : Database) (c : ℕ) (key : String) : Database :=
  match db.insert c key with
  | .ok (_, db') => db'
  | .error _ => db

lemma Reachable.inserted {P : Database → Op → Prop} {c : ℕ} {key : String} (h : Reachable P db)
    (hp : P db (.insert c key)) : Reachable P (Collections.inserted db c key) := by
  rw [Collections.inserted]
  split
  · rename_i hins
    exact .step h hp (.insert hins)
  · exact h

/-- A Register file with one collection, number 1, and one committed row. -/
def oneRow : Database := (inserted (Database.create true).createCollection 1 "a").commit

lemma oneRow_reachable {P : Database → Op → Prop} (hP : ∀ db op, op ≠ .rollback → P db op) :
    Reachable P oneRow := by
  have h₁ : Reachable P (Database.create true).createCollection :=
    .step (.create true) (hP _ _ (by simp)) (.createCollection rfl)
  exact .step (h₁.inserted (hP _ _ (by simp))) (hP _ .commit (by simp)) (.commit rfl)

/-- The row just committed is there, and the next number is another. -/
theorem allocate_fresh_oneRow :
    oneRow.durable.rows ⟨1, 1⟩ = some "a"
      ∧ (∃ db', oneRow.allocate 1 = .ok (⟨1, 2⟩, db')) ∧ oneRow.store.rows ⟨1, 2⟩ = none
      ∧ ∃ n, oneRow.durable.next 1 = some n ∧ 1 < n := by
  have hP : ∀ db op, op ≠ .rollback → Certain db op := by
    intro db op hop
    cases op with
    | rollback => exact absurd rfl hop
    | _ => trivial
  have h := allocate_fresh_reachable (oneRow_reachable hP)
  exact ⟨rfl, ⟨_, rfl⟩, h.1 rfl 1 ⟨1, 2⟩ _ rfl, h.2 ⟨1, 1⟩ "a" rfl⟩

/-- The same handle after a second row, whose commit failed and became durable, and a rollback. -/
def rolledBack : Database := (inserted oneRow 1 "b").commitUncertain.rollback

/-- **An identity is handed out twice.**  The rollback has re-read the row of `"b"`, and the block
of the handle is still the one from before it. -/
theorem allocate_reuses :
    Reachable (fun _ _ => True) rolledBack ∧ rolledBack.failed = false
      ∧ rolledBack.store.rows ⟨1, 2⟩ = some "b" ∧ rolledBack.durable.rows ⟨1, 2⟩ = some "b"
      ∧ ∃ db', rolledBack.allocate 1 = .ok (⟨1, 2⟩, db') := by
  have h₀ : Reachable (fun _ _ => True) oneRow := oneRow_reachable fun _ _ _ => trivial
  have h₁ : Reachable (fun _ _ => True) rolledBack :=
    .step (.step (h₀.inserted trivial) trivial (.commitUncertain rfl)) trivial .rollback
  exact ⟨h₁, rfl, rfl, rfl, _, rfl⟩

end runs

end Collections
