import Sekejap.Collections.Lifecycle
import Sekejap.Collections.RowSteps
import Sekejap.Graph.Edges

/-!
# Index families that follow the rows

The vector, spatial and text indexes of a table are maintained by the same writes as its scalar
indexes (`maintain_indexes`), created BUILDING, built in the same bounded batches (`build_index_step`)
and dropped the same way (`core/engine/src/collections/catalog.rs`).  What a family keeps, and how it
follows one row, is a parameter here; everything around it is the tables' own.

A row write is one request, a candidate of a predicated pass too: a page of such writes is several of
them.
-/

open Collections (EntityId)

open PageWal (u64Max)

open Fallible

open Engine.Graph (ascending)

namespace Engine

/-! ## The row a request writes -/

/-- A request that writes at most one row. -/
inductive RowRequest where
  | put (o : Call) (c : ℕ) (key : String) (fields : List (String × Value))
  | insert (o : Call) (c : ℕ) (key : String) (fields : List (String × Value))
  | update (o : Call) (c : ℕ) (key : String) (patch : List (String × Value))
  | delete (o : Call) (c : ℕ) (key : String)
  | deleteCandidate (o : Call) (c : ℕ) (id : EntityId)
  | updateCandidate (o : Call) (c : ℕ) (id : EntityId)
      (patch : Document → Except Error (List (String × Value)))

/-- What is asked of the tables. -/
def RowRequest.request : RowRequest → Request
  | .put o c key fields => .put o c key fields
  | .insert o c key fields => .insert o c key fields
  | .update o c key patch => .update o c key patch
  | .delete o c key => .delete o c key
  | .deleteCandidate o c id => .deletePage c [(o, id)]
  | .updateCandidate o c id patch => .updatePage c patch [(o, id)]

/-- What a write does to one row: the document it had, and the one it has from now on, as it was given
and as it is stored. -/
structure Change where
  id : EntityId
  old : Option Document
  new : Option (Document × Document)

namespace Database

variable (db : Database)

/-- The change a document makes to a row, or to the table when there is none. -/
def changeTo (o : Call) (k : Catalog) (doc : Document) (old : Option (EntityId × Row)) :
    Except Error (Option Change) := do
  let given ← db.prepare o k doc (old.map fun e => e.2.document)
  let stored ← encodeDense db.host k.fields given
  match old with
  | some (id, row) => pure (some ⟨id, some row.document, some (given, stored)⟩)
  | none => do
      let (id, _) ← db.allocate k.id
      pure (some ⟨id, none, some (given, stored)⟩)

/-- The change a request makes on a handle on which it has begun to write. -/
def change : RowRequest → Except Error (Option Change)
  | .put o c key fields => do
      let k ← db.catalog c
      let old ← db.loadEntity c key
      db.changeTo o k (ofFields fields) old
  | .insert o c _ fields => do
      let k ← db.catalog c
      db.changeTo o k (ofFields fields) none
  | .update o c key patch => do
      let k ← db.catalog c
      let old ← db.loadEntity c key
      let (id, row) ← orElse old (.notFound "entity")
      db.changeTo o k (merge row.document patch) (some (id, row))
  | .delete _ c key => do
      let old ← db.loadEntity c key
      pure (old.map fun e => ⟨e.1, some e.2.document, none⟩)
  | .deleteCandidate _ _ id =>
      .ok ((db.store.rows.lookup id).map fun row => ⟨id, some row.document, none⟩)
  | .updateCandidate o c id patch => do
      let k ← db.catalog c
      match db.store.rows.lookup id with
      | none => pure none
      | some row => do
          let new ← patch row.document
          db.changeTo o k (merge row.document new) (some (id, row))

end Database

namespace Families

/-! ## Families -/

/-- **An index family**: what an index of it keeps, and how that follows a row. -/
structure Family (σ : Type) where
  empty : σ
  /-- the field may be indexed -/
  accepts : Kind → Bool
  /-- the write path's hook, for the row's document before and after -/
  maintain : IndexInfo → σ → ℕ → Option Document → Option (Document × Document) → Except Error σ
  /-- the late build's write of a stored row -/
  build : IndexInfo → σ → ℕ → Document → Except Error σ

structure Index (σ : Type) where
  info : IndexInfo
  data : σ
  /-- history: the rows a build step or a write has come past -/
  reached : Finset ℕ

/-- The indexes of a family, by number. -/
abbrev Registry (σ : Type) := Finmap fun _ : ℕ => Index σ

/-- A handle, with the indexes of one family. -/
structure Database (σ : Type) where
  tables : Engine.Database
  indexes : Registry σ
  /-- what a rollback or a reopen finds of them -/
  durable : Registry σ

variable {σ : Type} (F : Family σ)

namespace Database

/-- One index follows one row. -/
def followOne (seq : ℕ) (old : Option Document) (new : Option (Document × Document))
    (indexes : Registry σ) (n : ℕ) : Except Error (Registry σ) :=
  match indexes.lookup n with
  | none => .ok indexes
  | some i =>
      if i.info.state = .dropping then .ok indexes
      else do
        let data ← F.maintain i.info i.data seq old new
        pure (indexes.insert n { i with data, reached := insert seq i.reached })

/-- The indexes of a list follow one row. -/
def follow (seq : ℕ) (old : Option Document) (new : Option (Document × Document)) :
    Registry σ → List ℕ → Except Error (Registry σ)
  | indexes, [] => .ok indexes
  | indexes, n :: rest => do
      let indexes ← followOne F seq old new indexes n
      follow seq old new indexes rest

variable (db : Database σ)

/-- The indexes of a table, in the order of their numbers. -/
def listed (c : ℕ) : List ℕ :=
  ascending (db.indexes.keys.filter fun n => (db.indexes.lookup n).any fun i => i.info.collection = c)

/-- The indexes of a row's table follow it. -/
def followChange (tables : Engine.Database) : Option Change → Except Error (Database σ)
  | none => .ok { db with tables }
  | some ch => do
      let indexes ← follow F ch.id.sequence ch.old ch.new db.indexes (db.listed ch.id.collection)
      pure { db with tables, indexes }

/-- A row is written, and the indexes of its table follow. -/
def write (r : RowRequest) : Except Error (Database σ) := do
  let begun ← db.tables.userWrite
  let change ← begun.change r
  let tables ← db.tables.call r.request
  db.followChange F tables change

/-! ## Index requests -/

def createIndex (c : ℕ) (name field : String) (withTree : Bool) : Except Error (ℕ × Database σ) := do
  refuse db.tables.failed .failed
  let kind ← db.tables.fieldKind c field
  refuse (F.accepts kind = false) (.invalid "index requires a field of the family's kind")
  refuse (¬ Database.nameLength name ∨ ¬ Database.nameLength field)
    (.invalid "index name and field require 1..128 UTF-8 bytes")
  refuse (db.tables.store.indexNames c name).isSome .alreadyExists
  let scalar ← db.tables.listIndexes c
  refuse (Database.maxIndexes ≤ scalar.length + (db.listed c).length)
    (.invalid "at most 64 indexes per collection")
  let id := db.tables.store.nextIndex
  refuse (withTree ∧ Database.lastTree db.tables.register < id + 1)
    (.invalid "per-index tree identities exhausted")
  refuse (u64Max < id + 1) (.invalid "index identities exhausted")
  let info : IndexInfo :=
    { id, collection := c, name, field, kind, unique := false, state := .building 0
      tree := if withTree then some ⟨id + 1, 0⟩ else none
      expression := none }
  pure (id, { db with
    tables := db.tables.indexDescriptorsChanged.setStore fun x => { x with
      nextIndex := id + 1
      indexNames := Function.update x.indexNames c
        (Function.update (x.indexNames c) name (some id)) }
    indexes := db.indexes.insert id ⟨info, F.empty, ∅⟩ })

/-- The rows of a batch are written into an index. -/
def buildRows (x : Store) (i : Index σ) : σ → List ℕ → Except Error σ
  | data, [] => .ok data
  | data, seq :: rest => do
      let row ← orElse (x.rows.lookup ⟨i.info.collection, seq⟩) (.corrupt "row")
      let data ← F.build i.info data seq row.document
      buildRows x i data rest

def buildIndexStep (id batch : ℕ) : Except Error (Bool × Database σ) := do
  refuse db.tables.failed .failed
  refuse (batch = 0 ∨ Database.maxBatch < batch) (.invalid "index batch must be 1..256")
  let i ← orElse (db.indexes.lookup id) (.notFound "index")
  match i.info.state with
  | .ready => pure (true, db)
  | .dropping => throw (.invalid "index is dropping")
  | .building after => do
      let live := db.tables.store.live i.info.collection
      let taken := Scan.take live batch (some after)
      let data ← buildRows F db.tables.store i i.data taken
      let last := taken.getLast?.getD after
      let ended : Bool := (Scan.next live (some last)).isNone
      let info := { i.info with state := if ended then .ready else .building last }
      pure (ended, { db with
        tables := db.tables.indexDescriptorsChanged
        indexes := db.indexes.insert id ⟨info, data, i.reached ∪ taken.toFinset⟩ })

def beginDropIndex (id : ℕ) : Except Error (Database σ) := do
  refuse db.tables.failed .failed
  let i ← orElse (db.indexes.lookup id) (.notFound "index")
  pure { db with
    tables := db.tables.indexDescriptorsChanged
    indexes := db.indexes.insert id { i with info := { i.info with state := .dropping } } }

/-- A bounded step of a drop has left `rest` of what a DROPPING index kept, or nothing and no
descriptor either. -/
def dropIndexStep (id : ℕ) (rest : Option σ) : Except Error (Database σ) := do
  refuse db.tables.failed .failed
  let i ← orElse (db.indexes.lookup id) (.notFound "index")
  refuse (i.info.state ≠ .dropping) (.invalid "call begin_drop_index first")
  match rest with
  | some data => pure { db with indexes := db.indexes.insert id { i with data } }
  | none => pure { db with
      tables := db.tables.indexDescriptorsChanged.setStore fun x => { x with
        indexNames := Function.update x.indexNames i.info.collection
          (Function.update (x.indexNames i.info.collection) i.info.name none) }
      indexes := db.indexes.erase id }

/-! ## Tables and transactions -/

/-- A bounded step of a table's drop.  Its first phase drops the indexes, one after another; `rest` is
what the step has left of the one it was at. -/
def dropCollectionStep (o : Call) (c budget : ℕ) (rest : Option σ) : Except Error (Database σ) :=
  match db.listed c with
  | [] => do
      let (_, tables) ← db.tables.dropCollectionStep o c budget
      pure { db with tables }
  | id :: _ => do
      refuse (budget = 0 ∨ Database.maxDropBatch < budget) (.invalid "drop batch must be 1..256")
      let k ← db.tables.catalogAny c
      let d ← orElse k.drop (.invalid "call begin_drop_collection first")
      refuse (d.phase ≠ .indexes) (Database.notEmpty k "index registry")
      let db ← db.beginDropIndex id
      let db ← db.dropIndexStep id rest
      pure { db with tables := db.tables.dropProgress k d false (if rest.isNone then 1 else 0) }

def commit : Except Error (Database σ) := do
  let tables ← db.tables.commit
  pure { db with tables, durable := db.indexes }

/-- A commit that fails after it became durable. -/
def commitUncertain : Except Error (Database σ) := do
  let tables ← db.tables.commitUncertain
  pure { db with tables, durable := db.indexes }

def rollback : Database σ := { db with tables := db.tables.rollback, indexes := db.durable }

def reopen : Database σ := { db with tables := db.tables.reopen, indexes := db.durable }

def create (host : Host) (register : Bool) : Database σ :=
  ⟨Engine.Database.create host register, ∅, ∅⟩

end Database

/-! ## Runs -/

/-- A request that leaves the rows of every table alone. -/
def alone : Engine.Request → Bool
  | .put .. | .insert .. | .update .. | .delete .. | .deletePage .. | .updatePage .. => false
  | .dropCollectionStep .. | .commit => false
  | _ => true

/-- What a caller asks of a handle. -/
inductive Request (σ : Type) where
  | tables (r : { r : Engine.Request // alone r = true })
  | write (r : RowRequest)
  | createIndex (c : ℕ) (name field : String) (withTree : Bool)
  | buildIndexStep (id batch : ℕ)
  | beginDropIndex (id : ℕ)
  | dropIndexStep (id : ℕ) (rest : Option σ)
  | dropCollectionStep (o : Call) (c budget : ℕ) (rest : Option σ)
  | commit

namespace Database

/-- The handle a request leaves when it returns. -/
def call (db : Database σ) : Request σ → Except Error (Database σ)
  | .tables r => do
      let tables ← db.tables.call r.1
      pure { db with tables }
  | .write r => db.write F r
  | .createIndex c name field withTree => Prod.snd <$> db.createIndex F c name field withTree
  | .buildIndexStep id batch => Prod.snd <$> db.buildIndexStep F id batch
  | .beginDropIndex id => db.beginDropIndex id
  | .dropIndexStep id rest => db.dropIndexStep id rest
  | .dropCollectionStep o c budget rest => db.dropCollectionStep o c budget rest
  | .commit => db.commit

end Database

/-- What happens to a handle. -/
inductive Op (σ : Type) where
  | call (r : Request σ)
  /-- a write was refused before it wrote -/
  | refused
  /-- the commit failed, and became durable -/
  | commitUncertain
  /-- any of these failed and nothing became durable -/
  | fail
  | rollback
  | rollbackFails
  | reopen

/-- **One step of a run.**  A failed handle is only rolled back or reopened; what a failure left of
the handle's own state is arbitrary. -/
inductive Step : Database σ → Op σ → Database σ → Prop
  | call {db db' : Database σ} {r : Request σ} (hf : db.tables.failed = false)
      (h : db.call F r = .ok db') : Step db (.call r) db'
  | refused {db : Database σ} (hf : db.tables.failed = false) :
      Step db .refused { db with tables := db.tables.written }
  | commitUncertain {db db' : Database σ} (h : db.commitUncertain = .ok db') :
      Step db .commitUncertain db'
  | fail {db db' : Database σ} (ht : Engine.Step db.tables .fail db'.tables)
      (hd : db'.durable = db.durable) : Step db .fail db'
  | rollback {db : Database σ} : Step db .rollback db.rollback
  | rollbackFails {db db' : Database σ} (ht : Engine.Step db.tables .rollbackFails db'.tables)
      (hd : db'.durable = db.durable) : Step db .rollbackFails db'
  | reopen {db : Database σ} : Step db .reopen db.reopen

/-- Every state of every run from a new database whose steps meet `P`. -/
inductive Reachable (host : Host) (P : Database σ → Op σ → Prop) : Database σ → Prop
  | create (register : Bool) : Reachable host P (Database.create host register)
  | step {db db' : Database σ} {op : Op σ} (h : Reachable host P db) (hp : P db op)
      (hs : Step F db op db') : Reachable host P db'

namespace Database

/-- The handle an operation leaves, where it is the only one. -/
def perform (db : Database σ) : Op σ → Except Error (Database σ)
  | .call r => do
      refuse db.tables.failed .failed
      db.call F r
  | .refused => do
      refuse db.tables.failed .failed
      pure { db with tables := db.tables.written }
  | .commitUncertain => db.commitUncertain
  | .rollback => .ok db.rollback
  | .reopen => .ok db.reopen
  | .fail | .rollbackFails => .error .failed

def performs (db : Database σ) : List (Op σ) → Except Error (Database σ)
  | [] => .ok db
  | op :: ops => do
      let db ← db.perform F op
      performs db ops

end Database

section

variable {F} {db db' : Database σ}

lemma Step.of_perform {op : Op σ} (h : db.perform F op = .ok db') : Step F db op db' := by
  cases op with
  | call r =>
      simp only [Database.perform, bind_eq_ok, refuse_eq_ok, Bool.not_eq_true] at h
      obtain ⟨_, hf, hok⟩ := h
      exact .call hf hok
  | refused =>
      simp only [Database.perform, bind_eq_ok, refuse_eq_ok, Bool.not_eq_true, pure_eq_ok] at h
      obtain ⟨_, hf, rfl⟩ := h
      exact .refused hf
  | commitUncertain => exact .commitUncertain h
  | rollback =>
      cases h
      exact .rollback
  | reopen =>
      cases h
      exact .reopen
  | fail | rollbackFails => cases h

/-- A run is reachable when each of its steps meets the condition where it is taken. -/
lemma Reachable.performs {host : Host} {P : Database σ → Op σ → Prop} {ops : List (Op σ)}
    (h : Reachable F host P db)
    (hP : ∀ pre op post, ops = pre ++ op :: post → ∀ db₁, db.performs F pre = .ok db₁ → P db₁ op)
    (hok : db.performs F ops = .ok db') : Reachable F host P db' := by
  induction ops generalizing db with
  | nil =>
      cases hok
      exact h
  | cons op ops ih =>
      simp only [Database.performs, bind_eq_ok] at hok
      obtain ⟨db₁, hone, hrest⟩ := hok
      refine ih (.step h (hP [] op ops rfl db rfl) (.of_perform hone))
        (fun pre op' post heq db₂ hdb₂ => ?_) hrest
      refine hP (op :: pre) op' post (by rw [heq, List.cons_append]) db₂ ?_
      simp only [Database.performs, bind_eq_ok]
      exact ⟨db₁, hone, hdb₂⟩

end

end Families

end Engine
