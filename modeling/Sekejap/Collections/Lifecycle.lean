import Sekejap.Collections.IndexBuild

/-!
# Tables, live row counts and transactions

`create_collection_in`, the live row counts (`row_count.rs`), the bounded drop of a table
(`drop_collection.rs`), `commit`, `rollback` and a reopen (`mod.rs`), and the runs a handle makes of
these and of the row and index writes.

A storage error fails the handle: only a rollback or a reopen goes on from there.  A commit that
returns an error may still have become durable.
-/

open Collections (EntityId Sequence)

open PageWal (u64Max)

open Fallible

namespace Engine

/-! ## Creating a table -/

/-- What a caller of `create_collection_in` gives; no schema is `public`. -/
structure Declaration where
  schema : Option String
  name : String
  fields : List (String × Kind)
  rules : List (String × ColumnRule)
  timestamps : Bool

/-- A kind as a refusal prints it. -/
def Kind.debug : Kind → String
  | text => "Text"
  | int => "Int"
  | real => "Real"
  | bool => "Bool"
  | json => "Json"
  | geo => "Geo"
  | point => "Point"
  | vector dim => s!"Vector({dim})"

/-- A constant default is a value its column stores. -/
def fits : Kind → Value → Bool
  | .text, .string _ => true
  | .int, v => v.asI64.isSome
  | .real, .number _ => true
  | .bool, .bool _ => true
  | .json, v => !v.isNull
  | _, _ => false

/-- What is wrong with a column's default, if anything is. -/
def checkDefault (field : String) (kind : Kind) : Option DefaultValue → Except Error Unit
  | none => .ok ()
  | some .now => refuse (kind ≠ .int) (.invalid (s!"DEFAULT now() on `{field}`: a stored instant is "
      ++ s!"Kind::Int microseconds, and `{field}` is {kind.debug}"))
  | some (.const v) => refuse (fits kind v = false) (.invalid (s!"DEFAULT on `{field}`: a constant "
      ++ s!"must be a value `{field}` stores, and `{field}` is {kind.debug}"))
  | some _ => refuse (kind ≠ .text) (.invalid (s!"DEFAULT uuid4()/uuid5() on `{field}`: a UUID is "
      ++ s!"written as text, and `{field}` is {kind.debug}"))

def checkReferences (field : String) (kind : Kind) : Option String → Except Error Unit
  | none => .ok ()
  | some target => do
      refuse (target.utf8ByteSize = 0 ∨ 255 < target.utf8ByteSize)
        (.invalid s!"the REFERENCES target of `{field}` names a collection of 1..255 bytes")
      refuse (kind ≠ .text) (.invalid (s!"`{field}` REFERENCES {target}: a foreign key names a row by "
        ++ s!"its external key, which is TEXT, and `{field}` is {kind.debug}"))

/-- The rules of a new table, each against its field. -/
def checkRules (fields : List (String × Kind)) (all : List (String × ColumnRule)) :
    List (String × ColumnRule) → Except Error Unit
  | [] => .ok ()
  | (field, rule) :: rules => do
      let kind ← orElse (fields.lookup field)
        (.invalid s!"the column rule for `{field}` names a field the collection has not got")
      refuse (rule.default.isNone ∧ !rule.notNull ∧ rule.references.isNone)
        (.invalid s!"the column rule for `{field}` sets neither a DEFAULT, NOT NULL nor REFERENCES")
      checkReferences field kind rule.references
      checkDefault field kind rule.default
      refuse ((all.filter fun other => other.1 = field).length ≠ 1)
        (.invalid s!"`{field}` carries two column rules")
      checkRules fields all rules

/-- The fields of a layout behind the key field. -/
def makeLayout (fields : List (String × Kind)) (timestamps : Bool) :
    Except Error (List (String × Kind)) := do
  refuse (fields.any fun f => Database.reserved f.1
      ∨ (timestamps ∧ (f.1 = Database.created ∨ f.1 = Database.updated)))
    (.invalid "managed/reserved field declaration")
  let out := fields
    ++ if timestamps then [(Database.created, .int), (Database.updated, .int)] else []
  refuse (1600 < out.length + 1) (.invalid "at most 1600 columns")
  refuse (out.any fun f => match f.2 with
      | .vector dim => dim = 0 ∨ 16384 < dim
      | _ => false) (.invalid "vector dimension limit")
  refuse (¬ (out.map Prod.fst).Nodup) (.invalid "duplicate field")
  pure out

namespace Database

/-- `check_schema_name` -/
def checkSchemaName (schema : String) : Except Error Unit := do
  refuse (schema.utf8ByteSize = 0 ∨ 63 < schema.utf8ByteSize)
    (.invalid "a schema name must contain 1..63 UTF-8 bytes")
  let lower := schema.map Char.toLower
  refuse (lower = "public" ∨ lower = "information_schema" ∨ "pg_".toList <+: lower.toList)
    (.invalid (s!"unacceptable schema name `{schema}`: `public`, `information_schema` and the `pg_` "
      ++ "prefix are reserved"))

def createSchema (db : Database) (schema : String) : Except Error Database := do
  refuse db.failed .failed
  checkSchemaName schema
  refuse (db.store.schemas schema) .alreadyExists
  let db ← db.userWrite
  pure (db.setStore fun x => { x with schemas := Function.update x.schemas schema true })

/-- A table is created, with its row sequence at 1: what a binary without row counts does. -/
def createTable (db : Database) (t : Declaration) : Except Error (ℕ × Database) := do
  let db ← db.userWrite
  refuse (t.schema.any fun s => !db.store.schemas s)
    (.invalid ("schema `" ++ t.schema.getD "" ++ "` does not exist"))
  checkRules t.fields t.rules t.rules
  refuse (t.name.utf8ByteSize = 0 ∨ 255 < t.name.utf8ByteSize)
    (.invalid "collection name must contain 1..255 UTF-8 bytes")
  let found ← db.collectionIn t.schema t.name
  refuse found.isSome .alreadyExists
  let c := db.store.nextCollection
  refuse (2 ^ 32 ≤ c + 1) (.invalid "collection IDs exhausted")
  let fields ← makeLayout t.fields t.timestamps
  let catalog : Catalog :=
    { id := c, name := t.name, schema := t.schema, fields, timestamps := t.timestamps
      rules := t.rules, edge := false, drop := none }
  pure (c, db.setStore fun x => { x with
    nextCollection := c + 1
    catalogs := Function.update x.catalogs c (some catalog)
    next := Function.update x.next c (some 1)
    names := Function.update x.names t.schema
      (Function.update (x.names t.schema) t.name (some c)) })

/-! ## Live row counts -/

end Database

/-- What a record says after this transaction. -/
def Pending.applied (p : Pending) : Except Error ℕ := do
  refuse (p.base + p.delta < 0 ∨ (u64Max : ℤ) < p.base + p.delta)
    (.corrupt "live row count left its domain")
  pure (p.base + p.delta).toNat

namespace Database

/-- The number of a table's rows, or none when it has no record. -/
def rowCount (db : Database) (c : ℕ) : Except Error (Option ℕ) :=
  match db.rowCounts c with
  | some p => do
      let n ← p.applied
      pure (some n)
  | none =>
      if !db.store.rowCountFeature then .ok none
      else do
        refuse db.failed .failed
        pure ((db.store.counts c).map RowCountRecord.rows)

/-- A table gets a record. -/
def seedRowCount (db : Database) (c rows : ℕ) : Database :=
  { db with
    rowCounts := Function.update db.rowCounts c none
    store := { db.store with
      rowCountFeature := true
      counts := Function.update db.store.counts c (some ⟨rows, 1⟩) } }

def createCollection (db : Database) (t : Declaration) : Except Error (ℕ × Database) := do
  let (c, db) ← db.createTable t
  -- a table that was just created holds no rows
  pure (c, db.seedRowCount c 0)

/-- The delta of one table is written. -/
def flushRowCount (db : Database) (c : ℕ) : Except Error Database :=
  match db.rowCounts c with
  | none => .ok db
  | some p => do
      let db := { db with rowCounts := Function.update db.rowCounts c none }
      if p.delta = 0 then pure db
      else
        let rows ← p.applied
        pure (db.setStore fun x => { x with
          counts := Function.update x.counts c (some ⟨rows, min (p.generation + 1) u64Max⟩) })

def flushCounts (db : Database) : List ℕ → Except Error Database
  | [] => .ok db
  | c :: rest => do
      let db ← db.flushRowCount c
      flushCounts db rest

def flushRowCounts (db : Database) : Except Error Database :=
  db.flushCounts (List.range db.store.nextCollection)

/-- The first live table without a record. -/
def nextUncounted (db : Database) : Option ℕ :=
  (List.range db.store.nextCollection).find? fun c =>
    (db.store.catalogs c).any (fun k => k.drop.isNone)
      && (!db.store.rowCountFeature || (db.store.counts c).isNone)

/-- Where a count goes on, or starts. -/
def backfillState (db : Database) : Option Backfill :=
  db.rowCountBackfill.or (db.nextUncounted.map fun c => ⟨c, none, 0⟩)

/-- At most `budget` rows are counted; the record is written with the last of a table's rows. -/
def backfillWalk (db : Database) (b : Backfill) (budget : ℕ) : ℕ × Bool × Database :=
  let taken := Scan.take (db.store.live b.collection) budget b.after
  let b : Backfill := ⟨b.collection, taken.getLast?.or b.after, b.counted + taken.length⟩
  if taken.length < budget then
    (taken.length, true,
      { db.seedRowCount b.collection b.counted with rowCountBackfill := none })
  else (taken.length, false, { db with rowCountBackfill := some b })

structure RowCountProgress where
  collection : Option ℕ
  rowsWalked : ℕ
  recordsWritten : ℕ
  done : Bool
  deriving DecidableEq, Repr

/-- The tables one after another until the budget is used.  A pass that goes on has written a
record, so there are no more passes than tables. -/
def backfillLoop (budget : ℕ) : ℕ → ℕ → ℕ → Database → RowCountProgress × Database
  | 0, walked, written, db => (⟨db.rowCountBackfill.map Backfill.collection, walked, written, false⟩, db)
  | passes + 1, walked, written, db =>
      match db.backfillState with
      | none => (⟨none, walked, written, true⟩, db)
      | some b =>
          let (counted, complete, db) := db.backfillWalk b (budget - walked)
          let walked := walked + counted
          let written := if complete then written + 1 else written
          if budget ≤ walked then
            (⟨db.rowCountBackfill.map Backfill.collection, walked, written, false⟩, db)
          else backfillLoop budget passes walked written db

def backfillRowCounts (db : Database) (budget : ℕ) : Except Error (RowCountProgress × Database) := do
  refuse db.failed .failed
  refuse (budget = 0) (.invalid "a row-count backfill budget counts 1.. rows")
  pure (backfillLoop budget (db.store.nextCollection + 1) 0 0 db)

/-! ## Dropping a table -/

/-- `MAX_DROP_BATCH` -/
def maxDropBatch : ℕ := 256

/-- The catalog record is written with the state of its drop. -/
def saveDropState (db : Database) (k : Catalog) (d : DropState) : Database :=
  db.setStore fun x =>
    { x with catalogs := Function.update x.catalogs k.id (some { k with drop := some d }) }

/-- The mark a drop begins with.  The commits on both sides of it are steps of their own. -/
def beginDropCollection (db : Database) (c : ℕ) : Except Error Database := do
  refuse db.failed .failed
  refuse db.userWritesPending (.invalid "commit pending writes before dropping a collection")
  let k ← db.catalog c
  refuse db.dropping.isSome
    (.invalid (s!"collection {db.dropping.getD 0} is already DROPPING; finish it with "
      ++ "drop_collection_step before starting another"))
  pure { db.saveDropState k ⟨.indexes, 0⟩ with dropping := some c }

/-- A phase goes on, or the next begins. -/
def dropProgress (db : Database) (k : Catalog) (d : DropState) (ended : Bool) (removed : ℕ) :
    Database :=
  db.saveDropState k ⟨if ended then d.phase.next else d.phase, d.removed + removed⟩

def dropStepIndexes (db : Database) (o : Call) (k : Catalog) (d : DropState) (budget : ℕ) :
    Except Error Database :=
  match db.listIndexesAny k.id with
  | [] => .ok (db.dropProgress k d true 0)
  | i :: _ => do
      let db ← if i.state = .dropping then pure db else db.beginDropIndex i.id
      let (ended, db) ← db.dropIndexStep o i.id budget
      pure (db.dropProgress k d false (if ended then 1 else 0))

/-- How many of a batch's keys a step deletes before it has spent its share of the log. -/
def allowed (o : Call) : ℕ → ℕ → ℕ
  | 0, _ => 0
  | 1, _ => 1
  | n + 2, i => if o.spent i then 1 else 1 + allowed o (n + 1) (i + 1)

/-- Keys are deleted from the front of a keyspace. -/
def dropStepPrefix {α : Type} [LinearOrder α] (db : Database) (o : Call) (k : Catalog) (d : DropState)
    (budget : ℕ) (keys : Finset α) (remove : List α → Database → Database) : Database :=
  let taken := Scan.take keys budget none
  let n := allowed o taken.length 0
  (remove (taken.take n) db).dropProgress k d (n = taken.length ∧ taken.length < budget) n

def removeRows (c : ℕ) (taken : List ℕ) (db : Database) : Database :=
  db.setStore fun x => { x with
    rows := taken.foldl (fun rows seq => rows.erase ⟨c, seq⟩) x.rows }

/-- The external keys of a table. -/
def mappingKeys (db : Database) (c : ℕ) : Finset String :=
  (db.store.mapping.keys.filter fun k => k.1 = c).image Prod.snd

def removeMappings (c : ℕ) (taken : List String) (db : Database) : Database :=
  db.setStore fun x => { x with
    mapping := taken.foldl (fun mapping key => mapping.erase (c, key)) x.mapping }

def notEmpty (k : Catalog) (what : String) : Error :=
  .corrupt s!"drop of `{k.name}` reached its last step with its {what} keyspace not empty"

/-- `row_id_blocks_forget`, and the open sequence of the table. -/
def forgetIds (db : Database) (c : ℕ) : Database :=
  { db with
    sequence := db.sequence.filter fun s => s.collection ≠ c
    rowIdBlocks := Function.update db.rowIdBlocks c none
    rowIdPending := Function.update db.rowIdPending c none }

/-- The record of a table that no longer exists. -/
def removeRowCount (db : Database) (c : ℕ) : Database :=
  { db with
    rowCounts := Function.update db.rowCounts c none
    rowCountBackfill := db.rowCountBackfill.filter fun b => b.collection ≠ c
    store := { db.store with
      counts := if db.store.rowCountFeature then Function.update db.store.counts c none
        else db.store.counts } }

/-- The last step: every keyspace of the table is found empty, and its descriptor goes. -/
def dropStepDescriptor (db : Database) (k : Catalog) : Except Error Database := do
  refuse (db.listIndexesAny k.id ≠ []) (notEmpty k "index registry")
  refuse (db.store.live k.id ≠ ∅) (notEmpty k "rows")
  refuse (db.mappingKeys k.id ≠ ∅) (notEmpty k "external-key mappings")
  let db := ((db.forgetIds k.id).removeRowCount k.id).indexDescriptorsChanged
  pure { db.setStore fun x => { x with
    catalogs := Function.update x.catalogs k.id none
    next := Function.update x.next k.id none
    names := Function.update x.names k.schema (Function.update (x.names k.schema) k.name none) }
    with dropping := none }

/-- One bounded step of a drop.  `true`: the table is gone. -/
def dropCollectionStep (db : Database) (o : Call) (c budget : ℕ) : Except Error (Bool × Database) := do
  refuse db.failed .failed
  refuse (budget = 0 ∨ maxDropBatch < budget) (.invalid "drop batch must be 1..256")
  let k ← db.catalogAny c
  let d ← orElse k.drop (.invalid "call begin_drop_collection first")
  match d.phase with
  | .indexes => do
      let db ← db.dropStepIndexes o k d budget
      pure (false, db)
  -- vector cells are not part of this model
  | .sidecars => pure (false, db.dropProgress k d true 0)
  | .rows => pure (false, db.dropStepPrefix o k d budget (db.store.live c) (removeRows c))
  | .mappings => pure (false, db.dropStepPrefix o k d budget (db.mappingKeys c) (removeMappings c))
  | .descriptor => do
      let db ← db.dropStepDescriptor k
      pure (true, db)

/-! ## Transactions -/

def flushSequence (db : Database) : Database := db.withIds db.ids.flushSequence

/-- What a commit writes before its barrier. -/
def flush (db : Database) : Except Error Database := do
  refuse db.failed .failed
  { db with userWritesPending := false }.flushSequence.flushRowCounts

/-- A commit that returns. -/
def commit (db : Database) : Except Error Database := do
  let db ← db.flush
  pure { db with
    durable := db.store
    rowIdBlocks := db.ids.block
    rowIdPending := fun _ => none }

/-- A commit that fails after it became durable. -/
def commitUncertain (db : Database) : Except Error Database := do
  let db ← db.flush
  pure { db with
    failed := true
    durable := db.store
    uncertain := fun c => (db.rowIdPending c).isSome }

/-- `scan_dropping` -/
def scanDropping (x : Store) : Option ℕ :=
  (List.range x.nextCollection).find? fun c => (x.catalogs c).any fun k => k.drop.isSome

/-- The handle's own state is forgotten, the blocks of the last commit excepted. -/
def rollback (db : Database) : Database :=
  { db with
    failed := false
    sequence := none
    rowIdPending := fun _ => none
    userWritesPending := false
    indexListCache := none
    indexListGeneration := db.indexListGeneration + 1
    rowCounts := fun _ => none
    rowCountBackfill := none
    dropping := scanDropping db.durable
    store := db.durable
    uncertain := fun _ => false }

/-- A new handle on the files. -/
def openStore (host : Host) (register : Bool) (x : Store) : Database where
  host := host
  register := register
  failed := false
  sequence := none
  rowIdBlocks := fun _ => none
  rowIdPending := fun _ => none
  userWritesPending := false
  indexListCache := none
  indexListGeneration := 0
  rowCounts := fun _ => none
  rowCountBackfill := none
  dropping := scanDropping x
  store := x
  durable := x
  uncertain := fun _ => false

def reopen (db : Database) : Database := openStore db.host db.register db.durable

end Database

/-- The trees of a new database. -/
def Store.empty : Store where
  nextCollection := 1
  catalogs := fun _ => none
  schemas := fun _ => false
  names := fun _ _ => none
  next := fun _ => none
  rows := ∅
  mapping := ∅
  nextIndex := 1
  indexes := fun _ => none
  indexNames := fun _ _ => none
  entries := ∅
  trees := fun _ _ => ∅
  rowCountFeature := false
  counts := fun _ => none

def Database.create (host : Host) (register : Bool) : Database :=
  Database.openStore host register .empty

/-! ## Runs -/

/-- What a caller asks of a handle. -/
inductive Request where
  | createSchema (schema : String)
  | createCollection (t : Declaration)
  /-- by a binary that kept no row counts -/
  | createTable (t : Declaration)
  | put (o : Call) (c : ℕ) (key : String) (fields : List (String × Value))
  | insert (o : Call) (c : ℕ) (key : String) (fields : List (String × Value))
  | update (o : Call) (c : ℕ) (key : String) (patch : List (String × Value))
  | delete (o : Call) (c : ℕ) (key : String)
  | deletePage (c : ℕ) (page : List (Call × EntityId))
  | updatePage (c : ℕ) (patch : Document → Except Error (List (String × Value)))
      (page : List (Call × EntityId))
  | createScalarIndex (c : ℕ) (name field : String) (unique withTree : Bool)
  | createExpressionIndex (c : ℕ) (name field : String) (expression : IndexExpr) (unique : Bool)
  | buildIndexStep (o : Call) (id batch : ℕ)
  | buildSortedRun (o : Call) (id n : ℕ)
  | beginDropIndex (id : ℕ)
  | dropIndexStep (o : Call) (id batch : ℕ)
  | backfillRowCounts (budget : ℕ)
  | beginDropCollection (c : ℕ)
  | dropCollectionStep (o : Call) (c budget : ℕ)
  | commit

/-- The handle a request leaves when it returns. -/
def Database.call (db : Database) : Request → Except Error Database
  | .createSchema schema => db.createSchema schema
  | .createCollection t => Prod.snd <$> db.createCollection t
  | .createTable t => Prod.snd <$> db.createTable t
  | .put o c key fields => Prod.snd <$> db.put o c key fields
  | .insert o c key fields => Prod.snd <$> db.insert o c key fields
  | .update o c key patch => Prod.snd <$> db.update o c key patch
  | .delete o c key => Prod.snd <$> db.delete o c key
  | .deletePage c page => db.deletePage c page
  | .updatePage c patch page => db.updatePage c patch page
  | .createScalarIndex c name field unique withTree =>
      Prod.snd <$> db.createScalarIndex c name field unique withTree
  | .createExpressionIndex c name field expression unique =>
      Prod.snd <$> db.createExpressionIndex c name field expression unique
  | .buildIndexStep o id batch => Prod.snd <$> db.buildIndexStep o id batch
  | .buildSortedRun o id n => db.buildSortedRun o id n
  | .beginDropIndex id => db.beginDropIndex id
  | .dropIndexStep o id batch => Prod.snd <$> db.dropIndexStep o id batch
  | .backfillRowCounts budget => Prod.snd <$> db.backfillRowCounts budget
  | .beginDropCollection c => db.beginDropCollection c
  | .dropCollectionStep o c budget => Prod.snd <$> db.dropCollectionStep o c budget
  | .commit => db.commit

/-- What happens to a handle. -/
inductive Op where
  | call (r : Request)
  /-- a write was refused before it wrote -/
  | refused
  /-- the commit failed, and became durable -/
  | commitUncertain
  /-- any of these failed and nothing became durable -/
  | fail
  | rollback
  | rollbackFails
  | reopen

/-- **One step of a run.**  A failed handle is only rolled back or reopened; what a failure left of
the handle's own state is arbitrary, but that it never adds to the blocks of the last commit. -/
inductive Step : Database → Op → Database → Prop
  | call {db db' : Database} {r : Request} (hf : db.failed = false) (h : db.call r = .ok db') :
      Step db (.call r) db'
  | refused {db : Database} (hf : db.failed = false) :
      Step db .refused { db with userWritesPending := true }
  | commitUncertain {db db' : Database} (h : db.commitUncertain = .ok db') :
      Step db .commitUncertain db'
  | fail {db db' : Database} (hf : db.failed = false) (hf' : db'.failed = true)
      (hh : db'.host = db.host) (hr : db'.register = db.register) (hd : db'.durable = db.durable)
      (hu : db'.uncertain = db.uncertain)
      (hb : ∀ c, db'.rowIdBlocks c = none ∨ db'.rowIdBlocks c = db.rowIdBlocks c) : Step db .fail db'
  | rollback {db : Database} : Step db .rollback db.rollback
  | rollbackFails {db db' : Database} (hf : db'.failed = true) (hh : db'.host = db.host)
      (hr : db'.register = db.register) (hd : db'.durable = db.durable)
      (hu : db'.uncertain = db.uncertain) (hb : db'.rowIdBlocks = db.rowIdBlocks) :
      Step db .rollbackFails db'
  | reopen {db : Database} : Step db .reopen db.reopen

/-- Every state of every run from a new database whose steps meet `P`. -/
inductive Reachable (P : Database → Op → Prop) : Database → Prop
  | create (host : Host) (register : Bool) : Reachable P (Database.create host register)
  | step {db db' : Database} {op : Op} (h : Reachable P db) (hp : P db op) (hs : Step db op db') :
      Reachable P db'

/-- A rollback does not keep a block the durable state has gone past. -/
def Certain (db : Database) : Op → Prop
  | .rollback => ∀ c, db.uncertain c = true → db.rowIdBlocks c = none
  | _ => True

end Engine
