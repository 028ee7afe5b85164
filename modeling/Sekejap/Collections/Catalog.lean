import Mathlib.Data.Finmap
import Sekejap.Collections.Document
import Sekejap.Collections.RowIds

/-!
# Tables, descriptors and the handle

What the trees of a database hold of its tables — catalog records, names, row sequences, rows, the
external-key mapping, scalar index descriptors and entries, live row counts — and what a handle
holds beside them (`core/engine/src/collections/mod.rs`).

A scalar index keeps its entries in the primary tree, or in a tree of its own that its descriptor
names by number and root page.  The root moves when the tree grows or collapses a level, and then
the entries are reached from the new root only.  A handle keeps the descriptors of one table for a
run of writes; the list is believed while the generation it was taken at is still current.
-/

open Collections (EntityId Sequence)

open Fallible

namespace Engine

/-! ## Descriptors -/

inductive DefaultValue where
  | const (v : Value)
  | now
  | uuid4
  | uuid5
  | ulid

structure ColumnRule where
  default : Option DefaultValue
  notNull : Bool
  /-- the name of the table this column's value is an external key of -/
  references : Option String

inductive DropPhase where
  | indexes
  | sidecars
  | rows
  | mappings
  | descriptor
  deriving DecidableEq, Repr

/-- The phase's name, as a refusal spells it. -/
def DropPhase.name : DropPhase → String
  | indexes => "indexes"
  | sidecars => "vector sidecars"
  | rows => "rows"
  | mappings => "external-key mappings"
  | descriptor => "descriptor"

def DropPhase.next : DropPhase → DropPhase
  | indexes => sidecars
  | sidecars => rows
  | rows => mappings
  | mappings => descriptor
  | descriptor => descriptor

structure DropState where
  phase : DropPhase
  removed : ℕ
  deriving DecidableEq, Repr

structure Catalog where
  id : ℕ
  name : String
  /-- the named schema, or none for `public` -/
  schema : Option String
  /-- the fields of the layout behind the key field, the managed timestamps last -/
  fields : List (String × Kind)
  timestamps : Bool
  rules : List (String × ColumnRule)
  /-- `edge.is_some()`: it holds edges, never a row -/
  edge : Bool
  drop : Option DropState

inductive IndexState where
  | building (after : ℕ)
  | ready
  | dropping
  deriving DecidableEq, Repr

/-- A tree of an index's own: its number and its root page, 0 while it is empty. -/
structure IndexTree where
  id : ℕ
  root : ℕ
  deriving DecidableEq, Repr

/-- A scalar index descriptor. -/
structure IndexInfo where
  id : ℕ
  collection : ℕ
  name : String
  field : String
  kind : Kind
  unique : Bool
  state : IndexState
  tree : Option IndexTree
  expression : Option IndexExpr
  deriving DecidableEq, Repr

/-- The key of a row in an index. -/
def IndexInfo.derive (i : IndexInfo) (host : Host) (doc : Document) : Except Error ScalarKey :=
  Engine.derive host i.kind i.field i.expression doc

/-- `skey`: an index entry. -/
structure Entry where
  index : ℕ
  value : ScalarKey
  sequence : ℕ
  deriving DecidableEq, Repr

structure RowCountRecord where
  rows : ℕ
  generation : ℕ
  deriving DecidableEq, Repr

structure Row where
  key : String
  document : Document

/-! ## What the trees hold -/

/-- What a commit makes durable, tree by tree, each a map under its keys.  Rows and keys are finite, so
that they can be walked. -/
structure Store where
  nextCollection : ℕ
  catalogs : ℕ → Option Catalog
  schemas : String → Bool
  names : Option String → String → Option ℕ
  next : ℕ → Option ℕ
  rows : Finmap fun _ : EntityId => Row
  mapping : Finmap fun _ : ℕ × String => ℕ
  nextIndex : ℕ
  indexes : ℕ → Option IndexInfo
  indexNames : ℕ → String → Option ℕ
  /-- the entries of the indexes that have no tree of their own -/
  entries : Finset Entry
  /-- the entries reached from a root page of a tree -/
  trees : ℕ → ℕ → Finset Entry
  /-- `ROW_COUNT_FEATURE` -/
  rowCountFeature : Bool
  counts : ℕ → Option RowCountRecord

namespace Store

/-- The numbers of a table's rows. -/
def live (x : Store) (c : ℕ) : Finset ℕ :=
  (x.rows.keys.filter fun id => id.collection = c).image EntityId.sequence

/-- The entries of an index, from the tree its descriptor names. -/
def entriesOf (x : Store) (i : IndexInfo) : Finset Entry :=
  match i.tree with
  | none => x.entries.filter fun e => e.index = i.id
  | some t => if t.root = 0 then ∅ else x.trees t.id t.root

end Store

/-! ## The handle -/

/-- A table's uncommitted count: what its record said, and what was done since. -/
structure Pending where
  base : ℕ
  generation : ℕ
  delta : ℤ
  deriving DecidableEq, Repr

/-- Where a count of a table's rows has got to. -/
structure Backfill where
  collection : ℕ
  after : Option ℕ
  counted : ℕ
  deriving DecidableEq, Repr

/-- What one call takes from the clock, the random source and the pager. -/
structure Call where
  seconds : ℤ
  micros : ℤ
  /-- the text a generator makes for a column -/
  generated : String → String
  /-- the root of a tree once an entry is put into it (`true`) or deleted from it -/
  root : Bool → Entry → ℕ → ℕ+
  /-- `wal_step_spent` after so many deletes of a bounded step -/
  spent : ℕ → Bool

/-- A handle: the working tree, the one a rollback finds, and what is kept in memory between calls, which
has to agree with the tree. -/
structure Database where
  host : Host
  register : Bool
  failed : Bool
  sequence : Option Sequence
  rowIdBlocks : ℕ → Option (ℕ × ℕ)
  rowIdPending : ℕ → Option (ℕ × ℕ)
  userWritesPending : Bool
  indexListCache : Option (ℕ × ℕ × List IndexInfo)
  indexListGeneration : ℕ
  rowCounts : ℕ → Option Pending
  rowCountBackfill : Option Backfill
  /-- the table being dropped -/
  dropping : Option ℕ
  store : Store
  /-- what a rollback or a reopen finds -/
  durable : Store
  /-- history: the tables whose numbers a commit handed out that failed and became durable -/
  uncertain : ℕ → Bool

namespace Database

variable (db : Database)

def setStore (f : Store → Store) : Database := { db with store := f db.store }

/-- A public write begins. -/
def userWrite : Except Error Database := do
  refuse db.failed .failed
  pure { db with userWritesPending := true }

/-- The catalog record, whatever its state. -/
def catalogAny (id : ℕ) : Except Error Catalog := do
  refuse db.failed .failed
  orElse (db.store.catalogs id) (.corrupt (if db.register then s!"table {id} has no TABL entry"
    else "all metadata copies missing or damaged"))

/-- The catalog record of a live table. -/
def catalog (id : ℕ) : Except Error Catalog := do
  let c ← db.catalogAny id
  match c.drop with
  | some d =>
      throw (.invalid (s!"collection `{c.name}` is DROPPING (phase {d.phase.name}, {d.removed} "
        ++ "entries removed): it holds no readable state and accepts no writes; finish it with "
        ++ "drop_collection_step"))
  | none => pure c

/-- The table called `name` in a schema. -/
def collectionIn (schema : Option String) (name : String) : Except Error (Option ℕ) := do
  refuse db.failed .failed
  match db.store.names schema name with
  | none => pure none
  | some id => do
      let c ← db.catalog id
      refuse (c.name ≠ name ∨ c.schema ≠ schema) (.corrupt "collection-name identity")
      pure (some id)

/-! ## Index descriptors -/

def indexInfo (id : ℕ) : Except Error IndexInfo := do
  refuse db.failed .failed
  orElse (db.store.indexes id) (.notFound "index")

/-- The descriptors of a table, whatever its state, in the order of their numbers. -/
def listIndexesAny (c : ℕ) : List IndexInfo :=
  (List.range db.store.nextIndex).filterMap fun n =>
    (db.store.indexes n).filter fun i => i.collection = c

def listIndexes (c : ℕ) : Except Error (List IndexInfo) := do
  let _ ← db.catalog c
  pure (db.listIndexesAny c)

/-- A descriptor or the registry has been written: no list taken before is believed again. -/
def indexDescriptorsChanged : Database :=
  { db with indexListGeneration := db.indexListGeneration + 1, indexListCache := none }

def saveIndex (i : IndexInfo) : Database :=
  db.indexDescriptorsChanged.setStore fun x =>
    { x with indexes := Function.update x.indexes i.id (some i) }

/-- The descriptors of a table are taken out of the cache, or read. -/
def takeIndexList (c : ℕ) : Except Error (List IndexInfo × Database) := do
  let emptied := { db with indexListCache := none }
  match db.indexListCache with
  | some (c', g, list) =>
      if c' = c ∧ g = db.indexListGeneration then pure (list, emptied)
      else do
        let list ← emptied.listIndexes c
        pure (list, emptied)
  | none => do
      let list ← emptied.listIndexes c
      pure (list, emptied)

/-- The list is given back, unless a descriptor changed while it was out. -/
def putIndexList (c generation : ℕ) (list : List IndexInfo) : Database :=
  if db.indexListGeneration = generation then
    { db with indexListCache := some (c, generation, list) }
  else db

/-! ## Index entries -/

/-- A tree holds `s`, and is reached from `root`. -/
def setTree (t : IndexTree) (root : ℕ) (s : Finset Entry) : Database :=
  db.setStore fun x => { x with
    trees := Function.update x.trees t.id
      (Function.update (Function.update (x.trees t.id) t.root ∅) root s) }

/-- An entry of an index is put, or deleted; a root that moves is written into the descriptor. -/
def indexWrite (o : Call) (put : Bool) (i : IndexInfo) (e : Entry) : IndexInfo × Database :=
  let change (s : Finset Entry) := if put then insert e s else s.erase e
  match i.tree with
  | none => (i, db.setStore fun x => { x with entries := change x.entries })
  | some t =>
      let root : ℕ := o.root put e t.root
      let db := db.setTree t root (change (db.store.entriesOf i))
      if root = t.root then (i, db)
      else
        let i := { i with tree := some { t with root } }
        (i, db.saveIndex i)

def indexPut (o : Call) (i : IndexInfo) (e : Entry) : IndexInfo × Database :=
  db.indexWrite o true i e

def indexDelete (o : Call) (i : IndexInfo) (e : Entry) : IndexInfo × Database :=
  -- a tree that is still empty has nothing to delete from
  if i.tree.any fun t => t.root = 0 then (i, db) else db.indexWrite o false i e

/-! ## Row numbers -/

/-- What the handing out of row numbers sees. -/
def ids : Collections.Database where
  register := db.register
  failed := db.failed
  sequence := db.sequence
  rowIdBlocks := db.rowIdBlocks
  rowIdPending := db.rowIdPending
  store := ⟨db.store.nextCollection, db.store.next, fun id => (db.store.rows.lookup id).map Row.key⟩
  durable :=
    ⟨db.durable.nextCollection, db.durable.next, fun id => (db.durable.rows.lookup id).map Row.key⟩
  uncertain := db.uncertain

/-- What the handing out of row numbers changes. -/
def withIds (d : Collections.Database) : Database :=
  { db with
    sequence := d.sequence
    rowIdPending := d.rowIdPending
    store := { db.store with next := d.store.next } }

end Database

/-- An error of the row sequence. -/
def Error.ofIds : Collections.Error → Error
  | .invalid why => .invalid why
  | .corrupt why => .corrupt why
  | .failed => .failed

def Database.allocate (db : Database) (c : ℕ) : Except Error (EntityId × Database) :=
  match db.ids.allocate c with
  | .ok (id, d) => .ok (id, db.withIds d)
  | .error e => .error (.ofIds e)

end Engine
