import Sekejap.Collections.Catalog

/-!
# Row writes

`put`, `insert`, `update` and `delete` of `core/engine/src/collections/mod.rs`, with what they do to
the scalar indexes (`catalog.rs`) and the live row counts (`row_count.rs`), and the candidate writes
of a predicated pass (`write_set.rs`).

Each returns the identity and the handle it leaves, or the refusal.  A storage error inside a write
is not one of these results: it fails the handle, which is a step of its own.
-/

open Collections (EntityId)

open Fallible

namespace Engine

namespace Database

/-! ## Live row counts -/

/-- A table's count is opened for this transaction.  `none`: it has no record. -/
def touchRowCount (db : Database) (c : ℕ) : Option (Pending × Database) :=
  match db.rowCounts c with
  | some p => some (p, db)
  | none =>
      if !db.store.rowCountFeature ∨ db.dropping = some c then none
      else
        (db.store.counts c).map fun r =>
          let p : Pending := ⟨r.rows, r.generation, 0⟩
          (p, { db with rowCounts := Function.update db.rowCounts c (some p) })

/-- `i64::checked_add` on a delta. -/
def checkedDelta (n : ℤ) : Except Error ℤ := do
  refuse (n < -2 ^ 63 ∨ 2 ^ 63 ≤ n) (.invalid "live row count delta overflow")
  pure n

/-- The count of a table moves by `step`. -/
def noteRow (db : Database) (c : ℕ) (step : ℤ) : Except Error Database :=
  match db.touchRowCount c with
  | none => .ok db
  | some (p, db) => do
      let delta ← checkedDelta (p.delta + step)
      pure { db with rowCounts := Function.update db.rowCounts c (some { p with delta }) }

def noteRowInserted (db : Database) (c : ℕ) : Except Error Database := db.noteRow c 1

/-- A backfill that has counted the row takes it back. -/
def uncount (b : Backfill) (id : EntityId) : Backfill :=
  if b.collection = id.collection ∧ b.after.any fun after => id.sequence ≤ after then
    { b with counted := b.counted - 1 }
  else b

def noteRowRemoved (db : Database) (id : EntityId) : Except Error Database :=
  noteRow { db with rowCountBackfill := db.rowCountBackfill.map fun b => uncount b id }
    id.collection (-1)

/-! ## Scalar index maintenance -/

def uniqueViolation (i : IndexInfo) : Error :=
  .constraint "23505"
    s!"duplicate key value violates unique constraint `{i.name}`: Key ({i.field}) already exists"

/-- No other row has the key. -/
def checkUnique (db : Database) (i : IndexInfo) (v : ScalarKey) (seq : ℕ) : Except Error Unit :=
  if i.unique ∧ v ≠ .null then
    refuse (∃ e ∈ db.store.entriesOf i, e.index = i.id ∧ e.value = v ∧ e.sequence ≠ seq)
      (uniqueViolation i)
  else .ok ()

/-- A new value too long for a text key names the column, the index and the two ways out. -/
def tooLong (i : IndexInfo) : Error → Error
  | .invalid why =>
      if why = "scalar Text index value exceeds 1024 UTF-8 bytes" then
        .invalid (s!"`{i.field}` is longer than 1024 UTF-8 bytes, which the btree index `{i.name}` "
          ++ "over it cannot hold as a key. A column holding long text (a bio, a description) needs "
          ++ s!"no btree: `DROP INDEX {i.name}`, or leave the column out of the automatic indexes "
          ++ "with `CREATE TABLE ... WITH (index: [...])`")
      else .invalid why
  | e => e

/-- The key of a document that may be absent. -/
def deriveOption (db : Database) (i : IndexInfo) (doc : Option Document) :
    Except Error (Option ScalarKey) :=
  match doc with
  | none => .ok none
  | some d => do
      let v ← i.derive db.host d
      pure (some v)

/-- The old entry of a row goes. -/
def deleteKey (db : Database) (o : Call) (i : IndexInfo) (seq : ℕ) :
    Option ScalarKey → IndexInfo × Database
  | some v => db.indexDelete o i ⟨i.id, v, seq⟩
  | none => (i, db)

/-- The new entry of a row comes. -/
def putKey (db : Database) (o : Call) (i : IndexInfo) (seq : ℕ) :
    Option ScalarKey → IndexInfo × Database
  | some v => db.indexPut o i ⟨i.id, v, seq⟩
  | none => (i, db)

def replaceEntry (db : Database) (o : Call) (i : IndexInfo) (seq : ℕ) (a b : Option ScalarKey) :
    IndexInfo × Database :=
  let (i, db) := db.deleteKey o i seq a
  db.putKey o i seq b

/-- One index follows one row. -/
def maintainIndex (db : Database) (o : Call) (i : IndexInfo) (seq : ℕ)
    (old new : Option Document) : Except Error (IndexInfo × Database) := do
  if i.state = .dropping then pure (i, db)
  else
    let a ← db.deriveOption i old
    let b ← (db.deriveOption i new).mapError (tooLong i)
    if a = b then pure (i, db)
    else
      match b with
      | some v => do
          db.checkUnique i v seq
          pure (db.replaceEntry o i seq a b)
      | none => pure (db.replaceEntry o i seq a b)

/-- Every index of a list follows one row. -/
def maintainList (db : Database) (o : Call) (seq : ℕ) (old new : Option Document) :
    List IndexInfo → Except Error (List IndexInfo × Database)
  | [] => .ok ([], db)
  | i :: list => do
      let (i, db) ← db.maintainIndex o i seq old new
      let (list, db) ← maintainList db o seq old new list
      pure (i :: list, db)

def maintainIndexes (db : Database) (o : Call) (id : EntityId) (old new : Option Document) :
    Except Error Database := do
  let generation := db.indexListGeneration
  let (list, db) ← db.takeIndexList id.collection
  let (list, db) ← db.maintainList o id.sequence old new list
  pure (db.putIndexList id.collection generation list)

/-! ## Documents on the way in -/

/-- `KEY_FIELD` -/
def keyField : String := "__e4_key"

def created : String := "_created_unix"

def updated : String := "_updated_unix"

/-- A name a caller may not write. -/
def reserved (name : String) : Bool :=
  name = keyField ∨ name = "_id" ∨ name = "_key" ∨ name = "_collection"

def refuseRowInEdgeTable (c : Catalog) : Except Error Unit :=
  refuse c.edge (.invalid (s!"`{c.name}` is an edge table: it holds edges, written with "
    ++ s!"`INSERT INTO {c.name}`, never a row"))

def validateDocument (c : Catalog) (key : String) (fields : List (String × Value)) :
    Except Error Unit := do
  refuse (key.utf8ByteSize = 0 ∨ 1024 < key.utf8ByteSize)
    (.invalid "external key must contain 1..1024 UTF-8 bytes")
  refuse (fields.any fun f => reserved f.1 ∨ (c.timestamps ∧ (f.1 = created ∨ f.1 = updated)))
    (.invalid "caller supplied managed/reserved field")

/-- The members of an object that is given by a list of them. -/
def ofFields (fields : List (String × Value)) : Document := fun name => fields.lookup name

/-- The members of a patch, over a document. -/
def merge (doc : Document) (patch : List (String × Value)) : Document := fun name =>
  (patch.lookup name).or (doc name)

def intField (doc : Document) (name why : String) : Except Error ℤ :=
  orElse ((doc name).bind Value.asI64) (.corrupt why)

/-- The managed timestamps of a row. -/
def stamp (o : Call) (c : Catalog) (old : Option Document) (doc : Document) :
    Except Error Document :=
  if c.timestamps then do
    refuse (o.seconds < 0) (.invalid "clock predates Unix epoch")
    let createdAt ← match old with
      | none => pure o.seconds
      | some d => intField d created "managed creation time"
    let previous ← match old with
      | none => pure o.seconds
      | some d => intField d updated "managed update time"
    pure (Function.update (Function.update doc created (some (.number (.int createdAt))))
      updated (some (.number (.int (max (max o.seconds createdAt) previous)))))
  else pure doc

/-- What a generator makes for a column. -/
def generate (o : Call) (field : String) : DefaultValue → Value
  | .const v => v
  | .now => .number (.int o.micros)
  | .uuid4 | .uuid5 | .ulid => .string (o.generated field)

/-- The defaults of the missing fields. -/
def applyDefaults (o : Call) (rules : List (String × ColumnRule)) (doc : Document) : Document :=
  rules.foldl (fun doc rule =>
    match rule.2.default, doc rule.1 with
    | some g, none => Function.update doc rule.1 (some (generate o rule.1 g))
    | _, _ => doc) doc

/-- The first `NOT NULL` column a document leaves missing or null. -/
def notNullViolation (c : Catalog) (doc : Document) : Option Error :=
  c.rules.findSome? fun rule =>
    let refusal (why : String) : Error := .constraint "23502"
      (s!"null value in column \"{rule.1}\" of relation \"{c.name}\" violates not-null "
        ++ s!"constraint: {why}; a NOT NULL column refuses a MISSING field and a NULL one alike")
    if rule.2.notNull then
      match doc rule.1 with
      | none => some (refusal "the row does not carry it")
      | some .null => some (refusal "the row writes NULL")
      | some _ => none
    else none

def applyColumnRules (o : Call) (c : Catalog) (doc : Document) : Except Error Document :=
  let doc := applyDefaults o c.rules doc
  match notNullViolation c doc with
  | some e => .error e
  | none => .ok doc

def foreignKeyViolation (c : Catalog) (field why : String) : Error :=
  .constraint "23503" (s!"insert or update on table \"{c.name}\" violates foreign key on column "
    ++ s!"\"{field}\": {why}")

/-- One column that names a row of another table. -/
def applyForeignKey (db : Database) (c : Catalog) (doc : Document) (field : String)
    (rule : ColumnRule) : Except Error Unit :=
  match rule.references, doc field with
  | some target, some v =>
      if v.isNull then .ok ()
      else do
        let key ← orElse v.asStr (foreignKeyViolation c field
          "a foreign key names a row by its external key, which is TEXT")
        let found ← db.collectionIn c.schema target
        let t ← orElse found (foreignKeyViolation c field
          s!"the referenced table \"{target}\" does not exist")
        refuse ((db.store.mapping.lookup (t, key)).isNone) (foreignKeyViolation c field
          s!"key ({field})=({key}) is not present in table \"{target}\"")
  | _, _ => .ok ()

def applyForeignKeys (db : Database) (c : Catalog) (doc : Document) :
    List (String × ColumnRule) → Except Error Unit
  | [] => .ok ()
  | (field, rule) :: rules => do
      db.applyForeignKey c doc field rule
      applyForeignKeys db c doc rules

/-! ## Reads -/

/-- The row at an external key. -/
def loadEntity (db : Database) (c : ℕ) (key : String) : Except Error (Option (EntityId × Row)) := do
  let _ ← db.catalog c
  match db.store.mapping.lookup (c, key) with
  | none => pure none
  | some sequence => do
      refuse (sequence = 0) (.corrupt "external-key mapping")
      let id : EntityId := ⟨c, sequence⟩
      let row ← orElse (db.store.rows.lookup id) (.corrupt "external key points to missing entity")
      refuse (row.key ≠ key) (.corrupt "external-key identity mismatch")
      pure (some (id, row))

/-- The row at an identity, for a write that was given it. -/
def loadCandidate (db : Database) (c : ℕ) (id : EntityId) : Except Error (Option Row) := do
  refuse (id.collection ≠ c) (.invalid "write candidate belongs to another collection")
  refuse db.failed .failed
  pure (db.store.rows.lookup id)

/-! ## Writes -/

/-- A row is put under its identity. -/
def putRow (db : Database) (id : EntityId) (row : Row) : Database :=
  db.setStore fun x => { x with rows := x.rows.insert id row }

/-- A row written where none was: its key is mapped, and it is counted. -/
def finishInsert (db : Database) (id : EntityId) (row : Row) : Except Error Database :=
  ((db.putRow id row).setStore fun x =>
    { x with mapping := x.mapping.insert (id.collection, row.key) id.sequence }).noteRowInserted
      id.collection

/-- The document of a row, once the table's rules have been applied to it. -/
def prepare (db : Database) (o : Call) (c : Catalog) (doc : Document) (old : Option Document) :
    Except Error Document := do
  let doc ← stamp o c old doc
  if c.rules.isEmpty then pure doc
  else
    let doc ← applyColumnRules o c doc
    db.applyForeignKeys c doc c.rules
    pure doc

/-- The document is completed and checked, the indexes are told, and the row is put: under the number it
has, or a new one. -/
def writeEntity (db : Database) (o : Call) (c : Catalog) (key : String) (doc : Document)
    (old : Option (EntityId × Row)) : Except Error (EntityId × Database) := do
  let doc ← db.prepare o c doc (old.map fun e => e.2.document)
  let stored ← encodeDense db.host c.fields doc
  match old with
  | some (id, e) => do
      let db ← db.maintainIndexes o id (some e.document) (some doc)
      pure (id, db.putRow id ⟨key, stored⟩)
  | none => do
      let (id, db) ← db.allocate c.id
      let db ← db.maintainIndexes o id none (some doc)
      let db ← db.finishInsert id ⟨key, stored⟩
      pure (id, db)

def put (db : Database) (o : Call) (c : ℕ) (key : String) (fields : List (String × Value)) :
    Except Error (EntityId × Database) := do
  let db ← db.userWrite
  let catalog ← db.catalog c
  refuseRowInEdgeTable catalog
  validateDocument catalog key fields
  let old ← db.loadEntity c key
  db.writeEntity o catalog key (ofFields fields) old

def insert (db : Database) (o : Call) (c : ℕ) (key : String) (fields : List (String × Value)) :
    Except Error (EntityId × Database) := do
  let db ← db.userWrite
  let catalog ← db.catalog c
  refuseRowInEdgeTable catalog
  validateDocument catalog key fields
  let old ← db.loadEntity c key
  refuse old.isSome (.constraint "23505" (s!"duplicate key value violates the primary key of "
    ++ s!"`{catalog.name}`: Key (_key)=({key}) already exists"))
  db.writeEntity o catalog key (ofFields fields) none

def update (db : Database) (o : Call) (c : ℕ) (key : String) (patch : List (String × Value)) :
    Except Error (EntityId × Database) := do
  let db ← db.userWrite
  let catalog ← db.catalog c
  refuseRowInEdgeTable catalog
  validateDocument catalog key patch
  let old ← db.loadEntity c key
  let (id, row) ← orElse old (.notFound "entity")
  db.writeEntity o catalog key (merge row.document patch) (some (id, row))

/-- The index a foreign key's RESTRICT check seeks. -/
def scalarIndexOn (list : List IndexInfo) (field : String) : Option IndexInfo :=
  list.find? fun i => i.field = field ∧ i.expression.isNone

/-- The column of one table that holds `key` in a foreign key to table `c`. -/
def referencingColumn (db : Database) (c : ℕ) (key : ScalarKey) (t : Catalog)
    (indexes : List IndexInfo) : List (String × ColumnRule) → Except Error (Option String)
  | [] => .ok none
  | (field, rule) :: rules =>
      match rule.references with
      | none => referencingColumn db c key t indexes rules
      | some target => do
          let found ← db.collectionIn t.schema target
          if found = some c then
            let i ← orElse (scalarIndexOn indexes field)
              (.invalid (s!"the foreign key `{field}` of `{t.name}` has no scalar index to seek; "
                ++ "its delete-RESTRICT check needs one"))
            if ∃ e ∈ db.store.entriesOf i, e.index = i.id ∧ e.value = key then pure (some field)
            else referencingColumn db c key t indexes rules
          else referencingColumn db c key t indexes rules

/-- The first of some tables with a column that holds `key` in a foreign key to table `c`. -/
def referencingTable (db : Database) (c : ℕ) (key : ScalarKey) :
    List Catalog → Except Error (Option (String × String))
  | [] => .ok none
  | t :: tables => do
      let id ← db.collectionIn t.schema t.name
      match id with
      | none => referencingTable db c key tables
      | some id => do
          let t ← db.catalog id
          if t.rules.all fun rule => rule.2.references.isNone then referencingTable db c key tables
          else
            let indexes ← db.listIndexes id
            let column ← db.referencingColumn c key t indexes t.rules
            match column with
            | some field => pure (some (t.name, field))
            | none => referencingTable db c key tables

/-- Every table that has a name. -/
def tables (db : Database) : List Catalog :=
  (List.range db.store.nextCollection).filterMap db.store.catalogs

/-- The first row that holds `key` in a foreign key to table `c`. -/
def referencingRow (db : Database) (c : ℕ) (key : String) :
    Except Error (Option (String × String)) := do
  let encoded ← ScalarKey.encode .text (some (.string key))
  db.referencingTable c encoded db.tables

/-- A row goes, with its entries and its mapping. -/
def removeRow (db : Database) (o : Call) (id : EntityId) (row : Row) : Except Error Database := do
  let db ← db.maintainIndexes o id (some row.document) none
  (db.setStore fun x => { x with
    rows := x.rows.erase id
    mapping := x.mapping.erase (id.collection, row.key) }).noteRowRemoved id

/-- The row goes with its entries, unless a row of another table names it. -/
def delete (db : Database) (o : Call) (c : ℕ) (key : String) : Except Error (Bool × Database) := do
  let db ← db.userWrite
  let found ← db.loadEntity c key
  match found with
  | none => pure (false, db)
  | some (id, row) => do
      let catalog ← db.catalog c
      let referencing ← db.referencingRow c key
      match referencing with
      | some (table, column) =>
          throw (.constraint "23503" (s!"delete on table \"{catalog.name}\" violates foreign key: "
            ++ s!"the row keyed \"{key}\" is still referenced by column \"{column}\" of table "
            ++ s!"\"{table}\""))
      | none => do
          let db ← db.removeRow o id row
          pure (true, db)

/-- One candidate of a predicated delete, once its graph edges allow it. -/
def deleteCandidate (db : Database) (o : Call) (c : ℕ) (id : EntityId) :
    Except Error (Bool × Database) := do
  let db ← db.userWrite
  let found ← db.loadCandidate c id
  match found with
  | none => pure (false, db)
  | some row => do
      let db ← db.removeRow o id row
      pure (true, db)

/-- One candidate of a predicated update; `patch` is what its expressions make of the row. -/
def updateCandidate (db : Database) (o : Call) (c : ℕ) (id : EntityId)
    (patch : Document → Except Error (List (String × Value))) : Except Error (Bool × Database) := do
  let db ← db.userWrite
  let catalog ← db.catalog c
  let found ← db.loadCandidate c id
  match found with
  | none => pure (false, db)
  | some row => do
      let new ← patch row.document
      let (_, db) ← db.writeEntity o catalog row.key (merge row.document new) (some (id, row))
      pure (true, db)

/-- The candidates of a page, one after another. -/
def writeCandidates (write : Database → Call → EntityId → Except Error (Bool × Database)) :
    Database → List (Call × EntityId) → Except Error Database
  | db, [] => .ok db
  | db, (o, id) :: rest => do
      let (_, db) ← write db o id
      writeCandidates write db rest

/-- A page of `delete_where`: the query has found its candidates in a live table. -/
def deletePage (db : Database) (c : ℕ) (page : List (Call × EntityId)) : Except Error Database := do
  let _ ← db.catalog c
  writeCandidates (fun db o id => db.deleteCandidate o c id) db page

/-- A page of `update_where`. -/
def updatePage (db : Database) (c : ℕ) (patch : Document → Except Error (List (String × Value)))
    (page : List (Call × EntityId)) : Except Error Database := do
  let _ ← db.catalog c
  writeCandidates (fun db o id => db.updateCandidate o c id patch) db page

end Database

end Engine
