import Mathlib.Data.String.Basic
import Sekejap.Collections.Entities
import Sekejap.Lib.Scan

/-!
# Creating, building and dropping a scalar index

`create_scalar_index`, `create_expression_index`, `build_index_step`, the runs of `build_sorted_once`
and the two calls that drop an index (`core/engine/src/collections/catalog.rs`).

An index is created BUILDING.  `build_index_step` walks the rows in the order of their numbers, in
bounded batches, and the descriptor keeps how far it got; `build_index_to_ready` sorts the keys of
all rows and puts them in ascending runs, a commit after each.  Either makes it READY with the last
row.  Until then every row write maintains it, on both sides of the cursor.
-/

open Collections (EntityId)

open PageWal (u64Max)

open Fallible

namespace Engine

/-! ## The order of index keys -/

/-- The order of a rank, with the type's own test of equality. -/
abbrev orderOfRank {α β : Type} [LinearOrder β] [DecidableEq α] (rank : α → β)
    (h : Function.Injective rank) : LinearOrder α :=
  { PartialOrder.lift rank h with
    le_total := fun a b => le_total (rank a) (rank b)
    toDecidableEq := inferInstance
    toDecidableLE := fun a b => inferInstanceAs (Decidable (rank a ≤ rank b))
    toDecidableLT := fun a b => inferInstanceAs (Decidable (rank a < rank b)) }

namespace ScalarKey

/-- The order of the encoded keys of one kind; a negative `f64` sorts by its bits downwards. -/
def rank : ScalarKey → ℕ ×ₗ ℤ ×ₗ String
  | null => toLex (0, toLex (0, ""))
  | bool b => toLex (1, toLex (if b then 1 else 0, ""))
  | int n => toLex (2, toLex (n, ""))
  | real bits => toLex (3, toLex (if bits < 2 ^ 63 then bits else 2 ^ 63 - 1 - bits, ""))
  | text s => toLex (4, toLex (0, s))

lemma rank_injective : Function.Injective rank := by
  intro a b h
  cases a <;> cases b <;> simp only [rank, EmbeddingLike.apply_eq_iff_eq, Prod.mk.injEq] at h
  all_goals first
    | rfl
    | omega
    | skip
  · rename_i a b
    cases a <;> cases b <;> simp_all
  · rw [h.2.1]
  · rename_i a b
    have : a = b := by split_ifs at h <;> omega
    rw [this]
  · rw [h.2.2]

end ScalarKey

instance : LinearOrder ScalarKey := orderOfRank ScalarKey.rank ScalarKey.rank_injective

namespace Entry

def rank (e : Entry) : ℕ ×ₗ ScalarKey ×ₗ ℕ := toLex (e.index, toLex (e.value, e.sequence))

lemma rank_injective : Function.Injective rank := by
  rintro ⟨a, b, c⟩ ⟨a', b', c'⟩ h
  simpa [rank] using h

end Entry

instance : LinearOrder Entry := orderOfRank Entry.rank Entry.rank_injective

/-- The whole target a `CREATE INDEX` writes for an expression. -/
def IndexExpr.target (field : String) : IndexExpr → String
  | lower => s!"lower({field})"
  | jsonText member => "(" ++ field ++ "->>'" ++ member ++ "')"

namespace Database

/-! ## Creation -/

/-- `MAX_INDEXES` -/
def maxIndexes : ℕ := 64

/-- `MAX_BATCH` -/
def maxBatch : ℕ := 256

/-- The largest tree number an index may have; a Register file keeps three for itself. -/
def lastTree (register : Bool) : ℕ := if register then 0xFFFD - 1 else 0xFFFF

def nameLength (name : String) : Prop := 1 ≤ name.utf8ByteSize ∧ name.utf8ByteSize ≤ 128

instance (name : String) : Decidable (nameLength name) :=
  inferInstanceAs (Decidable (_ ∧ _))

/-- `create_index_full`, once its caller has found the kind of the keys. -/
def createIndexFull (db : Database) (c : ℕ) (name field : String) (kind : Kind)
    (unique withTree : Bool) (expression : Option IndexExpr) : Except Error (ℕ × Database) := do
  refuse (¬ nameLength name ∨ ¬ nameLength field)
    (.invalid "index name and field require 1..128 UTF-8 bytes")
  refuse (db.store.indexNames c name).isSome .alreadyExists
  let list ← db.listIndexes c
  refuse (maxIndexes ≤ list.length) (.invalid "at most 64 indexes per collection")
  let id := db.store.nextIndex
  refuse (withTree ∧ lastTree db.register < id + 1)
    (.invalid "per-index tree identities exhausted")
  refuse (u64Max < id + 1) (.invalid "index identities exhausted")
  refuse (expression.isSome ∧ !withTree)
    (.invalid "an expression index requires a per-index tree (descriptor version 3 or 4)")
  let i : IndexInfo :=
    { id, collection := c, name, field, kind, unique, state := .building 0
      tree := if withTree then some ⟨id + 1, 0⟩ else none
      expression }
  pure (id, (db.saveIndex i).setStore fun x => { x with
    nextIndex := id + 1
    indexNames := Function.update x.indexNames c
      (Function.update (x.indexNames c) name (some id)) })

/-- The declared kind of a field. -/
def fieldKind (db : Database) (c : ℕ) (field : String) : Except Error Kind := do
  let catalog ← db.catalog c
  orElse (catalog.fields.lookup field) (.invalid "index field must be declared")

def createScalarIndex (db : Database) (c : ℕ) (name field : String) (unique withTree : Bool) :
    Except Error (ℕ × Database) := do
  refuse db.failed .failed
  refuse (¬ nameLength name ∨ ¬ nameLength field)
    (.invalid "index name and field require 1..128 UTF-8 bytes")
  let kind ← db.fieldKind c field
  refuse (kind.isScalar = false) (.invalid "scalar index requires bool/int/real/text")
  db.createIndexFull c name field kind unique withTree none

def wrongSource : IndexExpr → String
  | .lower => "lower(col) is an expression over a TEXT field"
  | .jsonText _ => "col->>'member' is an expression over a JSONB field"

/-- A JSON member an expression may name. -/
def memberLength : IndexExpr → Prop
  | .lower => True
  | .jsonText member => nameLength member

instance : (e : IndexExpr) → Decidable (memberLength e)
  | .lower => inferInstanceAs (Decidable True)
  | .jsonText member => inferInstanceAs (Decidable (nameLength member))

def createExpressionIndex (db : Database) (c : ℕ) (name field : String) (expression : IndexExpr)
    (unique : Bool) : Except Error (ℕ × Database) := do
  refuse db.failed .failed
  refuse (¬ nameLength name ∨ ¬ nameLength field)
    (.invalid "index name and field require 1..128 UTF-8 bytes")
  let kind ← db.fieldKind c field
  refuse (kind ≠ expression.sourceKind) (.invalid (wrongSource expression))
  refuse (¬ memberLength expression) (.invalid "a JSON member name requires 1..128 UTF-8 bytes")
  refuse (expression.storedKind.isScalar = false)
    (.invalid "scalar index requires bool/int/real/text")
  db.createIndexFull c name field expression.storedKind unique true (some expression)

/-! ## Building in batches -/

/-- A key a build cannot hold names the expression when its value is longer than the column's. -/
def expressionTooLong (host : Host) (i : IndexInfo) (doc : Document) (e : Error) : Error :=
  match i.expression with
  | none => e
  | some expression =>
      let bytes (v : Option Value) := ((v.bind Value.asStr).map String.utf8ByteSize).getD 0
      let image := bytes (expression.apply host (doc i.field))
      if bytes (doc i.field) < image then
        .invalid (s!"the expression index over `{expression.target i.field}` derives a value of "
          ++ s!"{image} UTF-8 bytes from this row, and a scalar Text index key holds at most 1024. "
          ++ "There is no shorter key that is still the expression's value. Shorten the value or "
          ++ "drop the expression index")
      else e

/-- `scalar_build_key`: the key of a stored row. -/
def scalarBuildKey (db : Database) (i : IndexInfo) (row : Row) : Except Error ScalarKey :=
  (i.derive db.host row.document).mapError (expressionTooLong db.host i row.document)

/-- The keys of some rows of the table. -/
def buildKeys (db : Database) (i : IndexInfo) : List ℕ → Except Error (List (ℕ × ScalarKey))
  | [] => .ok []
  | seq :: rest => do
      let row ← orElse (db.store.rows.lookup ⟨i.collection, seq⟩) (.corrupt "row")
      let v ← db.scalarBuildKey i row
      let rows ← buildKeys db i rest
      pure ((seq, v) :: rows)

/-- Rows in the order of the keys that are about to be written. -/
def sortRows (rows : List (ℕ × ScalarKey)) : List (ℕ × ScalarKey) :=
  rows.mergeSort fun a b => toLex (a.2, a.1) ≤ toLex (b.2, b.1)

/-- The entries of some rows are checked and put. -/
def buildEntries (db : Database) (o : Call) (i : IndexInfo) :
    List (ℕ × ScalarKey) → Except Error (IndexInfo × Database)
  | [] => .ok (i, db)
  | (seq, v) :: rows => do
      db.checkUnique i v seq
      let (i, db) := db.indexPut o i ⟨i.id, v, seq⟩
      buildEntries db o i rows

/-- One batch of a build, in the order of the row numbers.  The state is saved with the entries, so that a
build goes on where it was committed. -/
def buildIndexStep (db : Database) (o : Call) (id batch : ℕ) : Except Error (Bool × Database) := do
  refuse db.failed .failed
  refuse (batch = 0 ∨ maxBatch < batch) (.invalid "index batch must be 1..256")
  let i ← db.indexInfo id
  match i.state with
  | .ready => pure (true, db)
  | .dropping => throw (.invalid "index is dropping")
  | .building after => do
      let live := db.store.live i.collection
      let taken := Scan.take live batch (some after)
      let rows ← db.buildKeys i taken
      let last := taken.getLast?.getD after
      let ended : Bool := (Scan.next live (some last)).isNone
      let (i, db) ← db.buildEntries o i (sortRows rows)
      let i := { i with state := if ended then .ready else .building last }
      pure (ended, db.saveIndex i)

/-! ## Building from the sorted keys -/

/-- Ascending entries are put; a value that equals the one before it is a duplicate. -/
def putSorted (db : Database) (o : Call) (i : IndexInfo) :
    Option ScalarKey → List (ℕ × ScalarKey) → Except Error (IndexInfo × Database)
  | _, [] => .ok (i, db)
  | previous, (seq, v) :: rows => do
      refuse (i.unique ∧ v ≠ .null ∧ previous = some v) (uniqueViolation i)
      let (i, db) := db.indexPut o i ⟨i.id, v, seq⟩
      putSorted db o i (if v = .null then none else some v) rows

/-- The keys of all rows of the table, in order. -/
def sortedRows (db : Database) (i : IndexInfo) : Except Error (List (ℕ × ScalarKey)) := do
  let rows ← db.buildKeys i ((db.store.live i.collection).sort (· ≤ ·))
  pure (sortRows rows)

/-- **One run of `build_sorted_once`**: the first `n` of the sorted entries are in the index.  A run
ends at a commit, at an entry that is refused, or with the last row, which makes the index READY;
entries of an earlier run are put again. -/
def buildSortedRun (db : Database) (o : Call) (id n : ℕ) : Except Error Database := do
  refuse db.failed .failed
  let i ← db.indexInfo id
  match i.state with
  | .ready => pure db
  | .dropping => throw (.invalid "index is dropping")
  | .building _ => do
      let rows ← db.sortedRows i
      let (i, db) ← db.putSorted o i none (rows.take n)
      if n < rows.length then pure db else pure (db.saveIndex { i with state := .ready })

/-! ## Dropping -/

def beginDropIndex (db : Database) (id : ℕ) : Except Error Database := do
  refuse db.failed .failed
  let i ← db.indexInfo id
  pure (db.saveIndex { i with state := .dropping })

/-- Entries are deleted until the step has spent its share of the log.  `true`: all of them. -/
def deleteEntries (db : Database) (o : Call) (i : IndexInfo) :
    ℕ → List Entry → Bool × IndexInfo × Database
  | _, [] => (true, i, db)
  | n, e :: rest =>
      let (i, db) := db.indexDelete o i e
      if rest ≠ [] ∧ o.spent n then (false, i, db) else deleteEntries db o i (n + 1) rest

/-- The descriptor and its name go. -/
def forgetIndex (db : Database) (i : IndexInfo) : Database :=
  db.indexDescriptorsChanged.setStore fun x => { x with
    indexes := Function.update x.indexes i.id none
    indexNames := Function.update x.indexNames i.collection
      (Function.update (x.indexNames i.collection) i.name none) }

def dropIndexStep (db : Database) (o : Call) (id batch : ℕ) : Except Error (Bool × Database) := do
  refuse db.failed .failed
  refuse (batch = 0 ∨ maxBatch < batch) (.invalid "index batch must be 1..256")
  let i ← db.indexInfo id
  refuse (i.state ≠ .dropping) (.invalid "call begin_drop_index first")
  let entries := db.store.entriesOf i
  let keys := Scan.take entries batch none
  let ended : Bool := keys.length < batch ∨ (Scan.next entries keys.getLast?).isNone
  let (all, i, db) := db.deleteEntries o i 0 keys
  if ended ∧ all then pure (true, db.forgetIndex i) else pure (false, db)

end Database

end Engine
