import Sekejap.Collections.Lifecycle
import Sekejap.Graph.Writes

/-!
# The graph of a database

The endpoint sets of a file whose edges predate them (`backfill_endpoint_sets`), the two ways
`edge_endpoints` answers, what the row deletes and the drop of a table do to the edges, and `commit`,
`rollback` and a reopen (`core/engine/src/index/graph/endpoints.rs`,
`core/engine/src/collections/drop_collection.rs`, `mod.rs`); and the runs a handle makes of these.

A binary from before the endpoint sets writes edges and keeps no set; it does not open a file that
declares them.
-/

open Collections (EntityId)

open Fallible

namespace Engine.Graph

namespace Database

variable (db : Database)

/-! ## Building the sets -/

structure EndpointProgress where
  done : Bool
  edgesSeen : ℕ
  keysWritten : ℕ
  totalEdgesSeen : ℕ
  totalKeysWritten : ℕ
  deriving DecidableEq, Repr

/-- Every edge of a step has a type and a context that were handed out. -/
def validateStored (h : GraphHeader) : List EdgeId → Except Error Unit
  | [] => .ok ()
  | e :: rest => do
      validateStoredEdgeIds h e.key
      validateStored h rest

/-- The keys of at most `budget` edges past the cursor are put; the bit rides the last step. -/
def backfillEndpointSets (budget : ℕ) : Except Error (EndpointProgress × Database) := do
  db.readyWrite
  if db.graph.endpointFeature then pure (⟨true, 0, 0, 0, 0⟩, db)
  else
    match db.graph.header with
    -- no graph, and a complete set: there is no key for the bit to ride
    | none => pure (⟨true, 0, 0, 0, 0⟩, db)
    | some h => do
        let budget := max budget 1
        let taken := Scan.take db.graph.primary.keys budget db.endpointBackfillAt
        validateStored h taken
        let keys := (taken.flatMap fun e => e.key.ends).toFinset
        let seen := db.endpointBackfillSeen + taken.length
        let written := db.endpointBackfillWritten + keys.card
        let graph := { db.graph with endpoints := db.graph.endpoints ∪ keys }
        if taken.length < budget then
          pure (⟨true, taken.length, keys.card, seen, written⟩, { db with
            graph := { graph with endpointFeature := true }
            endpointState := some true
            endpointBackfillAt := none
            endpointBackfillSeen := 0
            endpointBackfillWritten := 0 })
        else
          pure (⟨false, taken.length, keys.card, seen, written⟩, { db with
            graph
            endpointBackfillAt := taken.getLast?
            endpointBackfillSeen := seen
            endpointBackfillWritten := written })

end Database

/-! ## Reading them -/

/-- What a bounded read runs out of. -/
inductive Exceeded where
  | graphEdges (limit attempted : ℕ)
  | graphVisited (limit attempted : ℕ)
  deriving DecidableEq, Repr

/-- A posting of a direction as an edge whose source is its near end. -/
def EdgeId.toward (d : Dir) (e : EdgeId) : EdgeId :=
  match d with
  | .out => e
  | .into => ⟨⟨e.key.destination, e.key.context, e.key.edgeType, e.key.source⟩, e.id⟩

/-- The walk over the postings that are left, `edges` of them passed, `found` in `out`.  After a match
it seeks past every posting of the entity. -/
def walkEndpoints (context edgeType maxEdges maxIds : ℕ) :
    ℕ → Finset EdgeId → ℕ → List EntityId → Except Exceeded (List EntityId)
  | 0, _, _, out => .ok out
  | fuel + 1, postings, edges, out =>
      match Scan.next postings none with
      | none => .ok out
      | some e => do
          refuse (maxEdges < edges + 1) (.graphEdges maxEdges (edges + 1))
          if e.key.context ≠ context ∨ e.key.edgeType ≠ edgeType then
            walkEndpoints context edgeType maxEdges maxIds fuel (postings.filter fun x => e < x)
              (edges + 1) out
          else do
            refuse (maxIds < out.length + 1) (.graphVisited maxIds (out.length + 1))
            walkEndpoints context edgeType maxEdges maxIds fuel
              (postings.filter fun x => e.key.source < x.key.source) (edges + 1) (out ++ [e.key.source])

namespace Database

variable (db : Database)

/-- The postings of a table in a direction, near end first. -/
def stretch (c : ℕ) (d : Dir) : Finset EdgeId :=
  ((db.graph.postings d).image (EdgeId.toward d)).filter fun e => e.key.source.collection = c

/-- `edge_endpoints` by the edges. -/
def endpointsByWalk (c context edgeType : ℕ) (d : Dir) (maxEdges maxIds : ℕ) :
    Except Exceeded (List EntityId) := do
  let postings := db.stretch c d
  let out ← walkEndpoints context edgeType maxEdges maxIds postings.card postings 0 []
  pure (ascending out.toFinset)

/-- `endpoints_from_set` -/
def endpointsFromSet (c context edgeType : ℕ) (d : Dir) (maxIds : ℕ) :
    Except Exceeded (List EntityId) := do
  let keys := db.graph.endpoints.filter fun k =>
    k.context = context ∧ k.edgeType = edgeType ∧ k.dir = d ∧ k.entity.collection = c
  let out := (ascending keys).map EndpointKey.entity
  refuse (maxIds < out.length) (.graphVisited maxIds (maxIds + 1))
  pure out

/-- `edge_endpoints`: every entity of a table with an edge of a (context, type, direction). -/
def edgeEndpoints (c context edgeType : ℕ) (d : Dir) (maxEdges maxIds : ℕ) :
    Except Exceeded (List EntityId) :=
  if db.graph.endpointFeature then db.endpointsFromSet c context edgeType d maxIds
  else db.endpointsByWalk c context edgeType d maxEdges maxIds

/-! ## Rows -/

def put (o : Call) (c : ℕ) (key : String) (fields : List (String × Value)) :
    Except Error (EntityId × Database) := do
  let isNew := (db.tables.store.mapping.lookup (c, key)).isNone
  let (id, tables) ← db.tables.put o c key fields
  let db := { db with tables }
  pure (id, if isNew then db.noteAllocated id else db)

def insert (o : Call) (c : ℕ) (key : String) (fields : List (String × Value)) :
    Except Error (EntityId × Database) := do
  let (id, tables) ← db.tables.insert o c key fields
  pure (id, { db with tables }.noteAllocated id)

/-- A row has gone from its table, and its edges go with it. -/
def forgetRow (id : EntityId) : Except Error Database := do
  let db ← db.cascadeGraphDelete id
  pure (db.noteDeleted id)

def delete (o : Call) (c : ℕ) (key : String) : Except Error (Bool × Database) := do
  let found := db.tables.store.mapping.lookup (c, key)
  let (removed, tables) ← db.tables.delete o c key
  match found with
  | some sequence => do
      let db ← { db with tables }.forgetRow ⟨c, sequence⟩
      pure (removed, db)
  | none => pure (removed, { db with tables })

/-- An entity has an edge. -/
def hasEdge (id : EntityId) : Bool :=
  db.graph.header.isSome ∧ (db.graph.incident .out id ≠ ∅ ∨ db.graph.incident .into id ≠ ∅)

def deleteCandidate (o : Call) (c : ℕ) (id : EntityId) (mode : DropMode) :
    Except Error (Bool × Database) := do
  let (removed, tables) ← db.tables.deleteCandidate o c id
  if removed then do
    refuse (mode = .restrict ∧ db.hasEdge id)
      (.invalid "RESTRICT: row cannot be deleted while graph edges reference it")
    let db ← { db with tables }.forgetRow id
    pure (true, db)
  else pure (false, { db with tables })

def deleteCandidates (c : ℕ) (mode : DropMode) :
    Database → List (Call × EntityId) → Except Error Database
  | db, [] => .ok db
  | db, (o, id) :: rest => do
      let (_, db) ← db.deleteCandidate o c id mode
      deleteCandidates c mode db rest

/-- A page of `delete_where`. -/
def deletePage (c : ℕ) (mode : DropMode) (page : List (Call × EntityId)) : Except Error Database := do
  let _ ← db.tables.catalog c
  deleteCandidates c mode db page

/-! ## Dropping a table -/

/-- A row of a table has an edge: what `collection_edge_contexts` finds. -/
def collectionHasEdge (c : ℕ) : Bool :=
  db.graph.header.isSome ∧ ((∃ e ∈ db.graph.primary.keys, e.key.source.collection = c)
    ∨ ∃ e ∈ db.graph.reverse.keys, e.key.destination.collection = c)

/-- The mark a drop begins with.  The commits on both sides of it are steps of their own. -/
def beginDropCollectionMode (c : ℕ) (mode : DropMode) : Except Error Database := do
  let tables ← db.tables.beginDropCollection c
  refuse (mode = .restrict ∧ db.collectionHasEdge c)
    (.invalid "RESTRICT: table cannot be dropped while graph edges reference its rows")
  pure { db with tables, graph := { db.graph with dropMode := mode } }

/-- The rows a step of a drop removes, one after another. -/
def dropRows : Database → List EntityId → Except Error Database
  | db, [] => .ok db
  | db, id :: rest => do
      let db ← if db.graph.dropMode = .cascade then db.cascadeGraphDelete id else pure db
      dropRows (db.noteDeleted id) rest

/-- `DROP_PROBE_SEEKS` -/
def dropProbeSeeks : ℕ := 4096

/-- The (context, type, direction) runs of the endpoint keys, in order. -/
def endpointRuns : List (ℕ ×ₗ ℕ ×ₗ ℕ) :=
  ascending (db.graph.endpoints.image fun k => toLex (k.context, toLex (k.edgeType, k.dir.byte)))

/-- Whether an endpoint key names a row of a table, and whether the probe gave up. -/
def collectionHasEndpointKey (c : ℕ) : Bool × Bool :=
  if db.graph.endpointFeature then
    let probed := db.endpointRuns.take dropProbeSeeks
    if ∃ k ∈ db.graph.endpoints, k.entity.collection = c
        ∧ toLex (k.context, toLex (k.edgeType, k.dir.byte)) ∈ probed then (true, false)
    else (false, decide (dropProbeSeeks ≤ db.endpointRuns.length))
  else (false, false)

/-- The graph's share of the emptiness a drop proves before its descriptor goes. -/
def proveEmpty (c : ℕ) : Except Error Unit := do
  refuse (∃ e ∈ db.graph.primary.keys, e.key.source.collection = c)
    (.corrupt "drop reached its last step with its outgoing graph edges keyspace not empty")
  refuse (∃ e ∈ db.graph.reverse.keys, e.key.destination.collection = c)
    (.corrupt "drop reached its last step with its incoming graph edges keyspace not empty")
  let (found, truncated) := db.collectionHasEndpointKey c
  refuse found
    (.corrupt "drop reached its last step with its graph endpoint-set keyspace not empty")
  refuse truncated (.invalid ("drop cannot prove its graph endpoint-set keyspace empty: more than "
    ++ "4096 distinct (context, edge type, direction) runs"))

def dropCollectionStep (o : Call) (c budget : ℕ) : Except Error (Bool × Database) := do
  let (done, tables) ← db.tables.dropCollectionStep o c budget
  let gone := ascending (db.tables.store.live c \ tables.store.live c)
  let db ← dropRows { db with tables } (gone.map fun seq => ⟨c, seq⟩)
  if done then do
    db.proveEmpty c
    pure (true, { db with allocated := Function.update db.allocated c none })
  else pure (false, db)

/-! ## Edge tables -/

/-- A new edge type is an edge table's. -/
def bindEdgeTable (label table : String) : Except Error (ℕ × Database) := do
  let db ← db.enableGraph
  validateNameInput .edgeType label
  refuse (db.graph.names .edgeType label).isSome (.invalid (s!"edge type `{label}` already exists: an "
    ++ "edge table's label must be new, because edges written without its types and key cannot be "
    ++ "adopted"))
  let (t, db) ← db.createGraphName .edgeType label
  pure (t, db.setGraph fun g => { g with bound := Function.update g.bound t (some table) })

/-- An edge table's write, once it has checked types and key. -/
def putEdgeTyped (k : EdgeKey) (properties : Json) : Except Error (EdgeKey × Database) := do
  let db ← db.userWrite
  db.putEdgeInner k properties

/-! ## Transactions -/

/-- The allocator is written once a commit, beside the ids it handed out. -/
def flushEdgeIdAllocator : Except Error Database :=
  if db.edgeIdDirty then do
    let next ← orElse db.edgeIdNext (.corrupt "edge-id allocator marked dirty without a value")
    let stored := if db.tables.register then (db.edgeIdBlock.map Prod.snd).getD next else next
    pure { db with
      graph := { db.graph with edgeIds := some stored }
      edgeIdDirty := false
      edgeIdNext := none }
  else .ok { db with edgeIdNext := none }

/-- A commit that returns. -/
def commit : Except Error Database := do
  let tables ← db.tables.commit
  let db ← { db with endpointWritten := ∅ }.flushEdgeIdAllocator
  pure { db with tables, durable := db.graph }

/-- A commit that fails after it became durable. -/
def commitUncertain : Except Error Database := do
  let tables ← db.tables.commitUncertain
  let db ← { db with endpointWritten := ∅ }.flushEdgeIdAllocator
  pure { db with tables, durable := db.graph }

end Database

/-- A binary opens the file.  A key of a set without the bit is damage; a bit it does not know is
refused. -/
def Keyspaces.validateFeatures (g : Keyspaces) (keepsSets : Bool) : Except Error Unit :=
  if keepsSets then
    refuse (g.endpointFeature = false ∧ g.endpoints ≠ ∅)
      (.corrupt "graph endpoint sets exist without the endpoint feature")
  else refuse g.endpointFeature (.invalid "unsupported logical features")

namespace Database

/-- A new handle on the files. -/
def openStore (tables : Engine.Database) (keepsSets : Bool) (recordLimit : Option ℕ) (g : Keyspaces) :
    Database where
  tables := tables
  keepsSets := keepsSets
  recordLimit := recordLimit
  graph := g
  durable := g
  edgeIdNext := none
  edgeIdBlock := none
  edgeIdDirty := false
  allocated := fun _ => none
  endpointState := none
  endpointWritten := ∅
  endpointBackfillAt := none
  endpointBackfillSeen := 0
  endpointBackfillWritten := 0

variable (db : Database)

/-- Everything the handle knew is forgotten; the files are admitted again. -/
def rollback : Except Error Database := do
  db.durable.validateFeatures db.keepsSets
  pure (openStore db.tables.rollback db.keepsSets db.recordLimit db.durable)

def reopen (keepsSets : Bool) : Except Error Database := do
  db.durable.validateFeatures keepsSets
  pure (openStore db.tables.reopen keepsSets db.recordLimit db.durable)

def create (host : Host) (register keepsSets : Bool) (recordLimit : Option ℕ) : Database :=
  openStore (Engine.Database.create host register) keepsSets recordLimit .empty

end Database

/-! ## Runs -/

/-- What a caller asks of a handle. -/
inductive Request where
  /-- of its tables: row deletes by a page, and drops, have their own below -/
  | tables (r : Engine.Request)
  | deletePage (c : ℕ) (mode : DropMode) (page : List (Call × EntityId))
  | beginDropCollection (c : ℕ) (mode : DropMode)
  | enableGraph
  | createGraphName (kind : NameKind) (name : String)
  | bindEdgeTable (label table : String)
  | putEdge (k : EdgeKey) (properties : Json)
  | linkMany (context edgeType : ℕ) (edges : List NewEdge)
  | link (source : EntityId) (edgeType : String) (destination : EntityId) (context : String)
      (properties : Json)
  | createEdge (k : EdgeKey) (properties : Json)
  | updateEdgeProperties (e : EdgeId) (properties : Json)
  | deleteEdge (k : EdgeKey)
  | deleteEdgeById (e : EdgeId)
  | unlink (source : EntityId) (edgeType : String) (destination : EntityId) (context : String)
  /-- what the writes of an edge table come down to -/
  | putEdgeTyped (k : EdgeKey) (properties : Json)
  | createEdgeTyped (k : EdgeKey) (properties : Json)
  | writeEdgeBag (e : EdgeId) (properties : Json)
  | backfillEndpointSets (budget : ℕ)

namespace Database

variable (db : Database)

/-- A request of the tables. -/
def callTables : Engine.Request → Except Error Database
  | .put o c key fields => Prod.snd <$> db.put o c key fields
  | .insert o c key fields => Prod.snd <$> db.insert o c key fields
  | .delete o c key => Prod.snd <$> db.delete o c key
  | .deletePage c page => db.deletePage c .cascade page
  | .beginDropCollection c => db.beginDropCollectionMode c .restrict
  | .dropCollectionStep o c budget => Prod.snd <$> db.dropCollectionStep o c budget
  | .commit => db.commit
  | r => do
      let tables ← db.tables.call r
      pure { db with tables }

/-- The handle a request leaves when it returns. -/
def call : Request → Except Error Database
  | .tables r => db.callTables r
  | .deletePage c mode page => db.deletePage c mode page
  | .beginDropCollection c mode => db.beginDropCollectionMode c mode
  | .enableGraph => db.enableGraph
  | .createGraphName kind name => Prod.snd <$> db.createGraphName kind name
  | .bindEdgeTable label table => Prod.snd <$> db.bindEdgeTable label table
  | .putEdge k properties => Prod.snd <$> db.putEdge k properties
  | .linkMany context edgeType edges => Prod.snd <$> db.linkMany context edgeType edges
  | .link source edgeType destination context properties =>
      Prod.snd <$> db.link source edgeType destination context properties
  | .createEdge k properties => Prod.snd <$> db.createEdge k properties
  | .updateEdgeProperties e properties => Prod.snd <$> db.updateEdgeProperties e properties
  | .deleteEdge k => Prod.snd <$> db.deleteEdge k
  | .deleteEdgeById e => Prod.snd <$> db.deleteEdgeById e
  | .unlink source edgeType destination context =>
      Prod.snd <$> db.unlink source edgeType destination context
  | .putEdgeTyped k properties => Prod.snd <$> db.putEdgeTyped k properties
  | .createEdgeTyped k properties => Prod.snd <$> db.createEdgeInner k properties
  | .writeEdgeBag e properties => Prod.snd <$> db.updateEdgeInner e properties
  | .backfillEndpointSets budget => Prod.snd <$> db.backfillEndpointSets budget

end Database

/-- A binary has the call. -/
def Request.offered (keepsSets : Bool) : Request → Bool
  | .backfillEndpointSets _ => keepsSets
  | _ => true

/-- What happens to a handle. -/
inductive Op where
  | call (r : Request)
  /-- a write was refused before it wrote -/
  | refused
  /-- the commit failed, and became durable -/
  | commitUncertain
  /-- any of these failed and nothing became durable -/
  | fail
  | rollback
  | rollbackFails
  /-- by a binary that keeps endpoint sets, or by one that does not -/
  | reopen (keepsSets : Bool)

/-- **One step of a run.**  A failed handle is only rolled back or reopened; what a failure left of
the handle's own state is arbitrary. -/
inductive Step : Database → Op → Database → Prop
  | call {db db' : Database} {r : Request} (hf : db.tables.failed = false)
      (hr : r.offered db.keepsSets = true) (h : db.call r = .ok db') : Step db (.call r) db'
  | refused {db : Database} (hf : db.tables.failed = false) :
      Step db .refused { db with tables := { db.tables with userWritesPending := true } }
  | commitUncertain {db db' : Database} (h : db.commitUncertain = .ok db') :
      Step db .commitUncertain db'
  | fail {db db' : Database} (ht : Engine.Step db.tables .fail db'.tables)
      (hd : db'.durable = db.durable) (hk : db'.keepsSets = db.keepsSets) : Step db .fail db'
  | rollback {db db' : Database} (h : db.rollback = .ok db') : Step db .rollback db'
  | rollbackFails {db db' : Database} (ht : Engine.Step db.tables .rollbackFails db'.tables)
      (hd : db'.durable = db.durable) (hk : db'.keepsSets = db.keepsSets) : Step db .rollbackFails db'
  | reopen {db db' : Database} {keepsSets : Bool} (h : db.reopen keepsSets = .ok db') :
      Step db (.reopen keepsSets) db'

/-- Every state of every run from a new database whose steps meet `P`. -/
inductive Reachable (P : Database → Op → Prop) : Database → Prop
  | create (host : Host) (register keepsSets : Bool) (recordLimit : Option ℕ) :
      Reachable P (Database.create host register keepsSets recordLimit)
  | step {db db' : Database} {op : Op} (h : Reachable P db) (hp : P db op) (hs : Step db op db') :
      Reachable P db'

/-! ## Runs that can be computed -/

namespace Database

/-- The handle an operation leaves, where it is the only one. -/
def perform (db : Database) : Op → Except Error Database
  | .call r => do
      refuse db.tables.failed .failed
      refuse (r.offered db.keepsSets = false) .failed
      db.call r
  | .refused => do
      refuse db.tables.failed .failed
      pure { db with tables := { db.tables with userWritesPending := true } }
  | .commitUncertain => db.commitUncertain
  | .rollback => db.rollback
  | .reopen keepsSets => db.reopen keepsSets
  | .fail | .rollbackFails => .error .failed

def performs (db : Database) : List Op → Except Error Database
  | [] => .ok db
  | op :: ops => do
      let db ← db.perform op
      performs db ops

end Database

section

variable {db db' : Database}

lemma Step.of_perform {op : Op} (h : db.perform op = .ok db') : Step db op db' := by
  cases op with
  | call r =>
      simp only [Database.perform, bind_eq_ok, refuse_eq_ok, Bool.not_eq_true,
        Bool.not_eq_false] at h
      obtain ⟨_, hf, _, hr, hok⟩ := h
      exact .call hf hr hok
  | refused =>
      simp only [Database.perform, bind_eq_ok, refuse_eq_ok, Bool.not_eq_true, pure_eq_ok] at h
      obtain ⟨_, hf, rfl⟩ := h
      exact .refused hf
  | commitUncertain => exact .commitUncertain h
  | rollback => exact .rollback h
  | reopen keepsSets => exact .reopen h
  | fail => cases h
  | rollbackFails => cases h

/-- A run is reachable when each of its steps meets the condition where it is taken. -/
lemma Reachable.performs {P : Database → Op → Prop} {ops : List Op} (h : Reachable P db)
    (hP : ∀ pre op post, ops = pre ++ op :: post → ∀ db₁, db.performs pre = .ok db₁ → P db₁ op)
    (hok : db.performs ops = .ok db') : Reachable P db' := by
  induction ops generalizing db with
  | nil =>
      cases hok
      exact h
  | cons op ops ih =>
      simp only [Database.performs, bind_eq_ok] at hok
      obtain ⟨db₁, hone, hrest⟩ := hok
      refine ih (.step h (hP [] op ops rfl db rfl) (.of_perform hone)) (fun pre op' post heq db₂ hdb₂ => ?_)
        hrest
      refine hP (op :: pre) op' post (by rw [heq, List.cons_append]) db₂ ?_
      simp only [Database.performs, bind_eq_ok]
      exact ⟨db₁, hone, hdb₂⟩

end

end Engine.Graph
