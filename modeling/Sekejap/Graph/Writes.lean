import Sekejap.Graph.Edges

/-!
# Edge writes

`put_edge`, `link`, `link_many`, `create_edge`, `update_edge_properties`, `delete_edge`,
`delete_edge_by_id`, `unlink` and the cascade of a row's delete
(`core/engine/src/index/graph/mod.rs`), with what they do to the endpoint sets (`endpoints.rs`).

A handle knows some rows to be there without reading: those it allocated since it was opened or
rolled back, and has not deleted.
-/

open Collections (EntityId rowIdBlock)

open PageWal (u64Max)

open Fallible

namespace Engine.Graph

/-! ## The handle -/

/-- The row numbers of a table a handle allocated and has not given up on. -/
structure Allocated where
  liveFrom : ℕ
  next : ℕ
  deleted : Finset ℕ

/-- A handle: what it holds of the tables, and of the graph. -/
structure Database where
  tables : Engine.Database
  /-- this binary keeps endpoint sets -/
  keepsSets : Bool
  /-- `record_bytes` of the limits, when there are any -/
  recordLimit : Option ℕ
  graph : Keyspaces
  /-- what a rollback or a reopen finds -/
  durable : Keyspaces
  edgeIdNext : Option ℕ
  edgeIdBlock : Option (ℕ × ℕ)
  edgeIdDirty : Bool
  allocated : ℕ → Option Allocated
  endpointState : Option Bool
  endpointWritten : Finset EndpointKey
  /-- the last edge a backfill has looked at -/
  endpointBackfillAt : Option EdgeId
  endpointBackfillSeen : ℕ
  endpointBackfillWritten : ℕ

/-- A value as `serde_json` builds one. -/
abbrev Json := { v : Value // v.WellFormed }

/-- One edge of a batch. -/
structure NewEdge where
  source : EntityId
  destination : EntityId
  properties : Json

namespace Database

variable (db : Database)

def setGraph (f : Keyspaces → Keyspaces) : Database := { db with graph := f db.graph }

def readyWrite : Except Error Unit := refuse db.tables.failed .failed

def userWrite : Except Error Database := do
  let tables ← db.tables.userWrite
  pure { db with tables }

/-! ## Rows a handle knows to be there -/

/-- `DELETED_IDENTITIES` -/
def deletedIdentities : ℕ := 2 ^ 17

def noteAllocated (id : EntityId) : Database :=
  let e := (db.allocated id.collection).getD ⟨id.sequence, id.sequence, ∅⟩
  { db with
    allocated := Function.update db.allocated id.collection
      (some { e with next := max e.next (min (id.sequence + 1) u64Max) }) }

/-- A deleted row is taken out; too many of them are given up on together. -/
def noteDeleted (id : EntityId) : Database :=
  match db.allocated id.collection with
  | none => db
  | some e =>
      if id.sequence < e.liveFrom ∨ e.next ≤ id.sequence then db
      else
        let deleted := insert id.sequence e.deleted
        let e := if deletedIdentities < deleted.card then
            ⟨min ((deleted.max.getD e.liveFrom) + 1) u64Max, e.next, ∅⟩
          else { e with deleted }
        { db with allocated := Function.update db.allocated id.collection (some e) }

def endpointKnownLive (id : EntityId) : Bool :=
  (db.allocated id.collection).any fun e =>
    e.liveFrom ≤ id.sequence ∧ id.sequence < e.next ∧ id.sequence ∉ e.deleted

/-! ## Names -/

def graphHeader : Except Error GraphHeader :=
  orElse db.graph.header (.invalid "graph feature is not enabled")

def enableGraph : Except Error Database := do
  let db ← db.userWrite
  match db.graph.header with
  | some _ => pure db
  | none => pure (db.setGraph fun g => { g with header := some ⟨1, 1, 0, 0⟩ })

def validateNameInput (kind : NameKind) (name : String) : Except Error Unit :=
  refuse (name.utf8ByteSize = 0 ∨ 128 < name.utf8ByteSize)
    (.invalid (kind.what ++ " requires 1..128 UTF-8 bytes"))

/-- `MAX_NAMES` -/
def maxNames : ℕ := 4096

/-- The next identity of a kind, and the header that has handed it out. -/
def nextName (kind : NameKind) (exhausted : String) (h : GraphHeader) :
    Except Error (ℕ × GraphHeader) :=
  match kind with
  | .edgeType => do
      refuse (maxNames ≤ h.typeCount) (.invalid "graph name dictionary limit is 4096")
      refuse (u64Max < h.nextType + 1) (.invalid exhausted)
      pure (h.nextType, { h with nextType := h.nextType + 1, typeCount := h.typeCount + 1 })
  | .context => do
      refuse (maxNames ≤ h.contextCount) (.invalid "graph name dictionary limit is 4096")
      refuse (u64Max < h.nextContext + 1) (.invalid exhausted)
      pure (h.nextContext,
        { h with nextContext := h.nextContext + 1, contextCount := h.contextCount + 1 })

def saveGraphName (kind : NameKind) (id : ℕ) (name : String) : Database :=
  db.setGraph fun g =>
    { g with names := Function.update g.names kind (Function.update (g.names kind) name (some id)) }

def saveGraphHeader (h : GraphHeader) : Database := db.setGraph fun g => { g with header := some h }

def createGraphName (kind : NameKind) (name : String) : Except Error (ℕ × Database) := do
  let db ← db.userWrite
  validateNameInput kind name
  let h ← db.graphHeader
  refuse (db.graph.names kind name).isSome .alreadyExists
  let (id, h) ← nextName kind "graph name identities exhausted" h
  pure (id, (db.saveGraphName kind id name).saveGraphHeader h)

/-! ## Checks -/

def validateEdgeIds (h : GraphHeader) (k : EdgeKey) : Except Error Unit := do
  refuse (k.edgeType = 0 ∨ h.nextType ≤ k.edgeType) (.invalid "unknown edge type identity")
  refuse (h.nextContext ≤ k.context) (.invalid "unknown graph context identity")

def validateStoredEdgeIds (h : GraphHeader) (k : EdgeKey) : Except Error Unit :=
  refuse (k.edgeType = 0 ∨ h.nextType ≤ k.edgeType ∨ h.nextContext ≤ k.context)
    (.corrupt "stored edge has unknown type/context identity")

/-- One endpoint of one edge. -/
def validateEndpoint (id : EntityId) : Except Error Unit := do
  refuse (id.collection = 0 ∨ id.sequence = 0) (.notFound "graph endpoint")
  refuse (db.tables.dropping = some id.collection) (.invalid ("graph endpoint is in a collection that "
    ++ "is DROPPING; no edge may be written onto it"))
  -- the row of an identity the handle knows is not looked for
  refuse (db.endpointKnownLive id = false ∧ (db.tables.store.rows.lookup id).isNone)
    (.notFound "graph endpoint")

def validateEndpoints (source destination : EntityId) : Except Error Unit := do
  db.validateEndpoint source
  db.validateEndpoint destination

/-- An edge type of an edge table takes no untyped write. -/
def refuseBoundEdgeType (t : ℕ) : Except Error Unit :=
  match db.graph.bound t with
  | none => .ok ()
  | some name => .error (.invalid (s!"edge type {t} belongs to edge table `{name}`: its edges carry "
      ++ s!"typed properties and a key, so they are written with INSERT INTO {name}"))

/-- Both halves of one edge.  `false`: there is none. -/
def preflightEdgeId (e : EdgeId) : Except Error Bool :=
  match db.graph.primary.lookup e with
  | none => do
      refuse (db.graph.reverse.lookup e).isSome (.corrupt "reverse edge without authoritative primary")
      pure false
  | some value => do
      let _ ← decodeProperties value
      refuse (db.graph.reverse.lookup e ≠ some []) (.corrupt "missing/nonempty reverse edge marker")
      pure true

/-- Both halves of the edge of a tuple. -/
def preflightEdgePair (k : EdgeKey) : Except Error Bool :=
  match db.graph.primary.lookup ⟨k, 0⟩, db.graph.reverse.lookup ⟨k, 0⟩ with
  | some value, some marker => do
      let _ ← decodeProperties value
      refuse (marker ≠ []) (.corrupt "nonempty reverse edge marker")
      pure true
  | none, none => .ok false
  | _, _ => .error (.corrupt "graph primary/reverse mismatch")

def edgeProvablyAbsent (k : EdgeKey) : Bool :=
  db.endpointKnownLive k.source || db.endpointKnownLive k.destination

/-- Whether the edge of a tuple is there, as far as the caller needs to know. -/
def preflightUnlessProvablyAbsent (k : EdgeKey) : Except Error Bool :=
  if db.edgeProvablyAbsent k then .ok false else db.preflightEdgePair k

def encodeBag (properties : Json) : Except Error Bytes := do
  let bytes ← encodeProperties properties.1
  refuse (db.recordLimit.any fun limit => limit < bytes.length + 64)
    (.invalid "encoded edge exceeds configured record limit")
  pure bytes

/-! ## Endpoint sets -/

/-- Whether the write about to run keeps the sets.  A file that holds no edge can start one. -/
def endpointMaintenance : Bool × Database :=
  if !db.keepsSets then (false, db)
  else if db.graph.endpointFeature then (true, db)
  else
    match db.endpointState with
    | some known => (known, db)
    | none =>
        if db.graph.primary.keys = ∅ ∧ db.graph.reverse.keys = ∅ then
          (true, { db with
            graph := { db.graph with endpointFeature := true }
            endpointState := some true })
        else (false, { db with endpointState := some false })

/-- `ENDPOINT_MEMO` -/
def endpointMemo : ℕ := 8192

/-- A key is put, unless this transaction has put it before. -/
def insertEndpointKey (k : EndpointKey) : Database :=
  if k ∈ db.endpointWritten then db
  else
    { db with
      graph := { db.graph with endpoints := insert k db.graph.endpoints }
      endpointWritten := if db.endpointWritten.card < endpointMemo then insert k db.endpointWritten
        else db.endpointWritten }

def insertEndpointKeys (keys : List EndpointKey) : Database := keys.foldl insertEndpointKey db

/-- Another edge of the same (entity, context, type, direction) remains. -/
def remains (k : EndpointKey) : Bool :=
  decide (∃ e ∈ db.graph.postings k.dir, e.key.endpoint k.dir = k)

/-- A key is taken with the last of its edges. -/
def removeEndpointKey (k : EndpointKey) : Database :=
  if db.remains k then db
  else
    { db with
      graph := { db.graph with endpoints := db.graph.endpoints.erase k }
      endpointWritten := db.endpointWritten.erase k }

/-- Both ends of removed edges. -/
def removeEndpointKeysFor (edges : List EdgeKey) : Database :=
  if db.keepsSets ∧ db.graph.endpointFeature then
    (edges.flatMap EdgeKey.ends).foldl removeEndpointKey db
  else db

/-! ## Postings -/

/-- Both halves of an edge are put. -/
def writeEdgePair (e : EdgeId) (bag : Bytes) : Database :=
  db.setGraph fun g =>
    { g with primary := g.primary.insert e bag, reverse := g.reverse.insert e [] }

/-- Both halves of some edges are deleted. -/
def deleteEdgePairs (edges : List EdgeId) : Database :=
  db.setGraph fun g => { g with
    primary := edges.foldl (fun m e => m.erase e) g.primary
    reverse := edges.foldl (fun m e => m.erase e) g.reverse }

/-! ## Tuple-keyed writes -/

/-- An edge is written once it has passed its checks. -/
def writeEdge (k : EdgeKey) (bag : Bytes) (existed : Bool) : Database :=
  let (maintain, db) := db.endpointMaintenance
  let db := db.writeEdgePair ⟨k, 0⟩ bag
  if maintain ∧ existed = false then db.insertEndpointKeys k.ends else db

def putEdgeInner (k : EdgeKey) (properties : Json) : Except Error (EdgeKey × Database) := do
  db.readyWrite
  let h ← db.graphHeader
  validateEdgeIds h k
  db.validateEndpoints k.source k.destination
  let bytes ← db.encodeBag properties
  let existed ← db.preflightUnlessProvablyAbsent k
  pure (k, db.writeEdge k bytes existed)

def putEdge (k : EdgeKey) (properties : Json) : Except Error (EdgeKey × Database) := do
  db.refuseBoundEdgeType k.edgeType
  db.putEdgeInner k properties

/-- Every endpoint of a batch. -/
def validateAll : List EntityId → Except Error Unit
  | [] => .ok ()
  | id :: rest => do
      db.validateEndpoint id
      validateAll rest

/-- The keys and bags of a batch. -/
def encodeAll (context edgeType : ℕ) : List NewEdge → Except Error (List (EdgeKey × Bytes))
  | [] => .ok []
  | e :: rest => do
      let bytes ← db.encodeBag e.properties
      let bodies ← encodeAll context edgeType rest
      pure ((⟨e.source, context, edgeType, e.destination⟩, bytes) :: bodies)

/-- The endpoint keys of those edges of a batch that are new. -/
def newEndpoints (maintain : Bool) : List EdgeId → Except Error (Finset EndpointKey)
  | [] => .ok ∅
  | e :: rest => do
      let existed ← db.preflightUnlessProvablyAbsent e.key
      let keys ← newEndpoints maintain rest
      pure (if maintain ∧ existed = false then keys ∪ e.key.ends.toFinset else keys)

/-- Many edges of one context and one type.  Of two with one tuple the later wins. -/
def linkMany (context edgeType : ℕ) (edges : List NewEdge) :
    Except Error (List EdgeKey × Database) := do
  db.readyWrite
  db.refuseBoundEdgeType edgeType
  match edges with
  | [] => pure ([], db)
  | first :: _ => do
      let h ← db.graphHeader
      let (maintain, db) := db.endpointMaintenance
      validateEdgeIds h ⟨first.source, context, edgeType, first.destination⟩
      db.validateAll (ascending (edges.flatMap fun e => [e.source, e.destination]).toFinset)
      let bodies ← db.encodeAll context edgeType edges
      let keys ← db.newEndpoints maintain
        (ascending (bodies.map fun b => (⟨b.1, 0⟩ : EdgeId)).toFinset)
      let db := bodies.foldl (fun db b => db.writeEdgePair ⟨b.1, 0⟩ b.2) db
      pure (bodies.map Prod.fst, db.insertEndpointKeys (ascending keys))

/-- The identity of a name, which is allocated when the name is new. -/
def internName (kind : NameKind) (name exhausted : String) (h : GraphHeader) :
    Except Error (ℕ × Bool × GraphHeader) :=
  match db.graph.names kind name with
  | some id => .ok (id, false, h)
  | none => do
      let (id, h) ← nextName kind exhausted h
      pure (id, true, h)

/-- `link`: names in place of identities; the empty context is the base graph. -/
def link (source : EntityId) (edgeType : String) (destination : EntityId) (context : String)
    (properties : Json) : Except Error (EdgeKey × Database) := do
  let db ← db.userWrite
  validateNameInput .edgeType edgeType
  if context ≠ "" then validateNameInput .context context
  db.validateEndpoints source destination
  let bytes ← db.encodeBag properties
  let h ← db.graphHeader
  let (typeId, newType, h) ← db.internName .edgeType edgeType "graph type identities exhausted" h
  let (contextId, newContext, h) ← if context = "" then pure (0, false, h)
    else db.internName .context context "graph context identities exhausted" h
  let k : EdgeKey := ⟨source, contextId, typeId, destination⟩
  db.refuseBoundEdgeType typeId
  let existed ← db.preflightUnlessProvablyAbsent k
  -- the emptiness probe comes before the names and the edge are written
  let (maintain, db) := db.endpointMaintenance
  let db := if newType then db.saveGraphName .edgeType typeId edgeType else db
  let db := if newContext then db.saveGraphName .context contextId context else db
  let db := if newType ∨ newContext then db.saveGraphHeader h else db
  let db := db.writeEdgePair ⟨k, 0⟩ bytes
  pure (k, if maintain ∧ existed = false then db.insertEndpointKeys k.ends else db)

/-! ## Edges with an id -/

/-- `checked_add` of the edge-id allocator. -/
def checkedEdgeId (n : ℕ) : Except Error ℕ := do
  refuse (u64Max < n) (.invalid "graph edge identities exhausted")
  pure n

/-- The allocator as the tree has it. -/
def storedEdgeId : Except Error ℕ :=
  if db.graph.edgeIdFeature then
    orElse db.graph.edgeIds (.corrupt (if db.tables.register then "edge-id allocator NEXT missing"
      else "all metadata copies missing or damaged"))
  else .ok 1

/-- The next edge id, and the end of the block it was reserved with. -/
def edgeIdPosition : Except Error (ℕ × ℕ) :=
  match db.edgeIdNext, db.edgeIdBlock with
  | some next, some (_, reserved) => .ok (next, reserved)
  | none, some block => .ok block
  | _, none => do
      let n ← db.storedEdgeId
      pure (n, n)

/-- A new block, when the last one is used up. -/
def reserveEdgeIds (next reserved : ℕ) : Except Error (ℕ × Bool) :=
  if reserved ≤ next then do
    let reserved ← checkedEdgeId (next + rowIdBlock)
    pure (reserved, true)
  else .ok (reserved, db.edgeIdDirty)

/-- The next edge id of a file without blocks. -/
def nextEdgeId : Except Error ℕ :=
  match db.edgeIdNext with
  | some next => .ok next
  | none => db.storedEdgeId

/-- The next edge id; a Register file reserves them in blocks. -/
def allocateEdgeId : Except Error (ℕ × Database) :=
  if db.tables.register then do
    let (next, reserved) ← db.edgeIdPosition
    let (reserved, dirty) ← db.reserveEdgeIds next reserved
    let following ← checkedEdgeId (next + 1)
    pure (next, { db with
      edgeIdNext := some following
      edgeIdBlock := some (following, reserved)
      edgeIdDirty := dirty })
  else do
    let next ← db.nextEdgeId
    let following ← checkedEdgeId (next + 1)
    pure (next, { db with edgeIdNext := some following, edgeIdDirty := true })

/-- An edge is put under a new id, beside those its key already has. -/
def createEdgeInner (k : EdgeKey) (properties : Json) : Except Error (EdgeId × Database) := do
  let db ← db.userWrite
  let h ← db.graphHeader
  validateEdgeIds h k
  db.validateEndpoints k.source k.destination
  let bytes ← db.encodeBag properties
  let (id, db) ← db.allocateEdgeId
  refuse (db.graph.primary.lookup ⟨k, id⟩).isSome
    (.corrupt "graph edge-id allocator is behind an existing edge id")
  let db := db.setGraph fun g => { g with edgeIdFeature := true }
  let (maintain, db) := db.endpointMaintenance
  let db := db.writeEdgePair ⟨k, id⟩ bytes
  pure (⟨k, id⟩, if maintain then db.insertEndpointKeys k.ends else db)

def createEdge (k : EdgeKey) (properties : Json) : Except Error (EdgeId × Database) := do
  db.refuseBoundEdgeType k.edgeType
  db.createEdgeInner k properties

/-- One edge's bag is replaced. -/
def updateEdgeInner (e : EdgeId) (properties : Json) : Except Error (Bool × Database) := do
  let db ← db.userWrite
  let h ← db.graphHeader
  validateEdgeIds h e.key
  let bytes ← db.encodeBag properties
  let found ← db.preflightEdgeId e
  if found then pure (true, db.setGraph fun g => { g with primary := g.primary.insert e bytes })
  else pure (false, db)

def updateEdgeProperties (e : EdgeId) (properties : Json) : Except Error (Bool × Database) := do
  db.refuseBoundEdgeType e.key.edgeType
  db.updateEdgeInner e properties

/-! ## Deletes -/

def deleteEdgeById (e : EdgeId) : Except Error (Bool × Database) := do
  let db ← db.userWrite
  let h ← db.graphHeader
  validateEdgeIds h e.key
  let found ← db.preflightEdgeId e
  if found then pure (true, (db.deleteEdgePairs [e]).removeEndpointKeysFor [e.key])
  else pure (false, db)

/-- `MAX_TUPLE_EDGES` -/
def maxTupleEdges : ℕ := 65536

/-- Every edge of a tuple, its own and the parallel ones. -/
def tupleEdges (k : EdgeKey) : Except Error (List EdgeId) := do
  let edges := Scan.take (db.graph.tuple .out k) (maxTupleEdges + 1) none
  refuse (maxTupleEdges < edges.length)
    (.invalid "more than 65536 parallel edges share this tuple; delete them by id")
  refuse (¬ db.graph.tuple .into k ⊆ edges.toFinset)
    (.corrupt "reverse edge without authoritative primary")
  refuse ((db.graph.tuple .into k).card ≠ edges.length)
    (.corrupt "missing/nonempty reverse edge marker")
  pure edges

def preflightAll : List EdgeId → Except Error Unit
  | [] => .ok ()
  | e :: rest => do
      let _ ← db.preflightEdgeId e
      preflightAll rest

def deleteEdge (k : EdgeKey) : Except Error (Bool × Database) := do
  let db ← db.userWrite
  let h ← db.graphHeader
  validateEdgeIds h k
  let edges ← db.tupleEdges k
  if edges = [] then pure (false, db)
  else do
    db.preflightAll edges
    pure (true, (db.deleteEdgePairs edges).removeEndpointKeysFor [k])

/-- `unlink` once its names have been found well formed.  A name nobody has is no edge. -/
def unlinkNamed (source : EntityId) (edgeType : String) (destination : EntityId) (context : String) :
    Except Error (Bool × Database) :=
  match db.graph.names .edgeType edgeType with
  | none => .ok (false, db)
  | some typeId =>
      match if context = "" then some 0 else db.graph.names .context context with
      | none => .ok (false, db)
      | some contextId => db.deleteEdge ⟨source, contextId, typeId, destination⟩

def unlink (source : EntityId) (edgeType : String) (destination : EntityId) (context : String) :
    Except Error (Bool × Database) := do
  let db ← db.userWrite
  validateNameInput .edgeType edgeType
  if context ≠ "" then validateNameInput .context context
  let _ ← db.graphHeader
  db.unlinkNamed source edgeType destination context

/-! ## The cascade of a row's delete -/

/-- `MAX_CASCADE` -/
def maxCascade : ℕ := 256

/-- One posting at an entity, and the other half of its edge. -/
def checkIncident (h : GraphHeader) (d : Dir) (e : EdgeId) : Except Error Unit := do
  validateStoredEdgeIds h e.key
  match d with
  | .out => do
      let value ← orElse (db.graph.primary.lookup e) (.corrupt "reverse edge without authoritative primary")
      let _ ← decodeProperties value
      refuse (db.graph.reverse.lookup e ≠ some []) (.corrupt "missing/nonempty reverse edge marker")
  | .into => do
      refuse (db.graph.reverse.lookup e ≠ some []) (.corrupt "nonempty reverse edge marker")
      let value ← orElse (db.graph.primary.lookup e) (.corrupt "reverse edge without authoritative primary")
      let _ ← decodeProperties value

/-- The postings at an entity in a direction are collected. -/
def collectIncident (h : GraphHeader) (d : Dir) :
    List EdgeId → Finset EdgeId → Except Error (Finset EdgeId)
  | [], edges => .ok edges
  | e :: rest, edges => do
      db.checkIncident h d e
      refuse (maxCascade < (insert e edges).card)
        (.invalid "entity has more than 256 incident graph edges")
      collectIncident h d rest (insert e edges)

def preflightIncidentEdges (id : EntityId) : Except Error (List EdgeId) :=
  match db.graph.header with
  | none => .ok []
  | some h => do
      let edges ← db.collectIncident h .out (ascending (db.graph.incident .out id)) ∅
      let edges ← db.collectIncident h .into (ascending (db.graph.incident .into id)) edges
      pure (ascending edges)

/-- Every edge of a row that is about to be deleted goes. -/
def cascadeGraphDelete (id : EntityId) : Except Error Database := do
  let edges ← db.preflightIncidentEdges id
  pure ((db.deleteEdgePairs edges).removeEndpointKeysFor (edges.map EdgeId.key))

end Database

end Engine.Graph
