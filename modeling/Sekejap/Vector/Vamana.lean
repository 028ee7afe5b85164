import Sekejap.Graph.Edges
import Sekejap.Lib.Scan
import Sekejap.PageWal.Inspect

/-!
# The Vamana graph of a vector index

`core/engine/src/index/vector/graph.rs`: one head and one adjacency list a node, and a header with the
node every search starts from.  A row that is written links a node, a row that goes unlinks it; a late
build links the rows that were there before the index.

The distances between vectors are whatever `Metric` says they are: nothing here depends on them but
which edges are kept and in what order nodes are looked at.
-/

open Engine.Graph (ascending)

open Fallible

open PageWal (u64Max)

namespace Engine.Vamana

variable {H D : Type}

/-! ## Records -/

/-- The arithmetic of distances. -/
structure Metric (H D : Type) where
  /-- `navigation`: the codes of the second head against the lanes of the first -/
  navigation : H → H → Option D
  /-- `alpha * covered > distance` -/
  outreaches : D → D → Bool
  /-- `as f32`, and read back -/
  narrow : D → D
  infinity : D
  zero : D
  add : D → D → D

/-- One stored edge. -/
structure Edge (D : Type) where
  seq : ℕ
  distance : D
  deriving DecidableEq, Repr

/-- A neighbour list: the edges the node's own prune chose, and those other nodes added. -/
structure Adjacency (D : Type) where
  own : List (Edge D)
  back : List (Edge D)
  deriving DecidableEq, Repr

namespace Adjacency

variable (a : Adjacency D)

def edges : List (Edge D) := a.own ++ a.back

def sequences : List ℕ := a.edges.map Edge.seq

def len : ℕ := a.own.length + a.back.length

def holds (seq : ℕ) : Bool := seq ∈ a.sequences

def remove (seq : ℕ) : Adjacency D :=
  ⟨a.own.filter fun e => e.seq ≠ seq, a.back.filter fun e => e.seq ≠ seq⟩

/-- Nothing is traded away here. -/
def append (e : Edge D) : Adjacency D := ⟨a.own, a.back ++ [e]⟩

end Adjacency

structure GraphHeader where
  /-- 0 when the graph is empty -/
  entry : ℕ
  nodes : ℕ
  /-- the node count when `entry` was chosen -/
  entryAt : ℕ
  deriving DecidableEq, Repr

inductive Failure where
  | corrupt (why : String)
  | resourceLimit (why : String)
  deriving DecidableEq, Repr

/-- What the tree holds of one index: the header at sequence 0 of `0x7D`, the heads behind it, and the
adjacency records of `0x7F`. -/
structure Graph (H D : Type) where
  header : Option GraphHeader
  heads : Finmap fun _ : ℕ => H
  lists : Finmap fun _ : ℕ => Adjacency D

def Graph.empty : Graph H D := ⟨none, ∅, ∅⟩

structure Record (H D : Type) where
  head : H
  adjacency : Adjacency D

/-- `DEGREE` -/
def degree : ℕ := 48

/-- `MAX_DEGREE` -/
def maxDegree : ℕ := degree * 2

/-- `BUILD_SEARCH_LIST` -/
def buildSearchList : ℕ := 100

/-- `BUILD_VISITED` -/
def buildVisited : ℕ := buildSearchList * 2

/-- `SAMPLE` -/
def sample : ℕ := 64

/-- `SAMPLE_FLOOR` -/
def sampleFloor : ℕ := 64

/-! ## Reading -/

def decodeHeader (h : GraphHeader) : Except Failure GraphHeader := do
  refuse ((h.entry = 0) ≠ (h.nodes = 0) ∨ h.nodes < h.entryAt)
    (.corrupt "vamana graph header entry/count")
  pure h

/-- The rules one adjacency record can carry. -/
def decodeAdjacency (own : ℕ) (a : Adjacency D) : Except Failure (Adjacency D) := do
  refuse (maxDegree < a.len) (.corrupt "vamana node degree")
  refuse (∃ seq ∈ a.sequences, seq = 0 ∨ seq = own) (.corrupt "vamana node neighbour identity")
  refuse (¬ a.sequences.Nodup) (.corrupt "vamana node duplicate neighbour")
  pure a

namespace Graph

variable (g : Graph H D)

def readHeader : Except Failure GraphHeader :=
  match g.header with
  | some h => decodeHeader h
  | none => .ok ⟨0, 0, 0⟩

def readAdjacency (seq : ℕ) : Except Failure (Option (Adjacency D)) :=
  match g.lists.lookup seq with
  | none => .ok none
  | some a => do
      let a ← decodeAdjacency seq a
      pure (some a)

def readRecord (seq : ℕ) : Except Failure (Option (Record H D)) :=
  match g.heads.lookup seq with
  | none => .ok none
  | some head => do
      let found ← g.readAdjacency seq
      let adjacency ← orElse found (.corrupt "vamana node has no adjacency record")
      pure (some ⟨head, adjacency⟩)

/-- A record the closure of the lists promises. -/
def record (seq : ℕ) : Except Failure (Record H D) := do
  let found ← g.readRecord seq
  orElse found (.corrupt "vamana graph neighbour record is missing")

/-- `first_node`: the first node but one; 0 when there is none. -/
def firstNode (skip : ℕ) : ℕ :=
  (Scan.next (g.heads.keys.filter fun seq => seq ≠ 0 ∧ seq ≠ skip) none).getD 0

end Graph

/-! ## Greedy search -/

/-- One node, ready to be scored and pruned against. -/
structure Node (H D : Type) where
  seq : ℕ
  distance : D
  head : H

/-- One node the search has reached. -/
structure Reached (H D : Type) where
  node : Node H D
  adjacency : Adjacency D
  expanded : Bool
  /-- the metric takes the stored vector -/
  scored : Bool

/-- What a search is asked. -/
structure Search (H D : Type) where
  score : H → Option D
  entry : ℕ
  list : ℕ
  exclude : ℕ
  maxExamined : ℕ
  keepVisited : ℕ

structure Walk (H D : Type) where
  visited : List (Node H D)
  pool : List (Reached H D)
  seen : Finset ℕ
  examined : ℕ

section

variable [LinearOrder D] (m : Metric H D) (g : Graph H D) (q : Search H D)

/-- The order of the pool: by distance, then by sequence. -/
def Node.before (a b : Node H D) : Bool :=
  a.distance < b.distance ∨ (a.distance = b.distance ∧ a.seq < b.seq)

/-- A node comes behind those before it, and the last of too many goes. -/
def insertReached (pool : List (Reached H D)) (r : Reached H D) : List (Reached H D) :=
  ((pool.takeWhile fun x => x.node.before r.node)
    ++ r :: (pool.dropWhile fun x => x.node.before r.node)).take q.list

/-- A node is read once, and the excluded one never. -/
def reach (w : Walk H D) (seq : ℕ) : Except Failure (Walk H D) :=
  if seq = q.exclude ∨ seq ∈ w.seen then .ok w
  else do
    refuse (q.maxExamined ≤ w.examined) (.resourceLimit "vamana graph max_examined exceeded")
    let r ← g.record seq
    let scored := q.score r.head
    let node : Node H D := ⟨seq, scored.getD m.infinity, r.head⟩
    pure {
      visited :=
        if scored.isSome ∧ w.visited.length < q.keepVisited then w.visited ++ [node] else w.visited
      pool := insertReached q w.pool ⟨node, r.adjacency, false, scored.isSome⟩
      seen := insert seq w.seen
      examined := w.examined + 1 }

def reachAll : Walk H D → List ℕ → Except Failure (Walk H D)
  | w, [] => .ok w
  | w, seq :: rest => do
      let w ← reach m g q w seq
      reachAll w rest

/-- The closest node that is not expanded yet is marked. -/
def expandFirst : List (Reached H D) → Option (Adjacency D × List (Reached H D))
  | [] => none
  | r :: rest =>
      if r.expanded then (expandFirst rest).map fun x => (x.1, r :: x.2)
      else some (r.adjacency, { r with expanded := true } :: rest)

/-- Until nothing in the pool is unexpanded. -/
def searchLoop : ℕ → Walk H D → Except Failure (Walk H D)
  | 0, w => .ok w
  | fuel + 1, w =>
      match expandFirst w.pool with
      | none => .ok w
      | some (adjacency, pool) => do
          let w ← reachAll m g q { w with pool } adjacency.sequences
          searchLoop fuel w

/-- Nodes by distance, then by sequence. -/
def sortNodes (nodes : List (Node H D)) : List (Node H D) :=
  nodes.insertionSort fun a b => a.distance < b.distance ∨ (a.distance = b.distance ∧ a.seq ≤ b.seq)

/-- The scored nodes of the pool, the visited ones, and how many were examined.  Every turn of the loop
expands a node, and every node is reached once. -/
def greedySearch : Except Failure (List (Node H D) × List (Node H D) × ℕ) := do
  let w ← reach m g q ⟨[], [], ∅, 0⟩ q.entry
  let w ← searchLoop m g q (g.heads.keys.card + 1) w
  pure ((w.pool.filter (·.scored)).map (·.node), sortNodes w.visited, w.examined)

/-! ## Robust pruning -/

/-- The nearest is kept, and what it covers goes; at most `room` are kept. -/
def robustPrune : ℕ → List (Node H D) → List (Edge D)
  | 0, _ => []
  | _ + 1, [] => []
  | room + 1, best :: remaining =>
      ⟨best.seq, m.narrow best.distance⟩ :: robustPrune room (remaining.filter fun candidate =>
        (m.navigation best.head candidate.head).all fun covered =>
          m.outreaches covered candidate.distance)

/-! ## Records held by one write -/

structure Pending (H D : Type) where
  held : Finmap fun _ : ℕ => Record H D
  dirty : Finset ℕ

namespace Pending

/-- `touch`, and what is done to the record. -/
def touch (p : Pending H D) (seq : ℕ) (f : Adjacency D → Adjacency D) : Pending H D where
  held := match p.held.lookup seq with
    | some r => p.held.insert seq { r with adjacency := f r.adjacency }
    | none => p.held
  dirty := insert seq p.dirty

/-- A held list is written. -/
def writeList (p : Pending H D) (lists : Finmap fun _ : ℕ => Adjacency D) (seq : ℕ) :
    Finmap fun _ : ℕ => Adjacency D :=
  match p.held.lookup seq with
  | some r => lists.insert seq r.adjacency
  | none => lists

/-- Of what is held, the lists that changed are written. -/
def flush (p : Pending H D) (g : Graph H D) : Graph H D :=
  { g with lists := (ascending p.dirty).foldl p.writeList g.lists }

end Pending

/-- A record is read, unless it is held.  `false`: there is none. -/
def fetch (p : Pending H D) (seq : ℕ) : Except Failure (Bool × Pending H D) :=
  match p.held.lookup seq with
  | some _ => .ok (true, p)
  | none => do
      let found ← g.readRecord seq
      match found with
      | some r => pure (true, { p with held := p.held.insert seq r })
      | none => pure (false, p)

/-- A record that has to be there. -/
def hold (p : Pending H D) (seq : ℕ) : Except Failure (Record H D × Pending H D) := do
  let (_, p) ← fetch g p seq
  let r ← orElse (p.held.lookup seq) (.corrupt "vamana graph neighbour record is missing")
  pure (r, p)

/-- The neighbours of a node, to be pruned. -/
def candidates : Pending H D → List (Edge D) → Except Failure (List (Node H D) × Pending H D)
  | p, [] => .ok ([], p)
  | p, e :: rest => do
      let (r, p) ← hold g p e.seq
      let (nodes, p) ← candidates p rest
      pure (⟨e.seq, e.distance, r.head⟩ :: nodes, p)

/-- An overflowing list is pruned; an edge that goes, goes on both sides. -/
def pruneNeighbour (p : Pending H D) (seq : ℕ) : Except Failure (Pending H D) :=
  match p.held.lookup seq with
  | none => .ok p
  | some r =>
      if r.adjacency.len ≤ maxDegree then .ok p
      else do
        let (nodes, p) ← candidates g p r.adjacency.edges
        let kept := robustPrune m degree (sortNodes nodes)
        let dropped := r.adjacency.edges.filter fun e => e.seq ∉ kept.map Edge.seq
        let p := dropped.foldl (fun p e => p.touch e.seq fun a => a.remove seq) p
        pure (p.touch seq fun _ => ⟨kept, []⟩)

/-! ## Entry points -/

def refreshIsDue (h : GraphHeader) : Bool :=
  sampleFloor ≤ h.nodes ∧ min (h.entryAt * 2) u64Max ≤ h.nodes

/-- Nodes at evenly spaced points of the key range, each once. -/
def sampleNodes (last : ℕ) : List ℕ :=
  ((List.range sample).filterMap fun step =>
    Scan.next g.heads.keys (some (min ((last - 1) * step) u64Max / sample))).dedup

/-- The summed distance of a head to the others of a sample. -/
def total (nodes : List (ℕ × H)) (seq : ℕ) (head : H) : D :=
  nodes.foldl (fun sum x => if x.1 = seq then sum
    else m.add sum ((m.navigation head x.2).getD m.zero)) m.zero

/-- The sample member nearest to the rest. -/
def sampleMedoid : Option ℕ :=
  let last := g.heads.keys.sup id
  let nodes := (sampleNodes g last).filterMap fun seq =>
    (g.heads.lookup seq).map fun head => (seq, head)
  (nodes.foldl (fun (best : Option (ℕ × D)) x =>
    let sum := total m nodes x.1 x.2
    if best.all fun b => sum < b.2 then some (x.1, sum) else best) none).map Prod.fst

/-! ## Maintenance -/

/-- A new node joins the lists of the neighbours its prune chose. -/
def joinAll (seq : ℕ) : Pending H D → List (Edge D) → Except Failure (Pending H D)
  | p, [] => .ok p
  | p, e :: rest => do
      let (_, p) ← hold g p e.seq
      let p ← pruneNeighbour m g (p.touch e.seq fun a => a.append ⟨seq, e.distance⟩) e.seq
      joinAll seq p rest

/-- The header once a node has been linked. -/
def linkedHeader (h : GraphHeader) : GraphHeader :=
  let h := { h with nodes := h.nodes + 1 }
  if refreshIsDue h then
    match sampleMedoid m g with
    | some entry => { h with entry, entryAt := h.nodes }
    | none => h
  else h

/-- A node is put: the nodes a search for it passes are pruned to its neighbours, and each of them is joined
to it and pruned in turn. -/
def linkNode (seq : ℕ) (head : H) : Except Failure (Graph H D) := do
  let h ← g.readHeader
  if h.nodes = 0 then
    pure ⟨some ⟨seq, 1, 1⟩, g.heads.insert seq head, g.lists.insert seq ⟨[], []⟩⟩
  else do
    let (_, passed, _) ← greedySearch m g
      ⟨m.navigation head, h.entry, buildSearchList, seq, u64Max, buildVisited⟩
    let neighbours := robustPrune m degree passed
    let p ← joinAll m g seq ⟨Finmap.singleton seq ⟨head, neighbours, []⟩, {seq}⟩ neighbours
    let g' := p.flush { g with heads := g.heads.insert seq head }
    pure { g' with header := some (linkedHeader m g h) }

/-- The neighbours of a node that goes forget it. -/
def forgetAll (seq : ℕ) : Pending H D → List ℕ → Except Failure (Pending H D)
  | p, [] => .ok p
  | p, other :: rest => do
      let (found, p) ← fetch g p other
      forgetAll seq (if found then p.touch other fun a => a.remove seq else p) rest

/-- One member of a neighbourhood is weighed against the best so far: another node that is not held
yet, where both lists have room. -/
def mate (p : Pending H D) (left : ℕ) (best : Option (ℕ × D)) (right : ℕ) : Option (ℕ × D) :=
  match p.held.lookup left, p.held.lookup right with
  | some l, some r =>
      if left = right ∨ l.adjacency.holds right ∨ maxDegree ≤ l.adjacency.len
          ∨ maxDegree ≤ r.adjacency.len then best
      else
        match m.navigation l.head r.head with
        | some distance => if best.all fun b => distance < b.2 then some (right, distance) else best
        | none => best
  | _, _ => best

/-- The closest other member of a neighbourhood. -/
def bestMate (p : Pending H D) (held : List ℕ) (left : ℕ) : Option (ℕ × D) :=
  held.foldl (mate m p left) none

/-- Each member of a neighbourhood is joined with its closest other member. -/
def consolidate (held : List ℕ) : Pending H D → List ℕ → Pending H D
  | p, [] => p
  | p, left :: rest =>
      match bestMate m p held left with
      | none => consolidate held p rest
      | some (right, distance) =>
          consolidate held ((p.touch left fun a => a.append ⟨right, m.narrow distance⟩).touch right
            fun a => a.append ⟨left, m.narrow distance⟩) rest

/-- The header once a node has been unlinked. -/
def unlinkedHeader (h : GraphHeader) (seq : ℕ) (a : Adjacency D) : GraphHeader :=
  let nodes := h.nodes - 1
  let first := (a.edges.head?.map Edge.seq).getD 0
  let entry := if first = 0 ∧ 0 < nodes then g.firstNode seq else first
  if nodes = 0 then ⟨0, 0, 0⟩
  else if h.entry = seq then ⟨entry, nodes, nodes⟩
  else { h with nodes }

/-- A node goes: its neighbours forget it, and each is joined with the closest of the others. -/
def unlinkNode (seq : ℕ) : Except Failure (Graph H D) := do
  let found ← g.readRecord seq
  match found with
  | none => pure g
  | some r => do
      let h ← g.readHeader
      let neighbours := r.adjacency.sequences
      let p ← forgetAll g seq ⟨∅, ∅⟩ neighbours
      let held := neighbours.filter fun other => (p.held.lookup other).isSome
      let p := consolidate m held p held
      let g' := p.flush { g with heads := g.heads.erase seq, lists := g.lists.erase seq }
      pure { g' with header := some (unlinkedHeader g h seq r.adjacency) }

variable [DecidableEq H]

/-- The write-path hook: a row's vector came, moved or went. -/
def maintainNode (seq : ℕ) (desired : Option H) (fresh : Bool) : Except Failure (Graph H D) :=
  if fresh then
    match desired with
    | some head => linkNode m g seq head
    | none => .ok g
  else do
    let existing ← g.readRecord seq
    match existing, desired with
    | some old, some head =>
        if old.head = head then pure g
        else do
          let g ← unlinkNode m g seq
          linkNode m g seq head
    | none, some head => linkNode m g seq head
    | some _, none => unlinkNode m g seq
    | none, none => pure g

/-- The late build's write. -/
def buildLink (seq : ℕ) (head : H) : Except Failure (Graph H D) := do
  let existing ← g.readRecord seq
  match existing with
  | some old =>
      if old.head = head then pure g
      else do
        let g ← unlinkNode m g seq
        linkNode m g seq head
  | none => linkNode m g seq head

/-! ## The read path -/

/-- The exact distances of a shortlist, each head checked against the sidecar it was made of. -/
def rerank (sidecar : ℕ → Option H) (exact : ℕ → Option D) : List (Node H D) →
    Except Failure (List (ℕ × D))
  | [] => .ok []
  | node :: rest => do
      let raw ← orElse (sidecar node.seq) (.corrupt "vamana node locator points to missing sidecar")
      refuse (raw ≠ node.head) (.corrupt "vamana node head differs from authoritative sidecar")
      let hits ← rerank sidecar exact rest
      pure (((exact node.seq).map fun d => (node.seq, d)).toList ++ hits)

/-- `scan_vamana` of a READY index: at most `k` hits behind `after`. -/
def scanVamana (sidecar : ℕ → Option H) (score : H → Option D) (exact : ℕ → Option D)
    (admits : ℕ → D → Bool) (k ef maxExamined : ℕ) : Except Failure (List (ℕ × D)) := do
  let h ← g.readHeader
  if h.nodes = 0 ∨ h.entry = 0 then pure []
  else do
    let (shortlist, _, _) ← greedySearch m g ⟨score, h.entry, ef, 0, maxExamined, 0⟩
    let hits ← rerank sidecar exact shortlist
    pure (((hits.filter fun hit => admits hit.1 hit.2).insertionSort fun a b =>
      a.2 < b.2 ∨ (a.2 = b.2 ∧ a.1 ≤ b.1)).take k)

end

end Engine.Vamana
