import Mathlib.Data.Prod.Lex
import Mathlib.Data.Rat.Defs
import Mathlib.Data.List.Sort
import Sekejap.Gql.Scope

/-!
# Path selection

`ANY`, `ANY SHORTEST` and `ANY CHEAPEST`: one witness for every end node of an input row
(`core/engine/src/query/gql/paths/bfs.rs`, `dijkstra.rs`).  The search goes over product states: a node,
a position, a counter, and the values of the position's key slots.  Without a cost it goes by levels, the
edges crossed; with one its frontier is a heap.  Under `WALK` the best arrival at a product state is the
one that is kept, until it is settled; under `TRAIL` and `ACYCLIC` all are, and the mode is checked along
the predecessors.  A record points to its predecessor, and a witness is rebuilt from these.

Costs are exact numbers, so no sum of them overflows.  Limits, meters and cancellation are left out;
predicates and costs are functions of the row.
-/

open Collections (EntityId)

open Engine.Graph (EdgeId Keyspaces Dir)

open Fallible

open Search (Turn Gives drain)

namespace Engine.Gql

variable {α : Type} [DecidableEq α]

/-! ## Costs -/

/-- The cost of an `ANY CHEAPEST`. -/
structure Pricing (α : Type) where
  /-- the expression, over a row -/
  cost : Row α → BindingValue α
  /-- the values that are finite numbers -/
  number : α → Option ℚ
  /-- how a value and an edge are shown in an error -/
  debug : BindingValue α → String
  debugEdge : EdgeId → String

namespace Pricing

variable (p : Pricing α)

/-- The finite number a value is. -/
def numberOf : BindingValue α → Option ℚ
  | .other v => p.number v
  | _ => none

/-- `invalid_path_cost` -/
def invalidPathCost (value : BindingValue α) (e : EdgeId) (why : String) : Error :=
  .invalid ("InvalidPathCost \x7b value: " ++ p.debug value ++ ", edge: " ++ p.debugEdge e
    ++ " \x7d: an ANY CHEAPEST COST " ++ why)

/-- `edge_cost` -/
def edgeCost (value : BindingValue α) (e : EdgeId) : Except Error ℚ :=
  match p.numberOf value with
  | some cost =>
      if 0 < cost then .ok cost
      else .error (p.invalidPathCost value e "is not a positive, finite number")
  | none => .error (p.invalidPathCost value e "is not a positive, finite number")

end Pricing

/-! ## The operator -/

/-- `REFILL_POSTINGS` -/
def refillPostings : ℕ := 256

/-- One product state, as first reached by its best arrival so far. -/
structure Record (α : Type) where
  node : EntityId
  state : ℕ
  k : ℕ
  /-- the predecessor, and the edge crossed from it -/
  parent : Option ℕ
  via : Option (EdgeId × Bool)
  /-- the values of the key slots of the state -/
  binds : List (BindingValue α)
  cost : ℚ
  hops : ℕ
  /-- taken off the frontier as the state's final arrival -/
  settled : Bool
  /-- a cheaper arrival at the same state replaced this one -/
  superseded : Bool

/-- An entry of the heap: a record, or a settled record's deferred edge walk. -/
structure Entry where
  cost : ℚ
  hops : ℕ
  walk : Bool
  record : ℕ
  deriving DecidableEq, Repr

/-- What entries are ordered by. -/
def Entry.key (e : Entry) : ℚ ×ₗ ℕ ×ₗ Bool ×ₗ ℕ :=
  toLex (e.cost, toLex (e.hops, toLex (e.walk, e.record)))

lemma Entry.key_injective : Function.Injective Entry.key := by
  rintro ⟨cost, hops, walk, record⟩ ⟨cost', hops', walk', record'⟩ h
  simpa [Entry.key] using h

instance : LinearOrder Entry := LinearOrder.lift' Entry.key Entry.key_injective

/-- The heap, the least entry first. -/
structure CostHeap where
  entries : List Entry
  sorted : entries.Pairwise (· ≤ ·)

def CostHeap.push (h : CostHeap) (e : Entry) : CostHeap :=
  ⟨h.entries.orderedInsert (· ≤ ·) e, h.sorted.orderedInsert e h.entries⟩

/-- The levels being settled and after it, each in creation order, and the edge walks of the level's
settled states. -/
structure LevelQueue where
  level : ℕ
  now : List ℕ
  walks : List ℕ
  next : List ℕ
  deriving DecidableEq, Repr

inductive Frontier where
  | levels (f : LevelQueue)
  | costs (h : CostHeap)

namespace Frontier

/-- A search without a cost goes by levels. -/
def empty (cheapest : Bool) : Frontier :=
  if cheapest then .costs ⟨[], .nil⟩ else .levels ⟨0, [], [], []⟩

def pushWalk (f : Frontier) (record : ℕ) (cost : ℚ) (hops : ℕ) : Frontier :=
  match f with
  | levels f => levels { f with walks := f.walks ++ [record] }
  | costs h => costs (h.push ⟨cost, hops, true, record⟩)

def push (f : Frontier) (record : ℕ) (cost : ℚ) (hops : ℕ) : Frontier :=
  match f with
  | levels f =>
      if hops = f.level then levels { f with now := f.now ++ [record] }
      else levels { f with next := f.next ++ [record] }
  | costs h => costs (h.push ⟨cost, hops, false, record⟩)

/-- The next record, and whether it is a deferred edge walk. -/
def pop (f : Frontier) : Option ((ℕ × Bool) × Frontier) :=
  match f with
  | levels f =>
      match f.now with
      | record :: now => some ((record, false), levels { f with now })
      | [] =>
          match f.walks with
          | record :: walks => some ((record, true), levels { f with walks })
          | [] =>
              match f.next with
              | [] => none
              | record :: now =>
                  some ((record, false), levels { f with level := f.level + 1, now, next := [] })
  | costs ⟨[], _⟩ => none
  | costs ⟨e :: entries, sorted⟩ => some ((e.record, e.walk), costs ⟨entries, sorted.of_cons⟩)

end Frontier

/-- A product state. -/
abbrev Key (α : Type) := EntityId × ℕ × ℕ × List (BindingValue α)

/-- The search from one input row. -/
structure Selection (α : Type) where
  /-- the input row, with the start's bindings written in -/
  base : Row α
  /-- `base` with one arrival's bindings written in, while its tests run -/
  scratch : Row α
  undo : List (ℕ × BindingValue α)
  records : List (Record α)
  /-- under `WALK`, the record of each product state's best arrival -/
  best : List (Key α × ℕ)
  frontier : Frontier
  /-- the end nodes already given a witness -/
  ends : List EntityId
  /-- the end node was bound in advance -/
  fixed : Bool

structure Select (α : Type) where
  input : List (Row α)
  run : Option (Selection α)

/-- The records from the start to a record. -/
def chainTo (records : List (Record α)) : ℕ → ℕ → List (Record α)
  | 0, _ => []
  | fuel + 1, i =>
      match records[i]? with
      | none => []
      | some r =>
          (match r.parent with
            | none => []
            | some p => chainTo records fuel p) ++ [r]

/-- A record's predecessors, itself included; a predecessor has a lower index. -/
def chain (records : List (Record α)) (index : ℕ) : List (Record α) :=
  chainTo records (index + 1) index

namespace Selection

variable (s : Setting α) (cost : Option (Pricing α))

/-- The mode is checked along the predecessors. -/
def revisits (run : Selection α) (parent : ℕ) (e : EdgeId) (node : EntityId) : Bool :=
  match s.automaton.mode with
  | .walk => false
  | .trail => (chain run.records parent).any fun r => r.via.any fun x => decide (x.1 = e)
  | .acyclic => (chain run.records parent).any fun r => decide (r.node = node)

/-- The values of the parent's key slots are written over the base row, and logged. -/
def inherit (x : Scratch α) : List (ℕ × BindingValue α) → Scratch α
  | [] => x
  | (slot, value) :: rest =>
      inherit ⟨x.row.set slot value, (slot, x.row.value slot) :: x.undo, x.events⟩ rest

/-- The record is queued, unless its product state is settled or has been reached as cheaply. -/
def keep (run : Selection α) (r : Record α) : Selection α :=
  let index := run.records.length
  let queued (run : Selection α) : Selection α := { run with
    records := run.records ++ [r]
    frontier := run.frontier.push index r.cost r.hops }
  if s.automaton.mode = .walk then
    let key : Key α := (r.node, r.state, r.k, r.binds)
    match run.best.find? (fun b => decide (b.1 = key)) with
    | some (_, i) =>
        match run.records[i]? with
        | none => run
        | some old =>
            if old.settled ∨ old.cost < r.cost ∨ old.cost = r.cost ∧ old.hops ≤ r.hops then run
            else queued { run with
              records := run.records.set i { old with superseded := true }
              best := (key, index) :: run.best }
    | none => queued { run with best := (key, index) :: run.best }
  else queued run

/-- What an arrival's tests say: the cost of the path so far, or none when one fails. -/
def tested (admits : Bool) (row : Row α) (via : Option (EdgeId × Bool)) (total : ℚ) :
    Except Error (Option ℚ) :=
  if admits = false then .ok none
  else
    match cost, via with
    | some p, some (e, _) => do
        let crossing ← p.edgeCost (p.cost row) e
        return some (total + crossing)
    | _, _ => .ok (some total)

/-- Reach a visit from a record, or as the start: a record is made and queued when every test holds and
the state is new or reached more cheaply. -/
def arrive (run : Selection α) (parent : Option ℕ) (v : Visit) (k : ℕ) :
    Except Error (Selection α) := do
  let before := parent.bind fun p => run.records[p]?
  if (parent.any fun p => v.via.any fun x => revisits s run p x.1 v.node) then return run
  else
    let x : Scratch α := ⟨run.scratch, run.undo, []⟩
    let x := match before with
      | none => x
      | some p => inherit x ((s.automaton.keySlots p.state).zip p.binds)
    let hops := before.elim 0 Record.hops + if v.via.isSome then 1 else 0
    let r := admitted s.automaton s.holds x v.q v.node v.crossed
    let run : Selection α :=
      if parent.isNone ∧ r.1 = true then { run with base := r.2.row, scratch := r.2.row, undo := [] }
      else
        let back := restore r.2.row r.2.undo 0
        { run with scratch := back.1, undo := back.2 }
    match ← tested cost r.1 r.2.row v.via (before.elim 0 Record.cost) with
    | none => return run
    | some total =>
        let made : Record α :=
          { node := v.node
            state := v.q
            k
            parent
            via := v.via
            binds := s.automaton.keyValues r.2.row v.q
            cost := total
            hops
            settled := false
            superseded := false }
        return run.keep s made

/-- One adjacency range is walked in refills. -/
def walkRange (parent : ℕ) (node : EntityId) (link k : ℕ) (step : EdgeStep) (range : Range) :
    ℕ → Option EdgeId → Selection α → Except Error (Selection α)
  | 0, _, run => .ok run
  | fuel + 1, paused, run => do
      let r := refill s.graph node step.context step.direction range paused refillPostings
        (s.automaton.labelsAdmit (link + 1))
      let run ← r.1.foldlM (fun run e => run.arrive s cost (some parent)
        ⟨link + 1, e.2, some (e.1, decide (range.1 = .out))⟩ k) run
      match r.2 with
      | none => return run
      | some paused => walkRange parent node link k step range fuel (some paused) run

/-- Cross the edge step of a link from a record. -/
def walk (run : Selection α) (parent : ℕ) (node : EntityId) (link k : ℕ) : Except Error (Selection α) :=
  match s.automaton.edgeStep link with
  | none => .ok run
  | some step => (s.automaton.linkRanges link).foldlM (fun run range =>
      walkRange s cost parent node link k step range
        ((adjacency s.graph node step.context range).card + 1) none run) run

/-- The moves out of a settled record: those on the same node, or its edge steps; these are deferred
until all of its cost are settled. -/
def expand (run : Selection α) (index : ℕ) (walks : Bool) : Except Error (Selection α) :=
  match run.records[index]? with
  | none => .ok run
  | some r => do
      let ms := moves s.automaton r.state r.k
      let run ← ms.foldlM (fun run m => match m with
        | .same q k => if walks then .ok run else run.arrive s cost (some index) ⟨q, r.node, none⟩ k
        | .edge link => if walks then run.walk s cost index r.node link r.k else .ok run) run
      if !walks && ms.any fun m => match m with
        | .same _ _ => false
        | .edge _ => true then
        return { run with frontier := run.frontier.pushWalk index r.cost r.hops }
      else return run

/-- The group elements of records, in path order. -/
def chainEvents (a : PathAutomaton) : Option (Record α) → List (Record α) → List (ℕ × Element)
  | _, [] => []
  | before, r :: rest =>
      let edge : List (Binding × Element) := match r.via, before with
        | some (e, _), some p => (a.viaBinding p.state).toList.map fun b => (b, .edge e)
        | _, _ => []
      let node : List (Binding × Element) := (a.nodeBinding r.state).toList.map fun b => (b, .node r.node)
      grouping (edge ++ node) ++ chainEvents a (some r) rest

/-- The path of records. -/
def chainPath : List (Record α) → Option PathRef
  | [] => none
  | root :: rest => some (rest.foldl (fun path r => match r.via with
      | some (e, forward) => .step path e forward r.node
      | none => path) (.start root.node))

/-- The witness row of an accepting record. -/
def emit (run : Selection α) (index : ℕ) : Row α :=
  match run.records[index]? with
  | none => run.base
  | some accept =>
      let c := chain run.records index
      let row := PathAutomaton.fill run.base (s.automaton.keySlots accept.state) accept.binds
      match chainPath c with
      | none => row
      | some path => completeRow s.automaton row (chainEvents s.automaton none c) path

end Selection

namespace Select

variable (s : Setting α) (cost : Option (Pricing α))

/-- A cheapest search is refused, unless its pattern crosses exactly one edge step, bound to a slot that
its cost can read. -/
def new (rows : List (Row α)) : Except Error (Select α) := do
  let steps := (List.range s.automaton.links.length).filterMap s.automaton.edgeStep
  refuse (cost.isSome ∧ ¬ (steps.length = 1 ∧ ∀ step ∈ steps, step.bind.isSome))
    (.invalid ("ANY CHEAPEST takes one COST: its pattern must cross exactly one edge step, and bind "
      ++ "that edge"))
  return ⟨rows, none⟩

/-- Start the search from a row, or skip a row whose start is null. -/
def start (row : Row α) : Except Error (Option (Selection α)) := do
  let a := s.automaton
  match ← nodeIn s.debug row s.origin "a path pattern's start" with
  | none => return none
  | some node =>
      let fixed := (a.nodeBinding (a.states.length - 1)).any fun b =>
        !b.group && decide (row.value b.slot ≠ .null)
      let run : Selection α :=
        { base := row
          scratch := row
          undo := []
          records := []
          best := []
          frontier := .empty cost.isSome
          ends := []
          fixed }
      return some (← run.arrive s cost none ⟨0, node, none⟩ 0)

/-- One turn of the loop of `next`. -/
def turn (op : Select α) : Except Error (Turn (Select α) (Row α)) :=
  match op.run with
  | none =>
      match op.input with
      | [] => .ok .ends
      | row :: input => do
          let run ← start s cost row
          return .going { op with input, run }
  | some run =>
      match run.frontier.pop with
      | none => .ok (.going { op with run := none })
      | some ((index, walk), frontier) =>
          let run := { run with frontier }
          if walk then do
            let run ← run.expand s cost index true
            return .going { op with run := some run }
          else
            match run.records[index]? with
            | none => .ok (.going { op with run := some run })
            | some r =>
                if r.superseded then .ok (.going { op with run := some run })
                else
                  let run := { run with records := run.records.set index { r with settled := true } }
                  if r.state + 1 < s.automaton.states.length then do
                    let run ← run.expand s cost index false
                    return .going { op with run := some run }
                  else if r.node ∈ run.ends then .ok (.going { op with run := some run })
                  else
                    let run := { run with ends := r.node :: run.ends }
                    .ok (.gives (run.emit s index)
                      { op with run := if run.fixed then none else some run })

end Select

end Engine.Gql
