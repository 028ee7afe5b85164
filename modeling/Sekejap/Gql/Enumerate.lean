import Sekejap.Gql.Bindings

/-!
# Path enumeration

Every match of a path pattern, for every input row (`core/engine/src/query/gql/paths/enumerate.rs`): a
depth-first search with a stack of frames over one row.  A frame goes through the moves of its position;
an edge move is walked in refills of adjacency, each set down where it stopped.  A frame that is dropped
takes its bindings out of the row and its group elements off their list.

The sizes of the refills are those of an arbitrary sequence.  Limits, meters and cancellation are left
out, and predicates are functions of the row.

* **`enumerate_matches`** — the operator comes to its end, whatever the sizes of the refills, and has
  produced for every input row exactly the matches from its start node, each pair of path and row once.
-/

open Collections (EntityId)

open Engine.Graph (EdgeId Keyspaces Dir ascending)

open Fallible

open Search (Turn Gives drain Preorder fresh given)

namespace Engine.Gql

variable {α : Type} [DecidableEq α]

/-! ## The operator -/

/-- An edge move being walked. -/
structure Walk where
  link : ℕ
  /-- the move after this one -/
  after : ℕ
  /-- the range being walked, an index into the link's ranges -/
  range : ℕ
  paused : Option EdgeId
  /-- edges of the last refill not yet tried: the edge, the far node, and whether it is crossed from
  source to destination -/
  refill : List (EdgeId × EntityId × Bool)
  deriving DecidableEq, Repr

inductive Todo where
  /-- an accepting state not yet emitted -/
  | emit
  /-- the next move to try, an index into the moves of the frame -/
  | moves (next : ℕ)
  | walk (w : Walk)
  deriving DecidableEq, Repr

/-- One product state on the stack. -/
structure Frame where
  node : EntityId
  state : ℕ
  k : ℕ
  path : PathRef
  /-- where this frame's entries start in the two logs -/
  undoFrom : ℕ
  eventsFrom : ℕ
  todo : Todo
  deriving DecidableEq, Repr

/-- The search from one input row, the top frame first. -/
structure Run (α : Type) where
  row : Row α
  stack : List Frame
  undo : List (ℕ × BindingValue α)
  events : List (ℕ × Element)
  /-- the matches emitted for this input row, kept only when the pattern is ambiguous -/
  seen : List (PathRef × Row α)

/-- What stays as it is while the operator runs. -/
structure Setting (α : Type) where
  automaton : PathAutomaton
  /-- the slot of the start node -/
  origin : ℕ
  graph : Keyspaces
  holds : ℕ → Row α → Bool
  /-- how a value is shown in an error -/
  debug : BindingValue α → String
  /-- the postings each refill takes -/
  sizes : ℕ → ℕ

structure Enumerate (α : Type) where
  input : List (Row α)
  run : Option (Run α)
  /-- the refills made so far -/
  refills : ℕ

/-- `node_in` -/
def nodeIn (debug : BindingValue α → String) (row : Row α) (slot : ℕ) (what : String) :
    Except Error (Option EntityId) :=
  match row.value slot with
  | .element (.node n) => .ok (some n)
  | .null => .ok none
  | other => .error (.invalid (what ++ " must be a node, not " ++ debug other))

/-- Crossing an edge to a node would take up again what the mode lets a path have once. -/
def revisits (mode : PathMode) (path : PathRef) (e : EdgeId) (node : EntityId) : Bool :=
  match mode with
  | .walk => false
  | .trail => path.hasEdge e
  | .acyclic => path.hasNode node

namespace PathAutomaton

/-- `link_ranges` -/
def linkRanges (a : PathAutomaton) (l : ℕ) : List Range :=
  match a.edgeStep l with
  | none => []
  | some step => ranges step.direction step.types

end PathAutomaton

namespace Run

variable (s : Setting α)

/-- The top frame is given something else to do. -/
def retodo (run : Run α) (todo : Todo) : Run α :=
  match run.stack with
  | [] => run
  | top :: below => { run with stack := { top with todo } :: below }

/-- The path to the top frame, or the one that starts at a node. -/
def pathTo (run : Run α) (node : EntityId) : PathRef :=
  match run.stack with
  | [] => .start node
  | top :: _ => top.path

/-- Enter `state` at a node from the top frame, or as the start, crossing an edge when one is given:
a frame is pushed if every test holds. -/
def arrive (run : Run α) (v : Visit) (k : ℕ) : Run α :=
  let path := run.pathTo v.node
  if v.via.any fun x => revisits s.automaton.mode path x.1 v.node then run
  else
    let r := admitted s.automaton s.holds ⟨run.row, run.undo, run.events⟩ v.q v.node v.crossed
    let x := r.2
    if r.1 = false then
      let back := restore x.row x.undo run.undo.length
      { run with
        row := back.1
        undo := back.2
        events := x.events.drop (x.events.length - run.events.length) }
    else
      let frame : Frame :=
        { node := v.node
          state := v.q
          k
          path := v.extend path
          undoFrom := run.undo.length
          eventsFrom := run.events.length
          todo := if v.q + 1 = s.automaton.states.length then .emit else .moves 0 }
      { run with row := x.row, undo := x.undo, events := x.events, stack := frame :: run.stack }

/-- The match a path completes, or none for a duplicate. -/
def emit (run : Run α) (path : PathRef) : Option (Row α) × Run α :=
  let row := completeRow s.automaton run.row run.events.reverse path
  if s.automaton.ambiguous then
    if (path, row) ∈ run.seen then (none, run)
    else (some row, { run with seen := (path, row) :: run.seen })
  else (some row, run)

/-- The next refill of a walk from a node, or, at the range's end, the next range. -/
def refilled (w : Walk) (node : EntityId) (postings : ℕ) : Walk :=
  match s.automaton.edgeStep w.link, (s.automaton.linkRanges w.link)[w.range]? with
  | some step, some range =>
      let r := refill s.graph node step.context step.direction range w.paused postings
        (s.automaton.labelsAdmit (w.link + 1))
      { w with
        refill := w.refill ++ r.1.map fun x => (x.1, x.2, decide (range.1 = .out))
        range := if r.2.isNone then w.range + 1 else w.range
        paused := r.2 }
  | _, _ => w

/-- Drop the top frame, restoring the slots it wrote. -/
def pop (run : Run α) : Run α :=
  match run.stack with
  | [] => run
  | top :: below =>
      let back := restore run.row run.undo top.undoFrom
      { run with
        row := back.1
        undo := back.2
        stack := below
        events := run.events.drop (run.events.length - top.eventsFrom) }

end Run

namespace Enumerate

variable (s : Setting α)

/-- Start the search from a row, or skip a row whose start is null. -/
def start (row : Row α) : Except Error (Option (Run α)) := do
  let node ← nodeIn s.debug row s.origin "a path pattern's start"
  return node.map fun node =>
    Run.arrive s { row, stack := [], undo := [], events := [], seen := [] } ⟨0, node, none⟩ 0

/-- One turn of the loop of `next`. -/
def turn (op : Enumerate α) : Except Error (Turn (Enumerate α) (Row α)) :=
  match op.run with
  | none =>
      match op.input with
      | [] => .ok .ends
      | row :: input => do
          let run ← start s row
          return .going { op with input, run }
  | some run =>
      match run.stack with
      | [] => .ok (.going { op with run := none })
      | top :: _ =>
          match top.todo with
          | .emit =>
              match (run.retodo (.moves 0)).emit s top.path with
              | (some row, run) => .ok (.gives row { op with run := some run })
              | (none, run) => .ok (.going { op with run := some run })
          | .moves next =>
              match (moves s.automaton top.state top.k)[next]? with
              | none => .ok (.going { op with run := some run.pop })
              | some (.same q k) => .ok (.going { op with
                  run := some ((run.retodo (.moves (next + 1))).arrive s ⟨q, top.node, none⟩ k) })
              | some (.edge link) => .ok (.going { op with
                  run := some (run.retodo (.walk ⟨link, next + 1, 0, none, []⟩)) })
          | .walk w =>
              match w.refill with
              | (e, far, forward) :: refill => .ok (.going { op with
                  run := some ((run.retodo (.walk { w with refill })).arrive s
                    ⟨w.link + 1, far, some (e, forward)⟩ top.k) })
              | [] =>
                  if w.range < (s.automaton.linkRanges w.link).length then
                    .ok (.going { op with
                      run := some (run.retodo (.walk (Run.refilled s w top.node (s.sizes op.refills))))
                      refills := op.refills + 1 })
                  else .ok (.going { op with run := some (run.retodo (.moves w.after)) })

end Enumerate

/-! ## Paths -/

section Paths

variable {start node : EntityId} {visits before : List Visit} {v : Visit} {e : EdgeId}

lemma hasEdge_pathOf : (pathOf start visits).hasEdge e = true ↔ e ∈ edges visits := by
  induction visits using List.reverseRecOn with
  | nil => simp [pathOf, PathRef.hasEdge, edges]
  | append_singleton visits v ih =>
      rw [pathOf_concat, edges_append, List.mem_append, ← ih, Visit.extend, or_comm]
      cases hv : v.via with
      | none => simp [edges, hv]
      | some x => simp [edges, hv, PathRef.hasEdge, @eq_comm _ e]

lemma hasNode_pathOf : (pathOf start visits).hasNode node = true ↔ node ∈ start :: arrived visits := by
  induction visits using List.reverseRecOn with
  | nil => simp [pathOf, PathRef.hasNode, arrived, eq_comm]
  | append_singleton visits v ih =>
      rw [pathOf_concat, arrived_append, ← List.cons_append, List.mem_append, ← ih, Visit.extend,
        or_comm]
      cases hv : v.via with
      | none => simp [arrived, hv]
      | some x => simp [arrived, hv, PathRef.hasNode, @eq_comm _ node]

/-- **The check of a mode at an edge is that of the path as a whole.** -/
lemma allows_concat {mode : PathMode} (h : mode.Allows start before) :
    mode.Allows start (before ++ [v])
      ↔ (v.via.any fun x => revisits mode (pathOf start before) x.1 v.node) = false := by
  cases hv : v.via with
  | none =>
      have hedges : edges (before ++ [v]) = edges before := by simp [edges, hv]
      have harrived : arrived (before ++ [v]) = arrived before := by simp [arrived, hv]
      cases mode with
      | walk => simp [PathMode.Allows]
      | trail => simpa [PathMode.Allows, hedges] using h
      | acyclic => simpa [PathMode.Allows, harrived] using h
  | some x =>
      have hedges : edges (before ++ [v]) = edges before ++ [x.1] := by simp [edges, hv]
      have harrived : arrived (before ++ [v]) = arrived before ++ [v.node] := by simp [arrived, hv]
      cases mode with
      | walk => simp [PathMode.Allows, revisits]
      | trail =>
          have h' : (edges before).Nodup := h
          simp only [PathMode.Allows, hedges, Option.any_some, revisits, ← Bool.not_eq_true,
            hasEdge_pathOf]
          rw [← List.concat_eq_append, List.nodup_concat]
          simp [h']
      | acyclic =>
          have h' : (start :: arrived before).Nodup := h
          simp only [PathMode.Allows, harrived, Option.any_some, revisits, ← Bool.not_eq_true,
            hasNode_pathOf]
          rw [← List.cons_append, ← List.concat_eq_append, List.nodup_concat]
          simp [h']

end Paths

/-! ## Standing at a configuration -/

section Standing

variable {s : Setting α} {width : ℕ} {base : Row α} {start : EntityId}

/-- The search stands at the visits: they are written into the row, and their group elements logged. -/
structure Stands (s : Setting α) (base : Row α) (visits : List Visit) (x : Scratch α) : Prop where
  row : x.row = s.automaton.seen base visits
  events : x.events = (s.automaton.events visits).reverse

/-- A run, by its row and logs. -/
def Scratch.run (x : Scratch α) (stack : List Frame) (seen : List (PathRef × Row α)) : Run α :=
  ⟨x.row, stack, x.undo, x.events, seen⟩

/-- What a frame does first. -/
def firstTodo (s : Setting α) (q : ℕ) : Todo :=
  if q + 1 = s.automaton.states.length then .emit else .moves 0

/-- The frame of a configuration arrived at from `x`. -/
def frameOf (start : EntityId) (c : Config) (x : Scratch α) (todo : Todo) : Frame :=
  ⟨c.visit.node, c.visit.q, c.k, pathOf start c.visits, x.undo.length, x.events.length, todo⟩

lemma arrive_spec (hs : s.automaton.Sound width false) (hlen : base.length = width) {x : Scratch α}
    (stack : List Frame) (seen : List (PathRef × Row α)) {before : List Visit} (v : Visit) (k : ℕ)
    (hx : Stands s base before x) (hmode : s.automaton.mode.Allows start before)
    (hagree : Agree base (before.flatMap s.automaton.bound))
    (hpath : (x.run stack seen).pathTo v.node = pathOf start before) :
    (s.automaton.Passes s.holds (s.automaton.seen base) base start before v →
      ∃ y, Extends x y ∧ Stands s base (before ++ [v]) y ∧ (x.run stack seen).arrive s v k
        = y.run (frameOf start ⟨before, v, k⟩ x (firstTodo s v.q) :: stack) seen)
      ∧ (¬ s.automaton.Passes s.holds (s.automaton.seen base) base start before v →
        (x.run stack seen).arrive s v k = x.run stack seen) := by
  have hback := restore_admitted s.automaton s.holds x v
  obtain ⟨hiff, hadmitted⟩ := admitted_iff s.holds v hs hlen hx.row hagree
  have hallow := allows_concat (v := v) hmode
  rw [Run.arrive]
  simp only [hpath]
  constructor
  · intro hp
    have hok := hiff.2 ⟨hp.labels, hp.agree, hp.tests⟩
    obtain ⟨hrow, hevents⟩ := hadmitted hok
    refine ⟨(admitted s.automaton s.holds x v.q v.node v.crossed).2, hback, ⟨hrow, ?_⟩, ?_⟩
    · rw [hevents, hx.events, PathAutomaton.events, PathAutomaton.events, List.flatMap_append,
        List.flatMap_singleton, grouping_append, List.reverse_append]
    · rw [if_neg (by rw [hallow.1 hp.mode]; simp), if_neg]
      · simp only [Scratch.run, frameOf, firstTodo, Config.visits, pathOf_concat]
      · rw [Bool.not_eq_false]
        exact hok
  · intro hp
    by_cases hr : (v.via.any fun y => revisits s.automaton.mode (pathOf start before) y.1 v.node) = true
    · rw [if_pos hr]
    · rw [if_neg hr]
      rw [Bool.not_eq_true] at hr
      have hno : (admitted s.automaton s.holds x v.q v.node v.crossed).1 = false := by
        rw [← Bool.not_eq_true, hiff]
        rintro ⟨h1, h2, h3⟩
        exact hp ⟨h1, hallow.2 hr, h2, h3⟩
      obtain ⟨hundo, hevents⟩ := restore_extends hback
      have h : ∀ y : Scratch α, restore y.row y.undo x.undo.length = (x.row, x.undo) →
          y.events.drop (y.events.length - x.events.length) = x.events →
          (⟨(restore y.row y.undo x.undo.length).1, stack, (restore y.row y.undo x.undo.length).2,
            y.events.drop (y.events.length - x.events.length), seen⟩ : Run α) = x.run stack seen := by
        intro y h1 h2
        rw [h1, h2]
        rfl
      rw [if_pos]
      · exact h _ hundo hevents
      · exact hno

end Standing
/-! ## Going through configurations -/

section Going

variable {s : Setting α} {width : ℕ} {base : Row α} {start : EntityId} {input : List (Row α)}
  {x y z : Scratch α} {st st' st'' : List Frame} {cs ds l m : List Config} {c d : Config}
  {todo todo' : Todo} {v : Visit} {k : ℕ}

/-- The configurations a search goes on to, over the row with the visits so far written in. -/
noncomputable def kids (s : Setting α) (base : Row α) (start : EntityId) : Config → List Config :=
  s.automaton.children s.graph s.holds (s.automaton.seen base) base start

/-- The matches among configurations: their paths and rows. -/
def found (s : Setting α) (base : Row α) (start : EntityId) (l : List Config) :
    List (PathRef × Row α) :=
  (l.filter fun c => decide (c.visit.q + 1 = s.automaton.states.length)).map fun c =>
    (pathOf start c.visits, s.automaton.result base start c.visits)

omit [DecidableEq α] in
lemma found_append : found s base start (l ++ m) = found s base start l ++ found s base start m := by
  simp [found]

/-- The operator in the middle of a search. -/
def searching (input : List (Row α)) (refills : ℕ) (x : Scratch α) (stack : List Frame)
    (seen : List (PathRef × Row α)) : Enumerate α :=
  ⟨input, some (x.run stack seen), refills⟩

/-- The operator goes through trees of configurations and gives the matches in them. -/
def Goes (s : Setting α) (base : Row α) (start : EntityId) (input : List (Row α)) (cs : List Config)
    (x y : Scratch α) (st st' : List Frame) : Prop :=
  ∀ seen refills, ∃ l refills', Preorder (kids s base start) cs l
    ∧ Gives (Enumerate.turn s) (searching input refills x st seen)
      ((fresh s.automaton.ambiguous seen (found s base start l)).map Prod.snd)
      (searching input refills' y st' (given s.automaton.ambiguous seen (found s base start l)))

lemma given_nil (once : Bool) {O : Type} [DecidableEq O] (seen : List O) : given once seen [] = seen := by
  cases once <;> simp [given, fresh]

lemma Goes.trans (h : Goes s base start input cs x y st st')
    (h' : Goes s base start input ds y z st' st'') :
    Goes s base start input (cs ++ ds) x z st st'' := by
  intro seen refills
  obtain ⟨l, r, hl, hg⟩ := h seen refills
  obtain ⟨m, r', hm, hg'⟩ := h' _ r
  refine ⟨l ++ m, r', hl.append hm, ?_⟩
  rw [found_append, Search.fresh_append, Search.given_append, List.map_append]
  exact hg.trans hg'

/-- A turn without a result. -/
lemma goes_of_turn (h : ∀ seen refills, ∃ refills', Enumerate.turn s (searching input refills x st seen)
      = .ok (.going (searching input refills' y st' seen))) :
    Goes s base start input [] x y st st' := by
  intro seen refills
  obtain ⟨r, hr⟩ := h seen refills
  refine ⟨[], r, .nil, ?_⟩
  have hnil : found s base start [] = [] := rfl
  rw [hnil, given_nil]
  exact Gives.once hr

lemma Goes.after_turn (h : ∀ seen refills, ∃ refills',
      Enumerate.turn s (searching input refills x st seen)
        = .ok (.going (searching input refills' y st' seen)))
    (h' : Goes s base start input cs y z st' st'') : Goes s base start input cs x z st st'' :=
  (goes_of_turn h).trans h'

/-- The tree of a configuration that has been arrived at is gone through, and the arrival taken back. -/
def Visits (s : Setting α) (base : Row α) (start : EntityId) (input : List (Row α)) (c : Config) :
    Prop :=
  ∀ x y st, Extends x y → Stands s base c.visits y →
    Goes s base start input [c] y x (frameOf start c x (firstTodo s c.visit.q) :: st) st

/-- One visit is tried. -/
lemma goes_try (hs : s.automaton.Sound width false) (hlen : base.length = width)
    (hp : s.automaton.Partly s.graph s.holds (s.automaton.seen base) base start c)
    (hy : Stands s base c.visits y)
    (hkids : ∀ d ∈ kids s base start c, Visits s base start input d)
    (hmem : (v, k) ∈ s.automaton.candidates s.graph c)
    (hturn : ∀ seen refills, ∃ refills',
      Enumerate.turn s (searching input refills y (frameOf start c x todo :: st) seen)
        = .ok (.going ⟨input,
          some ((y.run (frameOf start c x todo' :: st) seen).arrive s v k), refills'⟩)) :
    Goes s base start input
      (s.automaton.passing s.holds (s.automaton.seen base) base start c.visits [(v, k)]) y y
      (frameOf start c x todo :: st) (frameOf start c x todo' :: st) := by
  have hspec : ∀ seen, _ := fun seen => 
    arrive_spec hs hlen (frameOf start c x todo' :: st) seen v k hy hp.mode hp.agree rfl
  by_cases hpass : s.automaton.Passes s.holds (s.automaton.seen base) base start c.visits v
  · have hone : s.automaton.passing s.holds (s.automaton.seen base) base start c.visits [(v, k)]
        = [⟨c.visits, v, k⟩] := by
      simp [PathAutomaton.passing, hpass]
    have hd : (⟨c.visits, v, k⟩ : Config) ∈ kids s base start c := by
      rw [kids, PathAutomaton.children, PathAutomaton.mem_passing]
      exact ⟨rfl, hmem, hpass⟩
    rw [hone]
    intro seen refills
    obtain ⟨r, hr⟩ := hturn seen refills
    obtain ⟨z, hz, hstands, heq⟩ := (hspec seen).1 hpass
    rw [heq] at hr
    obtain ⟨l, r', hl, hg⟩ := hkids _ hd y z _ hz hstands seen r
    exact ⟨l, r', hl, .going hr hg⟩
  · have hnone : s.automaton.passing s.holds (s.automaton.seen base) base start c.visits [(v, k)]
        = [] := by
      simp [PathAutomaton.passing, hpass]
    rw [hnone]
    refine goes_of_turn fun seen refills => ?_
    obtain ⟨r, hr⟩ := hturn seen refills
    rw [(hspec seen).2 hpass] at hr
    exact ⟨r, hr⟩

/-! ### The turns of a frame -/

lemma turn_moves_none {next : ℕ} (h : (moves s.automaton c.visit.q c.k)[next]? = none) {seen refills} :
    Enumerate.turn s (searching input refills y (frameOf start c x (.moves next) :: st) seen)
      = .ok (.going ⟨input, some (y.run (frameOf start c x (.moves next) :: st) seen).pop, refills⟩) := by
  simp [Enumerate.turn, searching, Scratch.run, frameOf, h]

lemma turn_moves_same {next q k : ℕ} (h : (moves s.automaton c.visit.q c.k)[next]? = some (.same q k))
    {seen refills} :
    Enumerate.turn s (searching input refills y (frameOf start c x (.moves next) :: st) seen)
      = .ok (.going ⟨input, some ((y.run (frameOf start c x (.moves (next + 1)) :: st) seen).arrive s
        ⟨q, c.visit.node, none⟩ k), refills⟩) := by
  simp [Enumerate.turn, searching, Scratch.run, frameOf, h, Run.retodo]

lemma turn_moves_edge {next link : ℕ} (h : (moves s.automaton c.visit.q c.k)[next]? = some (.edge link))
    {seen refills} :
    Enumerate.turn s (searching input refills y (frameOf start c x (.moves next) :: st) seen)
      = .ok (.going (searching input refills y
        (frameOf start c x (.walk ⟨link, next + 1, 0, none, []⟩) :: st) seen)) := by
  simp [Enumerate.turn, searching, Scratch.run, frameOf, h, Run.retodo]

lemma turn_walk_try {w : Walk} {e : EdgeId} {far : EntityId} {forward : Bool}
    {rest : List (EdgeId × EntityId × Bool)} (h : w.refill = (e, far, forward) :: rest) {seen refills} :
    Enumerate.turn s (searching input refills y (frameOf start c x (.walk w) :: st) seen)
      = .ok (.going ⟨input, some ((y.run (frameOf start c x (.walk { w with refill := rest }) :: st)
        seen).arrive s ⟨w.link + 1, far, some (e, forward)⟩ c.k), refills⟩) := by
  simp [Enumerate.turn, searching, Scratch.run, frameOf, h, Run.retodo]

lemma turn_walk_refill {w : Walk} (h : w.refill = [])
    (hr : w.range < (s.automaton.linkRanges w.link).length) {seen refills} :
    Enumerate.turn s (searching input refills y (frameOf start c x (.walk w) :: st) seen)
      = .ok (.going (searching input (refills + 1) y
        (frameOf start c x (.walk (Run.refilled s w c.visit.node (s.sizes refills))) :: st) seen)) := by
  simp [Enumerate.turn, searching, Scratch.run, frameOf, h, hr, Run.retodo]

lemma turn_walk_end {w : Walk} (h : w.refill = [])
    (hr : ¬ w.range < (s.automaton.linkRanges w.link).length) {seen refills} :
    Enumerate.turn s (searching input refills y (frameOf start c x (.walk w) :: st) seen)
      = .ok (.going (searching input refills y (frameOf start c x (.moves w.after) :: st) seen)) := by
  simp [Enumerate.turn, searching, Scratch.run, frameOf, h, hr, Run.retodo]

/-! ### The visits of a frame -/

/-- A turn whose outcome depends on how many refills there have been. -/
lemma goes_of_refill (h : ∀ refills, ∃ st', (∀ seen,
      Enumerate.turn s (searching input refills x st seen)
        = .ok (.going (searching input (refills + 1) y st' seen)))
      ∧ Goes s base start input cs y z st' st'') : Goes s base start input cs x z st st'' := by
  intro seen refills
  obtain ⟨st', hturn, hgoes⟩ := h refills
  obtain ⟨l, r, hl, hg⟩ := hgoes seen (refills + 1)
  exact ⟨l, r, hl, .going (hturn seen) hg⟩

/-- The visit of an edge that was handed out. -/
def edgeVisit (l k : ℕ) (e : EdgeId × EntityId × Bool) : Visit × ℕ :=
  (⟨l + 1, e.2.1, some (e.1, e.2.2)⟩, k)

/-- What a refill hands out of postings. -/
def handed (s : Setting α) (step : EdgeStep) (range : Range) (l : ℕ) (postings : List EdgeId) :
    List (EdgeId × EntityId × Bool) :=
  (postings.filter (handsOut step.direction range (s.automaton.labelsAdmit (l + 1)))).map fun e =>
    (e.toward range.1, e.key.destination, decide (range.1 = .out))

omit [DecidableEq α] in
lemma refilled_short {l i after m : ℕ} {step : EdgeStep} {range : Range} {paused : Option EdgeId}
    {node : EntityId} (hstep : s.automaton.edgeStep l = some step)
    (hrange : (s.automaton.linkRanges l)[i]? = some range)
    (h : (remaining (adjacency s.graph node step.context range) paused).length < m) :
    Run.refilled s ⟨l, after, i, paused, []⟩ node m = ⟨l, after, i + 1, none,
      handed s step range l (remaining (adjacency s.graph node step.context range) paused)⟩ := by
  simp only [Run.refilled, hstep, hrange, refill, take_eq_remaining]
  rw [List.take_of_length_le h.le, if_pos h]
  simp [handed, Function.comp_def]

omit [DecidableEq α] in
lemma refilled_full {l i m : ℕ} (after : ℕ) {step : EdgeStep} {range : Range} {paused : Option EdgeId}
    {node : EntityId} (hstep : s.automaton.edgeStep l = some step)
    (hrange : (s.automaton.linkRanges l)[i]? = some range) (hm : 0 < m)
    (h : m ≤ (remaining (adjacency s.graph node step.context range) paused).length) :
    ∃ b, ((remaining (adjacency s.graph node step.context range) paused).take m).getLast? = some b
      ∧ Run.refilled s ⟨l, after, i, paused, []⟩ node m = ⟨l, after, i, some b, handed s step range l
        ((remaining (adjacency s.graph node step.context range) paused).take m)⟩ := by
  have hlen : ((remaining (adjacency s.graph node step.context range) paused).take m).length = m := by
    rw [List.length_take, min_eq_left h]
  have hne : (remaining (adjacency s.graph node step.context range) paused).take m ≠ [] :=
    List.ne_nil_of_length_pos (hlen.symm ▸ hm)
  refine ⟨_, List.getLast?_eq_some_getLast hne, ?_⟩
  simp only [Run.refilled, hstep, hrange, refill, take_eq_remaining, hlen, lt_irrefl, if_false,
    List.getLast?_eq_some_getLast hne]
  simp [handed, Function.comp_def]

section Frame

variable (hs : s.automaton.Sound width false) (hlen : base.length = width)
  (hp : s.automaton.Partly s.graph s.holds (s.automaton.seen base) base start c)
  (hy : Stands s base c.visits y) (hkids : ∀ d ∈ kids s base start c, Visits s base start input d)

include hs hlen hp hy hkids

/-- The edges of a refill are tried. -/
lemma goes_buffer (w : Walk) (buffer : List (EdgeId × EntityId × Bool))
    (hmem : ∀ e ∈ buffer, edgeVisit w.link c.k e ∈ s.automaton.candidates s.graph c) :
    Goes s base start input
      (s.automaton.passing s.holds (s.automaton.seen base) base start c.visits
        (buffer.map (edgeVisit w.link c.k))) y y
      (frameOf start c x (.walk { w with refill := buffer }) :: st)
      (frameOf start c x (.walk { w with refill := [] }) :: st) := by
  induction buffer with
  | nil =>
      intro seen refills
      refine ⟨[], refills, .nil, ?_⟩
      have hnil : found s base start [] = [] := rfl
      rw [hnil, given_nil]
      exact .refl _
  | cons e buffer ih =>
      rw [List.map_cons, ← List.singleton_append, PathAutomaton.passing_append]
      refine Goes.trans ?_ (ih fun e he => hmem e (List.mem_cons_of_mem _ he))
      exact goes_try hs hlen hp hy hkids (hmem e List.mem_cons_self)
        fun seen refills => ⟨refills, turn_walk_try rfl⟩

/-- A range is walked to its end, in refills of any sizes. -/
lemma goes_range (hsizes : ∀ n, 0 < s.sizes n) {l i after : ℕ} {step : EdgeStep} {range : Range}
    (hstep : s.automaton.edgeStep l = some step)
    (hrange : (s.automaton.linkRanges l)[i]? = some range) (n : ℕ) (paused : Option EdgeId)
    (hn : (remaining (adjacency s.graph c.visit.node step.context range) paused).length < n)
    (hmem : ∀ e ∈ handed s step range l
        (remaining (adjacency s.graph c.visit.node step.context range) paused),
      edgeVisit l c.k e ∈ s.automaton.candidates s.graph c) :
    Goes s base start input
      (s.automaton.passing s.holds (s.automaton.seen base) base start c.visits
        ((handed s step range l
          (remaining (adjacency s.graph c.visit.node step.context range) paused)).map
            (edgeVisit l c.k))) y y
      (frameOf start c x (.walk ⟨l, after, i, paused, []⟩) :: st)
      (frameOf start c x (.walk ⟨l, after, i + 1, none, []⟩) :: st) := by
  induction n generalizing paused with
  | zero => exact absurd hn (Nat.not_lt_zero _)
  | succ n ih =>
      have hlt : i < (s.automaton.linkRanges l).length := (List.getElem?_eq_some_iff.1 hrange).1
      refine goes_of_refill (y := y) fun refills => ?_
      rcases lt_or_ge (remaining (adjacency s.graph c.visit.node step.context range) paused).length
        (s.sizes refills) with hshort | hfull
      · refine ⟨_, fun seen => turn_walk_refill rfl hlt, ?_⟩
        rw [refilled_short hstep hrange hshort]
        exact goes_buffer hs hlen hp hy hkids ⟨l, after, i + 1, none, []⟩ _ hmem
      · obtain ⟨b, hb, heq⟩ := refilled_full after hstep hrange (hsizes refills) hfull
        refine ⟨_, fun seen => turn_walk_refill rfl hlt, ?_⟩
        rw [heq]
        -- what was taken is tried first, then the walk goes on past it
        have hsplit : handed s step range l
            (remaining (adjacency s.graph c.visit.node step.context range) paused)
            = handed s step range l ((remaining (adjacency s.graph c.visit.node step.context range)
                paused).take (s.sizes refills))
              ++ handed s step range l (remaining (adjacency s.graph c.visit.node step.context range)
                (some b)) := by
          rw [remaining_paused hb, handed, handed, handed, ← List.map_append, ← List.filter_append,
            List.take_append_drop]
        rw [hsplit] at hmem ⊢
        rw [List.map_append, PathAutomaton.passing_append]
        refine (goes_buffer hs hlen hp hy hkids ⟨l, after, i, some b, []⟩ _ fun e he =>
          hmem e (List.mem_append_left _ he)).trans ?_
        refine ih (some b) ?_ fun e he => hmem e (List.mem_append_right _ he)
        rw [remaining_paused hb, List.length_drop]
        have := hsizes refills
        omega

/-- The ranges of a link are walked one after another. -/
lemma goes_ranges (hsizes : ∀ n, 0 < s.sizes n) {l after : ℕ} {step : EdgeStep}
    (hstep : s.automaton.edgeStep l = some step) (n i : ℕ)
    (hn : i + n = (s.automaton.linkRanges l).length)
    (hmem : ∀ e ∈ ((s.automaton.linkRanges l).drop i).flatMap (rangeCrossings s.graph c.visit.node step
        (s.automaton.labelsAdmit (l + 1))), edgeVisit l c.k e ∈ s.automaton.candidates s.graph c) :
    Goes s base start input
      (s.automaton.passing s.holds (s.automaton.seen base) base start c.visits
        ((((s.automaton.linkRanges l).drop i).flatMap (rangeCrossings s.graph c.visit.node step
          (s.automaton.labelsAdmit (l + 1)))).map (edgeVisit l c.k))) y y
      (frameOf start c x (.walk ⟨l, after, i, none, []⟩) :: st)
      (frameOf start c x (.walk ⟨l, after, (s.automaton.linkRanges l).length, none, []⟩) :: st) := by
  induction n generalizing i with
  | zero =>
      obtain rfl : i = (s.automaton.linkRanges l).length := hn
      rw [List.drop_length]
      exact goes_buffer hs hlen hp hy hkids ⟨l, after, _, none, []⟩ [] (by simp)
  | succ n ih =>
      have hlt : i < (s.automaton.linkRanges l).length := by omega
      have hone : ∀ range, rangeCrossings s.graph c.visit.node step (s.automaton.labelsAdmit (l + 1)) range
          = handed s step range l
            (remaining (adjacency s.graph c.visit.node step.context range) none) := by
        intro range
        simp [rangeCrossings, handed, remaining]
      rw [List.drop_eq_getElem_cons hlt, List.flatMap_cons] at hmem ⊢
      rw [List.map_append, PathAutomaton.passing_append]
      refine Goes.trans ?_ (ih (i + 1) (by omega) fun e he => hmem e (List.mem_append_right _ he))
      rw [hone] at hmem ⊢
      exact goes_range hs hlen hp hy hkids hsizes hstep (List.getElem?_eq_getElem hlt) _ none
        (Nat.lt_succ_self _) fun e he => hmem e (List.mem_append_left _ he)

/-- A move is made: all the visits it leads to are tried. -/
lemma goes_move (hsizes : ∀ n, 0 < s.sizes n) {next : ℕ} {m : Move}
    (hm : (moves s.automaton c.visit.q c.k)[next]? = some m) :
    Goes s base start input
      (s.automaton.passing s.holds (s.automaton.seen base) base start c.visits
        (s.automaton.moveVisits s.graph c.visit.node c.k m)) y y
      (frameOf start c x (.moves next) :: st) (frameOf start c x (.moves (next + 1)) :: st) := by
  have hmem : ∀ e ∈ s.automaton.moveVisits s.graph c.visit.node c.k m,
      e ∈ s.automaton.candidates s.graph c := fun e he =>
    List.mem_flatMap.2 ⟨m, List.mem_of_getElem? hm, he⟩
  cases m with
  | same q k =>
      exact goes_try hs hlen hp hy hkids (hmem _ (by simp [PathAutomaton.moveVisits]))
        fun seen refills => ⟨refills, turn_moves_same hm⟩
  | edge l =>
      obtain ⟨rfl, step, hstep⟩ := PathAutomaton.step_of_edge (List.mem_of_getElem? hm)
      have hvisits : s.automaton.moveVisits s.graph c.visit.node c.k (.edge c.visit.q)
          = ((s.automaton.linkRanges c.visit.q).flatMap (rangeCrossings s.graph c.visit.node step
            (s.automaton.labelsAdmit (c.visit.q + 1)))).map (edgeVisit c.visit.q c.k) := by
        rw [PathAutomaton.moveVisits, PathAutomaton.crossings, PathAutomaton.linkRanges, hstep]
        rfl
      rw [hvisits] at hmem ⊢
      refine Goes.after_turn (fun seen refills => ⟨refills, turn_moves_edge hm⟩) ?_
      have hend : Goes s base start input [] y y (frameOf start c x (.walk ⟨c.visit.q, next + 1,
          (s.automaton.linkRanges c.visit.q).length, none, []⟩) :: st)
          (frameOf start c x (.moves (next + 1)) :: st) :=
        goes_of_turn fun seen refills => ⟨refills, turn_walk_end rfl (lt_irrefl _)⟩
      rw [← List.append_nil (PathAutomaton.passing _ _ _ _ _ _ _)]
      exact (goes_ranges hs hlen hp hy hkids hsizes hstep _ 0 (Nat.zero_add _)
        fun e he => hmem _ (List.mem_map_of_mem he)).trans hend

/-- The moves of a frame are made one after another. -/
lemma goes_moves (hsizes : ∀ n, 0 < s.sizes n) (n i : ℕ)
    (hn : i + n = (moves s.automaton c.visit.q c.k).length) :
    Goes s base start input
      (s.automaton.passing s.holds (s.automaton.seen base) base start c.visits
        (((moves s.automaton c.visit.q c.k).drop i).flatMap
          (s.automaton.moveVisits s.graph c.visit.node c.k))) y y
      (frameOf start c x (.moves i) :: st)
      (frameOf start c x (.moves (moves s.automaton c.visit.q c.k).length) :: st) := by
  induction n generalizing i with
  | zero =>
      obtain rfl : i = (moves s.automaton c.visit.q c.k).length := hn
      intro seen refills
      refine ⟨[], refills, ?_, ?_⟩
      · rw [List.drop_length]
        exact .nil
      · have hnil : found s base start [] = [] := rfl
        rw [hnil, given_nil]
        exact .refl _
  | succ n ih =>
      have hlt : i < (moves s.automaton c.visit.q c.k).length := by omega
      rw [List.drop_eq_getElem_cons hlt, List.flatMap_cons, PathAutomaton.passing_append]
      exact (goes_move hs hlen hp hy hkids hsizes (List.getElem?_eq_getElem hlt)).trans
        (ih (i + 1) (by omega))

/-- **A frame goes through the children of its configuration and is dropped.** -/
lemma goes_frame (hsizes : ∀ n, 0 < s.sizes n) (hxy : Extends x y) :
    Goes s base start input (kids s base start c) y x (frameOf start c x (.moves 0) :: st) st := by
  have hmoves : Goes s base start input (kids s base start c) y y (frameOf start c x (.moves 0) :: st)
      (frameOf start c x (.moves (moves s.automaton c.visit.q c.k).length) :: st) :=
    goes_moves hs hlen hp hy hkids hsizes _ 0 (Nat.zero_add _)
  have hpop : Goes s base start input [] y x
      (frameOf start c x (.moves (moves s.automaton c.visit.q c.k).length) :: st) st := by
    refine goes_of_turn fun seen refills => ⟨refills, ?_⟩
    rw [turn_moves_none (by simp)]
    obtain ⟨hundo, hevents⟩ := restore_extends hxy
    simp only [Run.pop, Scratch.run, frameOf, searching, hundo, hevents]
  have := hmoves.trans hpop
  rwa [List.append_nil] at this

end Frame

/-- A match is given, unless it has been. -/
lemma gives_emit (hy : Stands s base c.visits y) (seen : List (PathRef × Row α)) (refills : ℕ) :
    Gives (Enumerate.turn s)
      (searching input refills y (frameOf start c x .emit :: st) seen)
      ((fresh s.automaton.ambiguous seen
        [(pathOf start c.visits, s.automaton.result base start c.visits)]).map Prod.snd)
      (searching input refills y (frameOf start c x (.moves 0) :: st)
        (given s.automaton.ambiguous seen
          [(pathOf start c.visits, s.automaton.result base start c.visits)])) := by
  have hresult : completeRow s.automaton y.row y.events.reverse (pathOf start c.visits)
      = s.automaton.result base start c.visits := by
    rw [hy.row, hy.events, List.reverse_reverse]
    rfl
  have hturn : Enumerate.turn s (searching input refills y (frameOf start c x .emit :: st) seen)
      = match (y.run (frameOf start c x (.moves 0) :: st) seen).emit s (pathOf start c.visits) with
        | (some row, run) => .ok (.gives row ⟨input, some run, refills⟩)
        | (none, run) => .ok (.going ⟨input, some run, refills⟩) := rfl
  have hemit : (y.run (frameOf start c x (.moves 0) :: st) seen).emit s (pathOf start c.visits)
      = if s.automaton.ambiguous then
          if (pathOf start c.visits, s.automaton.result base start c.visits) ∈ seen then
            (none, y.run (frameOf start c x (.moves 0) :: st) seen)
          else (some (s.automaton.result base start c.visits),
            y.run (frameOf start c x (.moves 0) :: st)
              ((pathOf start c.visits, s.automaton.result base start c.visits) :: seen))
        else (some (s.automaton.result base start c.visits),
          y.run (frameOf start c x (.moves 0) :: st) seen) := by
    rw [← hresult]
    rfl
  rw [hemit] at hturn
  cases hamb : s.automaton.ambiguous with
  | false =>
      simp only [hamb, Bool.false_eq_true, if_false] at hturn
      simp only [Search.fresh_false, given, Bool.false_eq_true, if_false, List.map_cons, List.map_nil]
      exact .gives hturn (.refl _)
  | true =>
      by_cases hmem : (pathOf start c.visits, s.automaton.result base start c.visits) ∈ seen
      · simp only [hamb, if_true, hmem] at hturn
        simp only [fresh, given, hmem, and_self, if_true, List.map_nil, List.reverse_nil,
          List.nil_append]
        exact .going hturn (.refl _)
      · simp only [hamb, if_true, hmem, if_false] at hturn
        simp only [fresh, given, hmem, and_false, if_false, if_true, List.map_cons, List.map_nil,
          List.reverse_cons, List.reverse_nil, List.nil_append, List.singleton_append]
        exact .gives hturn (.refl _)

/-- **The tree of every configuration is gone through.** -/
lemma visits_of_acc (hs : s.automaton.Sound width false) (hlen : base.length = width)
    (hmirror : s.graph.reverse.keys = s.graph.primary.keys) (hsizes : ∀ n, 0 < s.sizes n)
    (hacc : Acc (Search.Child (kids s base start)) c)
    (hp : s.automaton.Partly s.graph s.holds (s.automaton.seen base) base start c) :
    Visits s base start input c := by
  induction hacc with
  | intro c _ ih =>
      intro x y st hxy hy
      have hframe : Goes s base start input (kids s base start c) y x
          (frameOf start c x (.moves 0) :: st) st :=
        goes_frame hs hlen hp hy (fun d hd => ih d hd (PathAutomaton.partly_child hs hmirror hp hd))
          hsizes hxy
      intro seen refills
      by_cases hlast : c.visit.q + 1 = s.automaton.states.length
      · have hfound : ∀ l, found s base start (c :: l)
            = [(pathOf start c.visits, s.automaton.result base start c.visits)]
              ++ found s base start l := by
          intro l
          simp [found, hlast]
        obtain ⟨l, r, hl, hg⟩ := hframe (given s.automaton.ambiguous seen
          [(pathOf start c.visits, s.automaton.result base start c.visits)]) refills
        refine ⟨c :: (l ++ []), r, .cons hl .nil, ?_⟩
        rw [List.append_nil, hfound, Search.fresh_append, Search.given_append, List.map_append,
          firstTodo, if_pos hlast]
        exact (gives_emit hy seen refills).trans hg
      · have hfound : ∀ l, found s base start (c :: l) = found s base start l := by
          intro l
          simp [found, hlast]
        obtain ⟨l, r, hl, hg⟩ := hframe seen refills
        refine ⟨c :: (l ++ []), r, .cons hl .nil, ?_⟩
        rw [List.append_nil, hfound, firstTodo, if_neg hlast]
        exact hg

end Going

/-! ## The rows of the operator -/

section Rows

variable {s : Setting α} {width : ℕ} {base : Row α} {start : EntityId} {input : List (Row α)}
  {refills : ℕ}

/-- A match of the pattern from the start node of a row: its path, and its row. -/
def RowMatch (s : Setting α) (row : Row α) (m : PathRef × Row α) : Prop :=
  ∃ start visits, row.value s.origin = .element (.node start)
    ∧ s.automaton.Match s.graph s.holds (s.automaton.seen row) row start visits
    ∧ m = (pathOf start visits, s.automaton.result row start visits)

/-- A row whose start is a node, or null. -/
def started (s : Setting α) (row : Row α) : Bool :=
  match row.value s.origin with
  | .null => true
  | .element (.node _) => true
  | _ => false

omit [DecidableEq α] in
lemma started_iff {row : Row α} : started s row = true
    ↔ row.value s.origin = .null ∨ ∃ start, row.value s.origin = .element (.node start) := by
  rw [started]
  split
  · simp_all
  · simp_all
  · rename_i h1 h2
    simp only [Bool.false_eq_true, false_iff, not_or, not_exists]
    exact ⟨h1, h2⟩

omit [DecidableEq α] in
lemma mem_found {l : List Config} {m : PathRef × Row α} (hs : s.automaton.Sound width false)
    (hmirror : s.graph.reverse.keys = s.graph.primary.keys)
    (hl : Preorder (kids s base start)
      (s.automaton.roots s.holds (s.automaton.seen base) base start) l) :
    m ∈ found s base start l ↔ ∃ visits,
      s.automaton.Match s.graph s.holds (s.automaton.seen base) base start visits
        ∧ m = (pathOf start visits, s.automaton.result base start visits) := by
  simp only [found, List.mem_map, List.mem_filter, decide_eq_true_eq, Search.mem_preorder hl]
  constructor
  · rintro ⟨c, ⟨hreach, hlast⟩, rfl⟩
    exact ⟨c.visits, (PathAutomaton.matches_iff hs hmirror).2 ⟨c, hreach, rfl, hlast⟩, rfl⟩
  · rintro ⟨visits, hm, rfl⟩
    obtain ⟨c, hreach, rfl, hlast⟩ := (PathAutomaton.matches_iff hs hmirror).1 hm
    exact ⟨c, ⟨hreach, hlast⟩, rfl⟩

omit [DecidableEq α] in
lemma roots_nodup : ((s.automaton.roots s.holds (s.automaton.seen base) base start).map
    Config.visits).Nodup :=
  PathAutomaton.passing_nodup (by simp)

omit [DecidableEq α] in
/-- **Without ambiguity no pair is found twice.** -/
lemma found_nodup {l : List Config} (hs : s.automaton.Sound width false)
    (hmirror : s.graph.reverse.keys = s.graph.primary.keys) (hamb : s.automaton.ambiguous = false)
    (hl : Preorder (kids s base start)
      (s.automaton.roots s.holds (s.automaton.seen base) base start) l) :
    (found s base start l).Nodup := by
  have hvisits : (l.map Config.visits).Nodup := by
    refine Search.preorder_nodup (n := 1) hl ?_ ?_ ?_ roots_nodup
    · intro c d hd
      exact ⟨d.visit, PathAutomaton.children_visits hd⟩
    · intro c
      exact PathAutomaton.passing_nodup (PathAutomaton.candidates_nodup hs hmirror c)
    · intro c hc
      rw [(PathAutomaton.partly_root (g := s.graph) hc).2]
      rfl
  refine (hvisits.of_map.filter _).map_on ?_
  intro c hc d hd heq
  rw [List.mem_filter, decide_eq_true_eq] at hc hd
  have hmatch : ∀ c ∈ l, c.visit.q + 1 = s.automaton.states.length →
      s.automaton.Match s.graph s.holds (s.automaton.seen base) base start c.visits := fun c hc hlast =>
    (PathAutomaton.matches_iff hs hmirror).2 ⟨c, (Search.mem_preorder hl).1 hc, rfl, hlast⟩
  have hsame := PathAutomaton.match_unique hs hamb (hmatch c hc.1 hc.2) (hmatch d hd.1 hd.2)
    (Prod.mk.inj heq).1
  exact List.inj_on_of_nodup_map hvisits hc.1 hd.1 hsame

/-- **The search from one row gives its matches, each once.** -/
lemma gives_row (hs : s.automaton.Sound width false)
    (hmirror : s.graph.reverse.keys = s.graph.primary.keys) (hsizes : ∀ n, 0 < s.sizes n)
    (hlen : base.length = width) (hstart : started s base = true) (input : List (Row α)) (refills : ℕ) :
    ∃ (ms : List (PathRef × Row α)) (refills' : ℕ), ms.Nodup ∧ (∀ m, m ∈ ms ↔ RowMatch s base m)
      ∧ Gives (Enumerate.turn s) ⟨base :: input, none, refills⟩ (ms.map Prod.snd)
        ⟨input, none, refills'⟩ := by
  rcases started_iff.1 hstart with hnull | ⟨start, hnode⟩
  · refine ⟨[], refills, List.nodup_nil, ?_, ?_⟩
    · intro m
      simp [RowMatch, hnull]
    · refine Gives.once ?_
      simp [Enumerate.turn, Enumerate.start, nodeIn, hnull, pure, Except.pure]
  · have hturn : Enumerate.turn s ⟨base :: input, none, refills⟩ = .ok (.going ⟨input,
        some (Run.arrive s (Scratch.run ⟨base, [], []⟩ [] []) ⟨0, start, none⟩ 0), refills⟩) := by
      simp [Enumerate.turn, Enumerate.start, nodeIn, hnode, pure, Except.pure, Scratch.run]
    have hbounded : s.automaton.mode = .walk → ∀ r ∈ s.automaton.repeats, r.max ≠ none := by
      intro hw r hr hnone
      exact absurd ((hs.repeats r hr).bounded hnone hw) (by simp)
    have hstands : Stands s base [] (⟨base, [], []⟩ : Scratch α) := ⟨rfl, rfl⟩
    have hallows : s.automaton.mode.Allows start [] := by
      cases s.automaton.mode <;> simp [PathMode.Allows, edges, arrived]
    obtain ⟨hpass, hfail⟩ := arrive_spec hs hlen [] [] ⟨0, start, none⟩ 0
      hstands hallows (by simp [Agree]) rfl
    have hroots : ∀ c ∈ s.automaton.roots s.holds (s.automaton.seen base) base start,
        Acc (Search.Child (kids s base start)) c
          ∧ s.automaton.Partly s.graph s.holds (s.automaton.seen base) base start c := fun c hc =>
      ⟨PathAutomaton.children_acc hs hmirror hbounded ⟨c, hc, .refl⟩, (PathAutomaton.partly_root hc).1⟩
    have hsearch : ∃ l refills', Preorder (kids s base start)
        (s.automaton.roots s.holds (s.automaton.seen base) base start) l
          ∧ Gives (Enumerate.turn s) ⟨base :: input, none, refills⟩
            ((fresh s.automaton.ambiguous [] (found s base start l)).map Prod.snd)
            (searching input refills' ⟨base, [], []⟩ []
              (given s.automaton.ambiguous [] (found s base start l))) := by
      by_cases hp : s.automaton.Passes s.holds (s.automaton.seen base) base start [] ⟨0, start, none⟩
      · obtain ⟨y, hy, hst, heq⟩ := hpass hp
        have hone : s.automaton.roots s.holds (s.automaton.seen base) base start
            = [⟨[], ⟨0, start, none⟩, 0⟩] := by
          simp [PathAutomaton.roots, PathAutomaton.passing, hp]
        obtain ⟨hacc, hpartly⟩ := hroots ⟨[], ⟨0, start, none⟩, 0⟩ (by simp [hone])
        have hvisits : Visits s base start input ⟨[], ⟨0, start, none⟩, 0⟩ :=
          visits_of_acc hs hlen hmirror hsizes hacc hpartly
        obtain ⟨l, r, hl, hg⟩ := hvisits _ y [] hy hst [] refills
        rw [heq] at hturn
        exact ⟨l, r, hone ▸ hl, .going hturn hg⟩
      · have hnone : s.automaton.roots s.holds (s.automaton.seen base) base start = [] := by
          simp [PathAutomaton.roots, PathAutomaton.passing, hp]
        refine ⟨[], refills, by rw [hnone]; exact .nil, ?_⟩
        rw [hfail hp] at hturn
        have hnil : found s base start [] = [] := rfl
        rw [hnil, given_nil]
        exact Gives.once hturn
    obtain ⟨l, r, hl, hg⟩ := hsearch
    have hend : Enumerate.turn s (searching input r ⟨base, [], []⟩ []
        (given s.automaton.ambiguous [] (found s base start l))) = .ok (.going ⟨input, none, r⟩) := rfl
    have hmem : ∀ m, m ∈ found s base start l ↔ RowMatch s base m := by
      intro m
      rw [mem_found hs hmirror hl, RowMatch]
      constructor
      · rintro ⟨visits, hm, heq⟩
        exact ⟨start, visits, hnode, hm, heq⟩
      · rintro ⟨start', visits, hnode', hm, heq⟩
        rw [hnode] at hnode'
        cases hnode'
        exact ⟨visits, hm, heq⟩
    refine ⟨fresh s.automaton.ambiguous [] (found s base start l), r, ?_, ?_, ?_⟩
    · cases hamb : s.automaton.ambiguous with
      | false =>
          rw [Search.fresh_false]
          exact found_nodup hs hmirror hamb hl
      | true => exact Search.fresh_nodup _ _
    · intro m
      rw [← hmem m]
      cases s.automaton.ambiguous with
      | false => rw [Search.fresh_false]
      | true => simp [Search.mem_fresh]
    · have := hg.trans (Gives.once hend)
      rwa [List.append_nil] at this

/-- The error that stops the operator: the one at the first row whose start is no node. -/
def startError (s : Setting α) : List (Row α) → Option Error
  | [] => none
  | row :: _ => some (.invalid ("a path pattern's start must be a node, not "
      ++ s.debug (row.value s.origin)))

omit [DecidableEq α] in
lemma nodeIn_refuses {row : Row α} (h : started s row = false) :
    nodeIn s.debug row s.origin "a path pattern's start" = .error (.invalid
      ("a path pattern's start must be a node, not " ++ s.debug (row.value s.origin))) := by
  have hne : ¬ started s row = true := by simp [h]
  rw [started_iff, not_or, not_exists] at hne
  rw [nodeIn]
  split
  · exact absurd ‹_› (hne.2 _)
  · exact absurd ‹_› hne.1
  · rfl

lemma turn_refuses {row : Row α} (h : started s row = false) (input : List (Row α)) (refills : ℕ) :
    Enumerate.turn s ⟨row :: input, none, refills⟩ = .error (.invalid
      ("a path pattern's start must be a node, not " ++ s.debug (row.value s.origin))) := by
  simp [Enumerate.turn, Enumerate.start, nodeIn_refuses h]

/-- The matches of the rows in order, and the error at the first row whose start is no node. -/
lemma gives_rows (hs : s.automaton.Sound width false)
    (hmirror : s.graph.reverse.keys = s.graph.primary.keys) (hsizes : ∀ n, 0 < s.sizes n)
    (rows : List (Row α)) (hrows : ∀ row ∈ rows, row.length = width) (refills : ℕ) :
    ∃ fuel ms, List.Forall₂ (fun row (ms : List (PathRef × Row α)) =>
        ms.Nodup ∧ ∀ m, m ∈ ms ↔ RowMatch s row m) (rows.takeWhile (started s)) ms
      ∧ drain (Enumerate.turn s) fuel ⟨rows, none, refills⟩
        = some (ms.flatten.map Prod.snd, startError s (rows.dropWhile (started s))) := by
  induction rows generalizing refills with
  | nil => exact ⟨1, [], .nil, rfl⟩
  | cons row rows ih =>
      cases hstart : started s row with
      | false =>
          refine ⟨1, [], ?_, ?_⟩
          · rw [List.takeWhile_cons_of_neg (by simp [hstart])]
            exact .nil
          · rw [List.dropWhile_cons_of_neg (by simp [hstart]), drain, turn_refuses hstart]
            rfl
      | true =>
          obtain ⟨ms, r, hnodup, hmem, hg⟩ := gives_row hs hmirror hsizes
            (hrows row List.mem_cons_self) hstart rows refills
          obtain ⟨fuel, mss, hall, hdrain⟩ := ih (fun row hr => hrows row (List.mem_cons_of_mem _ hr)) r
          obtain ⟨fuel', hfuel⟩ := Search.drain_of_gives hg hdrain
          refine ⟨fuel', ms :: mss, ?_, ?_⟩
          · rw [List.takeWhile_cons_of_pos hstart]
            exact .cons ⟨hnodup, hmem⟩ hall
          · rw [hfuel, List.dropWhile_cons_of_pos hstart, List.flatten_cons, List.map_append]

end Rows

/-! ## A cycle -/

/-- Two nodes with an edge each way, in one context, of one type. -/
def roundTrip : Keyspaces :=
  let there : EdgeId := ⟨⟨⟨1, 1⟩, 1, 1, ⟨1, 2⟩⟩, 0⟩
  let back : EdgeId := ⟨⟨⟨1, 2⟩, 1, 1, ⟨1, 1⟩⟩, 0⟩
  { Keyspaces.empty with
    primary := (Finmap.singleton there []).insert back []
    reverse := (Finmap.singleton there []).insert back [] }

/-- A trail of any number of outgoing edges, with its nodes in slot 1 and its path in slot 2. -/
def anyTrail : PathAutomaton where
  states := [⟨none, none, none⟩, ⟨none, none, none⟩, ⟨none, none, some 1⟩, ⟨none, none, none⟩]
  links := [.same, .edge ⟨1, none, .outgoing, none, none⟩, .same]
  repeats := [⟨1, 2, 0, none⟩]
  mode := .trail
  path := some 2
  groups := [1]

/-- The trails from the node in slot 0, in refills of one posting. -/
def trails : Setting Unit where
  automaton := anyTrail
  origin := 0
  graph := roundTrip
  holds := fun _ _ => true
  debug := fun _ => ""
  sizes := fun _ => 1

end Engine.Gql
