import Sekejap.Gql.Automaton
import Sekejap.Graph.Lifecycle

/-!
# Arrivals

What both path searches do the same way (`core/engine/src/query/gql/paths/arrive.rs`, `value.rs`,
`ops/expand.rs`): the tests of arriving at a position, over a row in which the bindings are written and
from which they are taken back, the adjacency an edge step walks, in refills, and the tail of a witness
row.

An edge is told by its tuple and id; the property bag it may carry is no part of it.  What a slot holds
that no path search looks into is a parameter.

* **`take_eq_remaining`**, **`remaining_paused`** — a refill takes a first part of what remains of a
  range, and leaves the rest.
-/

open Collections (EntityId)

open Engine.Graph (EdgeId Keyspaces Dir ascending)

open Fallible

namespace Engine.Gql

/-! ## Values -/

/-- What a position binds. -/
inductive Element where
  | node (id : EntityId)
  | edge (e : EdgeId)
  deriving DecidableEq, Repr

/-- A path, latest step outermost: the edge crossed, whether from source to destination, and the node
arrived at. -/
inductive PathRef where
  | start (node : EntityId)
  | step (parent : PathRef) (edge : EdgeId) (forward : Bool) (node : EntityId)
  deriving DecidableEq, Repr

namespace PathRef

def hasEdge (e : EdgeId) : PathRef → Bool
  | start _ => false
  | step parent edge _ _ => decide (edge = e) || hasEdge e parent

def hasNode (n : EntityId) : PathRef → Bool
  | start node => decide (node = n)
  | step parent _ _ node => decide (node = n) || hasNode n parent

end PathRef

inductive BindingValue (α : Type) where
  | null
  | element (e : Element)
  | path (p : PathRef)
  | list (items : List Element)
  | other (v : α)
  deriving DecidableEq, Repr

/-- A row, by slots. -/
abbrev Row (α : Type) := List (BindingValue α)

/-- The value of a slot. -/
def Row.value {α : Type} (row : Row α) (slot : ℕ) : BindingValue α := row.getD slot .null

/-! ## Arriving -/

variable {α : Type} [DecidableEq α]

/-- A row with bindings written in, latest first: what each slot held before, and the elements of group
slots. -/
structure Scratch (α : Type) where
  row : Row α
  undo : List (ℕ × BindingValue α)
  events : List (ℕ × Element)

/-- An element is bound at a position: whether it may. -/
def bind (x : Scratch α) (b : Binding) (e : Element) : Bool × Scratch α :=
  let held := x.row.value b.slot
  let write := x.row.set b.slot (.element e)
  if b.group then (true, ⟨write, (b.slot, held) :: x.undo, (b.slot, e) :: x.events⟩)
  else if held ≠ .null then (decide (held = .element e), x)
  else (true, ⟨write, (b.slot, held) :: x.undo, x.events⟩)

def bindAt (x : Scratch α) (e : Element) : Option Binding → Bool × Scratch α
  | none => (true, x)
  | some b => bind x b e

namespace PathAutomaton

variable (a : PathAutomaton)

/-- `edge_step` -/
def edgeStep (l : ℕ) : Option EdgeStep :=
  match a.link l with
  | .same => none
  | .edge step => some step

def labelsAdmit (q : ℕ) (node : EntityId) : Bool :=
  (a.state q).labels.all fun labels => decide (node.collection ∈ labels)

/-- The predicates of an arrival: the edge's, then the node's. -/
def predicates (q : ℕ) (via : Option (ℕ × EdgeId)) : List ℕ :=
  ((via.bind fun v => a.edgeStep v.1).bind EdgeStep.filter).toList ++ (a.state q).filter.toList

/-- Where the edge of an arrival binds. -/
def viaBinding (l : ℕ) : Option Binding := (a.edgeStep l).bind (a.edgeBinding l)

end PathAutomaton

/-- The tests of arriving at position `q` on a node, crossing an edge when one is given. -/
def admitted (a : PathAutomaton) (holds : ℕ → Row α → Bool) (x : Scratch α) (q : ℕ) (node : EntityId)
    (via : Option (ℕ × EdgeId)) : Bool × Scratch α :=
  if a.labelsAdmit q node = false then (false, x)
  else
    let (ok, x) := match via with
      | none => (true, x)
      | some (l, e) => bindAt x (.edge e) (a.viaBinding l)
    if ok = false then (false, x)
    else
      let (ok, x) := bindAt x (.node node) (a.nodeBinding q)
      if ok = false then (false, x)
      else ((a.predicates q via).all fun p => holds p x.row, x)

/-- What was logged after the first `keep` entries is put back, latest first. -/
def restore (row : Row α) (undo : List (ℕ × BindingValue α)) (keep : ℕ) :
    Row α × List (ℕ × BindingValue α) :=
  ((undo.take (undo.length - keep)).foldl (fun row u => row.set u.1 u.2) row,
    undo.drop (undo.length - keep))

/-- The elements a group slot took. -/
def elementsOf (slot : ℕ) (events : List (ℕ × Element)) : List Element :=
  (events.filter fun e => decide (e.1 = slot)).map Prod.snd

/-- The tail of a witness row: the list of each group slot, and the path. -/
def completeRow (a : PathAutomaton) (row : Row α) (events : List (ℕ × Element)) (path : PathRef) :
    Row α :=
  let row := a.groups.foldl (fun row slot => row.set slot (.list (elementsOf slot events))) row
  match a.path with
  | some slot => row.set slot (.path path)
  | none => row

/-! ## Adjacency -/

/-- One adjacency range: a direction, and an edge type or every type. -/
abbrev Range := Dir × Option ℕ

/-- The ranges an edge step walks, in order. -/
def ranges (direction : Direction) (types : Option (List ℕ)) : List Range :=
  let directions : List Dir := match direction with
    | .both => [.out, .into]
    | .outgoing => [.out]
    | .incoming => [.into]
  let types : List (Option ℕ) := match types with
    | none => [none]
    | some types => types.map some
  directions.flatMap fun d => types.map fun t => (d, t)

/-- The postings of a range, each as an edge from its near end. -/
def adjacency (g : Keyspaces) (near : EntityId) (context : ℕ) (range : Range) : Finset EdgeId :=
  ((g.postings range.1).image (EdgeId.toward range.1)).filter fun e =>
    e.key.source = near ∧ e.key.context = context ∧ range.2.all fun t => decide (e.key.edgeType = t)

/-- An edge that an either-direction step has met in its outgoing walk, or whose far node is refused,
is not handed out. -/
def handsOut (step : Direction) (range : Range) (admits : EntityId → Bool) (e : EdgeId) : Bool :=
  !(decide (step = .both) && decide (range.1 = .into) && decide (e.key.source = e.key.destination))
    && admits e.key.destination

/-- Up to `postings` postings of a range past where the walk was set down: the edges handed out with
their far nodes, and where it is set down, or none at the range's end. -/
def refill (g : Keyspaces) (near : EntityId) (context : ℕ) (step : Direction) (range : Range)
    (paused : Option EdgeId) (postings : ℕ) (admits : EntityId → Bool) :
    List (EdgeId × EntityId) × Option EdgeId :=
  let taken := Scan.take (adjacency g near context range) postings paused
  ((taken.filter (handsOut step range admits)).map fun e => (e.toward range.1, e.key.destination),
    if taken.length < postings then none else taken.getLast?)

/-! ## Refills -/

section Refills

variable {β : Type} [LinearOrder β] {S : Finset β} {after : Option β}

/-- What remains of a keyspace past a position, in order. -/
def remaining (S : Finset β) (after : Option β) : List β :=
  (ascending S).filter fun b => decide (Scan.Past after b)

lemma ascending_sorted (S : Finset β) : (ascending S).Pairwise (· < ·) :=
  Scan.take_pairwise S S.card none

lemma remaining_sorted (S : Finset β) (after : Option β) : (remaining S after).Pairwise (· < ·) :=
  (ascending_sorted S).filter _

lemma mem_remaining {b : β} : b ∈ remaining S after ↔ b ∈ S ∧ Scan.Past after b := by
  rw [remaining, List.mem_filter, Graph.mem_ascending, decide_eq_true_eq]

/-- Two lists in order with the same elements are equal. -/
lemma eq_of_sorted {l m : List β} (hl : l.Pairwise (· < ·)) (hm : m.Pairwise (· < ·))
    (h : ∀ b, b ∈ l ↔ b ∈ m) : l = m :=
  ((List.perm_ext_iff_of_nodup (hl.imp ne_of_lt) (hm.imp ne_of_lt)).2 h).eq_of_pairwise
    (fun _ _ _ _ h1 h2 => absurd h1 (lt_asymm h2)) hl hm

/-- **A step takes a first part of what remains.** -/
lemma take_eq_remaining (n : ℕ) (after : Option β) : Scan.take S n after = (remaining S after).take n := by
  induction n generalizing after with
  | zero => simp [Scan.take]
  | succ n ih =>
      rw [Scan.take]
      cases hnext : Scan.next S after with
      | none =>
          have hnil : remaining S after = [] := by
            refine List.eq_nil_iff_forall_not_mem.2 fun b hb => ?_
            exact Scan.next_eq_none_iff.1 hnext b (mem_remaining.1 hb).1 (mem_remaining.1 hb).2
          simp [hnil]
      | some b =>
          obtain ⟨hb, hpast, hleast⟩ := Scan.next_eq_some hnext
          have hcons : remaining S after = b :: remaining S (some b) := by
            refine eq_of_sorted (remaining_sorted _ _) (List.pairwise_cons.2 ⟨?_, remaining_sorted _ _⟩) ?_
            · intro c hc
              exact Scan.past_some.1 (mem_remaining.1 hc).2
            · intro c
              rw [List.mem_cons, mem_remaining, mem_remaining, Scan.past_some]
              constructor
              · rintro ⟨hc, hcpast⟩
                rcases (hleast c hc hcpast).eq_or_lt with rfl | hlt
                · exact Or.inl rfl
                · exact Or.inr ⟨hc, hlt⟩
              · rintro (rfl | ⟨hc, hlt⟩)
                · exact ⟨hb, hpast⟩
                · exact ⟨hc, hpast.trans_le hlt.le⟩
          simp only [ih, hcons, List.take_succ_cons]

/-- **A step that is set down leaves the rest.** -/
lemma remaining_paused {n : ℕ} {b : β} (h : ((remaining S after).take n).getLast? = some b) :
    remaining S (some b) = (remaining S after).drop n := by
  obtain ⟨init, hinit⟩ := List.getLast?_eq_some_iff.1 h
  have hsplit : remaining S after = init ++ (b :: (remaining S after).drop n) := by
    conv_lhs => rw [← List.take_append_drop n (remaining S after), hinit]
    simp
  have hsorted := remaining_sorted S after
  rw [hsplit, List.pairwise_append] at hsorted
  obtain ⟨-, htail, hinit'⟩ := hsorted
  rw [List.pairwise_cons] at htail
  have hb : b ∈ remaining S after := by rw [hsplit]; simp
  refine eq_of_sorted (remaining_sorted _ _) htail.2 fun c => ?_
  rw [mem_remaining, Scan.past_some]
  constructor
  · rintro ⟨hc, hlt⟩
    have hmem : c ∈ remaining S after := mem_remaining.2 ⟨hc, (mem_remaining.1 hb).2.trans_le hlt.le⟩
    rw [hsplit, List.mem_append, List.mem_cons] at hmem
    rcases hmem with hmem | rfl | hmem
    · exact absurd (hinit' c hmem b List.mem_cons_self) (lt_asymm hlt)
    · exact absurd hlt (lt_irrefl c)
    · exact hmem
  · intro hc
    refine ⟨?_, htail.1 c hc⟩
    exact (mem_remaining.1 (List.mem_of_mem_drop hc)).1

end Refills

end Engine.Gql
