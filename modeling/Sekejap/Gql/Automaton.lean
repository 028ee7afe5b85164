import Sekejap.Collections.Document

/-!
# Path automata

A compiled path pattern (`core/engine/src/query/gql/paths/automaton.rs`): a line of node positions
joined by links, some runs of it repeated.  A link crosses an edge, or joins two positions on one node.
A search stands at a position with one counter, the iterations the repeat it is in has completed
(`moves` of `paths/arrive.rs`).

* **`PathAutomaton.Sound`** — what `check` makes sure of, `sound_of_check`.
-/

open Fallible

namespace Engine.Gql

/-- The test at one node position. -/
structure NodeTest where
  /-- the label alternatives; none is any collection -/
  labels : Option (List ℕ)
  filter : Option ℕ
  bind : Option ℕ
  deriving DecidableEq, Repr

inductive Direction where
  | outgoing
  | incoming
  | both
  deriving DecidableEq, Repr

/-- One edge crossing. -/
structure EdgeStep where
  context : ℕ
  /-- the edge-type alternatives; none is every type -/
  types : Option (List ℕ)
  direction : Direction
  filter : Option ℕ
  bind : Option ℕ
  deriving DecidableEq, Repr

/-- What joins two adjacent positions. -/
inductive PathLink where
  | same
  | edge (step : EdgeStep)
  deriving DecidableEq, Repr

/-- The positions `first..=last`, run `min..=max` times. -/
structure Repeat where
  first : ℕ
  last : ℕ
  min : ℕ
  max : Option ℕ
  deriving DecidableEq, Repr

/-- How a path may revisit what it crossed. -/
inductive PathMode where
  | walk
  | trail
  | acyclic
  deriving DecidableEq, Repr

/-- A pattern of a path: tests of nodes, a link between each two, stretches that repeat, and the slots that
all these bind. -/
structure PathAutomaton where
  states : List NodeTest
  links : List PathLink
  repeats : List Repeat
  mode : PathMode
  /-- the slot of the whole path -/
  path : Option ℕ
  /-- the slots bound inside repeats -/
  groups : List ℕ
  deriving DecidableEq, Repr

/-- Where a position binds. -/
structure Binding where
  slot : ℕ
  group : Bool
  deriving DecidableEq, Repr

namespace PathAutomaton

variable (a : PathAutomaton)

def state (q : ℕ) : NodeTest := a.states.getD q ⟨none, none, none⟩

def link (l : ℕ) : PathLink := a.links.getD l .same

def stateInRepeat (q : ℕ) : Bool := a.repeats.any fun r => decide (r.first ≤ q ∧ q ≤ r.last)

def linkInRepeat (l : ℕ) : Bool := a.repeats.any fun r => decide (r.first ≤ l ∧ l < r.last)

/-- The repeat whose body starts right after a position. -/
def repeatAfter (q : ℕ) : Option Repeat := a.repeats.find? fun r => decide (r.first = q + 1)

/-- The repeat whose body ends at a position. -/
def repeatEnding (q : ℕ) : Option Repeat := a.repeats.find? fun r => decide (r.last = q)

def nodeBinding (q : ℕ) : Option Binding := (a.state q).bind.map fun slot => ⟨slot, a.stateInRepeat q⟩

def edgeBinding (l : ℕ) (step : EdgeStep) : Option Binding :=
  step.bind.map fun slot => ⟨slot, a.linkInRepeat l⟩

/-- Two runs may cross the same path. -/
def ambiguous : Bool :=
  decide (1 < (a.repeats.filter fun r => decide (r.max ≠ some r.min)).length)

/-! ## The check when an execution opens -/

/-- A refusal of a path pattern. -/
def refusal (why : String) : Error := .invalid ("a path pattern " ++ why)

/-- A check of every item of a list. -/
def each {α : Type} (f : α → Except Error Unit) : List α → Except Error Unit
  | [] => .ok ()
  | x :: l => do
      f x
      each f l

/-- The repeats are checked in order, against where the one before ended. -/
def checkRepeats (selector : Bool) : Option ℕ → List Repeat → Except Error Unit
  | _, [] => .ok ()
  | previousLast, r :: rest => do
      refuse (r.first = 0 ∨ r.last ≤ r.first ∨ a.states.length ≤ r.last + 1)
        (refusal "repeats a run that has no position before and after it")
      refuse (∃ p ∈ previousLast, r.first < p + 2)
        (refusal "nests or joins quantifiers, which v1 refuses (Q10)")
      refuse (a.link (r.first - 1) ≠ .same ∨ a.link r.last ≠ .same)
        (refusal "enters or leaves a repeat across an edge")
      refuse (∀ l ∈ List.range' r.first (r.last - r.first), a.link l = .same)
        (refusal "repeats a group that crosses no edge")
      refuse (∃ max ∈ r.max, max < r.min)
        (refusal "has a quantifier whose upper bound is below its lower bound")
      refuse (r.max = none ∧ a.mode = .walk ∧ selector = false)
        (refusal "has an unbounded quantifier under WALK: use TRAIL, ACYCLIC or a selector")
      checkRepeats selector (some r.last) rest

/-- `inside` -/
def inside (width slot : ℕ) : Except Error Unit :=
  refuse (width ≤ slot)
    (.invalid ("slot " ++ toString slot ++ " is outside a row of " ++ toString width ++ " slots"))

/-- `distinct` -/
def distinct (items : List ℕ) : Except Error Unit :=
  refuse (¬ items.Nodup) (.invalid "a label or edge type is named twice")

/-- The names, the slot and the predicate of one position. -/
def checkPosition (width : ℕ) (names : Option (List ℕ)) (bind filter : Option ℕ) (why : String) :
    Except Error Unit := do
  each distinct names.toList
  match bind with
  | some slot => inside width slot
  | none => refuse filter.isSome (refusal why)

def checkState (width : ℕ) (t : NodeTest) : Except Error Unit :=
  checkPosition width t.labels t.bind t.filter "has a node predicate with no slot for its node"

def checkLink (width : ℕ) : PathLink → Except Error Unit
  | .same => .ok ()
  | .edge step =>
      checkPosition width step.types step.bind step.filter
        "has an edge predicate with no slot for its edge"

/-- The bindings of the nodes and of the edges, in order. -/
def bindings : List Binding :=
  (List.range a.states.length).filterMap (a.nodeBinding ·)
    ++ (List.range a.links.length).filterMap fun l => match a.link l with
      | .same => none
      | .edge step => a.edgeBinding l step

def singles : List ℕ := (a.bindings.filter fun b => !b.group).map Binding.slot

def grouped : List ℕ := (a.bindings.filter fun b => b.group).map Binding.slot

/-- What the operator asks of a pattern before it runs; its results are of those that pass. -/
def check (width : ℕ) (selector : Bool) : Except Error Unit := do
  refuse (a.states.length = 0 ∨ a.links.length + 1 ≠ a.states.length)
    (refusal "needs one link fewer than it has node positions")
  a.checkRepeats selector none a.repeats
  each (checkState width) a.states
  each (checkLink width) a.links
  each (inside width) a.path.toList
  refuse (∃ p ∈ a.path, p ∈ a.singles ∨ p ∈ a.grouped)
    (refusal "binds its path slot to an element too")
  refuse (¬ a.grouped.Nodup) (refusal "binds one group variable at two positions")
  refuse (¬ a.groups.Perm a.grouped)
    (refusal "declares group slots other than the ones bound inside repeats")
  refuse (∃ slot ∈ a.grouped, slot ∈ a.singles) (refusal "binds one slot inside and outside a repeat")

end PathAutomaton

/-! ## Moves -/

/-- One way out of a position. -/
inductive Move where
  /-- to a position on the same node, with a counter -/
  | same (q k : ℕ)
  /-- across the edge of a link -/
  | edge (link : ℕ)
  deriving DecidableEq, Repr

/-- The moves out of a position, in the order tried. -/
def moves (a : PathAutomaton) (q k : ℕ) : List Move :=
  if q + 1 = a.states.length then []
  else
    match a.repeatEnding q with
    | some r =>
        let done := k + 1
        -- an unbounded repeat's count saturates at its minimum
        (if r.max.all fun max => done < max then
          [Move.same r.first (if r.max.isNone then min done r.min else done)] else [])
          ++ (if r.min ≤ done then [Move.same (q + 1) 0] else [])
    | none =>
        match a.repeatAfter q with
        | some r =>
            (if r.max ≠ some 0 then [Move.same r.first 0] else [])
              ++ (if r.min = 0 then [Move.same (r.last + 1) 0] else [])
        | none =>
            match a.link q with
            | .same => [Move.same (q + 1) k]
            | .edge _ => [Move.edge q]

/-! ## What the check makes sure of -/

namespace PathAutomaton

/-- A repeat within a pattern. -/
structure SoundRepeat (a : PathAutomaton) (selector : Bool) (r : Repeat) : Prop where
  first_pos : 0 < r.first
  first_lt : r.first < r.last
  last_lt : r.last + 1 < a.states.length
  entered : a.link (r.first - 1) = .same
  left : a.link r.last = .same
  crosses : ∃ l step, r.first ≤ l ∧ l < r.last ∧ a.link l = .edge step
  bounds : ∀ max ∈ r.max, r.min ≤ max
  bounded : r.max = none → a.mode = .walk → selector = true

/-- **A pattern that a search can run.** -/
structure Sound (a : PathAutomaton) (width : ℕ) (selector : Bool) : Prop where
  links : a.links.length + 1 = a.states.length
  repeats : ∀ r ∈ a.repeats, a.SoundRepeat selector r
  /-- repeats are in order, and do not touch -/
  apart : a.repeats.Pairwise fun r s => r.last + 2 ≤ s.first
  distinct : ∀ l step, a.link l = .edge step → ∀ types ∈ step.types, types.Nodup
  slots : ∀ b ∈ a.bindings, b.slot < width
  path_lt : ∀ p ∈ a.path, p < width
  path_single : ∀ p ∈ a.path, p ∉ a.singles
  path_grouped : ∀ p ∈ a.path, p ∉ a.grouped
  grouped_nodup : a.grouped.Nodup
  groups : a.groups.Perm a.grouped
  disjoint : ∀ slot ∈ a.grouped, slot ∉ a.singles

section

variable {a : PathAutomaton} {width : ℕ} {selector : Bool}

lemma each_eq_ok {α : Type} {f : α → Except Error Unit} {l : List α} {u : Unit} :
    each f l = .ok u ↔ ∀ x ∈ l, f x = .ok () := by
  induction l with
  | nil => simp [each]
  | cons x l ih =>
      simp only [each, bind_eq_ok, ih, List.forall_mem_cons]
      exact ⟨fun h => ⟨h.choose_spec.1, h.choose_spec.2⟩, fun h => ⟨(), h.1, h.2⟩⟩

lemma checkRepeats_ok {l : List Repeat} {previous : Option ℕ} {u : Unit}
    (h : a.checkRepeats selector previous l = .ok u) :
    (∀ r ∈ l, a.SoundRepeat selector r) ∧ (∀ r ∈ l, ∀ p ∈ previous, p + 2 ≤ r.first)
      ∧ l.Pairwise fun r s => r.last + 2 ≤ s.first := by
  induction l generalizing previous with
  | nil => simp
  | cons r l ih =>
      simp only [checkRepeats, bind_eq_ok, refuse_eq_ok] at h
      obtain ⟨_, hplace, _, hafter, _, hsame, _, hedge, _, hbounds, _, hwalk, hrest⟩ := h
      obtain ⟨hsound, hlast, hpair⟩ := ih hrest
      simp only [not_or, not_le] at hplace
      simp only [not_or, not_not] at hsame
      have hafter' : ∀ p ∈ previous, p + 2 ≤ r.first := by
        intro p hp
        by_contra hlt
        exact hafter ⟨p, hp, by omega⟩
      have hr : a.SoundRepeat selector r := by
        refine ⟨Nat.pos_of_ne_zero hplace.1, hplace.2.1, hplace.2.2, hsame.1, hsame.2, ?_, ?_, ?_⟩
        · push Not at hedge
          obtain ⟨l, hl, hne⟩ := hedge
          rw [List.mem_range'_1] at hl
          cases hlink : a.link l with
          | same => exact absurd hlink hne
          | edge step => exact ⟨l, step, hl.1, by omega, hlink⟩
        · intro max hmax
          by_contra hlt
          exact hbounds ⟨max, hmax, by omega⟩
        · intro hnone hmode
          by_contra hsel
          exact hwalk ⟨hnone, hmode, by simpa using hsel⟩
      refine ⟨?_, ?_, List.pairwise_cons.2 ⟨fun s hs => hlast s hs r.last rfl, hpair⟩⟩
      · rintro s (_ | ⟨_, hs⟩)
        · exact hr
        · exact hsound s hs
      · rintro s (_ | ⟨_, hs⟩) p hp
        · exact hafter' p hp
        · have h1 := hafter' p hp
          have h2 := hlast s hs r.last rfl
          have h3 := hr.first_lt
          omega

lemma checkPosition_ok {names : Option (List ℕ)} {bind filter : Option ℕ} {why : String}
    (h : checkPosition width names bind filter why = .ok ()) :
    (∀ slot ∈ bind, slot < width) ∧ ∀ items ∈ names, items.Nodup := by
  simp only [checkPosition, bind_eq_ok, each_eq_ok, distinct, refuse_eq_ok, not_not] at h
  obtain ⟨_, hdistinct, hslot⟩ := h
  constructor
  · intro slot hmem
    rw [Option.mem_def] at hmem
    subst hmem
    simpa [inside] using hslot
  · intro items hmem
    exact hdistinct items (by simpa using hmem)

lemma link_mem {l : ℕ} {step : EdgeStep} (h : a.link l = .edge step) : .edge step ∈ a.links := by
  rw [link, List.getD_eq_getElem?_getD] at h
  cases hl : a.links[l]? with
  | none =>
      rw [hl] at h
      cases h
  | some x =>
      rw [hl] at h
      cases h
      exact List.mem_of_getElem? hl

/-- **What `check` makes sure of.** -/
theorem sound_of_check (h : a.check width selector = .ok ()) : a.Sound width selector := by
  simp only [check, bind_eq_ok, refuse_eq_ok, not_or, not_not] at h
  obtain ⟨_, hlinks, _, hrepeats, _, hstates, _, hedges, _, hpath, _, hsep, _, hnodup, _, hperm,
    hdisj⟩ := h
  rw [each_eq_ok] at hstates hedges hpath
  obtain ⟨hsound, -, hapart⟩ := checkRepeats_ok hrepeats
  refine ⟨hlinks.2, hsound, hapart, ?_, ?_, ?_, ?_, ?_, hnodup, hperm, ?_⟩
  · intro l step hlink
    exact (checkPosition_ok (hedges _ (link_mem hlink))).2
  · intro b hb
    rw [bindings, List.mem_append, List.mem_filterMap, List.mem_filterMap] at hb
    rcases hb with ⟨q, hq, hb⟩ | ⟨l, -, hb⟩
    · rw [nodeBinding, Option.map_eq_some_iff] at hb
      obtain ⟨slot, hslot, rfl⟩ := hb
      rw [List.mem_range] at hq
      have hmem : a.state q ∈ a.states := by
        rw [state, List.getD_eq_getElem?_getD, List.getElem?_eq_getElem hq]
        exact List.getElem_mem hq
      exact (checkPosition_ok (hstates _ hmem)).1 slot hslot
    · cases hlink : a.link l with
      | same => simp [hlink] at hb
      | edge step =>
          simp only [hlink, edgeBinding, Option.map_eq_some_iff] at hb
          obtain ⟨slot, hslot, rfl⟩ := hb
          exact (checkPosition_ok (hedges _ (link_mem hlink))).1 slot hslot
  · intro p hp
    have := hpath p (by simpa using hp)
    simpa [inside] using this
  · exact fun p hp hs => hsep ⟨p, hp, Or.inl hs⟩
  · exact fun p hp hs => hsep ⟨p, hp, Or.inr hs⟩
  · exact fun slot hg hs => hdisj ⟨slot, hg, hs⟩

end

end PathAutomaton

end Engine.Gql
