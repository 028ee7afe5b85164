import Sekejap.Gql.Words

/-!
# Matches of a path pattern

A match of a pattern is a sequence of visits: the positions of a word of the pattern, each on a node,
arrived at across an edge where a link says so.  `Match` says which sequences match, of the sequence as a
whole.  A search finds them one visit at a time, from `Config`s: `children` are the visits it may go on
to.

* **`mem_crossings`** — what an edge step hands out, on a graph whose mirrors are those of its edges.
* **`matches_iff`** — the matches are the accepting configurations that can be reached from the start.
* **`match_unique`** — in a pattern that is not ambiguous a path tells its match.
-/

open Collections (EntityId)

open Engine.Graph (EdgeId Keyspaces Dir ascending)

namespace Engine.Gql

variable {α : Type}

/-! ## Visits -/

/-- A position on a node, and the edge crossed to it: forward is from source to destination. -/
structure Visit where
  q : ℕ
  node : EntityId
  via : Option (EdgeId × Bool)
  deriving DecidableEq, Repr

/-- The link a visit crosses, and the edge. -/
def Visit.crossed (v : Visit) : Option (ℕ × EdgeId) := v.via.map fun x => (v.q - 1, x.1)

/-- An edge leads from a node to another the way an edge step asks. -/
structure Crosses (g : Keyspaces) (step : EdgeStep) (near : EntityId) (e : EdgeId) (forward : Bool)
    (far : EntityId) : Prop where
  edge : e ∈ g.primary.keys
  context : e.key.context = step.context
  types : ∀ types ∈ step.types, e.key.edgeType ∈ types
  ends : if forward then e.key.source = near ∧ e.key.destination = far
    else e.key.destination = near ∧ e.key.source = far
  direction : step.direction ≠ if forward then .incoming else .outgoing
  /-- a self-loop is crossed one way where both are asked for -/
  loop : step.direction = .both → e.key.source = e.key.destination → forward = true

/-- The edges of a path, in order. -/
def edges (visits : List Visit) : List EdgeId := visits.filterMap fun v => v.via.map Prod.fst

/-- The nodes edges lead to, in order. -/
def arrived (visits : List Visit) : List EntityId := visits.filterMap fun v => v.via.map fun _ => v.node

/-- A path with the edge of a visit. -/
def Visit.extend (v : Visit) (path : PathRef) : PathRef :=
  match v.via with
  | some (e, forward) => .step path e forward v.node
  | none => path

/-- The path of the visits. -/
def pathOf (start : EntityId) (visits : List Visit) : PathRef :=
  visits.foldl (fun path v => v.extend path) (.start start)

/-- What a mode allows: a trail crosses no edge twice, an acyclic path comes to no node twice. -/
def PathMode.Allows (start : EntityId) (visits : List Visit) : PathMode → Prop
  | .walk => True
  | .trail => (edges visits).Nodup
  | .acyclic => (start :: arrived visits).Nodup

/-- Bindings agree with a row and among themselves: a variable that is no group names one element. -/
def Agree (base : Row α) (bound : List (Binding × Element)) : Prop :=
  ∀ x ∈ bound, x.1.group = false →
    (base.value x.1.slot = .null ∨ base.value x.1.slot = .element x.2)
      ∧ ∀ y ∈ bound, y.1.group = false → y.1.slot = x.1.slot → y.2 = x.2

/-- A row with elements written into their slots, latest last. -/
def written (row : Row α) (bound : List (Binding × Element)) : Row α :=
  bound.foldl (fun row x => row.set x.1.slot (.element x.2)) row

/-- The elements of group slots, in order. -/
def grouping (bound : List (Binding × Element)) : List (ℕ × Element) :=
  (bound.filter fun x => x.1.group).map fun x => (x.1.slot, x.2)

namespace PathAutomaton

variable (a : PathAutomaton)

/-- What joins two positions that follow one another in a word: a link, or the node they share. -/
def joint (p q : ℕ) : Option EdgeStep := if q = p + 1 then a.edgeStep p else none

/-- Two visits follow one another. -/
def Joined (g : Keyspaces) (v v' : Visit) : Prop :=
  match a.joint v.q v'.q, v'.via with
  | none, none => v'.node = v.node
  | some step, some (e, forward) => Crosses g step v.node e forward v'.node
  | _, _ => False

/-- The elements a visit binds: its edge, then its node. -/
def bound (v : Visit) : List (Binding × Element) :=
  (match v.crossed with
    | none => []
    | some (l, e) => (a.viaBinding l).toList.map fun b => (b, .edge e))
    ++ (a.nodeBinding v.q).toList.map fun b => (b, .node v.node)

/-- The row with the elements of the visits written in. -/
def seen (base : Row α) (visits : List Visit) : Row α := written base (visits.flatMap a.bound)

/-- The elements of group slots, in path order. -/
def events (visits : List Visit) : List (ℕ × Element) := grouping (visits.flatMap a.bound)

/-- The row of a match. -/
def result (base : Row α) (start : EntityId) (visits : List Visit) : Row α :=
  completeRow a (a.seen base visits) (a.events visits) (pathOf start visits)

/-- **A match**: the visits of a word from a start node, joined as the links say, on nodes with the
labels asked for, within the mode, with one element for each variable that is no group, and with every
predicate true of what `view` shows it at its visit. -/
structure Match (g : Keyspaces) (holds : ℕ → Row α → Bool) (view : List Visit → Row α) (base : Row α)
    (start : EntityId) (visits : List Visit) : Prop where
  word : a.Word (visits.map Visit.q)
  first : ∃ rest, visits = ⟨0, start, none⟩ :: rest
  joined : visits.IsChain (a.Joined g)
  labels : ∀ v ∈ visits, a.labelsAdmit v.q v.node = true
  mode : a.mode.Allows start visits
  agree : Agree base (visits.flatMap a.bound)
  tests : ∀ before v, before ++ [v] <+: visits → ∀ p ∈ a.predicates v.q (v.crossed),
    holds p (view (before ++ [v])) = true

end PathAutomaton

/-! ## One visit at a time -/

/-- A search stands at its last visit, with a counter. -/
structure Config where
  before : List Visit
  visit : Visit
  k : ℕ
  deriving DecidableEq, Repr

def Config.visits (c : Config) : List Visit := c.before ++ [c.visit]

/-- The edges of one range that are handed out, in order. -/
def rangeCrossings (g : Keyspaces) (near : EntityId) (step : EdgeStep) (admits : EntityId → Bool)
    (range : Range) : List (EdgeId × EntityId × Bool) :=
  ((ascending (adjacency g near step.context range)).filter
    (handsOut step.direction range admits)).map fun e =>
      (e.toward range.1, e.key.destination, decide (range.1 = .out))

namespace PathAutomaton

variable (a : PathAutomaton)

/-- The edges a link hands out from a node, in order. -/
def crossings (g : Keyspaces) (near : EntityId) (l : ℕ) : List (EdgeId × EntityId × Bool) :=
  match a.edgeStep l with
  | none => []
  | some step => (ranges step.direction step.types).flatMap
      (rangeCrossings g near step (a.labelsAdmit (l + 1)))

/-- The visits one move leads to. -/
def moveVisits (g : Keyspaces) (near : EntityId) (k : ℕ) : Move → List (Visit × ℕ)
  | .same q k => [(⟨q, near, none⟩, k)]
  | .edge l => (a.crossings g near l).map fun x => (⟨l + 1, x.2.1, some (x.1, x.2.2)⟩, k)

/-- The visits a search may try next, in order. -/
def candidates (g : Keyspaces) (c : Config) : List (Visit × ℕ) :=
  (moves a c.visit.q c.k).flatMap (a.moveVisits g c.visit.node c.k)

/-- A visit passes the tests after those before it. -/
structure Passes (holds : ℕ → Row α → Bool) (view : List Visit → Row α) (base : Row α)
    (start : EntityId) (before : List Visit) (v : Visit) : Prop where
  labels : a.labelsAdmit v.q v.node = true
  mode : a.mode.Allows start (before ++ [v])
  agree : Agree base ((before ++ [v]).flatMap a.bound)
  tests : ∀ p ∈ a.predicates v.q (v.crossed), holds p (view (before ++ [v])) = true

section

open Classical

variable (g : Keyspaces) (holds : ℕ → Row α → Bool) (view : List Visit → Row α) (base : Row α)
  (start : EntityId)

/-- The candidates that pass. -/
noncomputable def passing (before : List Visit) (l : List (Visit × ℕ)) : List Config :=
  (l.filter fun x => decide (a.Passes holds view base start before x.1)).map fun x => ⟨before, x.1, x.2⟩

/-- The configurations a search goes on to. -/
noncomputable def children (c : Config) : List Config :=
  a.passing holds view base start c.visits (a.candidates g c)

/-- The configurations a search starts from. -/
noncomputable def roots : List Config := a.passing holds view base start [] [(⟨0, start, none⟩, 0)]

/-- A configuration a search comes to. -/
def Reached (c : Config) : Prop :=
  ∃ r ∈ a.roots holds view base start,
    Relation.ReflTransGen (fun c d => d ∈ a.children g holds view base start c) r c

end

end PathAutomaton

/-! ## What an edge step hands out -/

lemma toward_toward (d : Dir) (e : EdgeId) : (e.toward d).toward d = e := by
  cases d <;> rfl

section Crossings

variable {g : Keyspaces} (hmirror : g.reverse.keys = g.primary.keys)

include hmirror

lemma mem_adjacency {near : EntityId} {context : ℕ} {range : Range} {e : EdgeId} :
    e.toward range.1 ∈ adjacency g near context range ↔ e ∈ g.primary.keys
      ∧ e.key.near range.1 = near ∧ e.key.context = context ∧ ∀ t ∈ range.2, e.key.edgeType = t := by
  have hpost : g.postings range.1 = g.primary.keys := by
    cases range.1 with
    | out => rfl
    | into => exact hmirror
  have himage : e.toward range.1 ∈ g.primary.keys.image (EdgeId.toward range.1)
      ↔ e ∈ g.primary.keys := by
    rw [Finset.mem_image]
    constructor
    · rintro ⟨x, hx, heq⟩
      have := congrArg (EdgeId.toward range.1) heq
      rw [toward_toward, toward_toward] at this
      exact this ▸ hx
    · intro he
      exact ⟨e, he, rfl⟩
  rw [adjacency, Finset.mem_filter, hpost, himage]
  obtain ⟨d, t⟩ := range
  cases d <;> cases t <;> simp [EdgeId.toward, Graph.EdgeKey.near, eq_comm]

omit hmirror in
lemma mem_rangeCrossings {near far : EntityId} {step : EdgeStep} {admits : EntityId → Bool}
    {range : Range} {e : EdgeId} {forward : Bool} :
    (e, far, forward) ∈ rangeCrossings g near step admits range
      ↔ forward = decide (range.1 = .out) ∧ e.toward range.1 ∈ adjacency g near step.context range
        ∧ handsOut step.direction range admits (e.toward range.1) = true
        ∧ (e.toward range.1).key.destination = far := by
  rw [rangeCrossings, List.mem_map]
  constructor
  · rintro ⟨x, hx, heq⟩
    simp only [Prod.mk.injEq] at heq
    obtain ⟨rfl, rfl, rfl⟩ := heq
    rw [List.mem_filter, Graph.mem_ascending] at hx
    rw [toward_toward]
    exact ⟨rfl, hx.1, hx.2, rfl⟩
  · rintro ⟨rfl, hadj, hout, rfl⟩
    refine ⟨e.toward range.1, ?_, by rw [toward_toward]⟩
    rw [List.mem_filter, Graph.mem_ascending]
    exact ⟨hadj, hout⟩

omit hmirror in
lemma mem_ranges {direction : Direction} {types : Option (List ℕ)} {d : Dir} {t : Option ℕ} :
    (d, t) ∈ ranges direction types
      ↔ (direction ≠ if d = .out then .incoming else .outgoing)
        ∧ match types with
          | none => t = none
          | some types => ∃ t' ∈ types, t = some t' := by
  cases direction <;> cases types <;> cases d <;> simp [ranges, eq_comm]

variable {a : PathAutomaton} {width l : ℕ} {selector : Bool}

/-- **What a link hands out**: the crossings its step asks for, to nodes with the labels asked for. -/
lemma mem_crossings {near far : EntityId} {e : EdgeId} {forward : Bool} :
    (e, far, forward) ∈ a.crossings g near l ↔ ∃ step, a.edgeStep l = some step
      ∧ Crosses g step near e forward far ∧ a.labelsAdmit (l + 1) far = true := by
  rw [PathAutomaton.crossings]
  cases a.edgeStep l with
  | none => simp
  | some step =>
      simp only [Option.some.injEq, exists_eq_left', List.mem_flatMap, Prod.exists, mem_ranges,
        mem_rangeCrossings, mem_adjacency hmirror]
      constructor
      · rintro ⟨d, t, ⟨hdir, htypes⟩, rfl, ⟨hedge, hnear, hctx, ht⟩, hout, rfl⟩
        have hty : ∀ types ∈ step.types, e.key.edgeType ∈ types := by
          intro types hmem
          rw [Option.mem_def] at hmem
          rw [hmem] at htypes
          obtain ⟨t', ht', rfl⟩ := htypes
          exact ht t' rfl ▸ ht'
        cases d with
        | out =>
            simp only [handsOut, EdgeId.toward, Bool.and_eq_true] at hout
            exact ⟨⟨hedge, hctx, hty, ⟨hnear, rfl⟩, hdir, fun _ _ => rfl⟩, hout.2⟩
        | into =>
            simp only [handsOut, EdgeId.toward, Bool.and_eq_true] at hout
            refine ⟨⟨hedge, hctx, hty, ⟨hnear, rfl⟩, hdir, fun hboth hloop => ?_⟩, hout.2⟩
            simp [hboth, hloop] at hout
      · rintro ⟨⟨hedge, hctx, hty, hends, hdir, hloop⟩, hlabels⟩
        have ht : ∃ t, (match step.types with
            | none => t = none
            | some types => ∃ t' ∈ types, t = some t') ∧ ∀ t' ∈ t, e.key.edgeType = t' := by
          cases htypes : step.types with
          | none => exact ⟨none, rfl, by simp⟩
          | some types => exact ⟨some e.key.edgeType, ⟨_, hty types htypes, rfl⟩, by simp⟩
        obtain ⟨t, htypes, ht⟩ := ht
        cases forward with
        | true =>
            refine ⟨.out, t, ⟨hdir, htypes⟩, rfl, ⟨hedge, hends.1, hctx, ht⟩, ?_, hends.2⟩
            simp [handsOut, EdgeId.toward, hends.2, hlabels]
        | false =>
            refine ⟨.into, t, ⟨hdir, htypes⟩, rfl, ⟨hedge, hends.1, hctx, ht⟩, ?_, hends.2⟩
            have hne : step.direction = .both → e.key.destination ≠ e.key.source := fun hb he => by
              simpa using hloop hb he.symm
            simp only [handsOut, EdgeId.toward, Bool.and_eq_true, Bool.not_eq_true',
              Bool.and_eq_false_iff]
            refine ⟨?_, by rw [hends.2]; exact hlabels⟩
            by_cases hb : step.direction = .both
            · exact Or.inr (decide_eq_false (hne hb))
            · exact Or.inl (Or.inl (decide_eq_false hb))

omit hmirror in
lemma ranges_nodup {direction : Direction} {types : Option (List ℕ)}
    (h : ∀ items ∈ types, items.Nodup) : (ranges direction types).Nodup := by
  cases types with
  | none => cases direction <;> simp [ranges]
  | some items =>
      have hmap : ∀ d : Dir, (items.map fun t => (d, some t)).Nodup := fun d =>
        (h items rfl).map fun t t' heq => by simpa using heq
      cases direction with
      | both =>
          simp only [ranges, List.map_map, List.flatMap_cons, List.flatMap_nil, List.append_nil]
          refine List.nodup_append.2 ⟨hmap .out, hmap .into, ?_⟩
          rintro x hx y hy rfl
          simp only [List.mem_map] at hx hy
          obtain ⟨t, -, rfl⟩ := hx
          obtain ⟨t', -, heq⟩ := hy
          simp at heq
      | outgoing => simpa [ranges, Function.comp_def] using hmap .out
      | incoming => simpa [ranges, Function.comp_def] using hmap .into

/-- Every crossing is handed out once. -/
lemma crossings_nodup (hs : a.Sound width selector) (near : EntityId) (l : ℕ) :
    (a.crossings g near l).Nodup := by
  rw [PathAutomaton.crossings]
  cases hstep : a.edgeStep l with
  | none => simp
  | some step =>
      have hlink : a.link l = .edge step := by
        rw [PathAutomaton.edgeStep] at hstep
        split at hstep
        · cases hstep
        · cases hstep
          assumption
      refine List.nodup_flatMap.2 ⟨fun range _ => ?_, ?_⟩
      · refine ((Scan.take_nodup _ _ _).filter _).map_on ?_
        rintro x - y - heq
        have := congrArg (EdgeId.toward range.1) (Prod.mk.inj heq).1
        rwa [toward_toward, toward_toward] at this
      · refine (ranges_nodup (hs.distinct l step hlink)).imp_of_mem ?_
        rintro ⟨d, t⟩ ⟨d', t'⟩ hr hr' hne ⟨e, far, forward⟩ hx hx'
        rw [mem_ranges] at hr hr'
        rw [mem_rangeCrossings, mem_adjacency hmirror] at hx hx'
        -- the way an edge is crossed tells the direction of its range, and its type the range
        have hd : d = d' := by
          have := hx.1.symm.trans hx'.1
          cases d <;> cases d' <;> simp_all
        have ht : t = t' := by
          cases htypes : step.types with
          | none =>
              rw [htypes] at hr hr'
              rw [hr.2, hr'.2]
          | some items =>
              rw [htypes] at hr hr'
              obtain ⟨u, -, rfl⟩ := hr.2
              obtain ⟨u', -, rfl⟩ := hr'.2
              rw [← hx.2.1.2.2.2 u rfl, ← hx'.2.1.2.2.2 u' rfl]
        exact hne (by rw [hd, ht])

end Crossings


namespace PathAutomaton

variable {a : PathAutomaton} {width : ℕ} {selector : Bool} {q k p k' l : ℕ} {g : Keyspaces}

/-! ## The visits a search may try -/

lemma edgeStep_eq_none : a.edgeStep l = none ↔ a.link l = .same := by
  rw [edgeStep]
  cases a.link l <;> simp

/-- A move on the same node crosses no link that is an edge. -/
lemma joint_of_same (hs : a.Sound width selector) (h : .same p k' ∈ moves a q k) :
    a.joint q p = none := by
  rw [joint]
  split_ifs with hp
  · rw [edgeStep_eq_none]
    rw [moves] at h
    split at h
    · cases h
    · split at h
      case h_1 r hr =>
        have hlast := List.find?_some hr
        simp only [decide_eq_true_eq] at hlast
        exact hlast ▸ (hs.repeats r (List.mem_of_find?_eq_some hr)).left
      case h_2 =>
        split at h
        case h_1 r hr =>
          have hafter := List.find?_some hr
          simp only [decide_eq_true_eq] at hafter
          have := (hs.repeats r (List.mem_of_find?_eq_some hr)).entered
          rwa [hafter, Nat.add_sub_cancel] at this
        case h_2 =>
          cases hl : a.link q with
          | same => rfl
          | edge step => simp [hl] at h
  · rfl

lemma step_of_edge (h : .edge l ∈ moves a q k) : l = q ∧ ∃ step, a.edgeStep q = some step := by
  rw [moves] at h
  split at h
  · cases h
  · split at h
    · simp [List.mem_append, List.mem_ite_nil_right] at h
    · split at h
      · simp [List.mem_append, List.mem_ite_nil_right] at h
      · cases hl : a.link q with
        | same => simp [hl] at h
        | edge step =>
            simp only [hl, List.mem_singleton, Move.edge.injEq] at h
            exact ⟨h, step, by simp [edgeStep, hl]⟩

lemma mem_candidates (hs : a.Sound width selector) (hmirror : g.reverse.keys = g.primary.keys)
    {c : Config} {v : Visit} :
    (v, k) ∈ a.candidates g c ↔ (v.q, k) ∈ a.succs c.visit.q c.k ∧ a.Joined g c.visit v
      ∧ (v.via.isSome → a.labelsAdmit v.q v.node = true) := by
  obtain ⟨q', node, via⟩ := v
  simp only [candidates, succs, List.mem_flatMap, List.mem_map]
  constructor
  · rintro ⟨m, hm, hv⟩
    cases m with
    | same p k' =>
        simp only [moveVisits, List.mem_singleton, Prod.mk.injEq, Visit.mk.injEq] at hv
        obtain ⟨⟨rfl, rfl, rfl⟩, rfl⟩ := hv
        refine ⟨⟨_, hm, rfl⟩, ?_, by simp⟩
        simp [Joined, joint_of_same hs hm]
    | edge l =>
        obtain ⟨rfl, step, hstep⟩ := step_of_edge hm
        simp only [moveVisits, List.mem_map, Prod.mk.injEq, Visit.mk.injEq, Prod.exists] at hv
        obtain ⟨e, far, forward, hmem, ⟨rfl, rfl, rfl⟩, rfl⟩ := hv
        obtain ⟨step', hstep', hcross, hlabels⟩ := (mem_crossings hmirror).1 hmem
        refine ⟨⟨_, hm, rfl⟩, ?_, fun _ => hlabels⟩
        simp only [Joined, joint, if_true, hstep']
        exact hcross
  · rintro ⟨⟨m, hm, htarget⟩, hjoined, hlabels⟩
    refine ⟨m, hm, ?_⟩
    cases m with
    | same p k' =>
        simp only [target, Prod.mk.injEq] at htarget
        obtain ⟨rfl, rfl⟩ := htarget
        simp only [Joined, joint_of_same hs hm] at hjoined
        cases via with
        | none => simp [moveVisits, (hjoined : node = _)]
        | some x => exact hjoined.elim
    | edge l =>
        obtain ⟨rfl, step, hstep⟩ := step_of_edge hm
        simp only [target, Prod.mk.injEq] at htarget
        obtain ⟨rfl, rfl⟩ := htarget
        simp only [Joined, joint, if_true, hstep] at hjoined
        cases via with
        | none => exact hjoined.elim
        | some x =>
            simp only [moveVisits, List.mem_map]
            exact ⟨(x.1, node, x.2), (mem_crossings hmirror).2 ⟨step, hstep, hjoined, hlabels rfl⟩, rfl⟩

/-- The moves out of a position lead to different positions. -/
lemma moves_apart (hs : a.Sound width selector) :
    (moves a q k).Pairwise fun m m' => (target k m).1 ≠ (target k m').1 := by
  rw [moves]
  split
  · exact List.Pairwise.nil
  · split
    case h_1 r hr =>
      have hlast := List.find?_some hr
      have hfirst := (hs.repeats r (List.mem_of_find?_eq_some hr)).first_lt
      simp only [decide_eq_true_eq] at hlast
      refine List.pairwise_append.2 ⟨?_, ?_, ?_⟩
      · split_ifs <;> simp
      · split_ifs <;> simp
      · intro m hm m' hm'
        simp only [List.mem_ite_nil_right, List.mem_singleton] at hm hm'
        rw [hm.2, hm'.2]
        simp only [target]
        omega
    case h_2 =>
      split
      case h_1 r hr =>
        have hfirst := (hs.repeats r (List.mem_of_find?_eq_some hr)).first_lt
        refine List.pairwise_append.2 ⟨?_, ?_, ?_⟩
        · split_ifs <;> simp
        · split_ifs <;> simp
        · intro m hm m' hm'
          simp only [List.mem_ite_nil_right, List.mem_singleton] at hm hm'
          rw [hm.2, hm'.2]
          simp only [target]
          omega
      case h_2 => cases a.link q <;> simp

lemma moveVisits_q {m : Move} {near : EntityId} {x : Visit × ℕ} (h : x ∈ a.moveVisits g near k m) :
    x.1.q = (target k m).1 := by
  cases m with
  | same p k' =>
      rw [moveVisits, List.mem_singleton] at h
      rw [h]
      rfl
  | edge l =>
      rw [moveVisits, List.mem_map] at h
      obtain ⟨y, -, rfl⟩ := h
      rfl

/-- No visit is tried twice. -/
lemma candidates_nodup (hs : a.Sound width selector) (hmirror : g.reverse.keys = g.primary.keys)
    (c : Config) : ((a.candidates g c).map Prod.fst).Nodup := by
  rw [candidates, List.map_flatMap, List.nodup_flatMap]
  constructor
  · intro m _
    cases m with
    | same p k' => simp [moveVisits]
    | edge l =>
        rw [moveVisits, List.map_map]
        refine (crossings_nodup hmirror hs _ l).map ?_
        rintro ⟨e, far, forward⟩ ⟨e', far', forward'⟩ heq
        simp only [Function.comp_apply, Visit.mk.injEq, Option.some.injEq, Prod.mk.injEq,
          true_and] at heq
        obtain ⟨rfl, rfl, rfl⟩ := heq
        rfl
  · refine (moves_apart hs).imp ?_
    intro m m' hne v hv hv'
    obtain ⟨x, hx, rfl⟩ := List.mem_map.1 hv
    obtain ⟨y, hy, heq⟩ := List.mem_map.1 hv'
    exact hne ((moveVisits_q hx).symm.trans ((congrArg Visit.q heq).symm.trans (moveVisits_q hy)))

section Tree

variable {holds : ℕ → Row α → Bool} {view : List Visit → Row α} {base : Row α} {start : EntityId}
  {before : List Visit} {l : List (Visit × ℕ)} {c d : Config}

lemma mem_passing : d ∈ a.passing holds view base start before l ↔ d.before = before
    ∧ (d.visit, d.k) ∈ l ∧ a.Passes holds view base start before d.visit := by
  simp only [passing, List.mem_map, List.mem_filter, decide_eq_true_eq]
  constructor
  · rintro ⟨x, ⟨hx, hp⟩, rfl⟩
    exact ⟨rfl, hx, hp⟩
  · rintro ⟨rfl, hx, hp⟩
    exact ⟨(d.visit, d.k), ⟨hx, hp⟩, rfl⟩

lemma passing_append {l' : List (Visit × ℕ)} : a.passing holds view base start before (l ++ l')
    = a.passing holds view base start before l ++ a.passing holds view base start before l' := by
  simp [passing]

lemma passing_nodup (h : (l.map Prod.fst).Nodup) :
    ((a.passing holds view base start before l).map Config.visits).Nodup := by
  rw [passing, List.map_map]
  have hinj : ((l.map Prod.fst).map fun v => before ++ [v]).Nodup :=
    h.map fun v v' heq => by simpa using heq
  rw [List.map_map] at hinj
  exact hinj.sublist ((List.filter_sublist).map _)

lemma children_visits (h : d ∈ a.children g holds view base start c) :
    d.visits = c.visits ++ [d.visit] := by
  rw [children, mem_passing] at h
  rw [Config.visits, h.1]

end Tree

end PathAutomaton

/-! ## Matches so far -/

lemma edges_append (vs ws : List Visit) : edges (vs ++ ws) = edges vs ++ edges ws := by
  simp [edges]

lemma arrived_append (vs ws : List Visit) : arrived (vs ++ ws) = arrived vs ++ arrived ws := by
  simp [arrived]

/-- What a mode allows it allows of every part from the start. -/
lemma PathMode.Allows.of_prefix {mode : PathMode} {start : EntityId} {vs ws : List Visit}
    (h : mode.Allows start ws) (hp : vs <+: ws) : mode.Allows start vs := by
  obtain ⟨rest, rfl⟩ := hp
  cases mode with
  | walk => trivial
  | trail =>
      have h' : (edges (vs ++ rest)).Nodup := h
      rw [edges_append] at h'
      exact h'.of_append_left
  | acyclic =>
      have h' : (start :: arrived (vs ++ rest)).Nodup := h
      rw [arrived_append, ← List.cons_append] at h'
      exact h'.of_append_left

lemma Agree.of_prefix {base : Row α} {l m : List (Binding × Element)} (h : Agree base m)
    (hp : l <+: m) : Agree base l := by
  intro x hx hg
  obtain ⟨h1, h2⟩ := h x (hp.subset hx) hg
  exact ⟨h1, fun y hy => h2 y (hp.subset hy)⟩

lemma prefix_flatMap {β γ : Type} (f : β → List γ) {l m : List β} (h : l <+: m) :
    l.flatMap f <+: m.flatMap f := by
  obtain ⟨rest, rfl⟩ := h
  rw [List.flatMap_append]
  exact List.prefix_append _ _

@[simp] lemma Config.getLast?_visits (c : Config) : c.visits.getLast? = some c.visit := by
  simp [Config.visits]

namespace PathAutomaton

variable {a : PathAutomaton} {width : ℕ} {selector : Bool} {g : Keyspaces}
  {holds : ℕ → Row α → Bool} {view : List Visit → Row α} {base : Row α} {start : EntityId}
  {visits : List Visit} {c d : Config}

/-- What holds of the visits of a configuration that is reached: a match so far. -/
structure Partly (a : PathAutomaton) (g : Keyspaces) (holds : ℕ → Row α → Bool)
    (view : List Visit → Row α) (base : Row α) (start : EntityId) (c : Config) : Prop where
  first : ∃ rest, c.visits = ⟨0, start, none⟩ :: rest
  joined : c.visits.IsChain (a.Joined g)
  labels : ∀ v ∈ c.visits, a.labelsAdmit v.q v.node = true
  mode : a.mode.Allows start c.visits
  agree : Agree base (c.visits.flatMap a.bound)
  tests : ∀ before v, before ++ [v] <+: c.visits → ∀ p ∈ a.predicates v.q v.crossed,
    holds p (view (before ++ [v])) = true
  /-- what the moves accept from here completes a word -/
  spells : ∀ w, a.Accepts c.visit.q c.k w → a.Accepts 0 0 ((c.visits.map Visit.q).tail ++ w)

lemma partly_root (h : c ∈ a.roots holds view base start) :
    a.Partly g holds view base start c ∧ c = ⟨[], ⟨0, start, none⟩, 0⟩ := by
  rw [roots, mem_passing, List.mem_singleton] at h
  obtain ⟨before, visit, k⟩ := c
  obtain ⟨rfl, heq, hp⟩ := h
  obtain ⟨rfl, rfl⟩ := Prod.mk.inj heq
  refine ⟨⟨⟨[], rfl⟩, ?_, ?_, hp.mode, hp.agree, ?_, ?_⟩, rfl⟩
  · exact List.isChain_singleton _
  · intro v hv
    rw [Config.visits, List.nil_append, List.mem_singleton] at hv
    exact hv ▸ hp.labels
  · intro before v hpre
    rw [Config.visits, List.prefix_concat_iff, List.prefix_nil] at hpre
    rcases hpre with heq | heq
    · obtain ⟨rfl, heq⟩ := List.append_inj' heq rfl
      obtain ⟨rfl⟩ := List.singleton_injective heq
      exact hp.tests
    · simp at heq
  · intro w hw
    simpa [Config.visits] using hw

lemma partly_child (hs : a.Sound width selector) (hmirror : g.reverse.keys = g.primary.keys)
    (h : a.Partly g holds view base start c) (hd : d ∈ a.children g holds view base start c) :
    a.Partly g holds view base start d := by
  have hv := children_visits hd
  rw [children, mem_passing, mem_candidates hs hmirror] at hd
  obtain ⟨-, ⟨hsucc, hjoined, -⟩, hp⟩ := hd
  obtain ⟨rest, hrest⟩ := h.first
  refine ⟨⟨rest ++ [d.visit], by rw [hv, hrest]; rfl⟩, ?_, ?_, ?_, ?_, ?_, ?_⟩
  · rw [hv, List.isChain_append]
    refine ⟨h.joined, List.isChain_singleton _, ?_⟩
    simpa using hjoined
  · intro v hmem
    rw [hv, List.mem_append, List.mem_singleton] at hmem
    rcases hmem with hmem | rfl
    · exact h.labels v hmem
    · exact hp.labels
  · rw [hv]
    exact hp.mode
  · rw [hv]
    exact hp.agree
  · intro before v hpre
    rw [hv, List.prefix_concat_iff] at hpre
    rcases hpre with heq | hpre
    · obtain ⟨rfl, hsingle⟩ := List.append_inj' heq rfl
      obtain rfl := List.singleton_injective hsingle
      exact hp.tests
    · exact h.tests before v hpre
  · intro w hw
    have := h.spells (d.visit.q :: w) ⟨d.k, hsucc, hw⟩
    rw [hv, hrest]
    rw [hrest] at this
    simpa using this

lemma partly_of_reached (hs : a.Sound width selector) (hmirror : g.reverse.keys = g.primary.keys)
    (h : a.Reached g holds view base start c) : a.Partly g holds view base start c := by
  obtain ⟨r, hr, hreach⟩ := h
  induction hreach with
  | refl => exact (partly_root hr).1
  | tail _ hstep ih => exact partly_child hs hmirror ih hstep

/-- A match goes on from every configuration of its own. -/
lemma reached_of_match (hs : a.Sound width selector) (hmirror : g.reverse.keys = g.primary.keys)
    (hm : a.Match g holds view base start visits) (rest : List Visit)
    (h : a.Reached g holds view base start c) (heq : c.visits ++ rest = visits)
    (hacc : a.Accepts c.visit.q c.k (rest.map Visit.q)) :
    ∃ d, a.Reached g holds view base start d ∧ d.visits = visits
      ∧ d.visit.q + 1 = a.states.length := by
  induction rest generalizing c with
  | nil => exact ⟨c, h, by simpa using heq, hacc⟩
  | cons v rest ih =>
      obtain ⟨k, hsucc, hacc⟩ := hacc
      have hpre : c.visits ++ [v] <+: visits := ⟨rest, by simpa using heq⟩
      have hmem : v ∈ visits := hpre.subset (by simp)
      have hjoined : a.Joined g c.visit v := by
        have := hm.joined.prefix hpre
        rw [List.isChain_append] at this
        exact this.2.2 c.visit (by simp) v rfl
      have hpass : a.Passes holds view base start c.visits v :=
        ⟨hm.labels v hmem, hm.mode.of_prefix hpre, hm.agree.of_prefix (prefix_flatMap _ hpre),
          hm.tests _ _ hpre⟩
      have hchild : (⟨c.visits, v, k⟩ : Config) ∈ a.children g holds view base start c := by
        rw [children, mem_passing, mem_candidates hs hmirror]
        exact ⟨rfl, ⟨hsucc, hjoined, fun _ => hpass.labels⟩, hpass⟩
      obtain ⟨r, hr, hreach⟩ := h
      refine ih (c := ⟨c.visits, v, k⟩) ⟨r, hr, hreach.tail hchild⟩ ?_ hacc
      simpa [Config.visits] using heq

/-- **The matches are the accepting configurations that are reached.** -/
theorem matches_iff (hs : a.Sound width selector) (hmirror : g.reverse.keys = g.primary.keys) :
    a.Match g holds view base start visits ↔ ∃ c, a.Reached g holds view base start c
      ∧ c.visits = visits ∧ c.visit.q + 1 = a.states.length := by
  constructor
  · intro hm
    obtain ⟨rest, hrest⟩ := hm.first
    have hword := hm.word
    rw [hrest, List.map_cons, ← accepts_iff hs] at hword
    have hpre : [] ++ [⟨0, start, none⟩] <+: visits := ⟨rest, by simp [hrest]⟩
    have hroot : (⟨[], ⟨0, start, none⟩, 0⟩ : Config) ∈ a.roots holds view base start := by
      rw [roots, mem_passing]
      exact ⟨rfl, by simp, hm.labels _ (hpre.subset (by simp)), hm.mode.of_prefix hpre,
        hm.agree.of_prefix (prefix_flatMap _ hpre), hm.tests _ _ hpre⟩
    exact reached_of_match hs hmirror hm rest ⟨_, hroot, .refl⟩ (by simp [Config.visits, hrest]) hword
  · rintro ⟨c, hreached, rfl, hlast⟩
    have h := partly_of_reached hs hmirror hreached
    obtain ⟨rest, hrest⟩ := h.first
    refine ⟨?_, h.first, h.joined, h.labels, h.mode, h.agree, h.tests⟩
    have := h.spells [] hlast
    rw [hrest] at this ⊢
    rw [List.map_cons, ← accepts_iff hs]
    simpa using this

end PathAutomaton

/-! ## A path tells its match -/

/-- The steps of a path, in order. -/
def PathRef.steps : PathRef → List (EdgeId × Bool × EntityId)
  | start _ => []
  | step parent e forward node => steps parent ++ [(e, forward, node)]

/-- The step of a visit. -/
def Visit.step (v : Visit) : Option (EdgeId × Bool × EntityId) := v.via.map fun x => (x.1, x.2, v.node)

lemma pathOf_concat (start : EntityId) (visits : List Visit) (v : Visit) :
    pathOf start (visits ++ [v]) = v.extend (pathOf start visits) := by
  simp [pathOf]

lemma steps_pathOf (start : EntityId) (visits : List Visit) :
    (pathOf start visits).steps = visits.filterMap Visit.step := by
  induction visits using List.reverseRecOn with
  | nil => rfl
  | append_singleton visits v ih =>
      rw [pathOf_concat, List.filterMap_append, ← ih, Visit.extend]
      cases hv : v.via with
      | none => simp [Visit.step, hv]
      | some x => simp [Visit.step, hv, PathRef.steps]

namespace PathAutomaton

variable {a : PathAutomaton} {width : ℕ} {selector : Bool} {g : Keyspaces}
  {holds : ℕ → Row α → Bool} {view : List Visit → Row α} {base : Row α} {start : EntityId}
  {rest rest' visits visits' : List Visit} {v : Visit} {q k p k' : ℕ}

/-- A position is arrived at across an edge by every move to it or by none. -/
lemma joint_isSome (hs : a.Sound width selector) (h : (p, k') ∈ a.succs q k) :
    (a.joint q p).isSome = a.crossedInto p := by
  have hnext : (a.joint q (q + 1)).isSome = a.crossedInto (q + 1) := by
    simp [joint, crossedInto]
  cases hop_of_succs h with
  | @again r hr hlast hmax =>
      have h1 := (hs.repeats r hr).first_lt
      rw [joint, if_neg (by omega), crossedInto, edgeStep_eq_none.2 (hs.repeats r hr).entered]
      simp
  | @leave r hr hlast hmin => exact hnext
  | @enter r hr hfirst hmax => rwa [hfirst]
  | @skip r hr hfirst hmin =>
      have h1 := (hs.repeats r hr).first_lt
      rw [joint, if_neg (by omega), crossedInto, Nat.add_sub_cancel,
        edgeStep_eq_none.2 (hs.repeats r hr).left]
      simp
  | along hne hlast hfirst => exact hnext

lemma via_isSome {u : Visit} (h : a.Joined g v u) : u.via.isSome = (a.joint v.q u.q).isSome := by
  rw [Joined] at h
  cases hj : a.joint v.q u.q <;> cases hv : u.via <;> simp_all

/-- The edges of visits, counted by their positions. -/
lemma length_steps (hs : a.Sound width selector) (hchain : (v :: rest).IsChain (a.Joined g))
    (hacc : a.Accepts v.q k (rest.map Visit.q)) :
    (rest.filterMap Visit.step).length = (rest.map Visit.q).countP a.crossedInto := by
  induction rest generalizing v k with
  | nil => rfl
  | cons u rest ih =>
      rw [List.isChain_cons_cons] at hchain
      obtain ⟨k', hsucc, hacc⟩ := hacc
      have hvia := (via_isSome hchain.1).trans (joint_isSome hs hsucc)
      rw [List.map_cons, List.countP_cons, ← ih hchain.2 hacc, ← hvia]
      cases hu : u.via with
      | none => simp [Visit.step, hu]
      | some x => simp [Visit.step, hu]

/-- Visits of one word with the same steps are the same. -/
lemma visits_eq (h : (v :: rest).IsChain (a.Joined g)) (h' : (v :: rest').IsChain (a.Joined g))
    (hq : rest.map Visit.q = rest'.map Visit.q)
    (hsteps : rest.filterMap Visit.step = rest'.filterMap Visit.step) : rest = rest' := by
  induction rest generalizing v rest' with
  | nil => simpa using hq.symm
  | cons u rest ih =>
      cases rest' with
      | nil => simp at hq
      | cons u' rest' =>
          rw [List.isChain_cons_cons] at h h'
          rw [List.map_cons, List.map_cons, List.cons.injEq] at hq
          obtain ⟨q, node, via⟩ := u
          obtain ⟨q', node', via'⟩ := u'
          obtain rfl : q = q' := hq.1
          have hj := h.1
          have hj' := h'.1
          rw [Joined] at hj hj'
          have hu : (⟨q, node, via⟩ : Visit) = ⟨q, node', via'⟩ := by
            cases hjoint : a.joint v.q q with
            | none =>
                simp only [hjoint] at hj hj'
                cases via <;> cases via' <;> simp_all
            | some step =>
                simp only [hjoint] at hj hj'
                cases via with
                | none => exact hj.elim
                | some x =>
                    cases via' with
                    | none => exact hj'.elim
                    | some x' =>
                        simp only [List.filterMap_cons, Visit.step, Option.map_some,
                          List.cons.injEq, Prod.mk.injEq] at hsteps
                        obtain ⟨⟨h1, h2, rfl⟩, -⟩ := hsteps
                        rw [Prod.ext h1 h2]
          rw [hu] at hsteps h ⊢
          have htail : rest.filterMap Visit.step = rest'.filterMap Visit.step := by
            rw [List.filterMap_cons, List.filterMap_cons] at hsteps
            cases hs : Visit.step ⟨q, node', via'⟩ with
            | none => simpa [hs] using hsteps
            | some x => simpa [hs] using hsteps
          rw [ih h.2 h'.2 hq.2 htail]

/-- **In a pattern that is not ambiguous a path tells its match.** -/
lemma match_unique (hs : a.Sound width selector) (hamb : a.ambiguous = false)
    (hm : a.Match g holds view base start visits) (hm' : a.Match g holds view base start visits')
    (hpath : pathOf start visits = pathOf start visits') : visits = visits' := by
  obtain ⟨rest, rfl⟩ := hm.first
  obtain ⟨rest', rfl⟩ := hm'.first
  have hsteps : rest.filterMap Visit.step = rest'.filterMap Visit.step := by
    have := congrArg PathRef.steps hpath
    rwa [steps_pathOf, steps_pathOf] at this
  have hacc := (accepts_iff hs).2 hm.word
  have hacc' := (accepts_iff hs).2 hm'.word
  have hcount := (length_steps hs hm.joined hacc).symm.trans
    ((congrArg List.length hsteps).trans (length_steps hs hm'.joined hacc'))
  have hword := word_unique hs hamb hm.word hm'.word (by
    rw [List.map_cons, List.map_cons, List.countP_cons, List.countP_cons, hcount])
  rw [visits_eq hm.joined hm'.joined (List.cons.inj hword).2 hsteps]

end PathAutomaton

end Engine.Gql
