import Sekejap.Gql.Running

/-!
# Cheapest witnesses

`ANY CHEAPEST` gives for every node that a match ends at one match: of those that end there none costs
less, and of those that cost as much none has fewer edges.  Without a cost, as `ANY SHORTEST`, none has
fewer edges.  The search stops at an edge it relaxes that has no positive price; which edges it relaxes is
said of the pattern and the graph alone (`Spoils`).

* **`cheapest_witnesses`** — the operator comes to its end, or to an edge without a price.
* **`shortest_witnesses`** — without a cost it comes to its end.
-/

open Collections (EntityId)

open Engine.Graph (EdgeId Keyspaces)

open BestFirst (Status Found Offer Offered)

open Fallible

open Search (Turn Gives drain)

namespace Engine.Gql

variable {α : Type} [DecidableEq α]

/-! ## What is asked for -/

section Asked

variable (s : Setting α) (cost : Option (Pricing α)) (row : Row α) (start : EntityId)

/-- A match whose edges all have a price. -/
structure PricedMatch (visits : List Visit) : Prop where
  isMatch : s.automaton.Match s.graph s.holds (s.automaton.view row) row start visits
  priced : ∀ before v, before ++ [v] <+: visits → Priced s cost row before v

/-- Where a path ends. -/
def endOf (visits : List Visit) : Option EntityId := visits.getLast?.map Visit.node

/-- One match for each of some nodes, that costs least, and among those has the fewest edges. -/
structure Cheapest (vs : List (List Visit)) : Prop where
  priced : ∀ visits ∈ vs, PricedMatch s cost row start visits
  once : (vs.map endOf).Nodup
  least : ∀ visits ∈ vs, ∀ other, PricedMatch s cost row start other → endOf other = endOf visits →
    rank s cost row visits ≤ rank s cost row other

/-- Every node that a match ends at has one. -/
def Complete (vs : List (List Visit)) : Prop :=
  ∀ visits, s.automaton.Match s.graph s.holds (s.automaton.view row) row start visits →
    ∃ w ∈ vs, endOf w = endOf visits

/-- The end node was bound in advance. -/
def pinned : Bool := (s.automaton.nodeBinding (s.automaton.states.length - 1)).any fun b =>
  !b.group && decide (row.value b.slot ≠ .null)

/-- **An edge that the search relaxes has no price**: one that passes its tests after a path whose edges
have; where the end was bound in advance, a path that costs less than every match. -/
def Spoils (e : Error) : Prop := ∃ c,
  s.automaton.Reached s.graph s.holds (s.automaton.view row) row start c
    ∧ (∀ before v, before ++ [v] <+: c.visits → Priced s cost row before v)
    ∧ Unpriced s cost row start c (s.automaton.farCandidates s.graph c) e
    ∧ (pinned s row = true → ∀ visits, PricedMatch s cost row start visits →
      rank s cost row c.visits < rank s cost row visits)

/-- **What the operator gives for some rows**, and the error that stopped it. -/
inductive Outcome : List (Row α) → List (Row α) → Option Error → Prop
  | nil : Outcome [] [] none
  /-- a start that is no node is refused -/
  | refused {row : Row α} {rows : List (Row α)} : started s row = false →
      Outcome (row :: rows) [] (startError s (row :: rows))
  | null {row : Row α} {rows out : List (Row α)} {err : Option Error} :
      row.value s.origin = .null → Outcome rows out err → Outcome (row :: rows) out err
  | found {row : Row α} {rows out : List (Row α)} {err : Option Error} {start : EntityId}
      {vs : List (List Visit)} : row.value s.origin = .element (.node start) →
      Cheapest s cost row start vs → Complete s row start vs → (∀ e, ¬ Spoils s cost row start e) →
      Outcome rows out err →
      Outcome (row :: rows) (vs.map (s.automaton.result row start) ++ out) err
  | spoiled {row : Row α} {rows : List (Row α)} {e : Error} {start : EntityId} {vs : List (List Visit)} :
      row.value s.origin = .element (.node start) → Cheapest s cost row start vs →
      Spoils s cost row start e → Outcome (row :: rows) (vs.map (s.automaton.result row start)) (some e)

end Asked

/-! ## What is found -/

section Loop

variable {s : Setting α} {cost : Option (Pricing α)} {width : ℕ} {base : Row α} {start : EntityId}
  {run run' : Selection α} {st st' : Found Config} {level : ℚ ×ₗ ℕ} {c d : Config} {t : Status}
  {i : ℕ} {vs : List Config} {e : Error} {input : List (Row α)} {visits : List Visit}

/-- At the last position. -/
def Last (s : Setting α) (c : Config) : Prop := c.visit.q + 1 = s.automaton.states.length

omit [DecidableEq α] in
lemma pricedMatch_iff (hs : s.automaton.Sound width true)
    (hmirror : s.graph.reverse.keys = s.graph.primary.keys) : PricedMatch s cost base start visits
      ↔ ∃ c, (space s cost base start).Reach c ∧ c.visits = visits ∧ Last s c := by
  constructor
  · rintro ⟨hmatch, hpriced⟩
    obtain ⟨c, hreach, rfl, hlast⟩ := (PathAutomaton.matches_iff hs hmirror).1 hmatch
    exact ⟨c, reach_of_reached hreach hpriced, rfl, hlast⟩
  · rintro ⟨c, hreach, rfl, hlast⟩
    obtain ⟨hreached, hpriced⟩ := reached_of_reach hreach
    exact ⟨(PathAutomaton.matches_iff hs hmirror).2 ⟨c, hreached, rfl, hlast⟩, hpriced⟩

lemma endOf_visits (c : Config) : endOf c.visits = some c.visit.node := by
  rw [endOf, Config.getLast?_visits]
  rfl

omit [DecidableEq α] in
/-- What has no price from one configuration has none from another with its product state. -/
lemma unpriced_same (hs : s.automaton.Sound width true)
    (hmirror : s.graph.reverse.keys = s.graph.primary.keys) (hlen : base.length = width)
    (hc : (space s cost base start).Reach c) (hd : (space s cost base start).Reach d)
    (hsame : (space s cost base start).same c d)
    (h : Unpriced s cost base start d (s.automaton.farCandidates s.graph d) e) :
    Unpriced s cost base start c (s.automaton.farCandidates s.graph c) e := by
  obtain ⟨x, hx, hpass, hprice⟩ := h
  have hd' : (⟨d.visits, x.1, x.2⟩ : Config) ∈ farSteps s base start d :=
    PathAutomaton.mem_passing.2 ⟨rfl, hx, hpass⟩
  obtain ⟨c', hc', -, hvisit, hsameprice⟩ := farSteps_of_same hs hmirror hlen hc hd hsame hd'
  obtain ⟨-, hmem, hpass'⟩ := PathAutomaton.mem_passing.1 hc'
  refine ⟨(c'.visit, c'.k), hmem, hpass', ?_⟩
  rw [hvisit]
  exact hsameprice.trans hprice

omit [DecidableEq α] in
/-- A configuration that is reached has a price throughout, or an edge before it has none. -/
lemma reach_or_unpriced
    (h : s.automaton.Reached s.graph s.holds (s.automaton.view base) base start d) :
    (space s cost base start).Reach d ∨ ∃ c e, (space s cost base start).Reach c
      ∧ Unpriced s cost base start c (s.automaton.farCandidates s.graph c) e := by
  obtain ⟨r, hr, hreach⟩ := h
  induction hreach with
  | refl => exact Or.inl (.root hr)
  | @tail c d _ hd ih =>
      rcases ih with hc | hbad
      · rw [children_eq, List.mem_append] at hd
        rcases hd with hd | hd
        · exact Or.inl (.near hc hd)
        · obtain ⟨-, hmem, hpass⟩ := PathAutomaton.mem_passing.1 hd
          cases hprice : priceOf s cost base c.visits d.visit with
          | ok q => exact Or.inl (.far hc (mem_far.2 ⟨hd, q, hprice⟩))
          | error e => exact Or.inr ⟨c, e, hc, _, hmem, hpass, hprice⟩
      · exact Or.inr hbad

/-- An end that was bound in advance is the end of every match. -/
lemma pinned_end (hs : s.automaton.Sound width true)
    (hmirror : s.graph.reverse.keys = s.graph.primary.keys) (hpinned : pinned s base = true)
    (hc : s.automaton.Reached s.graph s.holds (s.automaton.view base) base start c) (hlast : Last s c) :
    ∃ b, s.automaton.nodeBinding (s.automaton.states.length - 1) = some b
      ∧ base.value b.slot = .element (.node c.visit.node) := by
  rw [pinned, Option.any_eq_true] at hpinned
  obtain ⟨b, hb, hvalue⟩ := hpinned
  simp only [Bool.and_eq_true, Bool.not_eq_true', decide_eq_true_eq] at hvalue
  obtain ⟨hgroup, hnull⟩ := hvalue
  have hq : s.automaton.states.length - 1 = c.visit.q := by
    rw [← hlast]
    rfl
  have hmem : (b, Element.node c.visit.node) ∈ c.visits.flatMap s.automaton.bound := by
    refine List.mem_flatMap.2 ⟨c.visit, by simp [Config.visits], ?_⟩
    rw [PathAutomaton.bound, List.mem_append]
    right
    rw [← hq, hb]
    simp
  have hagree := (PathAutomaton.partly_of_reached hs hmirror hc).agree _ hmem hgroup
  exact ⟨b, hb, hagree.1.resolve_left hnull⟩

lemma pinned_unique (hs : s.automaton.Sound width true)
    (hmirror : s.graph.reverse.keys = s.graph.primary.keys) (hpinned : pinned s base = true)
    (hc : s.automaton.Reached s.graph s.holds (s.automaton.view base) base start c) (hlast : Last s c)
    (hd : s.automaton.Reached s.graph s.holds (s.automaton.view base) base start d) (hlast' : Last s d) :
    c.visit.node = d.visit.node := by
  obtain ⟨b, hb, hvalue⟩ := pinned_end hs hmirror hpinned hc hlast
  obtain ⟨b', hb', hvalue'⟩ := pinned_end hs hmirror hpinned hd hlast'
  obtain rfl := Option.some.inj (hb.symm.trans hb')
  have := hvalue.symm.trans hvalue'
  exact Element.node.inj (BindingValue.element.inj this)

/-- What has been given: one for each node, that costs least. -/
structure Given (s : Setting α) (cost : Option (Pricing α)) (base : Row α) (start : EntityId)
    (vs : List Config) : Prop where
  reach : ∀ v ∈ vs, (space s cost base start).Reach v ∧ Last s v
  once : (vs.map fun v => v.visit.node).Nodup
  least : ∀ v ∈ vs, ∀ d, (space s cost base start).Reach d → Last s d → d.visit.node = v.visit.node →
    rank s cost base v.visits ≤ rank s cost base d.visits

omit [DecidableEq α] in
lemma Given.cheapest (hs : s.automaton.Sound width true)
    (hmirror : s.graph.reverse.keys = s.graph.primary.keys) (h : Given s cost base start vs) :
    Cheapest s cost base start (vs.map Config.visits) := by
  refine ⟨?_, ?_, ?_⟩
  · rintro _ hmem
    obtain ⟨v, hv, rfl⟩ := List.mem_map.1 hmem
    exact (pricedMatch_iff hs hmirror).2 ⟨v, (h.reach v hv).1, rfl, (h.reach v hv).2⟩
  · have hends : (vs.map Config.visits).map endOf
        = (vs.map fun v => v.visit.node).map some := by
      rw [List.map_map, List.map_map]
      exact List.map_congr_left fun v _ => endOf_visits v
    rw [hends]
    exact h.once.map (Option.some_injective _)
  · rintro _ hmem other hother heq
    obtain ⟨v, hv, rfl⟩ := List.mem_map.1 hmem
    obtain ⟨d, hd, rfl, hlast⟩ := (pricedMatch_iff hs hmirror).1 hother
    rw [endOf_visits, endOf_visits] at heq
    exact h.least v hv d hd hlast (Option.some.inj heq)

/-- **A running search** between two turns. -/
structure Running (s : Setting α) (cost : Option (Pricing α)) (base : Row α) (start : EntityId)
    (run : Selection α) (st : Found Config) (level : ℚ ×ₗ ℕ) (vs : List Config) : Prop where
  mirrors : Mirrors s cost base start run st level none
  bests : Bests s base run.best st
  inv : BestFirst.Inv (space s cost base start) st level []
  /-- every edge walked so far has a price -/
  priced : ∀ c, (c, .walked) ∈ st → ∀ e,
    ¬ Unpriced s cost base start c (s.automaton.farCandidates s.graph c) e
  ends : ∀ n, n ∈ run.ends ↔ ∃ v ∈ vs, v.visit.node = n
  ended : ∀ c t, (c, t) ∈ st → t = .settled ∨ t = .walked → Last s c → c.visit.node ∈ run.ends
  fixed : run.fixed = pinned s base
  unmet : run.fixed = true → vs = []
  given : Given s cost base start vs

/-- What costs less than all that is left to do has been settled, and if an edge from it has no price
neither has one that was walked. -/
lemma Running.settled_lt (hs : s.automaton.Sound width true)
    (hmirror : s.graph.reverse.keys = s.graph.primary.keys) (hlen : base.length = width)
    (h : Running s cost base start run st level vs) {Q : ℚ ×ₗ ℕ → Prop} (hQ : ∀ m n, m ≤ n → Q n → Q m)
    (hwaiting : ∀ c, (c, .waiting) ∈ st → ¬ Q (rank s cost base c.visits))
    (hsettled : ∀ c, (c, .settled) ∈ st → ∀ n, Q n → n ≤ rank s cost base c.visits)
    (hd : (space s cost base start).Reach d) (hcost : Q (rank s cost base d.visits)) (hlast : Last s d) :
    d.visit.node ∈ run.ends := by
  have hS : (space s cost base start).Lawful := space_lawful hs hmirror hlen
  obtain ⟨c, t, hc, ht, hsame, -⟩ := BestFirst.covers hS h.inv hQ hwaiting hsettled hd hcost
  have hkey : c.visit.node = d.visit.node ∧ c.visit.q = d.visit.q := by
    rcases hsame with rfl | ⟨-, hkey⟩
    · exact ⟨rfl, rfl⟩
    · simp only [keyOf, Prod.mk.injEq] at hkey
      exact ⟨hkey.1, hkey.2.1⟩
  rw [← hkey.1]
  exact h.ended c t hc ht (by rw [Last, hkey.2]; exact hlast)

/-- Likewise an edge without a price is not below all that is left to do. -/
lemma Running.priced_lt (hs : s.automaton.Sound width true)
    (hmirror : s.graph.reverse.keys = s.graph.primary.keys) (hlen : base.length = width)
    (h : Running s cost base start run st level vs) {Q : ℚ ×ₗ ℕ → Prop} (hQ : ∀ m n, m ≤ n → Q n → Q m)
    (hwaiting : ∀ c, (c, .waiting) ∈ st → ¬ Q (rank s cost base c.visits))
    (hsettled : ∀ c, (c, .settled) ∈ st → ¬ Q (rank s cost base c.visits))
    (hsettled' : ∀ c, (c, .settled) ∈ st → ∀ n, Q n → n ≤ rank s cost base c.visits)
    (hd : (space s cost base start).Reach d) (hcost : Q (rank s cost base d.visits)) :
    ¬ Unpriced s cost base start d (s.automaton.farCandidates s.graph d) e := by
  have hS : (space s cost base start).Lawful := space_lawful hs hmirror hlen
  obtain ⟨c, t, hc, ht, hsame, hle⟩ := BestFirst.covers hS h.inv hQ hwaiting hsettled' hd hcost
  have hwalked : t = .walked := by
    rcases ht with rfl | rfl
    · exact absurd (hQ _ _ hle hcost) (hsettled c hc)
    · rfl
  subst hwalked
  intro hbad
  exact h.priced c hc e (unpriced_same hs hmirror hlen (h.inv.reach c _ hc) hd hsame hbad)

/-! ## Turns -/

lemma turn_none (h : run.frontier.pop = none) :
    Select.turn s cost ⟨input, some run⟩ = .ok (.going ⟨input, none⟩) := by
  simp only [Select.turn, h]

lemma turn_walk {f : Frontier} (h : run.frontier.pop = some ((i, true), f)) :
    Select.turn s cost ⟨input, some run⟩ = (Selection.expand s cost { run with frontier := f } i true).bind
      fun run => .ok (.going ⟨input, some run⟩) := by
  simp only [Select.turn, h, if_true]
  rfl

lemma turn_pass {f : Frontier} {r : Record α} (h : run.frontier.pop = some ((i, false), f))
    (hr : run.records[i]? = some r) (hs : r.superseded = true) :
    Select.turn s cost ⟨input, some run⟩
      = .ok (.going ⟨input, some { run with frontier := f }⟩) := by
  simp only [Select.turn, h, Bool.false_eq_true, if_false, hr, hs, if_true]

lemma turn_settle {f : Frontier} {r : Record α} (h : run.frontier.pop = some ((i, false), f))
    (hr : run.records[i]? = some r) (hs : r.superseded = false)
    (hq : r.state + 1 < s.automaton.states.length) :
    Select.turn s cost ⟨input, some run⟩ = (Selection.expand s cost { run with
        frontier := f
        records := run.records.set i { r with settled := true } } i false).bind
      fun run => .ok (.going ⟨input, some run⟩) := by
  simp only [Select.turn, h, Bool.false_eq_true, if_false, hr, hs, hq, if_true]
  rfl

lemma turn_last {f : Frontier} {r : Record α} (h : run.frontier.pop = some ((i, false), f))
    (hr : run.records[i]? = some r) (hs : r.superseded = false)
    (hq : ¬ r.state + 1 < s.automaton.states.length) :
    Select.turn s cost ⟨input, some run⟩
      = if r.node ∈ run.ends then .ok (.going ⟨input, some { run with
          frontier := f
          records := run.records.set i { r with settled := true } }⟩)
        else .ok (.gives (Selection.emit s { run with
            frontier := f
            records := run.records.set i { r with settled := true }
            ends := r.node :: run.ends } i)
          ⟨input, if run.fixed then none else some { run with
            frontier := f
            records := run.records.set i { r with settled := true }
            ends := r.node :: run.ends }⟩) := by
  simp only [Select.turn, h, Bool.false_eq_true, if_false, hr, hs, hq]

/-- What a running search comes to: its end, or an edge without a price. -/
def Comes (s : Setting α) (cost : Option (Pricing α)) (base : Row α) (start : EntityId)
    (input : List (Row α)) (run : Selection α) (vs : List Config) : Prop :=
  ∃ more : List Config,
    (Gives (Select.turn s cost) ⟨input, some run⟩
        (more.map fun v => s.automaton.result base start v.visits) ⟨input, none⟩
      ∧ Given s cost base start (vs ++ more) ∧ Complete s base start ((vs ++ more).map Config.visits)
      ∧ ∀ e, ¬ Spoils s cost base start e)
    ∨ ∃ op e, Gives (Select.turn s cost) ⟨input, some run⟩
        (more.map fun v => s.automaton.result base start v.visits) op
      ∧ Select.turn s cost op = .error e ∧ Given s cost base start (vs ++ more)
      ∧ Spoils s cost base start e

lemma Comes.going (hturn : Select.turn s cost ⟨input, some run⟩ = .ok (.going ⟨input, some run'⟩))
    (h : Comes s cost base start input run' vs) : Comes s cost base start input run vs := by
  obtain ⟨more, ⟨hg, hrest⟩ | ⟨op, e, hg, hrest⟩⟩ := h
  · exact ⟨more, Or.inl ⟨.going hturn hg, hrest⟩⟩
  · exact ⟨more, Or.inr ⟨op, e, .going hturn hg, hrest⟩⟩

lemma Comes.gives {v : Config} (hturn : Select.turn s cost ⟨input, some run⟩
      = .ok (.gives (s.automaton.result base start v.visits) ⟨input, some run'⟩))
    (h : Comes s cost base start input run' (vs ++ [v])) : Comes s cost base start input run vs := by
  obtain ⟨more, h⟩ := h
  rw [List.append_assoc, List.singleton_append] at h
  obtain ⟨hg, hrest⟩ | ⟨op, e, hg, hrest⟩ := h
  · exact ⟨v :: more, Or.inl ⟨.gives hturn hg, hrest⟩⟩
  · exact ⟨v :: more, Or.inr ⟨op, e, .gives hturn hg, hrest⟩⟩

/-! ## The end -/

/-- Every match has its end among what was given, when every priced one has, and no edge spoils the
search. -/
lemma complete_of_priced (hs : s.automaton.Sound width true)
    (hmirror : s.graph.reverse.keys = s.graph.primary.keys)
    (hpriced : ∀ d, (space s cost base start).Reach d → Last s d → ∃ v ∈ vs, v.visit.node = d.visit.node)
    (hspoils : ∀ e, ¬ Spoils s cost base start e) : Complete s base start (vs.map Config.visits) := by
  intro visits hmatch
  obtain ⟨d, hd, rfl, hlast⟩ := (PathAutomaton.matches_iff hs hmirror).1 hmatch
  have hto : (∃ v ∈ vs, v.visit.node = d.visit.node) →
      ∃ w ∈ vs.map Config.visits, endOf w = endOf d.visits := by
    rintro ⟨v, hv, hnode⟩
    exact ⟨v.visits, List.mem_map_of_mem hv, by rw [endOf_visits, endOf_visits, hnode]⟩
  refine hto ?_
  rcases reach_or_unpriced hd with hreach | ⟨c, e, hc, hbad⟩
  · exact hpriced d hreach hlast
  · -- the search stopped before the edge without a price, at an end bound in advance
    obtain ⟨hcr, hcp⟩ := reached_of_reach hc
    have hnot := hspoils e
    rw [Spoils, not_exists] at hnot
    have hpin : ¬ (pinned s base = true → ∀ visits, PricedMatch s cost base start visits →
        rank s cost base c.visits < rank s cost base visits) := fun h => hnot c ⟨hcr, hcp, hbad, h⟩
    push Not at hpin
    obtain ⟨hpinned, w, hw, -⟩ := hpin
    obtain ⟨d', hd', -, hlast'⟩ := (pricedMatch_iff hs hmirror).1 hw
    obtain ⟨v, hv, hnode⟩ := hpriced d' hd' hlast'
    exact ⟨v, hv, hnode.trans (pinned_unique hs hmirror hpinned (reached_of_reach hd').1 hlast' hd hlast)⟩

/-- **A search with nothing left to do has found all.** -/
lemma Running.comes_none (hs : s.automaton.Sound width true)
    (hmirror : s.graph.reverse.keys = s.graph.primary.keys) (hlen : base.length = width)
    (h : Running s cost base start run st level vs) (hpop : run.frontier.pop = none) :
    Comes s cost base start input run vs := by
  have hentries := Frontier.pop_none hpop
  have hwaiting : ∀ c, (c, Status.waiting) ∉ st := by
    intro c hc
    obtain ⟨j, hj⟩ := List.mem_iff_getElem?.1 hc
    have := h.mirrors.waits j c hj
    rw [hentries] at this
    cases this
  have hsettled : ∀ c, (c, Status.settled) ∉ st := by
    intro c hc
    obtain ⟨j, hj⟩ := List.mem_iff_getElem?.1 hc
    have := (h.mirrors.settles j c hj).resolve_left (by simp)
    rw [hentries] at this
    cases this
  have hspoils : ∀ e, ¬ Spoils s cost base start e := by
    rintro e ⟨c, hc, hcp, hbad, -⟩
    exact h.priced_lt hs hmirror hlen (Q := fun _ => True) (fun _ _ _ h => h)
      (fun c hc => absurd hc (hwaiting c)) (fun c hc => absurd hc (hsettled c))
      (fun c hc => absurd hc (hsettled c)) (reach_of_reached hc hcp) trivial hbad
  refine ⟨[], Or.inl ⟨Gives.once (turn_none hpop), by simpa using h.given, ?_, hspoils⟩⟩
  rw [List.append_nil]
  refine complete_of_priced hs hmirror (fun d hd hlast => ?_) hspoils
  exact (h.ends _).1 (h.settled_lt hs hmirror hlen (Q := fun _ => True) (fun _ _ _ h => h)
    (fun c hc => absurd hc (hwaiting c)) (fun c hc => absurd hc (hsettled c)) hd trivial hlast)

/-! ## One turn -/

/-- A turn leaves less to do: it is a turn of a best-first search that comes to an end. -/
structure After (s : Setting α) (cost : Option (Pricing α)) (base : Row α) (start : EntityId)
    (all : Finset (Key α)) (st' st : Found Config) : Prop where
  turn : BestFirst.Turn (space s cost base start) (s.automaton.mode = .walk) st st'
  kinds : s.automaton.mode = .walk → BestFirst.Kinds (keyOf s base) all st'
  acc : s.automaton.mode ≠ .walk → ∀ c t, (c, t) ∈ st → Acc (BestFirst.Child (space s cost base start)) c

omit [DecidableEq α] in
lemma wellFounded_after (all : Finset (Key α)) : WellFounded (After s cost base start all) := by
  by_cases hwalk : s.automaton.mode = .walk
  · exact Subrelation.wf (fun h => ⟨h.turn, h.kinds hwalk⟩)
      (BestFirst.wellFounded_kinds (S := space s cost base start) (keyOf s base) all)
  · exact Subrelation.wf (fun h => ⟨h.turn, h.acc hwalk⟩) (BestFirst.wellFounded_tree hwalk)

lemma after_of_turn (hs : s.automaton.Sound width true)
    (hmirror : s.graph.reverse.keys = s.graph.primary.keys) {all : Finset (Key α)}
    (hall : ∀ c, s.automaton.Reached s.graph s.holds (s.automaton.view base) base start c →
      keyOf s base c ∈ all) {best : List (Key α × ℕ)} (hb : Bests s base best st')
    (hreach : ∀ c t, (c, t) ∈ st → (space s cost base start).Reach c)
    (hreach' : ∀ c t, (c, t) ∈ st' → (space s cost base start).Reach c)
    (hturn : BestFirst.Turn (space s cost base start) (s.automaton.mode = .walk) st st') :
    After s cost base start all st' st := by
  refine ⟨hturn, fun hwalk => ?_, fun hwalk c t hc => ?_⟩
  · exact kinds_of_bests hwalk hb fun c t hc => hall c (reached_of_reach (hreach' c t hc)).1
  · have hacc := PathAutomaton.children_acc hs hmirror (fun h => absurd h hwalk)
      (reached_of_reach (hreach c t hc)).1
    refine Subrelation.accessible (fun {x y} hxy => ?_) hacc
    rw [Search.Child, children_eq, List.mem_append]
    exact hxy.imp id fun h => (mem_far.1 h).1

/-- What is left to do after a turn. -/
def Less (s : Setting α) (cost : Option (Pricing α)) (base : Row α) (start : EntityId)
    (all : Finset (Key α)) (x' x : Found Config × ℕ) : Prop :=
  Prod.Lex (Relation.TransGen (After s cost base start all)) (· < ·) x' x

/-- A turn goes on to a running search with less to do. -/
def Advances (s : Setting α) (cost : Option (Pricing α)) (base : Row α) (start : EntityId)
    (all : Finset (Key α)) (input : List (Row α)) (run : Selection α) (st : Found Config)
    (vs : List Config) : Prop :=
  ∃ run' st' level' vs', Running s cost base start run' st' level' vs'
    ∧ Less s cost base start all (st', run'.frontier.entries.length) (st, run.frontier.entries.length)
    ∧ (Comes s cost base start input run' vs' → Comes s cost base start input run vs)

variable {f : Frontier} {all : Finset (Key α)}

/-- A record that was replaced is passed over. -/
lemma Running.passes {r : Record α} (h : Running s cost base start run st level vs)
    (hpop : run.frontier.pop = some ((i, false), f)) (hi : st[i]? = some (c, .replaced))
    (hr : run.records[i]? = some r) : Advances s cost base start all input run st vs := by
  obtain ⟨parent, hrecord⟩ := h.mirrors.record i c _ hi
  have hsuper : r.superseded = true := by
    rw [← Option.some.inj (hrecord.symm.trans hr)]
    rfl
  have hpass := h.mirrors.pass hpop hi
  obtain ⟨hperm, -, -⟩ := Frontier.pop_some h.mirrors.keeps hpop
  have hmem : (i, false) ∈ run.frontier.entries := hperm.symm.subset List.mem_cons_self
  have hlength : f.entries.length < run.frontier.entries.length := by
    rw [hperm.length_eq, List.length_cons]
    exact Nat.lt_succ_self _
  have hrun : ∃ level', Running s cost base start { run with frontier := f } st level' vs := by
    cases hheap : run.frontier.isHeap with
    | true =>
        have hf : f.isHeap = true := (Frontier.isHeap_pop hpop).trans hheap
        exact ⟨level, { hpass with keeps := hpass.keeps.of_isHeap hf }, h.bests, h.inv, h.priced, h.ends,
          h.ended, h.fixed, h.unmet, h.given⟩
    | false =>
        have hlevel := h.mirrors.keeps.level_le hheap hmem
        rw [rankAt_eq hi] at hlevel
        exact ⟨_, hpass, h.bests, h.inv.raise hlevel (fun d hd => (h.mirrors.le_waiting hpop hi hd).1)
          (fun d hd => h.mirrors.le_settled hpop hi hd), h.priced, h.ends, h.ended, h.fixed, h.unmet,
          h.given⟩
  obtain ⟨level', hrun⟩ := hrun
  exact ⟨_, st, level', vs, hrun, Prod.Lex.right _ hlength, Comes.going (turn_pass hpop hr hsuper)⟩

omit [DecidableEq α] in
/-- Nothing is left to do at the last position. -/
lemma steps_last (hlast : Last s c) :
    (space s cost base start).near c = [] ∧ s.automaton.farCandidates s.graph c = [] := by
  have hnear : s.automaton.nearCandidates s.graph c = [] := by
    rw [PathAutomaton.nearCandidates, moves_last hlast]
    rfl
  refine ⟨?_, ?_⟩
  · rw [← payable_near, hnear]
    rfl
  · rw [PathAutomaton.farCandidates, moves_last hlast]
    rfl

/-- What is in the list after one of it was settled and walked was in it, or is that one. -/
lemma mem_set_set {d : Config} {t u v : Status} (hd : (d, t) ∈ (st.set i (c, u)).set i (c, v)) :
    d = c ∨ (d, t) ∈ st := by
  rcases BestFirst.mem_set_cases hd with heq | hd
  · exact Or.inl (Prod.mk.inj heq).1
  · exact (BestFirst.mem_set_cases hd).imp_left fun heq => (Prod.mk.inj heq).1

omit [DecidableEq α] in
/-- One more path is given, the cheapest to a node that none has ended at. -/
lemma Given.snoc (h : Given s cost base start vs) (hreach : (space s cost base start).Reach c)
    (hlast : Last s c) (hnew : ∀ v ∈ vs, v.visit.node ≠ c.visit.node)
    (hleast : ∀ d, (space s cost base start).Reach d → Last s d → d.visit.node = c.visit.node →
      rank s cost base c.visits ≤ rank s cost base d.visits) :
    Given s cost base start (vs ++ [c]) := by
  refine ⟨fun v hv => ?_, ?_, fun v hv => ?_⟩
  · rcases List.mem_append.1 hv with hv | hv
    · exact h.reach v hv
    · obtain rfl := List.mem_singleton.1 hv
      exact ⟨hreach, hlast⟩
  · rw [List.map_append, List.map_singleton]
    refine h.once.append (List.nodup_singleton _) ?_
    rw [List.disjoint_singleton]
    intro hmem
    obtain ⟨v, hv, hsame⟩ := List.mem_map.1 hmem
    exact hnew v hv hsame
  · rcases List.mem_append.1 hv with hv | hv
    · exact h.least v hv
    · obtain rfl := List.mem_singleton.1 hv
      exact hleast

section Turns

variable (hs : s.automaton.Sound width true) (hmirror : s.graph.reverse.keys = s.graph.primary.keys)
  (hlen : base.length = width)

include hs hmirror hlen

/-- Where no path to its node has been given, nothing that ends there costs less than what is taken. -/
lemma Running.least
    (h : Running s cost base start run st level vs) (hpop : run.frontier.pop = some ((i, false), f))
    (hi : st[i]? = some (c, .waiting)) (hin : c.visit.node ∉ run.ends)
    (hd : (space s cost base start).Reach d) (hlast : Last s d) (hsame : d.visit.node = c.visit.node) :
    rank s cost base c.visits ≤ rank s cost base d.visits := by
  by_contra hnot
  refine hin (hsame ▸ h.settled_lt hs hmirror hlen (Q := fun n => n < rank s cost base c.visits)
    (fun _ _ hmn hn => hmn.trans_lt hn) (fun e he => not_lt.2 (h.mirrors.le_waiting hpop hi he).1)
    (fun e he n hn => hn.le.trans (h.mirrors.le_settled hpop hi he)) hd (not_le.1 hnot) hlast)

/-- **Where the end was bound in advance the first path given is all there is**, and no edge before it is
without a price. -/
lemma Running.pinned
    (h : Running s cost base start run st level vs) (hpop : run.frontier.pop = some ((i, false), f))
    (hi : st[i]? = some (c, .waiting)) (hlast : Last s c) (hpinned : Gql.pinned s base = true) :
    Complete s base start ((vs ++ [c]).map Config.visits) ∧ ∀ e, ¬ Spoils s cost base start e := by
  have hreach := h.inv.reach c _ (List.mem_of_getElem? hi)
  obtain ⟨hreached, -⟩ := reached_of_reach hreach
  constructor
  · intro visits hmatch
    obtain ⟨d, hd, rfl, hlast'⟩ := (PathAutomaton.matches_iff hs hmirror).1 hmatch
    refine ⟨c.visits, List.mem_map_of_mem (by simp), ?_⟩
    rw [endOf_visits, endOf_visits, pinned_unique hs hmirror hpinned hreached hlast hd hlast']
  · rintro e ⟨d, hd, hdp, hbad, hpin⟩
    have hcheaper := hpin hpinned c.visits ((pricedMatch_iff hs hmirror).2 ⟨c, hreach, rfl, hlast⟩)
    have hsettled : ∀ d, (d, .settled) ∈ st → rank s cost base c.visits ≤ rank s cost base d.visits :=
      fun d hd => h.mirrors.le_settled hpop hi hd
    exact h.priced_lt hs hmirror hlen (Q := fun n => n < rank s cost base c.visits)
      (fun _ _ hmn hn => hmn.trans_lt hn) (fun e he => not_lt.2 (h.mirrors.le_waiting hpop hi he).1)
      (fun e he => not_lt.2 (hsettled e he)) (fun e he n hn => hn.le.trans (hsettled e he))
      (reach_of_reached hd hdp) hcheaper hbad

section Decreasing

variable (hall : ∀ c, s.automaton.Reached s.graph s.holds (s.automaton.view base) base start c →
  keyOf s base c ∈ all)

include hall

/-- A settled record is walked from, unless an edge from it has no price. -/
lemma Running.walks
    (h : Running s cost base start run st level vs) (hpop : run.frontier.pop = some ((i, true), f))
    (hi : st[i]? = some (c, .settled)) :
    Comes s cost base start input run vs ∨ Advances s cost base start all input run st vs := by
  have hS : (space s cost base start).Lawful := space_lawful hs hmirror hlen
  have hmem := List.mem_of_getElem? hi
  have hreach := h.inv.reach c _ hmem
  obtain ⟨hreached, hpaid⟩ := reached_of_reach hreach
  have hlt := (List.getElem?_eq_some_iff.1 hi).1
  have hi' : (st.set i (c, .walked))[i]? = some (c, .walked) := List.getElem?_set_self hlt
  have hm := (h.mirrors.unqueue hpop hi).walked hi
  have hI := h.inv.walk hS hi
  rw [show level = rank s cost base c.visits from (h.inv.settled c hmem).symm] at hI
  have hb := h.bests.set (u := .walked) hi (by decide) (by decide)
  obtain ⟨parent, hr⟩ := hm.record i c _ hi'
  have hturn : Select.turn s cost ⟨input, some run⟩ = _ := turn_walk hpop
  rw [expand_far hr] at hturn
  rcases arrivals_spec hs hmirror hlen hm hb hI hi' (by decide) hreached mem_candidates_far
    (fun d hd => room_far hm hd) with ⟨e, he, hbad⟩ | ⟨run', st', hrun', hp, hno⟩
  · -- the search stops at an edge without a price
    rw [he] at hturn
    refine Or.inl ⟨[], Or.inr ⟨_, e, .refl _, hturn, by simpa using h.given, c, hreached, hpaid, hbad, ?_⟩⟩
    intro hpinned visits hmatch
    by_contra hnot
    obtain ⟨d, hd, rfl, hlast⟩ := (pricedMatch_iff hs hmirror).1 hmatch
    have hin := h.settled_lt hs hmirror hlen (Q := fun n => n ≤ rank s cost base c.visits)
      (fun _ _ hmn hn => hmn.trans hn)
      (fun c' hc' => not_le.2 ((h.mirrors.le_waiting hpop hi hc').2 rfl))
      (fun c' hc' n hn => hn.trans (h.mirrors.le_settled hpop hi hc')) hd (not_lt.1 hnot) hlast
    obtain ⟨v, hv, -⟩ := (h.ends _).1 hin
    rw [h.unmet (h.fixed.trans hpinned)] at hv
    cases hv
  · rw [hrun'] at hturn
    have hI' := hI.offered hS hp.offered
    -- what has been settled had been, but for `c`
    have hdone : ∀ d t, (d, t) ∈ st' → t = .settled ∨ t = .walked →
        (d, t) = (c, .walked) ∨ (d, t) ∈ st := fun d t hd ht =>
      BestFirst.mem_set_cases (hp.offered.mem_of_done hd ht)
    have hafter : After s cost base start all st' st :=
      after_of_turn hs hmirror hall hp.bests h.inv.reach hI'.reach (.walk hi hp.offered)
    refine Or.inr ⟨run', st', _, vs, ⟨hp.mirrors, hp.bests, hI', ?_, ?_, ?_, ?_, ?_, h.given⟩,
      Prod.Lex.left _ _ (.single hafter), Comes.going hturn⟩
    · intro d hd
      rcases hdone d _ hd (Or.inr rfl) with heq | hd
      · rw [(Prod.mk.inj heq).1]
        exact hno
      · exact h.priced d hd
    · rw [hp.ends]
      exact h.ends
    · intro d t hd ht hlast
      rw [hp.ends]
      rcases hdone d t hd ht with heq | hd
      · obtain ⟨rfl, -⟩ := Prod.mk.inj heq
        exact h.ended d _ hmem (Or.inl rfl) hlast
      · exact h.ended d t hd ht hlast
    · rw [hp.fixed]
      exact h.fixed
    · rw [hp.fixed]
      exact h.unmet

/-- A record that waited is settled, and its moves on its node are made. -/
lemma Running.settles {r : Record α}
    (h : Running s cost base start run st level vs) (hpop : run.frontier.pop = some ((i, false), f))
    (hi : st[i]? = some (c, .waiting)) (hr : run.records[i]? = some r)
    (hq : r.state + 1 < s.automaton.states.length) : Advances s cost base start all input run st vs := by
  have hS : (space s cost base start).Lawful := space_lawful hs hmirror hlen
  have hmem := List.mem_of_getElem? hi
  obtain ⟨hreached, -⟩ := reached_of_reach (h.inv.reach c _ hmem)
  have hlt := (List.getElem?_eq_some_iff.1 hi).1
  have hi' : (st.set i (c, .settled))[i]? = some (c, .settled) := List.getElem?_set_self hlt
  obtain ⟨parent, hrecord⟩ := h.mirrors.record i c _ hi
  obtain rfl := Option.some.inj (hrecord.symm.trans hr)
  have hnot : ¬ Last s c := fun hlast => (show c.visit.q + 1 < _ from hq).ne hlast
  have hm := h.mirrors.settle hpop hi hr
  have hI := h.inv.settle hS hi (fun d hd => (h.mirrors.le_waiting hpop hi hd).1)
    (fun d hd => h.mirrors.le_settled hpop hi hd)
  rw [← payable_near] at hI
  have hb := h.bests.set (u := .settled) hi (by decide) (by decide)
  obtain ⟨parent', hr'⟩ := hm.record i c _ hi'
  have hturn : Select.turn s cost ⟨input, some run⟩ = _ := turn_settle hpop hr rfl hq
  rw [expand_near hr'] at hturn
  rcases arrivals_spec hs hmirror hlen hm hb hI hi' (by decide) hreached mem_candidates_near
    (fun d hd => room_near hs hmirror hlen (payable_near ▸ hd))
    with ⟨e, -, x, hx, -, hprice⟩ | ⟨run', st', hrun', hp, -⟩
  · rw [priceOf_near (PathAutomaton.via_near hx)] at hprice
    cases hprice
  rw [hrun'] at hturn
  have hI' := hI.offered hS hp.offered
  have hi'' : st'[i]? = some (c, .settled) := hp.offered.stays hi' (by decide)
  have hdone : ∀ d t, (d, t) ∈ st' → t = .settled ∨ t = .walked →
      (d, t) = (c, .settled) ∨ (d, t) ∈ st := fun d t hd ht =>
    BestFirst.mem_set_cases (hp.offered.mem_of_done hd ht)
  have hoffered := hp.offered
  rw [payable_near] at hoffered
  have hafter : After s cost base start all st' st :=
    after_of_turn hs hmirror hall hp.bests h.inv.reach hI'.reach (.settle hi hoffered)
  have hwalked : ∀ d, (d, .walked) ∈ st' → (d, .walked) ∈ st := fun d hd =>
    (hdone d _ hd (Or.inr rfl)).resolve_left fun heq => by cases (Prod.mk.inj heq).2
  have hended : ∀ d t, (d, t) ∈ st' → t = .settled ∨ t = .walked → Last s d →
      d.visit.node ∈ run'.ends := by
    intro d t hd ht hlast
    rw [hp.ends]
    rcases hdone d t hd ht with heq | hd
    · obtain ⟨rfl, -⟩ := Prod.mk.inj heq
      exact absurd hlast hnot
    · exact h.ended d t hd ht hlast
  cases hedge : crosses s c with
  | true =>
      -- its edge steps are left for later
      rw [hedge] at hturn
      exact ⟨_, st', _, vs, ⟨hp.mirrors.pushWalk hi'' rfl, hp.bests, hI',
        fun d hd => h.priced d (hwalked d hd), hp.ends ▸ h.ends, hended, hp.fixed ▸ h.fixed,
        hp.fixed ▸ h.unmet, h.given⟩, Prod.Lex.left _ _ (.single hafter), Comes.going hturn⟩
  | false =>
      -- it has none
      rw [hedge] at hturn
      have hfar := far_of_crosses hedge
      have hnone : (space s cost base start).far c = [] := by
        change payable s cost base start c (s.automaton.farCandidates s.graph c) = []
        rw [hfar]
        rfl
      have hI'' := hI'.walk hS hi''
      rw [hnone] at hI''
      have hlt' := (List.getElem?_eq_some_iff.1 hi'').1
      have hb' := hp.bests.set (u := .walked) hi'' (by decide) (by decide)
      have hafter' : After s cost base start all (st'.set i (c, .walked)) st' :=
        after_of_turn hs hmirror hall hb' hI'.reach hI''.reach
          (.walk hi'' (hnone ▸ BestFirst.Offered.nil _))
      refine ⟨run', _, _, vs, ⟨hp.mirrors.walked hi'', hb', hI'', ?_, hp.ends ▸ h.ends, ?_,
        hp.fixed ▸ h.fixed, hp.fixed ▸ h.unmet, h.given⟩,
        Prod.Lex.left _ _ (.tail (.single hafter') hafter), Comes.going hturn⟩
      · intro d hd
        rcases BestFirst.mem_set_cases hd with heq | hd
        · obtain ⟨rfl, -⟩ := Prod.mk.inj heq
          rintro e ⟨x, hx, -⟩
          rw [hfar] at hx
          cases hx
        · exact h.priced d (hwalked d hd)
      · intro d t hd ht hlast
        rcases BestFirst.mem_set_cases hd with heq | hd
        · obtain ⟨rfl, -⟩ := Prod.mk.inj heq
          exact absurd hlast hnot
        · exact hended d t hd ht hlast

/-- **A record at the last position is done once it is settled**: nothing leads on from it. -/
lemma Running.finishes {r : Record α}
    (h : Running s cost base start run st level vs) (hpop : run.frontier.pop = some ((i, false), f))
    (hi : st[i]? = some (c, .waiting)) (hr : run.records[i]? = some r) (hlast : Last s c) :
    Mirrors s cost base start { run with
        frontier := f
        records := run.records.set i { r with settled := true } }
      ((st.set i (c, .settled)).set i (c, .walked)) (rank s cost base c.visits) none
    ∧ Bests s base run.best ((st.set i (c, .settled)).set i (c, .walked))
    ∧ BestFirst.Inv (space s cost base start) ((st.set i (c, .settled)).set i (c, .walked))
      (rank s cost base c.visits) []
    ∧ (∀ d, (d, .walked) ∈ (st.set i (c, .settled)).set i (c, .walked) → ∀ e,
      ¬ Unpriced s cost base start d (s.automaton.farCandidates s.graph d) e)
    ∧ ∀ n m, Less s cost base start all ((st.set i (c, .settled)).set i (c, .walked), n) (st, m) := by
  have hS : (space s cost base start).Lawful := space_lawful hs hmirror hlen
  have hlt := (List.getElem?_eq_some_iff.1 hi).1
  have hi' : (st.set i (c, .settled))[i]? = some (c, .settled) := List.getElem?_set_self hlt
  obtain ⟨hnear, hfar⟩ : (space s cost base start).near c = [] ∧ s.automaton.farCandidates s.graph c = [] :=
    steps_last hlast
  have hnone : (space s cost base start).far c = [] := by
    change payable s cost base start c (s.automaton.farCandidates s.graph c) = []
    rw [hfar]
    rfl
  have hI := h.inv.settle hS hi (fun d hd => (h.mirrors.le_waiting hpop hi hd).1)
    (fun d hd => h.mirrors.le_settled hpop hi hd)
  rw [hnear] at hI
  have hI' := hI.walk hS hi'
  rw [hnone] at hI'
  have hb := h.bests.set (u := .settled) hi (by decide) (by decide)
  have hb' := hb.set (u := .walked) hi' (by decide) (by decide)
  have hafter : After s cost base start all (st.set i (c, .settled)) st :=
    after_of_turn hs hmirror hall hb h.inv.reach hI.reach (.settle hi (hnear ▸ BestFirst.Offered.nil _))
  have hafter' : After s cost base start all ((st.set i (c, .settled)).set i (c, .walked))
      (st.set i (c, .settled)) :=
    after_of_turn hs hmirror hall hb' hI.reach hI'.reach (.walk hi' (hnone ▸ BestFirst.Offered.nil _))
  refine ⟨{ (h.mirrors.settle hpop hi hr).walked hi' with }, hb', hI', fun d hd => ?_, fun n m =>
    Prod.Lex.left _ _ (.tail (.single hafter') hafter)⟩
  rcases mem_set_set hd with rfl | hd
  · rintro e ⟨x, hx, -⟩
    rw [hfar] at hx
    cases hx
  · exact h.priced d hd

/-- **A record at the last position is settled**, and is given if it is the first to end at its node. -/
lemma Running.lasts {r : Record α}
    (h : Running s cost base start run st level vs) (hpop : run.frontier.pop = some ((i, false), f))
    (hi : st[i]? = some (c, .waiting)) (hr : run.records[i]? = some r)
    (hq : ¬ r.state + 1 < s.automaton.states.length) :
    Comes s cost base start input run vs ∨ Advances s cost base start all input run st vs := by
  have hreach := h.inv.reach c _ (List.mem_of_getElem? hi)
  obtain ⟨hreached, -⟩ := reached_of_reach hreach
  obtain ⟨hqlt, -, -⟩ := PathAutomaton.reached_inside hs hmirror hreached
  have hi' : (st.set i (c, .settled))[i]? = some (c, .settled) :=
    List.getElem?_set_self (List.getElem?_eq_some_iff.1 hi).1
  obtain ⟨parent, hrecord⟩ := h.mirrors.record i c _ hi
  have hrec := Option.some.inj (hrecord.symm.trans hr)
  have hnode : r.node = c.visit.node := by
    rw [← hrec]
    rfl
  have hlast : Last s c := by
    rw [← hrec] at hq
    exact le_antisymm hqlt (not_lt.1 hq)
  obtain ⟨hm, hb, hI, hpriced, hless⟩ := h.finishes hs hmirror hlen hall hpop hi hr hlast
  have hturn : Select.turn s cost ⟨input, some run⟩ = _ :=
    turn_last hpop hr (by rw [← hrec]; rfl) hq
  by_cases hin : r.node ∈ run.ends
  · -- its node has been given
    rw [if_pos hin] at hturn
    refine Or.inr ⟨_, _, _, vs, ⟨hm, hb, hI, hpriced, h.ends, ?_, h.fixed, h.unmet, h.given⟩,
      hless _ _, Comes.going hturn⟩
    intro d t hd ht hlast'
    rcases mem_set_set hd with rfl | hd
    · exact hnode ▸ hin
    · exact h.ended d t hd ht hlast'
  · rw [if_neg hin] at hturn
    rw [hnode] at hin
    have hgiven : Given s cost base start (vs ++ [c]) :=
      h.given.snoc hreach hlast (fun v hv hsame => hin ((h.ends _).2 ⟨v, hv, hsame⟩))
        fun d hd hlast' hsame => h.least hs hmirror hlen hpop hi hin hd hlast' hsame
    have hsettled := h.mirrors.settle hpop hi hr
    obtain ⟨parent', hr'⟩ := hsettled.record i c _ hi'
    have hemit : Selection.emit s { run with
          frontier := f
          records := run.records.set i { r with settled := true }
          ends := r.node :: run.ends } i = s.automaton.result base start c.visits :=
      emit_eq hs hmirror hlen hreached hlast hr' rfl rfl hsettled.base_eq (hsettled.chains i c _ hi')
    rw [hemit] at hturn
    cases hfixed : run.fixed with
    | true =>
        -- an end that was bound in advance: this is its witness
        rw [hfixed, if_pos rfl] at hturn
        obtain ⟨hcomplete, hno⟩ := h.pinned hs hmirror hlen hpop hi hlast (h.fixed.symm.trans hfixed)
        exact Or.inl ⟨[c], Or.inl ⟨.gives hturn (.refl _), hgiven, hcomplete, hno⟩⟩
    | false =>
        rw [if_neg (by rw [hfixed]; exact Bool.false_ne_true)] at hturn
        refine Or.inr ⟨{ run with
            frontier := f
            records := run.records.set i { r with settled := true }
            ends := r.node :: run.ends }, _, _, vs ++ [c],
          ⟨{ hm with }, hb, hI, hpriced, fun n => ?_, ?_, h.fixed, ?_, hgiven⟩, hless _ _,
          Comes.gives hturn⟩
        · rw [List.mem_cons, hnode, h.ends]
          constructor
          · rintro (rfl | ⟨v, hv, hsame⟩)
            · exact ⟨c, by simp, rfl⟩
            · exact ⟨v, List.mem_append_left _ hv, hsame⟩
          · rintro ⟨v, hv, hsame⟩
            rcases List.mem_append.1 hv with hv | hv
            · exact Or.inr ⟨v, hv, hsame⟩
            · obtain rfl := List.mem_singleton.1 hv
              exact Or.inl hsame.symm
        · intro d t hd ht hlast'
          rcases mem_set_set hd with rfl | hd
          · rw [hnode]
            exact List.mem_cons_self
          · exact List.mem_cons_of_mem _ (h.ended d t hd ht hlast')
        · intro hf
          cases hf.symm.trans hfixed

/-- **One turn** of a running search. -/
lemma Running.turn
    (h : Running s cost base start run st level vs) :
    Comes s cost base start input run vs ∨ Advances s cost base start all input run st vs := by
  cases hpop : run.frontier.pop with
  | none => exact Or.inl (h.comes_none hs hmirror hlen hpop)
  | some x =>
      obtain ⟨⟨i, walk⟩, f⟩ := x
      have hmem : (i, walk) ∈ run.frontier.entries :=
        (Frontier.pop_some h.mirrors.keeps hpop).1.symm.subset List.mem_cons_self
      cases walk with
      | true =>
          obtain ⟨-, c, hi⟩ := h.mirrors.walks_in i hmem
          exact h.walks hs hmirror hlen hall hpop hi
      | false =>
          obtain ⟨c, t, hi, ht⟩ := h.mirrors.records_in i hmem
          obtain ⟨parent, hr⟩ := h.mirrors.record i c t hi
          rcases ht with rfl | rfl
          · by_cases hq : (recordOf s cost base c .waiting parent).state + 1 < s.automaton.states.length
            · exact Or.inr (h.settles hs hmirror hlen hall hpop hi hr hq)
            · exact h.lasts hs hmirror hlen hall hpop hi hr hq
          · exact Or.inr (h.passes hpop hi hr)

end Decreasing

/-- **A running search comes to its end**, or to an edge without a price. -/
theorem Running.comes
    (h : Running s cost base start run st level vs) : Comes s cost base start input run vs := by
  have hfinite : {key | ∃ c, s.automaton.Reached s.graph s.holds (s.automaton.view base) base start c
      ∧ keyOf s base c = key}.Finite := keys_finite hs hmirror hlen
  have hall : ∀ c, s.automaton.Reached s.graph s.holds (s.automaton.view base) base start c →
      keyOf s base c ∈ hfinite.toFinset := fun c hc => hfinite.mem_toFinset.2 ⟨c, hc, rfl⟩
  have hwf : WellFounded (Less s cost base start hfinite.toFinset) :=
    (wellFounded_after hfinite.toFinset).transGen.prod_lex wellFounded_lt
  generalize hx : (st, run.frontier.entries.length) = x
  induction x using hwf.induction generalizing run st level vs with
  | _ x ih =>
      subst hx
      have hturn : Comes s cost base start input run vs ∨ _ := h.turn hs hmirror hlen hall
      rcases hturn with hcomes | ⟨run', st', level', vs', h', hless, hback⟩
      · exact hcomes
      · exact hback (ih _ hless h' rfl)

end Turns

/-! ## The start -/

omit [DecidableEq α] in
lemma view_root : s.automaton.view base [⟨0, start, none⟩] = s.automaton.seen base [⟨0, start, none⟩] := by
  rw [PathAutomaton.view, PathAutomaton.seen]
  refine congrArg (written base) ?_
  rw [← List.nil_append [(⟨0, start, none⟩ : Visit)], PathAutomaton.scope_concat]
  simp [PathAutomaton.scope, PathAutomaton.single]

/-- A search that has yet to arrive at its start, its bindings written in. -/
def atStart (s : Setting α) (cost : Option (Pricing α)) (base : Row α) (start : EntityId) :
    Selection α where
  base := s.automaton.view base [⟨0, start, none⟩]
  scratch := s.automaton.view base [⟨0, start, none⟩]
  undo := []
  records := []
  best := []
  frontier := .empty cost.isSome
  ends := []
  fixed := pinned s base

lemma mirrors_atStart : Mirrors s cost base start (atStart s cost base start) [] (toLex (0, 0)) none := by
  have hentries : (Frontier.empty cost.isSome).entries = [] := by
    cases cost <;> rfl
  refine ⟨rfl, by simp, fun i r h => (by cases h), by simp, rfl, rfl, rfl, ?_, ?_, ?_, ?_, by simp,
    by simp, ?_⟩
  · cases cost with
    | none => exact ⟨rfl, by simp, by simp, by simp⟩
    | some p =>
        intro e he
        cases he
  · change (Frontier.empty cost.isSome).entries.Nodup
    rw [hentries]
    exact List.nodup_nil
  · intro i hi
    change (i, false) ∈ (Frontier.empty cost.isSome).entries at hi
    rw [hentries] at hi
    cases hi
  · intro i hi
    change (i, true) ∈ (Frontier.empty cost.isSome).entries at hi
    rw [hentries] at hi
    cases hi
  · intro hcost
    cases cost with
    | none => exact absurd rfl hcost
    | some p => rfl

omit [DecidableEq α] in
lemma total_root : total s cost base [⟨0, start, none⟩] = 0 := by
  rw [← List.nil_append [(⟨0, start, none⟩ : Visit)], total_concat, price_eq (priceOf_near rfl), add_zero]
  rfl

/-- **A search starts** from the configuration at its start, if that passes its tests. -/
lemma start_eq (hs : s.automaton.Sound width true) (hlen : base.length = width)
    (hnode : base.value s.origin = .element (.node start)) :
    (s.automaton.Passes s.holds (s.automaton.view base) base start [] ⟨0, start, none⟩ →
        Select.start s cost base = .ok (some ((atStart s cost base start).keep s
          (recordOf s cost base ⟨[], ⟨0, start, none⟩, 0⟩ .waiting none))))
      ∧ (¬ s.automaton.Passes s.holds (s.automaton.view base) base start [] ⟨0, start, none⟩ →
        Select.start s cost base
          = .ok (some { atStart s cost base start with base := base, scratch := base })) := by
  have hseen : (⟨base, [], []⟩ : Scratch α).row = s.automaton.seen base [] := rfl
  obtain ⟨hiff, hadmitted⟩ := admitted_iff s.holds ⟨0, start, none⟩ hs hlen hseen (by simp [Agree])
  have hallows : s.automaton.mode.Allows start [⟨0, start, none⟩] := by
    cases s.automaton.mode <;> simp [PathMode.Allows, edges, arrived]
  have hpasses : (admitted s.automaton s.holds ⟨base, [], []⟩ 0 start (Visit.crossed ⟨0, start, none⟩)).1
      = true ↔ s.automaton.Passes s.holds (s.automaton.view base) base start [] ⟨0, start, none⟩ := by
    rw [hiff]
    constructor
    · rintro ⟨h1, h2, h3⟩
      refine ⟨h1, hallows, h2, fun p hp => ?_⟩
      rw [List.nil_append, view_root]
      exact h3 p hp
    · rintro ⟨h1, -, h2, h3⟩
      refine ⟨h1, h2, fun p hp => ?_⟩
      have := h3 p hp
      rwa [List.nil_append, view_root] at this
  have hback := (restore_extends (restore_admitted s.automaton s.holds ⟨base, [], []⟩
    ⟨0, start, none⟩)).1
  have htested : ∀ (admits : Bool) (row : Row α), Selection.tested cost admits row none 0
      = .ok (if admits = true then some 0 else none) := by
    intro admits row
    cases admits <;> cases cost <;> rfl
  have hstart : Select.start s cost base
      = (Selection.arrive s cost { atStart s cost base start with base := base, scratch := base }
        none ⟨0, start, none⟩ 0).bind fun run => .ok (some run) := by
    rw [Select.start, nodeIn, hnode]
    rfl
  rw [hstart, Selection.arrive]
  simp only [Option.bind_none, Option.any_none, Bool.false_eq_true, if_false, Option.elim_none,
    Option.isNone_none, true_and, atStart]
  constructor
  · intro hp
    have hyes := hpasses.2 hp
    obtain ⟨hrow, -⟩ := hadmitted hyes
    rw [List.nil_append, ← view_root] at hrow
    rw [hrow, htested, hyes, if_pos rfl, if_pos rfl]
    have hrecord : (recordOf s cost base ⟨[], ⟨0, start, none⟩, 0⟩ .waiting none : Record α)
        = { node := start
            state := 0
            k := 0
            parent := none
            via := none
            binds := s.automaton.keyValues (s.automaton.view base [⟨0, start, none⟩]) 0
            cost := 0
            hops := 0
            settled := false
            superseded := false } := by
      rw [recordOf, Config.visits, List.nil_append, total_root]
      rfl
    rw [hrecord]
    rfl
  · intro hp
    have hno := hpasses.not.2 hp
    rw [Bool.not_eq_true] at hno
    rw [htested, hno, if_neg Bool.false_ne_true, if_neg Bool.false_ne_true]
    simp only [List.length_nil] at hback
    rw [hback]
    rfl

/-- **The search from one row** comes to its end, or to an edge without a price. -/
lemma comes_row (hs : s.automaton.Sound width true)
    (hmirror : s.graph.reverse.keys = s.graph.primary.keys) (hlen : base.length = width)
    (hnode : base.value s.origin = .element (.node start)) :
    ∃ run, Select.start s cost base = .ok (some run) ∧ Comes s cost base start input run [] := by
  have hS : (space s cost base start).Lawful := space_lawful hs hmirror hlen
  obtain ⟨hpass, hfail⟩ : (s.automaton.Passes s.holds (s.automaton.view base) base start []
      ⟨0, start, none⟩ → Select.start s cost base = _) ∧ _ := start_eq hs hlen hnode
  have hgiven : Given s cost base start [] := ⟨by simp, by simp, by simp⟩
  by_cases hp : s.automaton.Passes s.holds (s.automaton.view base) base start [] ⟨0, start, none⟩
  · refine ⟨_, hpass hp, ?_⟩
    have hroots : (space s cost base start).roots = [⟨[], ⟨0, start, none⟩, 0⟩] := by
      simp [space, PathAutomaton.roots, PathAutomaton.passing, hp]
    have hrank : rank s cost base (Config.visits ⟨[], ⟨0, start, none⟩, 0⟩) = toLex (0, 0) := by
      rw [Config.visits, List.nil_append, rank, total_root]
      rfl
    have hI : BestFirst.Inv (space s cost base start) [] (toLex (0, 0))
        [⟨[], ⟨0, start, none⟩, 0⟩] := by
      refine ⟨by simp, fun d hd => ?_, fun r hr => Or.inr (hroots ▸ hr), by simp, by simp, by simp, by simp,
        by simp⟩
      obtain rfl := List.mem_singleton.1 hd
      exact ⟨.root (by rw [hroots]; exact hd), hrank.ge⟩
    have hfrom : From [] none (⟨[], ⟨0, start, none⟩, 0⟩ : Config) := ⟨by simp, fun _ => rfl⟩
    obtain ⟨st, hm, hb, hoffer, -, hends, hfixed⟩ := keep_spec mirrors_atStart
      (fun _ key i => by simp [atStart]) hI hfrom (hrank ▸ Frontier.room_self _ _)
    have hdone : ∀ c t, (c, t) ∈ st → t = .settled ∨ t = .walked → False := fun c t hc ht => by
      cases (BestFirst.Offered.cons hoffer (.nil st)).mem_of_done hc ht
    have hrun : Running s cost base start ((atStart s cost base start).keep s
        (recordOf s cost base ⟨[], ⟨0, start, none⟩, 0⟩ .waiting none)) st (toLex (0, 0)) [] := by
      refine ⟨hm, hb, hI.offer hS hoffer, ?_, ?_, ?_, hfixed, fun _ => rfl, hgiven⟩
      · intro c hc
        exact (hdone c _ hc (Or.inr rfl)).elim
      · intro n
        rw [hends]
        simp [atStart]
      · intro c t hc ht
        exact (hdone c t hc ht).elim
    exact hrun.comes hs hmirror hlen
  · -- the start fails its tests, and so there is no match
    have hnone : ∀ c, ¬ s.automaton.Reached s.graph s.holds (s.automaton.view base) base start c := by
      rintro c ⟨r, hr, -⟩
      rw [PathAutomaton.roots, PathAutomaton.mem_passing, List.mem_singleton] at hr
      obtain ⟨-, heq, hpr⟩ := hr
      obtain ⟨hv, -⟩ := Prod.mk.inj heq
      exact hp (hv ▸ hpr)
    refine ⟨_, hfail hp, [], Or.inl ⟨Gives.once (turn_none ?_), by simpa using hgiven, ?_, ?_⟩⟩
    · change (Frontier.empty cost.isSome).pop = none
      cases cost <;> rfl
    · intro visits hmatch
      obtain ⟨c, hc, -, -⟩ := (PathAutomaton.matches_iff hs hmirror).1 hmatch
      exact (hnone c hc).elim
    · rintro e ⟨c, hc, -⟩
      exact hnone c hc

end Loop

/-! ## The operator -/

section Operator

variable {s : Setting α} {cost : Option (Pricing α)} {width : ℕ} {rows : List (Row α)}

/-- What the operator gives for all of its rows. -/
lemma drains (hs : s.automaton.Sound width true)
    (hmirror : s.graph.reverse.keys = s.graph.primary.keys) (hrows : ∀ row ∈ rows, row.length = width) :
    ∃ fuel out err, drain (Select.turn s cost) fuel ⟨rows, none⟩ = some (out, err)
      ∧ Outcome s cost rows out err := by
  induction rows with
  | nil => exact ⟨1, [], none, rfl, .nil⟩
  | cons row rows ih =>
      obtain ⟨fuel, out, err, hdrain, hout⟩ := ih fun r hr => hrows r (List.mem_cons_of_mem row hr)
      cases hstart : started s row with
      | false =>
          refine ⟨1, [], startError s (row :: rows), ?_, .refused hstart⟩
          have hturn : Select.turn s cost ⟨row :: rows, none⟩ = .error (.invalid
              ("a path pattern's start must be a node, not " ++ s.debug (row.value s.origin))) := by
            simp only [Select.turn, Select.start, nodeIn_refuses hstart]
            rfl
          rw [drain, hturn]
          rfl
      | true =>
          rcases started_iff.1 hstart with hnull | ⟨start, hnode⟩
          · have hturn : Select.turn s cost ⟨row :: rows, none⟩ = .ok (.going ⟨rows, none⟩) := by
              simp [Select.turn, Select.start, nodeIn, hnull, pure, Except.pure]
            obtain ⟨fuel', hfuel⟩ := Search.drain_of_gives (Gives.once hturn) hdrain
            exact ⟨fuel', _, _, hfuel, .null hnull hout⟩
          · obtain ⟨run, hrun, more, hcomes⟩ : ∃ run, Select.start s cost row = .ok (some run)
                ∧ Comes s cost row start rows run [] :=
              comes_row hs hmirror (hrows row List.mem_cons_self) hnode
            have hturn : Select.turn s cost ⟨row :: rows, none⟩ = .ok (.going ⟨rows, some run⟩) := by
              simp only [Select.turn, hrun]
              rfl
            have hmap : ∀ l : List Config, l.map (fun v => s.automaton.result row start v.visits)
                = (l.map Config.visits).map (s.automaton.result row start) := fun l => by
              rw [List.map_map]
              rfl
            rcases hcomes with ⟨hg, hgiven, hcomplete, hspoils⟩ | ⟨op, e, hg, herr, hgiven, hspoils⟩
            · rw [List.nil_append] at hgiven hcomplete
              rw [hmap] at hg
              obtain ⟨fuel', hfuel⟩ := Search.drain_of_gives (.going hturn hg) hdrain
              exact ⟨fuel', _, _, hfuel, .found hnode (hgiven.cheapest hs hmirror) hcomplete hspoils hout⟩
            · rw [List.nil_append] at hgiven
              rw [hmap] at hg
              have hstop : drain (Select.turn s cost) 1 op = some ([], some e) := by
                rw [drain, herr]
              obtain ⟨fuel', hfuel⟩ := Search.drain_of_gives (.going hturn hg) hstop
              rw [List.append_nil] at hfuel
              exact ⟨fuel', _, _, hfuel, .spoiled hnode (hgiven.cheapest hs hmirror) hspoils⟩

/-- The walks of any number of outgoing edges, these in slot 1 and the path in slot 2. -/
def anyWalk : PathAutomaton where
  states := [⟨none, none, none⟩, ⟨none, none, none⟩, ⟨none, none, none⟩, ⟨none, none, none⟩]
  links := [.same, .edge ⟨1, none, .outgoing, none, some 1⟩, .same]
  repeats := [⟨1, 2, 0, none⟩]
  mode := .walk
  path := some 2
  groups := [1]

/-- The walks from the node in slot 0. -/
def walks : Setting Unit := { trails with automaton := anyWalk }

/-- Every edge costs one half. -/
def half : Pricing Unit where
  cost := fun _ => .other ()
  number := fun _ => some (1 / 2)
  debug := fun _ => ""
  debugEdge := fun _ => ""

/-- **One shortest match for each node that a match ends at.** -/
structure Shortest (s : Setting α) (row : Row α) (start : EntityId) (vs : List (List Visit)) : Prop where
  isMatch : ∀ visits ∈ vs, s.automaton.Match s.graph s.holds (s.automaton.view row) row start visits
  once : (vs.map endOf).Nodup
  least : ∀ visits ∈ vs, ∀ other,
    s.automaton.Match s.graph s.holds (s.automaton.view row) row start other →
      endOf other = endOf visits → (edges visits).length ≤ (edges other).length
  complete : Complete s row start vs

/-- The rows for one row: none where its start is null. -/
def Witnesses (s : Setting α) (row : Row α) (out : List (Row α)) : Prop :=
  (row.value s.origin = .null ∧ out = [])
    ∨ ∃ start vs, row.value s.origin = .element (.node start) ∧ Shortest s row start vs
      ∧ out = vs.map (s.automaton.result row start)

omit [DecidableEq α] in
lemma total_none (row : Row α) (visits : List Visit) : total s none row visits = 0 := by
  induction visits using List.reverseRecOn with
  | nil => rfl
  | append_singleton visits v ih =>
      rw [total_concat, ih, price_eq (q := 0) rfl, add_zero]

omit [DecidableEq α] in
lemma shortest_of_cheapest {row : Row α} {start : EntityId} {vs : List (List Visit)}
    (h : Cheapest s none row start vs) (hcomplete : Complete s row start vs) :
    Shortest s row start vs := by
  refine ⟨fun visits hv => (h.priced visits hv).isMatch, h.once, fun visits hv other ho heq => ?_, hcomplete⟩
  have hle := h.least visits hv other ⟨ho, fun _ _ _ => ⟨0, rfl⟩⟩ heq
  rw [rank, rank, total_none, total_none, Prod.Lex.toLex_le_toLex] at hle
  exact hle.elim (fun hlt => absurd hlt (lt_irrefl _)) And.right

lemma witnesses_of_outcome {out : List (Row α)} {err : Option Error} (h : Outcome s none rows out err) :
    ∃ outs, List.Forall₂ (Witnesses s) (rows.takeWhile (started s)) outs ∧ out = outs.flatten
      ∧ err = startError s (rows.dropWhile (started s)) := by
  induction h with
  | nil => exact ⟨[], .nil, rfl, rfl⟩
  | refused hstart =>
      refine ⟨[], ?_, rfl, ?_⟩
      · rw [List.takeWhile_cons_of_neg (by simp [hstart])]
        exact .nil
      · rw [List.dropWhile_cons_of_neg (by simp [hstart])]
  | null hnull _ ih =>
      obtain ⟨outs, hall, hout, herr⟩ := ih
      have hstart := started_iff.2 (Or.inl hnull)
      refine ⟨[] :: outs, ?_, hout, ?_⟩
      · rw [List.takeWhile_cons_of_pos hstart]
        exact .cons (Or.inl ⟨hnull, rfl⟩) hall
      · rw [List.dropWhile_cons_of_pos hstart, herr]
  | found hnode hcheapest hcomplete _ _ ih =>
      obtain ⟨outs, hall, hout, herr⟩ := ih
      have hstart := started_iff.2 (Or.inr ⟨_, hnode⟩)
      refine ⟨_ :: outs, ?_, by rw [hout, List.flatten_cons], ?_⟩
      · rw [List.takeWhile_cons_of_pos hstart]
        exact .cons (Or.inr ⟨_, _, hnode, shortest_of_cheapest hcheapest hcomplete, rfl⟩) hall
      · rw [List.dropWhile_cons_of_pos hstart, herr]
  | spoiled _ _ hspoils =>
      -- without a cost every edge has a price
      obtain ⟨c, -, -, ⟨x, -, -, hprice⟩, -⟩ := hspoils
      cases hprice

end Operator

end Engine.Gql
