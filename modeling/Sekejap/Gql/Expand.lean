import Sekejap.Gql.Mirrors

/-!
# Expanding a record

A settled record's moves on its node are made at once, its edge steps later.  Both are arrivals at the
visits that its configuration may go on to, one after another, in refills or not.

* **`expand_near`**, **`expand_far`** — an expansion is arrivals at the candidates.
* **`arrivals_spec`** — these pay what the search owes, unless one passes its tests and has no price.
-/

open Collections (EntityId)

open Engine.Graph (EdgeId Keyspaces ascending)

open BestFirst (Status Found Offer Offered)

namespace Engine.Gql

variable {α : Type} [DecidableEq α]

/-! ## Arrivals -/

section Arrivals

/-- The arrivals at visits from a record, one after another. -/
def arrivals (s : Setting α) (cost : Option (Pricing α)) (p : ℕ) (l : List (Visit × ℕ))
    (run : Selection α) : Except Error (Selection α) :=
  l.foldlM (fun run x => run.arrive s cost (some p) x.1 x.2) run

variable {s : Setting α} {cost : Option (Pricing α)} {width : ℕ} {base : Row α} {start : EntityId}
  {run run' : Selection α} {st st' : Found Config} {level : ℚ ×ₗ ℕ} {hole : Option ℕ} {c d : Config}
  {t : Status} {p i k : ℕ} {l m : List (Visit × ℕ)}

lemma foldlM_flatMap {β γ σ ε : Type} (f : β → List γ) (g : σ → γ → Except ε σ) (l : List β) (b : σ) :
    (l.flatMap f).foldlM g b = l.foldlM (fun b a => (f a).foldlM g b) b := by
  induction l generalizing b with
  | nil => rfl
  | cons a l ih =>
      rw [List.flatMap_cons, List.foldlM_append, List.foldlM_cons]
      exact congrArg _ (funext ih)

lemma remaining_none {β : Type} [LinearOrder β] (S : Finset β) : remaining S none = ascending S := by
  refine List.filter_eq_self.2 fun b _ => ?_
  simp [Scan.Past]

/-- **A range is walked in refills.** -/
lemma walkRange_eq {node : EntityId} {link : ℕ} {step : EdgeStep} {range : Range} {fuel : ℕ}
    {paused : Option EdgeId}
    (h : (remaining (adjacency s.graph node step.context range) paused).length < fuel) :
    Selection.walkRange s cost p node link k step range fuel paused run
      = ((remaining (adjacency s.graph node step.context range) paused).filter
          (handsOut step.direction range (s.automaton.labelsAdmit (link + 1)))).foldlM
        (fun run e => run.arrive s cost (some p)
          ⟨link + 1, e.key.destination, some (e.toward range.1, decide (range.1 = .out))⟩ k) run := by
  induction fuel generalizing paused run with
  | zero => omega
  | succ fuel ih =>
      rw [Selection.walkRange, refill, take_eq_remaining]
      simp only [List.foldlM_map]
      set left := remaining (adjacency s.graph node step.context range) paused with hleft
      split_ifs with hshort
      · -- the range's end
        have hall : left.take refillPostings = left := by
          refine List.take_of_length_le ?_
          rw [List.length_take] at hshort
          omega
        rw [hall]
        exact bind_pure _
      · have hlong : refillPostings ≤ left.length := by
          rw [List.length_take] at hshort
          omega
        have hpos : 0 < refillPostings := by decide
        obtain ⟨b, hb⟩ : ∃ b, (left.take refillPostings).getLast? = some b := by
          rw [← Option.isSome_iff_exists, List.getLast?_isSome, ne_eq, List.take_eq_nil_iff]
          rintro (h0 | hnil)
          · omega
          · rw [hnil, List.length_nil] at hlong
            omega
        have hrest := remaining_paused (hleft ▸ hb)
        rw [← hleft] at hrest
        rw [hb]
        conv_rhs => rw [← List.take_append_drop refillPostings left, List.filter_append,
          List.foldlM_append]
        refine congrArg _ (funext fun run' => ?_)
        rw [← hrest]
        refine ih ?_
        rw [hrest, List.length_drop]
        omega

/-- **An edge step is walked range by range.** -/
lemma walk_eq {node : EntityId} {link : ℕ} :
    run.walk s cost p node link k
      = arrivals s cost p (s.automaton.farVisits s.graph node k (.edge link)) run := by
  rw [Selection.walk, arrivals, PathAutomaton.farVisits, PathAutomaton.moveVisits, List.foldlM_map,
    PathAutomaton.crossings]
  cases hstep : s.automaton.edgeStep link with
  | none => rfl
  | some step =>
      simp only
      rw [foldlM_flatMap, PathAutomaton.linkRanges, hstep]
      refine congrArg (fun f => List.foldlM f run (ranges step.direction step.types))
        (funext fun run => funext fun range => ?_)
      rw [walkRange_eq, remaining_none, rangeCrossings, List.foldlM_map]
      rw [remaining_none]
      exact Nat.lt_succ_of_le (Scan.length_take_le _ _ _)

/-- An edge step leads on from a configuration. -/
def crosses (s : Setting α) (c : Config) : Bool :=
  (moves s.automaton c.visit.q c.k).any fun m => match m with
    | .same _ _ => false
    | .edge _ => true

/-- **The moves on a node.** -/
lemma expand_near {parent : Option ℕ} (hr : run.records[i]? = some (recordOf s cost base c t parent)) :
    run.expand s cost i false
      = (arrivals s cost i (s.automaton.nearCandidates s.graph c) run).map fun run =>
        if crosses s c then
          { run with
            frontier := run.frontier.pushWalk i (total s cost base c.visits) (edges c.visits).length }
        else run := by
  have hfold : ∀ run : Selection α, (moves s.automaton c.visit.q c.k).foldlM (fun run m => match m with
        | .same q k => run.arrive s cost (some i) ⟨q, c.visit.node, none⟩ k
        | .edge _ => .ok run) run
      = arrivals s cost i (s.automaton.nearCandidates s.graph c) run := by
    intro run
    rw [arrivals, PathAutomaton.nearCandidates, foldlM_flatMap]
    refine congrArg (fun f => List.foldlM f run (moves s.automaton c.visit.q c.k))
      (funext fun run => funext fun m => ?_)
    cases m with
    | same q k =>
        simp only [PathAutomaton.nearVisits, PathAutomaton.moveVisits, List.foldlM_cons, List.foldlM_nil]
        exact (bind_pure _).symm
    | edge l => rfl
  have hbind : run.expand s cost i false
      = (arrivals s cost i (s.automaton.nearCandidates s.graph c) run).bind fun run =>
        if crosses s c then
          .ok { run with
            frontier := run.frontier.pushWalk i (total s cost base c.visits) (edges c.visits).length }
        else .ok run := by
    rw [Selection.expand, hr, ← hfold]
    simp only [Bool.false_eq_true, if_false, Bool.not_false, Bool.true_and]
    rfl
  rw [hbind]
  cases arrivals s cost i (s.automaton.nearCandidates s.graph c) run with
  | error e => rfl
  | ok run' =>
      simp only [Except.bind, Except.map]
      split_ifs <;> rfl

/-- **The edge steps.** -/
lemma expand_far {parent : Option ℕ} (hr : run.records[i]? = some (recordOf s cost base c t parent)) :
    run.expand s cost i true = arrivals s cost i (s.automaton.farCandidates s.graph c) run := by
  have hfold : (moves s.automaton c.visit.q c.k).foldlM (fun run m => match m with
        | .same _ _ => .ok run
        | .edge link => run.walk s cost i c.visit.node link c.k) run
      = arrivals s cost i (s.automaton.farCandidates s.graph c) run := by
    rw [arrivals, PathAutomaton.farCandidates, foldlM_flatMap]
    refine congrArg (fun f => List.foldlM f run (moves s.automaton c.visit.q c.k))
      (funext fun run => funext fun m => ?_)
    cases m with
    | same q k => rfl
    | edge l => exact walk_eq
  rw [Selection.expand, hr]
  simp only [if_true, Bool.not_true, Bool.false_and, Bool.false_eq_true, if_false]
  rw [← hfold]
  exact bind_pure _

/-! ## What arrivals pay -/

open Classical in
/-- The visits that pass their tests and have a price. -/
noncomputable def payable (s : Setting α) (cost : Option (Pricing α)) (base : Row α) (start : EntityId)
    (c : Config) (l : List (Visit × ℕ)) : List Config :=
  (s.automaton.passing s.holds (s.automaton.view base) base start c.visits l).filter fun d =>
    decide (Priced s cost base c.visits d.visit)

omit [DecidableEq α] in
lemma payable_near : payable s cost base start c (s.automaton.nearCandidates s.graph c)
    = (space s cost base start).near c := by
  refine List.filter_eq_self.2 fun d hd => ?_
  obtain ⟨-, hmem, -⟩ := PathAutomaton.mem_passing.1 hd
  simpa using ⟨0, priceOf_near (PathAutomaton.via_near hmem)⟩

omit [DecidableEq α] in
lemma payable_cons {x : Visit × ℕ} : payable s cost base start c (x :: l)
    = payable s cost base start c [x] ++ payable s cost base start c l := by
  rw [payable, payable, payable, ← List.filter_append, ← PathAutomaton.passing_append]
  rfl

omit [DecidableEq α] in
lemma payable_one {x : Visit × ℕ}
    (hp : s.automaton.Passes s.holds (s.automaton.view base) base start c.visits x.1)
    (hq : Priced s cost base c.visits x.1) :
    payable s cost base start c [x] = [⟨c.visits, x.1, x.2⟩] := by
  rw [payable, PathAutomaton.passing, List.filter_cons_of_pos (by simpa using hp), List.filter_nil,
    List.map_singleton, List.filter_cons_of_pos (by simpa using hq), List.filter_nil]

omit [DecidableEq α] in
lemma payable_none {x : Visit × ℕ}
    (hp : ¬ s.automaton.Passes s.holds (s.automaton.view base) base start c.visits x.1) :
    payable s cost base start c [x] = [] := by
  rw [payable, PathAutomaton.passing, List.filter_cons_of_neg (by simpa using hp)]
  rfl

/-- A visit passes its tests, and an error says that it has no price. -/
def Unpriced (s : Setting α) (cost : Option (Pricing α)) (base : Row α) (start : EntityId) (c : Config)
    (l : List (Visit × ℕ)) (e : Error) : Prop :=
  ∃ x ∈ l, s.automaton.Passes s.holds (s.automaton.view base) base start c.visits x.1
    ∧ priceOf s cost base c.visits x.1 = .error e

/-- What arrivals leave. -/
structure Paid (s : Setting α) (cost : Option (Pricing α)) (base : Row α) (start : EntityId)
    (level : ℚ ×ₗ ℕ) (hole : Option ℕ) (owed : List Config) (run : Selection α) (st : Found Config)
    (run' : Selection α) (st' : Found Config) : Prop where
  mirrors : Mirrors s cost base start run' st' level hole
  bests : Bests s base run'.best st'
  offered : Offered (space s cost base start) (s.automaton.mode = .walk) st owed st'
  ends : run'.ends = run.ends
  fixed : run'.fixed = run.fixed

/-- **Arrivals pay what is owed**, or one has no price. -/
lemma arrivals_spec (hs : s.automaton.Sound width true)
    (hmirror : s.graph.reverse.keys = s.graph.primary.keys) (hlen : base.length = width)
    (hm : Mirrors s cost base start run st level hole) (hb : Bests s base run.best st)
    (hI : BestFirst.Inv (space s cost base start) st level (payable s cost base start c l))
    (hp : st[p]? = some (c, t)) (ht : t ≠ .waiting)
    (hreach : s.automaton.Reached s.graph s.holds (s.automaton.view base) base start c)
    (hl : ∀ x ∈ l, x ∈ s.automaton.candidates s.graph c)
    (hroom : ∀ d ∈ payable s cost base start c l, run.frontier.Room level (rank s cost base d.visits)) :
    (∃ e, arrivals s cost p l run = .error e ∧ Unpriced s cost base start c l e)
      ∨ (∃ run' st', arrivals s cost p l run = .ok run'
        ∧ Paid s cost base start level hole (payable s cost base start c l) run st run' st'
        ∧ ∀ e, ¬ Unpriced s cost base start c l e) := by
  induction l generalizing run st with
  | nil => exact Or.inr ⟨run, st, rfl, ⟨hm, hb, .nil st, rfl, rfl⟩, by simp [Unpriced]⟩
  | cons x l ih =>
      obtain ⟨hfail, hpass⟩ := arrive_eq hs hmirror hlen hm hp hreach (hl x List.mem_cons_self)
      rw [arrivals, List.foldlM_cons]
      rw [payable_cons] at hI hroom ⊢
      have hl' : ∀ y ∈ l, y ∈ s.automaton.candidates s.graph c := fun y hy =>
        hl y (List.mem_cons_of_mem x hy)
      by_cases hx : s.automaton.Passes s.holds (s.automaton.view base) base start c.visits x.1
      swap
      · -- the visit fails
        rw [payable_none hx, List.nil_append] at hI hroom ⊢
        rw [hfail hx]
        refine (ih hm hb hI hp hl' hroom).imp ?_ ?_
        · rintro ⟨e, he, y, hy, hrest⟩
          exact ⟨e, he, y, List.mem_cons_of_mem x hy, hrest⟩
        · rintro ⟨run', st', hrun, hpaid, hno⟩
          refine ⟨run', st', hrun, hpaid, ?_⟩
          rintro e ⟨y, hy, hpy, hprice⟩
          rcases List.mem_cons.1 hy with rfl | hy
          · exact hx hpy
          · exact hno e ⟨y, hy, hpy, hprice⟩
      · rw [hpass hx]
        cases hprice : priceOf s cost base c.visits x.1 with
        | error e => exact Or.inl ⟨e, rfl, x, List.mem_cons_self, hx, hprice⟩
        | ok q =>
            rw [payable_one hx ⟨q, hprice⟩, List.singleton_append] at hI hroom ⊢
            have hfrom : From st (some p) ⟨c.visits, x.1, x.2⟩ := by
              refine ⟨?_, fun h => by cases h⟩
              rintro p' hp'
              obtain rfl := Option.some.inj hp'
              exact ⟨c, t, hp, rfl⟩
            obtain ⟨st', hm', hb', hoffer, hroom', hends, hfixed⟩ :=
              keep_spec hm hb hI hfrom (hroom _ List.mem_cons_self)
            have hS : (space s cost base start).Lawful := space_lawful hs hmirror hlen
            refine (ih hm' hb' (hI.offer hS hoffer) (hoffer.stays hp ht) hl' fun d hd =>
              (hroom' _).2 (hroom d (List.mem_cons_of_mem _ hd))).imp ?_ ?_
            · rintro ⟨e, he, y, hy, hrest⟩
              exact ⟨e, he, y, List.mem_cons_of_mem x hy, hrest⟩
            · rintro ⟨run', st'', hrun, hpaid, hno⟩
              refine ⟨run', st'', hrun, ⟨hpaid.mirrors, hpaid.bests, .cons hoffer hpaid.offered,
                hpaid.ends.trans hends, hpaid.fixed.trans hfixed⟩, ?_⟩
              rintro e ⟨y, hy, hpy, hpricey⟩
              rcases List.mem_cons.1 hy with rfl | hy
              · rw [hprice] at hpricey
                cases hpricey
              · exact hno e ⟨y, hy, hpy, hpricey⟩

end Arrivals

end Engine.Gql
