import Sekejap.Gql.Select
import Sekejap.Lib.BestFirst

/-!
# Product states

What a selector search goes through, as a space to be searched best first: the configurations that are
reached, at the cost of their paths and, among equal ones, at the number of their edges.  A step on a node
costs nothing, one across an edge what the pattern's cost says.  Under `WALK` two configurations with one
product state have the same futures; in the other modes every configuration is its own.

* **`passes_of_key`** — a product state has one future.
* **`space_lawful`** — so that a best-first search covers what can be reached.
-/

open Collections (EntityId)

open Engine.Graph (EdgeId Keyspaces)

namespace Engine.Gql

variable {α : Type}

/-! ## The space of a search -/

namespace PathAutomaton

variable (a : PathAutomaton)

/-- The visits on the same node. -/
def nearVisits (g : Keyspaces) (near : EntityId) (k : ℕ) : Move → List (Visit × ℕ)
  | .same q k' => a.moveVisits g near k (.same q k')
  | .edge _ => []

/-- The visits across an edge. -/
def farVisits (g : Keyspaces) (near : EntityId) (k : ℕ) : Move → List (Visit × ℕ)
  | .same _ _ => []
  | .edge l => a.moveVisits g near k (.edge l)

def nearCandidates (g : Keyspaces) (c : Config) : List (Visit × ℕ) :=
  (moves a c.visit.q c.k).flatMap (a.nearVisits g c.visit.node c.k)

def farCandidates (g : Keyspaces) (c : Config) : List (Visit × ℕ) :=
  (moves a c.visit.q c.k).flatMap (a.farVisits g c.visit.node c.k)

variable {a} {g : Keyspaces} {c d : Config} {v : Visit} {k : ℕ}

/-- The moves out of a position are all on its node, or one across an edge. -/
lemma candidates_eq : a.candidates g c = a.nearCandidates g c ++ a.farCandidates g c := by
  have hmoves : (∀ m ∈ moves a c.visit.q c.k, ∃ q k, m = .same q k)
      ∨ ∃ l, moves a c.visit.q c.k = [.edge l] := by
    rw [moves]
    split
    · simp
    · split
      · left
        intro m hm
        simp only [List.mem_append, List.mem_ite_nil_right, List.mem_singleton] at hm
        rcases hm with ⟨-, rfl⟩ | ⟨-, rfl⟩
        · exact ⟨_, _, rfl⟩
        · exact ⟨_, _, rfl⟩
      · split
        · left
          intro m hm
          simp only [List.mem_append, List.mem_ite_nil_right, List.mem_singleton] at hm
          rcases hm with ⟨-, rfl⟩ | ⟨-, rfl⟩
          · exact ⟨_, _, rfl⟩
          · exact ⟨_, _, rfl⟩
        · cases a.link c.visit.q with
          | same => exact Or.inl (by simp)
          | edge step => exact Or.inr ⟨_, rfl⟩
  rw [candidates, nearCandidates, farCandidates]
  rcases hmoves with hall | ⟨l, hl⟩
  · have hfar : (moves a c.visit.q c.k).flatMap (a.farVisits g c.visit.node c.k) = [] := by
      rw [List.flatMap_eq_nil_iff]
      intro m hm
      obtain ⟨q, k, rfl⟩ := hall m hm
      rfl
    rw [hfar, List.append_nil]
    refine List.flatMap_congr fun m hm => ?_
    obtain ⟨q, k, rfl⟩ := hall m hm
    rfl
  · simp [hl, nearVisits, farVisits]

lemma via_near (h : (v, k) ∈ a.nearCandidates g c) : v.via = none := by
  rw [nearCandidates, List.mem_flatMap] at h
  obtain ⟨m, -, hm⟩ := h
  cases m with
  | same q k' =>
      simp only [nearVisits, moveVisits, List.mem_singleton, Prod.mk.injEq] at hm
      rw [hm.1]
  | edge l => cases hm

lemma via_far (h : (v, k) ∈ a.farCandidates g c) : ∃ x, v.via = some x := by
  rw [farCandidates, List.mem_flatMap] at h
  obtain ⟨m, -, hm⟩ := h
  cases m with
  | same q k' => cases hm
  | edge l =>
      simp only [farVisits, moveVisits, List.mem_map, Prod.mk.injEq] at hm
      obtain ⟨x, -, rfl, -⟩ := hm
      exact ⟨_, rfl⟩

end PathAutomaton

/-! ## What a path costs -/

section Cost

variable (s : Setting α) (cost : Option (Pricing α)) (base : Row α)

/-- What a visit costs after others. -/
def priceOf (before : List Visit) (v : Visit) : Except Error ℚ :=
  match cost, v.via with
  | some p, some (e, _) => p.edgeCost (p.cost (s.automaton.view base (before ++ [v]))) e
  | _, _ => .ok 0

/-- It has a price. -/
def Priced (before : List Visit) (v : Visit) : Prop := ∃ q, priceOf s cost base before v = .ok q

/-- The price, or nothing. -/
def price (before : List Visit) (v : Visit) : ℚ :=
  match priceOf s cost base before v with
  | .ok q => q
  | .error _ => 0

/-- What a path costs. -/
def total (visits : List Visit) : ℚ :=
  (visits.foldl (fun x v => (x.1 ++ [v], x.2 + price s cost base x.1 v)) (([] : List Visit), (0 : ℚ))).2

/-- What a search goes by: the cost of a path, then its edges. -/
def rank (visits : List Visit) : ℚ ×ₗ ℕ := toLex (total s cost base visits, (edges visits).length)

variable {s cost base} {visits before : List Visit} {v : Visit} {q : ℚ}

lemma total_concat : total s cost base (visits ++ [v])
    = total s cost base visits + price s cost base visits v := by
  have hfst : ∀ (visits : List Visit) (x : List Visit × ℚ), (visits.foldl (fun x v =>
      (x.1 ++ [v], x.2 + price s cost base x.1 v)) x).1 = x.1 ++ visits := by
    intro visits
    induction visits with
    | nil => simp
    | cons v visits ih =>
        intro x
        rw [List.foldl_cons, ih, List.append_assoc, List.singleton_append]
  rw [total, List.foldl_append, List.foldl_cons, List.foldl_nil, hfst, List.nil_append]
  rfl

lemma price_eq (h : priceOf s cost base before v = .ok q) : price s cost base before v = q := by
  rw [price, h]

lemma priceOf_near (h : v.via = none) : priceOf s cost base before v = .ok 0 := by
  unfold priceOf
  rw [h]
  cases cost <;> rfl

/-- A price is positive, where there is one to pay. -/
lemma price_nonneg : 0 ≤ price s cost base before v := by
  rw [price]
  split
  · rename_i q h
    unfold priceOf at h
    split at h
    · rw [Pricing.edgeCost] at h
      split at h
      · split_ifs at h with hpos
        obtain rfl := Except.ok.inj h
        exact hpos.le
      · cases h
    · exact (Except.ok.inj h).le
  · exact le_rfl

lemma rank_concat (visits : List Visit) (v : Visit) : rank s cost base (visits ++ [v])
    = toLex (total s cost base visits + price s cost base visits v,
      (edges visits).length + if v.via.isSome then 1 else 0) := by
  rw [rank, total_concat, edges_append, List.length_append]
  cases hvia : v.via with
  | none => simp [edges, hvia]
  | some x => simp [edges, hvia]

end Cost

/-! ## The space -/

section Space

variable {s : Setting α} {cost : Option (Pricing α)} {width : ℕ} {base : Row α} {start : EntityId}
  {c d : Config} {v : Visit} {k : ℕ}

/-- The product state of a configuration. -/
def keyOf (s : Setting α) (base : Row α) (c : Config) : Key α :=
  (c.visit.node, c.visit.q, c.k, s.automaton.keyValues (s.automaton.view base c.visits) c.visit.q)

/-- The steps of a configuration, of which those across an edge need a price. -/
noncomputable def nearSteps (s : Setting α) (base : Row α) (start : EntityId) (c : Config) : List Config :=
  s.automaton.passing s.holds (s.automaton.view base) base start c.visits
    (s.automaton.nearCandidates s.graph c)

noncomputable def farSteps (s : Setting α) (base : Row α) (start : EntityId) (c : Config) : List Config :=
  s.automaton.passing s.holds (s.automaton.view base) base start c.visits
    (s.automaton.farCandidates s.graph c)

open Classical in
/-- The configurations a selector search goes through; under `WALK` a product state has one future. -/
noncomputable def space (s : Setting α) (cost : Option (Pricing α)) (base : Row α) (start : EntityId) :
    BestFirst.Space Config (ℚ ×ₗ ℕ) where
  roots := s.automaton.roots s.holds (s.automaton.view base) base start
  near := nearSteps s base start
  far c := (farSteps s base start c).filter fun d => decide (Priced s cost base c.visits d.visit)
  cost c := rank s cost base c.visits
  same c d := c = d ∨ s.automaton.mode = .walk ∧ keyOf s base c = keyOf s base d

lemma mem_far : d ∈ (space s cost base start).far c
    ↔ d ∈ farSteps s base start c ∧ Priced s cost base c.visits d.visit := by
  simp [space]

lemma children_eq : s.automaton.children s.graph s.holds (s.automaton.view base) base start c
    = nearSteps s base start c ++ farSteps s base start c := by
  rw [PathAutomaton.children, PathAutomaton.candidates_eq, PathAutomaton.passing_append]
  rfl

/-- What the search can reach is a configuration of the pattern, with a price at every step. -/
lemma reached_of_reach (h : (space s cost base start).Reach c) :
    s.automaton.Reached s.graph s.holds (s.automaton.view base) base start c
      ∧ ∀ before v, before ++ [v] <+: c.visits → Priced s cost base before v := by
  induction h with
  | @root c hr =>
      refine ⟨⟨_, hr, .refl⟩, fun before v hpre => ?_⟩
      rw [(PathAutomaton.partly_root (g := s.graph) hr).2] at hpre
      have hv : v ∈ [(⟨0, start, none⟩ : Visit)] := hpre.subset (by simp)
      rw [List.mem_singleton.1 hv]
      exact ⟨0, priceOf_near rfl⟩
  | @near c d hc hd ih =>
      obtain ⟨⟨r, hr, hreach⟩, hpriced⟩ := ih
      refine ⟨⟨r, hr, hreach.tail (by rw [children_eq]; exact List.mem_append_left _ hd)⟩, ?_⟩
      obtain ⟨hbefore, hmem, -⟩ := PathAutomaton.mem_passing.1 hd
      intro before v hpre
      rw [Config.visits, hbefore, List.prefix_concat_iff] at hpre
      rcases hpre with heq | hpre
      · obtain ⟨-, heq⟩ := List.append_inj' heq rfl
        obtain rfl := List.singleton_injective heq
        exact ⟨0, priceOf_near (PathAutomaton.via_near hmem)⟩
      · exact hpriced before v hpre
  | @far c d hc hd ih =>
      obtain ⟨⟨r, hr, hreach⟩, hpriced⟩ := ih
      obtain ⟨hd, hprice⟩ := mem_far.1 hd
      refine ⟨⟨r, hr, hreach.tail (by rw [children_eq]; exact List.mem_append_right _ hd)⟩, ?_⟩
      obtain ⟨hbefore, -, -⟩ := PathAutomaton.mem_passing.1 hd
      intro before v hpre
      rw [Config.visits, hbefore, List.prefix_concat_iff] at hpre
      rcases hpre with heq | hpre
      · obtain ⟨rfl, hsingle⟩ := List.append_inj' heq rfl
        obtain rfl := List.singleton_injective hsingle
        exact hprice
      · exact hpriced before v hpre

lemma visits_child {l : List (Visit × ℕ)}
    (h : d ∈ s.automaton.passing s.holds (s.automaton.view base) base start c.visits l) :
    d.visits = c.visits ++ [d.visit] := by
  rw [Config.visits, (PathAutomaton.mem_passing.1 h).1]

/-- And the other way. -/
lemma reach_of_reached (h : s.automaton.Reached s.graph s.holds (s.automaton.view base) base start c)
    (hpriced : ∀ before v, before ++ [v] <+: c.visits → Priced s cost base before v) :
    (space s cost base start).Reach c := by
  obtain ⟨r, hr, hreach⟩ := h
  induction hreach with
  | refl => exact .root hr
  | @tail c d _ hd ih =>
      have hv := PathAutomaton.children_visits hd
      have hc := ih fun before v hpre => hpriced before v (hpre.trans (hv ▸ List.prefix_append _ _))
      rw [children_eq, List.mem_append] at hd
      rcases hd with hd | hd
      · exact .near hc hd
      · exact .far hc (mem_far.2 ⟨hd, hpriced _ _ (hv ▸ List.prefix_rfl)⟩)

/-- **A product state has one future.** -/
lemma passes_of_key (hs : s.automaton.Sound width true)
    (hmirror : s.graph.reverse.keys = s.graph.primary.keys) (hlen : base.length = width)
    (hwalk : s.automaton.mode = .walk)
    (hc : s.automaton.Reached s.graph s.holds (s.automaton.view base) base start c)
    (hd : s.automaton.Reached s.graph s.holds (s.automaton.view base) base start d)
    (hkey : keyOf s base c = keyOf s base d)
    (hmem : (v, k) ∈ s.automaton.candidates s.graph d)
    (hp : s.automaton.Passes s.holds (s.automaton.view base) base start d.visits v) :
    s.automaton.Passes s.holds (s.automaton.view base) base start c.visits v
      ∧ s.automaton.view base (c.visits ++ [v]) = s.automaton.view base (d.visits ++ [v]) := by
  simp only [keyOf, Prod.mk.injEq] at hkey
  obtain ⟨hnode, hq, hk, hvalues⟩ := hkey
  have hsucc := ((PathAutomaton.mem_candidates hs hmirror).1 hmem).1
  have hsucc' : (v.q, k) ∈ s.automaton.succs c.visit.q c.k := by rwa [hq, hk]
  obtain ⟨hview, hiff⟩ := PathAutomaton.passes_iff hs hmirror hlen hd hsucc
  obtain ⟨hview', hiff'⟩ := PathAutomaton.passes_iff hs hmirror hlen hc hsucc'
  have hrestored : s.automaton.restored base start c = s.automaton.restored base start d := by
    rw [PathAutomaton.restored, PathAutomaton.restored, hvalues, hq]
  rw [hrestored] at hview' hiff'
  refine ⟨hiff'.2 ?_, hview'.trans hview.symm⟩
  obtain ⟨h1, -, h3, h4⟩ := hiff.1 hp
  exact ⟨h1, by rw [hwalk]; trivial, h3, h4⟩

lemma key_candidates (hkey : keyOf s base c = keyOf s base d) :
    s.automaton.nearCandidates s.graph c = s.automaton.nearCandidates s.graph d
      ∧ s.automaton.farCandidates s.graph c = s.automaton.farCandidates s.graph d := by
  simp only [keyOf, Prod.mk.injEq] at hkey
  obtain ⟨hnode, hq, hk, -⟩ := hkey
  rw [PathAutomaton.nearCandidates, PathAutomaton.nearCandidates, PathAutomaton.farCandidates,
    PathAutomaton.farCandidates, hnode, hq, hk]
  exact ⟨rfl, rfl⟩

/-- The steps from one configuration have their likes from another with its product state, at the same
price. -/
lemma passing_of_key {l : List (Visit × ℕ)} (hs : s.automaton.Sound width true)
    (hmirror : s.graph.reverse.keys = s.graph.primary.keys) (hlen : base.length = width)
    (hc : (space s cost base start).Reach c) (hd : (space s cost base start).Reach d)
    (hsame : (space s cost base start).same c d) (hl : ∀ x ∈ l, x ∈ s.automaton.candidates s.graph d)
    {d' : Config} (hd' : d' ∈ s.automaton.passing s.holds (s.automaton.view base) base start d.visits l) :
    ∃ c' ∈ s.automaton.passing s.holds (s.automaton.view base) base start c.visits l,
      (space s cost base start).same c' d' ∧ c'.visit = d'.visit
        ∧ priceOf s cost base c.visits d'.visit = priceOf s cost base d.visits d'.visit := by
  rcases hsame with rfl | ⟨hwalk, hkey⟩
  · exact ⟨d', hd', Or.inl rfl, rfl, rfl⟩
  · have hv := visits_child hd'
    rw [PathAutomaton.mem_passing] at hd'
    obtain ⟨hbefore, hmem, hp⟩ := hd'
    obtain ⟨hp', hview⟩ := passes_of_key hs hmirror hlen hwalk (reached_of_reach hc).1
      (reached_of_reach hd).1 hkey (hl _ hmem) hp
    refine ⟨⟨c.visits, d'.visit, d'.k⟩, PathAutomaton.mem_passing.2 ⟨rfl, hmem, hp'⟩,
      Or.inr ⟨hwalk, ?_⟩, rfl, ?_⟩
    · rw [keyOf, keyOf, hv, ← hview]
      rfl
    · unfold priceOf
      rw [hview]

lemma mem_candidates_near : ∀ x ∈ s.automaton.nearCandidates s.graph c,
    x ∈ s.automaton.candidates s.graph c := by
  intro x hx
  rw [PathAutomaton.candidates_eq]
  exact List.mem_append_left _ hx

lemma mem_candidates_far : ∀ x ∈ s.automaton.farCandidates s.graph c,
    x ∈ s.automaton.candidates s.graph c := by
  intro x hx
  rw [PathAutomaton.candidates_eq]
  exact List.mem_append_right _ hx

/-- A step at the same price keeps the order of two costs. -/
lemma rank_mono {before before' : List Visit}
    (hle : rank s cost base before ≤ rank s cost base before')
    (hprice : priceOf s cost base before v = priceOf s cost base before' v) :
    rank s cost base (before ++ [v]) ≤ rank s cost base (before' ++ [v]) := by
  rw [rank_concat, rank_concat, price, price, hprice]
  rw [rank, rank, Prod.Lex.toLex_le_toLex] at hle
  rw [Prod.Lex.toLex_le_toLex]
  rcases hle with hlt | ⟨heq, hle⟩
  · exact Or.inl (by simpa using hlt)
  · exact Or.inr ⟨by simpa using heq, by simpa using hle⟩

/-- The steps across an edge of one configuration are those of another with its product state. -/
lemma farSteps_of_same (hs : s.automaton.Sound width true)
    (hmirror : s.graph.reverse.keys = s.graph.primary.keys) (hlen : base.length = width)
    (hc : (space s cost base start).Reach c) (hd : (space s cost base start).Reach d)
    (hsame : (space s cost base start).same c d) {d' : Config} (hd' : d' ∈ farSteps s base start d) :
    ∃ c' ∈ farSteps s base start c, (space s cost base start).same c' d' ∧ c'.visit = d'.visit
      ∧ priceOf s cost base c.visits d'.visit = priceOf s cost base d.visits d'.visit := by
  have hfar : s.automaton.farCandidates s.graph c = s.automaton.farCandidates s.graph d := by
    rcases hsame with rfl | ⟨-, hkey⟩
    · rfl
    · exact (key_candidates hkey).2
  rw [farSteps, hfar]
  exact passing_of_key hs hmirror hlen hc hd hsame mem_candidates_far hd'

theorem space_lawful (hs : s.automaton.Sound width true)
    (hmirror : s.graph.reverse.keys = s.graph.primary.keys) (hlen : base.length = width) :
    (space s cost base start).Lawful := by
  refine ⟨?_, ?_, fun _ => Or.inl rfl, ?_, ?_, ?_⟩
  · intro c d hd
    have hv := visits_child hd
    obtain ⟨-, hmem, -⟩ := PathAutomaton.mem_passing.1 hd
    have hvia := PathAutomaton.via_near hmem
    change rank s cost base d.visits = rank s cost base c.visits
    rw [hv, rank_concat, price_eq (priceOf_near hvia), hvia, add_zero]
    rfl
  · intro c d hd
    obtain ⟨hd, -⟩ := mem_far.1 hd
    have hv := visits_child hd
    obtain ⟨-, hmem, -⟩ := PathAutomaton.mem_passing.1 hd
    obtain ⟨x, hx⟩ := PathAutomaton.via_far hmem
    change rank s cost base c.visits < rank s cost base d.visits
    rw [hv, rank_concat, rank, Prod.Lex.toLex_lt_toLex, hx]
    have hprice : 0 ≤ price s cost base c.visits d.visit := price_nonneg
    rcases hprice.lt_or_eq with hpos | hzero
    · exact Or.inl (lt_add_of_pos_right _ hpos)
    · exact Or.inr ⟨by rw [← hzero, add_zero], Nat.lt_succ_self _⟩
  · rintro c d e (rfl | ⟨hw, h1⟩) (rfl | ⟨hw', h2⟩)
    · exact Or.inl rfl
    · exact Or.inr ⟨hw', h2⟩
    · exact Or.inr ⟨hw, h1⟩
    · exact Or.inr ⟨hw, h1.trans h2⟩
  · intro c d hc hd hsame d' hd'
    have hnear : s.automaton.nearCandidates s.graph c = s.automaton.nearCandidates s.graph d := by
      rcases hsame with rfl | ⟨-, hkey⟩
      · rfl
      · exact (key_candidates hkey).1
    obtain ⟨c', hc', hsame', -⟩ :=
      passing_of_key hs hmirror hlen hc hd hsame mem_candidates_near hd'
    exact ⟨c', by rw [← hnear] at hc'; exact hc', hsame'⟩
  · intro c d hc hd hsame hle d' hd'
    obtain ⟨hd', hpriced⟩ := mem_far.1 hd'
    obtain ⟨c', hc', hsame', hvisit, hprice⟩ := farSteps_of_same hs hmirror hlen hc hd hsame hd'
    refine ⟨c', mem_far.2 ⟨hc', ?_⟩, hsame', ?_⟩
    · rw [Priced, hvisit, hprice]
      exact hpriced
    · change rank s cost base c'.visits ≤ rank s cost base d'.visits
      rw [visits_child hc', visits_child hd', hvisit]
      exact rank_mono hle hprice

end Space

end Engine.Gql
