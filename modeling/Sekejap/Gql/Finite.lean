import Mathlib.Algebra.Order.BigOperators.Group.List
import Mathlib.Data.Set.Finite.Lattice
import Mathlib.Data.Set.Finite.List
import Sekejap.Gql.Expand

/-!
# Product states are finitely many

A counter is bounded or saturates, and a key slot holds what the input row held there, or an element of
the graph.  So a search under `WALK`, which settles no product state twice, comes to an end even where the
walks do not.

* **`keys_finite`** — the product states that are reached are finitely many.
-/

open Collections (EntityId)

open Engine.Graph (EdgeId Keyspaces)

namespace Engine.Gql

variable {α : Type}

namespace PathAutomaton

section

variable {a : PathAutomaton} {width : ℕ} {selector : Bool} {g : Keyspaces} {holds : ℕ → Row α → Bool}
  {view : List Visit → Row α} {base : Row α} {start : EntityId} {c d : Config}

/-- The most a counter comes to. -/
def counts (a : PathAutomaton) : ℕ := (a.repeats.map fun r => r.max.getD r.min).sum

lemma le_counts {r : Repeat} (hr : r ∈ a.repeats) : r.max.getD r.min ≤ a.counts :=
  List.le_sum_of_mem (List.mem_map_of_mem hr)

lemma hop_le {q k p k' : ℕ} (h : Hop a q k p k') (hk : k ≤ a.counts) : k' ≤ a.counts := by
  cases h with
  | @again r hr _ hmax =>
      refine le_trans ?_ (le_counts hr)
      cases h : r.max with
      | none =>
          rw [if_pos rfl]
          exact min_le_right _ _
      | some max =>
          rw [if_neg (by simp)]
          exact (hmax max h).le
  | leave => exact Nat.zero_le _
  | enter => exact Nat.zero_le _
  | skip => exact Nat.zero_le _
  | along => exact hk

/-- The elements of a graph, and a start. -/
def Inside (g : Keyspaces) (start : EntityId) (v : Visit) : Prop :=
  v.node ∈ insert start (nodesOf g) ∧ ∀ x ∈ v.via, x.1 ∈ g.primary.keys

/-- **Where a search stands is bounded.** -/
lemma reached_inside (hs : a.Sound width selector) (hmirror : g.reverse.keys = g.primary.keys)
    (h : a.Reached g holds view base start c) :
    c.visit.q < a.states.length ∧ c.k ≤ a.counts ∧ ∀ v ∈ c.visits, Inside g start v := by
  obtain ⟨r, hr, hreach⟩ := h
  induction hreach with
  | refl =>
      rw [(partly_root (g := g) hr).2]
      refine ⟨?_, Nat.zero_le _, ?_⟩
      · have := hs.links
        simp only
        omega
      · intro v hv
        obtain rfl := List.mem_singleton.1 hv
        exact ⟨Finset.mem_insert_self _ _, by simp⟩
  | @tail c d _ hd ih =>
      obtain ⟨hq, hk, hinside⟩ := ih
      have hv := children_visits hd
      rw [children, mem_passing, mem_candidates hs hmirror] at hd
      obtain ⟨-, ⟨hsucc, hjoined, -⟩, -⟩ := hd
      refine ⟨succs_lt hs hq hsucc, hop_le (hop_of_succs hsucc) hk, fun v hmem => ?_⟩
      rw [hv, List.mem_append, List.mem_singleton] at hmem
      rcases hmem with hmem | rfl
      · exact hinside v hmem
      · have hlast := hinside c.visit (by simp [Config.visits])
        rw [Joined] at hjoined
        cases hvia : d.visit.via with
        | none =>
            rw [hvia] at hjoined
            cases hjoint : a.joint c.visit.q d.visit.q with
            | none =>
                rw [hjoint] at hjoined
                exact ⟨(hjoined : d.visit.node = c.visit.node) ▸ hlast.1, by simp [hvia]⟩
            | some step =>
                rw [hjoint] at hjoined
                exact hjoined.elim
        | some x =>
            rw [hvia] at hjoined
            cases hjoint : a.joint c.visit.q d.visit.q with
            | none =>
                rw [hjoint] at hjoined
                exact hjoined.elim
            | some step =>
                rw [hjoint] at hjoined
                obtain ⟨e, forward⟩ := x
                have hcross : Crosses g step c.visit.node e forward d.visit.node := hjoined
                have hends := hcross.ends
                refine ⟨Finset.mem_insert_of_mem (Finset.mem_union.2 ?_), ?_⟩
                · cases forward with
                  | true => exact Or.inr (Finset.mem_image.2 ⟨e, hcross.edge, hends.2⟩)
                  | false => exact Or.inl (Finset.mem_image.2 ⟨e, hcross.edge, hends.2⟩)
                · rintro y hy
                  obtain rfl := Option.some.inj (hvia.symm.trans hy)
                  exact hcross.edge

/-- What a slot may hold. -/
def holdable (g : Keyspaces) (base : Row α) (start : EntityId) : Set (BindingValue α) :=
  {.null} ∪ {v | v ∈ base} ∪ (fun n => .element (.node n)) '' (insert start (nodesOf g) : Finset EntityId)
    ∪ (fun e => .element (.edge e)) '' g.primary.keys

lemma holdable_finite (g : Keyspaces) (base : Row α) (start : EntityId) :
    (holdable g base start).Finite := by
  refine (((Set.finite_singleton _).union ?_).union ?_).union ?_
  · exact List.finite_toSet base
  · exact (Finset.finite_toSet _).image _
  · exact (Finset.finite_toSet _).image _

lemma value_holdable (slot : ℕ) : base.value slot ∈ holdable g base start := by
  rw [Row.value, List.getD_eq_getElem?_getD]
  by_cases h : slot < base.length
  · rw [List.getElem?_eq_getElem h]
    exact Or.inl (Or.inl (Or.inr (List.getElem_mem h)))
  · rw [List.getElem?_eq_none (not_lt.1 h)]
    exact Or.inl (Or.inl (Or.inl rfl))

/-- A predicate sees what the row held, and elements of the graph. -/
lemma view_holdable (hs : a.Sound width selector) (hlen : base.length = width)
    {visits : List Visit} (h : ∀ v ∈ visits, Inside g start v) (slot : ℕ) :
    (a.view base visits).value slot ∈ holdable g base start := by
  have hslots : ∀ x ∈ a.scope visits, x.1.slot < base.length := fun x hx =>
    (kept_bound hs hlen visits).slots x (scope_subset hx)
  rcases value_written slot hslots with ⟨x, hx, -, hval⟩ | ⟨-, hval⟩
  · rw [view, hval]
    obtain ⟨v, hv, hxv⟩ := List.mem_flatMap.1 (scope_subset hx)
    obtain ⟨hnode, hedge⟩ := h v hv
    rw [bound, List.mem_append] at hxv
    rcases hxv with hxv | hxv
    · cases hvia : v.via with
      | none => simp [Visit.crossed, hvia] at hxv
      | some y =>
          simp only [Visit.crossed, hvia, Option.map_some, List.mem_map] at hxv
          obtain ⟨b, -, rfl⟩ := hxv
          exact Or.inr ⟨y.1, hedge y hvia, rfl⟩
    · obtain ⟨b, -, rfl⟩ := List.mem_map.1 hxv
      exact Or.inl (Or.inr ⟨v.node, hnode, rfl⟩)
  · rw [view, hval]
    exact value_holdable slot

end

end PathAutomaton

lemma lists_finite {β : Type} {S : Set β} (hS : S.Finite) (n : ℕ) :
    {l : List β | l.length = n ∧ ∀ x ∈ l, x ∈ S}.Finite := by
  have : Finite S := hS
  refine ((List.finite_length_eq S n).image (List.map Subtype.val)).subset ?_
  rintro l ⟨hlen, hmem⟩
  exact ⟨l.pmap Subtype.mk hmem, by simpa using hlen, by simp [List.map_pmap]⟩

/-- **The product states that are reached are finitely many.** -/
theorem keys_finite {s : Setting α} {width : ℕ} {base : Row α} {start : EntityId}
    (hs : s.automaton.Sound width true) (hmirror : s.graph.reverse.keys = s.graph.primary.keys)
    (hlen : base.length = width) : {key | ∃ c,
      s.automaton.Reached s.graph s.holds (s.automaton.view base) base start c
        ∧ keyOf s base c = key}.Finite := by
  have hvalues : (⋃ q ∈ Finset.range s.automaton.states.length,
      {l : List (BindingValue α) | l.length = (s.automaton.keySlots q).length
        ∧ ∀ x ∈ l, x ∈ PathAutomaton.holdable s.graph base start}).Finite :=
    Set.Finite.biUnion (Finset.finite_toSet _) fun q _ =>
      lists_finite (PathAutomaton.holdable_finite s.graph base start) _
  refine ((Finset.finite_toSet (insert start (PathAutomaton.nodesOf s.graph))).prod
    ((Finset.finite_toSet (Finset.range s.automaton.states.length)).prod
      ((Finset.finite_toSet (Finset.range (s.automaton.counts + 1))).prod hvalues))).subset ?_
  rintro key ⟨c, hreach, rfl⟩
  obtain ⟨hq, hk, hinside⟩ := PathAutomaton.reached_inside hs hmirror hreach
  refine ⟨(hinside c.visit (by simp [Config.visits])).1, ?_, ?_, ?_⟩
  · exact Finset.mem_coe.2 (Finset.mem_range.2 hq)
  · exact Finset.mem_coe.2 (Finset.mem_range.2 (Nat.lt_succ_of_le hk))
  · refine Set.mem_biUnion (x := c.visit.q) (Finset.mem_coe.2 (Finset.mem_range.2 hq)) ⟨?_, ?_⟩
    · exact List.length_map _
    · intro x hx
      obtain ⟨slot, -, rfl⟩ := List.mem_map.1 hx
      exact PathAutomaton.view_holdable hs hlen hinside slot

end Engine.Gql
