import Sekejap.Gql.Match
import Sekejap.Lib.Search

/-!
# Every run of a path pattern ends

Between two edges a run moves along the pattern, and back at most once: the body of a repeat crosses an
edge, so that no iteration follows another without one.  A mode that lets no edge, or no node, recur
bounds the edges of a path by the graph; under `WALK` every repeat is bounded.

* **`children_acc`** — no run goes on for ever.
-/

open Collections (EntityId)

open Engine.Graph (EdgeId Keyspaces)

namespace Engine.Gql

variable {α : Type} {width : ℕ} {selector : Bool}

namespace PathAutomaton

section Moves

variable {a : PathAutomaton} {q k p k' : ℕ} {r : Repeat}

/-! ## Between two edges -/

/-- A position of a body before its first edge. -/
def Early (a : PathAutomaton) (q : ℕ) : Prop :=
  ∃ r ∈ a.repeats, r.first ≤ q ∧ q ≤ r.last ∧ ∀ l, r.first ≤ l → l < q → a.link l = .same

open Classical in
/-- What a run without edges spends. -/
noncomputable def rank (a : PathAutomaton) (q : ℕ) : ℕ :=
  (if a.Early q then a.states.length else 2 * a.states.length) - q

/-- The end of a body is past its first edge. -/
lemma not_early_last (hs : a.Sound width selector) (hr : r ∈ a.repeats) : ¬ a.Early r.last := by
  rintro ⟨s, hs', hfirst, hlast, hsame⟩
  have hapart := repeats_apart hs hr hs'
  have h1 := (hs.repeats r hr).first_lt
  have h2 := (hs.repeats s hs').first_lt
  obtain ⟨l, step, hl, hlt, hlink⟩ := (hs.repeats r hr).crosses
  rcases hapart with rfl | h3
  · rw [hsame l hl hlt] at hlink
    cases hlink
  · omega

/-- The position before a body is in none. -/
lemma not_early_before (hs : a.Sound width selector) (hr : r ∈ a.repeats) (hq : r.first = q + 1) :
    ¬ a.Early q := by
  rintro ⟨s, hs', hfirst, hlast, -⟩
  have hapart := repeats_apart hs hr hs'
  have h1 := (hs.repeats r hr).first_lt
  have h2 := (hs.repeats s hs').first_lt
  rcases hapart with rfl | h3
  · omega
  · omega

lemma rank_lt_of_same (hs : a.Sound width selector) (hq : q < a.states.length)
    (h : .same p k' ∈ moves a q k) : a.rank p < a.rank q := by
  have hrank : ∀ p, a.rank p ≤ 2 * a.states.length - p := by
    intro p
    rw [rank]
    split_ifs <;> omega
  have hlate : ∀ {q}, ¬ a.Early q → a.rank q = 2 * a.states.length - q := by
    intro q hq
    rw [rank, if_neg hq]
  have hearly : ∀ {q}, a.Early q → a.rank q = a.states.length - q := by
    intro q hq
    rw [rank, if_pos hq]
  have hlow : a.states.length - q ≤ a.rank q := by
    rw [rank]
    split_ifs <;> omega
  have hfirst : ∀ r ∈ a.repeats, a.Early r.first := fun r hr =>
    ⟨r, hr, le_rfl, (hs.repeats r hr).first_lt.le, fun l h1 h2 => absurd h1 (by omega)⟩
  have hhop := hop_of_move h
  simp only [target] at hhop
  have hjoint := joint_of_same hs h
  cases hhop with
  | @again r hr hlast _ =>
      subst hlast
      rw [hearly (hfirst r hr), hlate (not_early_last hs hr)]
      have := (hs.repeats r hr).first_pos
      omega
  | @leave r hr hlast _ =>
      subst hlast
      rw [hlate (not_early_last hs hr)]
      have := hrank (r.last + 1)
      omega
  | @enter r hr hq' _ =>
      rw [hearly (hfirst r hr)]
      omega
  | @skip r hr hq' _ =>
      have := hrank (r.last + 1)
      have h2 := (hs.repeats r hr).first_lt
      rw [hlate (not_early_before hs hr hq')]
      omega
  | along hne hlast hfirst' =>
      by_cases he : a.Early q
      · -- the link is no edge, so that the next position is before the first edge too
        have hnext : a.Early (q + 1) := by
          obtain ⟨r, hr, h1, h2, h3⟩ := he
          refine ⟨r, hr, by omega, ?_, ?_⟩
          · have := hlast r hr
            omega
          · intro l hl hlt
            rcases (Nat.lt_succ_iff.1 hlt).eq_or_lt with rfl | hlt'
            · rw [joint, if_pos rfl, edgeStep_eq_none] at hjoint
              exact hjoint
            · exact h3 l hl hlt'
        rw [hearly he, hearly hnext]
        omega
      · rw [hlate he]
        have := hrank (q + 1)
        omega

/-! ## Bounded repeats -/

/-- The repeat a position is in. -/
def bodyOf (a : PathAutomaton) (q : ℕ) : Option Repeat :=
  a.repeats.find? fun r => decide (r.first ≤ q ∧ q ≤ r.last)

lemma bodyOf_eq (hs : a.Sound width selector) (hr : r ∈ a.repeats) (h1 : r.first ≤ q)
    (h2 : q ≤ r.last) : a.bodyOf q = some r := by
  cases hbody : a.bodyOf q with
  | none =>
      rw [bodyOf, List.find?_eq_none] at hbody
      have := hbody r hr
      simp only [decide_eq_true_eq] at this
      exact absurd ⟨h1, h2⟩ this
  | some s =>
      have hin := List.find?_some hbody
      have hmem := List.mem_of_find?_eq_some hbody
      simp only [decide_eq_true_eq] at hin
      rcases repeats_apart hs hr hmem with rfl | h3
      · rfl
      · omega

lemma bodyOf_eq_none (h : ∀ r ∈ a.repeats, ¬ (r.first ≤ q ∧ q ≤ r.last)) : a.bodyOf q = none := by
  rw [bodyOf, List.find?_eq_none]
  simpa using h

/-- What a run spends when every repeat is bounded: the pattern ahead, then the iterations, then the
body. -/
def ahead (a : PathAutomaton) (q k : ℕ) : ℕ ×ₗ ℕ ×ₗ ℕ :=
  match a.bodyOf q with
  | none => toLex (a.states.length - q, toLex (0, a.states.length - q))
  | some r => toLex (a.states.length - r.first, toLex (r.max.getD 0 - k, a.states.length - q))

lemma ahead_lt (hs : a.Sound width selector) (hbounded : ∀ r ∈ a.repeats, r.max ≠ none)
    (hq : q < a.states.length) (h : (p, k') ∈ a.succs q k) : a.ahead p k' < a.ahead q k := by
  have hafter : ∀ r ∈ a.repeats, a.bodyOf (r.last + 1) = none := by
    intro r hr
    refine bodyOf_eq_none fun s hs' hin => ?_
    have h1 := (hs.repeats r hr).first_lt
    rcases repeats_apart hs hr hs' with rfl | h3
    · omega
    · omega
  have hbefore : ∀ r ∈ a.repeats, r.first = q + 1 → a.bodyOf q = none := by
    intro r hr hfirst
    refine bodyOf_eq_none fun s hs' hin => ?_
    have h1 := (hs.repeats r hr).first_lt
    rcases repeats_apart hs hr hs' with rfl | h3
    · omega
    · omega
  have hin : ∀ r ∈ a.repeats, a.bodyOf r.first = some r := fun r hr =>
    bodyOf_eq hs hr le_rfl (hs.repeats r hr).first_lt.le
  cases hop_of_succs h with
  | @again r hr hlast hmax =>
      subst hlast
      obtain ⟨max, hmem⟩ := Option.ne_none_iff_exists'.1 (hbounded r hr)
      have hlt := hmax max hmem
      rw [ahead, ahead, hin r hr, bodyOf_eq hs hr (hs.repeats r hr).first_lt.le le_rfl]
      simp only [hmem, Option.getD_some, reduceCtorEq, if_false, Prod.Lex.toLex_lt_toLex]
      exact Or.inr ⟨trivial, Or.inl (by omega)⟩
  | @leave r hr hlast hmin =>
      subst hlast
      have h1 := (hs.repeats r hr).first_lt
      rw [ahead, ahead, hafter r hr, bodyOf_eq hs hr h1.le le_rfl]
      simp only [Prod.Lex.toLex_lt_toLex]
      exact Or.inl (by omega)
  | @enter r hr hfirst hmax =>
      rw [ahead, ahead, hin r hr, hbefore r hr hfirst]
      simp only [Prod.Lex.toLex_lt_toLex]
      exact Or.inl (by omega)
  | @skip r hr hfirst hmin =>
      have h1 := (hs.repeats r hr).first_lt
      rw [ahead, ahead, hafter r hr, hbefore r hr hfirst]
      simp only [Prod.Lex.toLex_lt_toLex]
      exact Or.inl (by omega)
  | along hne hlast hfirst =>
      cases hbody : a.bodyOf q with
      | none =>
          have hnext : a.bodyOf (q + 1) = none := by
            refine bodyOf_eq_none fun r hr hin => ?_
            rw [bodyOf, List.find?_eq_none] at hbody
            have h1 := hbody r hr
            have h2 := hfirst r hr
            simp only [decide_eq_true_eq] at h1
            omega
          rw [ahead, ahead, hbody, hnext]
          simp only [Prod.Lex.toLex_lt_toLex]
          exact Or.inl (by omega)
      | some r =>
          have hr := List.mem_of_find?_eq_some hbody
          have hin' := List.find?_some hbody
          have h2 := hlast r hr
          simp only [decide_eq_true_eq] at hin'
          rw [ahead, ahead, hbody, bodyOf_eq hs hr (by omega) (by omega)]
          simp only [Prod.Lex.toLex_lt_toLex]
          exact Or.inr ⟨trivial, Or.inr ⟨trivial, by omega⟩⟩

/-- A run stays in the pattern. -/
lemma succs_lt (hs : a.Sound width selector) (hq : q < a.states.length)
    (h : (p, k') ∈ a.succs q k) : p < a.states.length := by
  cases hop_of_succs h with
  | @again r hr hlast hmax =>
      have h1 := (hs.repeats r hr).first_lt
      omega
  | @leave r hr hlast hmin => exact hlast ▸ (hs.repeats r hr).last_lt
  | @enter r hr hfirst hmax =>
      have h1 := (hs.repeats r hr).first_lt
      have h2 := (hs.repeats r hr).last_lt
      omega
  | @skip r hr hfirst hmin => exact (hs.repeats r hr).last_lt
  | along hne hlast hfirst => omega

end Moves

/-! ## The edges of a path -/

section Paths

variable {a : PathAutomaton} {g : Keyspaces} {holds : ℕ → Row α → Bool} {view : List Visit → Row α}
  {base : Row α} {start : EntityId} {visits : List Visit} {v : Visit} {c d : Config}

lemma crossed_of_chain (h : (v :: visits).IsChain (a.Joined g)) :
    ∀ u ∈ visits, ∀ x ∈ u.via, x.1 ∈ g.primary.keys
      ∧ (u.node = x.1.key.source ∨ u.node = x.1.key.destination) := by
  induction visits generalizing v with
  | nil => simp
  | cons u visits ih =>
      rw [List.isChain_cons_cons] at h
      rintro w (_ | ⟨_, hw⟩) x hx
      · have hj := h.1
        rw [Joined, (hx : u.via = some x)] at hj
        cases hjoint : a.joint v.q u.q with
        | none =>
            rw [hjoint] at hj
            exact hj.elim
        | some step =>
            rw [hjoint] at hj
            obtain ⟨e, forward⟩ := x
            refine ⟨hj.edge, ?_⟩
            have := hj.ends
            cases forward with
            | true => exact Or.inr this.2.symm
            | false => exact Or.inl this.2.symm
      · exact ih h.2 w hw x hx

/-- The ends of the edges of a graph. -/
def nodesOf (g : Keyspaces) : Finset EntityId :=
  g.primary.keys.image (fun e => e.key.source) ∪ g.primary.keys.image fun e => e.key.destination

/-- The most edges a path of a mode has. -/
def budget (g : Keyspaces) (start : EntityId) : PathMode → ℕ
  | .walk => 0
  | .trail => g.primary.keys.card
  | .acyclic => (insert start (nodesOf g)).card

lemma length_arrived (visits : List Visit) : (arrived visits).length = (edges visits).length := by
  induction visits with
  | nil => rfl
  | cons v visits ih =>
      cases hv : v.via with
      | none => simpa [arrived, edges, hv] using ih
      | some x => simpa [arrived, edges, hv] using ih

/-- **A path without recurrence has no more edges than the graph lets it.** -/
lemma edges_le_budget (h : a.Partly g holds view base start c) (hmode : a.mode ≠ .walk) :
    (edges c.visits).length ≤ budget g start a.mode := by
  obtain ⟨rest, hrest⟩ := h.first
  have hchain := h.joined
  rw [hrest] at hchain
  have hcrossed := crossed_of_chain hchain
  have hallows := h.mode
  rw [hrest] at hallows ⊢
  have hedges : edges (⟨0, start, none⟩ :: rest) = edges rest := rfl
  have harrived : arrived (⟨0, start, none⟩ :: rest) = arrived rest := rfl
  cases hm : a.mode with
  | walk => exact absurd hm hmode
  | trail =>
      rw [hm] at hallows
      have hnodup : (edges rest).Nodup := hallows
      rw [hedges, budget, ← List.toFinset_card_of_nodup hnodup]
      refine Finset.card_le_card fun e he => ?_
      rw [List.mem_toFinset, edges, List.mem_filterMap] at he
      obtain ⟨u, hu, hmap⟩ := he
      obtain ⟨x, hx, rfl⟩ := Option.map_eq_some_iff.1 hmap
      exact (hcrossed u hu x hx).1
  | acyclic =>
      rw [hm] at hallows
      have hnodup : (arrived rest).Nodup := (List.nodup_cons.1 hallows).2
      rw [hedges, ← length_arrived, budget, ← List.toFinset_card_of_nodup hnodup]
      refine Finset.card_le_card fun n hn => Finset.mem_insert_of_mem ?_
      rw [List.mem_toFinset, arrived, List.mem_filterMap] at hn
      obtain ⟨u, hu, hmap⟩ := hn
      obtain ⟨x, hx, rfl⟩ := Option.map_eq_some_iff.1 hmap
      obtain ⟨hmem, hnode⟩ := hcrossed u hu x hx
      rw [nodesOf, Finset.mem_union, Finset.mem_image, Finset.mem_image]
      rcases hnode with hnode | hnode
      · exact Or.inl ⟨x.1, hmem, hnode.symm⟩
      · exact Or.inr ⟨x.1, hmem, hnode.symm⟩

/-- **No run goes on for ever.** -/
theorem children_acc (hs : a.Sound width selector) (hmirror : g.reverse.keys = g.primary.keys)
    (hbounded : a.mode = .walk → ∀ r ∈ a.repeats, r.max ≠ none)
    (h : a.Reached g holds view base start c) :
    Acc (Search.Child (a.children g holds view base start)) c := by
  have hq : c.visit.q < a.states.length := by
    obtain ⟨r, hr, hreach⟩ := h
    induction hreach with
    | refl =>
        rw [(partly_root (g := g) hr).2]
        have := hs.links
        simp only
        omega
    | tail _ hstep ih =>
        rw [children, mem_passing, mem_candidates hs hmirror] at hstep
        exact succs_lt hs ih hstep.2.1.1
  let P : Config → Prop := fun c =>
    a.Partly g holds view base start c ∧ c.visit.q < a.states.length
  have hp : P c := ⟨partly_of_reached hs hmirror h, hq⟩
  have hstep : ∀ c, P c → ∀ d ∈ a.children g holds view base start c,
        P d ∧ (d.visit.q, d.k) ∈ a.succs c.visit.q c.k ∧ a.Joined g c.visit d.visit
          ∧ d.visits = c.visits ++ [d.visit] := by
    rintro c ⟨hp, hq⟩ d hd
    have hpart := partly_child hs hmirror hp hd
    have hv := children_visits hd
    rw [children, mem_passing, mem_candidates hs hmirror] at hd
    exact ⟨⟨hpart, succs_lt hs hq hd.2.1.1⟩, hd.2.1.1, hd.2.1.2.1, hv⟩
  by_cases hmode : a.mode = .walk
  · refine Search.acc_of_measure P (fun c => a.ahead c.visit.q c.k) ?_ hp
    intro c hc d hd
    obtain ⟨hd', hsucc, -, -⟩ := hstep c hc d hd
    exact ⟨hd', ahead_lt hs (hbounded hmode) hc.2 hsucc⟩
  · refine Search.acc_of_measure P (fun c =>
      toLex (budget g start a.mode - (edges c.visits).length, a.rank c.visit.q)) ?_ hp
    intro c hc d hd
    obtain ⟨hd', hsucc, hjoined, hv⟩ := hstep c hc d hd
    refine ⟨hd', ?_⟩
    have hle := edges_le_budget hd'.1 hmode
    rw [hv, edges_append, List.length_append] at hle ⊢
    rw [Prod.Lex.toLex_lt_toLex]
    cases hvia : d.visit.via with
    | some x =>
        have hone : (edges [d.visit]).length = 1 := by simp [edges, hvia]
        exact Or.inl (by omega)
    | none =>
        have hnone : (edges [d.visit]).length = 0 := by simp [edges, hvia]
        refine Or.inr ⟨by simp [hnone], ?_⟩
        rw [succs, List.mem_map] at hsucc
        obtain ⟨m, hm, htarget⟩ := hsucc
        cases m with
        | same p k' =>
            simp only [target, Prod.mk.injEq] at htarget
            rw [← htarget.1]
            exact rank_lt_of_same hs hc.2 hm
        | edge l =>
            obtain ⟨rfl, step, hstep'⟩ := step_of_edge hm
            simp only [target, Prod.mk.injEq] at htarget
            rw [Joined, joint, if_pos htarget.1.symm, hstep', hvia] at hjoined
            exact hjoined.elim

end Paths

end PathAutomaton

end Engine.Gql
