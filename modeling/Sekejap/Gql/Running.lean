import Sekejap.Gql.Finite

/-!
# A running search

One turn of a selector search, as a turn of a best-first search: a record that was replaced is passed
over, one that waited is settled and its moves on its node are made, and one that was settled is walked
from.

* **`Mirrors.pass`**, **`Mirrors.settle`**, **`Mirrors.unqueue`** — what is popped.
* **`Mirrors.walked`**, **`Mirrors.pushWalk`** — what becomes of a settled record.
-/

open Collections (EntityId)

open Engine.Graph (EdgeId Keyspaces)

open BestFirst (Status Found Offer Offered)

namespace Engine.Gql

variable {α : Type}

section

variable {s : Setting α} {cost : Option (Pricing α)} {width : ℕ} {base : Row α} {start : EntityId}
  {run : Selection α} {st : Found Config} {level : ℚ ×ₗ ℕ} {hole : Option ℕ} {c d : Config}
  {t u : Status} {i j : ℕ} {walk w : Bool} {f : Frontier}

/-! ## What is popped -/

/-- What an entry that is popped comes before. -/
lemma Mirrors.least (hm : Mirrors s cost base start run st level hole)
    (hpop : run.frontier.pop = some ((i, walk), f)) (hi : st[i]? = some (c, t))
    (hmem : (j, w) ∈ run.frontier.entries) (hj : st[j]? = some (d, u)) :
    toLex (rank s cost base c.visits, walk) ≤ toLex (rank s cost base d.visits, w) := by
  obtain ⟨hperm, hleast, -⟩ := Frontier.pop_some hm.keeps hpop
  rcases List.mem_cons.1 (hperm.mem_iff.1 hmem) with heq | hmem
  · obtain ⟨rfl, rfl⟩ := Prod.mk.inj heq
    rw [(Prod.mk.inj (Option.some.inj (hi.symm.trans hj))).1]
  · have := hleast _ hmem
    rwa [Frontier.before, Frontier.before, rankAt_eq hi, rankAt_eq hj] at this

lemma Mirrors.le_waiting (hm : Mirrors s cost base start run st level none)
    (hpop : run.frontier.pop = some ((i, walk), f)) (hi : st[i]? = some (c, t))
    (hd : (d, .waiting) ∈ st) : rank s cost base c.visits ≤ rank s cost base d.visits
      ∧ (walk = true → rank s cost base c.visits < rank s cost base d.visits) := by
  obtain ⟨j, hj⟩ := List.mem_iff_getElem?.1 hd
  have hle := hm.least hpop hi (hm.waits j d hj) hj
  rw [Prod.Lex.toLex_le_toLex] at hle
  rcases hle with hlt | ⟨heq, hwalk⟩
  · exact ⟨hlt.le, fun _ => hlt⟩
  · refine ⟨heq.le, fun h => ?_⟩
    subst h
    exact absurd hwalk (by simp)

lemma Mirrors.le_settled (hm : Mirrors s cost base start run st level none)
    (hpop : run.frontier.pop = some ((i, walk), f)) (hi : st[i]? = some (c, t))
    (hd : (d, .settled) ∈ st) : rank s cost base c.visits ≤ rank s cost base d.visits := by
  obtain ⟨j, hj⟩ := List.mem_iff_getElem?.1 hd
  have hle := hm.least hpop hi ((hm.settles j d hj).resolve_left (by simp)) hj
  rw [Prod.Lex.toLex_le_toLex] at hle
  rcases hle with hlt | ⟨heq, -⟩
  · exact hlt.le
  · exact heq.le

/-- What is left on the frontier. -/
lemma Mirrors.rest (hm : Mirrors s cost base start run st level hole)
    (hpop : run.frontier.pop = some ((i, walk), f)) :
    f.entries.Nodup ∧ (i, walk) ∉ f.entries
      ∧ (∀ e, e ∈ f.entries ↔ e ∈ run.frontier.entries ∧ e ≠ (i, walk))
      ∧ f.Keeps (rankAt s cost base st) (rankAt s cost base st i) ∧ (cost ≠ none → f.isHeap = true) := by
  obtain ⟨hperm, -, hkeeps⟩ := Frontier.pop_some hm.keeps hpop
  have hnodup := hm.nodup
  rw [hperm.nodup_iff, List.nodup_cons] at hnodup
  refine ⟨hnodup.2, hnodup.1, fun e => ?_, hkeeps, fun h => ?_⟩
  · rw [hperm.mem_iff, List.mem_cons]
    constructor
    · intro he
      exact ⟨Or.inr he, fun heq => hnodup.1 (heq ▸ he)⟩
    · rintro ⟨rfl | he, hne⟩
      · exact absurd rfl hne
      · exact he
  · rw [Frontier.isHeap_pop hpop]
    exact hm.heap h

/-- **A record that was replaced is passed over.** -/
lemma Mirrors.pass (hm : Mirrors s cost base start run st level none)
    (hpop : run.frontier.pop = some ((i, false), f)) (hi : st[i]? = some (c, .replaced)) :
    Mirrors s cost base start { run with frontier := f } st (rank s cost base c.visits) none := by
  obtain ⟨hnodup, -, hmem, hkeeps, hheap⟩ := hm.rest hpop
  rw [rankAt_eq hi] at hkeeps
  refine ⟨hm.length, hm.record, hm.grounded, hm.chains, hm.base_eq, hm.scratch, hm.undo, hkeeps, hnodup,
    fun j hj => hm.records_in j ((hmem _).1 hj).1, fun j hj => hm.walks_in j ((hmem _).1 hj).1, ?_, ?_,
    hheap⟩
  · intro j e hj
    refine (hmem _).2 ⟨hm.waits j e hj, fun heq => ?_⟩
    obtain ⟨rfl, -⟩ := Prod.mk.inj heq
    cases (Prod.mk.inj (Option.some.inj (hi.symm.trans hj))).2
  · intro j e hj
    exact (hm.settles j e hj).imp_right fun h => (hmem _).2 ⟨h, by simp⟩

/-- **A walk is taken off the frontier.** -/
lemma Mirrors.unqueue (hm : Mirrors s cost base start run st level none)
    (hpop : run.frontier.pop = some ((i, true), f)) (hi : st[i]? = some (c, .settled)) :
    Mirrors s cost base start { run with frontier := f } st (rank s cost base c.visits) (some i) := by
  obtain ⟨hnodup, hnot, hmem, hkeeps, hheap⟩ := hm.rest hpop
  rw [rankAt_eq hi] at hkeeps
  refine ⟨hm.length, hm.record, hm.grounded, hm.chains, hm.base_eq, hm.scratch, hm.undo, hkeeps, hnodup,
    fun j hj => hm.records_in j ((hmem _).1 hj).1, ?_, ?_, ?_, hheap⟩
  · intro j hj
    refine ⟨fun heq => ?_, (hm.walks_in j ((hmem _).1 hj).1).2⟩
    obtain rfl := Option.some.inj heq
    exact hnot hj
  · intro j e hj
    exact (hmem _).2 ⟨hm.waits j e hj, by simp⟩
  · intro j e hj
    by_cases hij : i = j
    · exact Or.inl (congrArg some hij)
    · refine (hm.settles j e hj).imp (fun h => by cases h) fun h => (hmem _).2 ⟨h, fun heq => ?_⟩
      exact hij (Prod.mk.inj heq).1.symm

/-! ## What becomes of a record -/

/-- What is found after one is given another status. -/
lemma getElem?_set_cases (hi : st[i]? = some (c, t)) {e : Config} {v : Status} :
    (st.set i (c, u))[j]? = some (e, v)
      ↔ (i ≠ j ∧ st[j]? = some (e, v)) ∨ (i = j ∧ (c, u) = (e, v)) := by
  have hlt := (List.getElem?_eq_some_iff.1 hi).1
  by_cases hij : i = j
  · subst hij
    simp [hlt]
  · simp [hij]

lemma rankAt_set (hi : st[i]? = some (c, t)) :
    rankAt s cost base (st.set i (c, u)) = rankAt s cost base st := by
  funext j
  have hlt := (List.getElem?_eq_some_iff.1 hi).1
  by_cases hij : i = j
  · subst hij
    rw [rankAt, rankAt, List.getElem?_set_self hlt, hi]
    rfl
  · rw [rankAt, rankAt, List.getElem?_set_ne hij]

/-- **A record is settled.** -/
lemma Mirrors.settle {r : Record α} (hm : Mirrors s cost base start run st level none)
    (hpop : run.frontier.pop = some ((i, false), f)) (hi : st[i]? = some (c, .waiting))
    (hr : run.records[i]? = some r) :
    Mirrors s cost base start { run with
      frontier := f
      records := run.records.set i { r with settled := true } }
      (st.set i (c, .settled)) (rank s cost base c.visits) (some i) := by
  obtain ⟨hnodup, -, hmem, hkeeps, hheap⟩ := hm.rest hpop
  rw [rankAt_eq hi] at hkeeps
  obtain ⟨parent, hrecord⟩ := hm.record i c _ hi
  obtain rfl : recordOf s cost base c .waiting parent = r := Option.some.inj (hrecord.symm.trans hr)
  have hltr := (List.getElem?_eq_some_iff.1 hr).1
  have hnew : ({ recordOf s cost base c .waiting parent with settled := true } : Record α)
      = recordOf s cost base c .settled parent := rfl
  rw [hnew]
  have hgrounded : Grounded (run.records.set i (recordOf s cost base c .settled parent)) :=
    hm.grounded.set hr rfl
  refine ⟨by simp [hm.length], ?_, hgrounded, ?_, hm.base_eq, hm.scratch, hm.undo,
    (rankAt_set hi).symm ▸ hkeeps, hnodup, ?_, ?_, ?_, ?_, hheap⟩
  · intro j e v hj
    rcases (getElem?_set_cases hi).1 hj with ⟨hij, hj⟩ | ⟨rfl, heq⟩
    · obtain ⟨parent', hr'⟩ := hm.record j e v hj
      exact ⟨parent', by rw [List.getElem?_set_ne hij, hr']⟩
    · obtain ⟨rfl, rfl⟩ := Prod.mk.inj heq
      exact ⟨parent, by rw [List.getElem?_set_self hltr]⟩
  · intro j e v hj
    have hold : ∃ v', st[j]? = some (e, v') := by
      rcases (getElem?_set_cases hi).1 hj with ⟨-, hj⟩ | ⟨rfl, heq⟩
      · exact ⟨v, hj⟩
      · exact ⟨.waiting, by rw [← (Prod.mk.inj heq).1, hi]⟩
    obtain ⟨v', hj'⟩ := hold
    rw [chain_among hm.grounded hgrounded (among_set hr rfl rfl)
      (hm.length ▸ (List.getElem?_eq_some_iff.1 hj').1), hm.chains j e v' hj']
  · intro j hj
    obtain ⟨hold, hne⟩ := (hmem _).1 hj
    obtain ⟨e, v, he, hv⟩ := hm.records_in j hold
    refine ⟨e, v, (getElem?_set_cases hi).2 (Or.inl ⟨fun hij => hne ?_, he⟩), hv⟩
    rw [hij]
  · intro j hj
    obtain ⟨-, e, he⟩ := hm.walks_in j ((hmem _).1 hj).1
    have hij : i ≠ j := by
      rintro rfl
      cases (Prod.mk.inj (Option.some.inj (hi.symm.trans he))).2
    exact ⟨fun heq => hij (Option.some.inj heq), e, (getElem?_set_cases hi).2 (Or.inl ⟨hij, he⟩)⟩
  · intro j e hj
    rcases (getElem?_set_cases hi).1 hj with ⟨hij, hj⟩ | ⟨-, heq⟩
    · exact (hmem _).2 ⟨hm.waits j e hj, fun heq => hij (Prod.mk.inj heq).1.symm⟩
    · cases (Prod.mk.inj heq).2
  · intro j e hj
    rcases (getElem?_set_cases hi).1 hj with ⟨hij, hj⟩ | ⟨rfl, -⟩
    · exact Or.inr ((hmem _).2 ⟨(hm.settles j e hj).resolve_left (by simp), by simp⟩)
    · exact Or.inl rfl

/-- **A settled record is walked from**, or has nowhere to go. -/
lemma Mirrors.walked (hm : Mirrors s cost base start run st level (some i))
    (hi : st[i]? = some (c, .settled)) :
    Mirrors s cost base start run (st.set i (c, .walked)) level none := by
  refine ⟨by simp [hm.length], ?_, hm.grounded, ?_, hm.base_eq, hm.scratch, hm.undo,
    (rankAt_set hi).symm ▸ hm.keeps, hm.nodup, ?_, ?_, ?_, ?_, hm.heap⟩
  · intro j e v hj
    rcases (getElem?_set_cases hi).1 hj with ⟨-, hj⟩ | ⟨rfl, heq⟩
    · exact hm.record j e v hj
    · obtain ⟨rfl, rfl⟩ := Prod.mk.inj heq
      exact hm.record i c .settled hi
  · intro j e v hj
    rcases (getElem?_set_cases hi).1 hj with ⟨-, hj⟩ | ⟨rfl, heq⟩
    · exact hm.chains j e v hj
    · obtain ⟨rfl, rfl⟩ := Prod.mk.inj heq
      exact hm.chains i c .settled hi
  · intro j hj
    obtain ⟨e, v, he, hv⟩ := hm.records_in j hj
    refine ⟨e, v, (getElem?_set_cases hi).2 (Or.inl ⟨?_, he⟩), hv⟩
    rintro rfl
    obtain ⟨-, rfl⟩ := Prod.mk.inj (Option.some.inj (hi.symm.trans he))
    rcases hv with hv | hv <;> cases hv
  · intro j hj
    obtain ⟨hne, e, he⟩ := hm.walks_in j hj
    exact ⟨by simp, e, (getElem?_set_cases hi).2 (Or.inl ⟨fun hij => hne (congrArg some hij), he⟩)⟩
  · intro j e hj
    rcases (getElem?_set_cases hi).1 hj with ⟨-, hj⟩ | ⟨-, heq⟩
    · exact hm.waits j e hj
    · cases (Prod.mk.inj heq).2
  · intro j e hj
    rcases (getElem?_set_cases hi).1 hj with ⟨hij, hj⟩ | ⟨-, heq⟩
    · exact (hm.settles j e hj).imp (fun h => absurd (Option.some.inj h) hij) id
    · cases (Prod.mk.inj heq).2

/-- **A settled record's walk is queued.** -/
lemma Mirrors.pushWalk (hm : Mirrors s cost base start run st level (some i))
    (hi : st[i]? = some (c, .settled)) (hlevel : rank s cost base c.visits = level) :
    Mirrors s cost base start { run with
      frontier := run.frontier.pushWalk i (total s cost base c.visits) (edges c.visits).length }
      st level none := by
  have hrank : rankAt s cost base st i = rank s cost base c.visits := rankAt_eq hi
  obtain ⟨hkeeps, hperm, -⟩ := Frontier.pushWalk_spec (i := i) hm.keeps hrank (hrank.trans hlevel)
  have hmem : ∀ e, e ∈ (run.frontier.pushWalk i (total s cost base c.visits)
      (edges c.visits).length).entries ↔ e = (i, true) ∨ e ∈ run.frontier.entries :=
    fun e => hperm.mem_iff.trans List.mem_cons
  refine ⟨hm.length, hm.record, hm.grounded, hm.chains, hm.base_eq, hm.scratch, hm.undo, hkeeps, ?_, ?_,
    ?_, ?_, ?_, ?_⟩
  · rw [hperm.nodup_iff, List.nodup_cons]
    exact ⟨fun h => (hm.walks_in i h).1 rfl, hm.nodup⟩
  · intro j hj
    rcases (hmem _).1 hj with heq | hj
    · cases (Prod.mk.inj heq).2
    · exact hm.records_in j hj
  · intro j hj
    rcases (hmem _).1 hj with heq | hj
    · obtain ⟨rfl, -⟩ := Prod.mk.inj heq
      exact ⟨by simp, c, hi⟩
    · exact ⟨by simp, (hm.walks_in j hj).2⟩
  · intro j e hj
    exact (hmem _).2 (Or.inr (hm.waits j e hj))
  · intro j e hj
    rcases hm.settles j e hj with heq | h
    · exact Or.inr ((hmem _).2 (Or.inl (by rw [Option.some.inj heq])))
    · exact Or.inr ((hmem _).2 (Or.inr h))
  · intro h
    rw [Frontier.isHeap_pushWalk]
    exact hm.heap h

/-! ## Kinds -/

lemma Bests.set [DecidableEq α] {best : List (Key α × ℕ)} (hb : Bests s base best st)
    (hi : st[i]? = some (c, t)) (ht : t ≠ .replaced) (hu : u ≠ .replaced) :
    Bests s base best (st.set i (c, u)) := by
  intro hwalk key j
  rw [hb hwalk key j]
  constructor
  · rintro ⟨e, v, he, hv, hkey⟩
    by_cases hij : i = j
    · subst hij
      obtain ⟨rfl, rfl⟩ := Prod.mk.inj (Option.some.inj (hi.symm.trans he))
      exact ⟨c, u, (getElem?_set_cases hi).2 (Or.inr ⟨rfl, rfl⟩), hu, hkey⟩
    · exact ⟨e, v, (getElem?_set_cases hi).2 (Or.inl ⟨hij, he⟩), hv, hkey⟩
  · rintro ⟨e, v, he, hv, hkey⟩
    rcases (getElem?_set_cases hi).1 he with ⟨-, he⟩ | ⟨rfl, heq⟩
    · exact ⟨e, v, he, hv, hkey⟩
    · obtain ⟨rfl, rfl⟩ := Prod.mk.inj heq
      exact ⟨c, t, hi, ht, hkey⟩

/-- No product state is settled twice. -/
lemma kinds_of_bests [DecidableEq α] {best : List (Key α × ℕ)} {all : Finset (Key α)}
    (hwalk : s.automaton.mode = .walk) (hb : Bests s base best st)
    (hall : ∀ c t, (c, t) ∈ st → keyOf s base c ∈ all) : BestFirst.Kinds (keyOf s base) all st := by
  refine ⟨fun x hx => hall x.1 x.2 hx, ?_⟩
  rw [List.Nodup, List.pairwise_map, List.pairwise_filter, List.pairwise_iff_getElem]
  intro i j hi hj hlt hdone hdone' hkey
  have hne : ∀ x : Config × Status, BestFirst.isDone x = true → x.2 ≠ .replaced := by
    rintro ⟨c, t⟩ h rfl
    cases h
  have := hb.unique hwalk (List.getElem?_eq_getElem hi) (hne _ hdone) (List.getElem?_eq_getElem hj)
    (hne _ hdone') hkey
  omega

/-! ## Children -/

/-- Nothing goes on past the last position. -/
lemma moves_last {q k : ℕ} (h : q + 1 = s.automaton.states.length) : moves s.automaton q k = [] := by
  rw [moves, if_pos h]

lemma far_of_crosses (h : crosses s c = false) : s.automaton.farCandidates s.graph c = [] := by
  rw [PathAutomaton.farCandidates, List.flatMap_eq_nil_iff]
  intro m hm
  rw [crosses, List.any_eq_false] at h
  cases m with
  | same q k => rfl
  | edge l => exact absurd rfl (h _ hm)

/-- There is room for what a step across an edge costs. -/
lemma room_far {c d : Config} (hm : Mirrors s cost base start run st (rank s cost base c.visits) hole)
    (hd : d ∈ payable s cost base start c (s.automaton.farCandidates s.graph c)) :
    run.frontier.Room (rank s cost base c.visits) (rank s cost base d.visits) := by
  cases hcost : cost with
  | some p =>
      subst hcost
      exact Frontier.room_of_isHeap (hm.heap (by simp)) _ _
  | none =>
      subst hcost
      have hd' := (List.mem_filter.1 hd).1
      have hv := visits_child hd'
      obtain ⟨-, hmem, -⟩ := PathAutomaton.mem_passing.1 hd'
      obtain ⟨x, hx⟩ := PathAutomaton.via_far hmem
      have hprice : price s none base c.visits d.visit = 0 := rfl
      have hrank : rank s none base d.visits = Frontier.above (rank s none base c.visits) := by
        rw [hv, rank_concat, hprice, add_zero, hx]
        rfl
      rw [hrank]
      exact Frontier.room_above _ _

lemma room_near {c d : Config} (hs : s.automaton.Sound width true)
    (hmirror : s.graph.reverse.keys = s.graph.primary.keys) (hlen : base.length = width)
    (hd : d ∈ (space s cost base start).near c) :
    run.frontier.Room (rank s cost base c.visits) (rank s cost base d.visits) := by
  have hS : (space s cost base start).Lawful := space_lawful hs hmirror hlen
  have hcost : rank s cost base d.visits = rank s cost base c.visits := hS.near_cost hd
  rw [hcost]
  exact Frontier.room_self _ _

end

end Engine.Gql
