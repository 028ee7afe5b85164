import Sekejap.Gql.Frontier

/-!
# Records

A record of a selector search points to its predecessor.  The records from the start to one are the visits
of the configuration it stands for, and what is read off them is what its visits say: whether the mode
lets the path go on, the group elements, the path, and the row of a witness.

* **`chain_eq`** — a record comes after the records before it.
* **`revisits_eq`** — the mode is checked along the predecessors.
* **`emit_eq`** — a witness is the row of its match.
-/

open Collections (EntityId)

open Engine.Graph (EdgeId Keyspaces)

namespace Engine.Gql

variable {α : Type}

/-! ## Chains -/

section Chains

variable {records records' : List (Record α)} {r : Record α} {i p fuel : ℕ}

/-- The visit of a record. -/
def Record.visit (r : Record α) : Visit := ⟨r.state, r.node, r.via⟩

/-- Predecessors come before. -/
def Grounded (records : List (Record α)) : Prop :=
  ∀ (i : ℕ) (r : Record α), records[i]? = some r → ∀ p ∈ r.parent, p < i

lemma chainTo_eq (hg : Grounded records) (h : i < fuel) : chainTo records fuel i = chain records i := by
  induction i using Nat.strong_induction_on generalizing fuel with
  | _ i ih =>
      obtain ⟨fuel, rfl⟩ := Nat.exists_eq_succ_of_ne_zero (Nat.ne_zero_of_lt h)
      rw [chain, chainTo, chainTo]
      cases hr : records[i]? with
      | none => rfl
      | some r =>
          cases hp : r.parent with
          | none => simp only [hp]
          | some p =>
              have hlt := hg i r hr p hp
              simp only [hp]
              rw [ih p hlt (by omega), ih p hlt hlt]

/-- **A record comes after the records before it.** -/
lemma chain_eq (hg : Grounded records) (hr : records[i]? = some r) :
    chain records i = (r.parent.elim [] (chain records)) ++ [r] := by
  rw [chain, chainTo, hr]
  cases hp : r.parent with
  | none => simp only [hp, Option.elim_none]
  | some p =>
      simp only [hp, Option.elim_some]
      rw [chainTo_eq hg (hg i r hr p hp)]

/-- The records of one search are among those of another, their flags apart. -/
def Among (records records' : List (Record α)) : Prop :=
  ∀ (i : ℕ) (r : Record α), records[i]? = some r →
    ∃ r' : Record α, records'[i]? = some r' ∧ r'.visit = r.visit ∧ r'.parent = r.parent

lemma chain_among (hg : Grounded records) (hg' : Grounded records') (h : Among records records')
    (hi : i < records.length) :
    (chain records' i).map Record.visit = (chain records i).map Record.visit := by
  induction i using Nat.strong_induction_on with
  | _ i ih =>
      have hr := List.getElem?_eq_getElem hi
      obtain ⟨r', hr', hvisit, hparent⟩ := h i _ hr
      rw [chain_eq hg hr, chain_eq hg' hr', hparent, List.map_append, List.map_append]
      congr 1
      · cases hp : records[i].parent with
        | none => rfl
        | some p =>
            have hlt := hg i _ hr p hp
            exact ih p hlt (hlt.trans hi)
      · rw [List.map_singleton, List.map_singleton, hvisit]

lemma among_append (records : List (Record α)) (r : Record α) : Among records (records ++ [r]) := by
  intro i x hx
  refine ⟨x, ?_, rfl, rfl⟩
  rw [List.getElem?_append_left (List.getElem?_eq_some_iff.1 hx).1, hx]

lemma among_set {x y : Record α} (hx : records[i]? = some x) (hvisit : y.visit = x.visit)
    (hparent : y.parent = x.parent) : Among records (records.set i y) := by
  intro j r hr
  by_cases hij : i = j
  · subst hij
    obtain rfl := Option.some.inj (hx.symm.trans hr)
    have hlt := (List.getElem?_eq_some_iff.1 hx).1
    exact ⟨y, by simp [hlt], hvisit, hparent⟩
  · exact ⟨r, by rw [List.getElem?_set_ne hij, hr], rfl, rfl⟩

lemma Grounded.append (hg : Grounded records) (h : ∀ p ∈ r.parent, p < records.length) :
    Grounded (records ++ [r]) := by
  intro i x hx p hp
  rcases lt_trichotomy i records.length with hlt | rfl | hgt
  · rw [List.getElem?_append_left hlt] at hx
    exact hg i x hx p hp
  · rw [List.getElem?_append_right le_rfl, Nat.sub_self, List.getElem?_cons_zero] at hx
    obtain rfl := Option.some.inj hx
    exact h p hp
  · rw [List.getElem?_eq_none (by simp; omega)] at hx
    cases hx

lemma Grounded.set {x y : Record α} (hg : Grounded records) (hx : records[i]? = some x)
    (hparent : y.parent = x.parent) : Grounded (records.set i y) := by
  intro j r hr p hp
  by_cases hij : i = j
  · subst hij
    have hlt := (List.getElem?_eq_some_iff.1 hx).1
    rw [List.getElem?_set_self hlt] at hr
    obtain rfl := Option.some.inj hr
    exact hg i x hx p (hparent ▸ hp)
  · rw [List.getElem?_set_ne hij] at hr
    exact hg j r hr p hp

end Chains

/-! ## What is read off a chain -/

section Reading

variable {a : PathAutomaton} {g : Keyspaces} {records : List (Record α)} {rs : List (Record α)}
  {visits : List Visit} {start : EntityId} {e : EdgeId} {node : EntityId} {v : Visit}

lemma visits_nodes (h : (v :: visits).IsChain (a.Joined g)) :
    (∃ u ∈ v :: visits, u.node = node) ↔ node ∈ v.node :: arrived visits := by
  induction visits generalizing v with
  | nil => simp [arrived, eq_comm]
  | cons u visits ih =>
      rw [List.isChain_cons_cons] at h
      rw [List.exists_mem_cons_iff, ih h.2, List.mem_cons, List.mem_cons]
      cases hu : u.via with
      | some x =>
          have harrived : arrived (u :: visits) = u.node :: arrived visits := by simp [arrived, hu]
          rw [harrived, List.mem_cons, eq_comm]
      | none =>
          -- a visit that crosses no edge is on the node of the one before
          have hnode : u.node = v.node := by
            have hj := h.1
            rw [PathAutomaton.Joined, hu] at hj
            cases hjoint : a.joint v.q u.q with
            | none =>
                rw [hjoint] at hj
                exact hj
            | some step =>
                rw [hjoint] at hj
                exact hj.elim
          have harrived : arrived (u :: visits) = arrived visits := by simp [arrived, hu]
          rw [harrived, hnode, eq_comm (a := v.node), ← or_assoc, or_self]

lemma any_crosses (hv : rs.map Record.visit = visits) :
    (rs.any fun r => r.via.any fun x => decide (x.1 = e)) = true ↔ e ∈ edges visits := by
  subst hv
  simp only [List.any_eq_true, Option.any_eq_true, decide_eq_true_eq, edges, List.mem_filterMap,
    List.mem_map]
  constructor
  · rintro ⟨r, hr, x, hx, rfl⟩
    exact ⟨r.visit, ⟨r, hr, rfl⟩, by rw [Record.visit, hx]; rfl⟩
  · rintro ⟨_, ⟨r, hr, rfl⟩, he⟩
    obtain ⟨x, hx, rfl⟩ := Option.map_eq_some_iff.1 he
    exact ⟨r, hr, x, hx, rfl⟩

lemma any_stands (hv : rs.map Record.visit = ⟨0, start, none⟩ :: visits)
    (hchain : (⟨0, start, none⟩ :: visits).IsChain (a.Joined g)) :
    (rs.any fun r => decide (r.node = node)) = true ↔ node ∈ start :: arrived visits := by
  rw [← visits_nodes hchain, ← hv]
  simp only [List.any_eq_true, decide_eq_true_eq, List.mem_map]
  constructor
  · rintro ⟨r, hr, rfl⟩
    exact ⟨r.visit, ⟨r, hr, rfl⟩, rfl⟩
  · rintro ⟨_, ⟨r, hr, rfl⟩, rfl⟩
    exact ⟨r, hr, rfl⟩

/-- **The mode is checked along the predecessors.** -/
lemma revisits_eq {s : Setting α} {run : Selection α} {i : ℕ}
    (hv : (chain run.records i).map Record.visit = visits)
    (hfirst : ∃ rest, visits = ⟨0, start, none⟩ :: rest) (hchain : visits.IsChain (a.Joined g)) :
    run.revisits s i e node = revisits s.automaton.mode (pathOf start visits) e node := by
  obtain ⟨rest, rfl⟩ := hfirst
  unfold Selection.revisits Gql.revisits
  cases s.automaton.mode with
  | walk => rfl
  | trail => exact Bool.eq_iff_iff.2 ((any_crosses hv).trans hasEdge_pathOf.symm)
  | acyclic => exact Bool.eq_iff_iff.2 ((any_stands hv hchain).trans hasNode_pathOf.symm)

/-- The group elements of records are those of their visits. -/
lemma chainEvents_eq {before : Option (Record α)}
    (hchain : (rs.map Record.visit).IsChain (a.Joined g))
    (hfirst : ∀ r ∈ rs.head?, r.via.isSome → ∃ p, before = some p ∧ r.state = p.state + 1) :
    Selection.chainEvents a before rs = grouping ((rs.map Record.visit).flatMap a.bound) := by
  induction rs generalizing before with
  | nil => rfl
  | cons r rs ih =>
      have hrest : ∀ u ∈ rs.head?, u.via.isSome → ∃ p, some r = some p ∧ u.state = p.state + 1 := by
        intro u hu hvia
        refine ⟨r, rfl, ?_⟩
        cases rs with
        | nil => cases hu
        | cons w rs =>
            obtain rfl : w = u := Option.some.inj hu
            rw [List.map_cons, List.map_cons, List.isChain_cons_cons] at hchain
            have hjoint := PathAutomaton.via_isSome hchain.1
            rw [show w.visit.via = w.via from rfl, hvia, PathAutomaton.joint] at hjoint
            split_ifs at hjoint with hq
            · exact hq
            · cases hjoint
      have hstep : Selection.chainEvents a before (r :: rs)
          = grouping (a.bound r.visit) ++ Selection.chainEvents a (some r) rs := by
        cases hvia : r.via with
        | none => simp [Selection.chainEvents, PathAutomaton.bound, Record.visit, Visit.crossed, hvia]
        | some x =>
            obtain ⟨p, rfl, hq⟩ := hfirst r rfl (by rw [hvia]; rfl)
            simp [Selection.chainEvents, PathAutomaton.bound, Record.visit, Visit.crossed, hvia, hq]
      rw [hstep, List.map_cons, List.flatMap_cons, grouping_append,
        ih (List.isChain_of_isChain_cons hchain) hrest]

/-- The path of records is that of their visits. -/
lemma chainPath_eq (hv : rs.map Record.visit = ⟨0, start, none⟩ :: visits) :
    Selection.chainPath rs = some (pathOf start (⟨0, start, none⟩ :: visits)) := by
  cases rs with
  | nil => cases hv
  | cons r rs =>
      obtain ⟨hr, rfl⟩ := List.cons.inj hv
      have hnode : r.node = start := congrArg Visit.node hr
      rw [Selection.chainPath, hnode, pathOf, List.foldl_cons, List.foldl_map]
      rfl

end Reading

/-! ## Witnesses -/

section Emit

variable {s : Setting α} {width : ℕ} {base : Row α} {start : EntityId} {c : Config}

/-- The slots that a completed row gives lists and a path. -/
lemma value_completeRow {a : PathAutomaton} {row row' : Row α} {events : List (ℕ × Element)}
    {path : PathRef} (hlen : row.length = row'.length)
    (h : ∀ slot, slot ∉ a.groups → row.value slot = row'.value slot) :
    completeRow a row events path = completeRow a row' events path := by
  have hfold : ∀ (groups : List ℕ) (row row' : Row α), row.length = row'.length →
      (∀ slot, slot ∉ groups → row.value slot = row'.value slot) →
      groups.foldl (fun row slot => row.set slot (.list (elementsOf slot events))) row
        = groups.foldl (fun row slot => row.set slot (.list (elementsOf slot events))) row' := by
    intro groups
    induction groups with
    | nil =>
        intro row row' hlen h
        exact row_ext hlen fun slot => h slot List.not_mem_nil
    | cons g groups ih =>
        intro row row' hlen h
        rw [List.foldl_cons, List.foldl_cons]
        refine ih _ _ (by simp [hlen]) fun slot hslot => ?_
        by_cases hg : g < row.length
        · rw [value_set hg, value_set (hlen ▸ hg)]
          by_cases heq : g = slot
          · rw [if_pos heq, if_pos heq]
          · rw [if_neg heq, if_neg heq]
            exact h slot (by rw [List.mem_cons, not_or]; exact ⟨Ne.symm heq, hslot⟩)
        · rw [List.set_eq_of_length_le (not_lt.1 hg), List.set_eq_of_length_le (hlen ▸ not_lt.1 hg)]
          by_cases heq : g = slot
          · -- past the end of both rows
            subst heq
            have hg' : row'.length ≤ g := hlen ▸ not_lt.1 hg
            rw [Row.value, Row.value, List.getD_eq_getElem?_getD, List.getD_eq_getElem?_getD,
              List.getElem?_eq_none (not_lt.1 hg), List.getElem?_eq_none hg']
          · exact h slot (by rw [List.mem_cons, not_or]; exact ⟨Ne.symm heq, hslot⟩)
  rw [completeRow, completeRow, hfold a.groups row row' hlen h]

/-- Of what is no group, all that was bound is in scope. -/
lemma single_scope (a : PathAutomaton) (visits : List Visit) :
    PathAutomaton.single (a.scope visits) = PathAutomaton.single (visits.flatMap a.bound) := by
  induction visits using List.reverseRecOn with
  | nil => rfl
  | append_singleton visits v ih =>
      have hidem : ∀ l, PathAutomaton.single (PathAutomaton.single l) = PathAutomaton.single l := by
        intro l
        rw [PathAutomaton.single, PathAutomaton.single, List.filter_filter]
        simp only [Bool.and_self]
      have happend : ∀ l m, PathAutomaton.single (l ++ m)
          = PathAutomaton.single l ++ PathAutomaton.single m :=
        fun l m => List.filter_append l m
      rw [PathAutomaton.scope_concat, List.flatMap_append, List.flatMap_singleton, happend, happend]
      split_ifs
      · rw [ih]
      · rw [hidem, ih]

/-- At the last position a state carries what is bound to slots that are no groups. -/
lemma value_restored_last (hs : s.automaton.Sound width true)
    (hmirror : s.graph.reverse.keys = s.graph.primary.keys) (hlen : base.length = width)
    (hreach : s.automaton.Reached s.graph s.holds (s.automaton.view base) base start c)
    (hlast : c.visit.q + 1 = s.automaton.states.length) {slot : ℕ} (hslot : slot ∉ s.automaton.groups) :
    (s.automaton.restored base start c).value slot
      = (s.automaton.seen base c.visits).value slot := by
  have hinside : (s.automaton.insideOf c.visit.q).isSome = false := by
    rw [Bool.eq_false_iff, ne_eq, PathAutomaton.insideOf_isSome]
    rintro ⟨r, hr, -, hlt⟩
    have := (hs.repeats r hr).last_lt
    omega
  have hkept := kept_bound hs hlen c.visits
  rw [PathAutomaton.restored_eq hs hmirror hlen hreach, PathAutomaton.carry, hinside,
    if_neg Bool.false_ne_true, PathAutomaton.seen]
  -- what one row has and the other does not is in group slots, or written twice
  have hgroup : ∀ x ∈ c.visits.flatMap s.automaton.bound, x.1.group = true → x.1.slot ≠ slot := by
    rintro x hx hg rfl
    obtain ⟨v, -, hxv⟩ := List.mem_flatMap.1 hx
    have hb := mem_bindings_of_bound hxv
    refine hslot (hs.groups.symm.subset ?_)
    exact List.mem_map_of_mem (List.mem_filter.2 ⟨hb, hg⟩)
  rw [single_scope, PathAutomaton.single]
  refine (value_written_filter hkept.slots fun x hx hg => hgroup x hx ?_).symm
  simpa using hg

/-- **A witness is the row of its match.** -/
lemma emit_eq {run : Selection α} {index : ℕ} {accept : Record α} (hs : s.automaton.Sound width true)
    (hmirror : s.graph.reverse.keys = s.graph.primary.keys) (hlen : base.length = width)
    (hreach : s.automaton.Reached s.graph s.holds (s.automaton.view base) base start c)
    (hlast : c.visit.q + 1 = s.automaton.states.length)
    (hrecord : run.records[index]? = some accept) (hvisit : accept.visit = c.visit)
    (hbinds : accept.binds = s.automaton.keyValues (s.automaton.view base c.visits) c.visit.q)
    (hbase : run.base = s.automaton.view base [⟨0, start, none⟩])
    (hchain : (chain run.records index).map Record.visit = c.visits) :
    run.emit s index = s.automaton.result base start c.visits := by
  have hp := PathAutomaton.partly_of_reached hs hmirror hreach
  obtain ⟨rest, hrest⟩ := hp.first
  have hstate : accept.state = c.visit.q := congrArg Visit.q hvisit
  have hjoined := hp.joined
  rw [← hchain] at hjoined
  have hevents : Selection.chainEvents s.automaton none (chain run.records index)
      = s.automaton.events c.visits := by
    rw [chainEvents_eq hjoined, hchain]
    · rfl
    · intro r hr hvia
      -- the first visit crosses no edge
      have hhead : (chain run.records index).head?.map Record.visit = some ⟨0, start, none⟩ := by
        rw [← List.head?_map, hchain, hrest]
        rfl
      rw [hr, Option.map_some] at hhead
      have hnone : r.via = none := congrArg Visit.via (Option.some.inj hhead)
      rw [hnone] at hvia
      cases hvia
  rw [hrest] at hchain
  rw [Selection.emit, hrecord]
  simp only
  rw [chainPath_eq hchain, ← hrest, hevents, hstate, hbinds, hbase, PathAutomaton.result]
  refine value_completeRow ?_ fun slot hslot => ?_
  · rw [length_fill, PathAutomaton.view, PathAutomaton.seen, length_written, length_written]
  · exact value_restored_last hs hmirror hlen hreach hlast hslot

end Emit

end Engine.Gql
