import Sekejap.Gql.Records

/-!
# A selector search and its space

`Mirrors` relates a run of a selector search to what a best-first search of its space has found: a record
for each, with its flags; under `WALK` the best arrival of each product state; and on the frontier the
records that wait and the walks that are left.

* **`arrive_eq`** — an arrival tests a visit: it fails, has no price, or is kept.
* **`keep_spec`** — what is kept mirrors a step of the best-first search.
-/

open Collections (EntityId)

open Engine.Graph (EdgeId Keyspaces)

open BestFirst (Status Found Offer Offered)

namespace Engine.Gql

variable {α : Type} [DecidableEq α]

section

variable (s : Setting α) (cost : Option (Pricing α)) (base : Row α) (start : EntityId)

/-- Has settled, or been walked from. -/
def done (t : Status) : Bool := decide (t = .settled ∨ t = .walked)

/-- The record of a configuration. -/
def recordOf (c : Config) (t : Status) (parent : Option ℕ) : Record α where
  node := c.visit.node
  state := c.visit.q
  k := c.k
  parent := parent
  via := c.visit.via
  binds := s.automaton.keyValues (s.automaton.view base c.visits) c.visit.q
  cost := total s cost base c.visits
  hops := (edges c.visits).length
  settled := done t
  superseded := decide (t = .replaced)

/-- The costs of what has been found. -/
def rankAt (st : Found Config) (i : ℕ) : ℚ ×ₗ ℕ :=
  (st[i]?).elim (toLex (0, 0)) fun x => rank s cost base x.1.visits

/-- The best arrivals are those that have not been replaced. -/
def Bests (best : List (Key α × ℕ)) (st : Found Config) : Prop :=
  s.automaton.mode = .walk → ∀ key (i : ℕ), (best.find? fun b => decide (b.1 = key)).map Prod.snd = some i
    ↔ ∃ c t, st[i]? = some (c, t) ∧ t ≠ .replaced ∧ keyOf s base c = key

/-- **A run mirrors what has been found**; `hole` has been settled, and its walk has yet to be queued. -/
structure Mirrors (run : Selection α) (st : Found Config) (level : ℚ ×ₗ ℕ) (hole : Option ℕ) : Prop where
  length : run.records.length = st.length
  record : ∀ (i : ℕ) c t, st[i]? = some (c, t) → ∃ parent, run.records[i]? = some (recordOf s cost base c t parent)
  grounded : Grounded run.records
  chains : ∀ (i : ℕ) c t, st[i]? = some (c, t) → (chain run.records i).map Record.visit = c.visits
  base_eq : run.base = s.automaton.view base [⟨0, start, none⟩]
  scratch : run.scratch = run.base
  undo : run.undo = []
  keeps : run.frontier.Keeps (rankAt s cost base st) level
  nodup : run.frontier.entries.Nodup
  records_in : ∀ i : ℕ, (i, false) ∈ run.frontier.entries →
    ∃ c t, st[i]? = some (c, t) ∧ (t = .waiting ∨ t = .replaced)
  walks_in : ∀ i : ℕ, (i, true) ∈ run.frontier.entries → hole ≠ some i ∧ ∃ c, st[i]? = some (c, .settled)
  waits : ∀ (i : ℕ) c, st[i]? = some (c, .waiting) → (i, false) ∈ run.frontier.entries
  settles : ∀ (i : ℕ) c, st[i]? = some (c, .settled) → hole = some i ∨ (i, true) ∈ run.frontier.entries
  heap : cost ≠ none → run.frontier.isHeap = true

end

/-! ## Arriving -/

section Arriving

variable {s : Setting α} {cost : Option (Pricing α)} {width : ℕ} {base : Row α} {start : EntityId}
  {run : Selection α} {st : Found Config} {level : ℚ ×ₗ ℕ} {hole : Option ℕ} {c d : Config} {t : Status}
  {p k : ℕ} {v : Visit}

omit [DecidableEq α] in
/-- What the key slots held is written over the row of the start, and can be taken back. -/
lemma inherit_spec (x : Scratch α) (slots : List ℕ) (values : List (BindingValue α)) :
    (Selection.inherit x (slots.zip values)).row = PathAutomaton.fill x.row slots values
      ∧ Extends x (Selection.inherit x (slots.zip values)) := by
  rw [PathAutomaton.fill]
  generalize slots.zip values = l
  induction l generalizing x with
  | nil => exact ⟨rfl, Extends.refl x⟩
  | cons y l ih =>
      obtain ⟨slot, value⟩ := y
      rw [Selection.inherit, List.foldl_cons]
      obtain ⟨hrow, hext⟩ := ih ⟨x.row.set slot value, (slot, x.row.value slot) :: x.undo, x.events⟩
      have hset : Extends x ⟨x.row.set slot value, (slot, x.row.value slot) :: x.undo, x.events⟩ :=
        ⟨⟨[(slot, x.row.value slot)], rfl, Row.set_value x.row slot value⟩, List.suffix_refl _⟩
      exact ⟨hrow, hset.trans hext⟩

omit [DecidableEq α] in
/-- The price of a visit is asked over the row it leaves. -/
lemma tested_eq {before : List Visit} (admits : Bool) :
    Selection.tested cost admits (s.automaton.view base (before ++ [v])) v.via (total s cost base before)
      = if admits = false then .ok none
        else (priceOf s cost base before v).map fun q => some (total s cost base before + q) := by
  unfold Selection.tested priceOf
  split_ifs
  · rfl
  · cases cost with
    | none => simp [Except.map]
    | some p =>
        cases v.via with
        | none => simp [Except.map]
        | some x =>
            simp only
            cases p.edgeCost (p.cost (s.automaton.view base (before ++ [v]))) x.1 <;> rfl

/-- **An arrival** from a record. -/
lemma arrive_eq (hs : s.automaton.Sound width true)
    (hmirror : s.graph.reverse.keys = s.graph.primary.keys) (hlen : base.length = width)
    (hm : Mirrors s cost base start run st level hole) (hp : st[p]? = some (c, t))
    (hreach : s.automaton.Reached s.graph s.holds (s.automaton.view base) base start c)
    (hmem : (v, k) ∈ s.automaton.candidates s.graph c) :
    (¬ s.automaton.Passes s.holds (s.automaton.view base) base start c.visits v →
        run.arrive s cost (some p) v k = .ok run)
      ∧ (s.automaton.Passes s.holds (s.automaton.view base) base start c.visits v →
        run.arrive s cost (some p) v k = (priceOf s cost base c.visits v).map fun _ =>
          run.keep s (recordOf s cost base ⟨c.visits, v, k⟩ .waiting (some p))) := by
  have hpart := PathAutomaton.partly_of_reached hs hmirror hreach
  obtain ⟨parent, hrecord⟩ := hm.record p c t hp
  have hsucc := ((PathAutomaton.mem_candidates hs hmirror).1 hmem).1
  obtain ⟨hview, hiff⟩ := PathAutomaton.passes_iff hs hmirror hlen hreach hsucc
  have hrevisits : (Option.any (fun p => v.via.any fun x => run.revisits s p x.1 v.node) (some p))
      = v.via.any fun x => revisits s.automaton.mode (pathOf start c.visits) x.1 v.node := by
    rw [Option.any_some]
    refine congrArg (fun f => Option.any f v.via) (funext fun x => ?_)
    exact revisits_eq (hm.chains p c t hp) hpart.first hpart.joined
  have hallow := allows_concat (v := v) hpart.mode
  -- the row the visit is tested over
  set x : Scratch α := Selection.inherit ⟨run.scratch, run.undo, []⟩
    ((s.automaton.keySlots c.visit.q).zip
      (s.automaton.keyValues (s.automaton.view base c.visits) c.visit.q)) with hx
  obtain ⟨hrow, hext⟩ := inherit_spec ⟨run.scratch, run.undo, []⟩ (s.automaton.keySlots c.visit.q)
    (s.automaton.keyValues (s.automaton.view base c.visits) c.visit.q)
  have hrow : x.row = s.automaton.restored base start c := by
    rw [hx, hrow, PathAutomaton.restored, hm.scratch, hm.base_eq]
  obtain ⟨hadmits, hleft⟩ := admitted_binds s.automaton s.holds x v
  rw [hrow] at hadmits hleft
  obtain ⟨hback, -⟩ := restore_extends (hext.trans (restore_admitted s.automaton s.holds x v))
  rw [hm.undo, List.length_nil] at hback
  have hrestored : ∀ r : Bool × Scratch α, r = admitted s.automaton s.holds x v.q v.node v.crossed →
      (⟨run.base, (restore r.2.row r.2.undo 0).1, (restore r.2.row r.2.undo 0).2, run.records, run.best,
        run.frontier, run.ends, run.fixed⟩ : Selection α) = run := by
    rintro r rfl
    rw [hback]
    obtain ⟨_, _, _, _, _, _, _, _⟩ := run
    simp only [Selection.mk.injEq, true_and, and_true]
    exact hm.undo.symm
  have harrive : run.arrive s cost (some p) v k
      = if (v.via.any fun x => revisits s.automaton.mode (pathOf start c.visits) x.1 v.node) = true then
          .ok run
        else
          (Selection.tested cost (admitted s.automaton s.holds x v.q v.node v.crossed).1
            (admitted s.automaton s.holds x v.q v.node v.crossed).2.row v.via
            (total s cost base c.visits)).bind fun tested =>
              tested.elim (.ok run) fun tot => .ok (run.keep s
                { node := v.node
                  state := v.q
                  k
                  parent := some p
                  via := v.via
                  binds := s.automaton.keyValues
                    (admitted s.automaton s.holds x v.q v.node v.crossed).2.row v.q
                  cost := tot
                  hops := (edges c.visits).length + if v.via.isSome then 1 else 0
                  settled := false
                  superseded := false }) := by
    rw [Selection.arrive, hrevisits]
    by_cases h1 : (v.via.any fun x =>
      revisits s.automaton.mode (pathOf start c.visits) x.1 v.node) = true
    · rw [if_pos h1, if_pos h1]
      rfl
    · rw [if_neg h1, if_neg h1]
      simp only [Option.bind_some, hrecord]
      rw [show (recordOf s cost base c t parent).state = c.visit.q from rfl,
        show (recordOf s cost base c t parent).binds
          = s.automaton.keyValues (s.automaton.view base c.visits) c.visit.q from rfl, ← hx]
      simp only [Option.isNone_some, Bool.false_eq_true, false_and, if_false]
      rw [hrestored _ rfl]
      refine congrArg (Except.bind _) (funext fun tested => ?_)
      cases tested <;> rfl
  rw [harrive]
  constructor
  · intro hp
    by_cases hr : (v.via.any fun x => revisits s.automaton.mode (pathOf start c.visits) x.1 v.node) = true
    · rw [if_pos hr]
    · rw [if_neg hr]
      rw [Bool.not_eq_true] at hr
      have hno : (admitted s.automaton s.holds x v.q v.node v.crossed).1 = false := by
        rw [← Bool.not_eq_true, hadmits]
        rintro ⟨h1, h2, h3⟩
        exact hp (hiff.2 ⟨h1, hallow.2 hr, h2, h3⟩)
      rw [hno]
      rfl
  · intro hp
    obtain ⟨h1, h2, h3, h4⟩ := hiff.1 hp
    have hyes := hadmits.2 ⟨h1, h3, h4⟩
    rw [if_neg (by rw [hallow.1 h2]; simp), hyes, (hleft hyes).1, ← hview, tested_eq,
      if_neg (by decide)]
    cases hq : priceOf s cost base c.visits v with
    | error e => rfl
    | ok q =>
        have hedges : (edges c.visits).length + (if v.via.isSome then 1 else 0)
            = (edges (c.visits ++ [v])).length := by
          rw [edges_append, List.length_append]
          cases hvia : v.via <;> simp [edges, hvia]
        have htotal : total s cost base c.visits + q = total s cost base (c.visits ++ [v]) := by
          rw [total_concat, price_eq hq]
        rw [hedges]
        simp only [Except.map, Except.bind, htotal]
        rfl

end Arriving

/-! ## Keeping -/

section Keeping

variable {s : Setting α} {cost : Option (Pricing α)} {width : ℕ} {base : Row α} {start : EntityId}
  {run : Selection α} {st : Found Config} {level : ℚ ×ₗ ℕ} {hole parent : Option ℕ} {c d : Config}
  {t : Status} {i : ℕ} {owed : List Config} {best : List (Key α × ℕ)}

lemma getElem?_append_cases {x y : Config × Status} (h : (st ++ [x])[i]? = some y) :
    st[i]? = some y ∨ i = st.length ∧ x = y := by
  rcases lt_trichotomy i st.length with hlt | rfl | hgt
  · exact Or.inl (by rwa [List.getElem?_append_left hlt] at h)
  · rw [List.getElem?_append_right le_rfl, Nat.sub_self, List.getElem?_cons_zero] at h
    exact Or.inr ⟨rfl, Option.some.inj h⟩
  · rw [List.getElem?_eq_none (by simp; omega)] at h
    cases h

lemma getElem?_append_old {x y : Config × Status} (h : st[i]? = some y) : (st ++ [x])[i]? = some y := by
  rw [List.getElem?_append_left (List.getElem?_eq_some_iff.1 h).1, h]

omit [DecidableEq α] in
lemma rankAt_eq (h : st[i]? = some (c, t)) : rankAt s cost base st i = rank s cost base c.visits := by
  rw [rankAt, h]
  rfl

omit [DecidableEq α] in
lemma Mirrors.lt (hm : Mirrors s cost base start run st level hole) {e : ℕ × Bool}
    (he : e ∈ run.frontier.entries) : e.1 < st.length := by
  obtain ⟨i, walk⟩ := e
  cases walk with
  | false =>
      obtain ⟨c, t, hi, -⟩ := hm.records_in i he
      exact (List.getElem?_eq_some_iff.1 hi).1
  | true =>
      obtain ⟨-, c, hi⟩ := hm.walks_in i he
      exact (List.getElem?_eq_some_iff.1 hi).1

/-- What a new record comes from. -/
structure From (st : Found Config) (parent : Option ℕ) (d : Config) : Prop where
  before : ∀ p ∈ parent, ∃ c t, st[p]? = some (c, t) ∧ d.visits = c.visits ++ [d.visit]
  first : parent = none → d.visits = [d.visit]

omit [DecidableEq α] in
/-- **A record is queued.** -/
lemma Mirrors.queue (hm : Mirrors s cost base start run st level hole) (best : List (Key α × ℕ))
    (hfrom : From st parent d)
    (hroom : run.frontier.Room level (rank s cost base d.visits)) :
    Mirrors s cost base start { run with
      records := run.records ++ [recordOf s cost base d .waiting parent]
      frontier := run.frontier.push run.records.length (total s cost base d.visits) (edges d.visits).length
      best := best } (st ++ [(d, .waiting)]) level hole
    ∧ ∀ r, (run.frontier.push run.records.length (total s cost base d.visits)
      (edges d.visits).length).Room level r ↔ run.frontier.Room level r := by
  have hlen := hm.length
  have hparent : ∀ p ∈ parent, p < run.records.length := by
    intro p hp
    obtain ⟨c, t, hc, -⟩ := hfrom.before p hp
    rw [hlen]
    exact (List.getElem?_eq_some_iff.1 hc).1
  have hgrounded : Grounded (run.records ++ [recordOf s cost base d .waiting parent]) :=
    hm.grounded.append hparent
  have hchain : ∀ j < run.records.length,
      (chain (run.records ++ [recordOf s cost base d .waiting parent]) j).map Record.visit
        = (chain run.records j).map Record.visit := fun j hj =>
    chain_among hm.grounded hgrounded (among_append _ _) hj
  have hlast : (st ++ [(d, Status.waiting)])[run.records.length]? = some (d, .waiting) := by
    rw [hlen, List.getElem?_append_right le_rfl, Nat.sub_self, List.getElem?_cons_zero]
  have hrank : rankAt s cost base (st ++ [(d, .waiting)]) run.records.length
      = rank s cost base d.visits := rankAt_eq hlast
  have hkeeps : run.frontier.Keeps (rankAt s cost base (st ++ [(d, .waiting)])) level := by
    refine hm.keeps.congr fun e he => ?_
    rw [rankAt, rankAt, List.getElem?_append_left (hm.lt he)]
  obtain ⟨hpush, hentries, hsame⟩ := Frontier.push_spec (i := run.records.length) hkeeps hrank
    (hrank ▸ hroom)
  have hmem : ∀ e, e ∈ (run.frontier.push run.records.length (total s cost base d.visits)
      (edges d.visits).length).entries ↔ e = (run.records.length, false) ∨ e ∈ run.frontier.entries :=
    fun e => hentries.mem_iff.trans List.mem_cons
  refine ⟨⟨by simp [hlen], ?_, hgrounded, ?_, hm.base_eq, hm.scratch, hm.undo, hpush, ?_, ?_, ?_, ?_, ?_,
    ?_⟩, hsame⟩
  · intro j c t hj
    rcases getElem?_append_cases hj with hj | ⟨rfl, heq⟩
    · obtain ⟨parent', hr⟩ := hm.record j c t hj
      refine ⟨parent', ?_⟩
      rw [List.getElem?_append_left (List.getElem?_eq_some_iff.1 hr).1, hr]
    · obtain ⟨rfl, rfl⟩ := Prod.mk.inj heq
      refine ⟨parent, ?_⟩
      rw [← hlen, List.getElem?_append_right le_rfl, Nat.sub_self, List.getElem?_cons_zero]
  · intro j c t hj
    rcases getElem?_append_cases hj with hj | ⟨rfl, heq⟩
    · rw [hchain j (hlen ▸ (List.getElem?_eq_some_iff.1 hj).1), hm.chains j c t hj]
    · obtain ⟨rfl, rfl⟩ := Prod.mk.inj heq
      rw [chain_eq (r := recordOf s cost base d .waiting parent) hgrounded
        (by rw [← hlen, List.getElem?_append_right le_rfl, Nat.sub_self, List.getElem?_cons_zero])]
      cases hp : parent with
      | none => exact (hfrom.first hp).symm
      | some p =>
          obtain ⟨c, t, hc, hvisits⟩ := hfrom.before p hp
          have hchainp := hchain p (hparent p hp)
          rw [hp] at hchainp
          rw [hvisits, ← hm.chains p c t hc, ← hchainp, List.map_append]
          rfl
  · rw [hentries.nodup_iff, List.nodup_cons]
    refine ⟨fun hin => ?_, hm.nodup⟩
    have := hm.lt hin
    omega
  · intro j hj
    rcases (hmem _).1 hj with heq | hj
    · obtain ⟨rfl, -⟩ := Prod.mk.inj heq
      exact ⟨d, .waiting, hlast, Or.inl rfl⟩
    · obtain ⟨c, t, hc, ht⟩ := hm.records_in j hj
      exact ⟨c, t, getElem?_append_old hc, ht⟩
  · intro j hj
    rcases (hmem _).1 hj with heq | hj
    · cases (Prod.mk.inj heq).2
    · obtain ⟨hne, c, hc⟩ := hm.walks_in j hj
      exact ⟨hne, c, getElem?_append_old hc⟩
  · intro j c hj
    rcases getElem?_append_cases hj with hj | ⟨rfl, -⟩
    · exact (hmem _).2 (Or.inr (hm.waits j c hj))
    · exact (hmem _).2 (Or.inl (by rw [hlen]))
  · intro j c hj
    rcases getElem?_append_cases hj with hj | ⟨-, heq⟩
    · exact (hm.settles j c hj).imp_right fun h => (hmem _).2 (Or.inr h)
    · cases (Prod.mk.inj heq).2
  · intro hcost
    rw [Frontier.isHeap_push]
    exact hm.heap hcost

omit [DecidableEq α] in
/-- **A record that waits is replaced.** -/
lemma Mirrors.supersede {old : Record α} (hm : Mirrors s cost base start run st level hole)
    (best : List (Key α × ℕ))
    (hi : st[i]? = some (c, .waiting)) (hold : run.records[i]? = some old) :
    Mirrors s cost base start { run with
      records := run.records.set i { old with superseded := true }
      best := best } (st.set i (c, .replaced)) level hole := by
  obtain ⟨parent, hrecord⟩ := hm.record i c _ hi
  obtain rfl : recordOf s cost base c .waiting parent = old := Option.some.inj (hrecord.symm.trans hold)
  have hnew : ({ recordOf s cost base c .waiting parent with superseded := true } : Record α)
      = recordOf s cost base c .replaced parent := rfl
  rw [hnew]
  have hlt := (List.getElem?_eq_some_iff.1 hi).1
  have hltr := (List.getElem?_eq_some_iff.1 hold).1
  have hgrounded : Grounded (run.records.set i (recordOf s cost base c .replaced parent)) :=
    hm.grounded.set hold rfl
  have hset : ∀ j e t, (st.set i (c, .replaced))[j]? = some (e, t) →
      st[j]? = some (e, t) ∧ j ≠ i ∨ j = i ∧ (e, t) = (c, .replaced) := by
    intro j e t hj
    by_cases hij : i = j
    · subst hij
      rw [List.getElem?_set_self hlt] at hj
      exact Or.inr ⟨rfl, (Option.some.inj hj).symm⟩
    · rw [List.getElem?_set_ne hij] at hj
      exact Or.inl ⟨hj, Ne.symm hij⟩
  have hrank : ∀ j, rankAt s cost base (st.set i (c, .replaced)) j = rankAt s cost base st j := by
    intro j
    by_cases hij : i = j
    · subst hij
      rw [rankAt, rankAt, List.getElem?_set_self hlt, hi]
      rfl
    · rw [rankAt, rankAt, List.getElem?_set_ne hij]
  refine ⟨by simp [hm.length], ?_, hgrounded, ?_, hm.base_eq, hm.scratch, hm.undo,
    hm.keeps.congr fun e _ => hrank e.1, hm.nodup, ?_, ?_, ?_, ?_, hm.heap⟩
  · intro j e t hj
    rcases hset j e t hj with ⟨hj, hne⟩ | ⟨rfl, heq⟩
    · obtain ⟨parent', hr⟩ := hm.record j e t hj
      exact ⟨parent', by rw [List.getElem?_set_ne (Ne.symm hne), hr]⟩
    · obtain ⟨rfl, rfl⟩ := Prod.mk.inj heq
      exact ⟨parent, by rw [List.getElem?_set_self hltr]⟩
  · intro j e t hj
    have hmem : ∃ t', st[j]? = some (e, t') := by
      rcases hset j e t hj with ⟨hj, -⟩ | ⟨rfl, heq⟩
      · exact ⟨t, hj⟩
      · exact ⟨.waiting, by rw [(Prod.mk.inj heq).1, hi]⟩
    obtain ⟨t', hj'⟩ := hmem
    rw [chain_among hm.grounded hgrounded (among_set hold rfl rfl)
      (hm.length ▸ (List.getElem?_eq_some_iff.1 hj').1), hm.chains j e t' hj']
  · intro j hj
    obtain ⟨e, t, he, ht⟩ := hm.records_in j hj
    by_cases hij : i = j
    · subst hij
      exact ⟨c, .replaced, List.getElem?_set_self hlt, Or.inr rfl⟩
    · exact ⟨e, t, by rw [List.getElem?_set_ne hij, he], ht⟩
  · intro j hj
    obtain ⟨hne, e, he⟩ := hm.walks_in j hj
    have hij : i ≠ j := by
      rintro rfl
      rw [hi] at he
      cases (Prod.mk.inj (Option.some.inj he)).2
    exact ⟨hne, e, by rw [List.getElem?_set_ne hij, he]⟩
  · intro j e hj
    rcases hset j e _ hj with ⟨hj, -⟩ | ⟨-, heq⟩
    · exact hm.waits j e hj
    · cases (Prod.mk.inj heq).2
  · intro j e hj
    rcases hset j e _ hj with ⟨hj, -⟩ | ⟨-, heq⟩
    · exact hm.settles j e hj
    · cases (Prod.mk.inj heq).2

/-- The best arrival of a kind is a new one. -/
lemma Bests.cons {st' : Found Config} {n : ℕ} (hb : Bests s base best st)
    (h : ∀ j e t, st'[j]? = some (e, t) ∧ t ≠ .replaced
      ↔ (st[j]? = some (e, t) ∧ t ≠ .replaced) ∧ keyOf s base e ≠ keyOf s base d
        ∨ j = n ∧ e = d ∧ t = .waiting) :
    Bests s base ((keyOf s base d, n) :: best) st' := by
  intro hwalk key i
  by_cases hkey : keyOf s base d = key
  · subst hkey
    rw [List.find?_cons_of_pos (by simp), Option.map_some, Option.some.injEq]
    constructor
    · rintro rfl
      obtain ⟨h1, h2⟩ := (h n d .waiting).2 (Or.inr ⟨rfl, rfl, rfl⟩)
      exact ⟨d, .waiting, h1, h2, rfl⟩
    · rintro ⟨c, t, hc, ht, hkey⟩
      rcases (h i c t).1 ⟨hc, ht⟩ with ⟨-, hne⟩ | ⟨rfl, -⟩
      · exact absurd hkey hne
      · rfl
  · rw [List.find?_cons_of_neg (by simpa using hkey), hb hwalk]
    constructor
    · rintro ⟨c, t, hc, ht, rfl⟩
      obtain ⟨h1, h2⟩ := (h i c t).2 (Or.inl ⟨⟨hc, ht⟩, Ne.symm hkey⟩)
      exact ⟨c, t, h1, h2, rfl⟩
    · rintro ⟨c, t, hc, ht, rfl⟩
      rcases (h i c t).1 ⟨hc, ht⟩ with ⟨⟨h1, h2⟩, -⟩ | ⟨-, rfl, -⟩
      · exact ⟨c, t, h1, h2, rfl⟩
      · exact absurd rfl hkey

/-- Two of a kind that have not been replaced are one. -/
lemma Bests.unique {j : ℕ} {e : Config} {u : Status} (hb : Bests s base best st)
    (hwalk : s.automaton.mode = .walk) (hi : st[i]? = some (c, t)) (ht : t ≠ .replaced)
    (hj : st[j]? = some (e, u)) (hu : u ≠ .replaced) (hkey : keyOf s base c = keyOf s base e) : i = j := by
  have h1 := (hb hwalk (keyOf s base c) i).2 ⟨c, t, hi, ht, rfl⟩
  have h2 := (hb hwalk (keyOf s base c) j).2 ⟨e, u, hj, hu, hkey.symm⟩
  exact Option.some.inj (h1.symm.trans h2)

/-- The first of its kind is the best of it. -/
lemma Bests.first (hb : Bests s base best st) (hwalk : s.automaton.mode = .walk)
    (hfind : best.find? (fun b => decide (b.1 = keyOf s base d)) = none) :
    Bests s base ((keyOf s base d, st.length) :: best) (st ++ [(d, .waiting)]) := by
  have hnone : ∀ (j : ℕ) e t, st[j]? = some (e, t) → t ≠ Status.replaced →
      keyOf s base e ≠ keyOf s base d := by
    intro j e t hj ht hkey
    have := (hb hwalk (keyOf s base d) j).2 ⟨e, t, hj, ht, hkey⟩
    rw [hfind] at this
    cases this
  refine hb.cons fun j e t => ⟨?_, ?_⟩
  · rintro ⟨hj, ht⟩
    rcases getElem?_append_cases hj with hj | ⟨rfl, heq⟩
    · exact Or.inl ⟨⟨hj, ht⟩, hnone j e t hj ht⟩
    · obtain ⟨rfl, rfl⟩ := Prod.mk.inj heq
      exact Or.inr ⟨rfl, rfl, rfl⟩
  · rintro (⟨⟨hj, ht⟩, -⟩ | ⟨rfl, rfl, rfl⟩)
    · exact ⟨getElem?_append_old hj, ht⟩
    · refine ⟨?_, by decide⟩
      rw [List.getElem?_append_right le_rfl, Nat.sub_self, List.getElem?_cons_zero]

/-- One that takes the place of the best of its kind is the best of it. -/
lemma Bests.again (hb : Bests s base best st) (hwalk : s.automaton.mode = .walk)
    (hi : st[i]? = some (c, .waiting)) (hkey : keyOf s base c = keyOf s base d) :
    Bests s base ((keyOf s base d, st.length) :: best) (st.set i (c, .replaced) ++ [(d, .waiting)]) := by
  have hlt := (List.getElem?_eq_some_iff.1 hi).1
  refine hb.cons fun j e t => ⟨?_, ?_⟩
  · rintro ⟨hj, ht⟩
    rcases getElem?_append_cases hj with hj | ⟨rfl, heq⟩
    · by_cases hij : i = j
      · subst hij
        rw [List.getElem?_set_self hlt] at hj
        exact absurd (Prod.mk.inj (Option.some.inj hj)).2.symm ht
      · rw [List.getElem?_set_ne hij] at hj
        refine Or.inl ⟨⟨hj, ht⟩, fun hke => hij ?_⟩
        exact hb.unique hwalk hi (by decide) hj ht (hkey.trans hke.symm)
    · obtain ⟨rfl, rfl⟩ := Prod.mk.inj heq
      exact Or.inr ⟨List.length_set, rfl, rfl⟩
  · rintro (⟨⟨hj, ht⟩, hne⟩ | ⟨rfl, rfl, rfl⟩)
    · have hij : i ≠ j := by
        rintro rfl
        obtain ⟨rfl, -⟩ := Prod.mk.inj (Option.some.inj (hi.symm.trans hj))
        exact hne hkey
      exact ⟨getElem?_append_old (by rw [List.getElem?_set_ne hij, hj]), ht⟩
    · refine ⟨?_, by decide⟩
      rw [← List.length_set (i := i) (a := (c, Status.replaced)), List.getElem?_append_right le_rfl,
        Nat.sub_self, List.getElem?_cons_zero]

/-- What a record comes from does not depend on how far it has been taken. -/
lemma From.set {t u : Status} (h : From st parent d) (hi : st[i]? = some (c, t)) :
    From (st.set i (c, u)) parent d := by
  refine ⟨fun p hp => ?_, h.first⟩
  obtain ⟨e, v, he, hvisits⟩ := h.before p hp
  by_cases hip : i = p
  · subst hip
    obtain ⟨rfl, -⟩ := Prod.mk.inj (Option.some.inj (hi.symm.trans he))
    exact ⟨c, u, List.getElem?_set_self (List.getElem?_eq_some_iff.1 hi).1, hvisits⟩
  · exact ⟨e, v, by rw [List.getElem?_set_ne hip, he], hvisits⟩

/-- The run in which a record waits at the end of the list, under the given table of the best. -/
def Selection.queued (run : Selection α) (r : Record α) (best : List (Key α × ℕ)) : Selection α :=
  { run with
    records := run.records ++ [r]
    frontier := run.frontier.push run.records.length r.cost r.hops
    best := best }

/-- Without `WALK` every arrival is kept. -/
lemma keep_of_not_walk (hwalk : ¬s.automaton.mode = .walk) :
    run.keep s (recordOf s cost base d .waiting parent)
      = run.queued (recordOf s cost base d .waiting parent) run.best := by
  rw [Selection.keep, if_neg hwalk]
  rfl

/-- Under `WALK` the first of its kind is kept. -/
lemma keep_first (hwalk : s.automaton.mode = .walk)
    (hfind : run.best.find? (fun b => decide (b.1 = keyOf s base d)) = none) :
    run.keep s (recordOf s cost base d .waiting parent)
      = run.queued (recordOf s cost base d .waiting parent)
        ((keyOf s base d, run.records.length) :: run.best) := by
  have hfind' : run.best.find? (fun b => decide (b.1 = ((recordOf s cost base d .waiting parent).node,
      (recordOf s cost base d .waiting parent).state, (recordOf s cost base d .waiting parent).k,
      (recordOf s cost base d .waiting parent).binds))) = none := hfind
  rw [Selection.keep, if_pos hwalk]
  simp only
  rw [hfind']
  rfl

/-- Under `WALK` one of a kind that has been met is kept in the place of the best of it, unless that is
settled or costs no more. -/
lemma keep_again {x : Key α × ℕ} {old : Record α} (hwalk : s.automaton.mode = .walk)
    (hfind : run.best.find? (fun b => decide (b.1 = keyOf s base d)) = some x)
    (hold : run.records[x.2]? = some old) :
    run.keep s (recordOf s cost base d .waiting parent)
      = if old.settled ∨ old.cost < total s cost base d.visits
            ∨ old.cost = total s cost base d.visits ∧ old.hops ≤ (edges d.visits).length then run
        else { run with
          records := run.records.set x.2 { old with superseded := true }
            ++ [recordOf s cost base d .waiting parent]
          frontier := run.frontier.push run.records.length (total s cost base d.visits)
            (edges d.visits).length
          best := (keyOf s base d, run.records.length) :: run.best } := by
  have hfind' : run.best.find? (fun b => decide (b.1 = ((recordOf s cost base d .waiting parent).node,
      (recordOf s cost base d .waiting parent).state, (recordOf s cost base d .waiting parent).k,
      (recordOf s cost base d .waiting parent).binds))) = some x := hfind
  rw [Selection.keep, if_pos hwalk]
  simp only
  rw [hfind']
  simp only [hold]
  rfl

omit [DecidableEq α] in
/-- A record that is settled, or is no worse than the arrival, costs no more. -/
lemma rank_le_of_kept {parent' : Option ℕ} {t : Status}
    (hI : BestFirst.Inv (space s cost base start) st level (d :: owed)) (hmem : (c, t) ∈ st)
    (hold : (recordOf s cost base c t parent').settled
      ∨ (recordOf s cost base c t parent').cost < total s cost base d.visits
      ∨ (recordOf s cost base c t parent').cost = total s cost base d.visits
        ∧ (recordOf s cost base c t parent').hops ≤ (edges d.visits).length) :
    rank s cost base c.visits ≤ rank s cost base d.visits := by
  have hcostd := (hI.owing d List.mem_cons_self).2
  rcases hold with hsettled | hlt | ⟨heq, hle⟩
  · have hdone : t = .settled ∨ t = .walked := by
      simpa [recordOf, done] using hsettled
    rcases hdone with rfl | rfl
    · exact (hI.settled c hmem).trans_le hcostd
    · exact (hI.walked c hmem).trans hcostd
  · exact Prod.Lex.toLex_le_toLex.2 (Or.inl hlt)
  · exact Prod.Lex.toLex_le_toLex.2 (Or.inr ⟨heq, hle⟩)

omit [DecidableEq α] in
/-- One that is not yet settled nor replaced waits, and where it is worse the arrival costs no more. -/
lemma waiting_of_not_kept {parent' : Option ℕ} {t : Status} (ht : t ≠ .replaced)
    (hold : ¬((recordOf s cost base c t parent').settled
      ∨ (recordOf s cost base c t parent').cost < total s cost base d.visits
      ∨ (recordOf s cost base c t parent').cost = total s cost base d.visits
        ∧ (recordOf s cost base c t parent').hops ≤ (edges d.visits).length)) :
    t = .waiting ∧ rank s cost base d.visits ≤ rank s cost base c.visits := by
  simp only [not_or, not_lt, not_and, not_le] at hold
  obtain ⟨hnot, hle, hhops⟩ := hold
  constructor
  · cases t with
    | waiting => rfl
    | replaced => exact absurd rfl ht
    | settled => exact absurd rfl hnot
    | walked => exact absurd rfl hnot
  · refine Prod.Lex.toLex_le_toLex.2 ?_
    rcases hle.lt_or_eq with hlt | heq
    · exact Or.inl hlt
    · exact Or.inr ⟨heq, (hhops heq.symm).le⟩

/-- **What an arrival is kept as** mirrors a step of the search. -/
lemma keep_spec (hm : Mirrors s cost base start run st level hole) (hb : Bests s base run.best st)
    (hI : BestFirst.Inv (space s cost base start) st level (d :: owed)) (hfrom : From st parent d)
    (hroom : run.frontier.Room level (rank s cost base d.visits)) :
    ∃ st', Mirrors s cost base start (run.keep s (recordOf s cost base d .waiting parent)) st' level hole
      ∧ Bests s base (run.keep s (recordOf s cost base d .waiting parent)).best st'
      ∧ Offer (space s cost base start) (s.automaton.mode = .walk) st d st'
      ∧ (∀ r, (run.keep s (recordOf s cost base d .waiting parent)).frontier.Room level r
        ↔ run.frontier.Room level r)
      ∧ (run.keep s (recordOf s cost base d .waiting parent)).ends = run.ends
      ∧ (run.keep s (recordOf s cost base d .waiting parent)).fixed = run.fixed := by
  by_cases hwalk : s.automaton.mode = .walk
  swap
  · obtain ⟨h1, h2⟩ := hm.queue run.best hfrom hroom
    rw [keep_of_not_walk hwalk]
    exact ⟨_, h1, fun h => absurd h hwalk, .keep, h2, rfl, rfl⟩
  cases hfind : run.best.find? (fun b => decide (b.1 = keyOf s base d)) with
  | none =>
      obtain ⟨h1, h2⟩ := hm.queue ((keyOf s base d, run.records.length) :: run.best) hfrom hroom
      rw [keep_first hwalk hfind]
      exact ⟨_, h1, hm.length ▸ hb.first hwalk hfind, .keep, h2, rfl, rfl⟩
  | some x =>
      obtain ⟨c, t, hc, ht, hkey⟩ := (hb hwalk (keyOf s base d) x.2).1 (by rw [hfind]; rfl)
      obtain ⟨parent', hrecord⟩ := hm.record x.2 c t hc
      rw [keep_again hwalk hfind hrecord]
      split_ifs with hold
      · -- the one that is there stays
        have hmem := List.mem_of_getElem? hc
        exact ⟨st, hm, hb, .drop hwalk ⟨c, t, hmem, ht, Or.inr ⟨hwalk, hkey⟩, rank_le_of_kept hI hmem hold⟩,
          fun _ => Iff.rfl, rfl, rfl⟩
      · -- the arrival takes its place
        obtain ⟨rfl, hcost⟩ := waiting_of_not_kept ht hold
        obtain ⟨h1, h2⟩ := (hm.supersede run.best hc hrecord).queue
          ((keyOf s base d, run.records.length) :: run.best) (hfrom.set hc) hroom
        simp only [List.length_set] at h1 h2
        exact ⟨_, h1, hm.length ▸ hb.again hwalk hc hkey,
          .replace hwalk hc (Or.inr ⟨hwalk, hkey.symm⟩) hcost, h2, rfl, rfl⟩

end Keeping

end Engine.Gql
