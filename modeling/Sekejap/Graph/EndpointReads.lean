import Sekejap.Collections.Runs
import Sekejap.Graph.EndpointSets

/-!
# Reads of the endpoint sets

`edge_endpoints` answers from the set of a file that declares its sets, and by a walk over the edges of
one that does not.

* **`walk_eq_fromSet`** — where the sets are exact the two answers are the same, unless the walk runs
  out of the edges it may pass.
* **`edgeEndpoints_reachable`** — so they are in every state of a steady run.
-/

open Collections (EntityId)

open Fallible

namespace Engine.Graph

/-! ## Order -/

lemma EdgeId.source_le {e x : EdgeId} (h : e ≤ x) : e.key.source ≤ x.key.source := by
  change e.rank ≤ x.rank at h
  change entityRank e.key.source ≤ entityRank x.key.source
  simp only [EdgeId.rank, entityRank, Prod.Lex.toLex_le_toLex] at h ⊢
  rcases h with h | ⟨heq, h | ⟨heq', -⟩⟩
  · exact Or.inl h
  · exact Or.inr ⟨heq, h.le⟩
  · exact Or.inr ⟨heq, heq'.le⟩

/-- The sets of one (context, type, direction) are in the order of their entities. -/
lemma EndpointKey.entity_lt {k x : EndpointKey} (hc : k.context = x.context)
    (ht : k.edgeType = x.edgeType) (hd : k.dir = x.dir) (h : k < x) : k.entity < x.entity := by
  change k.rank < x.rank at h
  simpa [EndpointKey.rank, Prod.Lex.toLex_lt_toLex, hc, ht, hd] using h

lemma ascending_pairwise {α : Type} [LinearOrder α] (s : Finset α) : (ascending s).Pairwise (· < ·) :=
  Scan.take_pairwise s s.card none

/-! ## The walk -/

section

variable {context edgeType maxEdges maxIds : ℕ}

/-- The near ends of those postings that are of a (context, type). -/
def nearEnds (context edgeType : ℕ) (postings : Finset EdgeId) : Finset EntityId :=
  (postings.filter fun e => e.key.context = context ∧ e.key.edgeType = edgeType).image
    fun e => e.key.source

lemma mem_nearEnds {postings : Finset EdgeId} {id : EntityId} :
    id ∈ nearEnds context edgeType postings ↔ ∃ e ∈ postings, e.key.context = context
      ∧ e.key.edgeType = edgeType ∧ e.key.source = id := by
  simp [nearEnds, and_assoc]

/-- A filter that drops an element makes a set smaller. -/
lemma card_filter_lt_of_not {α : Type} {s : Finset α} {a : α} {p : α → Prop} [DecidablePred p]
    (ha : a ∈ s) (hp : ¬ p a) : (s.filter p).card < s.card :=
  Finset.card_lt_card (Finset.filter_ssubset.2 ⟨a, ha, hp⟩)

/-- **What the walk finds**: the near ends, or it runs out. -/
lemma walkEndpoints_spec (context edgeType maxEdges maxIds : ℕ) {fuel : ℕ}
    {postings : Finset EdgeId} (edges : ℕ) (out : List EntityId) (hfuel : postings.card ≤ fuel) (hout : out.length ≤ maxIds) :
    (∃ n, walkEndpoints context edgeType maxEdges maxIds fuel postings edges out
        = .error (.graphEdges maxEdges n))
      ∨ (maxIds < out.length + (nearEnds context edgeType postings).card
        ∧ walkEndpoints context edgeType maxEdges maxIds fuel postings edges out
          = .error (.graphVisited maxIds (maxIds + 1)))
      ∨ (out.length + (nearEnds context edgeType postings).card ≤ maxIds
        ∧ ∃ found, walkEndpoints context edgeType maxEdges maxIds fuel postings edges out
            = .ok (out ++ found) ∧ found.toFinset = nearEnds context edgeType postings) := by
  induction fuel generalizing postings edges out with
  | zero =>
      have hempty : postings = ∅ := by simpa using hfuel
      subst hempty
      exact Or.inr (Or.inr ⟨by simpa [nearEnds] using hout, [], by simp [walkEndpoints], by simp [nearEnds]⟩)
  | succ fuel ih =>
      rw [walkEndpoints]
      cases hnext : Scan.next postings none with
      | none =>
          have hempty : postings = ∅ := by
            rw [Finset.eq_empty_iff_forall_notMem]
            intro a ha
            exact Scan.next_eq_none_iff.1 hnext a ha (Scan.past_none a)
          subst hempty
          exact Or.inr (Or.inr ⟨by simpa [nearEnds] using hout, [], by simp, by simp [nearEnds]⟩)
      | some e =>
          obtain ⟨he, -, hleast⟩ := Scan.next_eq_some hnext
          dsimp only
          by_cases hedges : maxEdges < edges + 1
          · refine Or.inl ⟨edges + 1, ?_⟩
            rw [refuse, if_pos hedges]
            rfl
          rw [refuse, if_neg hedges]
          change (∃ n, (ite _ _ _ : Except Exceeded (List EntityId)) = _) ∨ _ ∧ ite _ _ _ = _
            ∨ _ ∧ ∃ found, ite _ _ _ = _ ∧ _
          by_cases hskip : e.key.context ≠ context ∨ e.key.edgeType ≠ edgeType
          · -- a posting of another type or context is passed
            rw [if_pos hskip]
            have hrest : nearEnds context edgeType (postings.filter fun x => e < x)
                = nearEnds context edgeType postings := by
              ext id
              simp only [mem_nearEnds, Finset.mem_filter]
              constructor
              · rintro ⟨x, ⟨hx, -⟩, hmatch⟩
                exact ⟨x, hx, hmatch⟩
              · rintro ⟨x, hx, hc, ht, hid⟩
                refine ⟨x, ⟨hx, (hleast x hx (Scan.past_none x)).lt_of_ne ?_⟩, hc, ht, hid⟩
                rintro rfl
                exact hskip.elim (fun h => h hc) fun h => h ht
            rw [← hrest]
            exact ih (edges + 1) out (Nat.le_of_lt_succ ((card_filter_lt_of_not he (lt_irrefl e)).trans_le hfuel)) hout
          · rw [if_neg hskip]
            rw [not_or, not_not, not_not] at hskip
            -- a match passes every posting of its entity
            have hrest : nearEnds context edgeType postings = insert e.key.source
                (nearEnds context edgeType (postings.filter fun x => e.key.source < x.key.source)) := by
              ext id
              simp only [Finset.mem_insert, mem_nearEnds, Finset.mem_filter]
              constructor
              · rintro ⟨x, hx, hc, ht, rfl⟩
                rcases (EdgeId.source_le (hleast x hx (Scan.past_none x))).eq_or_lt with heq | hlt
                · exact Or.inl heq.symm
                · exact Or.inr ⟨x, ⟨hx, hlt⟩, hc, ht, rfl⟩
              · rintro (rfl | ⟨x, ⟨hx, -⟩, hmatch⟩)
                · exact ⟨e, he, hskip.1, hskip.2, rfl⟩
                · exact ⟨x, hx, hmatch⟩
            have hnew : e.key.source
                ∉ nearEnds context edgeType (postings.filter fun x => e.key.source < x.key.source) := by
              simp only [mem_nearEnds, Finset.mem_filter, not_exists, not_and]
              rintro x ⟨-, hlt⟩ - - heq
              exact hlt.ne' heq
            have hcard := Finset.card_insert_of_notMem hnew
            rw [← hrest] at hcard
            by_cases hids : maxIds < out.length + 1
            · refine Or.inr (Or.inl ⟨by omega, ?_⟩)
              rw [refuse, if_pos hids]
              have : out.length = maxIds := by omega
              rw [this]
              rfl
            · rw [refuse, if_neg hids]
              have hlen : (out ++ [e.key.source]).length = out.length + 1 := by simp
              have hless := card_filter_lt_of_not he (p := fun x => e.key.source < x.key.source) (lt_irrefl _)
              have hrun := ih (edges + 1) (out ++ [e.key.source])
                (Nat.le_of_lt_succ (hless.trans_le hfuel)) (by omega)
              rcases hrun with hrun | ⟨hlt, hrun⟩ | ⟨hle, found, hrun, hfound⟩
              · exact Or.inl hrun
              · exact Or.inr (Or.inl ⟨by omega, hrun⟩)
              · refine Or.inr (Or.inr ⟨by omega, e.key.source :: found, ?_, ?_⟩)
                · refine hrun.trans ?_
                  rw [List.append_assoc]
                  rfl
                · rw [List.toFinset_cons, hfound, hrest]

/-! ## The two answers -/

variable {db : Database} {c : ℕ} {d : Dir}

/-- The near ends of a table's stretch are the entities of the set's keys. -/
lemma nearEnds_stretch (context edgeType c : ℕ) (d : Dir) (hm : db.graph.reverse.keys = db.graph.primary.keys)
    (he : db.graph.endpoints = db.graph.filed) :
    nearEnds context edgeType (db.stretch c d) = (db.graph.endpoints.filter fun k =>
      k.context = context ∧ k.edgeType = edgeType ∧ k.dir = d ∧ k.entity.collection = c).image
        EndpointKey.entity := by
  have hpost : db.graph.postings d = db.graph.primary.keys := by
    cases d with
    | out => rfl
    | into => exact hm
  ext id
  simp only [mem_nearEnds, Database.stretch, hpost, Finset.mem_filter, Finset.mem_image, he,
    Keyspaces.mem_filed, EdgeKey.mem_ends]
  constructor
  · rintro ⟨_, ⟨⟨e, hmem, rfl⟩, hc⟩, hctx, ht, rfl⟩
    refine ⟨e.key.endpoint d, ⟨⟨e, hmem, rfl⟩, ?_⟩, ?_⟩
    · cases d with
      | out => exact ⟨hctx, ht, rfl, hc⟩
      | into => exact ⟨hctx, ht, rfl, hc⟩
    · cases d with
      | out => rfl
      | into => rfl
  · rintro ⟨k, ⟨⟨e, hmem, hk⟩, rfl, rfl, rfl, hc⟩, rfl⟩
    refine ⟨e.toward k.dir, ⟨⟨e, hmem, rfl⟩, ?_⟩, ?_⟩
    · rw [← hk] at hc
      cases hd : k.dir with
      | out =>
          rw [hd] at hc
          exact hc
      | into =>
          rw [hd] at hc
          exact hc
    · rw [← hk]
      cases k.dir with
      | out => exact ⟨rfl, rfl, rfl⟩
      | into => exact ⟨rfl, rfl, rfl⟩

/-- **The set answers as the walk does**, unless the walk may not pass as many edges as it has to. -/
lemma walk_eq_fromSet (maxEdges maxIds : ℕ) (hm : db.graph.reverse.keys = db.graph.primary.keys)
    (he : db.graph.endpoints = db.graph.filed) :
    (∃ n, db.endpointsByWalk c context edgeType d maxEdges maxIds = .error (.graphEdges maxEdges n))
      ∨ db.endpointsByWalk c context edgeType d maxEdges maxIds
        = db.endpointsFromSet c context edgeType d maxIds := by
  have hnear := nearEnds_stretch context edgeType c d hm he
  rw [Database.endpointsByWalk, Database.endpointsFromSet]
  set keys := db.graph.endpoints.filter fun k =>
    k.context = context ∧ k.edgeType = edgeType ∧ k.dir = d ∧ k.entity.collection = c with hkeys
  have hsorted : ((ascending keys).map EndpointKey.entity).Pairwise (· < ·) := by
    rw [List.pairwise_map]
    refine (ascending_pairwise keys).imp_of_mem fun {k x} hk hx hlt => ?_
    rw [mem_ascending, hkeys, Finset.mem_filter] at hk hx
    exact EndpointKey.entity_lt (hk.2.1.trans hx.2.1.symm) (hk.2.2.1.trans hx.2.2.1.symm)
      (hk.2.2.2.1.trans hx.2.2.2.1.symm) hlt
  have hfinset : ((ascending keys).map EndpointKey.entity).toFinset
      = nearEnds context edgeType (db.stretch c d) := by
    rw [hnear]
    ext id
    simp
  have hlen : ((ascending keys).map EndpointKey.entity).length
      = (nearEnds context edgeType (db.stretch c d)).card := by
    rw [← hfinset, List.toFinset_card_of_nodup (hsorted.imp fun h => h.ne)]
  have hrun := walkEndpoints_spec context edgeType maxEdges maxIds 0 []
    (le_refl (db.stretch c d).card) (Nat.zero_le _)
  simp only [List.length_nil, Nat.zero_add, List.nil_append] at hrun
  rcases hrun with ⟨n, hrun⟩ | ⟨hlt, hrun⟩ | ⟨hle, found, hrun, hfound⟩
  · refine Or.inl ⟨n, ?_⟩
    rw [hrun]
    rfl
  · refine Or.inr ?_
    rw [hrun, refuse, if_pos (by omega)]
    rfl
  · refine Or.inr ?_
    rw [hrun, refuse, if_neg (by omega)]
    change Except.ok (ascending found.toFinset) = Except.ok _
    rw [Except.ok.injEq]
    refine List.Pairwise.eq_of_mem_iff (ascending_pairwise _) hsorted fun id => ?_
    rw [mem_ascending, hfound, ← hfinset, List.mem_toFinset]

end

/-! ## Every steady run -/

/-- **Endpoint sets are exact whenever they are declared.**  In every state of a run in which no edge
was put behind a backfill's cursor with a key that was not filed, and no filed key lost its last edge
while the backfill was under way: the keys of a file that declares its sets are those of its edges, and
`edge_endpoints`, which answers from them, answers as the walk over the edges does for as long as the
walk has edges to spend. -/
theorem edgeEndpoints_reachable {db : Database} (h : Reachable Steady db)
    (hf : db.tables.failed = false) (hs : db.graph.endpointFeature = true) :
    (∀ k, k ∈ db.graph.endpoints ↔ ∃ e ∈ db.graph.primary.keys, k = e.key.endpoint .out
        ∨ k = e.key.endpoint .into)
      ∧ ∀ c context edgeType d maxEdges maxIds,
        db.edgeEndpoints c context edgeType d maxEdges maxIds
            = db.endpointsByWalk c context edgeType d maxEdges maxIds
          ∨ ∃ n, db.endpointsByWalk c context edgeType d maxEdges maxIds
            = .error (.graphEdges maxEdges n) := by
  have hsets := h.setsInv.live hf
  have hexact := hsets.graph.exact hs
  refine ⟨fun k => ?_, fun c context edgeType d maxEdges maxIds => ?_⟩
  · rw [hexact, Keyspaces.mem_filed]
    simp [EdgeKey.ends]
  · rw [Database.edgeEndpoints, if_pos hs]
    rcases walk_eq_fromSet maxEdges maxIds hsets.graph.mirror hexact with hrun | hrun
    · exact Or.inr hrun
    · exact Or.inl hrun.symm

/-- An edge table's bag without a property. -/
def noBag : Json := ⟨.object [], .object (by simp) (by simp)⟩

/-- Of the first type, between two of the first table's rows. -/
def edge (a b : ℕ) : EdgeKey := ⟨⟨1, a⟩, 0, 1, ⟨1, b⟩⟩

/-- A binary from before the sets writes an edge; a newer one takes a first step of the backfill. -/
def olderRun : List Op :=
  [.call (.tables (.createCollection people)), .call (.tables (.insert plainCall 1 "ada" (age 36))),
    .call (.tables (.insert plainCall 1 "alan" (age 36))),
    .call (.tables (.insert plainCall 1 "kurt" (age 36))), .call .enableGraph,
    .call (.createGraphName .edgeType "knows"), .call (.putEdge (edge 2 3) noBag),
    .call (.tables .commit), .reopen true, .call (.backfillEndpointSets 1)]

/-- While a backfill is under way, only it goes on. -/
def quiet (db : Database) : List Op → Bool
  | [] => true
  | op :: ops =>
      (match op with
        | .call (.backfillEndpointSets _) => true
        | _ => db.endpointBackfillAt.isNone) && okAnd (db.perform op) fun db => quiet db ops

lemma Reachable.quiet {db db' : Database} {ops : List Op} (h : Reachable Steady db)
    (hq : Graph.quiet db ops = true) (hok : db.performs ops = .ok db') : Reachable Steady db' := by
  induction ops generalizing db with
  | nil =>
      cases hok
      exact h
  | cons op ops ih =>
      simp only [Database.performs, bind_eq_ok] at hok
      obtain ⟨db₁, hone, hrest⟩ := hok
      simp only [Graph.quiet, hone, okAnd, Bool.and_eq_true] at hq
      refine ih (.step h ?_ (.of_perform hone)) hq.2 hrest
      have hnone : ∀ r, (∀ budget, r ≠ .backfillEndpointSets budget) → op = .call r →
          db.endpointBackfillAt = none := by
        rintro r hr rfl
        cases r <;> simp_all
      cases op with
      | call r =>
          intro hf c hc
          by_cases hr : ∃ budget, r = .backfillEndpointSets budget
          · obtain ⟨budget, rfl⟩ := hr
            refine ⟨fun e _ hput => hput.elim, ?_⟩
            rintro e - ⟨id, hno, -⟩
            exact hno.elim
          · rw [hnone r (fun budget heq => hr ⟨budget, heq⟩) rfl] at hc
            cases hc
      | _ => trivial

/-- The backfill comes to its end, and the read finds the one entity with an outgoing edge. -/
theorem edgeEndpoints_steadyRun : ∃ db, (Database.create plainHost true false none).performs
      (olderRun ++ [.call (.backfillEndpointSets 1)]) = .ok db
    ∧ db.graph.endpointFeature = true ∧ db.edgeEndpoints 1 0 1 .out 10 10 = .ok [⟨1, 2⟩]
    ∧ (db.edgeEndpoints 1 0 1 .out 10 10 = db.endpointsByWalk 1 0 1 .out 10 10
      ∨ ∃ n, db.endpointsByWalk 1 0 1 .out 10 10 = .error (.graphEdges 10 n)) := by
  have hrun : okAnd ((Database.create plainHost true false none).performs
      (olderRun ++ [.call (.backfillEndpointSets 1)])) (fun db => !db.tables.failed
        && db.graph.endpointFeature && okAnd (db.edgeEndpoints 1 0 1 .out 10 10)
          (fun ids => ids = [⟨1, 2⟩])) = true := by
    decide +kernel
  have hquiet : quiet (Database.create plainHost true false none)
      (olderRun ++ [.call (.backfillEndpointSets 1)]) = true := by
    decide +kernel
  obtain ⟨db, hok, hdb⟩ := exists_of_okAnd hrun
  simp only [Bool.and_eq_true, Bool.not_eq_true'] at hdb
  obtain ⟨ids, hids, heq⟩ := exists_of_okAnd hdb.2
  have hreach := (Reachable.create plainHost true false none).quiet hquiet hok
  refine ⟨db, hok, hdb.1.2, ?_, (edgeEndpoints_reachable hreach hdb.1.1 hdb.1.2).2 1 0 1 .out 10 10⟩
  rw [hids, of_decide_eq_true heq]

/-- **An edge that comes up behind the cursor never gets its keys.** -/
theorem edgeEndpoints_fails : ¬ ∀ db, Reachable (fun _ _ => True) db → db.tables.failed = false →
    db.graph.endpointFeature = true → ∀ k, k ∈ db.graph.endpoints
      ↔ ∃ e ∈ db.graph.primary.keys, k = e.key.endpoint .out ∨ k = e.key.endpoint .into := by
  intro h
  have hrun : okAnd ((Database.create plainHost true false none).performs (olderRun
      ++ [.call (.putEdge (edge 1 2) noBag), .call (.backfillEndpointSets 1)])) (fun db =>
        !db.tables.failed && db.graph.endpointFeature
          && decide ((edge 1 2).endpoint .out ∉ db.graph.endpoints)
          && decide (⟨edge 1 2, 0⟩ ∈ db.graph.primary.keys)) = true := by
    decide +kernel
  obtain ⟨db, hok, hdb⟩ := exists_of_okAnd hrun
  simp only [Bool.and_eq_true, Bool.not_eq_true', decide_eq_true_eq] at hdb
  obtain ⟨⟨⟨hf, hs⟩, hnot⟩, hmem⟩ := hdb
  have hreach : Reachable (fun _ _ => True) db :=
    (Reachable.create plainHost true false none).performs (fun _ _ _ _ _ _ => trivial) hok
  exact hnot ((h db hreach hf hs _).2 ⟨_, hmem, Or.inl rfl⟩)

end Engine.Graph
