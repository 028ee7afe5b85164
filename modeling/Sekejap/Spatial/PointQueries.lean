import Sekejap.Lib.LeastKept
import Sekejap.Spatial.NearestRuns

/-!
# Point queries

The queries of a point index (`core/engine/src/index/spatial/point.rs`): the rows in a rectangle, the rows
within a radius, and the nearest rows.  A query reads the cells of a cover, or the rows that it is given, and
keeps the least of those that pass in a heap; the nearest of all rows are those that a walk hands over.

* **`checked_answers`** — what a query answers, by its arguments, what it reads and when it is cancelled.
* **`queryPointBbox_eq`**, **`queryPointRadius_eq`**, **`queryPointNearest_eq`** — a query that is not refused,
  cancelled or out of what it may read returns the first of the rows that pass, by id or by distance.
-/

open LeastKept (keepLeast foldl_keepLeast)

open Ieee (f64)

namespace Engine.Spatial

/-- `EntityId`: collection and sequence. -/
abbrev RowId := ℕ ×ₗ ℕ

/-- `SpatialHit`, as `HeapHit` orders it. -/
abbrev SpatialHit := ℚ ×ₗ RowId

/-- `SpatialCandidates` -/
inductive SpatialCandidates where
  | all
  | sortedUnique (ids : List RowId)

/-- How a query fails. -/
inductive QueryFailure where
  | of (e : Error)
  | walk (e : Failure Empty)

/-- A ready index on the points of a collection, and the points of its rows. -/
structure PointIndex where
  collection : ℕ
  postings : PointPostings
  /-- The point of a row: none of a row without one, and where there is no row. -/
  pointOf : ℕ → Option Point
  ready : ∀ p, p ∈ postings.entries
    ↔ pointOf p.sequence = some p.point ∧ p.cell = pointHilbert (p.point.lon, p.point.lat)

/-- `catalog::MAX_RESULTS` -/
def maxResults : ℕ := 65536

/-- A meter that charges nothing of the caller's. -/
def cancelMeter {σ : Type} (cancelled : σ → Bool × σ) : Meter σ Empty := ⟨fun s => (.ok (), s), cancelled⟩

/-- The loop of `validate_candidates`. -/
def checkCandidates (collection : ℕ) : Option RowId → List RowId → Except QueryFailure Unit
  | _, [] => .ok ()
  | previous, id :: ids =>
      if (ofLex id).1 ≠ collection ∨ previous.any (id ≤ ·) = true then
        .error (.of (.invalid "filtered candidates must be same-collection, sorted and unique"))
      else checkCandidates collection (some id) ids

/-- `validate_candidates` -/
def validateCandidates (collection : ℕ) : SpatialCandidates → Except QueryFailure Unit
  | .all => .ok ()
  | .sortedUnique ids =>
      if maxResults < ids.length then .error (.of (.invalid "filtered candidate limit exceeds 65536"))
      else checkCandidates collection none ids

/-- The point that is stored under a key. -/
def indexGet (t : PointPostings) (cell sequence : ℕ) : Option Point :=
  (t.entries.find? fun p => decide (p.cell = cell ∧ p.sequence = sequence)).map PointPosting.point

section

variable {σ α : Type} [LinearOrder α] (ix : PointIndex) (cancelled : σ → Bool × σ) (maxExamined : ℕ)

/-- The loop of `visit_spatial_points` over the rows it is given. -/
def visitCandidates : List RowId → ℕ → σ → Except QueryFailure (List (RowId × Point)) × σ
  | [], _, s => (.ok [], s)
  | id :: ids, examined, s =>
      match (cancelMeter cancelled).spend maxExamined examined s with
      | (.error e, s) => (.error (.walk e), s)
      | (.ok examined, s) =>
          match ix.pointOf (ofLex id).2 with
          | none => visitCandidates ids examined s
          | some point =>
              match indexGet ix.postings (pointHilbert (point.lon, point.lat)) (ofLex id).2 with
              | none => (.error (.of (.corrupt "ready spatial point posting is missing")), s)
              | some stored =>
                  if stored.lon ≠ point.lon ∨ stored.lat ≠ point.lat then
                    (.error (.of (.corrupt "ready spatial point posting differs from primary")), s)
                  else
                    match visitCandidates ids examined s with
                    | (.error e, s) => (.error e, s)
                    | (.ok seen, s) => (.ok ((id, point) :: seen), s)

/-- A posting, as a visitor is told of it. -/
def rowOfPosting (p : PointPosting) : RowId × Point := (toLex (ix.collection, p.sequence), p.point)

/-- The postings that are read where no rows are given. -/
def foundPostings (ranges : Option (List (ℕ × ℕ))) : List PointPosting :=
  ranges.elim ix.postings.entries ix.postings.visitRanges

/-- `visit_spatial_points` -/
def visitSpatialPoints (ranges : Option (List (ℕ × ℕ))) (candidates : SpatialCandidates) (s : σ) :
    Except QueryFailure (List (RowId × Point)) × σ :=
  match candidates with
  | .all =>
      match (cancelMeter cancelled).chargeAll maxExamined (foundPostings ix ranges) 0 s with
      | (.error e, s) => (.error (.walk e), s)
      | (.ok _, s) => (.ok ((foundPostings ix ranges).map (rowOfPosting ix)), s)
  | .sortedUnique ids => visitCandidates ix cancelled maxExamined ids 0 s

/-- What every query checks before it reads. -/
def checked (limit : ℕ) (candidates : SpatialCandidates) (read : σ → Except QueryFailure (List α) × σ) (s : σ) :
    Except QueryFailure (List α) × σ :=
  match validateCandidates ix.collection candidates with
  | .error e => (.error e, s)
  | .ok () =>
      if maxResults < limit then (.error (.of (.invalid "query result limit exceeds 65536")), s)
      else
        match cancelled s with
        | (true, s) => (.error (.walk .cancelled), s)
        | (false, s) => if limit = 0 then (.ok [], s) else read s

/-- What a query keeps of the rows that it reads, by the rank of those that pass. -/
def keepRows (limit : ℕ) (rank : RowId × Point → Option α) (ranges : Option (List (ℕ × ℕ)))
    (candidates : SpatialCandidates) (s : σ) : Except QueryFailure (List α) × σ :=
  match visitSpatialPoints ix cancelled maxExamined ranges candidates s with
  | (.error e, s) => (.error e, s)
  | (.ok seen, s) =>
      (.ok (seen.foldl (fun heap row => (rank row).elim heap (keepLeast limit heap)) []), s)

/-- The read of a query in a rectangle. -/
def keepWithin (limit : ℕ) (test : Point → Bool) (bounds : Bounds) (candidates : SpatialCandidates) (s : σ) :
    Except QueryFailure (List RowId) × σ :=
  match boundsHilbertRangesBounded false bounds maxHilbertRanges with
  | none => (.error (.walk (.panicked "attempt to shift left with overflow")), s)
  | some ranges =>
      keepRows ix cancelled maxExamined limit (fun row => if test row.2 then some row.1 else none) (some ranges)
        candidates s

/-- `query_point_bbox` -/
def queryPointBbox (bounds : Bounds) (limit : ℕ) (candidates : SpatialCandidates) :
    σ → Except QueryFailure (List RowId) × σ :=
  checked ix cancelled limit candidates
    (keepWithin ix cancelled maxExamined limit bounds.contains bounds candidates)

/-- `query_point_radius`, of the bits of a radius. -/
def queryPointRadius (μ : Metric) (center : Point) (radius limit : ℕ) (candidates : SpatialCandidates) (s : σ) :
    Except QueryFailure (List RowId) × σ :=
  if isFinite radius = false then (.error (.of (.invalid "radius must be finite")), s)
  else
    match radiusCandidateBounds μ center (f64.value radius) with
    | .error e => (.error (.of e), s)
    | .ok bounds =>
        checked ix cancelled limit candidates
          (keepWithin ix cancelled maxExamined limit (fun p => μ.distance center p ≤ f64.value radius) bounds
            candidates) s

/-- The loop of `query_point_nearest` over the walk. -/
def nearestLoop (μ : Metric) (aim : NearestAim) : ℕ → NearestWalk → σ → Except QueryFailure (List SpatialHit) × σ
  | 0, _, s => (.ok [], s)
  | k + 1, w, s =>
      match NearestWalk.next μ aim ix.postings (cancelMeter cancelled) w s with
      | (.error e, _, s) => (.error (.walk e), s)
      | (.ok none, _, s) => (.ok [], s)
      | (.ok (some hit), w, s) =>
          match nearestLoop μ aim k w s with
          | (.error e, s) => (.error e, s)
          | (.ok hits, s) => (.ok (toLex (hit.distance, toLex (ix.collection, hit.id)) :: hits), s)

/-- `query_point_nearest` -/
def queryPointNearest (μ : Metric) (center : Point) (k : ℕ) (candidates : SpatialCandidates) :
    σ → Except QueryFailure (List SpatialHit) × σ :=
  checked ix cancelled k candidates fun s =>
    match candidates with
    | .all => nearestLoop ix cancelled μ ⟨center, k, none, maxExamined⟩ k NearestWalk.new s
    | .sortedUnique _ =>
        keepRows ix cancelled maxExamined k (fun row => some (toLex (μ.distance center row.2, row.1))) none
          candidates s

end

/-! ## What a query reads -/

/-- The rows with a point. -/
def rows (ix : PointIndex) : List (RowId × Point) := ix.postings.entries.map (rowOfPosting ix)

namespace SpatialCandidates

/-- The rows that a query is asked about. -/
def asks : SpatialCandidates → RowId → Bool
  | .all, _ => true
  | .sortedUnique ids, id => decide (id ∈ ids)

/-- The rows that are given. -/
def ids : SpatialCandidates → List RowId
  | .all => []
  | .sortedUnique ids => ids

/-- Why the rows that are given are refused. -/
def misfit (collection : ℕ) (candidates : SpatialCandidates) : Option String :=
  if maxResults < candidates.ids.length then some "filtered candidate limit exceeds 65536"
  else if (∀ id ∈ candidates.ids, (ofLex id).1 = collection) ∧ candidates.ids.Pairwise (· < ·) then none
  else some "filtered candidates must be same-collection, sorted and unique"

/-- Why a query is refused. -/
def refused (collection limit : ℕ) (candidates : SpatialCandidates) : Option String :=
  (candidates.misfit collection).or
    (if maxResults < limit then some "query result limit exceeds 65536" else none)

/-- How many rows a query reads: those of a cover, or those that are given. -/
def reads (ix : PointIndex) (limit : ℕ) (cover : List (ℕ × ℕ)) : SpatialCandidates → ℕ
  | .all => if limit = 0 then 0 else (ix.postings.entries.filter (covered cover)).length
  | .sortedUnique ids => if limit = 0 then 0 else ids.length

end SpatialCandidates

/-- Whether the `j`-th call of `cancelled` says so. -/
def polls {σ : Type} (cancelled : σ → Bool × σ) (s : σ) (j : ℕ) : Bool :=
  (cancelled ((fun s => (cancelled s).2)^[j] s)).1

/-- What a query answers: it is refused by its arguments; or it is cancelled, when a call before it reads or
before a row that it may read says so; or it reads more than it may; or it returns `out`. -/
structure Answers {β : Type} (refused : Option String) (polls : ℕ → Bool) (maxExamined reads : ℕ) (out : β)
    (result : Except QueryFailure β) : Prop where
  invalid : ∀ why, refused = some why → result = .error (.of (.invalid why))
  cancelled : refused = none → (∃ j ≤ min reads (maxExamined + 1), polls j = true) →
    result = .error (.walk .cancelled)
  exceeded : refused = none → (∀ j ≤ maxExamined + 1, polls j = false) → maxExamined < reads →
    result = .error (.walk (.resourceLimit "spatial max_examined exceeded"))
  returns : refused = none → (∀ j ≤ reads, polls j = false) → reads ≤ maxExamined → result = .ok out

section

variable {σ α : Type} [LinearOrder α] {ix : PointIndex} {cancelled : σ → Bool × σ} {maxExamined examined limit : ℕ}
  {candidates : SpatialCandidates} {ids : List RowId} {ranges : Option (List (ℕ × ℕ))} {s : σ}
  {rank : RowId × Point → Option α} {row : RowId × Point} {f : Failure Empty}

lemma mem_entries {sequence : ℕ} {point : Point} (h : ix.pointOf sequence = some point) :
    ⟨pointHilbert (point.lon, point.lat), sequence, point⟩ ∈ ix.postings.entries := by
  rw [ix.ready]
  refine ⟨h, ?_⟩
  dsimp only

lemma mem_rows : row ∈ rows ix ↔ (ofLex row.1).1 = ix.collection ∧ ix.pointOf (ofLex row.1).2 = some row.2 := by
  obtain ⟨id, point⟩ := row
  rw [rows, List.mem_map]
  constructor
  · rintro ⟨p, hp, hrow⟩
    obtain ⟨rfl, rfl⟩ := Prod.mk.inj hrow
    exact ⟨rfl, ((ix.ready p).1 hp).1⟩
  · rintro ⟨hcollection, hpoint⟩
    refine ⟨_, mem_entries hpoint, ?_⟩
    rw [rowOfPosting, ← hcollection]
    rfl

lemma rows_nodup (ix : PointIndex) : (rows ix).Nodup := by
  rw [rows, List.Nodup, List.pairwise_map]
  refine ix.postings.distinct.imp fun hne heq => hne ?_
  exact congrArg (fun row : RowId × Point => (ofLex row.1).2) heq

/-- **The index has every row's point**, under its cell. -/
lemma indexGet_eq {sequence : ℕ} {point : Point} (h : ix.pointOf sequence = some point) :
    indexGet ix.postings (pointHilbert (point.lon, point.lat)) sequence = some point := by
  have hmem := mem_entries h
  cases hfind : ix.postings.entries.find?
      (fun p => decide (p.cell = pointHilbert (point.lon, point.lat) ∧ p.sequence = sequence)) with
  | none =>
      have hnot := List.find?_eq_none.1 hfind _ hmem
      simp at hnot
  | some p =>
      have hfound := List.find?_some hfind
      rw [decide_eq_true_eq] at hfound
      obtain ⟨-, hsequence⟩ := hfound
      have hstored := ((ix.ready p).1 (List.mem_of_find?_eq_some hfind)).1
      rw [hsequence, h] at hstored
      rw [indexGet, hfind, Option.map_some, Option.some.inj hstored]

/-- The rows that are given are read one by one, and the index agrees with each. -/
lemma visitCandidates_ok (h : (cancelMeter cancelled).stops maxExamined examined ids.length s = none) :
    visitCandidates ix cancelled maxExamined ids examined s
      = (.ok (ids.filterMap fun id => (ix.pointOf (ofLex id).2).map (id, ·)),
        (cancelMeter cancelled).after s ids.length) := by
  induction ids generalizing examined s with
  | nil => rfl
  | cons id ids ih =>
      rw [List.length_cons, Meter.stops_succ, Option.or_eq_none_iff] at h
      have hspend : (cancelMeter cancelled).spend maxExamined examined s
          = (.ok (examined + 1), (cancelMeter cancelled).after s 1) := Meter.charge_ok h.1
      rw [List.length_cons, Meter.after_succ]
      cases hpoint : ix.pointOf (ofLex id).2 with
      | none =>
          simp only [visitCandidates, hspend, hpoint, ih h.2]
          rw [List.filterMap_cons_none (by rw [hpoint]; rfl)]
      | some point =>
          simp only [visitCandidates, hspend, hpoint, indexGet_eq hpoint, ne_eq, not_true_eq_false, or_self,
            if_false, ih h.2]
          rw [List.filterMap_cons_some (b := (id, point)) (by rw [hpoint]; rfl)]

lemma visitCandidates_error (h : (cancelMeter cancelled).stops maxExamined examined ids.length s = some f) :
    (visitCandidates ix cancelled maxExamined ids examined s).1 = .error (.walk f) := by
  induction ids generalizing examined s with
  | nil => simp at h
  | cons id ids ih =>
      rw [List.length_cons, Meter.stops_succ] at h
      cases hfault : (cancelMeter cancelled).fault maxExamined examined s with
      | some f' =>
          rw [hfault, Option.some_or, Option.some.injEq] at h
          obtain ⟨s', hs'⟩ := Meter.charge_error hfault
          have hspend : (cancelMeter cancelled).spend maxExamined examined s = (.error f', s') := hs'
          simp only [visitCandidates, hspend, h]
      | none =>
          rw [hfault, Option.none_or] at h
          have hspend : (cancelMeter cancelled).spend maxExamined examined s
              = (.ok (examined + 1), (cancelMeter cancelled).after s 1) := Meter.charge_ok hfault
          have hrest := ih h
          cases hpoint : ix.pointOf (ofLex id).2 with
          | none => simpa only [visitCandidates, hspend, hpoint] using hrest
          | some point =>
              rcases hvisit : visitCandidates ix cancelled maxExamined ids (examined + 1)
                ((cancelMeter cancelled).after s 1) with ⟨r, s'⟩
              rw [hvisit] at hrest
              obtain rfl : r = .error (.walk f) := hrest
              simp only [visitCandidates, hspend, hpoint, indexGet_eq hpoint, ne_eq, not_true_eq_false, or_self,
                if_false, hvisit]

/-- The rows that are given are of the collection, in order. -/
lemma checkCandidates_eq_ok {collection : ℕ} {previous : Option RowId} :
    checkCandidates collection previous ids = .ok () ↔ (∀ id ∈ ids, (ofLex id).1 = collection)
      ∧ ids.Pairwise (· < ·) ∧ ∀ p ∈ previous, ∀ id ∈ ids, p < id := by
  induction ids generalizing previous with
  | nil => simp [checkCandidates]
  | cons id ids ih =>
      have hprevious : previous.any (id ≤ ·) = true ↔ ¬∀ p ∈ previous, p < id := by
        rw [Option.any_eq_true]
        constructor
        · rintro ⟨p, hp, hle⟩ hall
          exact absurd (hall p hp) (not_lt.2 (of_decide_eq_true hle))
        · intro hnot
          push Not at hnot
          obtain ⟨p, hp, hle⟩ := hnot
          exact ⟨p, hp, decide_eq_true hle⟩
      rw [checkCandidates, List.forall_mem_cons, List.pairwise_cons]
      split_ifs with hbad
      · rw [hprevious, ne_eq, ← not_and_or] at hbad
        simp only [false_iff]
        rintro ⟨⟨hcollection, -⟩, -, hfirst⟩
        exact hbad ⟨hcollection, fun p hp => hfirst p hp id List.mem_cons_self⟩
      · rw [hprevious, ne_eq, ← not_and_or, not_not] at hbad
        obtain ⟨hcollection, hfirst⟩ := hbad
        rw [ih]
        constructor
        · rintro ⟨hall, hpairwise, hafter⟩
          have hafter : ∀ x ∈ ids, id < x := hafter id rfl
          refine ⟨⟨hcollection, hall⟩, ⟨hafter, hpairwise⟩, fun p hp => ?_⟩
          rw [List.forall_mem_cons]
          exact ⟨hfirst p hp, fun x hx => (hfirst p hp).trans (hafter x hx)⟩
        · rintro ⟨⟨-, hall⟩, ⟨hafter, hpairwise⟩, -⟩
          refine ⟨hall, hpairwise, fun p hp => ?_⟩
          obtain rfl := Option.some.inj hp
          exact hafter

lemma checkCandidates_error {collection : ℕ} {previous : Option RowId} {e : QueryFailure}
    (h : checkCandidates collection previous ids = .error e) :
    e = .of (.invalid "filtered candidates must be same-collection, sorted and unique") := by
  induction ids generalizing previous with
  | nil => simp [checkCandidates] at h
  | cons id ids ih =>
      rw [checkCandidates] at h
      split_ifs at h
      · exact (Except.error.inj h).symm
      · exact ih h

/-- `validate_candidates` refuses too many rows, and rows of another collection or out of order. -/
lemma validateCandidates_eq (collection : ℕ) (candidates : SpatialCandidates) :
    validateCandidates collection candidates
      = (candidates.misfit collection).elim (.ok ()) fun why => .error (.of (.invalid why)) := by
  cases candidates with
  | all =>
      have hmisfit : SpatialCandidates.all.misfit collection = none := by
        simp [SpatialCandidates.misfit, SpatialCandidates.ids]
      rw [hmisfit]
      rfl
  | sortedUnique ids =>
      rw [validateCandidates, SpatialCandidates.misfit, SpatialCandidates.ids]
      split_ifs with hmany hfit
      · rfl
      · exact checkCandidates_eq_ok.2 ⟨hfit.1, hfit.2, by simp⟩
      · cases hcheck : checkCandidates collection none ids with
        | ok u =>
            obtain ⟨hall, hpairwise, -⟩ := checkCandidates_eq_ok.1 hcheck
            exact absurd ⟨hall, hpairwise⟩ hfit
        | error e => rw [checkCandidates_error hcheck, Option.elim_some]

/-- A query reads each row that it is given, when that has a point. -/
lemma filterMap_perm (hall : ∀ id ∈ ids, (ofLex id).1 = ix.collection) (hids : ids.Pairwise (· < ·)) :
    (ids.filterMap fun id => (ix.pointOf (ofLex id).2).map (id, ·)).Perm
      ((rows ix).filter fun row => (SpatialCandidates.sortedUnique ids).asks row.1) := by
  have hnodup : (ids.filterMap fun id => (ix.pointOf (ofLex id).2).map (id, ·)).Nodup := by
    refine List.Nodup.filterMap (fun id id' row hid hid' => ?_) (hids.imp fun h => h.ne)
    obtain ⟨_, -, hrow⟩ := Option.map_eq_some_iff.1 hid
    obtain ⟨_, -, hrow'⟩ := Option.map_eq_some_iff.1 hid'
    exact congrArg Prod.fst (hrow.trans hrow'.symm)
  rw [List.perm_ext_iff_of_nodup hnodup ((rows_nodup ix).filter _)]
  rintro ⟨id, point⟩
  rw [List.mem_filter, mem_rows, List.mem_filterMap]
  simp only [SpatialCandidates.asks, decide_eq_true_eq]
  constructor
  · rintro ⟨id', hid', hrow⟩
    obtain ⟨point', hpoint, heq⟩ := Option.map_eq_some_iff.1 hrow
    obtain ⟨rfl, rfl⟩ := Prod.mk.inj heq
    exact ⟨⟨hall id' hid', hpoint⟩, hid'⟩
  · rintro ⟨⟨-, hpoint⟩, hid⟩
    exact ⟨id, hid, by rw [hpoint]; rfl⟩

/-! ## When a query is cancelled -/

/-- One charge of a query, after the call of `cancelled` that it begins with. -/
lemma fault_cancelMeter (i : ℕ) : (cancelMeter cancelled).fault maxExamined (0 + i)
      ((cancelMeter cancelled).after (cancelled s).2 i)
    = if polls cancelled s (i + 1) then some .cancelled
      else if i = maxExamined then some (.resourceLimit "spatial max_examined exceeded") else none := by
  rw [Nat.zero_add]
  rfl

lemma stops_cancelled {n : ℕ} (hzero : polls cancelled s 0 = false)
    (h : ∃ j ≤ min n (maxExamined + 1), polls cancelled s j = true) :
    (cancelMeter cancelled).stops maxExamined 0 n (cancelled s).2 = some .cancelled := by
  classical
  obtain ⟨hle, hpoll⟩ := Nat.find_spec h
  obtain ⟨i, hi⟩ : ∃ i, Nat.find h = i + 1 := by
    refine Nat.exists_eq_succ_of_ne_zero fun hfind => ?_
    rw [hfind, hzero] at hpoll
    exact Bool.noConfusion hpoll
  rw [hi] at hle hpoll
  rw [le_min_iff] at hle
  refine Meter.stops_eq_some (i := i) (by omega) ?_ fun j hj => ?_
  · rw [fault_cancelMeter, if_pos hpoll]
  -- the calls before it passed
  · have hbefore : polls cancelled s (j + 1) = false := by
      by_contra hnot
      exact Nat.find_min h (by omega) ⟨le_min (by omega) (by omega), Bool.not_eq_false _ ▸ hnot⟩
    rw [fault_cancelMeter, hbefore, if_neg Bool.false_ne_true, if_neg (by omega)]

lemma stops_exceeded {n : ℕ} (hpolls : ∀ j ≤ maxExamined + 1, polls cancelled s j = false) (h : maxExamined < n) :
    (cancelMeter cancelled).stops maxExamined 0 n (cancelled s).2
      = some (.resourceLimit "spatial max_examined exceeded") := by
  refine Meter.stops_eq_some h ?_ fun j hj => ?_
  · rw [fault_cancelMeter, hpolls _ le_rfl, if_neg Bool.false_ne_true, if_pos rfl]
  · rw [fault_cancelMeter, hpolls _ (by omega), if_neg Bool.false_ne_true, if_neg (by omega)]

lemma stops_none {n : ℕ} (hpolls : ∀ j ≤ n, polls cancelled s j = false) (h : n ≤ maxExamined) :
    (cancelMeter cancelled).stops maxExamined 0 n (cancelled s).2 = none := by
  refine Meter.stops_eq_none fun i hi => ?_
  rw [fault_cancelMeter, hpolls _ (by omega), if_neg Bool.false_ne_true, if_neg (by omega)]

/-- A read of so many rows, which returns `out`. -/
structure Keeps {β : Type} (cancelled : σ → Bool × σ) (maxExamined reads : ℕ) (out : β)
    (read : σ → Except QueryFailure β × σ) : Prop where
  passes : ∀ s, (cancelMeter cancelled).stops maxExamined 0 reads s = none → (read s).1 = .ok out
  fails : ∀ s f, (cancelMeter cancelled).stops maxExamined 0 reads s = some f → (read s).1 = .error (.walk f)

omit [LinearOrder α] in
lemma checked_refused {read : σ → Except QueryFailure (List α) × σ} {why : String}
    (h : candidates.refused ix.collection limit = some why) :
    (checked ix cancelled limit candidates read s).1 = .error (.of (.invalid why)) := by
  rw [checked, validateCandidates_eq]
  rw [SpatialCandidates.refused] at h
  cases hmisfit : candidates.misfit ix.collection with
  | some why' =>
      rw [hmisfit, Option.some_or, Option.some.injEq] at h
      rw [h]
      rfl
  | none =>
      rw [hmisfit, Option.none_or] at h
      split_ifs at h with hlimit
      rw [Option.some.injEq] at h
      simp only [Option.elim_none, if_pos hlimit, h]

omit [LinearOrder α] in
lemma checked_eq (cancelled : σ → Bool × σ) (s : σ) (read : σ → Except QueryFailure (List α) × σ)
    (h : candidates.refused ix.collection limit = none) :
    candidates.misfit ix.collection = none ∧ limit ≤ maxResults ∧
      (checked ix cancelled limit candidates read s).1
        = if polls cancelled s 0 then .error (.walk .cancelled)
          else if limit = 0 then .ok [] else (read (cancelled s).2).1 := by
  rw [SpatialCandidates.refused, Option.or_eq_none_iff] at h
  obtain ⟨hmisfit, hlimit⟩ := h
  have hlimit : ¬maxResults < limit := fun hlt => by simp [hlt] at hlimit
  refine ⟨hmisfit, not_lt.1 hlimit, ?_⟩
  rcases hc : cancelled s with ⟨c, s'⟩
  have hpoll : polls cancelled s 0 = c := congrArg Prod.fst hc
  rw [checked, validateCandidates_eq, hmisfit, hpoll]
  simp only [Option.elim_none, if_neg hlimit, hc]
  cases c with
  | true => rfl
  | false => simp only [Bool.false_eq_true, if_false, apply_ite Prod.fst]

omit [LinearOrder α] in
/-- **What a query answers**, by its arguments, what it reads and when it is cancelled. -/
lemma checked_answers {read : σ → Except QueryFailure (List α) × σ} {n : ℕ} {out : List α}
    (hzero : limit = 0 → n = 0 ∧ out = [])
    (hread : candidates.misfit ix.collection = none → 0 < limit → limit ≤ maxResults →
      Keeps cancelled maxExamined n out read) :
    Answers (candidates.refused ix.collection limit) (polls cancelled s) maxExamined n out
      (checked ix cancelled limit candidates read s).1 := by
  refine ⟨fun why h => checked_refused h, fun h hpolls => ?_, fun h hpolls hlt => ?_, fun h hpolls hle => ?_⟩
  · obtain ⟨hmisfit, hlimit, heq⟩ := checked_eq cancelled s read h
    rw [heq]
    cases hfirst : polls cancelled s 0 with
    | true => rfl
    | false =>
        rw [if_neg Bool.false_ne_true]
        rcases Nat.eq_zero_or_pos limit with hnone | hpos
        · obtain ⟨j, hj, hpoll⟩ := hpolls
          rw [(hzero hnone).1, Nat.zero_min, Nat.le_zero] at hj
          rw [hj, hfirst] at hpoll
          exact Bool.noConfusion hpoll
        · rw [if_neg hpos.ne']
          exact (hread hmisfit hpos hlimit).fails _ _ (stops_cancelled hfirst hpolls)
  · obtain ⟨hmisfit, hlimit, heq⟩ := checked_eq cancelled s read h
    have hpos : 0 < limit := Nat.pos_of_ne_zero fun hnone => by
      have := (hzero hnone).1
      omega
    rw [heq, hpolls 0 (Nat.zero_le _), if_neg Bool.false_ne_true, if_neg hpos.ne']
    exact (hread hmisfit hpos hlimit).fails _ _ (stops_exceeded hpolls hlt)
  · obtain ⟨hmisfit, hlimit, heq⟩ := checked_eq cancelled s read h
    rw [heq, hpolls 0 (Nat.zero_le _), if_neg Bool.false_ne_true]
    rcases Nat.eq_zero_or_pos limit with hnone | hpos
    · rw [if_pos hnone, (hzero hnone).2]
    · rw [if_neg hpos.ne']
      exact (hread hmisfit hpos hlimit).passes _ (stops_none hpolls hle)

/-! ## What a query keeps -/

lemma foldl_rank (l : List (RowId × Point)) (heap : List α) :
    l.foldl (fun heap row => (rank row).elim heap (keepLeast limit heap)) heap
      = (l.filterMap rank).foldl (keepLeast limit) heap := by
  induction l generalizing heap with
  | nil => rfl
  | cons row l ih =>
      cases hrank : rank row with
      | none => rw [List.foldl_cons, List.filterMap_cons_none hrank, hrank, Option.elim_none, ih]
      | some x => rw [List.foldl_cons, List.filterMap_cons_some hrank, hrank, Option.elim_some, ih, List.foldl_cons]

/-- What a filter takes away that has no rank is not missed. -/
lemma filterMap_filter_of_isSome {β γ : Type} {p : β → Bool} {f : β → Option γ} {l : List β}
    (h : ∀ x ∈ l, (f x).isSome = true → p x = true) : (l.filter p).filterMap f = l.filterMap f := by
  induction l with
  | nil => rfl
  | cons x l ih =>
      have hrest := ih fun y hy => h y (List.mem_cons_of_mem x hy)
      cases hf : f x with
      | none =>
          rw [List.filterMap_cons_none hf, ← hrest]
          by_cases hp : p x = true
          · rw [List.filter_cons_of_pos hp, List.filterMap_cons_none hf]
          · rw [List.filter_cons_of_neg hp]
      | some y =>
          have hp : p x = true := h x List.mem_cons_self (by rw [hf]; rfl)
          rw [List.filter_cons_of_pos hp, List.filterMap_cons_some hf, List.filterMap_cons_some hf, hrest]

/-- The cells of the rows that pass are read. -/
def Reads (ix : PointIndex) (ranges : Option (List (ℕ × ℕ))) (rank : RowId × Point → Option α) : Prop :=
  ∀ rs ∈ ranges, NearestWalk.IsCover rs
    ∧ ∀ row ∈ rows ix, (rank row).isSome = true → Ranges.Covers rs (pointHilbert (row.2.lon, row.2.lat))

omit [LinearOrder α] in
/-- What is read where no rows are given. -/
lemma foundPostings_eq (h : Reads ix ranges rank) :
    ((foundPostings ix ranges).map (rowOfPosting ix)).filterMap rank = (rows ix).filterMap rank := by
  cases ranges with
  | none => rfl
  | some rs =>
      obtain ⟨hcover, hcovers⟩ := h rs rfl
      have hapart : Ranges.Apart rs := hcover.separated.imp fun h => by omega
      rw [foundPostings, Option.elim_some, rows, List.filterMap_map, List.filterMap_map,
        PointPostings.visitRanges_eq hapart fun r hr => ⟨hcover.inhabited r hr, hcover.bound r hr⟩]
      refine filterMap_filter_of_isSome fun p hp hrank => ?_
      rw [covered_iff, ix.postings.located p hp]
      exact hcovers (rowOfPosting ix p) (List.mem_map_of_mem hp) hrank

lemma misfit_eq_none {collection : ℕ} (h : (SpatialCandidates.sortedUnique ids).misfit collection = none) :
    (∀ id ∈ ids, (ofLex id).1 = collection) ∧ ids.Pairwise (· < ·) := by
  rw [SpatialCandidates.misfit, SpatialCandidates.ids] at h
  split_ifs at h with hmany hfit
  exact hfit

/-- What a query keeps does not depend on the order in which it reads. -/
lemma foldl_rank_perm {seen asked : List (RowId × Point)} (h : (seen.filterMap rank).Perm (asked.filterMap rank)) :
    seen.foldl (fun heap row => (rank row).elim heap (keepLeast limit heap)) []
      = ((asked.filterMap rank).insertionSort (· ≤ ·)).take limit := by
  have hsorted : ((seen.filterMap rank).insertionSort (· ≤ ·)).Perm
      ((asked.filterMap rank).insertionSort (· ≤ ·)) :=
    ((List.perm_insertionSort _ _).trans h).trans (List.perm_insertionSort _ _).symm
  rw [foldl_rank, foldl_keepLeast,
    hsorted.eq_of_pairwise' (List.pairwise_insertionSort _ _) (List.pairwise_insertionSort _ _)]

/-- **A query keeps the least of the rows that pass**, of those it is given. -/
lemma keepRows_sortedUnique (hmisfit : (SpatialCandidates.sortedUnique ids).misfit ix.collection = none) :
    Keeps cancelled maxExamined ids.length
      ((((rows ix).filter fun row => (SpatialCandidates.sortedUnique ids).asks row.1).filterMap rank).insertionSort
        (· ≤ ·) |>.take limit)
      (keepRows ix cancelled maxExamined limit rank ranges (.sortedUnique ids)) := by
  obtain ⟨hall, hids⟩ := misfit_eq_none hmisfit
  refine ⟨fun s h => ?_, fun s f h => ?_⟩
  · simp only [keepRows, visitSpatialPoints, visitCandidates_ok h]
    rw [foldl_rank_perm ((filterMap_perm hall hids).filterMap rank)]
  · rcases hvisit : visitCandidates ix cancelled maxExamined ids 0 s with ⟨r, s'⟩
    have herror : (visitCandidates ix cancelled maxExamined ids 0 s).1 = .error (.walk f) := visitCandidates_error h
    rw [hvisit] at herror
    obtain rfl : r = .error (.walk f) := herror
    simp only [keepRows, visitSpatialPoints, hvisit]

/-- **A query keeps the least of the rows that pass**, of all rows, when the cells of these are read. -/
lemma keepRows_all (hreads : Reads ix ranges rank) :
    Keeps cancelled maxExamined (foundPostings ix ranges).length
      ((((rows ix).filter fun row => SpatialCandidates.all.asks row.1).filterMap rank).insertionSort
        (· ≤ ·) |>.take limit)
      (keepRows ix cancelled maxExamined limit rank ranges .all) := by
  have hasks : ((rows ix).filter fun row => SpatialCandidates.all.asks row.1) = rows ix :=
    List.filter_eq_self.2 fun _ _ => rfl
  rw [hasks]
  refine ⟨fun s h => ?_, fun s f h => ?_⟩
  · simp only [keepRows, visitSpatialPoints, Meter.chargeAll_ok h]
    rw [foldl_rank_perm (List.Perm.of_eq (foundPostings_eq hreads))]
  · obtain ⟨s', hs'⟩ := Meter.chargeAll_error h
    simp only [keepRows, visitSpatialPoints, hs']

/-! ## What a query returns -/

lemma filterMap_ite (test : Point → Bool) (l : List (RowId × Point)) :
    (l.filterMap fun row => if test row.2 then some row.1 else none)
      = (l.filter fun row => test row.2).map Prod.fst := by
  induction l with
  | nil => rfl
  | cons row l ih =>
      by_cases htest : test row.2 = true
      · simp [htest, ih]
      · simp [htest, ih]

omit [LinearOrder α] in
/-- The postings in a cover, which are read in the order of their keys. -/
lemma foundPostings_length {rs : List (ℕ × ℕ)} (h : NearestWalk.IsCover rs) :
    (foundPostings ix (some rs)).length = (ix.postings.entries.filter (covered rs)).length := by
  have hapart : Ranges.Apart rs := h.separated.imp fun h => by omega
  rw [foundPostings, Option.elim_some,
    PointPostings.visitRanges_eq hapart fun r hr => ⟨h.inhabited r hr, h.bound r hr⟩]

/-- What a query of the rows in a rectangle, or within a radius, returns. -/
lemma keepWithin_keeps (test : Point → Bool) {bounds : Bounds} {rs : List (ℕ × ℕ)}
    (hrs : boundsHilbertRangesBounded false bounds maxHilbertRanges = some rs)
    (hcover : candidates = .all → ∀ row ∈ rows ix, test row.2 = true →
      Ranges.Covers rs (pointHilbert (row.2.lon, row.2.lat)))
    (hmisfit : candidates.misfit ix.collection = none) (hlimit : 0 < limit) :
    Keeps cancelled maxExamined (candidates.reads ix limit rs)
      ((((rows ix).filter fun row => candidates.asks row.1 && test row.2).map Prod.fst).insertionSort
        (· ≤ ·) |>.take limit)
      (keepWithin ix cancelled maxExamined limit test bounds candidates) := by
  obtain ⟨hsep, hin, hbound⟩ := boundsHilbertRangesBounded_shape hrs
  have hsplit : ((rows ix).filter fun row => candidates.asks row.1 && test row.2).map Prod.fst
      = ((rows ix).filter fun row => candidates.asks row.1).filterMap
          fun row => if test row.2 then some row.1 else none := by
    rw [filterMap_ite, List.filter_filter]
    congr 2
    funext row
    rw [Bool.and_comm]
  have hread : keepWithin ix cancelled maxExamined limit test bounds candidates
      = keepRows ix cancelled maxExamined limit (fun row => if test row.2 then some row.1 else none) (some rs)
          candidates := by
    funext s
    rw [keepWithin, hrs]
  rw [hsplit, hread]
  cases candidates with
  | sortedUnique ids =>
      rw [SpatialCandidates.reads, if_neg hlimit.ne']
      exact keepRows_sortedUnique hmisfit
  | all =>
      have hiscover : NearestWalk.IsCover rs := ⟨hsep, hin, hbound⟩
      rw [SpatialCandidates.reads, if_neg hlimit.ne', ← foundPostings_length hiscover]
      refine keepRows_all fun rs' hrs' => ?_
      obtain rfl := Option.some.inj hrs'
      refine ⟨hiscover, fun row hmem hrow => hcover rfl row hmem ?_⟩
      by_contra hnot
      rw [if_neg hnot] at hrow
      exact Bool.noConfusion hrow

/-! ## The nearest -/

/-- A hit of a walk, as the query returns it. -/
def spatialHit (ix : PointIndex) (hit : NearestHit) : SpatialHit :=
  toLex (hit.distance, toLex (ix.collection, hit.id))

/-- **The loop takes the first of all hits**, or fails with the first posting that is not paid for. -/
lemma nearestLoop_keeps {μ : Metric} (aim : NearestAim) (n : ℕ)
    (hμ : NearestWalk.Encloses μ aim.center ix.postings) (hcap : ∀ cap ∈ aim.radiusCap, 0 ≤ cap)
    (hhint : aim.hintK + 2 < usizeEnd) {k : ℕ} {w : NearestWalk} {gone : List NearestHit} (hw : NearestWalk.Walked μ aim ix.postings w gone k) :
    ∃ reads, w.examined + reads ≤ ix.postings.entries.length ∧ ∀ {σ : Type} (cancelled : σ → Bool × σ) (s : σ),
      ((cancelMeter cancelled).stops aim.maxExamined w.examined reads s = none →
          (nearestLoop ix cancelled μ aim n w s).1
            = .ok ((((NearestWalk.nearest μ aim ix.postings).drop gone.length).map (spatialHit ix)).take n))
        ∧ ∀ f, (cancelMeter cancelled).stops aim.maxExamined w.examined reads s = some f →
          (nearestLoop ix cancelled μ aim n w s).1 = .error (.walk f) := by
  induction n generalizing w gone k with
  | zero => exact ⟨0, hw.examined_le, fun _ _ => ⟨fun _ => rfl, fun f hf => by simp at hf⟩⟩
  | succ n ih =>
      obtain ⟨n₁, w₁, hcall, hexamined, k', hw'⟩ :=
        NearestWalk.nextLoop_spec hμ hcap hhint hw (NearestWalk.enough_next w k)
      cases hfound : (NearestWalk.nearest μ aim ix.postings)[gone.length]? with
      | none =>
          rw [hfound] at hcall
          refine ⟨n₁, hexamined ▸ hw'.examined_le, fun cancelled s => ⟨fun hpaid => ?_, fun f hf => ?_⟩⟩
          · rw [nearestLoop, NearestWalk.next, hcall.passes _ s hpaid,
              List.drop_eq_nil_of_le (List.getElem?_eq_none_iff.1 hfound)]
            rfl
          · obtain ⟨_, _, hfails, -⟩ := hcall.fails _ s f hf
            rw [nearestLoop, NearestWalk.next, hfails]
      | some hit =>
          rw [hfound] at hcall hw'
          rw [Option.toList_some] at hw'
          obtain ⟨n₂, hle, hrest⟩ := ih hw'
          rw [hexamined] at hle hrest
          refine ⟨n₁ + n₂, Nat.add_assoc _ _ _ ▸ hle, fun cancelled s => ?_⟩
          obtain ⟨hpasses, hfails⟩ := hrest cancelled ((cancelMeter cancelled).after s n₁)
          rw [Meter.stops_add]
          refine ⟨fun hpaid => ?_, fun f hf => ?_⟩
          · rw [Option.or_eq_none_iff] at hpaid
            have hmore := hpasses hpaid.2
            rcases hloop : nearestLoop ix cancelled μ aim n w₁ ((cancelMeter cancelled).after s n₁) with ⟨r, s'⟩
            rw [hloop] at hmore
            obtain rfl : r = .ok _ := hmore
            obtain ⟨hlt, hget⟩ := List.getElem?_eq_some_iff.1 hfound
            simp only [nearestLoop, NearestWalk.next, hcall.passes _ s hpaid.1, hloop]
            rw [List.drop_eq_getElem_cons hlt, hget, List.map_cons, List.take_succ_cons, List.length_append,
              List.length_singleton]
            rfl
          · cases hfirst : (cancelMeter cancelled).stops aim.maxExamined w.examined n₁ s with
            | some f' =>
                rw [hfirst, Option.some_or, Option.some.injEq] at hf
                obtain ⟨_, _, hstop, -⟩ := hcall.fails _ s f' hfirst
                simp only [nearestLoop, NearestWalk.next, hstop, hf]
            | none =>
                rw [hfirst, Option.none_or] at hf
                have hmore := hfails f hf
                rcases hloop : nearestLoop ix cancelled μ aim n w₁ ((cancelMeter cancelled).after s n₁) with ⟨r, s'⟩
                rw [hloop] at hmore
                obtain rfl : r = .error (.walk f) := hmore
                simp only [nearestLoop, NearestWalk.next, hcall.passes _ s hfirst, hloop]

/-- Without a cap the hits of a walk are those of all rows, in order. -/
lemma map_nearest {μ : Metric} {center : Point} {k : ℕ} :
    (NearestWalk.nearest μ ⟨center, k, none, maxExamined⟩ ix.postings).map (spatialHit ix)
      = ((rows ix).map fun row => (toLex (μ.distance center row.2, row.1) : SpatialHit)).insertionSort (· ≤ ·) := by
  have hsorted : ((NearestWalk.nearest μ ⟨center, k, none, maxExamined⟩ ix.postings).map (spatialHit ix)).Pairwise
      (· ≤ ·) := by
    rw [List.pairwise_map]
    refine NearestWalk.nearest_pairwise.imp ?_
    intro a b hab
    rcases Prod.Lex.lt_iff.1 hab with hlt | ⟨heq, hlt⟩
    · exact Prod.Lex.le_iff.2 (Or.inl hlt)
    · exact Prod.Lex.le_iff.2 (Or.inr ⟨heq, Prod.Lex.le_iff.2 (Or.inr ⟨rfl, le_of_lt hlt⟩)⟩)
  have hperm : ((NearestWalk.nearest μ ⟨center, k, none, maxExamined⟩ ix.postings).map (spatialHit ix)).Perm
      ((rows ix).map fun row => (toLex (μ.distance center row.2, row.1) : SpatialHit)) := by
    refine ((sortHits_perm _).map _).trans (List.Perm.of_eq ?_)
    have hwithin : (ix.postings.entries.filter fun p => NearestWalk.within ⟨center, k, none, maxExamined⟩
        (NearestWalk.far μ ⟨center, k, none, maxExamined⟩ p)) = ix.postings.entries :=
      List.filter_eq_self.2 fun _ _ => rfl
    rw [hwithin, List.map_map, rows, List.map_map]
    rfl
  exact (hperm.trans (List.perm_insertionSort _ _).symm).eq_of_pairwise' hsorted (List.pairwise_insertionSort _ _)

/-! ## The queries -/

lemma covers_of_contains {bounds : Bounds} {maxRanges : ℕ} {rs : List (ℕ × ℕ)} {p : Point}
    (hrs : boundsHilbertRangesBounded false bounds maxRanges = some rs) (hp : bounds.contains p = true) :
    Ranges.Covers rs (pointHilbert (p.lon, p.lat)) := by
  obtain ⟨rs', hrs', hcover⟩ := boundsHilbertRangesBounded_spec (b := bounds) false maxRanges
  rw [Option.some.inj (hrs.symm.trans hrs')]
  exact hcover p hp

lemma reads_zero (candidates : SpatialCandidates) (cover : List (ℕ × ℕ)) : candidates.reads ix 0 cover = 0 := by
  cases candidates with
  | all => rfl
  | sortedUnique ids => rfl

/-- **The rows in a rectangle.**  A query that is refused neither by its arguments, nor cancelled, nor made to
read more than it may, returns the first by id of those whose point is in the rectangle, of the rows asked
about.  It reads the cells of a cover, or the rows that it is given. -/
theorem queryPointBbox_eq (bounds : Bounds) :
    ∃ cover, boundsHilbertRangesBounded false bounds maxHilbertRanges = some cover
      ∧ Answers (candidates.refused ix.collection limit) (polls cancelled s) maxExamined
          (candidates.reads ix limit cover)
          (((((rows ix).filter fun row => candidates.asks row.1 && bounds.contains row.2).map
            Prod.fst).insertionSort (· ≤ ·)).take limit)
          (queryPointBbox ix cancelled maxExamined bounds limit candidates s).1 := by
  obtain ⟨cover, hcover, hcovers⟩ := boundsHilbertRangesBounded_spec (b := bounds) false maxHilbertRanges
  refine ⟨cover, hcover, checked_answers (fun hzero => ?_) fun hmisfit hlimit _ => ?_⟩
  · rw [hzero]
    exact ⟨reads_zero _ _, List.take_zero⟩
  · exact keepWithin_keeps bounds.contains hcover (fun _ row _ hrow => hcovers row.2 hrow) hmisfit hlimit

/-- Why a radius is refused. -/
def radiusRefused (radius : ℕ) : Option String :=
  if isFinite radius = false then some "radius must be finite"
  else if f64.value radius < 0 then some "radius must be non-negative" else none

/-- The bounds of a radius have the point of every row within it. -/
def Envelopes (μ : Metric) (center : Point) (radius : ℚ) (ix : PointIndex) : Prop :=
  ∀ bounds, radiusCandidateBounds μ center radius = .ok bounds →
    ∀ row ∈ rows ix, μ.distance center row.2 ≤ radius → bounds.contains row.2 = true

/-- The text of a radius that is refused comes before all others. -/
lemma answers_refused {β : Type} {polls : ℕ → Bool} {n : ℕ} {out : β} {why : String} {result : Except QueryFailure β}
    (h : result = .error (.of (.invalid why))) (rest : Option String) :
    Answers ((some why).or rest) polls maxExamined n out result := by
  rw [Option.some_or]
  refine ⟨fun why' hwhy => ?_, fun hnone => ?_, fun hnone => ?_, fun hnone => ?_⟩
  · rw [h, Option.some.inj hwhy]
  · exact absurd hnone (by simp)
  · exact absurd hnone (by simp)
  · exact absurd hnone (by simp)

/-- **The rows within a radius.**  As for a rectangle; of all rows, when the bounds of the radius have those that
are within it, which is a condition on `sin`, `asin` and `cos`.  Rows that are given need no bounds. -/
theorem queryPointRadius_eq {μ : Metric} {center : Point} {radius : ℕ}
    (hμ : candidates = .all → Envelopes μ center (f64.value radius) ix) :
    ∃ cover, (∀ bounds, radiusCandidateBounds μ center (f64.value radius) = .ok bounds →
        boundsHilbertRangesBounded false bounds maxHilbertRanges = some cover)
      ∧ Answers ((radiusRefused radius).or (candidates.refused ix.collection limit)) (polls cancelled s) maxExamined
          (candidates.reads ix limit cover)
          (((((rows ix).filter fun row =>
            candidates.asks row.1 && decide (μ.distance center row.2 ≤ f64.value radius)).map
              Prod.fst).insertionSort (· ≤ ·)).take limit)
          (queryPointRadius ix cancelled maxExamined μ center radius limit candidates s).1 := by
  rw [queryPointRadius, radiusRefused]
  by_cases hfinite : isFinite radius = false
  · rw [if_pos hfinite, if_pos hfinite]
    cases hbounds : radiusCandidateBounds μ center (f64.value radius) with
    | error e => exact ⟨[], by simp, answers_refused rfl _⟩
    | ok bounds =>
        obtain ⟨cover, hcover, -⟩ := boundsHilbertRangesBounded_spec (b := bounds) false maxHilbertRanges
        exact ⟨cover, fun b hb => Except.ok.inj hb ▸ hcover, answers_refused rfl _⟩
  · rw [if_neg hfinite, if_neg hfinite]
    by_cases hneg : f64.value radius < 0
    · have hbounds : radiusCandidateBounds μ center (f64.value radius)
          = .error (.invalid "radius must be non-negative") := if_pos hneg
      rw [if_pos hneg, hbounds]
      exact ⟨[], by simp, answers_refused rfl _⟩
    · obtain ⟨bounds, hbounds, -⟩ := radiusCandidateBounds_ok μ center (not_lt.1 hneg)
      obtain ⟨cover, hcover, -⟩ := boundsHilbertRangesBounded_spec (b := bounds) false maxHilbertRanges
      rw [if_neg hneg, Option.none_or, hbounds]
      refine ⟨cover, fun b hb => Except.ok.inj hb ▸ hcover,
        checked_answers (fun hzero => ?_) fun hmisfit hlimit _ => ?_⟩
      · rw [hzero]
        exact ⟨reads_zero _ _, List.take_zero⟩
      · refine keepWithin_keeps (fun p => μ.distance center p ≤ f64.value radius) hcover
          (fun hall row hmem hrow => ?_) hmisfit hlimit
        exact covers_of_contains hcover (hμ hall bounds hbounds row hmem (of_decide_eq_true hrow))

/-- The index of rows that have the points of its postings. -/
def indexOf (collection : ℕ) (t : PointPostings) : PointIndex where
  collection := collection
  postings := t
  pointOf := fun sequence => (t.entries.find? fun p => decide (p.sequence = sequence)).map PointPosting.point
  ready := by
    intro p
    constructor
    · intro hp
      refine ⟨?_, t.located p hp⟩
      cases hfind : t.entries.find? (fun q => decide (q.sequence = p.sequence)) with
      | none => simpa using List.find?_eq_none.1 hfind p hp
      | some q =>
          have hsame := List.find?_some hfind
          rw [decide_eq_true_eq] at hsame
          have hnodup : (t.entries.map PointPosting.sequence).Nodup := List.pairwise_map.2 t.distinct
          rw [List.inj_on_of_nodup_map hnodup (List.mem_of_find?_eq_some hfind) hp hsame, Option.map_some]
    · rintro ⟨hpoint, hcell⟩
      obtain ⟨q, hfind, hq⟩ := Option.map_eq_some_iff.1 hpoint
      have hmem := List.mem_of_find?_eq_some hfind
      have hsame := List.find?_some hfind
      rw [decide_eq_true_eq] at hsame
      have heq : q = p := by
        obtain ⟨cell, sequence, point⟩ := p
        obtain ⟨cell', sequence', point'⟩ := q
        obtain rfl : point' = point := hq
        obtain rfl : sequence' = sequence := hsame
        obtain rfl : cell = cell' := hcell.trans (t.located _ hmem).symm
        rfl
      exact heq ▸ hmem

/-- Of three rows around the pole. -/
def poleIndex : PointIndex := indexOf 1 NearestWalk.polePostings

/-- The disc of 250 metres around the pole has two of them, which its bounds have too. -/
lemma pole_envelopes : Envelopes NearestWalk.poleMetric NearestWalk.pole (f64.value (f64Of 250)) poleIndex := by
  intro bounds hbounds row hmem hnear
  have hall : (radiusCandidateBounds NearestWalk.poleMetric NearestWalk.pole (f64.value (f64Of 250))).toOption.all
      (fun b => (rows poleIndex).all fun row => decide (f64.value (f64Of 250)
        < NearestWalk.poleMetric.distance NearestWalk.pole row.2) || b.contains row.2) = true := by decide +kernel
  rw [hbounds, Except.toOption, Option.all_some, List.all_eq_true] at hall
  rcases Bool.or_eq_true _ _ ▸ hall row hmem with hfar | hcontains
  · exact absurd hnear (not_le.2 (of_decide_eq_true hfar))
  · exact hcontains

theorem queryPointRadius_pole :
    (queryPointRadius poleIndex (fun s : Unit => (false, s)) 10 NearestWalk.poleMetric NearestWalk.pole (f64Of 250)
      10 .all ()).1 = .ok [toLex (1, 1), toLex (1, 2)] := by
  obtain ⟨cover, -, hanswers⟩ := @queryPointRadius_eq Unit poleIndex (fun s => (false, s)) 10 10 .all ()
    NearestWalk.poleMetric NearestWalk.pole (f64Of 250) fun _ => pole_envelopes
  have hreads : SpatialCandidates.all.reads poleIndex 10 cover ≤ 10 :=
    (List.length_filter_le _ _).trans (by decide)
  rw [hanswers.returns (by decide +kernel) (fun _ _ => rfl) hreads]
  exact congrArg Except.ok (by decide +kernel)

/-- **The nearest rows**: the first by distance and id of the rows asked about, whether a walk hands them over or
each is read.  A walk reads no row twice. -/
theorem queryPointNearest_eq {μ : Metric} {center : Point} (k : ℕ)
    (hμ : candidates = .all → NearestWalk.Encloses μ center ix.postings) :
    ∃ n, (candidates = .all → n ≤ ix.postings.entries.length)
      ∧ (∀ ids, candidates = .sortedUnique ids → n = if k = 0 then 0 else ids.length)
      ∧ ∀ {σ : Type} (cancelled : σ → Bool × σ) (s : σ),
        Answers (candidates.refused ix.collection k) (polls cancelled s) maxExamined n
          (((((rows ix).filter fun row => candidates.asks row.1).map fun row =>
            (toLex (μ.distance center row.2, row.1) : SpatialHit)).insertionSort (· ≤ ·)).take k)
          (queryPointNearest ix cancelled maxExamined μ center k candidates s).1 := by
  cases candidates with
  | sortedUnique ids =>
      refine ⟨if k = 0 then 0 else ids.length, by simp, fun ids' h => ?_, fun cancelled s => ?_⟩
      · obtain rfl := SpatialCandidates.sortedUnique.inj h
        rfl
      refine checked_answers (fun hzero => ?_) fun hmisfit hlimit _ => ?_
      · rw [if_pos hzero, hzero]
        exact ⟨rfl, List.take_zero⟩
      · rw [if_neg hlimit.ne', ← List.filterMap_eq_map]
        exact keepRows_sortedUnique hmisfit
  | all =>
      have hcap : ∀ cap ∈ (none : Option ℚ), 0 ≤ cap := by simp
      have hasks : ((rows ix).filter fun row => SpatialCandidates.all.asks row.1) = rows ix :=
        List.filter_eq_self.2 fun _ _ => rfl
      rw [hasks]
      by_cases hk : 0 < k ∧ k ≤ maxResults
      · have hhint : k + 2 < usizeEnd := by
          have hmax : maxResults = 65536 := rfl
          have hend : usizeEnd = 2 ^ 64 := rfl
          omega
        obtain ⟨n, hle, hloop⟩ := nearestLoop_keeps ⟨center, k, none, maxExamined⟩ k (hμ rfl)
          hcap hhint NearestWalk.walked_new
        have hexamined : NearestWalk.new.examined = 0 := rfl
        rw [hexamined, Nat.zero_add] at hle
        rw [hexamined, List.length_nil, List.drop_zero, map_nearest] at hloop
        refine ⟨n, fun _ => hle, by simp, fun cancelled s => ?_⟩
        refine checked_answers (fun hzero => absurd hzero hk.1.ne') fun _ _ _ => ⟨fun s' h => ?_, fun s' f h => ?_⟩
        · exact (hloop cancelled s').1 h
        · exact (hloop cancelled s').2 f h
      · refine ⟨0, fun _ => Nat.zero_le _, by simp, fun cancelled s => ?_⟩
        refine checked_answers (fun hzero => ?_) fun _ hpos hlimit => absurd ⟨hpos, hlimit⟩ hk
        rw [hzero]
        exact ⟨rfl, List.take_zero⟩

theorem queryPointNearest_pole :
    (queryPointNearest poleIndex (fun s : Unit => (false, s)) 10 NearestWalk.poleMetric NearestWalk.pole 2 .all ()).1
      = .ok [toLex (0, toLex (1, 1)), toLex (1964941628054383 / 17592186044416, toLex (1, 2))] := by
  obtain ⟨n, hn, -, hanswers⟩ := @queryPointNearest_eq poleIndex 10 .all NearestWalk.poleMetric
    NearestWalk.pole 2 fun _ => NearestWalk.pole_encloses
  have hreads : n ≤ 10 := (hn rfl).trans (by decide)
  rw [(hanswers (fun s : Unit => (false, s)) ()).returns (by decide +kernel) (fun _ _ => rfl) hreads]
  exact congrArg Except.ok (by decide +kernel)

end

end Engine.Spatial
