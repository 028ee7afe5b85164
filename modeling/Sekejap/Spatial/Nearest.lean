import Mathlib.Data.Prod.Lex
import Sekejap.Lib.Parting
import Sekejap.Spatial.Radius

/-!
# The nearest walk

`NearestWalk` (`core/engine/src/index/spatial/point.rs`) hands over the point postings by distance from a
centre.  It reads the cells around the centre's first, then ring after ring, each a coarse cover of a radius
less the cells that were read before.  A ring is read whole; of what the walk holds then, only what is
within the radius leaves, and the rest waits.

The postings of an index decode, and are at the cells of their points.  A sum of `usize`s that overflows is
refused, as in a build that checks it.

* **`chargeAll_ok`**, **`chargeAll_error`** — reading postings fails with the first charge that does.
* **`visitRanges_difference`** — a ring reads the cells of its cover that were not read before, whole.
* **`probe_perm`** — the probe reads the cells of a range around the centre's, whole.
-/

open Ieee (f64)

open Parting

namespace Engine.Spatial

/-- `NEAREST_START_RADIUS_METRES` -/
def nearestStartRadius : ℚ := 250

/-- `NEAREST_GROWTH_FACTOR` -/
def nearestGrowthFactor : ℚ := 4

/-- `NEAREST_COVER_RANGES` -/
def nearestCoverRanges : ℕ := 8

/-- `NEAREST_PROBE` -/
def nearestProbe : ℕ := 32

/-- `NEAREST_ACCEPTANCE_CAP` -/
def nearestAcceptanceCap : ℕ := 64

/-- One more than the greatest `usize`. -/
def usizeEnd : ℕ := 2 ^ 64

/-! ## The postings of an index -/

/-- A point posting, as `decode_posting` reads it. -/
structure PointPosting where
  cell : ℕ
  sequence : ℕ
  point : Point

/-- The key of a posting is before a key. -/
def PointPosting.before (p : PointPosting) (cell sequence : ℕ) : Bool :=
  decide (p.cell < cell ∨ p.cell = cell ∧ p.sequence < sequence)

/-- The postings of an index, in the order of their keys: each decodes, and an entity has one. -/
structure PointPostings where
  entries : List PointPosting
  sorted : entries.Pairwise fun p q => p.before q.cell q.sequence
  located : ∀ p ∈ entries, p.cell = pointHilbert (p.point.lon, p.point.lat)
  positive : ∀ p ∈ entries, 0 < p.sequence
  distinct : entries.Pairwise fun p q => p.sequence ≠ q.sequence

namespace PointPostings

variable (t : PointPostings)

/-- `index_range`: from a key on. -/
def indexRange (cell sequence : ℕ) : List PointPosting := t.entries.filter fun p => !p.before cell sequence

/-- `index_range_reverse`: from below a key, downwards. -/
def indexRangeReverse (cell sequence : ℕ) : List PointPosting :=
  (t.entries.filter fun p => p.before cell sequence).reverse

/-- The postings of one range of cells. -/
def visitRange (r : ℕ × ℕ) : List PointPosting :=
  (t.indexRange (r.1 % 2 ^ 32) 0).takeWhile fun p => p.cell ≤ r.2

/-- `visit_ranges` -/
def visitRanges (ranges : List (ℕ × ℕ)) : List PointPosting := ranges.flatMap t.visitRange

end PointPostings

/-- What one side of the probe reads: whole cells, until it has seen enough. -/
def wholeCells : ℕ → Option ℕ → List PointPosting → List PointPosting
  | _, _, [] => []
  | seen, current, p :: ps =>
      if current.any (· ≠ p.cell) && decide (nearestProbe ≤ seen) then []
      else p :: wholeCells (seen + 1) (some p.cell) ps

/-! ## What a call pays -/

/-- How a call fails. -/
inductive Failure (ε : Type) where
  | extra (e : ε)
  | cancelled
  | resourceLimit (why : String)
  | panicked (why : String)
  /-- The loop has not come to its end. -/
  | unfinished

/-- What a call is charged to: the caller's own charge for a posting, and whether it cancels. -/
structure Meter (σ ε : Type) where
  extra : σ → Except ε Unit × σ
  cancelled : σ → Bool × σ

namespace Meter

variable {σ ε : Type} (m : Meter σ ε) (maxExamined : ℕ)

/-- `spend` -/
def spend (examined : ℕ) (s : σ) : Except (Failure ε) ℕ × σ :=
  match m.cancelled s with
  | (true, s) => (.error .cancelled, s)
  | (false, s) =>
      if examined = maxExamined then (.error (.resourceLimit "spatial max_examined exceeded"), s)
      else (.ok (examined + 1), s)

/-- The charge for one posting. -/
def charge (examined : ℕ) (s : σ) : Except (Failure ε) ℕ × σ :=
  match m.extra s with
  | (.error e, s) => (.error (.extra e), s)
  | (.ok (), s) => m.spend maxExamined examined s

/-- The charges for the postings that are read, one by one. -/
def chargeAll : List PointPosting → ℕ → σ → Except (Failure ε) ℕ × σ
  | [], examined, s => (.ok examined, s)
  | _ :: ps, examined, s =>
      match m.charge maxExamined examined s with
      | (.error e, s) => (.error e, s)
      | (.ok examined, s) => chargeAll ps examined s

/-- Where the charges have come to, after `i` of them. -/
def after (s : σ) (i : ℕ) : σ := (fun s => (m.cancelled (m.extra s).2).2)^[i] s

/-- How one charge fails, if it does: by the caller's own, by a call of `cancelled` that says so, or when as
many as are allowed have been examined. -/
def fault (examined : ℕ) (s : σ) : Option (Failure ε) :=
  match (m.extra s).1 with
  | .error e => some (.extra e)
  | .ok () =>
      if (m.cancelled (m.extra s).2).1 then some .cancelled
      else if examined = maxExamined then some (.resourceLimit "spatial max_examined exceeded")
      else none

/-- The first failure of `n` charges. -/
def stops (examined n : ℕ) (s : σ) : Option (Failure ε) :=
  (List.range n).findSome? fun i => m.fault maxExamined (examined + i) (m.after s i)

end Meter

/-! ## The walk -/

structure NearestHit where
  id : ℕ
  point : Point
  distance : ℚ

/-- The rank of a hit. -/
def NearestHit.key (h : NearestHit) : ℚ ×ₗ ℕ := toLex (h.distance, h.id)

/-- The order of `fill_one_ring`'s sort. -/
def sortHits (hits : List NearestHit) : List NearestHit :=
  hits.insertionSort fun a b => a.key ≤ b.key

/-- The fields of `NearestWalk` that no call changes. -/
structure NearestAim where
  center : Point
  hintK : ℕ
  radiusCap : Option ℚ
  maxExamined : ℕ

/-- The other fields of `NearestWalk`. -/
structure NearestWalk where
  innerRanges : List (ℕ × ℕ)
  radius : ℚ
  examined : ℕ
  probed : Bool
  ringStarted : Bool
  finished : Bool
  held : List NearestHit
  ready : List NearestHit
  readyAt : ℕ
  lastSeen : ℕ
  offered : ℕ
  accepted : ℕ

/-- The cover of a ring's radius. -/
def ringCover (μ : Metric) (center : Point) (radius : ℚ) : Option (List (ℕ × ℕ)) := do
  let bounds ← (radiusCandidateBounds μ center radius).toOption
  boundsHilbertRangesBounded false bounds nearestCoverRanges

/-- `ranges_difference` -/
def rangesDifference (outer inner : List (ℕ × ℕ)) : List (ℕ × ℕ) :=
  if inner.isEmpty then outer else Ranges.difference outer inner

/-- `ranges_union` -/
def rangesUnion (a b : List (ℕ × ℕ)) : List (ℕ × ℕ) := Ranges.merge (a ++ b)

namespace NearestWalk

/-- `NearestWalk::new` -/
def new : NearestWalk where
  innerRanges := []
  radius := nearestStartRadius
  examined := 0
  probed := false
  ringStarted := false
  finished := false
  held := []
  ready := []
  readyAt := 0
  lastSeen := 0
  offered := 0
  accepted := 0

/-- `note` -/
def note (w : NearestWalk) (accepted : Bool) : NearestWalk :=
  { w with
    offered := w.offered + 1
    accepted := if accepted then w.accepted + 1 else w.accepted }

/-- `rewind_past` -/
def rewindPast (w : NearestWalk) (past : ℚ ×ₗ ℕ) : NearestWalk :=
  { w with readyAt := (w.ready.takeWhile fun hit => hit.key ≤ past).length }

variable (μ : Metric) (aim : NearestAim) (t : PointPostings)

/-- `ring_target` -/
def ringTarget (w : NearestWalk) : ℕ :=
  let k := max aim.hintK 1
  if w.offered < k then k + 2
  else
    let factor := min (w.offered / max w.accepted 1) nearestAcceptanceCap
    min (min (k * factor) (usizeEnd - 1) + 2) (usizeEnd - 1)

/-- A radius, within the cap. -/
def capped (radius : ℚ) : ℚ := aim.radiusCap.elim radius (min radius)

/-- `initial_radius` -/
def initialRadius (w : NearestWalk) : ℚ :=
  capped aim <|
    if 0 < aim.hintK ∧ aim.hintK ≤ w.held.length then
      let distances := (w.held.map NearestHit.distance).insertionSort (· ≤ ·)
      max (distances.getD (aim.hintK - 1) 0) 1
    else nearestStartRadius

/-- `at_cap` -/
def atCap (w : NearestWalk) : Bool := aim.radiusCap.any (· ≤ w.radius)

/-- The radius that the density of the last ring suggests. -/
def jump (w : NearestWalk) : ℚ :=
  let seen := f64.round w.lastSeen
  let target := f64.round (ringTarget aim w)
  if 0 < w.lastSeen then
    let density := f64.round (seen / f64.round (f64.round (pi * w.radius) * w.radius))
    f64.round (μ.sqrt (f64.round (target / f64.round (pi * density))) * (5 / 4))
  else 0

/-- The most a radius is multiplied by. -/
def ceiling (w : NearestWalk) : ℚ :=
  let target := f64.round (ringTarget aim w)
  f64.round (nearestGrowthFactor
    * max (μ.sqrt (f64.round (target / f64.round (max aim.hintK 1 + 2 : ℕ)))) 1)

/-- The walk with its next radius. -/
def grown (w : NearestWalk) : NearestWalk :=
  let radius := max (jump μ aim w) (f64.round (w.radius * 2))
  { w with radius := capped aim (min radius (f64.round (w.radius * ceiling μ aim w))) }

/-- `grow_radius`, or none where a sum overflows. -/
def growRadius (w : NearestWalk) : Option NearestWalk :=
  if usizeEnd ≤ max aim.hintK 1 + 2 then none else some (grown μ aim w)

/-- `push_held` -/
def hitOf (p : PointPosting) : NearestHit := ⟨p.sequence, p.point, μ.distance aim.center p.point⟩

/-- The cell of the centre. -/
def centreCell : ℕ := pointHilbert (aim.center.lon, aim.center.lat)

/-- What the probe reads from the centre's cell on. -/
def probeUp : List PointPosting := wholeCells 0 none (t.indexRange (centreCell aim) 0)

/-- What the probe reads below the centre's cell. -/
def probeDown : List PointPosting := wholeCells 0 none (t.indexRangeReverse (centreCell aim) 0)

/-- The cells the probe has read. -/
def probeRange : ℕ × ℕ :=
  (((probeDown aim t).map PointPosting.cell).foldr min (centreCell aim),
    ((probeUp aim t).map PointPosting.cell).foldr max (centreCell aim))

variable {σ ε : Type} (m : Meter σ ε)

/-- `probe`.  A failure leaves the walk as it was. -/
def probe (w : NearestWalk) (s : σ) : Except (Failure ε) NearestWalk × σ :=
  let hits := probeUp aim t ++ probeDown aim t
  match m.chargeAll aim.maxExamined hits w.examined s with
  | (.error e, s) => (.error e, s)
  | (.ok examined, s) =>
      (.ok { w with
        examined := examined
        held := w.held ++ hits.map (hitOf μ aim)
        innerRanges := w.innerRanges ++ if hits.isEmpty then [] else [probeRange aim t] }, s)

/-- The start of `fill_one_ring`: the radius of the ring. -/
def beginRing (w : NearestWalk) (s : σ) : Except (Failure ε) NearestWalk × σ :=
  if !w.probed then
    match probe μ aim t m w s with
    | (.error e, s) => (.error e, s)
    | (.ok w, s) => (.ok { w with probed := true, radius := initialRadius aim w }, s)
  else if w.ringStarted then
    match growRadius μ aim w with
    | none => (.error (.panicked "attempt to add with overflow"), s)
    | some w => (.ok w, s)
  else (.ok w, s)

/-- The end of `fill_one_ring`, when the postings of the ring are read. -/
def emitRing (outer : List (ℕ × ℕ)) (found : List PointPosting) (examined : ℕ) (w : NearestWalk) : NearestWalk :=
  let last := worldRadius w.radius || atCap aim w
  let emitUpto := if last then aim.radiusCap else some w.radius
  let held := sortHits (w.held ++ found.map (hitOf μ aim))
  let ready := held.takeWhile fun hit => emitUpto.all (hit.distance ≤ ·)
  { w with
    examined := examined
    held := if last then [] else held.drop ready.length
    ready := ready
    readyAt := 0
    ringStarted := true
    lastSeen := examined - w.examined
    finished := w.finished || last
    innerRanges := if last then w.innerRanges else rangesUnion w.innerRanges outer }

/-- `fill_one_ring` -/
def fillOneRing (w : NearestWalk) (s : σ) : Except (Failure ε) Unit × NearestWalk × σ :=
  match beginRing μ aim t m w s with
  | (.error e, s) => (.error e, w, s)
  | (.ok w, s) =>
      match ringCover μ aim.center w.radius with
      | none => (.error (.panicked "finite non-negative radius"), w, s)
      | some outer =>
          let found := t.visitRanges (rangesDifference outer w.innerRanges)
          match m.chargeAll aim.maxExamined found w.examined s with
          | (.error e, s) => (.error e, w, s)
          | (.ok examined, s) => (.ok (), emitRing μ aim outer found examined w, s)

/-- The loop of `next`. -/
def nextLoop : ℕ → NearestWalk → σ → Except (Failure ε) (Option NearestHit) × NearestWalk × σ
  | 0, w, s => (.error .unfinished, w, s)
  | fuel + 1, w, s =>
      match w.ready[w.readyAt]? with
      | some hit => (.ok (some hit), { w with readyAt := w.readyAt + 1 }, s)
      | none =>
          if w.finished then (.ok none, w, s)
          else
            match fillOneRing μ aim t m { w with ready := [], readyAt := 0 } s with
            | (.error e, w, s) => (.error e, w, s)
            | (.ok (), w, s) => nextLoop fuel w s

/-- `next`.  No walk comes to this many rings. -/
def next (w : NearestWalk) (s : σ) : Except (Failure ε) (Option NearestHit) × NearestWalk × σ :=
  nextLoop μ aim t m 64 w s

end NearestWalk

/-! ## What is charged -/

namespace Meter

variable {σ ε : Type} {m : Meter σ ε} {maxExamined examined : ℕ} {s : σ} {f : Failure ε}

@[simp] lemma after_zero : m.after s 0 = s := rfl

lemma after_succ (s : σ) (i : ℕ) : m.after s (i + 1) = m.after (m.after s 1) i :=
  Function.iterate_succ_apply _ i s

lemma after_add (s : σ) (a b : ℕ) : m.after s (a + b) = m.after (m.after s a) b := by
  rw [after, Nat.add_comm, Function.iterate_add_apply]
  rfl

@[simp] lemma stops_zero : m.stops maxExamined examined 0 s = none := rfl

lemma stops_succ (n : ℕ) : m.stops maxExamined examined (n + 1) s
    = (m.fault maxExamined examined s).or (m.stops maxExamined (examined + 1) n (m.after s 1)) := by
  have hshift : ∀ i, m.fault maxExamined (examined + (i + 1)) (m.after s (i + 1))
      = m.fault maxExamined (examined + 1 + i) (m.after (m.after s 1) i) := by
    intro i
    rw [after_succ, Nat.add_right_comm, Nat.add_assoc]
  rw [stops, stops, List.range_succ_eq_map, List.findSome?_cons, List.findSome?_map]
  simp only [Function.comp_def, Nat.succ_eq_add_one, hshift, Nat.add_zero, after_zero]
  cases m.fault maxExamined examined s <;> rfl

/-- Charges one after another. -/
lemma stops_add (a b : ℕ) : m.stops maxExamined examined (a + b) s
    = (m.stops maxExamined examined a s).or (m.stops maxExamined (examined + a) b (m.after s a)) := by
  induction a generalizing examined s with
  | zero => simp
  | succ a ih =>
      rw [Nat.succ_add, stops_succ, stops_succ, ih, Option.or_assoc, after_succ s a]
      congr 3
      omega

lemma stops_eq_none {n : ℕ} (h : ∀ i < n, m.fault maxExamined (examined + i) (m.after s i) = none) :
    m.stops maxExamined examined n s = none :=
  List.findSome?_eq_none_iff.2 fun i hi => h i (List.mem_range.1 hi)

/-- The first charge that fails. -/
lemma stops_eq_some {n i : ℕ} (hi : i < n) (hfault : m.fault maxExamined (examined + i) (m.after s i) = some f)
    (h : ∀ j < i, m.fault maxExamined (examined + j) (m.after s j) = none) :
    m.stops maxExamined examined n s = some f := by
  obtain ⟨r, rfl⟩ := Nat.exists_eq_add_of_le hi
  rw [Nat.succ_add_eq_add_succ, stops_add, stops_eq_none h, Option.none_or, stops_succ, hfault, Option.some_or]

lemma charge_ok (h : m.fault maxExamined examined s = none) :
    m.charge maxExamined examined s = (.ok (examined + 1), m.after s 1) := by
  rw [fault] at h
  cases he : m.extra s with
  | mk r s' =>
      cases r with
      | error e => simp [he] at h
      | ok u =>
          simp only [he] at h
          split_ifs at h with hc hmax
          cases hs : m.cancelled s' with
          | mk c s'' =>
              rw [hs] at hc
              obtain rfl : c = false := Bool.not_eq_true _ ▸ hc
              simp [charge, spend, he, hs, hmax, after]

lemma charge_error (h : m.fault maxExamined examined s = some f) :
    ∃ s', m.charge maxExamined examined s = (.error f, s') := by
  rw [fault] at h
  cases he : m.extra s with
  | mk r s' =>
      cases r with
      | error e =>
          simp only [he, Option.some.injEq] at h
          exact ⟨s', by simp [charge, he, h]⟩
      | ok u =>
          simp only [he] at h
          cases hs : m.cancelled s' with
          | mk c s'' =>
              rw [hs] at h
              cases c with
              | true =>
                  simp only [if_true, Option.some.injEq] at h
                  exact ⟨s'', by simp [charge, spend, he, hs, h]⟩
              | false =>
                  simp only [Bool.false_eq_true, if_false] at h
                  split_ifs at h with hmax
                  obtain rfl := Option.some.inj h
                  exact ⟨s'', by simp [charge, spend, he, hs, hmax]⟩

/-- **Postings whose charges pass are read.** -/
lemma chargeAll_ok {l : List PointPosting} (h : m.stops maxExamined examined l.length s = none) :
    m.chargeAll maxExamined l examined s = (.ok (examined + l.length), m.after s l.length) := by
  induction l generalizing examined s with
  | nil => rfl
  | cons p l ih =>
      rw [List.length_cons, stops_succ, Option.or_eq_none_iff] at h
      rw [chargeAll, charge_ok h.1]
      dsimp only
      rw [ih h.2, List.length_cons, after_succ s l.length, Nat.add_right_comm, Nat.add_assoc]

/-- **Reading fails with the first charge that does.** -/
lemma chargeAll_error {l : List PointPosting} (h : m.stops maxExamined examined l.length s = some f) :
    ∃ s', m.chargeAll maxExamined l examined s = (.error f, s') := by
  induction l generalizing examined s with
  | nil => simp at h
  | cons p l ih =>
      rw [List.length_cons, stops_succ] at h
      cases hfault : m.fault maxExamined examined s with
      | some f' =>
          rw [hfault, Option.some_or, Option.some.injEq] at h
          obtain ⟨s', hs'⟩ := charge_error hfault
          exact ⟨s', by rw [chargeAll, hs', h]⟩
      | none =>
          rw [hfault, Option.none_or] at h
          obtain ⟨s', hs'⟩ := ih h
          exact ⟨s', by rw [chargeAll, charge_ok hfault]; exact hs'⟩

end Meter

/-! ## What a ring reads -/

/-- A cell is in one of the ranges. -/
def covered (rs : List (ℕ × ℕ)) (p : PointPosting) : Bool :=
  rs.any fun r => decide (r.1 ≤ p.cell) && decide (p.cell ≤ r.2)

@[simp] lemma covered_iff {rs : List (ℕ × ℕ)} {p : PointPosting} :
    covered rs p = true ↔ Ranges.Covers rs p.cell := by
  simp [covered, Ranges.Covers]

namespace PointPostings

variable {t : PointPostings} {rs : List (ℕ × ℕ)} {r : ℕ × ℕ}

lemma entries_nodup (t : PointPostings) : t.entries.Nodup :=
  t.distinct.imp fun hne heq => hne (congrArg PointPosting.sequence heq)

lemma entries_le (t : PointPostings) : t.entries.Pairwise fun p q => p.cell ≤ q.cell := by
  refine t.sorted.imp ?_
  intro p q h
  simp only [PointPosting.before, decide_eq_true_eq] at h
  omega

/-- The keys from a cell's first on. -/
lemma indexRange_cell (t : PointPostings) (cell : ℕ) :
    t.indexRange cell 0 = t.entries.filter fun p => decide (cell ≤ p.cell) := by
  rw [indexRange]
  congr 1
  funext p
  rw [Bool.eq_iff_iff]
  simp [PointPosting.before]

/-- The keys below a cell's first. -/
lemma indexRangeReverse_cell (t : PointPostings) (cell : ℕ) :
    t.indexRangeReverse cell 0 = (t.entries.filter fun p => decide (p.cell < cell)).reverse := by
  rw [indexRangeReverse]
  congr 2
  funext p
  rw [Bool.eq_iff_iff]
  simp [PointPosting.before]

/-- A range of cells is read whole. -/
lemma visitRange_eq (hr : r.1 ≤ r.2) (hbound : r.2 ≤ maxHilbertValue) :
    t.visitRange r = t.entries.filter fun p => decide (r.1 ≤ p.cell) && decide (p.cell ≤ r.2) := by
  have hcell : r.1 % 2 ^ 32 = r.1 := Nat.mod_eq_of_lt ((hr.trans hbound).trans_lt (by decide))
  have hsorted : (t.entries.filter fun p => decide (r.1 ≤ p.cell)).Pairwise
      fun p q => p.cell ≤ q.cell := t.entries_le.filter _
  rw [visitRange, hcell, indexRange_cell, takeWhile_eq_filter (hsorted.imp ?_), List.filter_filter]
  · congr 1
    funext p
    rw [Bool.and_comm]
  · intro p q hle hq
    simp only [decide_eq_true_eq] at hq ⊢
    exact hle.trans hq

/-- **Ranges in order are read whole**, and in the order of the keys. -/
lemma visitRanges_eq (hapart : Ranges.Apart rs) (hrs : ∀ r ∈ rs, r.1 ≤ r.2 ∧ r.2 ≤ maxHilbertValue) :
    t.visitRanges rs = t.entries.filter (covered rs) := by
  induction rs with
  | nil => simp [visitRanges, covered]
  | cons r rs ih =>
      obtain ⟨hr, hbound⟩ := hrs r List.mem_cons_self
      obtain ⟨hfirst, hrest⟩ := List.pairwise_cons.1 hapart
      -- a cell of a later range is past the first
      have hpast : ∀ p : PointPosting, covered rs p = true → r.2 < p.cell := by
        intro p hp
        obtain ⟨s, hs, hlo, -⟩ := covered_iff.1 hp
        exact (hfirst s hs).trans_le hlo
      have happend : t.visitRanges (r :: rs) = t.visitRange r ++ t.visitRanges rs := by
        simp [visitRanges]
      rw [happend, visitRange_eq hr hbound, ih hrest fun s hs => hrs s (List.mem_cons_of_mem r hs),
        filter_append_filter]
      · rfl
      · refine t.entries_le.imp ?_
        rintro p q hle ⟨hp, hq⟩
        have := hpast p hp
        simp only [Bool.and_eq_true, decide_eq_true_eq] at hq
        omega
      · rintro p - ⟨hp, hq⟩
        have := hpast p hq
        simp only [Bool.and_eq_true, decide_eq_true_eq] at hp
        omega

end PointPostings

/-- What a ring reads: the cells of its cover, without those that were read before. -/
lemma visitRanges_difference {t : PointPostings} {outer inner : List (ℕ × ℕ)}
    (houter : Ranges.Separated outer) (hinhabited : Ranges.Inhabited outer)
    (hbound : ∀ r ∈ outer, r.2 ≤ maxHilbertValue)
    (hsep : Ranges.Separated inner) (hin : Ranges.Inhabited inner) :
    t.visitRanges (rangesDifference outer inner)
      = t.entries.filter fun p => covered outer p && !covered inner p := by
  have hcovers : ∀ p : PointPosting, covered (rangesDifference outer inner) p
      = (covered outer p && !covered inner p) := by
    intro p
    rw [Bool.eq_iff_iff, Bool.and_eq_true, Bool.not_eq_true', ← Bool.not_eq_true, covered_iff, covered_iff,
      covered_iff, rangesDifference]
    split_ifs with hempty
    · rw [List.isEmpty_iff.1 hempty]
      simp
    · exact Ranges.covers_difference houter hsep hin
  rw [PointPostings.visitRanges_eq ?_ ?_]
  · exact List.filter_congr fun p _ => hcovers p
  · rw [rangesDifference]
    split_ifs
    · exact houter.imp fun h => by omega
    · exact (Ranges.difference_pieces houter hin).1
  · intro r hr
    rw [rangesDifference] at hr
    split_ifs at hr
    · exact ⟨hinhabited r hr, hbound r hr⟩
    · obtain ⟨hle, s, hs, -, hhi⟩ := (Ranges.difference_pieces houter hin).2 r hr
      exact ⟨hle, hhi.trans (hbound s hs)⟩

/-! ## What the probe reads -/

/-- Cells in order: what one side of the probe leaves is in none of the cells that it reads. -/
lemma wholeCells_spec (le : ℕ → ℕ → Prop) (hanti : ∀ a b, le a b → le b a → a = b) (seen : ℕ)
    (current : Option ℕ) {l : List PointPosting} (hl : l.Pairwise fun p q => le p.cell q.cell)
    (hcurrent : ∀ c ∈ current, ∀ p ∈ l, le c p.cell) :
    ∃ rest, l = wholeCells seen current l ++ rest
      ∧ (∀ p ∈ rest, current ≠ some p.cell)
      ∧ ∀ p ∈ wholeCells seen current l, ∀ q ∈ rest, p.cell ≠ q.cell := by
  induction l generalizing seen current with
  | nil => exact ⟨[], rfl, by simp, by simp⟩
  | cons p l ih =>
      obtain ⟨hp, htail⟩ := List.pairwise_cons.1 hl
      rw [wholeCells]
      split_ifs with hstop
      · refine ⟨p :: l, rfl, fun q hq heq => ?_, by simp⟩
        simp only [Bool.and_eq_true, Option.any_eq_true, decide_eq_true_eq] at hstop
        obtain ⟨⟨c, hc, hne⟩, -⟩ := hstop
        obtain rfl : c = q.cell := Option.some.inj (hc.symm.trans heq)
        have hback := hcurrent _ hc p List.mem_cons_self
        rcases List.mem_cons.1 hq with rfl | hq
        · exact hne rfl
        · exact hne (hanti _ _ hback (hp q hq))
      · obtain ⟨rest, hrest, hnot, hcells⟩ := ih (seen + 1) (some p.cell) htail
          (fun c hc q hq => Option.some.inj hc ▸ hp q hq)
        have hother : ∀ q ∈ rest, p.cell ≠ q.cell := fun q hq heq => hnot q hq (congrArg some heq)
        refine ⟨rest, ?_, fun q hq heq => ?_, fun q hq s hs => ?_⟩
        · rw [List.cons_append, ← hrest]
        · have hmem : q ∈ l := hrest ▸ List.mem_append_right _ hq
          have hforth := hcurrent _ heq p List.mem_cons_self
          exact hother q hq (hanti _ _ (hp q hmem) hforth)
        · rcases List.mem_cons.1 hq with rfl | hq
          · exact hother s hs
          · exact hcells q hq s hs

lemma wholeCells_sublist (seen : ℕ) (current : Option ℕ) (l : List PointPosting) :
    (wholeCells seen current l).Sublist l := by
  induction l generalizing seen current with
  | nil => exact List.Sublist.refl _
  | cons p l ih =>
      rw [wholeCells]
      split_ifs
      · exact List.nil_sublist _
      · exact (ih _ _).cons_cons p

lemma wholeCells_eq_nil {seen : ℕ} {l : List PointPosting} (h : wholeCells seen none l = []) : l = [] := by
  cases l with
  | nil => rfl
  | cons p l => simp [wholeCells] at h

lemma foldr_max_lt {l : List ℕ} {c n : ℕ} : l.foldr max c < n ↔ c < n ∧ ∀ x ∈ l, x < n := by
  induction l with
  | nil => simp
  | cons x l ih =>
      rw [List.foldr_cons, max_lt_iff, ih, List.forall_mem_cons]
      exact and_left_comm

lemma lt_foldr_min {l : List ℕ} {c n : ℕ} : n < l.foldr min c ↔ n < c ∧ ∀ x ∈ l, n < x := by
  induction l with
  | nil => simp
  | cons x l ih =>
      rw [List.foldr_cons, lt_min_iff, ih, List.forall_mem_cons]
      exact and_left_comm

namespace NearestWalk

variable {aim : NearestAim} {t : PointPostings} {p : PointPosting}

/-- The probe reads the cells from the centre's up to the last one that it sees. -/
lemma mem_probeUp : p ∈ probeUp aim t ↔
    p ∈ t.entries ∧ centreCell aim ≤ p.cell ∧ p.cell ≤ (probeRange aim t).2 := by
  have hsorted : (t.indexRange (centreCell aim) 0).Pairwise fun p q => p.cell ≤ q.cell := by
    rw [PointPostings.indexRange_cell]
    exact t.entries_le.filter _
  obtain ⟨rest, hrest, -, hcells⟩ := wholeCells_spec (· ≤ ·) (fun _ _ => Nat.le_antisymm) 0 none hsorted (by simp)
  have hsplit : t.indexRange (centreCell aim) 0 = probeUp aim t ++ rest := hrest
  have hmem : ∀ q, q ∈ t.indexRange (centreCell aim) 0 ↔ q ∈ t.entries ∧ centreCell aim ≤ q.cell := by
    simp [PointPostings.indexRange_cell]
  rw [hsplit] at hsorted
  rw [← and_assoc, ← hmem, hsplit, List.mem_append, probeRange]
  constructor
  · intro hp
    refine ⟨Or.inl hp, not_lt.1 fun hlt => ?_⟩
    exact absurd ((foldr_max_lt.1 hlt).2 _ (List.mem_map_of_mem hp)) (lt_irrefl _)
  · rintro ⟨hp | hp, hle⟩
    · exact hp
    -- past every cell that was read
    · have hbefore : ∀ q ∈ probeUp aim t, q.cell < p.cell := fun q hq =>
        lt_of_le_of_ne ((List.pairwise_append.1 hsorted).2.2 q hq p hp) (hcells q hq p hp)
      obtain ⟨q, hq⟩ : ∃ q, q ∈ probeUp aim t := by
        refine List.exists_mem_of_ne_nil _ fun hnil => ?_
        have hempty := wholeCells_eq_nil hnil
        rw [hsplit, hnil, List.nil_append] at hempty
        exact List.not_mem_nil (hempty ▸ hp)
      have hcentre : centreCell aim ≤ q.cell := ((hmem q).1 (hsplit ▸ List.mem_append_left rest hq)).2
      refine absurd hle (not_le.2 (foldr_max_lt.2 ⟨hcentre.trans_lt (hbefore q hq), fun c hc => ?_⟩))
      obtain ⟨r, hr, rfl⟩ := List.mem_map.1 hc
      exact hbefore r hr

/-- The probe reads the cells below the centre's down to the last one that it sees. -/
lemma mem_probeDown : p ∈ probeDown aim t ↔
    p ∈ t.entries ∧ p.cell < centreCell aim ∧ (probeRange aim t).1 ≤ p.cell := by
  have hsorted : (t.indexRangeReverse (centreCell aim) 0).Pairwise fun p q => q.cell ≤ p.cell := by
    rw [PointPostings.indexRangeReverse_cell, List.pairwise_reverse]
    exact t.entries_le.filter _
  obtain ⟨rest, hrest, -, hcells⟩ := wholeCells_spec (· ≥ ·)
    (fun _ _ h h' => Nat.le_antisymm h' h) 0 none hsorted (by simp)
  have hsplit : t.indexRangeReverse (centreCell aim) 0 = probeDown aim t ++ rest := hrest
  have hmem : ∀ q, q ∈ t.indexRangeReverse (centreCell aim) 0 ↔
      q ∈ t.entries ∧ q.cell < centreCell aim := by
    simp [PointPostings.indexRangeReverse_cell]
  rw [hsplit] at hsorted
  rw [← and_assoc, ← hmem, hsplit, List.mem_append, probeRange]
  constructor
  · intro hp
    refine ⟨Or.inl hp, not_lt.1 fun hlt => ?_⟩
    exact absurd ((lt_foldr_min.1 hlt).2 _ (List.mem_map_of_mem hp)) (lt_irrefl _)
  · rintro ⟨hp | hp, hle⟩
    · exact hp
    · have hbefore : ∀ q ∈ probeDown aim t, p.cell < q.cell := fun q hq =>
        lt_of_le_of_ne ((List.pairwise_append.1 hsorted).2.2 q hq p hp) (hcells q hq p hp).symm
      obtain ⟨q, hq⟩ : ∃ q, q ∈ probeDown aim t := by
        refine List.exists_mem_of_ne_nil _ fun hnil => ?_
        have hempty := wholeCells_eq_nil hnil
        rw [hsplit, hnil, List.nil_append] at hempty
        exact List.not_mem_nil (hempty ▸ hp)
      have hcentre : q.cell < centreCell aim := ((hmem q).1 (hsplit ▸ List.mem_append_left rest hq)).2
      refine absurd hle (not_le.2 (lt_foldr_min.2 ⟨(hbefore q hq).trans hcentre, fun c hc => ?_⟩))
      obtain ⟨r, hr, rfl⟩ := List.mem_map.1 hc
      exact hbefore r hr

lemma probeRange_le (aim : NearestAim) (t : PointPostings) :
    (probeRange aim t).1 ≤ centreCell aim ∧ centreCell aim ≤ (probeRange aim t).2 := by
  refine ⟨not_lt.1 fun hlt => ?_, not_lt.1 fun hlt => ?_⟩
  · exact lt_irrefl _ (lt_foldr_min.1 hlt).1
  · exact lt_irrefl _ (foldr_max_lt.1 hlt).1

/-- **The probe reads the cells of its range whole**, each posting once. -/
lemma probe_perm : (probeUp aim t ++ probeDown aim t).Perm (t.entries.filter (covered [probeRange aim t])) := by
  obtain ⟨hlo, hhi⟩ := probeRange_le aim t
  have hup : (probeUp aim t).Nodup := by
    refine (wholeCells_sublist _ _ _).nodup ?_
    rw [PointPostings.indexRange_cell]
    exact t.entries_nodup.filter _
  have hdown : (probeDown aim t).Nodup := by
    refine (wholeCells_sublist _ _ _).nodup ?_
    rw [PointPostings.indexRangeReverse_cell]
    exact List.nodup_reverse.2 (t.entries_nodup.filter _)
  rw [List.perm_ext_iff_of_nodup]
  · intro p
    simp only [List.mem_append, mem_probeUp, mem_probeDown, List.mem_filter, covered_iff, Ranges.covers_cons,
      Ranges.not_covers_nil, or_false]
    constructor
    · rintro (⟨hp, h, h'⟩ | ⟨hp, h, h'⟩)
      · exact ⟨hp, hlo.trans h, h'⟩
      · exact ⟨hp, h', (h.trans_le hhi).le⟩
    · rintro ⟨hp, h, h'⟩
      rcases le_or_gt (centreCell aim) p.cell with hcentre | hcentre
      · exact Or.inl ⟨hp, hcentre, h'⟩
      · exact Or.inr ⟨hp, hcentre, h⟩
  · refine List.nodup_append.2 ⟨hup, hdown, ?_⟩
    rintro p hp q hq rfl
    exact absurd (mem_probeUp.1 hp).2.1 (not_le.2 (mem_probeDown.1 hq).2.1)
  · exact t.entries_nodup.filter _

end NearestWalk

end Engine.Spatial
