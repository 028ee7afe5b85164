import Sekejap.Spatial.Nearest

/-!
# The rings of the nearest walk

Whatever radii a walk takes, a ring hands over the next of all the postings within the cap, by distance and
id: what is beyond a level was not handed over, and what is not was in the cells that were read (`Filled`).

* **`ringEnd_more`**, **`ringEnd_last`** — a ring hands over what is within its radius, and the last one all
  that remains.
* **`grown_le`**, **`last_of_le`** — the radius doubles, and after some doublings the ring is the last.
-/

open Ieee (f64)

open Parting

namespace Engine.Spatial

/-! ## Hits in order -/

/-- A hit is handed over before another. -/
def NearestHit.lt (a b : NearestHit) : Prop := a.key < b.key

instance : Std.Asymm NearestHit.lt := ⟨fun _ _ h h' => lt_asymm h h'⟩

instance : Std.Irrefl NearestHit.lt := ⟨fun _ h => lt_irrefl _ h⟩

lemma NearestHit.distance_le {a b : NearestHit} (h : a.lt b) : a.distance ≤ b.distance := by
  rcases Prod.Lex.lt_iff.1 h with h | h
  · exact h.le
  · exact h.1.le

lemma sortHits_perm (l : List NearestHit) : (sortHits l).Perm l := List.perm_insertionSort _ _

/-- Hits of distinct ids are put in order. -/
lemma sortHits_pairwise {l : List NearestHit} (h : l.Pairwise fun a b => a.id ≠ b.id) :
    (sortHits l).Pairwise NearestHit.lt := by
  have : Std.Total fun a b : NearestHit => a.key ≤ b.key := ⟨fun a b => le_total a.key b.key⟩
  have : IsTrans NearestHit fun a b => a.key ≤ b.key := ⟨fun _ _ _ hab hbc => hab.trans hbc⟩
  have hle : (sortHits l).Pairwise fun a b => a.key ≤ b.key := List.pairwise_insertionSort _ l
  have hne : (sortHits l).Pairwise fun a b => a.id ≠ b.id :=
    ((sortHits_perm l).pairwise_iff fun h => h.symm).2 h
  refine (hle.and hne).imp ?_
  rintro a b ⟨hab, hid⟩
  refine lt_of_le_of_ne hab fun hkey => hid ?_
  exact congrArg (fun k => (ofLex k).2) hkey

/-- What a distance keeps of hits in order is the first of them. -/
lemma pairwise_emit {l : List NearestHit} {emit : ℚ → Bool} (h : l.Pairwise NearestHit.lt)
    (hemit : ∀ c d, c ≤ d → emit d = true → emit c = true) :
    l.Pairwise fun a b => emit b.distance = true → emit a.distance = true :=
  h.imp fun hlt => hemit _ _ (NearestHit.distance_le hlt)

namespace NearestWalk

section

variable (μ : Metric) (aim : NearestAim) (t : PointPostings)

/-- The distance of a posting. -/
def far (p : PointPosting) : ℚ := μ.distance aim.center p.point

/-- A distance within the cap. -/
def within (d : ℚ) : Bool := aim.radiusCap.all (d ≤ ·)

/-- A distance past those that were handed over. -/
def beyond (level : Option ℚ) (d : ℚ) : Bool := level.all (· < d)

/-- Every posting within the cap, by distance and id. -/
def nearest : List NearestHit :=
  sortHits ((t.entries.filter fun p => within aim (far μ aim p)).map (hitOf μ aim))

/-- What is still to be handed over. -/
def remaining (level : Option ℚ) : List NearestHit :=
  (nearest μ aim t).filter fun hit => beyond level hit.distance

end

variable {μ : Metric} {aim : NearestAim} {t : PointPostings} {w : NearestWalk} {level : Option ℚ}
  {outer : List (ℕ × ℕ)} {h : NearestHit}

lemma hits_distinct (P : PointPosting → Bool) :
    ((t.entries.filter P).map (hitOf μ aim)).Pairwise fun a b => a.id ≠ b.id := by
  rw [List.pairwise_map]
  exact t.distinct.filter P

lemma nearest_pairwise : (nearest μ aim t).Pairwise NearestHit.lt := sortHits_pairwise (hits_distinct _)

lemma mem_nearest : h ∈ nearest μ aim t ↔
    (∃ p ∈ t.entries, hitOf μ aim p = h) ∧ within aim h.distance = true := by
  rw [nearest, (sortHits_perm _).mem_iff, List.mem_map]
  constructor
  · rintro ⟨p, hp, rfl⟩
    obtain ⟨hmem, hwithin⟩ := List.mem_filter.1 hp
    exact ⟨⟨p, hmem, rfl⟩, hwithin⟩
  · rintro ⟨⟨p, hp, rfl⟩, hwithin⟩
    exact ⟨p, List.mem_filter.2 ⟨hp, hwithin⟩, rfl⟩

/-! ## What the walk holds -/

/-- The walk has handed over what is not beyond `level`, and holds the rest of the cells that it has read; it
has examined just the postings of these. -/
structure Filled (μ : Metric) (aim : NearestAim) (t : PointPostings) (w : NearestWalk) (level : Option ℚ) :
    Prop where
  separated : Ranges.Separated w.innerRanges
  inhabited : Ranges.Inhabited w.innerRanges
  held : w.held.Perm
    ((t.entries.filter fun p => covered w.innerRanges p && beyond level (far μ aim p)).map (hitOf μ aim))
  near : ∀ p ∈ t.entries, beyond level (far μ aim p) = false → covered w.innerRanges p = true
  examined : w.examined = (t.entries.filter (covered w.innerRanges)).length

/-- A cover: in order, and within the curve. -/
structure IsCover (outer : List (ℕ × ℕ)) : Prop where
  separated : Ranges.Separated outer
  inhabited : Ranges.Inhabited outer
  bound : ∀ r ∈ outer, r.2 ≤ maxHilbertValue

/-- What a ring sorts. -/
def gathered (μ : Metric) (aim : NearestAim) (t : PointPostings) (outer : List (ℕ × ℕ)) (w : NearestWalk) :
    List NearestHit :=
  w.held ++ (t.visitRanges (rangesDifference outer w.innerRanges)).map (hitOf μ aim)

/-- **A ring has every posting of the cells read so far** that was not handed over. -/
lemma Filled.gathered_perm (hw : Filled μ aim t w level) (ho : IsCover outer) :
    (gathered μ aim t outer w).Perm
      ((t.entries.filter fun p => (covered w.innerRanges p || covered outer p) && beyond level (far μ aim p)).map
        (hitOf μ aim)) := by
  rw [gathered, visitRanges_difference ho.separated ho.inhabited ho.bound hw.separated hw.inhabited]
  refine (hw.held.append_right _).trans ?_
  rw [← List.map_append]
  refine List.Perm.map _ ((filter_append_perm_filter ?_).trans (List.Perm.of_eq (List.filter_congr ?_)))
  · rintro p - ⟨hin, hout⟩
    simp only [Bool.and_eq_true, Bool.not_eq_true'] at hin hout
    rw [hin.1] at hout
    exact Bool.noConfusion hout.2
  · intro p hp
    have hnear := hw.near p hp
    cases hb : beyond level (far μ aim p) with
    | true => cases covered w.innerRanges p <;> cases covered outer p <;> rfl
    | false =>
        rw [hnear hb]
        simp

lemma Filled.sorted (hw : Filled μ aim t w level) (ho : IsCover outer) :
    (sortHits (gathered μ aim t outer w)).Pairwise NearestHit.lt :=
  sortHits_pairwise (((hw.gathered_perm ho).pairwise_iff fun h => h.symm).2 (hits_distinct _))

lemma Filled.mem_gathered (hw : Filled μ aim t w level) (ho : IsCover outer) :
    h ∈ sortHits (gathered μ aim t outer w) ↔
      (∃ p ∈ t.entries, (covered w.innerRanges p = true ∨ covered outer p = true) ∧ hitOf μ aim p = h)
        ∧ beyond level h.distance = true := by
  rw [(sortHits_perm _).mem_iff, (hw.gathered_perm ho).mem_iff, List.mem_map]
  constructor
  · rintro ⟨p, hp, rfl⟩
    simp only [List.mem_filter, Bool.and_eq_true, Bool.or_eq_true] at hp
    exact ⟨⟨p, hp.1, hp.2.1, rfl⟩, hp.2.2⟩
  · rintro ⟨⟨p, hp, hcell, rfl⟩, hbeyond⟩
    refine ⟨p, ?_, rfl⟩
    simp only [List.mem_filter, Bool.and_eq_true, Bool.or_eq_true]
    exact ⟨hp, hcell, hbeyond⟩

/-- What leaves a ring is the next of all the postings: those up to a distance, when the cells of each of
these were read. -/
lemma Filled.emitted (hw : Filled μ aim t w level) (ho : IsCover outer) {emit : ℚ → Bool}
    (hdown : ∀ c d, c ≤ d → emit d = true → emit c = true)
    (hwithin : ∀ d, emit d = true → within aim d = true)
    (hread : ∀ p ∈ t.entries, emit (far μ aim p) = true →
      covered w.innerRanges p = true ∨ covered outer p = true) :
    (sortHits (gathered μ aim t outer w)).takeWhile (fun hit => emit hit.distance)
      = (nearest μ aim t).filter fun hit => beyond level hit.distance && emit hit.distance := by
  have hsorted := hw.sorted ho
  rw [takeWhile_eq_filter (pairwise_emit hsorted hdown)]
  refine (hsorted.filter _).eq_of_mem_iff (nearest_pairwise.filter _) fun h => ?_
  simp only [List.mem_filter, Bool.and_eq_true, hw.mem_gathered ho, mem_nearest]
  constructor
  · rintro ⟨⟨⟨p, hp, -, rfl⟩, hbeyond⟩, hemit⟩
    exact ⟨⟨⟨p, hp, rfl⟩, hwithin _ hemit⟩, hbeyond, hemit⟩
  · rintro ⟨⟨⟨p, hp, rfl⟩, -⟩, hbeyond, hemit⟩
    exact ⟨⟨⟨p, hp, hread p hp hemit, rfl⟩, hbeyond⟩, hemit⟩

/-! ## A ring -/

/-- What a ring has to cover. -/
structure Covering (μ : Metric) (aim : NearestAim) (t : PointPostings) (radius : ℚ) (outer : List (ℕ × ℕ)) :
    Prop extends IsCover outer where
  near : ∀ p ∈ t.entries, far μ aim p ≤ radius → covered outer p = true
  world : worldRadius radius = true → ∀ p ∈ t.entries, covered outer p = true

/-- What a ring reads. -/
def ringFound (t : PointPostings) (outer : List (ℕ × ℕ)) (w : NearestWalk) : List PointPosting :=
  t.visitRanges (rangesDifference outer w.innerRanges)

/-- The end of `fill_one_ring`, with what the ring reads. -/
def ringEnd (μ : Metric) (aim : NearestAim) (t : PointPostings) (outer : List (ℕ × ℕ)) (w : NearestWalk) :
    NearestWalk :=
  emitRing μ aim outer (ringFound t outer w) (w.examined + (ringFound t outer w).length) w

/-- A ring examines the postings of its cover that were not examined before. -/
lemma Filled.examined_ring (hw : Filled μ aim t w level) (ho : IsCover outer) :
    w.examined + (ringFound t outer w).length
      = (t.entries.filter fun p => covered w.innerRanges p || covered outer p).length := by
  have hparts := (filter_append_perm_filter (l := t.entries) (p := covered w.innerRanges)
    (q := fun p => covered outer p && !covered w.innerRanges p) ?_).length_eq
  · rw [hw.examined, ringFound, visitRanges_difference ho.separated ho.inhabited ho.bound hw.separated
      hw.inhabited, ← List.length_append, hparts]
    congr 1
    refine List.filter_congr fun p _ => ?_
    cases covered w.innerRanges p <;> cases covered outer p <;> rfl
  · rintro p - ⟨hin, hout⟩
    rw [hin] at hout
    simp at hout

lemma within_mono {c d : ℚ} (hcd : c ≤ d) (hd : within aim d = true) : within aim c = true := by
  rw [within, Option.all_eq_true] at hd ⊢
  intro cap hcap
  have := hd cap hcap
  simp only [decide_eq_true_eq] at this ⊢
  exact hcd.trans this

/-- **The last ring hands over all that remains.** -/
lemma ringEnd_last (hw : Filled μ aim t w level) (ho : Covering μ aim t w.radius outer)
    (hlast : (worldRadius w.radius || atCap aim w) = true) :
    (ringEnd μ aim t outer w).finished = true ∧ (ringEnd μ aim t outer w).readyAt = 0
      ∧ (ringEnd μ aim t outer w).ready = remaining μ aim t level := by
  have hread : ∀ p ∈ t.entries, within aim (far μ aim p) = true →
      covered w.innerRanges p = true ∨ covered outer p = true := by
    intro p hp hwithin
    rcases Bool.or_eq_true_iff.1 hlast with hworld | hcap
    · exact Or.inr (ho.world hworld p hp)
    · rw [atCap, Option.any_eq_true] at hcap
      obtain ⟨cap, hcap, hle⟩ := hcap
      rw [within, Option.all_eq_true] at hwithin
      exact Or.inr (ho.near p hp ((of_decide_eq_true (hwithin cap hcap)).trans (of_decide_eq_true hle)))
  refine ⟨?_, rfl, ?_⟩
  · simp [ringEnd, emitRing, hlast]
  · have hemitted := hw.emitted ho.toIsCover (fun c d => within_mono) (fun _ h => h) hread
    have hready : (ringEnd μ aim t outer w).ready
        = (sortHits (gathered μ aim t outer w)).takeWhile fun hit => within aim hit.distance := by
      simp only [ringEnd, emitRing, hlast, if_true]
      rfl
    rw [hready, hemitted, remaining]
    refine List.filter_congr fun hit hhit => ?_
    rw [(mem_nearest.1 hhit).2, Bool.and_true]

/-- **Any other ring hands over what is within its radius**, and holds the rest. -/
lemma ringEnd_more (hw : Filled μ aim t w level) (ho : Covering μ aim t w.radius outer)
    (hlast : (worldRadius w.radius || atCap aim w) = false) :
    ∃ level', Filled μ aim t (ringEnd μ aim t outer w) level'
      ∧ remaining μ aim t level = (ringEnd μ aim t outer w).ready ++ remaining μ aim t level' := by
  have hcap : ∀ cap ∈ aim.radiusCap, w.radius < cap := by
    intro cap hcap
    have := (Bool.or_eq_false_iff.1 hlast).2
    rw [atCap, hcap] at this
    simpa using this
  have hdown : ∀ c d : ℚ, c ≤ d → decide (d ≤ w.radius) = true → decide (c ≤ w.radius) = true :=
    fun c d hcd hd => decide_eq_true (hcd.trans (of_decide_eq_true hd))
  have hwithin : ∀ d : ℚ, decide (d ≤ w.radius) = true → within aim d = true := by
    intro d hd
    rw [within, Option.all_eq_true]
    exact fun cap h => decide_eq_true ((of_decide_eq_true hd).trans (hcap cap h).le)
  have hemitted := hw.emitted ho.toIsCover hdown hwithin
    fun p hp hd => Or.inr (ho.near p hp (of_decide_eq_true hd))
  have hready : (ringEnd μ aim t outer w).ready
      = (sortHits (gathered μ aim t outer w)).takeWhile fun hit => decide (hit.distance ≤ w.radius) := by
    simp only [ringEnd, emitRing, hlast]
    rfl
  have hheld : (ringEnd μ aim t outer w).held
      = (sortHits (gathered μ aim t outer w)).filter fun hit => !decide (hit.distance ≤ w.radius) := by
    rw [← drop_takeWhile_eq_filter (pairwise_emit (hw.sorted ho.toIsCover) hdown)]
    simp only [ringEnd, emitRing, hlast]
    rfl
  have hinner : (ringEnd μ aim t outer w).innerRanges = rangesUnion w.innerRanges outer := by
    simp only [ringEnd, emitRing, hlast]
    rfl
  have hunion : ∀ p, covered (rangesUnion w.innerRanges outer) p
      = (covered w.innerRanges p || covered outer p) := by
    intro p
    rw [Bool.eq_iff_iff, Bool.or_eq_true, covered_iff, covered_iff, covered_iff, rangesUnion,
      Ranges.covers_merge, Ranges.covers_append]
  have hboth : Ranges.Inhabited (w.innerRanges ++ outer) := by
    intro r hr
    rcases List.mem_append.1 hr with hr | hr
    · exact hw.inhabited r hr
    · exact ho.inhabited r hr
  -- what is handed over is up to the greater of the radius and the level before
  have hlevel : ∀ d, beyond (some (level.elim w.radius (max w.radius))) d
      = (beyond level d && !decide (d ≤ w.radius)) := by
    intro d
    cases level with
    | none => simp [beyond, ← not_le]
    | some l => simp [beyond, Bool.and_comm, ← not_le]
  have hexamined : (ringEnd μ aim t outer w).examined = w.examined + (ringFound t outer w).length := rfl
  refine ⟨some (level.elim w.radius (max w.radius)), ⟨?_, ?_, ?_, ?_, ?_⟩, ?_⟩
  · rw [hinner]
    exact Ranges.separated_merge hboth
  · rw [hinner]
    exact Ranges.inhabited_merge hboth
  · rw [hheld, hinner]
    refine (((sortHits_perm _).trans (hw.gathered_perm ho.toIsCover)).filter _).trans (List.Perm.of_eq ?_)
    rw [List.filter_map, List.filter_filter]
    congr 1
    refine List.filter_congr fun p _ => ?_
    simp only [hunion, hlevel, Function.comp_apply, far, hitOf]
    rw [Bool.and_comm, Bool.and_assoc]
    rfl
  · intro p hp hnear
    rw [hinner, hunion, Bool.or_eq_true]
    rw [hlevel, Bool.and_eq_false_iff, Bool.not_eq_false', decide_eq_true_eq] at hnear
    rcases hnear with hnear | hnear
    · exact Or.inl (hw.near p hp hnear)
    · exact Or.inr (ho.near p hp hnear)
  · rw [hexamined, hw.examined_ring ho.toIsCover, hinner]
    congr 1
    exact List.filter_congr fun p _ => (hunion p).symm
  · rw [hready, hemitted, remaining, remaining, filter_append_filter]
    · refine List.filter_congr fun hit _ => ?_
      rw [hlevel]
      cases beyond level hit.distance <;> cases decide (hit.distance ≤ w.radius) <;> rfl
    · refine nearest_pairwise.imp ?_
      rintro a b hab ⟨ha, hb⟩
      rw [hlevel, Bool.and_eq_true, Bool.not_eq_true', decide_eq_false_iff_not] at ha
      rw [Bool.and_eq_true, decide_eq_true_eq] at hb
      exact ha.2 ((NearestHit.distance_le hab).trans hb.2)
    · rintro a - ⟨ha, hb⟩
      rw [hlevel, Bool.and_eq_true, Bool.not_eq_true'] at hb
      rw [Bool.and_eq_true, hb.2] at ha
      exact Bool.noConfusion ha.2

end NearestWalk

/-! ## The radii -/

/-- A power of two is not rounded past. -/
lemma two_pow_le_round {n : ℕ} {q : ℚ} (h : 2 ^ n ≤ q) : 2 ^ n ≤ f64.round q := by
  have hlead : f64.leading (2 ^ n) - f64.mantissa ≤ (n : ℤ) := by
    have hlog : Int.log 2 |(2 : ℚ) ^ n| = n := by
      rw [abs_of_pos (by positivity)]
      exact_mod_cast Int.log_zpow (R := ℚ) one_lt_two (n : ℤ)
    rw [Ieee.Format.leading, hlog]
    have hbias : (1 : ℤ) - f64.bias ≤ 0 := by decide
    have hmantissa : (0 : ℤ) ≤ f64.mantissa := by positivity
    omega
  have hpower : (2 : ℚ) ^ n ≤ f64.round (2 ^ n) := by
    have := Ieee.Format.zpow_le_round (q := (2 : ℚ) ^ n) hlead (by rw [zpow_natCast])
    rwa [zpow_natCast] at this
  exact hpower.trans (Ieee.Format.round_mono (by positivity) h)

namespace NearestWalk

variable {μ : Metric} {aim : NearestAim} {w : NearestWalk} {k : ℕ}

lemma capped_mono {x y : ℚ} (h : x ≤ y) : capped aim x ≤ capped aim y := by
  rw [capped, capped]
  cases aim.radiusCap with
  | none => exact h
  | some cap => exact min_le_min_right cap h

lemma capped_nonneg (hcap : ∀ cap ∈ aim.radiusCap, 0 ≤ cap) {x : ℚ} (h : 0 ≤ x) : 0 ≤ capped aim x := by
  rw [capped]
  cases hc : aim.radiusCap with
  | none => exact h
  | some cap => exact le_min h (hcap cap hc)

/-- A radius that is below the cap is not cut by it. -/
lemma le_of_capped_le {x r : ℚ} (h : capped aim x ≤ r) (hcap : aim.radiusCap.any (· ≤ r) = false) : x ≤ r := by
  rw [capped] at h
  cases hc : aim.radiusCap with
  | none =>
      rw [hc] at h
      exact h
  | some cap =>
      rw [hc] at h hcap
      have hlt : r < cap := by simpa using hcap
      exact (min_le_iff.1 h).resolve_right (not_le.2 hlt)

/-- The first radius. -/
lemma initialRadius_le : capped aim (2 ^ 0) ≤ initialRadius aim w := by
  rw [initialRadius]
  refine capped_mono ?_
  dsimp only
  split_ifs
  · exact (pow_zero (2 : ℚ)).le.trans (le_max_right _ _)
  · norm_num [nearestStartRadius]

/-- **A radius doubles**, whatever the density suggests, up to the cap. -/
lemma grown_le (h : 2 ^ k ≤ w.radius) : capped aim (2 ^ (k + 1)) ≤ (grown μ aim w).radius := by
  have hdouble : (2 : ℚ) ^ (k + 1) ≤ w.radius * 2 := by
    rw [pow_succ]
    exact mul_le_mul_of_nonneg_right h zero_le_two
  have hradius : (2 : ℚ) ^ (k + 1) ≤ max (jump μ aim w) (f64.round (w.radius * 2)) :=
    (two_pow_le_round hdouble).trans (le_max_right _ _)
  have hfour : (2 : ℚ) ^ 2 ≤ ceiling μ aim w := by
    refine two_pow_le_round ?_
    have hone := le_max_right (μ.sqrt (f64.round (f64.round (ringTarget aim w)
      / f64.round (max aim.hintK 1 + 2 : ℕ)))) 1
    rw [nearestGrowthFactor]
    linarith
  have hpos : (0 : ℚ) ≤ 2 ^ k := by positivity
  refine capped_mono (le_min hradius (two_pow_le_round ?_))
  calc (2 : ℚ) ^ (k + 1) ≤ w.radius * 2 := hdouble
    _ ≤ w.radius * ceiling μ aim w := mul_le_mul_of_nonneg_left (by linarith) (hpos.trans h)

/-- A radius from one on does not shrink, unless the cap cuts it. -/
lemma grown_capped (hone : 1 ≤ w.radius) (h : capped aim (2 ^ k) ≤ w.radius) :
    capped aim (2 ^ (k + 1)) ≤ (grown μ aim w).radius := by
  cases hcap : aim.radiusCap.any (· ≤ w.radius) with
  | false => exact grown_le (le_of_capped_le h hcap)
  | true =>
      obtain ⟨cap, hc, hle⟩ := (Option.any_eq_true _ _).1 hcap
      obtain ⟨j, hj, hlt⟩ := exists_nat_pow_near hone one_lt_two
      refine le_trans ?_ (grown_le hj)
      rw [capped, capped, hc]
      exact (min_le_right _ _).trans (le_min ((of_decide_eq_true hle).trans hlt.le) le_rfl)

/-- **A radius of two to the 25th is the last.** -/
lemma last_of_le (h : capped aim (2 ^ 25) ≤ w.radius) : (worldRadius w.radius || atCap aim w) = true := by
  cases hcap : atCap aim w with
  | true => rw [Bool.or_true]
  | false =>
      have hradius := le_of_capped_le h hcap
      have hfour : (2 : ℚ) ^ 2 ≤ w.radius / minCurvatureRadius := by
        rw [le_div_iff₀ (by norm_num [minCurvatureRadius])]
        exact le_trans (by norm_num [minCurvatureRadius]) hradius
      rw [worldRadius, angular, Bool.or_false]
      exact decide_eq_true (le_trans (by norm_num [pi]) (two_pow_le_round hfour))

end NearestWalk

end Engine.Spatial
