import Sekejap.Spatial.Cover

/-!
# The bounds of a radius

`radius_candidate_bounds` (`core/engine/src/index/spatial/math.rs`) takes a centre and a radius to a rectangle
that is read in the place of the disc: the whole world for a radius that reaches around it, all longitudes for
a disc that touches a pole, and else a rectangle by the spherical cap of the radius over the least radius of
curvature, with a margin.

The distance is a parameter, and so are the square root and `sin`, `cos` and `asin`; every other operation on
`f64` is the one on rationals, rounded.

* **`radiusCandidateBounds_ok`** — a radius that is not negative has bounds, whatever these functions are.
-/

open Fallible

open Ieee (f64)

namespace Engine.Spatial

/-- What is computed on points and radii outside the repository. -/
structure Metric where
  /-- `geodesic.inverse`, from the centre -/
  distance : Point → Point → ℚ
  sqrt : ℚ → ℚ
  sin : ℚ → ℚ
  cos : ℚ → ℚ
  asin : ℚ → ℚ

/-- `WGS84_MIN_CURVATURE_RADIUS_METRES`, 6335439.3272928195 in the source. -/
def minCurvatureRadius : ℚ := 6802626179128725 / 2 ^ 30

/-- `OUTWARD_DEGREES`, 1e-10 in the source. -/
def outwardDegrees : ℚ := 7737125245533627 / 2 ^ 86

/-- `core::f64::consts::PI` -/
def pi : ℚ := 884279719003555 / 2 ^ 48

/-- `f64::to_radians` -/
def toRadians (degrees : ℚ) : ℚ := f64.round (degrees * f64.round (pi / 180))

/-- `f64::to_degrees` -/
def toDegrees (radians : ℚ) : ℚ := f64.round (radians * f64.round (180 / pi))

/-- `f64::rem_euclid` by 360; the remainder towards zero is exact. -/
def remEuclid (x : ℚ) : ℚ :=
  let r := x - 360 * (if x < 0 then -(⌊-x / 360⌋ : ℚ) else ⌊x / 360⌋)
  if r < 0 then f64.round (r + 360) else r

/-- `normalize_longitude` -/
def normalizeLongitude (longitude : ℚ) : ℚ :=
  let normalized := f64.round (remEuclid (f64.round (longitude + 180)) - 180)
  -- the dateline from the west keeps its sign
  if normalized = -180 ∧ 0 < longitude then 180 else normalized

/-- The number nearest to a rational, by its bits. -/
def f64Of (q : ℚ) : ℕ := f64.nearest (decide (q < 0)) q

/-- `Bounds::new`, of numbers. -/
def Bounds.ofDegrees (west east south north : ℚ) : Except Error Bounds :=
  Bounds.new (f64Of west) (f64Of east) (f64Of south) (f64Of north)

/-- The angle of a radius. -/
def angular (radius : ℚ) : ℚ := f64.round (radius / minCurvatureRadius)

/-- A radius from which on the bounds are the world. -/
def worldRadius (radius : ℚ) : Bool := decide (pi ≤ angular radius)

/-- The southern side of a disc that reaches so many degrees. -/
def southOf (center : Point) (reach : ℚ) : ℚ :=
  max (f64.round (f64.round (f64.value center.lat - reach) - outwardDegrees)) (-90)

/-- The northern side. -/
def northOf (center : Point) (reach : ℚ) : ℚ :=
  min (f64.round (f64.round (f64.value center.lat + reach) + outwardDegrees)) 90

/-- A disc that touches a pole; `FRAC_PI_2` is half of `PI`, exactly. -/
def touchesPole (center : Point) (radius : ℚ) : Bool :=
  decide (f64.round (toRadians (f64.value center.lat) - angular radius) ≤ -(pi / 2))
    || decide (pi / 2 ≤ f64.round (toRadians (f64.value center.lat) + angular radius))

/-- `radius_candidate_bounds`, of a radius that is finite. -/
def radiusCandidateBounds (μ : Metric) (center : Point) (radius : ℚ) : Except Error Bounds :=
  if radius < 0 then .error (.invalid "radius must be non-negative")
  else if worldRadius radius then Bounds.ofDegrees (-180) 180 (-90) 90
  else
    let south := southOf center (toDegrees (angular radius))
    let north := northOf center (toDegrees (angular radius))
    if touchesPole center radius then Bounds.ofDegrees (-180) 180 south north
    else
      let ratio := max (min (f64.round (μ.sin (angular radius) / μ.cos (toRadians (f64.value center.lat)))) 1) (-1)
      let delta := f64.round (toDegrees (μ.asin ratio) + outwardDegrees)
      Bounds.ofDegrees (normalizeLongitude (f64.round (f64.value center.lon - delta)))
        (normalizeLongitude (f64.round (f64.value center.lon + delta))) south north

/-! ## Bounds are valid -/

section

variable {q : ℚ} {name : String} {limit : ℚ}

lemma round_le_of_le {x y : ℚ} (hy : f64.round y = y) (h : x ≤ y) : f64.round x ≤ y :=
  hy ▸ Ieee.Format.monotone_round h

lemma le_round_of_le {x y : ℚ} (hx : f64.round x = x) (h : x ≤ y) : x ≤ f64.round y :=
  hx ▸ Ieee.Format.monotone_round h

/-- A number of degrees has its bits. -/
lemma f64Of_spec (h : |q| ≤ 360) : f64.value (f64Of q) = f64.round q ∧ isFinite (f64Of q) = true := by
  have hlead : f64.leading q < f64.bias := by
    have hlog : Int.log 2 |q| ≤ 9 := by
      rcases (abs_nonneg q).eq_or_lt with hzero | hpos
      · rw [← hzero, Int.log_zero_right]
        decide
      · refine Int.lt_add_one_iff.1 ((Int.lt_zpow_iff_log_lt one_lt_two hpos).1 (h.trans_lt ?_))
        norm_num
    have hbias : (f64.bias : ℤ) = 1023 := by decide
    rw [Ieee.Format.leading]
    omega
  obtain ⟨hvalue, hfinite⟩ := Ieee.Format.value_nearest (by decide) (by decide) hlead
  refine ⟨hvalue, decide_eq_true ?_⟩
  have hsign : f64.signBit = 2 ^ 63 := rfl
  have hinf : f64.infinity = 2047 * 2 ^ 52 := rfl
  rw [hsign, hinf] at hfinite
  show f64Of q / 2 ^ 52 % 2 ^ 11 ≠ 2047
  change f64Of q % 2 ^ 63 < 2047 * 2 ^ 52 at hfinite
  omega

lemma validate_f64Of (hlimit : limit ≤ 360) (hround : f64.round limit = limit) (h : |q| ≤ limit) :
    validate name limit (f64Of q) = .ok () := by
  obtain ⟨hvalue, hfinite⟩ := f64Of_spec (h.trans hlimit)
  have hneg : f64.round (-limit) = -limit := by rw [Ieee.Format.round_neg, hround]
  obtain ⟨hlo, hhi⟩ := abs_le.1 h
  have hrange : -limit ≤ f64.value (f64Of q) ∧ f64.value (f64Of q) ≤ limit := by
    rw [hvalue]
    exact ⟨le_round_of_le hneg hlo, round_le_of_le hround hhi⟩
  simp only [validate, bind_eq_ok, refuse_eq_ok]
  exact ⟨(), by simp [hfinite], not_not.2 hrange⟩

lemma round_degrees : f64.round 180 = 180 ∧ f64.round 90 = 90 ∧ f64.round 360 = 360 ∧ f64.round 0 = 0 := by
  decide +kernel

/-- **Bounds in range, south below north, are bounds.** -/
lemma Bounds.ofDegrees_ok (west east south north : ℚ) (hwest : |west| ≤ 180) (heast : |east| ≤ 180)
    (hsouth : |south| ≤ 90) (hnorth : |north| ≤ 90) (hle : south ≤ north) :
    ∃ b, Bounds.ofDegrees west east south north = .ok b ∧ f64.value b.west = f64.round west
      ∧ f64.value b.east = f64.round east ∧ f64.value b.south = f64.round south
      ∧ f64.value b.north = f64.round north := by
  obtain ⟨h180, h90, -, -⟩ := round_degrees
  have hvwest : validate "longitude" 180 (f64Of west) = .ok () := validate_f64Of (by norm_num) h180 hwest
  have hveast : validate "longitude" 180 (f64Of east) = .ok () := validate_f64Of (by norm_num) h180 heast
  have hvsouth : validate "latitude" 90 (f64Of south) = .ok () := validate_f64Of (by norm_num) h90 hsouth
  have hvnorth : validate "latitude" 90 (f64Of north) = .ok () := validate_f64Of (by norm_num) h90 hnorth
  have hvalue : ∀ {q : ℚ}, |q| ≤ 180 → f64.value (f64Of q) = f64.round q := fun h =>
    (f64Of_spec (h.trans (by norm_num))).1
  have hordered : f64.value (f64Of south) ≤ f64.value (f64Of north) := by
    rw [hvalue (hsouth.trans (by norm_num)), hvalue (hnorth.trans (by norm_num))]
    exact Ieee.Format.monotone_round hle
  refine ⟨⟨f64Of west, f64Of east, f64Of south, f64Of north, hvwest, hveast, hvsouth, hvnorth, hordered⟩, ?_,
    hvalue hwest, hvalue heast, hvalue (hsouth.trans (by norm_num)), hvalue (hnorth.trans (by norm_num))⟩
  rw [ofDegrees, new]
  split
  · rw [dif_pos hordered]
  · simp_all
  · simp_all
  · simp_all
  · simp_all

/-- A remainder by 360 is in range. -/
lemma remEuclid_range (x : ℚ) : 0 ≤ remEuclid x ∧ remEuclid x ≤ 360 := by
  obtain ⟨-, -, h360, h0⟩ := round_degrees
  rw [remEuclid]
  split_ifs with hx hr hr
  · have hfloor := Int.floor_le (-x / 360)
    have hr' : (-360 : ℚ) ≤ x - 360 * -(⌊-x / 360⌋ : ℚ) := by
      have := Int.lt_floor_add_one (-x / 360)
      rw [div_lt_iff₀ (by norm_num)] at this
      linarith
    exact ⟨le_round_of_le h0 (by linarith), round_le_of_le h360 (by linarith)⟩
  · have hfloor := Int.floor_le (-x / 360)
    rw [le_div_iff₀ (by norm_num)] at hfloor
    exact ⟨not_lt.1 hr, by linarith⟩
  · have hfloor := Int.floor_le (x / 360)
    rw [le_div_iff₀ (by norm_num)] at hfloor
    linarith
  · have hfloor := Int.lt_floor_add_one (x / 360)
    rw [div_lt_iff₀ (by norm_num)] at hfloor
    exact ⟨not_lt.1 hr, by linarith⟩

/-- A longitude is brought into its range. -/
lemma abs_normalizeLongitude_le (longitude : ℚ) : |normalizeLongitude longitude| ≤ 180 := by
  obtain ⟨h180, -, -, -⟩ := round_degrees
  have hneg : f64.round (-180) = -180 := by rw [Ieee.Format.round_neg, h180]
  obtain ⟨hlo, hhi⟩ := remEuclid_range (f64.round (longitude + 180))
  rw [normalizeLongitude]
  split_ifs
  · norm_num
  · rw [abs_le]
    exact ⟨le_round_of_le hneg (by linarith), round_le_of_le h180 (by linarith)⟩

end

/-! ## A radius has bounds -/

lemma southOf_le_northOf (center : Point) {reach : ℚ} (h : 0 ≤ reach) :
    |southOf center reach| ≤ 90 ∧ |northOf center reach| ≤ 90 ∧ southOf center reach ≤ northOf center reach := by
  obtain ⟨-, h90, -, -⟩ := round_degrees
  have hneg90 : f64.round (-90) = -90 := by rw [Ieee.Format.round_neg, h90]
  obtain ⟨hlatlo, hlathi⟩ := validate_range center.validLat
  have hout : 0 ≤ outwardDegrees := by norm_num [outwardDegrees]
  have hsouth : f64.round (f64.round (f64.value center.lat - reach) - outwardDegrees) ≤ 90 := by
    refine round_le_of_le h90 ?_
    have := round_le_of_le h90 (show f64.value center.lat - reach ≤ 90 by linarith)
    linarith
  have hnorth : -90 ≤ f64.round (f64.round (f64.value center.lat + reach) + outwardDegrees) := by
    refine le_round_of_le hneg90 ?_
    have := le_round_of_le hneg90 (show -90 ≤ f64.value center.lat + reach by linarith)
    linarith
  have hle : f64.round (f64.round (f64.value center.lat - reach) - outwardDegrees)
      ≤ f64.round (f64.round (f64.value center.lat + reach) + outwardDegrees) := by
    refine Ieee.Format.monotone_round ?_
    have := Ieee.Format.monotone_round (f := f64)
      (show f64.value center.lat - reach ≤ f64.value center.lat + reach by linarith)
    linarith
  refine ⟨abs_le.2 ⟨le_max_right _ _, max_le hsouth (by norm_num)⟩,
    abs_le.2 ⟨le_min hnorth (by norm_num), min_le_right _ _⟩, ?_⟩
  exact max_le (le_min hle hsouth) (le_min hnorth (by norm_num))

lemma angular_nonneg {radius : ℚ} (h : 0 ≤ radius) : 0 ≤ angular radius :=
  Ieee.Format.round_nonneg (div_nonneg h (by norm_num [minCurvatureRadius]))

/-- **A radius that is not negative has bounds**: whatever `sin`, `cos` and `asin` answer, the longitudes are
brought into range, and the latitudes are cut at the poles.  Of a disc that reaches around the world or touches a
pole they have all longitudes. -/
theorem radiusCandidateBounds_ok (μ : Metric) (center : Point) {radius : ℚ} (h : 0 ≤ radius) :
    ∃ bounds, radiusCandidateBounds μ center radius = .ok bounds
      ∧ ((worldRadius radius || touchesPole center radius) = true → bounds.isWorld = true) := by
  obtain ⟨h180, -, -, -⟩ := round_degrees
  have hneg180 : f64.round (-180) = -180 := by rw [Ieee.Format.round_neg, h180]
  have hreach : 0 ≤ toDegrees (angular radius) := by
    have hdegree : 0 ≤ f64.round (180 / pi) := Ieee.Format.round_nonneg (by norm_num [pi])
    exact Ieee.Format.round_nonneg (mul_nonneg (angular_nonneg h) hdegree)
  obtain ⟨hsouth, hnorth, hle⟩ := southOf_le_northOf center hreach
  have hall : ∀ south north : ℚ, |south| ≤ 90 → |north| ≤ 90 → south ≤ north →
      ∃ bounds, Bounds.ofDegrees (-180) 180 south north = .ok bounds ∧ bounds.isWorld = true := by
    intro south north hsouth hnorth hle
    obtain ⟨b, hb, hwest, heast, -, -⟩ :=
      Bounds.ofDegrees_ok (-180) 180 south north (by norm_num) (by norm_num) hsouth hnorth hle
    rw [hneg180] at hwest
    rw [h180] at heast
    have hcross : b.crossesDateline = false := by
      rw [Bounds.crossesDateline, hwest, heast]
      exact decide_eq_false (by norm_num)
    refine ⟨b, hb, ?_⟩
    rw [Bounds.isWorld, hcross, hwest, heast]
    decide
  rw [radiusCandidateBounds, if_neg (not_lt.2 h)]
  by_cases hworld : worldRadius radius = true
  · obtain ⟨b, hb, hisWorld⟩ := hall (-90) 90 (by norm_num) (by norm_num) (by norm_num)
    rw [if_pos hworld]
    exact ⟨b, hb, fun _ => hisWorld⟩
  · rw [if_neg hworld]
    by_cases hpole : touchesPole center radius = true
    · obtain ⟨b, hb, hisWorld⟩ := hall _ _ hsouth hnorth hle
      rw [if_pos hpole]
      exact ⟨b, hb, fun _ => hisWorld⟩
    · obtain ⟨b, hb, -⟩ := Bounds.ofDegrees_ok _ _ _ _ (abs_normalizeLongitude_le _)
        (abs_normalizeLongitude_le _) hsouth hnorth hle
      rw [if_neg hpole]
      refine ⟨b, hb, fun h => ?_⟩
      simp [hworld, hpole] at h

end Engine.Spatial
