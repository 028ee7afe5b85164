import Sekejap.Collections.FamilySteps
import Sekejap.Lib.Rounding

/-!
# Geometry and the grid

The kernel's geometry language and its grid (`core/kernel/src/spatial.rs`), the GeoJSON that is read
into it (`core/engine/src/lib.rs`, `index/spatial/geometry_index.rs`, `index/spatial/point.rs`), and
the boxes and cells a geometry is filed under.  A coordinate is an `f64` by its bits, and a box that is
filed is four `f32`s, rounded outward.

* **`cellHilbert_inj`** — the curve takes every cell of a grid once, so that a posting key names one
  cell.
* **`coverCellsFor_cells`** — a box covers a cell, at the level it is filed at, and every cell once.
* **`selectedGeometry_stored`**, **`selectedPoint_stored`** — a geometry is read from a row as it was
  read from the document that was written.
-/

open Fallible

open Ieee (f32 f64)

namespace Engine

/-- `Value::as_object` -/
def Value.asObject : Value → Option (List (String × Value))
  | object members => some members
  | _ => none

namespace Spatial

/-! ## The curve -/

/-- One turn of the loop of `cell_hilbert`, at the bit `s`: the digit, and the cell in its quadrant. -/
def quadrant (s x y : ℕ) : ℕ × ℕ × ℕ :=
  let rx := x / s % 2
  let ry := y / s % 2
  let digit := s * s * ((3 * rx) ^^^ ry)
  if ry = 0 then
    if rx = 1 then
      -- both are mirrored below `s`, which clears the bit, and keep what is above it
      (digit, s - 1 - y % s + y / (2 * s) * (2 * s), s - 1 - x % s + x / (2 * s) * (2 * s))
    else (digit, y, x)
  else (digit, x, y)

/-- The loop of `cell_hilbert`, from `2 ^ bits` down. -/
def hilbertLoop : ℕ → ℕ → ℕ → ℕ → ℕ
  | 0, _, _, d => d
  | bits + 1, x, y, d =>
      let (digit, x, y) := quadrant (2 ^ bits) x y
      hilbertLoop bits x y (d + digit)

/-- The place of a cell on the curve of a grid. -/
def cellHilbert (cx cy bits : ℕ) : ℕ := hilbertLoop bits cx cy 0

/-! ## The grid -/

/-- `LEVEL_FINE` -/
def levelFine : ℕ := 12

/-- `LEVEL_COARSE` -/
def levelCoarse : ℕ := 8

/-- `LEVEL_WORLD` -/
def levelWorld : ℕ := 0

/-- `MAX_CELLS` -/
def maxCells : ℕ := 8

/-- `HILBERT_BITS`, the grid of points. -/
def hilbertBits : ℕ := 16

/-- One axis of `cell_of`: `((v + offset) / span) * n`, each rounded, then `floor` and `clamp`. -/
def cellAxis (offset span : ℚ) (bits v : ℕ) : ℕ :=
  let n : ℕ := 2 ^ bits
  let q := f64.round (f64.round (f64.round (f64.value v + offset) / span) * n)
  (max 0 (min ⌊q⌋ (n - 1))).toNat

def cellOf (lon lat bits : ℕ) : ℕ × ℕ := (cellAxis 180 360 bits lon, cellAxis 90 180 bits lat)

/-- The place of a point on the finest curve. -/
def pointHilbert (p : ℕ × ℕ) : ℕ :=
  let (x, y) := cellOf p.1 p.2 hilbertBits
  cellHilbert x y hilbertBits

/-- A box of `f64`s. -/
structure Box where
  xmin : ℕ
  xmax : ℕ
  ymin : ℕ
  ymax : ℕ
  deriving DecidableEq

/-- The cells a box covers, unless they are too many. -/
def coverCells (b : Box) (bits most : ℕ) : Option (List (ℕ × ℕ)) :=
  let (x0, y0) := cellOf b.xmin b.ymin bits
  let (x1, y1) := cellOf b.xmax b.ymax bits
  let w := x1 - x0 + 1
  let h := y1 - y0 + 1
  if most < w * h then none
  else some ((List.range' y0 (y1 + 1 - y0)).flatMap fun cy =>
    (List.range' x0 (x1 + 1 - x0)).map fun cx => (cx, cy))

/-- The finest level at which a box covers few cells, and these. -/
def coverCellsFor (b : Box) : ℕ × List (ℕ × ℕ) :=
  match coverCells b levelFine maxCells with
  | some cells => (levelFine, cells)
  | none =>
      match coverCells b levelCoarse maxCells with
      | some cells => (levelCoarse, cells)
      -- the one cell of the world always fits
      | none => (levelWorld, (coverCells b levelWorld maxCells).getD [])

/-! ## Boxes that are filed -/

/-- A box of `f32`s, by their bits. -/
structure BoxF where
  xmin : ℕ
  xmax : ℕ
  ymin : ℕ
  ymax : ℕ
  deriving DecidableEq

/-- `v as f32` -/
def f32OfF64 (v : ℕ) : ℕ := f32.nearest (f64.isNegative v) (f64.value v)

def nextDown (v : ℕ) : ℕ :=
  let f := f32OfF64 v
  if f64.value v < f32.value f then
    if 0 < f32.value f then f - 1 else f + 1
  else f

def nextUp (v : ℕ) : ℕ :=
  let f := f32OfF64 v
  if f32.value f < f64.value v then
    if 0 ≤ f32.value f then f + 1 else f - 1
  else f

/-- `BoxF::from_f64` -/
def BoxF.ofBox (b : Box) : BoxF := ⟨nextDown b.xmin, nextUp b.xmax, nextDown b.ymin, nextUp b.ymax⟩

def BoxF.intersects (a b : BoxF) : Bool :=
  decide (f32.value a.xmin ≤ f32.value b.xmax) && decide (f32.value b.xmin ≤ f32.value a.xmax)
    && decide (f32.value a.ymin ≤ f32.value b.ymax) && decide (f32.value b.ymin ≤ f32.value a.ymax)

/-! ## Geometries -/

inductive Geom where
  | point (x y : ℕ)
  | lineString (c : List (ℕ × ℕ))
  | polygon (rings : List (List (ℕ × ℕ)))
  | multiPoint (c : List (ℕ × ℕ))
  | multiLineString (lines : List (List (ℕ × ℕ)))
  | multiPolygon (polygons : List (List (List (ℕ × ℕ))))
  deriving DecidableEq

namespace Geom

/-- The coordinates of a geometry, in order. -/
def points : Geom → List (ℕ × ℕ)
  | point x y => [(x, y)]
  | lineString c | multiPoint c => c
  | polygon rs | multiLineString rs => rs.flatten
  | multiPolygon ps => ps.flatten.flatten

/-- `f64::min`, the first on a tie. -/
def least (a b : ℕ) : ℕ := if f64.value b < f64.value a then b else a

/-- `f64::max`, the first on a tie. -/
def greatest (a b : ℕ) : ℕ := if f64.value a < f64.value b then b else a

/-- A box takes in one more coordinate. -/
def takeIn (b : Option Box) (p : ℕ × ℕ) : Option Box :=
  match b with
  | none => some ⟨p.1, p.1, p.2, p.2⟩
  | some b => some ⟨least b.xmin p.1, greatest b.xmax p.1, least b.ymin p.2, greatest b.ymax p.2⟩

def bbox (g : Geom) : Option Box := g.points.foldl takeIn none

end Geom

/-- The box a geometry is filed under: the full longitude range when it would span more than half. -/
def indexedBbox (g : Geom) : Option Box :=
  g.bbox.map fun b =>
    if 180 < f64.round (f64.value b.xmax - f64.value b.xmin) then
      { b with xmin := f64OfInt (-180), xmax := f64OfInt 180 }
    else b

/-! ## GeoJSON -/

/-- `[f64; 2]` -/
def coordinatePair : Value → Option (ℕ × ℕ)
  | .array [x, y] => do
      let x ← x.asF64
      let y ← y.asF64
      pure (x, y)
  | _ => none

/-- `Vec<T>` -/
def sequence {α : Type} (item : Value → Option α) : Value → Option (List α)
  | .array items => items.mapM item
  | _ => none

/-- The geometry of a GeoJSON type and its coordinates: none of an unknown type, and none inside when
the coordinates are not of its shape. -/
def geomOf (kind : String) (c : Value) : Option (Option Geom) :=
  if kind = "Point" then some ((coordinatePair c).map fun p => .point p.1 p.2)
  else if kind = "LineString" then some ((sequence coordinatePair c).map .lineString)
  else if kind = "Polygon" then some ((sequence (sequence coordinatePair) c).map .polygon)
  else if kind = "MultiPoint" then some ((sequence coordinatePair c).map .multiPoint)
  else if kind = "MultiLineString" then
    some ((sequence (sequence coordinatePair) c).map .multiLineString)
  else if kind = "MultiPolygon" then
    some ((sequence (sequence (sequence coordinatePair)) c).map .multiPolygon)
  else none

/-- A box within the range of longitudes and latitudes. -/
def inRange (b : Box) : Bool :=
  isFinite b.xmin && isFinite b.xmax && isFinite b.ymin && isFinite b.ymax
    && decide (-180 ≤ f64.value b.xmin) && decide (f64.value b.xmax ≤ 180)
    && decide (-90 ≤ f64.value b.ymin) && decide (f64.value b.ymax ≤ 90)

/-- The geometry a row takes from a value, or none when it refuses it. -/
def geo (v : Value) : Option Geom := do
  let c ← v.get "coordinates"
  let members ← v.asObject
  guard (members.length = 2)
  let type ← v.get "type"
  let kind ← type.asStr
  let g ← (geomOf kind c).join
  match g.bbox with
  | none => some g
  | some b => if inRange b then some g else none

def pairJson (p : ℕ × ℕ) : Value := .array [.number (.float p.1), .number (.float p.2)]

def sequenceJson {α : Type} (item : α → Value) (c : List α) : Value := .array (c.map item)

/-- The GeoJSON a row gives back. -/
def geoJson (g : Geom) : Value :=
  let json (kind : String) (c : Value) : Value := .object [("coordinates", c), ("type", .string kind)]
  match g with
  | .point x y => json "Point" (pairJson (x, y))
  | .lineString c => json "LineString" (sequenceJson pairJson c)
  | .polygon rs => json "Polygon" (sequenceJson (sequenceJson pairJson) rs)
  | .multiPoint c => json "MultiPoint" (sequenceJson pairJson c)
  | .multiLineString rs => json "MultiLineString" (sequenceJson (sequenceJson pairJson) rs)
  | .multiPolygon ps =>
      json "MultiPolygon" (sequenceJson (sequenceJson (sequenceJson pairJson)) ps)

/-- A host with the codecs of GEOMETRY and POINT columns. -/
def spatialHost (host : Host) : Host where
  lowercase := host.lowercase
  floatText := host.floatText
  cell := fun kind v => match kind with
    | .geo => (geo v).map geoJson
    | .point =>
        match geo v with
        | some (.point x y) => some (geoJson (.point x y))
        | _ => none
    | kind => host.cell kind v

/-! ## What an index reads -/

def geomFromValue (v : Value) : Except Error Geom := do
  let object ← orElse v.asObject (.invalid "indexed geometry must be a GeoJSON object")
  refuse (object.length ≠ 2) (.invalid "indexed geometry extensions are unsupported")
  let c ← orElse (v.get "coordinates") (.invalid "indexed geometry requires coordinates")
  let kind ← orElse ((v.get "type").bind Value.asStr) (.invalid "indexed geometry requires a type")
  let parsed ← orElse (geomOf kind c) (.invalid "unsupported indexed geometry type")
  orElse parsed (.invalid "indexed geometry coordinates")

/-- The geometry of a row, when it has one. -/
def selectedGeometry (doc : Document) (field : String) : Except Error (Option Geom) :=
  match doc field with
  | none | some .null => .ok none
  | some v => do
      let g ← geomFromValue v
      refuse g.bbox.isNone (.invalid "indexed geometry must not be empty")
      pure (some g)

/-- `validate_lon` and `validate_lat`. -/
def validate (name : String) (limit : ℚ) (v : ℕ) : Except Error Unit := do
  refuse (isFinite v = false) (.invalid (name ++ " must be finite"))
  refuse (¬ (-limit ≤ f64.value v ∧ f64.value v ≤ limit))
    (.invalid (name ++ " is outside [-" ++ toString limit.num ++ ", " ++ toString limit.num ++ "]"))

/-- The point of a row, when it has one. -/
def selectedPoint (doc : Document) (field : String) : Except Error (Option (ℕ × ℕ)) :=
  match doc field with
  | none | some .null => .ok none
  | some v => do
      let object ← orElse v.asObject (.invalid "indexed point must be a GeoJSON Point")
      refuse (object.length ≠ 2 ∨ (v.get "type").bind Value.asStr ≠ some "Point")
        (.invalid "indexed point must be a GeoJSON Point")
      match v.get "coordinates" with
      | some (.array [x, y]) => do
          let lon ← orElse x.asF64 (.invalid "indexed point longitude must be numeric")
          let lat ← orElse y.asF64 (.invalid "indexed point latitude must be numeric")
          validate "longitude" 180 lon
          validate "latitude" 90 lat
          pure (some (lon, lat))
      | _ => .error (.invalid "indexed point requires two coordinates")

/-! ## The curve takes every cell once -/

section

variable {s x y u v : ℕ}

/-- What is mirrored, below `s`. -/
lemma mirror_mod (hs : 0 < s) : (s - 1 - x % s + x / (2 * s) * (2 * s)) % s = s - 1 - x % s := by
  have hlt : s - 1 - x % s < s := by omega
  rw [show x / (2 * s) * (2 * s) = x / (2 * s) * 2 * s by ring, Nat.add_mul_mod_self_right,
    Nat.mod_eq_of_lt hlt]

lemma quadrant_le : (quadrant s x y).1 ≤ 3 * (s * s) := by
  have hdigit : (3 * (x / s % 2)) ^^^ (y / s % 2) ≤ 3 := by
    rcases Nat.mod_two_eq_zero_or_one (x / s) with hx | hx <;>
      rcases Nat.mod_two_eq_zero_or_one (y / s) with hy | hy <;> rw [hx, hy] <;> decide
  have hle : s * s * ((3 * (x / s % 2)) ^^^ (y / s % 2)) ≤ 3 * (s * s) := by
    rw [mul_comm 3 (s * s)]
    exact Nat.mul_le_mul_left _ hdigit
  simp only [quadrant]
  split_ifs <;> exact hle

lemma dvd_quadrant : s * s ∣ (quadrant s x y).1 := by
  simp only [quadrant]
  split_ifs <;> exact Nat.dvd_mul_right _ _

/-- A digit and the cell of its quadrant tell the cell. -/
lemma quadrant_inj (hs : 0 < s) (hd : (quadrant s x y).1 = (quadrant s u v).1)
    (hx : (quadrant s x y).2.1 % s = (quadrant s u v).2.1 % s)
    (hy : (quadrant s x y).2.2 % s = (quadrant s u v).2.2 % s) :
    x % (2 * s) = u % (2 * s) ∧ y % (2 * s) = v % (2 * s) := by
  have hbits : ∀ n, n % (2 * s) = n % s + s * (n / s % 2) := fun n => by
    rw [mul_comm 2, Nat.mod_mul]
  have hss : 0 < s * s := Nat.mul_pos hs hs
  have hmod : ∀ n, n % s < s := fun n => Nat.mod_lt n hs
  rw [hbits, hbits, hbits, hbits]
  rcases Nat.mod_two_eq_zero_or_one (x / s) with hrx | hrx <;>
    rcases Nat.mod_two_eq_zero_or_one (y / s) with hry | hry <;>
    rcases Nat.mod_two_eq_zero_or_one (u / s) with hru | hru <;>
    rcases Nat.mod_two_eq_zero_or_one (v / s) with hrv | hrv <;>
    simp [quadrant, hrx, hry, hru, hrv, mirror_mod hs, hss.ne'] at hd hx hy ⊢
  all_goals first
    | exact ⟨hx, hy⟩
    | exact ⟨hy, hx⟩
    | (have h1 := hmod x; have h2 := hmod y; have h3 := hmod u; have h4 := hmod v; omega)

lemma hilbertLoop_add (bits x y d : ℕ) :
    hilbertLoop bits x y d = d + hilbertLoop bits x y 0 := by
  induction bits generalizing x y d with
  | zero => rfl
  | succ bits ih =>
      change hilbertLoop bits _ _ (d + _) = d + hilbertLoop bits _ _ (0 + _)
      rw [ih, ih _ _ (0 + _)]
      omega

lemma hilbertLoop_succ (bits x y : ℕ) :
    hilbertLoop (bits + 1) x y 0 = (quadrant (2 ^ bits) x y).1
      + hilbertLoop bits (quadrant (2 ^ bits) x y).2.1 (quadrant (2 ^ bits) x y).2.2 0 := by
  change hilbertLoop bits _ _ (0 + (quadrant (2 ^ bits) x y).1) = _
  rw [hilbertLoop_add, Nat.zero_add]
  rfl

/-- A place on the curve fits its bits, so that it is kept whole in the `u32` of a posting key. -/
lemma hilbertLoop_lt (bits x y : ℕ) : hilbertLoop bits x y 0 < 2 ^ bits * 2 ^ bits := by
  induction bits generalizing x y with
  | zero => simp [hilbertLoop]
  | succ bits ih =>
      have hrest := ih (quadrant (2 ^ bits) x y).2.1 (quadrant (2 ^ bits) x y).2.2
      have hdigit : (quadrant (2 ^ bits) x y).1 ≤ 3 * (2 ^ bits * 2 ^ bits) := quadrant_le
      rw [hilbertLoop_succ, pow_succ]
      nlinarith

lemma hilbertLoop_inj (bits : ℕ) (h : hilbertLoop bits x y 0 = hilbertLoop bits u v 0) :
    x % 2 ^ bits = u % 2 ^ bits ∧ y % 2 ^ bits = v % 2 ^ bits := by
  induction bits generalizing x y u v with
  | zero => simp [Nat.mod_one]
  | succ bits ih =>
      rw [hilbertLoop_succ, hilbertLoop_succ] at h
      have hlt := hilbertLoop_lt bits (quadrant (2 ^ bits) x y).2.1 (quadrant (2 ^ bits) x y).2.2
      have hlt' := hilbertLoop_lt bits (quadrant (2 ^ bits) u v).2.1 (quadrant (2 ^ bits) u v).2.2
      -- the digits are multiples of what the rest stays below
      obtain ⟨a, ha⟩ := dvd_quadrant (s := 2 ^ bits) (x := x) (y := y)
      obtain ⟨b, hb⟩ := dvd_quadrant (s := 2 ^ bits) (x := u) (y := v)
      rw [ha, hb] at h
      have hab : a = b := by
        rcases Nat.lt_trichotomy a b with hlt₁ | heq | hlt₁
        · nlinarith
        · exact heq
        · nlinarith
      have hdigit : (quadrant (2 ^ bits) x y).1 = (quadrant (2 ^ bits) u v).1 := by
        rw [ha, hb, hab]
      rw [hab] at h
      obtain ⟨hx, hy⟩ := ih (Nat.add_left_cancel h)
      rw [pow_succ, mul_comm]
      exact quadrant_inj (Nat.two_pow_pos bits) hdigit hx hy

/-- **The curve takes every cell of a grid once.** -/
lemma cellHilbert_inj {bits : ℕ} (hx : x < 2 ^ bits) (hy : y < 2 ^ bits) (hu : u < 2 ^ bits)
    (hv : v < 2 ^ bits) (h : cellHilbert x y bits = cellHilbert u v bits) : x = u ∧ y = v := by
  have := hilbertLoop_inj bits h
  rwa [Nat.mod_eq_of_lt hx, Nat.mod_eq_of_lt hy, Nat.mod_eq_of_lt hu, Nat.mod_eq_of_lt hv] at this

end

/-! ## Cells -/

section

variable {bits v w : ℕ} {b : Box}

lemma cellAxis_lt (offset span : ℚ) (bits v : ℕ) : cellAxis offset span bits v < 2 ^ bits := by
  have hpos : 0 < 2 ^ bits := Nat.two_pow_pos bits
  simp only [cellAxis]
  generalize ⌊f64.round (f64.round (f64.round (f64.value v + offset) / span) * (2 ^ bits : ℕ))⌋ = q
  omega

/-- **Numbers in order lie in cells in order.** -/
lemma cellAxis_mono (offset span : ℚ) (bits : ℕ) (hspan : 0 < span)
    (h : f64.value v ≤ f64.value w) :
    cellAxis offset span bits v ≤ cellAxis offset span bits w := by
  have hn : (0 : ℚ) ≤ (2 ^ bits : ℕ) := Nat.cast_nonneg _
  rcases le_total 0 (f64.value v + offset) with hv | hv
  · have h1 : f64.round (f64.value v + offset) ≤ f64.round (f64.value w + offset) :=
      Ieee.Format.round_mono hv (by linarith)
    have h1' : 0 ≤ f64.round (f64.value v + offset) := Ieee.Format.round_nonneg hv
    have h2 := Ieee.Format.round_mono (f := f64) (div_nonneg h1' hspan.le)
      (div_le_div_of_nonneg_right h1 hspan.le)
    have h2' := Ieee.Format.round_nonneg (f := f64) (div_nonneg h1' hspan.le)
    have h3 := Ieee.Format.round_mono (f := f64) (mul_nonneg h2' hn)
      (mul_le_mul_of_nonneg_right h2 hn)
    have hfloor := Int.floor_le_floor h3
    simp only [cellAxis]
    omega
  · -- below the grid is its first cell
    have h1 : f64.round (f64.value v + offset) ≤ 0 := Ieee.Format.round_nonpos hv
    have h2 := Ieee.Format.round_nonpos (f := f64) (div_nonpos_of_nonpos_of_nonneg h1 hspan.le)
    have h3 := Ieee.Format.round_nonpos (f := f64) (mul_nonpos_of_nonpos_of_nonneg h2 hn)
    have hfloor := (Int.floor_le_floor h3).trans_eq Int.floor_zero
    simp only [cellAxis]
    omega

/-- A box whose sides are in order. -/
def Box.Proper (b : Box) : Prop :=
  f64.value b.xmin ≤ f64.value b.xmax ∧ f64.value b.ymin ≤ f64.value b.ymax

lemma mem_coverCells {most : ℕ} {cells : List (ℕ × ℕ)} (h : coverCells b bits most = some cells) :
    cells.Nodup ∧ (∀ c ∈ cells, c.1 < 2 ^ bits ∧ c.2 < 2 ^ bits) ∧ (b.Proper → cells ≠ []) := by
  rw [coverCells] at h
  dsimp only [cellOf] at h
  split_ifs at h
  rw [Option.some.injEq] at h
  subst h
  refine ⟨?_, ?_, ?_⟩
  · rw [List.nodup_flatMap]
    refine ⟨fun cy _ => ?_, ?_⟩
    · exact List.Nodup.map (fun a c heq => congrArg Prod.fst heq) List.nodup_range'
    · refine List.Pairwise.imp ?_ List.nodup_range'
      intro cy cy' hne
      simp only [Function.onFun, List.disjoint_left, List.mem_map, not_exists, not_and]
      rintro _ ⟨cx, -, rfl⟩ cx' - heq
      exact hne (congrArg Prod.snd heq).symm
  · simp only [List.mem_flatMap, List.mem_map, List.mem_range'_1]
    rintro _ ⟨cy, hcy, cx, hcx, rfl⟩
    have hx := cellAxis_lt 180 360 bits b.xmax
    have hy := cellAxis_lt 90 180 bits b.ymax
    exact ⟨by dsimp only; omega, by dsimp only; omega⟩
  · intro hp hnil
    have hx := cellAxis_mono 180 360 bits (by norm_num) hp.1
    have hy := cellAxis_mono 90 180 bits (by norm_num) hp.2
    have hmem : (cellAxis 180 360 bits b.xmin, cellAxis 90 180 bits b.ymin) ∈ ([] : List (ℕ × ℕ)) := by
      rw [← hnil]
      simp only [List.mem_flatMap, List.mem_map, List.mem_range'_1]
      exact ⟨_, ⟨le_rfl, by omega⟩, _, ⟨le_rfl, by omega⟩, rfl⟩
    simp at hmem

/-- **A box covers a cell**, at the level it is filed at, and every cell once. -/
lemma coverCellsFor_cells (b : Box) :
    (coverCellsFor b).2.Nodup
      ∧ (∀ c ∈ (coverCellsFor b).2, c.1 < 2 ^ (coverCellsFor b).1 ∧ c.2 < 2 ^ (coverCellsFor b).1)
      ∧ (b.Proper → (coverCellsFor b).2 ≠ []) := by
  rw [coverCellsFor]
  cases hfine : coverCells b levelFine maxCells with
  | some cells => exact mem_coverCells hfine
  | none =>
      cases hcoarse : coverCells b levelCoarse maxCells with
      | some cells => exact mem_coverCells hcoarse
      | none =>
          cases hworld : coverCells b levelWorld maxCells with
          | some cells => exact mem_coverCells hworld
          | none =>
              -- the grid of the world is one cell
              exfalso
              have hone : ∀ offset span v, cellAxis offset span levelWorld v = 0 := fun _ _ _ =>
                Nat.lt_one_iff.1 (cellAxis_lt _ _ _ _)
              simp [coverCells, cellOf, hone, maxCells] at hworld

end

/-! ## Boxes -/

namespace Geom

lemma takeIn_proper {b : Option Box} (h : ∀ b', b = some b' → b'.Proper) (p : ℕ × ℕ) :
    ∀ b', takeIn b p = some b' → b'.Proper := by
  have hleast : ∀ a c, f64.value (least a c) ≤ f64.value a := by
    intro a c
    rw [least]
    split_ifs with hlt
    · exact hlt.le
    · exact le_rfl
  have hgreatest : ∀ a c, f64.value a ≤ f64.value (greatest a c) := by
    intro a c
    rw [greatest]
    split_ifs with hlt
    · exact hlt.le
    · exact le_rfl
  rintro b' hb'
  cases b with
  | none =>
      simp only [takeIn, Option.some.injEq] at hb'
      subst hb'
      exact ⟨le_rfl, le_rfl⟩
  | some b =>
      simp only [takeIn, Option.some.injEq] at hb'
      subst hb'
      have hp := h b rfl
      exact ⟨(hleast _ _).trans (hp.1.trans (hgreatest _ _)),
        (hleast _ _).trans (hp.2.trans (hgreatest _ _))⟩

lemma bbox_proper {g : Geom} {b : Box} (h : g.bbox = some b) : b.Proper := by
  have hall : ∀ (l : List (ℕ × ℕ)) (b₀ : Option Box), (∀ b', b₀ = some b' → b'.Proper) →
      ∀ b', l.foldl takeIn b₀ = some b' → b'.Proper := by
    intro l
    induction l with
    | nil => exact fun b₀ h₀ => h₀
    | cons p l ih => exact fun b₀ h₀ => ih _ (takeIn_proper h₀ p)
  exact hall g.points none (by simp) b h

end Geom

lemma indexedBbox_proper {g : Geom} {b : Box} (h : indexedBbox g = some b) : b.Proper := by
  obtain ⟨b₀, hb₀, rfl⟩ := Option.map_eq_some_iff.1 h
  have hp := Geom.bbox_proper hb₀
  split_ifs
  · have hworld : f64.value (f64OfInt (-180)) ≤ f64.value (f64OfInt 180) := by decide +kernel
    exact ⟨hworld, hp.2⟩
  · exact hp

/-! ## What is read back -/

lemma coordinatePair_pairJson (p : ℕ × ℕ) : coordinatePair (pairJson p) = some p := rfl

lemma sequence_sequenceJson {α : Type} {item : Value → Option α} {json : α → Value}
    (h : ∀ a, item (json a) = some a) (c : List α) :
    sequence item (sequenceJson json c) = some c := by
  change (c.map json).mapM item = some c
  induction c with
  | nil => rfl
  | cons a c ih => simp [h, ih]

lemma geomFromValue_eq_ok {v : Value} {g : Geom} :
    geomFromValue v = .ok g ↔ ∃ members c kind, v.asObject = some members ∧ members.length = 2
      ∧ v.get "coordinates" = some c ∧ (v.get "type").bind Value.asStr = some kind
      ∧ geomOf kind c = some (some g) := by
  simp only [geomFromValue, bind_eq_ok, orElse_eq_ok, refuse_eq_ok, not_not]
  constructor
  · rintro ⟨members, hm, _, hlen, c, hc, kind, hk, _, hg, rfl⟩
    exact ⟨members, c, kind, hm, hlen, hc, hk, hg⟩
  · rintro ⟨members, c, kind, hm, hlen, hc, hk, hg⟩
    exact ⟨members, hm, (), hlen, c, hc, kind, hk, _, hg, rfl⟩

/-- A geometry is read back from its GeoJSON. -/
lemma geomFromValue_geoJson (g : Geom) : geomFromValue (geoJson g) = .ok g := by
  have hpairs := sequence_sequenceJson coordinatePair_pairJson
  have hrings := sequence_sequenceJson hpairs
  have hpolygons := sequence_sequenceJson hrings
  rw [geomFromValue_eq_ok]
  cases g with
  | point x y => exact ⟨_, _, _, rfl, rfl, rfl, rfl, rfl⟩
  | lineString c | multiPoint c => exact ⟨_, _, _, rfl, rfl, rfl, rfl, by simp [geomOf, hpairs]⟩
  | polygon rs | multiLineString rs =>
      exact ⟨_, _, _, rfl, rfl, rfl, rfl, by simp [geomOf, hrings]⟩
  | multiPolygon ps => exact ⟨_, _, _, rfl, rfl, rfl, rfl, by simp [geomOf, hpolygons]⟩

/-- An index reads a value as the row does. -/
lemma geomFromValue_of_geo {v : Value} {g : Geom} (h : geo v = some g) : geomFromValue v = .ok g := by
  rw [geo] at h
  simp only [Option.bind_eq_bind, Option.bind_eq_some_iff, Option.join_eq_some_iff] at h
  obtain ⟨c, hc, members, hm, _, hlen, type, ht, kind, hk, g', hg, h⟩ := h
  have hgg : g' = g := by
    cases hb : g'.bbox with
    | none =>
        rw [hb] at h
        exact Option.some.inj h
    | some b =>
        rw [hb] at h
        dsimp only at h
        split_ifs at h
        exact Option.some.inj h
  subst hgg
  refine geomFromValue_eq_ok.2 ⟨members, c, kind, hm, ?_, hc, by rw [ht]; exact hk, hg⟩
  by_contra hne
  simp [hne] at hlen

/-- A geometry that a row takes is within range. -/
lemma geo_inRange {v : Value} {g : Geom} {b : Box} (h : geo v = some g) (hb : g.bbox = some b) :
    inRange b = true := by
  simp only [geo, Option.bind_eq_bind, Option.bind_eq_some_iff] at h
  obtain ⟨c, -, members, -, -, -, type, -, kind, -, g', -, h⟩ := h
  split at h
  · next hnone =>
      cases h
      simp [hnone] at hb
  · next b' hb' =>
      split_ifs at h with hrange
      cases h
      rw [hb] at hb'
      cases hb'
      exact hrange

section

variable {host : Host} {i : IndexInfo} {given stored : Document}

/-- **A geometry is read from a row as it was read from what was written.** -/
lemma selectedGeometry_stored (hkind : i.kind = .geo)
    (h : Families.Stores (spatialHost host) i given stored) :
    selectedGeometry stored i.field = selectedGeometry given i.field := by
  rcases h with heq | ⟨v, w, hv, hnull, hw, hs⟩
  · rw [selectedGeometry, selectedGeometry, heq]
  · simp only [encodeField, hkind, required, orElse_eq_ok, spatialHost, Option.map_eq_some_iff] at hw
    obtain ⟨g, hg, rfl⟩ := hw
    have hread : ∀ (doc : Document) v, doc i.field = some v → v.isNull = false →
        geomFromValue v = .ok g → selectedGeometry doc i.field
          = (do refuse g.bbox.isNone (.invalid "indexed geometry must not be empty"); pure (some g)) := by
      intro doc v hdoc hnull hgeom
      rw [selectedGeometry, hdoc]
      cases v with
      | null => cases hnull
      | _ =>
          dsimp only
          rw [hgeom]
          rfl
    rw [hread given v hv hnull (geomFromValue_of_geo hg),
      hread stored _ hs (by cases g <;> rfl) (geomFromValue_geoJson g)]

lemma geomOf_eq_point {kind : String} {c : Value} {x y : ℕ}
    (h : geomOf kind c = some (some (.point x y))) :
    kind = "Point" ∧ coordinatePair c = some (x, y) := by
  rw [geomOf] at h
  split_ifs at h with hk
  · obtain ⟨p, hp, heq⟩ := Option.map_eq_some_iff.1 (Option.some.inj h)
    cases heq
    exact ⟨hk, hp⟩
  all_goals
    obtain ⟨_, -, heq⟩ := Option.map_eq_some_iff.1 (Option.some.inj h)
    cases heq

lemma selectedPoint_of {doc : Document} {v : Value} {x y : ℕ} (hdoc : doc i.field = some v)
    (hnull : v.isNull = false) (h : geomFromValue v = .ok (.point x y)) :
    selectedPoint doc i.field = (do
      validate "longitude" 180 x
      validate "latitude" 90 y
      pure (some (x, y))) := by
  obtain ⟨members, c, kind, hm, hlen, hc, hk, hg⟩ := geomFromValue_eq_ok.1 h
  obtain ⟨rfl, hpair⟩ := geomOf_eq_point hg
  cases v with
  | object fields =>
      cases c with
      | array items =>
          match items, hpair with
          | [a, b], hpair =>
              simp only [coordinatePair, Option.bind_eq_bind, Option.bind_eq_some_iff, Option.pure_def,
                Option.some.injEq, Prod.mk.injEq] at hpair
              obtain ⟨_, hx, _, hy, rfl, rfl⟩ := hpair
              have hfields : fields.length = 2 := by
                cases hm
                exact hlen
              have hrefuse : refuse (fields.length ≠ 2
                  ∨ ((Value.object fields).get "type").bind Value.asStr ≠ some "Point")
                  (Error.invalid "indexed point must be a GeoJSON Point") = .ok () := by
                rw [refuse_eq_ok, hk]
                simp [hfields]
              rw [selectedPoint, hdoc]
              dsimp only [Value.asObject, orElse]
              change (do
                let _ ← refuse _ _
                _) = _
              rw [hrefuse, hc]
              dsimp only
              rw [hx, hy]
              rfl
      | _ => cases hpair
  | _ => cases hm

/-- **A point is read from a row as it was read from what was written.** -/
lemma selectedPoint_stored (hkind : i.kind = .point)
    (h : Families.Stores (spatialHost host) i given stored) :
    selectedPoint stored i.field = selectedPoint given i.field := by
  rcases h with heq | ⟨v, w, hv, hnull, hw, hs⟩
  · rw [selectedPoint, selectedPoint, heq]
  · simp only [encodeField, hkind, required, orElse_eq_ok, spatialHost] at hw
    split at hw
    · rename_i x y hg
      cases hw
      rw [selectedPoint_of hv hnull (geomFromValue_of_geo hg),
        selectedPoint_of hs rfl (geomFromValue_geoJson (.point x y))]
    · cases hw

end

end Spatial

end Engine
