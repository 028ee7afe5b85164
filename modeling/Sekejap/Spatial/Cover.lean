import Sekejap.Lib.Ranges
import Sekejap.Spatial.Hilbert

/-!
# Covers

`cover_ranges` (`core/kernel/src/spatial.rs`) takes a rectangle of cells apart into squares of the curve and
returns their runs; `bounds_hilbert_ranges_bounded` (`core/engine/src/index/spatial/math.rs`) covers a
rectangle of longitudes and latitudes, the dateline included.

The loop keeps that every cell of the rectangle lies in a run that is out or in a square that is still to
be split (`Covering`), and a split replaces a square by its four quarters (`covering_split`), so it may stop
at any time.

* **`coverRect_spec`** — the cover returns, within its budget, and holds every cell of the rectangle.
* **`hilbert_cover`** — the curve, the cover and the bounds together.
-/

open Fallible

open Ieee (f32 f64)

namespace Engine.Spatial

/-! ## Rectangles of cells -/

/-- The cells from `x0` to `x1` and from `y0` to `y1`, inclusive. -/
structure CellRect where
  x0 : ℕ
  x1 : ℕ
  y0 : ℕ
  y1 : ℕ

/-- A rectangle of cells of a grid. -/
structure CellRect.Valid (q : CellRect) (bits : ℕ) : Prop where
  x_le : q.x0 ≤ q.x1
  y_le : q.y0 ≤ q.y1
  x_lt : q.x1 < 2 ^ bits
  y_lt : q.y1 < 2 ^ bits

def CellRect.cells (q : CellRect) : Set (ℕ × ℕ) :=
  {c | (q.x0 ≤ c.1 ∧ c.1 ≤ q.x1) ∧ q.y0 ≤ c.2 ∧ c.2 ≤ q.y1}

/-- The cells of two corners. -/
def CellRect.ofCorners (xmin xmax ymin ymax bits : ℕ) : CellRect :=
  let (x0, y0) := cellOf xmin ymin bits
  let (x1, y1) := cellOf xmax ymax bits
  ⟨x0, x1, y0, y1⟩

/-- How many of a square's cells fall inside, or none when none do. -/
def CellRect.inside (q : CellRect) (x y size : ℕ) : Option ℕ :=
  let x1 := x + size - 1
  let y1 := y + size - 1
  if x1 < q.x0 ∨ q.x1 < x ∨ y1 < q.y0 ∨ q.y1 < y then none
  else some ((min x1 q.x1 - max x q.x0 + 1) * (min y1 q.y1 - max y q.y0 + 1))

/-! ## The cover -/

/-- A square that is part inside and part outside. -/
structure Straddling where
  waste : ℕ
  size : ℕ
  x : ℕ
  y : ℕ
  deriving DecidableEq

/-- The derived order: by waste, then by size and place. -/
def Straddling.worse (a b : Straddling) : Prop :=
  b.waste < a.waste ∨ b.waste = a.waste ∧ (b.size < a.size ∨ b.size = a.size ∧
    (b.x < a.x ∨ b.x = a.x ∧ b.y ≤ a.y))

instance : DecidableRel Straddling.worse := fun _ _ => inferInstanceAs (Decidable (_ ∨ _))

/-- The runs that are out, and the heap as the list of its squares, the greatest first. -/
structure Cover where
  out : List (ℕ × ℕ)
  straddling : List Straddling

/-- The run of a square. -/
def squareRun (bits x y size : ℕ) : ℕ × ℕ :=
  let lo := leastCorner x y size bits
  (lo, lo + size * size - 1)

section

variable (q : CellRect) (bits : ℕ)

def place (c : Cover) (x y size : ℕ) : Cover :=
  match q.inside x y size with
  | none => c
  | some cells =>
      if cells = size * size then { c with out := c.out ++ [squareRun bits x y size] }
      else { c with straddling :=
        c.straddling.orderedInsert Straddling.worse ⟨size * size - cells, size, x, y⟩ }

/-- The four quarters of a square. -/
def split (c : Cover) (worst : Straddling) : Cover :=
  let half := worst.size / 2
  [(0, 0), (half, 0), (0, half), (half, half)].foldl
    (fun c (d : ℕ × ℕ) => place q bits c (worst.x + d.1) (worst.y + d.2) half) c

/-- The loop, for so many turns. -/
def refine (budget : ℕ) : ℕ → Cover → Option Cover
  | 0, _ => none
  | turns + 1, c =>
      if c.out.length + c.straddling.length + 3 ≤ budget then
        match c.straddling with
        | [] => some c
        | worst :: rest => refine budget turns (split q bits { c with straddling := rest } worst)
      else some c

/-- `1u32 << bits`: past the width it is refused where overflow is checked, and else shifts by the
remainder. -/
def fullSize (checked : Bool) : Option ℕ :=
  if bits < 32 then some (2 ^ bits) else if checked then none else some (2 ^ (bits % 32))

/-- `cover_ranges`, once its corners are cells.  A cube of its side is more turns than it can take. -/
def coverRect (checked : Bool) (maxRanges : ℕ) : Option (List (ℕ × ℕ)) := do
  let budget := max maxRanges 4
  let full ← fullSize bits checked
  let c ← refine q bits budget (full ^ 3 + 1) (place q bits ⟨[], []⟩ 0 0 full)
  pure (Ranges.merge (c.out ++ c.straddling.map fun s => squareRun bits s.x s.y s.size))

end

/-- `cover_ranges` -/
def coverRanges (checked : Bool) (xmin xmax ymin ymax bits maxRanges : ℕ) : Option (List (ℕ × ℕ)) :=
  coverRect (CellRect.ofCorners xmin xmax ymin ymax bits) bits checked maxRanges

/-! ## Points and bounds -/

/-- A point, its coordinates checked. -/
structure Point where
  lon : ℕ
  lat : ℕ
  validLon : validate "longitude" 180 lon = .ok ()
  validLat : validate "latitude" 90 lat = .ok ()

def Point.new (lon lat : ℕ) : Except Error Point :=
  match hlon : validate "longitude" 180 lon, hlat : validate "latitude" 90 lat with
  | .ok (), .ok () => .ok ⟨lon, lat, hlon, hlat⟩
  | .error e, _ => .error e
  | .ok (), .error e => .error e

/-- A rectangle of longitudes and latitudes, which may cross the dateline. -/
structure Bounds where
  west : ℕ
  east : ℕ
  south : ℕ
  north : ℕ
  validWest : validate "longitude" 180 west = .ok ()
  validEast : validate "longitude" 180 east = .ok ()
  validSouth : validate "latitude" 90 south = .ok ()
  validNorth : validate "latitude" 90 north = .ok ()
  south_le : f64.value south ≤ f64.value north

def Bounds.new (west east south north : ℕ) : Except Error Bounds :=
  match hwest : validate "longitude" 180 west, heast : validate "longitude" 180 east,
    hsouth : validate "latitude" 90 south, hnorth : validate "latitude" 90 north with
  | .ok (), .ok (), .ok (), .ok () =>
      if h : f64.value south ≤ f64.value north then
        .ok ⟨west, east, south, north, hwest, heast, hsouth, hnorth, h⟩
      else .error (.invalid "south latitude exceeds north latitude")
  | .error e, _, _, _ => .error e
  | .ok (), .error e, _, _ => .error e
  | .ok (), .ok (), .error e, _ => .error e
  | .ok (), .ok (), .ok (), .error e => .error e

namespace Bounds

variable (b : Bounds)

def crossesDateline : Bool := decide (f64.value b.east < f64.value b.west)

def containsNegativeDateline : Bool :=
  if b.crossesDateline then decide (-180 ≤ f64.value b.east) else decide (f64.value b.west = -180)

def containsPositiveDateline : Bool :=
  if b.crossesDateline then decide (f64.value b.west ≤ 180) else decide (f64.value b.east = 180)

def contains (p : Point) : Bool :=
  if f64.value p.lat < f64.value b.south ∨ f64.value b.north < f64.value p.lat then false
  else
    let west := decide (f64.value b.west ≤ f64.value p.lon)
    let east := decide (f64.value p.lon ≤ f64.value b.east)
    let longitudeMatch := if b.crossesDateline then west || east else west && east
    longitudeMatch || (decide (f64.value p.lon = 180) && b.containsNegativeDateline)
      || (decide (f64.value p.lon = -180) && b.containsPositiveDateline)

def isWorld : Bool :=
  !b.crossesDateline && decide (f64.value b.west = -180) && decide (f64.value b.east = 180)

end Bounds

/-- `MAX_HILBERT_RANGES` -/
def maxHilbertRanges : ℕ := 64

/-- `MAX_HILBERT_VALUE` -/
def maxHilbertValue : ℕ := 2 ^ (2 * hilbertBits) - 1

def worldRange : List (ℕ × ℕ) := [(0, maxHilbertValue)]

/-- The dateline, spelt `-180`. -/
def negativeDateline : ℕ := f64OfInt (-180)

/-- The dateline, spelt `180`. -/
def positiveDateline : ℕ := f64OfInt 180

/-- The longitudes a rectangle is covered in, west to east. -/
def longitudeStrips (b : Bounds) : List (ℕ × ℕ) :=
  if b.crossesDateline then [(b.west, positiveDateline), (negativeDateline, b.east)]
  else
    [(b.west, b.east)]
      -- the cell of the other spelling of a touching side
      ++ (if f64.value b.west = -180 then [(positiveDateline, positiveDateline)] else [])
      ++ (if f64.value b.east = 180 then [(negativeDateline, negativeDateline)] else [])

/-- The loop over the strips, or none inside when their ranges are too many. -/
def stripRanges (checked : Bool) (b : Bounds) (maxRanges : ℕ) :
    List (ℕ × ℕ) → List (ℕ × ℕ) → Option (Option (List (ℕ × ℕ)))
  | ranges, [] => some (some ranges)
  | ranges, (west, east) :: strips => do
      let cover ← coverRanges checked west east b.south b.north hilbertBits maxRanges
      let ranges := ranges ++ cover
      if maxHilbertRanges * 2 < ranges.length then some none
      else stripRanges checked b maxRanges ranges strips

/-- `bounds_hilbert_ranges_bounded` -/
def boundsHilbertRangesBounded (checked : Bool) (b : Bounds) (maxRanges : ℕ) :
    Option (List (ℕ × ℕ)) := do
  let maxRanges := min (max maxRanges 4) maxHilbertRanges
  if b.isWorld then pure worldRange
  else
    match ← stripRanges checked b maxRanges [] (longitudeStrips b) with
    | none => pure worldRange
    | some ranges =>
        if ranges.any fun r => decide (r.2 < r.1 ∨ maxHilbertValue < r.2) then pure worldRange
        else
          let merged := Ranges.merge ranges
          if maxHilbertRanges < merged.length then pure worldRange else pure merged

/-! ## Squares of the curve -/

/-- A square of the curve in a grid. -/
def Aligned (bits x y size : ℕ) : Prop :=
  ∃ k ≤ bits, ∃ a b, a < 2 ^ (bits - k) ∧ b < 2 ^ (bits - k) ∧
    x = a * 2 ^ k ∧ y = b * 2 ^ k ∧ size = 2 ^ k

section

variable {q : CellRect} {bits x y size : ℕ} {c : Cover} {s : Straddling} {P : Set (ℕ × ℕ)}

lemma Aligned.size_pos (h : Aligned bits x y size) : 0 < size := by
  obtain ⟨k, -, a, b, -, -, -, -, rfl⟩ := h
  exact Nat.two_pow_pos k

lemma Aligned.whole (bits : ℕ) : Aligned bits 0 0 (2 ^ bits) :=
  ⟨bits, le_rfl, 0, 0, by simp, by simp, by simp, by simp, rfl⟩

/-- The quarters of a square of the curve are squares of it. -/
lemma Aligned.quarter (h : Aligned bits x y size) (hsize : 1 < size) {i j : ℕ} (hi : i < 2)
    (hj : j < 2) : Aligned bits (x + i * (size / 2)) (y + j * (size / 2)) (size / 2) := by
  obtain ⟨k, hk, a, b, ha, hb, rfl, rfl, rfl⟩ := h
  obtain ⟨k, rfl⟩ : ∃ l, k = l + 1 := Nat.exists_eq_succ_of_ne_zero (by rintro rfl; simp at hsize)
  have hhalf : 2 ^ (k + 1) / 2 = 2 ^ k := by rw [pow_succ, Nat.mul_div_cancel _ two_pos]
  have hpow : 2 ^ (bits - k) = 2 * 2 ^ (bits - (k + 1)) := by
    rw [← pow_succ']
    congr 1
    omega
  rw [hhalf]
  refine ⟨k, by omega, 2 * a + i, 2 * b + j, ?_, ?_, ?_, ?_, rfl⟩
  · omega
  · omega
  · rw [pow_succ]; ring
  · rw [pow_succ]; ring

/-- The run of a square of the curve. -/
lemma Aligned.covers_squareRun (h : Aligned bits x y size) {d : ℕ × ℕ} (hd : d ∈ square x y size) :
    (squareRun bits x y size).1 ≤ cellHilbert d.1 d.2 bits
      ∧ cellHilbert d.1 d.2 bits ≤ (squareRun bits x y size).2 := by
  obtain ⟨k, hk, a, b, -, -, rfl, rfl, rfl⟩ := h
  have himage := Set.mem_image_of_mem (fun c : ℕ × ℕ => cellHilbert c.1 c.2 bits) hd
  rw [image_square hk, Set.mem_Ico] at himage
  simp only [squareRun, two_pow_mul_self]
  omega

lemma Aligned.squareRun_inhabited (h : Aligned bits x y size) :
    (squareRun bits x y size).1 ≤ (squareRun bits x y size).2 := by
  have hpos := Nat.mul_pos h.size_pos h.size_pos
  simp only [squareRun]
  omega

lemma Aligned.squareRun_lt (h : Aligned bits x y size) : (squareRun bits x y size).2 < 4 ^ bits := by
  have hsize := h.size_pos
  obtain ⟨k, hk, a, b, -, -, rfl, rfl, rfl⟩ := h
  have hle := leastCorner_add_le (a := a) (b := b) hk
  have hpos : 0 < 4 ^ k := by positivity
  simp only [squareRun, two_pow_mul_self]
  omega

/-! ## What the loop keeps -/

/-- The runs are those of squares of the curve, the squares that wait can be split, and every cell of the
rectangle is in a run or in a square, except perhaps those of `P`. -/
structure Covering (q : CellRect) (bits : ℕ) (P : Set (ℕ × ℕ)) (c : Cover) : Prop where
  runs : ∀ r ∈ c.out, ∃ x y size, Aligned bits x y size ∧ r = squareRun bits x y size
  squares : ∀ s ∈ c.straddling, Aligned bits s.x s.y s.size ∧ 1 < s.size
  covered : ∀ d ∈ q.cells, d ∉ P → Ranges.Covers c.out (cellHilbert d.1 d.2 bits)
    ∨ ∃ s ∈ c.straddling, d ∈ square s.x s.y s.size

/-- A square none of whose cells fall inside. -/
lemma inside_none (hsize : 0 < size) (h : q.inside x y size = none) {d : ℕ × ℕ} (hd : d ∈ q.cells) :
    d ∉ square x y size := by
  rintro ⟨hdx, hdy⟩
  obtain ⟨hqx, hqy⟩ := hd
  simp only [CellRect.inside] at h
  split_ifs at h with hout
  omega

/-- A square that is part inside and part outside has more than one cell. -/
lemma one_lt_of_inside {cells : ℕ} (hsize : 0 < size)
    (h : q.inside x y size = some cells) (hcells : cells ≠ size * size) : 1 < size := by
  by_contra hle
  obtain rfl : size = 1 := by omega
  simp only [CellRect.inside] at h
  split_ifs at h with hout
  rw [Option.some.injEq] at h
  refine hcells ?_
  rw [← h, show min (x + 1 - 1) q.x1 - max x q.x0 + 1 = 1 by omega,
    show min (y + 1 - 1) q.y1 - max y q.y0 + 1 = 1 by omega]

/-- **A square that is placed** is a run, waits, or is dropped, and its cells are covered then. -/
lemma covering_place (hc : Covering q bits P c) (h : Aligned bits x y size) :
    Covering q bits (P \ square x y size) (place q bits c x y size) := by
  rw [place]
  split
  · rename_i hinside
    refine ⟨hc.runs, hc.squares, fun d hd hP => hc.covered d hd fun hdP => hP ⟨hdP, ?_⟩⟩
    exact inside_none h.size_pos hinside hd
  · rename_i cells hinside
    split_ifs with hcells
    · refine ⟨?_, hc.squares, ?_⟩
      · intro r hr
        rcases List.mem_append.1 hr with hr | hr
        · exact hc.runs r hr
        · exact ⟨x, y, size, h, List.mem_singleton.1 hr⟩
      · intro d hd hP
        by_cases hin : d ∈ square x y size
        · refine Or.inl (Ranges.covers_append.2 (Or.inr ?_))
          exact ⟨_, List.mem_singleton_self _, h.covers_squareRun hin⟩
        · rcases hc.covered d hd fun hdP => hP ⟨hdP, hin⟩ with hout | hwait
          · exact Or.inl (Ranges.covers_append.2 (Or.inl hout))
          · exact Or.inr hwait
    · refine ⟨hc.runs, ?_, ?_⟩
      · intro s hs
        rcases (List.mem_orderedInsert _).1 hs with rfl | hs
        · exact ⟨h, one_lt_of_inside h.size_pos hinside hcells⟩
        · exact hc.squares s hs
      · intro d hd hP
        by_cases hin : d ∈ square x y size
        · exact Or.inr ⟨_, (List.mem_orderedInsert _).2 (Or.inl rfl), hin⟩
        · rcases hc.covered d hd fun hdP => hP ⟨hdP, hin⟩ with hout | ⟨s, hs, hds⟩
          · exact Or.inl hout
          · exact Or.inr ⟨s, (List.mem_orderedInsert _).2 (Or.inr hs), hds⟩

/-- **A split keeps the cover**: the four quarters of a square take its place. -/
lemma covering_split (hc : Covering q bits (square s.x s.y s.size) c)
    (h : Aligned bits s.x s.y s.size) (hsize : 1 < s.size) : Covering q bits ∅ (split q bits c s) := by
  have heven : s.size / 2 + s.size / 2 = s.size := by
    obtain ⟨k, -, a, b, -, -, -, -, hk⟩ := h
    obtain ⟨k, rfl⟩ : ∃ l, k = l + 1 := Nat.exists_eq_succ_of_ne_zero (by rintro rfl; simp [hk] at hsize)
    rw [hk, pow_succ]
    omega
  have h00 := h.quarter hsize (i := 0) (j := 0) (by decide) (by decide)
  have h10 := h.quarter hsize (i := 1) (j := 0) (by decide) (by decide)
  have h01 := h.quarter hsize (i := 0) (j := 1) (by decide) (by decide)
  have h11 := h.quarter hsize (i := 1) (j := 1) (by decide) (by decide)
  simp only [zero_mul, one_mul] at h00 h10 h01 h11
  have hall := covering_place (covering_place (covering_place (covering_place hc h00) h10) h01) h11
  refine ⟨hall.runs, hall.squares, fun d hd _ => hall.covered d hd ?_⟩
  rintro ⟨⟨⟨⟨⟨hx, hy⟩, hn00⟩, hn10⟩, hn01⟩, hn11⟩
  simp only [square, Set.mem_ofPred_eq, not_and, not_lt] at hn00 hn10 hn01 hn11
  omega

/-- A square that is taken off the heap leaves its cells uncovered. -/
lemma Covering.pop {rest : List Straddling} (hc : Covering q bits ∅ c)
    (hheap : c.straddling = s :: rest) :
    Covering q bits (square s.x s.y s.size) { c with straddling := rest } := by
  refine ⟨hc.runs, fun t ht => hc.squares t (hheap ▸ List.mem_cons_of_mem s ht), fun d hd hP => ?_⟩
  refine (hc.covered d hd (Set.notMem_empty d)).imp_right ?_
  rintro ⟨t, ht, hdt⟩
  rw [hheap] at ht
  rcases ht with _ | ⟨_, ht⟩
  · exact absurd hdt hP
  · exact ⟨t, ht, hdt⟩

/-! ## The loop ends, within its budget -/

/-- How many runs a cover would have. -/
def Cover.count (c : Cover) : ℕ := c.out.length + c.straddling.length

/-- What is left to split, in cubes of the sides. -/
def Cover.volume (c : Cover) : ℕ := (c.straddling.map fun s => s.size ^ 3).sum

lemma count_place (q : CellRect) (bits : ℕ) (c : Cover) (x y size : ℕ) :
    (place q bits c x y size).count ≤ c.count + 1 := by
  rw [place]
  split
  · omega
  · split_ifs
    · simp only [Cover.count, List.length_append, List.length_singleton]
      omega
    · simp only [Cover.count, List.orderedInsert_length]
      omega

lemma volume_place (q : CellRect) (bits : ℕ) (c : Cover) (x y size : ℕ) :
    (place q bits c x y size).volume ≤ c.volume + size ^ 3 := by
  rw [place]
  split
  · omega
  · split_ifs
    · exact Nat.le_add_right _ _
    · rename_i cells _ _
      have hperm := List.perm_orderedInsert Straddling.worse ⟨size * size - cells, size, x, y⟩ c.straddling
      have hsum := (hperm.map fun s => s.size ^ 3).sum_eq
      rw [List.map_cons, List.sum_cons] at hsum
      dsimp only [Cover.volume]
      rw [hsum, Nat.add_comm]

lemma count_split (q : CellRect) (bits : ℕ) (c : Cover) (s : Straddling) :
    (split q bits c s).count ≤ c.count + 4 := by
  simp only [split, List.foldl_cons, List.foldl_nil]
  refine (count_place _ _ _ _ _ _).trans (Nat.succ_le_succ ?_)
  refine (count_place _ _ _ _ _ _).trans (Nat.succ_le_succ ?_)
  refine (count_place _ _ _ _ _ _).trans (Nat.succ_le_succ ?_)
  exact count_place _ _ _ _ _ _

lemma volume_split (q : CellRect) (bits : ℕ) (c : Cover) (hsize : 0 < s.size) :
    (split q bits c s).volume < c.volume + s.size ^ 3 := by
  have hhalf : 4 * (s.size / 2) ^ 3 < s.size ^ 3 := by
    have hle : (2 * (s.size / 2)) ^ 3 ≤ s.size ^ 3 := Nat.pow_le_pow_left (Nat.mul_div_le _ _) 3
    have hpos : 0 < s.size ^ 3 := by positivity
    rw [mul_pow] at hle
    omega
  simp only [split, List.foldl_cons, List.foldl_nil]
  have hplace := fun c x y => volume_place q bits c x y (s.size / 2)
  refine lt_of_le_of_lt (hplace _ _ _) ?_
  refine lt_of_le_of_lt (Nat.add_le_add_right (hplace _ _ _) _) ?_
  refine lt_of_le_of_lt (Nat.add_le_add_right (Nat.add_le_add_right (hplace _ _ _) _) _) ?_
  refine lt_of_le_of_lt (Nat.add_le_add_right (Nat.add_le_add_right (Nat.add_le_add_right
    (hplace _ _ _) _) _) _) ?_
  omega

/-- **The loop ends with a cover within its budget.** -/
lemma refine_spec {budget turns : ℕ} (hc : Covering q bits ∅ c)
    (hcount : c.count ≤ budget) (hturns : c.volume < turns) :
    ∃ c', refine q bits budget turns c = some c' ∧ Covering q bits ∅ c' ∧ c'.count ≤ budget := by
  induction turns generalizing c with
  | zero => omega
  | succ turns ih =>
      rw [refine]
      split_ifs with hroom
      · cases hheap : c.straddling with
        | nil => exact ⟨c, rfl, hc, hcount⟩
        | cons s rest =>
            obtain ⟨haligned, hsize⟩ := hc.squares s (by rw [hheap]; exact List.mem_cons_self)
            have hsplit := covering_split (hc.pop hheap) haligned hsize
            have hcount' := count_split q bits { c with straddling := rest } s
            have hvolume := volume_split q bits { c with straddling := rest } (Nat.zero_lt_of_lt hsize)
            simp only [Cover.count, Cover.volume, hheap, List.length_cons, List.map_cons,
              List.sum_cons] at hroom hcount' hvolume hturns
            exact ih hsplit (by simp only [Cover.count]; omega) (by simp only [Cover.volume]; omega)
      · exact ⟨c, rfl, hc, hcount⟩

end

/-! ## The cover -/

section

variable {bits : ℕ}

/-- The whole grid, placed. -/
lemma covering_whole {q : CellRect} (hq : q.Valid bits) :
    Covering q bits ∅ (place q bits ⟨[], []⟩ 0 0 (2 ^ bits)) := by
  have hempty : Covering q bits q.cells ⟨[], []⟩ := ⟨by simp, by simp, fun d hd hP => absurd hd hP⟩
  have hplace := covering_place hempty (Aligned.whole bits)
  refine ⟨hplace.runs, hplace.squares, fun d hd _ => hplace.covered d hd ?_⟩
  rintro ⟨⟨hx, hy⟩, hn⟩
  have hx1 := hq.x_lt
  have hy1 := hq.y_lt
  simp only [square, Set.mem_ofPred_eq] at hn
  omega

/-- **The cover returns**: sorted ranges with gaps between them, within the grid and the budget, that hold
every cell of the rectangle. -/
lemma coverRect_spec {q : CellRect} (hbits : bits < 32) (hq : q.Valid bits) (checked : Bool)
    (maxRanges : ℕ) : ∃ rs, coverRect q bits checked maxRanges = some rs ∧
      Ranges.Separated rs ∧ Ranges.Inhabited rs ∧ (∀ r ∈ rs, r.2 < 4 ^ bits)
      ∧ rs.length ≤ max 4 maxRanges
      ∧ ∀ d ∈ q.cells, Ranges.Covers rs (cellHilbert d.1 d.2 bits) := by
  have hcount : (place q bits ⟨[], []⟩ 0 0 (2 ^ bits)).count ≤ max maxRanges 4 := by
    refine (count_place _ _ _ _ _ _).trans ?_
    simp only [Cover.count, List.length_nil]
    omega
  have hvolume : (place q bits ⟨[], []⟩ 0 0 (2 ^ bits)).volume < (2 ^ bits) ^ 3 + 1 := by
    refine Nat.lt_succ_of_le ((volume_place _ _ _ _ _ _).trans_eq ?_)
    simp [Cover.volume]
  obtain ⟨c, hrefine, hc, hcount⟩ := refine_spec (covering_whole hq) hcount hvolume
  -- every range is the run of a square of the curve
  have hruns : ∀ r ∈ c.out ++ c.straddling.map (fun s => squareRun bits s.x s.y s.size),
      ∃ x y size, Aligned bits x y size ∧ r = squareRun bits x y size := by
    intro r hr
    rcases List.mem_append.1 hr with hr | hr
    · exact hc.runs r hr
    · obtain ⟨s, hs, rfl⟩ := List.mem_map.1 hr
      exact ⟨s.x, s.y, s.size, (hc.squares s hs).1, rfl⟩
  have hinhabited : Ranges.Inhabited (c.out ++ c.straddling.map fun s => squareRun bits s.x s.y s.size) := by
    intro r hr
    obtain ⟨x, y, size, haligned, rfl⟩ := hruns r hr
    exact haligned.squareRun_inhabited
  refine ⟨_, ?_, Ranges.separated_merge hinhabited, Ranges.inhabited_merge hinhabited, ?_, ?_, ?_⟩
  · simp [coverRect, fullSize, if_pos hbits, hrefine]
  · have hbound : ∀ r ∈ Ranges.merge (c.out ++ c.straddling.map fun s => squareRun bits s.x s.y s.size),
        r.2 ≤ 4 ^ bits - 1 := Ranges.merge_bound fun r hr => by
      obtain ⟨x, y, size, haligned, rfl⟩ := hruns r hr
      exact Nat.le_sub_one_of_lt haligned.squareRun_lt
    intro r hr
    have hpos : 0 < 4 ^ bits := by positivity
    have hr := hbound r hr
    omega
  · refine Ranges.length_merge.trans ?_
    rw [List.length_append, List.length_map]
    exact hcount.trans_eq (max_comm _ _)
  · intro d hd
    rw [Ranges.covers_merge, Ranges.covers_append]
    refine (hc.covered d hd (Set.notMem_empty d)).imp_right ?_
    rintro ⟨s, hs, hds⟩
    exact ⟨_, List.mem_map_of_mem hs, (hc.squares s hs).1.covers_squareRun hds⟩

/-! ## Rectangles of longitudes and latitudes -/

variable {name : String} {limit : ℚ} {v : ℕ} {b : Bounds} {p : Point} {checked : Bool}

lemma validate_range (h : validate name limit v = .ok ()) :
    -limit ≤ f64.value v ∧ f64.value v ≤ limit := by
  simp only [validate, bind_eq_ok, refuse_eq_ok, not_not] at h
  obtain ⟨_, -, h⟩ := h
  exact h

/-- Corners in order are corners of a rectangle of cells. -/
lemma ofCorners_valid {xmin xmax ymin ymax : ℕ} (hx : f64.value xmin ≤ f64.value xmax)
    (hy : f64.value ymin ≤ f64.value ymax) :
    (CellRect.ofCorners xmin xmax ymin ymax bits).Valid bits where
  x_le := cellAxis_mono 180 360 bits (by norm_num) hx
  y_le := cellAxis_mono 90 180 bits (by norm_num) hy
  x_lt := cellAxis_lt _ _ _ _
  y_lt := cellAxis_lt _ _ _ _

/-- A point between two corners lies in a cell between theirs. -/
lemma cellOf_mem_ofCorners {xmin xmax ymin ymax lon lat : ℕ}
    (hx : f64.value xmin ≤ f64.value lon ∧ f64.value lon ≤ f64.value xmax)
    (hy : f64.value ymin ≤ f64.value lat ∧ f64.value lat ≤ f64.value ymax) :
    cellOf lon lat bits ∈ (CellRect.ofCorners xmin xmax ymin ymax bits).cells :=
  ⟨⟨cellAxis_mono 180 360 bits (by norm_num) hx.1, cellAxis_mono 180 360 bits (by norm_num) hx.2⟩,
    cellAxis_mono 90 180 bits (by norm_num) hy.1, cellAxis_mono 90 180 bits (by norm_num) hy.2⟩

/-- A rectangle whose corners are in order is covered, each point of it in its cell. -/
lemma coverRanges_spec {xmin xmax ymin ymax bits : ℕ} (hbits : bits < 32)
    (hx : f64.value xmin ≤ f64.value xmax) (hy : f64.value ymin ≤ f64.value ymax) (checked : Bool)
    (maxRanges : ℕ) : ∃ rs, coverRanges checked xmin xmax ymin ymax bits maxRanges = some rs ∧
      ∀ lon lat, f64.value xmin ≤ f64.value lon ∧ f64.value lon ≤ f64.value xmax →
        f64.value ymin ≤ f64.value lat ∧ f64.value lat ≤ f64.value ymax →
          Ranges.Covers rs (cellHilbert (cellOf lon lat bits).1 (cellOf lon lat bits).2 bits) := by
  obtain ⟨rs, hrs, -, -, -, -, hcover⟩ := coverRect_spec hbits (ofCorners_valid hx hy) checked maxRanges
  exact ⟨rs, hrs, fun lon lat hlon hlat => hcover _ (cellOf_mem_ofCorners hlon hlat)⟩

lemma value_negativeDateline : f64.value negativeDateline = -180 := by decide +kernel

lemma value_positiveDateline : f64.value positiveDateline = 180 := by decide +kernel

/-- The longitudes of a strip, west to east. -/
def InStrip (strip : ℕ × ℕ) (lon : ℕ) : Prop :=
  f64.value strip.1 ≤ f64.value lon ∧ f64.value lon ≤ f64.value strip.2

lemma strip_le {strip : ℕ × ℕ} (h : strip ∈ longitudeStrips b) :
    f64.value strip.1 ≤ f64.value strip.2 := by
  have hcases : (strip = (b.west, positiveDateline) ∨ strip = (negativeDateline, b.east))
      ∨ (strip = (b.west, b.east) ∧ f64.value b.west ≤ f64.value b.east)
      ∨ strip = (positiveDateline, positiveDateline) ∨ strip = (negativeDateline, negativeDateline) := by
    rw [longitudeStrips] at h
    split_ifs at h with hcross
    · exact Or.inl (by simpa using h)
    all_goals
      simp only [Bounds.crossesDateline, decide_eq_true_eq, not_lt] at hcross
      simp only [List.mem_append, List.mem_singleton, List.not_mem_nil, or_false] at h
      tauto
  rcases hcases with (rfl | rfl) | ⟨rfl, hle⟩ | rfl | rfl
  · exact (validate_range b.validWest).2.trans_eq value_positiveDateline.symm
  · exact value_negativeDateline.trans_le (validate_range b.validEast).1
  · exact hle
  · exact le_rfl
  · exact le_rfl

/-- **A point that the bounds contain lies in one of their strips**, under its own spelling. -/
lemma exists_strip (h : b.contains p = true) :
    (f64.value b.south ≤ f64.value p.lat ∧ f64.value p.lat ≤ f64.value b.north)
      ∧ ∃ strip ∈ longitudeStrips b, InStrip strip p.lon := by
  have hlon := validate_range p.validLon
  have hwest := validate_range b.validWest
  have heast := validate_range b.validEast
  simp only [Bounds.contains] at h
  split_ifs at h with hlat hcross
  all_goals
    rw [not_or, not_lt, not_lt] at hlat
    refine ⟨hlat, ?_⟩
    simp only [Bounds.containsNegativeDateline, Bounds.containsPositiveDateline, hcross, if_true,
      Bool.or_eq_true, Bool.and_eq_true, decide_eq_true_eq] at h
  · have hstrips : longitudeStrips b = [(b.west, positiveDateline), (negativeDateline, b.east)] := by
      rw [longitudeStrips, if_pos hcross]
    have hpos : InStrip (b.west, positiveDateline) p.lon ↔ f64.value b.west ≤ f64.value p.lon := by
      rw [InStrip, value_positiveDateline]
      exact and_iff_left hlon.2
    have hneg : InStrip (negativeDateline, b.east) p.lon ↔ f64.value p.lon ≤ f64.value b.east := by
      rw [InStrip, value_negativeDateline]
      exact and_iff_right hlon.1
    rw [hstrips]
    rcases h with ((hw | he) | ⟨h180, -⟩) | ⟨h180, -⟩
    · exact ⟨_, List.mem_cons_self, hpos.2 hw⟩
    · exact ⟨_, List.mem_cons_of_mem _ List.mem_cons_self, hneg.2 he⟩
    · exact ⟨_, List.mem_cons_self, hpos.2 (hwest.2.trans_eq h180.symm)⟩
    · exact ⟨_, List.mem_cons_of_mem _ List.mem_cons_self, hneg.2 (h180.trans_le heast.1)⟩
  · have hstrips : longitudeStrips b = [(b.west, b.east)]
        ++ (if f64.value b.west = -180 then [(positiveDateline, positiveDateline)] else [])
        ++ (if f64.value b.east = 180 then [(negativeDateline, negativeDateline)] else []) := by
      rw [longitudeStrips, if_neg hcross]
    rw [hstrips]
    rcases h with (⟨hw, he⟩ | ⟨h180, hw⟩) | ⟨h180, he⟩
    · exact ⟨(b.west, b.east), by simp, hw, he⟩
    · have hw : f64.value b.west = -180 := by simpa using hw
      refine ⟨(positiveDateline, positiveDateline), by simp [hw], ?_, ?_⟩
      · exact (value_positiveDateline.trans h180.symm).le
      · exact (h180.trans value_positiveDateline.symm).le
    · have he : f64.value b.east = 180 := by simpa using he
      refine ⟨(negativeDateline, negativeDateline), by simp [he], ?_, ?_⟩
      · exact (value_negativeDateline.trans h180.symm).le
      · exact (h180.trans value_negativeDateline.symm).le

/-- **The loop over the strips** keeps the ranges it has and covers the points of each strip. -/
lemma stripRanges_spec {strips : List (ℕ × ℕ)}
    (hle : ∀ strip ∈ strips, f64.value strip.1 ≤ f64.value strip.2) (maxRanges : ℕ) (checked : Bool)
    (ranges : List (ℕ × ℕ)) : ∃ found, stripRanges checked b maxRanges ranges strips = some found ∧
      ∀ rs, found = some rs → (∀ n, Ranges.Covers ranges n → Ranges.Covers rs n) ∧
        ∀ p : Point, (∃ strip ∈ strips, InStrip strip p.lon) →
          f64.value b.south ≤ f64.value p.lat ∧ f64.value p.lat ≤ f64.value b.north →
            Ranges.Covers rs (pointHilbert (p.lon, p.lat)) := by
  induction strips generalizing ranges with
  | nil =>
      refine ⟨some ranges, rfl, ?_⟩
      rintro rs ⟨⟩
      exact ⟨fun n h => h, fun p h => absurd h (by simp)⟩
  | cons strip strips ih =>
      obtain ⟨west, east⟩ := strip
      have hbits : hilbertBits < 32 := by decide
      obtain ⟨cover, hcover, hpoints⟩ := coverRanges_spec hbits
        (hle (west, east) List.mem_cons_self) b.south_le checked maxRanges
      simp only [stripRanges, hcover, Option.bind_eq_bind, Option.bind_some]
      split_ifs with hmany
      · exact ⟨none, rfl, by simp⟩
      · obtain ⟨found, hfound, hspec⟩ :=
          ih (fun s hs => hle s (List.mem_cons_of_mem _ hs)) (ranges ++ cover)
        refine ⟨found, hfound, fun rs hrs => ?_⟩
        obtain ⟨hkeep, hrest⟩ := hspec rs hrs
        refine ⟨fun n hn => hkeep n (Ranges.covers_append.2 (Or.inl hn)), fun p hstrip hlat => ?_⟩
        obtain ⟨s, hs, hlon⟩ := hstrip
        rcases hs with _ | ⟨_, hs⟩
        · exact hkeep _ (Ranges.covers_append.2 (Or.inr (hpoints p.lon p.lat hlon hlat)))
        · exact hrest p ⟨s, hs, hlon⟩ hlat

lemma pointHilbert_le (p : Point) : pointHilbert (p.lon, p.lat) ≤ maxHilbertValue := by
  have h := cellHilbert_lt (cellOf p.lon p.lat hilbertBits).1 (cellOf p.lon p.lat hilbertBits).2
    hilbertBits
  have hpow : 4 ^ hilbertBits = maxHilbertValue + 1 := by decide
  exact Nat.le_of_lt_succ (h.trans_eq hpow)

lemma covers_worldRange (p : Point) : Ranges.Covers worldRange (pointHilbert (p.lon, p.lat)) :=
  ⟨_, List.mem_singleton_self _, Nat.zero_le _, pointHilbert_le p⟩

/-- **Every point the bounds contain is covered.** -/
lemma boundsHilbertRangesBounded_spec (checked : Bool) (maxRanges : ℕ) :
    ∃ rs, boundsHilbertRangesBounded checked b maxRanges = some rs ∧
      ∀ p : Point, b.contains p = true → Ranges.Covers rs (pointHilbert (p.lon, p.lat)) := by
  rw [boundsHilbertRangesBounded]
  split_ifs with hworld
  · exact ⟨_, rfl, fun p _ => covers_worldRange p⟩
  obtain ⟨found, hfound, hspec⟩ := stripRanges_spec (fun strip h => strip_le h)
    (min (max maxRanges 4) maxHilbertRanges) checked []
  rw [hfound]
  simp only [Option.bind_eq_bind, Option.bind_some]
  cases found with
  | none => exact ⟨_, rfl, fun p _ => covers_worldRange p⟩
  | some ranges =>
      dsimp only
      split_ifs with hbad hmany
      · exact ⟨_, rfl, fun p _ => covers_worldRange p⟩
      · exact ⟨_, rfl, fun p _ => covers_worldRange p⟩
      · refine ⟨_, rfl, fun p hp => ?_⟩
        obtain ⟨hlat, hstrip⟩ := exists_strip hp
        exact Ranges.covers_merge.2 ((hspec ranges rfl).2 p hstrip hlat)

/-- A cover is in order, and within the curve. -/
lemma boundsHilbertRangesBounded_shape {maxRanges : ℕ} {rs : List (ℕ × ℕ)}
    (h : boundsHilbertRangesBounded checked b maxRanges = some rs) :
    Ranges.Separated rs ∧ Ranges.Inhabited rs ∧ ∀ r ∈ rs, r.2 ≤ maxHilbertValue := by
  have hworld : ∀ rs, some worldRange = some rs →
      Ranges.Separated rs ∧ Ranges.Inhabited rs ∧ ∀ r ∈ rs, r.2 ≤ maxHilbertValue := by
    intro rs h
    rw [← Option.some.inj h, worldRange]
    exact ⟨List.pairwise_singleton _ _, by simp [Ranges.Inhabited], by simp⟩
  rw [boundsHilbertRangesBounded] at h
  split_ifs at h with hisWorld
  · exact hworld rs h
  obtain ⟨found, hfound, -⟩ := stripRanges_spec (fun strip h => strip_le h)
    (min (max maxRanges 4) maxHilbertRanges) checked []
  rw [hfound] at h
  simp only [Option.bind_eq_bind, Option.bind_some] at h
  cases found with
  | none => exact hworld rs h
  | some ranges =>
      dsimp only at h
      split_ifs at h with hbad hmany
      · exact hworld rs h
      · exact hworld rs h
      · rw [← Option.some.inj h]
        rw [List.any_eq_true] at hbad
        have hproper : ∀ r ∈ ranges, r.1 ≤ r.2 ∧ r.2 ≤ maxHilbertValue := by
          intro r hr
          by_contra hnot
          exact hbad ⟨r, hr, decide_eq_true (by omega)⟩
        exact ⟨Ranges.separated_merge fun r hr => (hproper r hr).1,
          Ranges.inhabited_merge fun r hr => (hproper r hr).1,
          Ranges.merge_bound fun r hr => (hproper r hr).2⟩

lemma boundsHilbertRangesBounded_world {maxRanges : ℕ} (h : b.isWorld = true) :
    boundsHilbertRangesBounded checked b maxRanges = some worldRange := by
  rw [boundsHilbertRangesBounded, if_pos h]
  rfl

end

/-! ## The curve and its covers -/

/-- **The cover misses no cell.**  The curve numbers the cells of a grid one to one, and gives an aligned square
a run of numbers without a gap.  The cover of a rectangle of cells comes to its end within its bound, and its
ranges, apart and in order, have the number of every cell of the rectangle; a point within bounds is in the
cover of the bounds, also on the dateline under either spelling.

A turn of the loop puts the four quarters of a square in its place, and whatever lies in the square and the
rectangle is in one of them; that a quarter is again one range is `image_square`. -/
theorem hilbert_cover :
    (∀ bits ≤ 32,
      Set.BijOn (fun c : ℕ × ℕ => cellHilbert c.1 c.2 bits) (grid bits : Set (ℕ × ℕ))
        (Finset.range (4 ^ bits) : Set ℕ)
      ∧ ∀ x y size, Aligned bits x y size →
          (fun c : ℕ × ℕ => cellHilbert c.1 c.2 bits) '' square x y size
            = Set.Ico (leastCorner x y size bits) (leastCorner x y size bits + size * size))
    ∧ (∀ bits < 32, ∀ q : CellRect, q.Valid bits → ∀ checked maxRanges,
        ∃ rs, coverRect q bits checked maxRanges = some rs ∧
          Ranges.Separated rs ∧ Ranges.Inhabited rs ∧ (∀ r ∈ rs, r.2 < 4 ^ bits)
          ∧ rs.length ≤ max 4 maxRanges
          ∧ ∀ c ∈ q.cells, Ranges.Covers rs (cellHilbert c.1 c.2 bits))
    ∧ ∀ (b : Bounds) (p : Point) checked maxRanges, b.contains p = true →
        ∃ rs, boundsHilbertRangesBounded checked b maxRanges = some rs ∧
          Ranges.Covers rs (pointHilbert (p.lon, p.lat)) := by
  refine ⟨fun bits _ => ⟨cellHilbert_bijOn, ?_⟩, ?_, ?_⟩
  · rintro x y size ⟨k, hk, a, b, -, -, rfl, rfl, rfl⟩
    rw [image_square hk, two_pow_mul_self]
  · exact fun bits hbits q hq checked maxRanges => coverRect_spec hbits hq checked maxRanges
  · intro b p checked maxRanges hp
    obtain ⟨rs, hrs, hcover⟩ := boundsHilbertRangesBounded_spec (b := b) checked maxRanges
    exact ⟨rs, hrs, hcover p hp⟩

/-- A point on the dateline, spelt `-180`. -/
def datelinePoint : Point := ⟨negativeDateline, 0, by decide +kernel, by decide +kernel⟩

/-- The bounds from 0 to the dateline, spelt `180`. -/
def easternBounds : Bounds :=
  ⟨0, positiveDateline, 0, 0, by decide +kernel, by decide +kernel, by decide +kernel,
    by decide +kernel, le_rfl⟩

theorem hilbert_cover_dateline : easternBounds.contains datelinePoint = true ∧
    ∃ rs, boundsHilbertRangesBounded true easternBounds 8 = some rs ∧
      Ranges.Covers rs (pointHilbert (datelinePoint.lon, datelinePoint.lat)) := by
  have hcontains : easternBounds.contains datelinePoint = true := by decide +kernel
  exact ⟨hcontains, hilbert_cover.2.2 easternBounds datelinePoint true 8 hcontains⟩

/-- At 32 bits the side of the grid does not fit its `u32`: where overflow is checked the cover does not
return, and elsewhere it is the cover of a grid of one cell. -/
theorem coverRect_fails : ∃ q : CellRect, q.Valid 32 ∧ (1, 0) ∈ q.cells
    ∧ coverRect q 32 true 64 = none
    ∧ ∃ rs, coverRect q 32 false 64 = some rs ∧ ¬ Ranges.Covers rs (cellHilbert 1 0 32) := by
  refine ⟨⟨1, 1, 0, 0⟩, ⟨le_rfl, le_rfl, by norm_num, by norm_num⟩, ⟨⟨le_rfl, le_rfl⟩, le_rfl, le_rfl⟩,
    rfl, [], ?_, Ranges.not_covers_nil⟩
  change some (Ranges.merge []) = some []
  rw [Ranges.merge, List.mergeSort_nil]
  rfl

end Engine.Spatial
