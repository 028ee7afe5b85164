import Sekejap.Spatial.Geometry

/-!
# Squares on the curve

What `cover_ranges` (`core/kernel/src/spatial.rs`) relies on.  A cell of a coarse grid is a square of
`w * w` cells of a finer one, and one turn of the curve moves the square as the coarse cell and turns what is
inside it (`quadrant_scale`).  So the cells of the square lie together on the curve, in some turned copy of
the curve of a `w * w` grid.

* **`cellHilbert_bijOn`** — the curve takes the cells of a grid onto its places, each once.
* **`image_square`** — the places of an aligned square are one run, which starts at the least of the
  places of its four corners.
-/

namespace Engine.Spatial

/-! ## The places of a grid -/

section

variable {bits : ℕ}

/-- The cells of a grid. -/
def grid (bits : ℕ) : Finset (ℕ × ℕ) := Finset.range (2 ^ bits) ×ˢ Finset.range (2 ^ bits)

@[simp] lemma mem_grid {c : ℕ × ℕ} : c ∈ grid bits ↔ c.1 < 2 ^ bits ∧ c.2 < 2 ^ bits := by
  simp [grid]

lemma two_pow_mul_self (bits : ℕ) : 2 ^ bits * 2 ^ bits = 4 ^ bits := by
  rw [← mul_pow]
  norm_num

lemma cellHilbert_lt (cx cy bits : ℕ) : cellHilbert cx cy bits < 4 ^ bits := by
  rw [← two_pow_mul_self]
  exact hilbertLoop_lt bits cx cy

lemma cellHilbert_injOn :
    Set.InjOn (fun c : ℕ × ℕ => cellHilbert c.1 c.2 bits) (grid bits : Set (ℕ × ℕ)) := by
  intro c hc d hd h
  rw [Finset.mem_coe, mem_grid] at hc hd
  obtain ⟨hx, hy⟩ := cellHilbert_inj hc.1 hc.2 hd.1 hd.2 h
  exact Prod.ext hx hy

/-- **The curve takes the cells of a grid onto its places, each once.** -/
lemma cellHilbert_bijOn : Set.BijOn (fun c : ℕ × ℕ => cellHilbert c.1 c.2 bits)
    (grid bits : Set (ℕ × ℕ)) (Finset.range (4 ^ bits) : Set ℕ) := by
  have hmaps : Set.MapsTo (fun c : ℕ × ℕ => cellHilbert c.1 c.2 bits) (grid bits : Set (ℕ × ℕ))
      (Finset.range (4 ^ bits) : Set ℕ) := fun c _ => by
    simpa using cellHilbert_lt c.1 c.2 bits
  refine ⟨hmaps, cellHilbert_injOn, ?_⟩
  have hcard : (Finset.range (4 ^ bits)).card ≤ (grid bits).card := by
    rw [grid, Finset.card_product, Finset.card_range, Finset.card_range, two_pow_mul_self]
  exact Finset.surjOn_of_injOn_of_card_le _ hmaps cellHilbert_injOn hcard

end

/-! ## What is above the grid plays no part -/

section

variable {s x y u v : ℕ}

private lemma div_mod_two (hs : 0 < s) (h : x % (2 * s) = u % (2 * s)) : x / s % 2 = u / s % 2 := by
  rw [mul_comm, Nat.mod_mul, Nat.mod_mul] at h
  have hx := Nat.mod_lt x hs
  have hu := Nat.mod_lt u hs
  rcases Nat.mod_two_eq_zero_or_one (x / s) with h0 | h0 <;>
    rcases Nat.mod_two_eq_zero_or_one (u / s) with h1 | h1 <;> rw [h0, h1] at h ⊢ <;> omega

private lemma mod_of_mod_two (h : x % (2 * s) = u % (2 * s)) : x % s = u % s := by
  rw [← Nat.mod_mul_left_mod x 2 s, h, Nat.mod_mul_left_mod]

/-- Cells that agree below `2 * s` have the same digit, and agree below `s` after it. -/
lemma quadrant_congr (hs : 0 < s) (hx : x % (2 * s) = u % (2 * s)) (hy : y % (2 * s) = v % (2 * s)) :
    (quadrant s x y).1 = (quadrant s u v).1
      ∧ (quadrant s x y).2.1 % s = (quadrant s u v).2.1 % s
      ∧ (quadrant s x y).2.2 % s = (quadrant s u v).2.2 % s := by
  simp only [quadrant, div_mod_two hs hx, div_mod_two hs hy]
  split_ifs
  · refine ⟨rfl, ?_, ?_⟩
    · dsimp only
      rw [mirror_mod hs, mirror_mod hs, mod_of_mod_two hy]
    · dsimp only
      rw [mirror_mod hs, mirror_mod hs, mod_of_mod_two hx]
  · exact ⟨rfl, mod_of_mod_two hy, mod_of_mod_two hx⟩
  · exact ⟨rfl, mod_of_mod_two hx, mod_of_mod_two hy⟩

lemma hilbertLoop_congr (bits : ℕ) (hx : x % 2 ^ bits = u % 2 ^ bits)
    (hy : y % 2 ^ bits = v % 2 ^ bits) : hilbertLoop bits x y 0 = hilbertLoop bits u v 0 := by
  induction bits generalizing x y u v with
  | zero => rfl
  | succ bits ih =>
      rw [pow_succ, mul_comm] at hx hy
      obtain ⟨hdigit, hx', hy'⟩ := quadrant_congr (Nat.two_pow_pos bits) hx hy
      rw [hilbertLoop_succ, hilbertLoop_succ, hdigit, ih hx' hy']

end

/-! ## A coarse cell is a square -/

section

variable {s a b w : ℕ} {p q : ℕ × ℕ}

/-- A place inside a square of side `w`. -/
def Inside (w : ℕ) (p : ℕ × ℕ) : Prop := p.1 < w ∧ p.2 < w

/-- A corner of a square of side `w`. -/
def Corner (w : ℕ) (p : ℕ × ℕ) : Prop := (p.1 = 0 ∨ p.1 = w - 1) ∧ (p.2 = 0 ∨ p.2 = w - 1)

/-- What `quadrant` does inside the square of the coarse cell. -/
def turn (s a b w : ℕ) (p : ℕ × ℕ) : ℕ × ℕ :=
  if b / s % 2 = 0 then
    if a / s % 2 = 1 then (w - 1 - p.2, w - 1 - p.1) else (p.2, p.1)
  else p

lemma turn_inside (h : Inside w p) : Inside w (turn s a b w p) := by
  obtain ⟨h1, h2⟩ := h
  simp only [turn]
  split_ifs
  · exact ⟨by dsimp only; omega, by dsimp only; omega⟩
  · exact ⟨h2, h1⟩
  · exact ⟨h1, h2⟩

lemma turn_corner (h : Corner w p) : Corner w (turn s a b w p) := by
  obtain ⟨h1, h2⟩ := h
  simp only [turn]
  split_ifs
  · exact ⟨by dsimp only; omega, by dsimp only; omega⟩
  · exact ⟨h2, h1⟩
  · exact ⟨h1, h2⟩

lemma turn_turn (h : Inside w p) : turn s a b w (turn s a b w p) = p := by
  obtain ⟨h1, h2⟩ := h
  simp only [turn]
  split_ifs
  · exact Prod.ext (by dsimp only; omega) (by dsimp only; omega)
  · rfl
  · rfl

private lemma scale_div (hp : p.1 < w) : (a * w + p.1) / (w * s) = a / s := by
  have hw : 0 < w := by omega
  rw [← Nat.div_div_eq_div_mul, mul_comm a, Nat.mul_add_div hw, Nat.div_eq_of_lt hp, Nat.add_zero]

private lemma scale_mod (hp : p.1 < w) : (a * w + p.1) % (w * s) = a % s * w + p.1 := by
  have hw : 0 < w := by omega
  rw [Nat.mod_mul, mul_comm a, Nat.mul_add_mod, Nat.mod_eq_of_lt hp, Nat.mul_add_div hw,
    Nat.div_eq_of_lt hp, Nat.add_zero]
  ring

/-- A mirrored place lies in the mirrored square. -/
private lemma scale_mirror (hs : 0 < s) (hp : p.1 < w) :
    w * s - 1 - (a * w + p.1) % (w * s) + (a * w + p.1) / (2 * (w * s)) * (2 * (w * s))
      = (s - 1 - a % s + a / (2 * s) * (2 * s)) * w + (w - 1 - p.1) := by
  have htop : (a * w + p.1) / (2 * (w * s)) = a / (2 * s) := by
    rw [show 2 * (w * s) = w * (2 * s) by ring, scale_div hp]
  obtain ⟨t, ht⟩ : ∃ t, s = a % s + 1 + t := ⟨s - 1 - a % s, by have := Nat.mod_lt a hs; omega⟩
  have hsub : s - 1 - a % s = t := by omega
  have hprod : w * s = a % s * w + w + t * w := by
    conv_lhs => rw [ht]
    ring
  have hrest : a / (2 * s) * (2 * (w * s)) = a / (2 * s) * (2 * s) * w := by ring
  rw [scale_mod hp, htop, hsub, hrest, add_mul]
  omega

/-- **One turn of the curve on a finer grid** moves the square as its coarse cell and turns what is inside. -/
lemma quadrant_scale (hs : 0 < s) (hp : Inside w p) :
    quadrant (w * s) (a * w + p.1) (b * w + p.2)
      = (w * w * (quadrant s a b).1, (quadrant s a b).2.1 * w + (turn s a b w p).1,
          (quadrant s a b).2.2 * w + (turn s a b w p).2) := by
  have hx := scale_div (a := a) (s := s) hp.1
  have hy : (b * w + p.2) / (w * s) = b / s := scale_div (p := (p.2, p.1)) hp.2
  have hmx := scale_mirror (a := a) hs hp.1
  have hmy := scale_mirror (a := b) (p := (p.2, p.1)) hs hp.2
  have hss : w * s * (w * s) = w * w * (s * s) := by ring
  simp only [quadrant, turn, hx, hy, hss]
  split_ifs
  · rw [hmx, hmy, mul_assoc]
  · rw [mul_assoc]
  · rw [mul_assoc]

/-- What `j` turns of the curve do inside a square. -/
def turns (w : ℕ) : ℕ → ℕ → ℕ → ℕ × ℕ → ℕ × ℕ
  | 0, _, _, p => p
  | j + 1, a, b, p =>
      turns w j (quadrant (2 ^ j) a b).2.1 (quadrant (2 ^ j) a b).2.2 (turn (2 ^ j) a b w p)

/-- Every place in the turned square comes from one, and a corner from a corner. -/
lemma exists_turns {j : ℕ} (h : Inside w q) :
    ∃ p, Inside w p ∧ turns w j a b p = q ∧ (Corner w q → Corner w p) := by
  induction j generalizing a b with
  | zero => exact ⟨q, h, rfl, id⟩
  | succ j ih =>
      obtain ⟨p, hp, hturns, hcorner⟩ := @ih (quadrant (2 ^ j) a b).2.1 (quadrant (2 ^ j) a b).2.2
      refine ⟨turn (2 ^ j) a b w p, turn_inside hp, ?_, fun hq => turn_corner (hcorner hq)⟩
      rw [turns, turn_turn hp, hturns]

/-- **The places of a square are those of its coarse cell, each followed by a turned square.** -/
lemma hilbertLoop_scale (j k : ℕ) (hp : Inside (2 ^ k) p) :
    hilbertLoop (j + k) (a * 2 ^ k + p.1) (b * 2 ^ k + p.2) 0
      = 4 ^ k * hilbertLoop j a b 0
        + hilbertLoop k (turns (2 ^ k) j a b p).1 (turns (2 ^ k) j a b p).2 0 := by
  induction j generalizing a b p with
  | zero =>
      rw [Nat.zero_add, hilbertLoop, Nat.mul_zero, Nat.zero_add, turns]
      refine hilbertLoop_congr k ?_ ?_ <;> rw [Nat.mul_add_mod_self_right]
  | succ j ih =>
      have hquad := quadrant_scale (a := a) (b := b) (Nat.two_pow_pos j) hp
      rw [Nat.add_right_comm, hilbertLoop_succ, pow_add, mul_comm (2 ^ j), hquad, hilbertLoop_succ]
      dsimp only
      rw [ih (turn_inside hp), two_pow_mul_self, turns]
      ring

end

/-! ## The run of a square -/

section

variable {bits a b k : ℕ}

/-- The first place of a grid is its first cell. -/
lemma hilbertLoop_zero (k : ℕ) : hilbertLoop k 0 0 0 = 0 := by
  induction k with
  | zero => rfl
  | succ k ih => rw [hilbertLoop_succ]; simpa [quadrant] using ih

/-- The least of the places of the four corners of a square. -/
def leastCorner (x y size bits : ℕ) : ℕ :=
  min (min (cellHilbert x y bits) (cellHilbert (x + size - 1) y bits))
    (min (cellHilbert x (y + size - 1) bits) (cellHilbert (x + size - 1) (y + size - 1) bits))

lemma cellHilbert_square {p : ℕ × ℕ} (hk : k ≤ bits) (hp : Inside (2 ^ k) p) :
    cellHilbert (a * 2 ^ k + p.1) (b * 2 ^ k + p.2) bits
      = 4 ^ k * cellHilbert a b (bits - k)
        + cellHilbert (turns (2 ^ k) (bits - k) a b p).1 (turns (2 ^ k) (bits - k) a b p).2 k := by
  have h := hilbertLoop_scale (a := a) (b := b) (bits - k) k hp
  rwa [Nat.sub_add_cancel hk] at h

/-- The least corner is the first place of the square. -/
lemma leastCorner_square (hk : k ≤ bits) :
    leastCorner (a * 2 ^ k) (b * 2 ^ k) (2 ^ k) bits = 4 ^ k * cellHilbert a b (bits - k) := by
  have hpos : 0 < 2 ^ k := Nat.two_pow_pos k
  have hge : ∀ p, Inside (2 ^ k) p → 4 ^ k * cellHilbert a b (bits - k)
      ≤ cellHilbert (a * 2 ^ k + p.1) (b * 2 ^ k + p.2) bits := fun p hp => by
    rw [cellHilbert_square hk hp]
    exact Nat.le_add_right _ _
  -- the corner that the turns take to the first cell
  obtain ⟨p, hp, hturns, hcorner⟩ :=
    exists_turns (q := (0, 0)) (j := bits - k) (a := a) (b := b) (w := 2 ^ k) ⟨hpos, hpos⟩
  have heq : cellHilbert (a * 2 ^ k + p.1) (b * 2 ^ k + p.2) bits
      = 4 ^ k * cellHilbert a b (bits - k) := by
    rw [cellHilbert_square hk hp, hturns]
    exact congrArg _ (hilbertLoop_zero k)
  obtain ⟨hx, hy⟩ := hcorner ⟨Or.inl rfl, Or.inl rfl⟩
  have hlast : ∀ c, c * 2 ^ k + 2 ^ k - 1 = c * 2 ^ k + (2 ^ k - 1) := fun c => by omega
  have h00 := hge (0, 0) ⟨hpos, hpos⟩
  have h10 := hge (2 ^ k - 1, 0) ⟨by dsimp only; omega, hpos⟩
  have h01 := hge (0, 2 ^ k - 1) ⟨hpos, by dsimp only; omega⟩
  have h11 := hge (2 ^ k - 1, 2 ^ k - 1) ⟨by dsimp only; omega, by dsimp only; omega⟩
  rw [leastCorner, hlast, hlast]
  dsimp only at h00 h10 h01 h11
  rw [Nat.add_zero] at h00 h10 h01
  refine le_antisymm ?_ (le_min (le_min h00 h10) (le_min h01 h11))
  rw [← heq]
  rcases hx with hx | hx <;> rcases hy with hy | hy <;> rw [hx, hy]
  · exact (min_le_left _ _).trans (min_le_left _ _)
  · exact (min_le_right _ _).trans (min_le_left _ _)
  · exact (min_le_left _ _).trans (min_le_right _ _)
  · exact (min_le_right _ _).trans (min_le_right _ _)

/-- The cells of a square. -/
def square (x y size : ℕ) : Set (ℕ × ℕ) := {c | (x ≤ c.1 ∧ c.1 < x + size) ∧ y ≤ c.2 ∧ c.2 < y + size}

/-- **The places of an aligned square are one run**, which starts at the least of the places of its four
corners. -/
lemma image_square (hk : k ≤ bits) :
    (fun c : ℕ × ℕ => cellHilbert c.1 c.2 bits) '' square (a * 2 ^ k) (b * 2 ^ k) (2 ^ k)
      = Set.Ico (leastCorner (a * 2 ^ k) (b * 2 ^ k) (2 ^ k) bits)
          (leastCorner (a * 2 ^ k) (b * 2 ^ k) (2 ^ k) bits + 4 ^ k) := by
  rw [leastCorner_square hk]
  ext n
  constructor
  · rintro ⟨c, ⟨hx, hy⟩, rfl⟩
    obtain ⟨e, he⟩ := Nat.exists_eq_add_of_le hx.1
    obtain ⟨f, hf⟩ := Nat.exists_eq_add_of_le hy.1
    have hp : Inside (2 ^ k) (e, f) := ⟨by dsimp only; omega, by dsimp only; omega⟩
    have hlt := cellHilbert_lt (turns (2 ^ k) (bits - k) a b (e, f)).1
      (turns (2 ^ k) (bits - k) a b (e, f)).2 k
    have hsquare := cellHilbert_square (a := a) (b := b) hk hp
    rw [← he, ← hf] at hsquare
    simp only [Set.mem_Ico]
    omega
  · rintro ⟨hlo, hhi⟩
    -- a place of the turned square, and the cell it is turned from
    obtain ⟨q, hq, hrest⟩ := cellHilbert_bijOn.surjOn
      (show n - 4 ^ k * cellHilbert a b (bits - k) ∈ (Finset.range (4 ^ k) : Set ℕ) by
        simp only [Finset.coe_range, Set.mem_Iio]; omega)
    rw [Finset.mem_coe, mem_grid] at hq
    obtain ⟨p, hp, hturns, -⟩ := exists_turns (j := bits - k) (a := a) (b := b) (w := 2 ^ k) hq
    refine ⟨(a * 2 ^ k + p.1, b * 2 ^ k + p.2), ⟨⟨?_, ?_⟩, ?_, ?_⟩, ?_⟩
    · exact Nat.le_add_right _ _
    · exact Nat.add_lt_add_left hp.1 _
    · exact Nat.le_add_right _ _
    · exact Nat.add_lt_add_left hp.2 _
    · dsimp only at hrest ⊢
      rw [cellHilbert_square hk hp, hturns, hrest]
      omega

/-- The run of a square of the grid ends within the places of the grid. -/
lemma leastCorner_add_le (hk : k ≤ bits) :
    leastCorner (a * 2 ^ k) (b * 2 ^ k) (2 ^ k) bits + 4 ^ k ≤ 4 ^ bits := by
  have hlt := cellHilbert_lt a b (bits - k)
  have hpow : 4 ^ bits = 4 ^ k * 4 ^ (bits - k) := by rw [← pow_add, Nat.add_sub_cancel' hk]
  rw [leastCorner_square hk, hpow, ← Nat.mul_succ]
  exact Nat.mul_le_mul_left _ hlt

end

end Engine.Spatial
