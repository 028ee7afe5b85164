import Mathlib.Order.Bounds.Basic
import Mathlib.Order.GaloisConnection.Defs
import Mathlib.Algebra.Order.Ring.Int
import Mathlib.Data.Int.ConditionallyCompleteOrder
import Mathlib.Data.Int.SuccPred

/-!
# Comparisons through a map, as ranges

A map that only rises is compared with a value by comparing what is mapped: from some place on the map is at least the
value, and from another on it is above it.

* **`Cut.of_gc`** — the map of a Galois connection out of the integers.
* **`Cut.of_boundaries`** — the map that takes each place to the last boundary up to it.
-/

namespace Preimages

variable {τ α : Type*} [LinearOrder τ] [LinearOrder α]

/-- For each value, the place from which on the map is at least it, and the one from which on the map is above it. -/
structure Cut (f : τ → α) (start stop : α → τ) : Prop where
  start_le_iff : ∀ v t, start v ≤ t ↔ v ≤ f t
  stop_le_iff : ∀ v t, stop v ≤ t ↔ v < f t

namespace Cut

variable {f : τ → α} {start stop : α → τ} {v w : α} {t : τ}

lemma lt_start_iff (h : Cut f start stop) : t < start v ↔ f t < v := by
  rw [← not_le, h.start_le_iff, not_le]

lemma lt_stop_iff (h : Cut f start stop) : t < stop v ↔ f t ≤ v := by
  rw [← not_le, h.stop_le_iff, not_lt]

/-- The places of a value are a window. -/
lemma window_iff (h : Cut f start stop) : start v ≤ t ∧ t < stop v ↔ f t = v := by
  rw [h.start_le_iff, h.lt_stop_iff, and_comm, ← le_antisymm_iff]

lemma between_iff (h : Cut f start stop) : start v ≤ t ∧ t < stop w ↔ v ≤ f t ∧ f t ≤ w := by
  rw [h.start_le_iff, h.lt_stop_iff]

/-- **A Galois connection out of the integers**: above a value is at least the next one. -/
lemma of_gc {f : τ → ℤ} {start : ℤ → τ} (h : GaloisConnection start f) : Cut f start fun v => start (v + 1) where
  start_le_iff := h
  stop_le_iff v t := (h (v + 1) t).trans Int.add_one_le_iff

/-- **The last boundary up to a place.**  A value between two boundaries is cut at the next one. -/
lemma of_boundaries {B : Set τ} {floor ceil : τ → τ} (hfloor : ∀ t, IsGreatest {b | b ∈ B ∧ b ≤ t} (floor t))
    (hceil : ∀ t, IsLeast {b | b ∈ B ∧ t < b} (ceil t)) :
    Cut floor (fun v => if floor v = v then v else ceil v) ceil where
  start_le_iff v t := by
    by_cases hv : floor v = v
    · rw [if_pos hv]
      have hB : v ∈ B := hv ▸ (hfloor v).1.1
      constructor
      · intro hle
        exact (hfloor t).2 ⟨hB, hle⟩
      · intro hle
        exact hle.trans (hfloor t).1.2
    · rw [if_neg hv]
      constructor
      · intro hle
        exact (hceil v).1.2.le.trans ((hfloor t).2 ⟨(hceil v).1.1, hle⟩)
      · intro hle
        refine ((hceil v).2 ⟨(hfloor t).1.1, lt_of_le_of_ne hle ?_⟩).trans (hfloor t).1.2
        -- the value would be a boundary
        rintro rfl
        exact hv (le_antisymm (hfloor (floor t)).1.2 ((hfloor (floor t)).2 ⟨(hfloor t).1.1, le_rfl⟩))
  stop_le_iff v t := by
    constructor
    · intro hle
      exact (hceil v).1.2.trans_le ((hfloor t).2 ⟨(hceil v).1.1, hle⟩)
    · intro hlt
      exact ((hceil v).2 ⟨(hfloor t).1.1, hlt⟩).trans (hfloor t).1.2

end Cut

end Preimages
