import Mathlib.Order.Bounds.Basic
import Mathlib.Tactic.Common

/-!
# Cutting a line into pieces

A line of `n` places is cut into pieces that fit, where what is left of a piece that fits fits too.  Taking
each piece as long as it can be uses the fewest.

* **`isLeast_needed`** — the number of greedy pieces is the least.
* **`exists_piece`** — a line that may be cut into `k + 1` pieces has a first piece that leaves `k`.
-/

namespace Cutting

/-- A part of a piece that fits fits. -/
def Hereditary (fits : ℕ → ℕ → Prop) : Prop :=
  ∀ i i' j' j, fits i j → i ≤ i' → j' ≤ j → fits i' j'

/-- The ends of pieces that fit, from a place on to the end of the line. -/
inductive Cuts (fits : ℕ → ℕ → Prop) (n : ℕ) : ℕ → List ℕ → Prop
  | done : Cuts fits n n []
  | piece {i j : ℕ} {ends : List ℕ} (hlt : i < j) (hfits : fits i j) (hrest : Cuts fits n j ends) :
      Cuts fits n i (j :: ends)

/-- The longest piece from each place on, where it ends. -/
structure Farthest (fits : ℕ → ℕ → Prop) (n : ℕ) (far : ℕ → ℕ) : Prop where
  lt : ∀ i < n, i < far i
  le : ∀ i < n, far i ≤ n
  reach : ∀ i < n, fits i (far i)
  most : ∀ i < n, ∀ j ≤ n, fits i j → j ≤ far i

/-- How many of the longest pieces the line takes from each place on. -/
structure Counts (far : ℕ → ℕ) (n : ℕ) (needed : ℕ → ℕ) : Prop where
  last : needed n = 0
  step : ∀ i < n, needed i = 1 + needed (far i)

variable {fits : ℕ → ℕ → Prop} {n i j k : ℕ} {far needed : ℕ → ℕ} {ends : List ℕ}

lemma Cuts.le (h : Cuts fits n i ends) : i ≤ n := by
  induction h with
  | done => exact le_rfl
  | piece hlt hfits hrest ih => exact hlt.le.trans ih

lemma Counts.pos (h : Counts far n needed) (hi : i < n) : 0 < needed i := by
  rw [h.step i hi]
  omega

section greedy

variable (hfar : Farthest fits n far) (hneeded : Counts far n needed)
include hfar hneeded

/-- Each place is a piece by itself at worst. -/
lemma needed_le_sub (hi : i ≤ n) : needed i ≤ n - i := by
  induction hleft : n - i using Nat.strong_induction_on generalizing i with
  | _ left ih =>
      rcases hi.eq_or_lt with rfl | hlt
      · rw [hneeded.last]
        exact Nat.zero_le _
      · have hafter := hfar.lt i hlt
        have := ih (n - far i) (by omega) (hfar.le i hlt) rfl
        have := hfar.le i hlt
        rw [hneeded.step i hlt]
        omega

variable (hpart : Hereditary fits)
include hpart

/-- A later start takes no more pieces. -/
lemma needed_antitone (hij : i ≤ j) (hj : j ≤ n) : needed j ≤ needed i := by
  induction hleft : n - i using Nat.strong_induction_on generalizing i j with
  | _ left ih =>
      rcases hj.eq_or_lt with rfl | hlt
      · rw [hneeded.last]
        exact Nat.zero_le _
      · have hi : i < n := hij.trans_lt hlt
        have hafter := hfar.lt i hi
        have hend := hfar.le i hi
        -- the longest piece from the earlier place ends no later, or its rest would fit
        have hends : far i ≤ far j := hfar.most j hlt _ hend (hpart _ _ _ _ (hfar.reach i hi) hij le_rfl)
        have := ih (n - far i) (by omega) hends (hfar.le j hlt) rfl
        rw [hneeded.step i hi, hneeded.step j hlt]
        omega

/-- The first piece may be any that fits, at the cost of one. -/
lemma needed_le_succ (hij : i < j) (hj : j ≤ n) (hfits : fits i j) : needed i ≤ needed j + 1 := by
  have hi : i < n := hij.trans_le hj
  have := needed_antitone hfar hneeded hpart (hfar.most i hi j hj hfits) (hfar.le i hi)
  rw [hneeded.step i hi]
  omega

/-- No cut has fewer pieces. -/
lemma needed_le (h : Cuts fits n i ends) : needed i ≤ ends.length := by
  induction h with
  | done =>
      rw [hneeded.last]
      exact Nat.zero_le _
  | piece hlt hfits hrest ih =>
      have := needed_le_succ hfar hneeded hpart hlt hrest.le hfits
      rw [List.length_cons]
      omega

/-- **There is a first piece that leaves as many pieces as are to come**, neither too few nor too many. -/
lemma exists_piece (hi : i ≤ n) (hmost : needed i ≤ k + 1) (hleast : k + 1 ≤ n - i) :
    i < min (far i) (n - k) ∧ needed (min (far i) (n - k)) ≤ k ∧ fits i (min (far i) (n - k)) := by
  have hlt : i < n := by omega
  have hafter := hfar.lt i hlt
  refine ⟨by omega, ?_, hpart _ _ _ _ (hfar.reach i hlt) le_rfl (min_le_left _ _)⟩
  rcases le_total (far i) (n - k) with h | h
  · rw [min_eq_left h]
    rw [hneeded.step i hlt] at hmost
    omega
  · rw [min_eq_right h]
    have := needed_le_sub hfar hneeded (Nat.sub_le n k)
    omega

/-- So many pieces there are, from the fewest up to one for each place. -/
lemma exists_cuts (hi : i ≤ n) (hmost : needed i ≤ k) (hleast : k ≤ n - i) :
    ∃ ends, Cuts fits n i ends ∧ ends.length = k := by
  induction k generalizing i with
  | zero =>
      rcases hi.eq_or_lt with rfl | hlt
      · exact ⟨[], Cuts.done, rfl⟩
      · have := hneeded.pos hlt
        omega
  | succ k ih =>
      obtain ⟨hlt, hrest, hfits⟩ := exists_piece hfar hneeded hpart hi hmost hleast
      obtain ⟨ends, hcuts, hlength⟩ := ih (i := min (far i) (n - k)) (by omega) hrest (by omega)
      exact ⟨_ :: ends, Cuts.piece hlt hfits hcuts, by rw [List.length_cons, hlength]⟩

/-- **The greedy pieces are the fewest.** -/
theorem isLeast_needed (hi : i ≤ n) :
    IsLeast {k | ∃ ends, Cuts fits n i ends ∧ ends.length = k} (needed i) := by
  refine ⟨exists_cuts hfar hneeded hpart hi le_rfl (needed_le_sub hfar hneeded hi), ?_⟩
  rintro k ⟨ends, hcuts, rfl⟩
  exact needed_le hfar hneeded hpart hcuts

end greedy

end Cutting
