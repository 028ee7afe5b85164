import Mathlib.Data.List.Sort
import Mathlib.Tactic.Common

/-!
# The least of a list

A heap that lets its greatest go when it grows past a bound holds the least of what it was given, however
these came (`foldl_keepLeast`).  A heap is the list of what it holds, in order.
-/

namespace LeastKept

variable {α : Type*} [LinearOrder α] {n : ℕ} {l xs ys : List α} {x : α}

/-- A push, and a pop of the greatest where there are more than `n`. -/
def keepLeast (n : ℕ) (heap : List α) (x : α) : List α :=
  let heap := heap.orderedInsert (· ≤ ·) x
  if n < heap.length then heap.dropLast else heap

lemma keepLeast_eq (h : l.length ≤ n) : keepLeast n l x = (l.orderedInsert (· ≤ ·) x).take n := by
  have hlength := List.orderedInsert_length (· ≤ ·) l x
  rw [keepLeast]
  split_ifs with hlong
  · rw [List.dropLast_eq_take]
    congr 1
    omega
  · rw [List.take_of_length_le (not_lt.1 hlong)]

/-- What is past the bound is past it after a push too. -/
lemma take_orderedInsert_take (n : ℕ) (l : List α) (x : α) :
    ((l.take n).orderedInsert (· ≤ ·) x).take n = (l.orderedInsert (· ≤ ·) x).take n := by
  induction l generalizing n with
  | nil => rw [List.take_nil]
  | cons y l ih =>
      cases n with
      | zero => rfl
      | succ n =>
          have hcons : (y :: l.take n).take n = (y :: l).take n := by
            rw [← List.take_succ_cons, List.take_take, min_eq_left (Nat.le_succ n)]
          rw [List.take_succ_cons, List.orderedInsert_cons, List.orderedInsert_cons]
          split_ifs
          · rw [List.take_succ_cons, List.take_succ_cons, hcons]
          · rw [List.take_succ_cons, List.take_succ_cons, ih]

lemma foldl_keepLeast_take (xs l : List α) (n : ℕ) :
    xs.foldl (keepLeast n) (l.take n) = (xs.foldl (fun l x => l.orderedInsert (· ≤ ·) x) l).take n := by
  induction xs generalizing l with
  | nil => rfl
  | cons x xs ih =>
      rw [List.foldl_cons, List.foldl_cons, keepLeast_eq (List.length_take_le n l), take_orderedInsert_take, ih]

/-- **The heap holds the least of what it was given.** -/
theorem foldl_keepLeast (xs : List α) (n : ℕ) :
    xs.foldl (keepLeast n) [] = (xs.insertionSort (· ≤ ·)).take n := by
  have hnil : ([] : List α) = ([] : List α).take n := List.take_nil.symm
  have hsort : xs.foldl (fun l x => l.orderedInsert (· ≤ ·) x) [] = xs.reverse.insertionSort (· ≤ ·) := by
    rw [List.insertionSort, List.foldr_reverse]
  have hperm : (xs.reverse.insertionSort (· ≤ ·)).Perm (xs.insertionSort (· ≤ ·)) :=
    ((List.perm_insertionSort _ _).trans (List.reverse_perm xs)).trans (List.perm_insertionSort _ _).symm
  calc xs.foldl (keepLeast n) []
      = xs.foldl (keepLeast n) (([] : List α).take n) := by rw [← hnil]
    _ = (xs.foldl (fun l x => l.orderedInsert (· ≤ ·) x) []).take n := foldl_keepLeast_take xs [] n
    _ = (xs.reverse.insertionSort (· ≤ ·)).take n := by rw [hsort]
    _ = (xs.insertionSort (· ≤ ·)).take n := by
        rw [hperm.eq_of_pairwise' (List.pairwise_insertionSort _ _) (List.pairwise_insertionSort _ _)]

end LeastKept
