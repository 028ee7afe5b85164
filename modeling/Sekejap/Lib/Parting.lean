import Mathlib.Data.List.Basic
import Mathlib.Tactic.Common

/-!
# Parting a list

A predicate that what is before keeps holds of a first part of a list, and taking while it holds is
filtering (`takeWhile_eq_filter`).  Two predicates part what either of them keeps: in order where what the
one keeps is before what the other does (`filter_append_filter`), and else as a multiset
(`filter_append_perm_filter`).
-/

namespace Parting

variable {α : Type} {p q : α → Bool} {l : List α}

/-- A predicate that what is before keeps holds of a prefix. -/
lemma takeWhile_eq_filter (h : l.Pairwise fun x y => p y = true → p x = true) :
    l.takeWhile p = l.filter p := by
  induction l with
  | nil => rfl
  | cons x l ih =>
      obtain ⟨hx, hl⟩ := List.pairwise_cons.1 h
      by_cases hpx : p x = true
      · rw [List.takeWhile_cons_of_pos hpx, List.filter_cons_of_pos hpx, ih hl]
      · have hnone : l.filter p = [] := by
          rw [List.filter_eq_nil_iff]
          exact fun y hy hpy => hpx (hx y hy hpy)
        rw [List.takeWhile_cons_of_neg hpx, List.filter_cons_of_neg hpx, hnone]

/-- What is past that prefix. -/
lemma drop_takeWhile_eq_filter (h : l.Pairwise fun x y => p y = true → p x = true) :
    l.drop (l.takeWhile p).length = l.filter fun x => !p x := by
  induction l with
  | nil => rfl
  | cons x l ih =>
      obtain ⟨hx, hl⟩ := List.pairwise_cons.1 h
      by_cases hpx : p x = true
      · rw [List.takeWhile_cons_of_pos hpx, List.filter_cons_of_neg (by simp [hpx]), ← ih hl,
          List.length_cons, List.drop_succ_cons]
      · have hall : l.filter (fun x => !p x) = l := by
          rw [List.filter_eq_self]
          intro y hy
          simpa using fun hpy => hpx (hx y hy hpy)
        rw [List.takeWhile_cons_of_neg hpx, List.filter_cons_of_pos (by simpa using hpx), hall,
          List.length_nil, List.drop_zero]

/-- Two predicates, what the first holds of before what the second holds of. -/
lemma filter_append_filter (h : l.Pairwise fun x y => ¬(q x = true ∧ p y = true))
    (hdisjoint : ∀ x ∈ l, ¬(p x = true ∧ q x = true)) :
    l.filter p ++ l.filter q = l.filter fun x => p x || q x := by
  induction l with
  | nil => rfl
  | cons x l ih =>
      obtain ⟨hx, hl⟩ := List.pairwise_cons.1 h
      have hrest := ih hl fun y hy => hdisjoint y (List.mem_cons_of_mem x hy)
      have hboth := hdisjoint x List.mem_cons_self
      by_cases hqx : q x = true
      · have hpx : ¬p x = true := fun hpx => hboth ⟨hpx, hqx⟩
        have hnone : l.filter p = [] := by
          rw [List.filter_eq_nil_iff]
          exact fun y hy hpy => hx y hy ⟨hqx, hpy⟩
        rw [hnone, List.nil_append] at hrest
        rw [List.filter_cons_of_neg hpx, List.filter_cons_of_pos hqx,
          List.filter_cons_of_pos (by simp [hqx]), hnone, List.nil_append, hrest]
      · by_cases hpx : p x = true
        · rw [List.filter_cons_of_pos hpx, List.filter_cons_of_neg hqx,
            List.filter_cons_of_pos (by simp [hpx]), List.cons_append, hrest]
        · rw [List.filter_cons_of_neg hpx, List.filter_cons_of_neg hqx,
            List.filter_cons_of_neg (by simp [hpx, hqx]), hrest]

/-- Two predicates that nothing has both of. -/
lemma filter_append_perm_filter (hdisjoint : ∀ x ∈ l, ¬(p x = true ∧ q x = true)) :
    (l.filter p ++ l.filter q).Perm (l.filter fun x => p x || q x) := by
  induction l with
  | nil => rfl
  | cons x l ih =>
      have hrest := ih fun y hy => hdisjoint y (List.mem_cons_of_mem x hy)
      have hboth := hdisjoint x List.mem_cons_self
      by_cases hpx : p x = true
      · have hqx : ¬q x = true := fun hqx => hboth ⟨hpx, hqx⟩
        rw [List.filter_cons_of_pos hpx, List.filter_cons_of_neg hqx,
          List.filter_cons_of_pos (by simp [hpx])]
        exact hrest.cons x
      · by_cases hqx : q x = true
        · rw [List.filter_cons_of_neg hpx, List.filter_cons_of_pos hqx,
            List.filter_cons_of_pos (by simp [hqx])]
          exact List.perm_middle.trans (hrest.cons x)
        · rw [List.filter_cons_of_neg hpx, List.filter_cons_of_neg hqx,
            List.filter_cons_of_neg (by simp [hpx, hqx])]
          exact hrest

end Parting
