import Mathlib.Data.List.Sort
import Mathlib.Tactic

/-!
# Inclusive ranges of numbers

A list of ranges `(lo, hi)`, both ends included, stands for the numbers in any of them.  `merge` sorts the
ranges and joins those that overlap or touch; `difference` takes the numbers of one list out of another.

* **`covers_merge`** — merging changes no number.
* **`separated_merge`** — merged ranges are in order with a gap between any two.
* **`covers_difference`** — a difference has the numbers of the one list that are not in the other.
-/

namespace Ranges

/-- A number is in one of the ranges. -/
def Covers (rs : List (ℕ × ℕ)) (n : ℕ) : Prop := ∃ r ∈ rs, r.1 ≤ n ∧ n ≤ r.2

/-- Ranges in order, with a gap between any two. -/
def Separated (rs : List (ℕ × ℕ)) : Prop := rs.Pairwise fun a b => a.2 + 1 < b.1

/-- Ranges in order, no number in two of them. -/
def Apart (rs : List (ℕ × ℕ)) : Prop := rs.Pairwise fun a b => a.2 < b.1

/-- Every range has a number. -/
def Inhabited (rs : List (ℕ × ℕ)) : Prop := ∀ r ∈ rs, r.1 ≤ r.2

/-- The order of pairs. -/
def before (a b : ℕ × ℕ) : Bool := decide (a.1 < b.1 ∨ a.1 = b.1 ∧ a.2 ≤ b.2)

/-- A range joins the merged ones, the last of which is first here. -/
def join (merged : List (ℕ × ℕ)) (r : ℕ × ℕ) : List (ℕ × ℕ) :=
  match merged with
  | last :: rest => if r.1 ≤ last.2 + 1 then (last.1, max last.2 r.2) :: rest else r :: last :: rest
  | [] => [r]

/-- The ranges in order, those that overlap or touch joined. -/
def merge (rs : List (ℕ × ℕ)) : List (ℕ × ℕ) := ((rs.mergeSort before).foldl join []).reverse

/-- The numbers from `a` up to `b`, without `b`. -/
def gap (a b : ℕ) : List (ℕ × ℕ) := if a < b then [(a, b - 1)] else []

/-- What the inner ranges leave of `lo` to `hi`, and the inner ranges that are not wholly passed. -/
def cut (hi : ℕ) : ℕ → List (ℕ × ℕ) → List (ℕ × ℕ) × List (ℕ × ℕ)
  | lo, [] => (if lo ≤ hi then [(lo, hi)] else [], [])
  | lo, r :: inner =>
      if hi < lo then ([], r :: inner)
      else if r.2 < lo then cut hi lo inner
      else if hi < r.1 then ([(lo, hi)], r :: inner)
      else
        if hi ≤ r.2 then (gap lo r.1, r :: inner)
        else
          let rest := cut hi (r.2 + 1) inner
          (gap lo r.1 ++ rest.1, rest.2)

/-- The numbers of the outer ranges that are in no inner range. -/
def difference : List (ℕ × ℕ) → List (ℕ × ℕ) → List (ℕ × ℕ)
  | [], _ => []
  | r :: outer, inner =>
      let found := cut r.2 r.1 inner
      found.1 ++ difference outer found.2

variable {rs ss : List (ℕ × ℕ)} {r : ℕ × ℕ} {n : ℕ}

/-! ## What is covered -/

@[simp] lemma not_covers_nil : ¬ Covers [] n := by simp [Covers]

@[simp] lemma covers_cons : Covers (r :: rs) n ↔ (r.1 ≤ n ∧ n ≤ r.2) ∨ Covers rs n := by
  simp [Covers]

@[simp] lemma covers_append : Covers (rs ++ ss) n ↔ Covers rs n ∨ Covers ss n := by
  simp [Covers, or_and_right, exists_or]

lemma covers_congr (h : ∀ r, r ∈ rs ↔ r ∈ ss) : Covers rs n ↔ Covers ss n := by
  simp [Covers, h]

lemma Separated.tail (h : Separated (r :: rs)) : Separated rs := List.Pairwise.of_cons h

lemma Inhabited.tail (h : Inhabited (r :: rs)) : Inhabited rs :=
  fun s hs => h s (List.mem_cons_of_mem r hs)

/-- A range further on starts after the end of the first. -/
lemma Separated.head_lt (h : Separated (r :: rs)) (hcover : Covers rs n) : r.2 + 1 < n := by
  obtain ⟨s, hs, hlo, -⟩ := hcover
  exact (List.rel_of_pairwise_cons h hs).trans_le hlo

/-! ## Joining -/

/-- What one turn of the loop keeps: the merged ranges, last first, are apart from one another, and none
starts after `lo`. -/
structure Joined (merged : List (ℕ × ℕ)) (lo : ℕ) : Prop where
  apart : merged.Pairwise fun b a => a.2 + 1 < b.1
  inhabited : Inhabited merged
  le : ∀ r ∈ merged, r.1 ≤ lo

lemma covers_join {merged : List (ℕ × ℕ)} (hle : ∀ s ∈ merged, s.1 ≤ r.1) :
    Covers (join merged r) n ↔ Covers merged n ∨ (r.1 ≤ n ∧ n ≤ r.2) := by
  cases merged with
  | nil => simp [join]
  | cons last rest =>
      have hlast := hle last List.mem_cons_self
      simp only [join]
      split_ifs with htouch
      · have hunion : last.1 ≤ n ∧ n ≤ max last.2 r.2 ↔
            (last.1 ≤ n ∧ n ≤ last.2) ∨ (r.1 ≤ n ∧ n ≤ r.2) := by
          omega
        rw [covers_cons, covers_cons, hunion]
        tauto
      · simp only [covers_cons]
        tauto

lemma joined_join {merged : List (ℕ × ℕ)} {lo : ℕ} (h : Joined merged lo) (hlo : lo ≤ r.1)
    (hr : r.1 ≤ r.2) : Joined (join merged r) r.1 := by
  cases merged with
  | nil => exact ⟨by simp [join], by simpa [join, Inhabited] using hr, by simp [join]⟩
  | cons last rest =>
      have hlast := (h.le last List.mem_cons_self).trans hlo
      have hrest : ∀ s ∈ rest, s.1 ≤ r.1 := fun s hs =>
        (h.le s (List.mem_cons_of_mem _ hs)).trans hlo
      have hinh := h.inhabited last List.mem_cons_self
      simp only [join]
      split_ifs with htouch
      · refine ⟨?_, ?_, ?_⟩
        · exact List.pairwise_cons.2 ⟨fun s hs => List.rel_of_pairwise_cons h.apart hs,
            h.apart.of_cons⟩
        · rintro s (_ | ⟨_, hs⟩)
          · exact hinh.trans (le_max_left _ _)
          · exact h.inhabited s (List.mem_cons_of_mem _ hs)
        · rintro s (_ | ⟨_, hs⟩)
          · exact hlast
          · exact hrest s hs
      · refine ⟨List.pairwise_cons.2 ⟨?_, h.apart⟩, ?_, ?_⟩
        · rintro s (_ | ⟨_, hs⟩)
          · omega
          · have hgap := List.rel_of_pairwise_cons h.apart hs
            omega
        · rintro s (_ | ⟨_, hs⟩)
          · exact hr
          · exact h.inhabited s hs
        · rintro s (_ | ⟨_, hs⟩)
          · exact le_rfl
          · rcases hs with _ | ⟨_, hs⟩
            · exact hlast
            · exact hrest s hs

/-- One turn adds at most one range. -/
lemma length_join (merged : List (ℕ × ℕ)) : (join merged r).length ≤ merged.length + 1 := by
  cases merged with
  | nil => simp [join]
  | cons last rest =>
      simp only [join]
      split_ifs <;> simp

lemma join_bound {merged : List (ℕ × ℕ)} (h : ∀ s ∈ merged, s.2 ≤ n) (hr : r.2 ≤ n) :
    ∀ s ∈ join merged r, s.2 ≤ n := by
  cases merged with
  | nil => simpa [join] using hr
  | cons last rest =>
      have hlast := h last List.mem_cons_self
      simp only [join]
      split_ifs
      · rintro s (_ | ⟨_, hs⟩)
        · exact max_le hlast hr
        · exact h s (List.mem_cons_of_mem _ hs)
      · rintro s (_ | ⟨_, hs⟩)
        · exact hr
        · exact h s hs

/-! ## Merging -/

lemma before_trans (a b c : ℕ × ℕ) (hab : before a b = true) (hbc : before b c = true) :
    before a c = true := by
  simp only [before, decide_eq_true_eq] at *
  omega

lemma before_total (a b : ℕ × ℕ) : (before a b || before b a) = true := by
  simp only [before, Bool.or_eq_true, decide_eq_true_eq]
  omega

lemma sorted_mergeSort (rs : List (ℕ × ℕ)) :
    (rs.mergeSort before).Pairwise fun a b => a.1 ≤ b.1 := by
  have h : (rs.mergeSort before).Pairwise (before · ·) :=
    List.pairwise_mergeSort before_trans before_total rs
  refine h.imp ?_
  intro a b hab
  simp only [before, decide_eq_true_eq] at hab
  omega

lemma covers_foldl {merged : List (ℕ × ℕ)} (hsorted : rs.Pairwise fun a b => a.1 ≤ b.1)
    (hle : ∀ s ∈ merged, ∀ r ∈ rs, s.1 ≤ r.1) :
    Covers (rs.foldl join merged) n ↔ Covers merged n ∨ Covers rs n := by
  induction rs generalizing merged with
  | nil => simp
  | cons r rs ih =>
      have hhead : ∀ s ∈ merged, s.1 ≤ r.1 := fun s hs => hle s hs r List.mem_cons_self
      -- a joined range starts where one of the merged does, or at `r`
      have hnext : ∀ s ∈ join merged r, ∀ t ∈ rs, s.1 ≤ t.1 := by
        intro s hs t ht
        have hrt : r.1 ≤ t.1 := List.rel_of_pairwise_cons hsorted ht
        cases merged with
        | nil =>
            obtain rfl : s = r := by simpa [join] using hs
            exact hrt
        | cons last rest =>
            have hold : ∀ u ∈ last :: rest, u.1 ≤ t.1 := fun u hu =>
              hle u hu t (List.mem_cons_of_mem _ ht)
            simp only [join] at hs
            split_ifs at hs
            · rcases hs with _ | ⟨_, hs⟩
              · exact hold last List.mem_cons_self
              · exact hold s (List.mem_cons_of_mem _ hs)
            · rcases hs with _ | ⟨_, hs⟩
              · exact hrt
              · exact hold s hs
      rw [List.foldl_cons, ih hsorted.of_cons hnext, covers_join hhead, covers_cons, or_assoc]

lemma joined_foldl {merged : List (ℕ × ℕ)} {lo : ℕ} (h : Joined merged lo)
    (hsorted : rs.Pairwise fun a b => a.1 ≤ b.1) (hlo : ∀ r ∈ rs, lo ≤ r.1) (hrs : Inhabited rs) :
    ∃ hi, Joined (rs.foldl join merged) hi := by
  induction rs generalizing merged lo with
  | nil => exact ⟨lo, h⟩
  | cons r rs ih =>
      have hjoin := joined_join h (hlo r List.mem_cons_self) (hrs r List.mem_cons_self)
      exact ih hjoin hsorted.of_cons (fun s hs => List.rel_of_pairwise_cons hsorted hs) hrs.tail

lemma length_foldl (merged : List (ℕ × ℕ)) :
    (rs.foldl join merged).length ≤ merged.length + rs.length := by
  induction rs generalizing merged with
  | nil => simp
  | cons r rs ih =>
      have hjoin := length_join (r := r) merged
      have hrest := ih (join merged r)
      rw [List.foldl_cons, List.length_cons]
      omega

lemma foldl_bound {merged : List (ℕ × ℕ)} (h : ∀ s ∈ merged, s.2 ≤ n) (hrs : ∀ r ∈ rs, r.2 ≤ n) :
    ∀ s ∈ rs.foldl join merged, s.2 ≤ n := by
  induction rs generalizing merged with
  | nil => exact h
  | cons r rs ih =>
      exact ih (join_bound h (hrs r List.mem_cons_self))
        fun s hs => hrs s (List.mem_cons_of_mem _ hs)

/-- **Merging changes no number.** -/
theorem covers_merge : Covers (merge rs) n ↔ Covers rs n := by
  rw [merge, covers_congr (fun _ => List.mem_reverse), covers_foldl (sorted_mergeSort rs) (by simp),
    covers_congr (fun _ => List.mem_mergeSort)]
  simp

private lemma joined_merge (hrs : Inhabited rs) :
    ∃ hi, Joined ((rs.mergeSort before).foldl join []) hi := by
  have hnil : Joined [] 0 := ⟨List.Pairwise.nil, by simp [Inhabited], by simp⟩
  exact joined_foldl hnil (sorted_mergeSort rs) (fun _ _ => Nat.zero_le _)
    fun r hr => hrs r (List.mem_mergeSort.1 hr)

/-- **Merged ranges are in order with a gap between any two.** -/
theorem separated_merge (hrs : Inhabited rs) : Separated (merge rs) := by
  obtain ⟨hi, h⟩ := joined_merge hrs
  exact List.pairwise_reverse.2 h.apart

lemma inhabited_merge (hrs : Inhabited rs) : Inhabited (merge rs) := by
  obtain ⟨hi, h⟩ := joined_merge hrs
  exact fun r hr => h.inhabited r (List.mem_reverse.1 hr)

lemma length_merge : (merge rs).length ≤ rs.length := by
  have h : ((rs.mergeSort before).foldl join []).length ≤ _ := length_foldl []
  rw [merge, List.length_reverse]
  simpa using h

lemma merge_bound (hrs : ∀ r ∈ rs, r.2 ≤ n) : ∀ r ∈ merge rs, r.2 ≤ n := by
  intro r hr
  exact foldl_bound (by simp) (fun s hs => hrs s (List.mem_mergeSort.1 hs)) r (List.mem_reverse.1 hr)

/-! ## The difference -/

section difference

variable {outer inner : List (ℕ × ℕ)} {lo hi : ℕ}

lemma covers_gap (a b n : ℕ) : Covers (gap a b) n ↔ a ≤ n ∧ n < b := by
  rw [gap]
  split_ifs with h
  · simp only [covers_cons, not_covers_nil, or_false]
    omega
  · simp only [not_covers_nil, false_iff]
    omega

/-- The pieces have exactly the numbers that no inner range has. -/
lemma covers_cut (hsep : Separated inner) (hin : Inhabited inner) :
    Covers (cut hi lo inner).1 n ↔ (lo ≤ n ∧ n ≤ hi) ∧ ¬ Covers inner n := by
  induction inner generalizing lo with
  | nil =>
      rw [cut]
      split_ifs with h
      · simp
      · simp only [not_covers_nil, not_false_eq_true, and_true, false_iff]
        omega
  | cons r inner ih =>
      have hr := hin r List.mem_cons_self
      have hbeyond : Covers inner n → r.2 + 1 < n := fun h => hsep.head_lt h
      have hrest := fun lo => @ih lo hsep.tail hin.tail
      rw [covers_cons]
      unfold cut
      by_cases hcover : Covers inner n
      · have := hbeyond hcover
        split_ifs with hlo hpast hahead hend
        all_goals
          simp only [hrest, covers_append, covers_gap, covers_cons, not_covers_nil, or_false, hcover, or_true,
            not_true_eq_false, and_false, iff_false]
        all_goals omega
      · split_ifs with hlo hpast hahead hend
        all_goals
          simp only [hrest, covers_append, covers_gap, covers_cons, not_covers_nil, or_false, hcover,
            not_false_eq_true, and_true, false_iff]
          omega

/-- What is left of the inner ranges is what is past the range cut. -/
lemma covers_left (hsep : Separated inner) (hn : hi < n) :
    Covers (cut hi lo inner).2 n ↔ Covers inner n := by
  induction inner generalizing lo with
  | nil => rw [cut]
  | cons r inner ih =>
      have hrest := fun lo => @ih lo hsep.tail
      unfold cut
      split_ifs with hlo hpast hahead hend
      · rfl
      · rw [hrest, covers_cons]
        exact ⟨Or.inr, fun h => h.resolve_left (by omega)⟩
      · rfl
      · rfl
      · rw [hrest, covers_cons]
        exact ⟨Or.inr, fun h => h.resolve_left (by omega)⟩

lemma cut_suffix (hi lo : ℕ) (inner : List (ℕ × ℕ)) : (cut hi lo inner).2 <:+ inner := by
  induction inner generalizing lo with
  | nil => rw [cut]
  | cons r inner ih =>
      unfold cut
      split_ifs with hlo hpast hahead hend
      · exact List.suffix_rfl
      · exact (ih lo).trans (List.suffix_cons r inner)
      · exact List.suffix_rfl
      · exact List.suffix_rfl
      · exact (ih _).trans (List.suffix_cons r inner)

lemma gap_pieces (a b : ℕ) : Apart (gap a b) ∧ ∀ p ∈ gap a b, a ≤ p.1 ∧ p.1 ≤ p.2 ∧ p.2 < b := by
  rw [gap]
  split_ifs with h
  · refine ⟨List.pairwise_singleton _ _, fun p hp => ?_⟩
    rw [List.mem_singleton.1 hp]
    exact ⟨le_rfl, Nat.le_sub_one_of_lt h, Nat.sub_one_lt_of_lt h⟩
  · exact ⟨List.Pairwise.nil, by simp⟩

/-- The pieces of a range are in it, in order, and each has a number. -/
lemma cut_pieces (hin : Inhabited inner) :
    Apart (cut hi lo inner).1 ∧ ∀ p ∈ (cut hi lo inner).1, lo ≤ p.1 ∧ p.1 ≤ p.2 ∧ p.2 ≤ hi := by
  induction inner generalizing lo with
  | nil =>
      rw [cut]
      split_ifs with h
      · exact ⟨List.pairwise_singleton _ _, by simpa using h⟩
      · exact ⟨List.Pairwise.nil, by simp⟩
  | cons r inner ih =>
      have hr := hin r List.mem_cons_self
      obtain ⟨hdisjoint, hpieces⟩ := @ih (r.2 + 1) hin.tail
      obtain ⟨hgaps, hgap⟩ := gap_pieces lo r.1
      unfold cut
      split_ifs with hlo hpast hahead hend
      · exact ⟨List.Pairwise.nil, by simp⟩
      · exact ih hin.tail
      · exact ⟨List.pairwise_singleton _ _, by simpa using hlo⟩
      · exact ⟨hgaps, fun p hp => ⟨(hgap p hp).1, (hgap p hp).2.1, by have := (hgap p hp).2.2; omega⟩⟩
      · refine ⟨List.pairwise_append.2 ⟨hgaps, hdisjoint, fun a ha b hb => ?_⟩, fun p hp => ?_⟩
        · have := (hgap a ha).2.2
          have := (hpieces b hb).1
          omega
        · rcases List.mem_append.1 hp with hp | hp
          · have := hgap p hp
            omega
          · have := hpieces p hp
            omega

lemma Separated.suffix (h : Separated rs) (hsuffix : ss <:+ rs) : Separated ss :=
  List.Pairwise.sublist hsuffix.sublist h

lemma Inhabited.suffix (h : Inhabited rs) (hsuffix : ss <:+ rs) : Inhabited ss :=
  fun r hr => h r (hsuffix.subset hr)

/-- **The difference has the numbers of the one that are not in the other.** -/
theorem covers_difference (houter : Separated outer) (hsep : Separated inner) (hin : Inhabited inner) :
    Covers (difference outer inner) n ↔ Covers outer n ∧ ¬ Covers inner n := by
  induction outer generalizing inner with
  | nil => simp [difference]
  | cons r outer ih =>
      have hsuffix := cut_suffix r.2 r.1 inner
      have hbeyond : Covers outer n → r.2 + 1 < n := fun h => houter.head_lt h
      rw [difference, covers_append, covers_cut hsep hin,
        ih houter.tail (hsep.suffix hsuffix) (hin.suffix hsuffix), covers_cons]
      by_cases hcover : Covers outer n
      · have hn := hbeyond hcover
        rw [covers_left hsep (by omega)]
        simp only [hcover, true_and, or_true]
        constructor
        · rintro (⟨-, h⟩ | h)
          exacts [h, h]
        · exact Or.inr
      · simp only [hcover, false_and, or_false]

/-- The pieces of a difference are in order, and each has a number of an outer range. -/
theorem difference_pieces (houter : Separated outer) (hin : Inhabited inner) :
    Apart (difference outer inner)
      ∧ ∀ p ∈ difference outer inner, p.1 ≤ p.2 ∧ ∃ r ∈ outer, r.1 ≤ p.1 ∧ p.2 ≤ r.2 := by
  induction outer generalizing inner with
  | nil => exact ⟨List.Pairwise.nil, by simp [difference]⟩
  | cons r outer ih =>
      obtain ⟨hfirst, hpieces⟩ := @cut_pieces inner r.1 r.2 hin
      obtain ⟨hrest, hothers⟩ := ih houter.tail (hin.suffix (cut_suffix r.2 r.1 inner))
      refine ⟨List.pairwise_append.2 ⟨hfirst, hrest, fun a ha b hb => ?_⟩, fun p hp => ?_⟩
      · obtain ⟨-, s, hs, hlo, -⟩ := hothers b hb
        have := (hpieces a ha).2.2
        have := List.rel_of_pairwise_cons houter hs
        omega
      · rcases List.mem_append.1 hp with hp | hp
        · obtain ⟨hlo, hle, hhi⟩ := hpieces p hp
          exact ⟨hle, r, List.mem_cons_self, hlo, hhi⟩
        · obtain ⟨hle, s, hs, h⟩ := hothers p hp
          exact ⟨hle, s, List.mem_cons_of_mem r hs, h⟩

end difference

end Ranges
