import Mathlib.Data.List.Perm.Lattice
import Mathlib.Data.List.Sort
import Mathlib.Order.Compare

/-!
# Stable sorting and merging

A list is the stable sort of another when it is ordered by key and, key by key, holds the same elements in
the same order.  These two facts determine it, and they are kept by the ways a sort is put together:

* **`stable_mergeSort`** — sorting;
* **`StableSort.flatten`** — sorting piece by piece and then the concatenation;
* **`StableSort.pop`** — taking the least first element of several sorted lists, the earliest list at a
  tie, from a heap of them.
-/

namespace Sorting

variable {α κ : Type*} [LinearOrder κ] {key : α → κ} {x : α} {a b out xs ys zs : List α}

/-- The elements in key order, those of one key as `xs` has them. -/
structure StableSort (key : α → κ) (out xs : List α) : Prop where
  sorted : out.Pairwise fun x y => key x ≤ key y
  same : ∀ k, out.filter (fun x => key x = k) = xs.filter fun x => key x = k

lemma StableSort.mem_iff (h : StableSort key out xs) : x ∈ out ↔ x ∈ xs := by
  have hk := congrArg (x ∈ ·) (h.same (key x))
  simpa using hk

lemma StableSort.nil : StableSort key ([] : List α) [] := ⟨List.Pairwise.nil, fun _ => rfl⟩

lemma StableSort.refl (h : xs.Pairwise fun x y => key x ≤ key y) : StableSort key xs xs :=
  ⟨h, fun _ => rfl⟩

/-- Nothing is lost or repeated. -/
lemma StableSort.perm [DecidableEq α] (h : StableSort key out xs) : out.Perm xs := by
  rw [List.perm_iff_count]
  intro x
  have hk := congrArg (List.count x) (h.same (key x))
  rwa [List.count_filter (by simp), List.count_filter (by simp)] at hk

section ByKey

/-- The comparison a sort by key uses. -/
def keyLe (key : α → κ) (x y : α) : Bool := decide (key x ≤ key y)

lemma keyLe_trans (x y z : α) (h : keyLe key x y = true) (h' : keyLe key y z = true) :
    keyLe key x z = true := by
  simp only [keyLe, decide_eq_true_eq] at *
  exact h.trans h'

lemma keyLe_total (x y : α) : (keyLe key x y || keyLe key y x) = true := by
  simpa [keyLe] using le_total (key x) (key y)

/-- **Sorting by key is stable.** -/
lemma stable_mergeSort (xs : List α) : StableSort key (xs.mergeSort (keyLe key)) xs := by
  refine ⟨?_, fun k => ?_⟩
  · have h : (xs.mergeSort (keyLe key)).Pairwise fun x y => keyLe key x y = true :=
      List.pairwise_mergeSort keyLe_trans keyLe_total xs
    simpa [keyLe] using h
  · have hone : (xs.filter fun x => key x = k).Pairwise fun x y => keyLe key x y = true := by
      refine List.pairwise_of_forall_mem_list ?_
      intro x hx y hy
      simp only [List.mem_filter, decide_eq_true_eq] at hx hy
      simp [keyLe, hx.2, hy.2]
    have hsub := List.sublist_mergeSort keyLe_trans keyLe_total hone List.filter_sublist
    have hfilter : (xs.filter fun x => key x = k).Sublist
        ((xs.mergeSort (keyLe key)).filter fun x => key x = k) := by
      have := hsub.filter fun x => decide (key x = k)
      simpa only [List.filter_filter, Bool.and_self] using this
    have hlen := ((List.mergeSort_perm xs (keyLe key)).filter fun x => decide (key x = k)).length_eq
    exact (hfilter.eq_of_length hlen.symm).symm

end ByKey

/-- **Piece by piece.** -/
lemma StableSort.flatten {outs pieces : List (List α)} (hp : List.Forall₂ (StableSort key) outs pieces)
    (h : StableSort key out outs.flatten) : StableSort key out pieces.flatten := by
  refine ⟨h.sorted, fun k => (h.same k).trans ?_⟩
  clear h
  induction hp with
  | nil => rfl
  | cons h1 _ ih => simp only [List.flatten_cons, List.filter_append, h1.same k, ih]

/-- **The least element comes first**, when those before it in the list are greater. -/
lemma StableSort.cons (ha : ∀ y ∈ a, key x < key y) (hb : ∀ y ∈ b, key x ≤ key y)
    (h : StableSort key out (a ++ b)) : StableSort key (x :: out) (a ++ x :: b) := by
  refine ⟨List.pairwise_cons.2 ⟨?_, h.sorted⟩, fun k => ?_⟩
  · intro y hy
    rcases List.mem_append.1 (h.mem_iff.1 hy) with hy | hy
    · exact (ha y hy).le
    · exact hb y hy
  · have hk := h.same k
    rw [List.filter_append] at hk ⊢
    by_cases hx : key x = k
    · have hnone : (a.filter fun x => key x = k) = [] := by
        rw [List.filter_eq_nil_iff]
        intro y hy
        have := ha y hy
        simp only [decide_eq_true_eq]
        intro hyk
        rw [hx, hyk] at this
        exact lt_irrefl _ this
      rw [hnone, List.nil_append] at hk ⊢
      rw [List.filter_cons_of_pos (by simpa using hx), List.filter_cons_of_pos (by simpa using hx), hk]
    · rw [List.filter_cons_of_neg (by simpa using hx), List.filter_cons_of_neg (by simpa using hx), hk]

/-! ## Merging through a heap -/

/-- The first element of one of several lists, by its place among them. -/
structure Head (α : Type*) where
  item : α
  source : ℕ
  deriving DecidableEq, Repr

/-- The order of a heap whose greatest element is that of the least key, the earliest list at a tie. -/
def Head.order (key : α → κ) (self o : Head α) : Ordering :=
  (cmp (key o.item) (key self.item)).then (cmp o.source self.source)

/-- A heap returns a greatest element, and keeps the others. -/
def pop (key : α → κ) : List (Head α) → Option (Head α × List (Head α))
  | [] => none
  | h :: heap =>
      match pop key heap with
      | none => some (h, [])
      | some (g, rest) => if h.order key g = .gt then some (h, g :: rest) else some (g, h :: rest)

/-- The first elements of the lists, the first list being the `n`-th. -/
def heads (n : ℕ) : List (List α) → List (Head α)
  | [] => []
  | l :: lists => (l.head?.map (Head.mk · n)).toList ++ heads (n + 1) lists

section Heap

variable {g h : Head α} {heap rest : List (Head α)} {n : ℕ} {lists front back : List (List α)} {l : List α}

lemma order_ne_gt : h.order key g ≠ .gt ↔
    key g.item < key h.item ∨ key g.item = key h.item ∧ g.source ≤ h.source := by
  have hkey := cmp_compares (key g.item) (key h.item)
  have hsource := cmp_compares g.source h.source
  rw [Head.order]
  revert hkey hsource
  cases cmp (key g.item) (key h.item) with
  | lt =>
      intro (hkey : key g.item < key h.item) _
      simp [hkey, Ordering.then]
  | gt =>
      intro (hkey : key h.item < key g.item) _
      simp [Ordering.then, hkey.not_gt, hkey.ne']
  | eq =>
      intro (hkey : key g.item = key h.item)
      cases cmp g.source h.source with
      | lt =>
          intro (hsource : g.source < h.source)
          simp [hkey, Ordering.then, hsource.le]
      | eq =>
          intro (hsource : g.source = h.source)
          simp [hkey, Ordering.then, hsource]
      | gt =>
          intro (hsource : h.source < g.source)
          simpa [hkey, Ordering.then] using hsource

lemma order_total (hgt : h.order key g = .gt) : g.order key h ≠ .gt := by
  have hnot := mt order_ne_gt.2 (not_not.2 hgt)
  rw [order_ne_gt]
  rcases lt_trichotomy (key g.item) (key h.item) with hlt | heq | hlt
  · exact absurd (Or.inl hlt) hnot
  · exact Or.inr ⟨heq.symm, le_of_lt (not_le.1 fun hle => hnot (Or.inr ⟨heq, hle⟩))⟩
  · exact Or.inl hlt

lemma order_trans {f : Head α} (h1 : g.order key h ≠ .gt) (h2 : f.order key g ≠ .gt) :
    f.order key h ≠ .gt := by
  rw [order_ne_gt] at *
  rcases h1 with hlt | ⟨heq, hle⟩
  · exact Or.inl (hlt.trans_le (h2.elim le_of_lt fun h => h.1.le))
  · rw [heq]
    exact h2.imp id fun h => ⟨h.1, hle.trans h.2⟩

lemma pop_eq_none : pop key heap = none ↔ heap = [] := by
  cases heap with
  | nil => simp [pop]
  | cons h heap =>
      rw [pop]
      cases pop key heap with
      | none => simp
      | some p =>
          simp only [reduceCtorEq, iff_false]
          split_ifs <;> simp

/-- What a heap returns. -/
lemma pop_eq_some (hp : pop key heap = some (g, rest)) :
    heap.Perm (g :: rest) ∧ ∀ h ∈ rest, h.order key g ≠ .gt := by
  induction heap generalizing g rest with
  | nil => cases hp
  | cons h heap ih =>
      rw [pop] at hp
      cases hpop : pop key heap with
      | none =>
          rw [hpop] at hp
          cases hp
          rw [pop_eq_none.1 hpop]
          exact ⟨List.Perm.refl _, by simp⟩
      | some p =>
          obtain ⟨hperm, hmax⟩ := ih hpop
          rw [hpop] at hp
          simp only at hp
          split_ifs at hp with hgt
          · cases hp
            refine ⟨hperm.cons _, ?_⟩
            intro f hf
            rcases List.mem_cons.1 hf with rfl | hf
            · exact order_total hgt
            · exact order_trans (order_total hgt) (hmax f hf)
          · cases hp
            refine ⟨(hperm.cons h).trans (List.Perm.swap _ _ _), ?_⟩
            intro f hf
            rcases List.mem_cons.1 hf with rfl | hf
            · exact hgt
            · exact hmax f hf

lemma heads_append : heads n (front ++ back) = heads n front ++ heads (n + front.length) back := by
  induction front generalizing n with
  | nil => rfl
  | cons l front ih =>
      rw [List.cons_append, heads, heads, ih, List.append_assoc, List.length_cons, Nat.add_right_comm,
        Nat.add_assoc]

lemma heads_split (hg : g ∈ heads n lists) : ∃ front l back, lists = front ++ (g.item :: l) :: back ∧
    g.source = n + front.length := by
  induction lists generalizing n with
  | nil => simp [heads] at hg
  | cons l lists ih =>
      rw [heads, List.mem_append] at hg
      rcases hg with hg | hg
      · cases l with
        | nil => simp at hg
        | cons x l =>
            simp only [List.head?_cons, Option.map_some, Option.toList_some, List.mem_singleton] at hg
            subst hg
            exact ⟨[], l, lists, rfl, rfl⟩
      · obtain ⟨front, l', back, rfl, hs⟩ := ih hg
        exact ⟨l :: front, l', back, rfl, by rw [hs, List.length_cons]; omega⟩

lemma heads_eq_nil (h : heads n lists = []) : lists.flatten = [] := by
  induction lists generalizing n with
  | nil => rfl
  | cons l lists ih =>
      rw [heads, List.append_eq_nil_iff] at h
      cases l with
      | nil => exact ih h.2
      | cons x l => simp at h

/-- An element of one of the lists is not before the head of that list. -/
lemma exists_head (hs : ∀ l ∈ lists, l.Pairwise fun x y => key x ≤ key y) (hx : x ∈ lists.flatten) :
    ∃ h ∈ heads n lists, key h.item ≤ key x ∧ n ≤ h.source ∧ h.source < n + lists.length := by
  induction lists generalizing n with
  | nil => simp at hx
  | cons l lists ih =>
      rw [List.flatten_cons, List.mem_append] at hx
      rcases hx with hx | hx
      · cases l with
        | nil => simp at hx
        | cons y l =>
            refine ⟨⟨y, n⟩, by simp [heads], ?_, le_rfl, by simp⟩
            rcases List.mem_cons.1 hx with rfl | hx
            · exact le_rfl
            · exact (List.pairwise_cons.1 (hs _ (by simp))).1 x hx
      · obtain ⟨h, hh, hle, h1, h2⟩ := ih (fun l hl => hs l (by simp [hl])) hx (n := n + 1)
        exact ⟨h, by simp [heads, hh], hle, by omega, by rw [List.length_cons]; omega⟩

/-- **What a heap of the heads returns is the next element**: after it follows the stable sort of what is
left of the lists. -/
lemma StableSort.pop (hs : ∀ l ∈ lists, l.Pairwise fun x y => key x ≤ key y)
    (hheap : heap.Perm (heads 0 lists)) (hp : Sorting.pop key heap = some (g, rest)) :
    ∃ front l back, lists = front ++ (g.item :: l) :: back ∧ g.source = front.length ∧
      rest.Perm (heads 0 front ++ heads (front.length + 1) back) ∧
      ∀ out, StableSort key out (front ++ l :: back).flatten →
        StableSort key (g.item :: out) lists.flatten := by
  obtain ⟨hperm, hmax⟩ := pop_eq_some hp
  have hall := hperm.symm.trans hheap
  obtain ⟨front, l, back, rfl, hsource⟩ := heads_split (hall.mem_iff.1 (List.mem_cons_self (a := g)))
  rw [Nat.zero_add] at hsource
  have hrest : rest.Perm (heads 0 front ++ heads (front.length + 1) back) := by
    rw [heads_append, heads, Nat.zero_add] at hall
    have hmk : (Head.mk g.item front.length) = g := by rw [← hsource]
    simp only [List.head?_cons, Option.map_some, Option.toList_some, hmk] at hall
    exact (hall.trans List.perm_middle).cons_inv
  refine ⟨front, l, back, rfl, hsource, hrest, ?_⟩
  intro out hout
  have hfirst : ∀ h ∈ heads 0 front ++ heads (front.length + 1) back,
      key g.item < key h.item ∨ key g.item = key h.item ∧ g.source ≤ h.source := by
    intro h hh
    exact order_ne_gt.1 (hmax h (hrest.mem_iff.2 hh))
  rw [List.flatten_append, List.flatten_cons, List.cons_append] at *
  refine StableSort.cons ?_ ?_ hout
  · intro y hy
    obtain ⟨h, hh, hle, -, hlt⟩ := exists_head (n := 0) (fun l hl => hs l (by simp [hl])) hy
    rcases hfirst h (by simp [hh]) with hk | ⟨-, hk⟩
    · exact hk.trans_le hle
    · omega
  · intro y hy
    rcases List.mem_append.1 hy with hy | hy
    · exact (List.pairwise_cons.1 (hs _ (by simp))).1 y hy
    · obtain ⟨h, hh, hle, -, -⟩ := exists_head (n := front.length + 1) (fun l hl => hs l (by simp [hl])) hy
      exact ((hfirst h (by simp [hh])).elim le_of_lt fun h => h.1.le).trans hle

end Heap

end Sorting
