import Sekejap.BTree.Cuts
import Sekejap.Lib.Cutting

/-!
# What the planner of a redistribution finds

`neighbor_cell_cuts` (`core/kernel/src/btree.rs`) takes the longest fitting group from each cell on, counts
back how many pages the cells need, and places each cut near the mean of what is left, where enough pages
remain for the rest.  The sums of the sizes make the cells a line, and a group a piece of it.

* **`endsFrom_farthest`**, **`neededFrom_counts`** — the two tables are those of the greedy pieces.
* **`cutsFrom_cuts`** — the loop of the cuts does not stop early.
* **`neighborCellCuts_some`** — when there are cuts, and what they are.
-/

open Cutting

namespace BTree

/-- The cells in so many groups, in order, that fit in a page each. -/
def Groups (usable : ℕ) (sizes : List ℕ) (k : ℕ) : Prop :=
  ∃ groups : List (List ℕ), groups.flatten = sizes ∧ groups.length = k ∧ ∀ g ∈ groups, g ≠ [] ∧ g.sum ≤ usable

/-- The cells from `i` to `j` fit in a page. -/
def Fits (usable : ℕ) (sizes : List ℕ) (i j : ℕ) : Prop := ((sizes.take j).drop i).sum ≤ usable

/-! ## The sums -/

section sums

variable {sizes sums : List ℕ} {usable i j k : ℕ}

lemma sum_take_succ (h : i < sizes.length) : (sizes.take (i + 1)).sum = (sizes.take i).sum + sizes[i] := by
  rw [List.take_succ_eq_append_getElem h, List.sum_append, List.sum_singleton]

lemma sum_take_mono (h : i ≤ j) : (sizes.take i).sum ≤ (sizes.take j).sum :=
  (List.take_sublist_take_left h).sum_le_sum fun _ _ => Nat.zero_le _

lemma sum_between (h : i ≤ j) : ((sizes.take j).drop i).sum = (sizes.take j).sum - (sizes.take i).sum := by
  have := congrArg List.sum (List.take_append_drop i (sizes.take j))
  rw [List.sum_append, List.take_take, min_eq_left h] at this
  omega

lemma fits_iff (h : i ≤ j) :
    Fits usable sizes i j ↔ (sizes.take j).sum - (sizes.take i).sum ≤ usable := by
  rw [Fits, sum_between h]

lemma fits_hereditary : Hereditary (Fits usable sizes) := by
  intro i i' j' j h hi hj
  rcases le_total i' j' with hle | hle
  · rw [fits_iff (hi.trans (hle.trans hj))] at h
    rw [fits_iff hle]
    have := @sum_take_mono sizes i i' hi
    have := @sum_take_mono sizes j' j hj
    omega
  · rw [Fits, List.drop_eq_nil_of_le ((List.length_take_le _ _).trans hle)]
    exact Nat.zero_le _

/-- The sums are those of the prefixes, and none leaves 64 bits. -/
lemma prefixSums_eq {acc : ℕ} (hacc : acc < 2 ^ 64) :
    prefixSums acc sizes = some sums ↔ acc + sizes.sum < 2 ^ 64
      ∧ sums = (List.range (sizes.length + 1)).map fun k => acc + (sizes.take k).sum := by
  induction sizes generalizing acc sums with
  | nil =>
      rw [prefixSums]
      exact ⟨fun h => ⟨hacc, by simpa using (Option.some.inj h).symm⟩, fun h => by rw [h.2]; simp⟩
  | cons size sizes ih =>
      have htail : (List.range (sizes.length + 1 + 1)).map (fun k => acc + ((size :: sizes).take k).sum)
          = acc :: (List.range (sizes.length + 1)).map fun k => acc + size + (sizes.take k).sum := by
        rw [List.range_succ_eq_map, List.map_cons, List.map_map]
        simp [Function.comp_def, Nat.add_assoc]
      rw [prefixSums, checkedAdd, List.length_cons, htail, List.sum_cons, ← Nat.add_assoc]
      split_ifs with hnext
      · simp only [Option.bind_eq_bind, Option.bind_some, Option.bind_eq_some_iff, Option.pure_def,
          Option.some.injEq, ih hnext]
        constructor
        · rintro ⟨rest, ⟨hfit, rfl⟩, rfl⟩
          exact ⟨hfit, rfl⟩
        · rintro ⟨hfit, rfl⟩
          exact ⟨_, ⟨hfit, rfl⟩, rfl⟩
      · simp only [Option.bind_eq_bind, Option.bind_none, reduceCtorEq, false_iff, not_and]
        intro hfit
        omega

/-- What the table of sums holds. -/
def Sums (sizes sums : List ℕ) : Prop := ∀ k ≤ sizes.length, sums.getD k 0 = (sizes.take k).sum

lemma sums_of_prefixSums (h : prefixSums 0 sizes = some sums) : Sums sizes sums := by
  obtain ⟨-, rfl⟩ := (prefixSums_eq (by decide)).1 h
  intro k hk
  have hget := List.getElem?_range (Nat.lt_succ_of_le hk)
  rw [List.getD_eq_getElem?_getD, List.getElem?_map, hget, Option.map_some, Option.getD_some, Nat.zero_add]

end sums

/-! ## The tables -/

section tables

variable {sizes sums ends : List ℕ} {usable n : ℕ}

/-- The inner loop stops at the end of the line, or before a cell that does not fit. -/
lemma reach_spec (base left e : ℕ) :
    e ≤ reach sums usable base left e ∧ reach sums usable base left e ≤ e + left
      ∧ (e < reach sums usable base left e → sums.getD (reach sums usable base left e) 0 - base ≤ usable)
      ∧ (reach sums usable base left e < e + left →
          usable < sums.getD (reach sums usable base left e + 1) 0 - base) := by
  induction left generalizing e with
  | zero => simp [reach]
  | succ left ih =>
      rw [reach]
      split_ifs with h
      · obtain ⟨hle, hmost, hin, hout⟩ := ih (e + 1)
        refine ⟨by omega, by omega, fun _ => ?_, fun hlt => hout (by omega)⟩
        rcases hle.eq_or_lt with heq | hlt
        · rw [← heq]
          exact h
        · exact hin hlt
      · exact ⟨le_rfl, by omega, fun hlt => absurd hlt (lt_irrefl _), fun _ => by omega⟩

/-- The end of the longest group from a cell on. -/
structure Longest (usable : ℕ) (sizes : List ℕ) (i e : ℕ) : Prop where
  lt : i < e
  le : e ≤ sizes.length
  fits : Fits usable sizes i e
  stops : e < sizes.length → ¬ Fits usable sizes i (e + 1)

/-- The search for the end of a group may start where the last group ended. -/
lemma longest_reach (hsums : Sums sizes sums) (hsizes : ∀ v ∈ sizes, v ≤ usable) {i e : ℕ}
    (hi : i < sizes.length) (hie : i ≤ e) (he : e ≤ sizes.length) (hfits : Fits usable sizes i e) :
    Longest usable sizes i (reach sums usable (sums.getD i 0) (sizes.length - e) e) := by
  obtain ⟨hle, hmost, hin, hout⟩ :=
    @reach_spec sums usable (sums.getD i 0) (sizes.length - e) e
  generalize reach sums usable (sums.getD i 0) (sizes.length - e) e = r at *
  have hr : r ≤ sizes.length := by omega
  have hover : r < sizes.length → ¬ Fits usable sizes i (r + 1) := by
    intro hlt
    have := hout (by omega)
    rw [hsums (r + 1) hlt, hsums _ hi.le] at this
    rw [fits_iff (by omega)]
    omega
  have hinside : Fits usable sizes i r := by
    rcases hle.eq_or_lt with rfl | hlt
    · exact hfits
    · have := hin hlt
      rw [hsums _ hr, hsums _ hi.le] at this
      rwa [fits_iff (by omega)]
  refine ⟨?_, hr, hinside, hover⟩
  by_contra hnot
  obtain rfl : r = i := by omega
  refine hover hi ?_
  have := hsizes _ (List.getElem_mem hi)
  rw [fits_iff (by omega), sum_take_succ hi]
  omega

lemma endsFrom_longest (hsums : Sums sizes sums) (hsizes : ∀ v ∈ sizes, v ≤ usable) {left i e : ℕ}
    (hleft : i + left = sizes.length) (hie : i ≤ e) (he : e ≤ sizes.length)
    (hfits : Fits usable sizes i e) {k : ℕ} (hk : k < left) :
    Longest usable sizes (i + k) ((endsFrom sums usable sizes.length left i e).getD k 0) := by
  induction left generalizing i e k with
  | zero => omega
  | succ left ih =>
      have hlongest := longest_reach hsums hsizes (by omega) hie he hfits
      rw [endsFrom]
      generalize reach sums usable (sums.getD i 0) (sizes.length - e) e = r at hlongest ⊢
      cases k with
      | zero => simpa using hlongest
      | succ k =>
          have hrest : Fits usable sizes (i + 1) r :=
            fits_hereditary _ _ _ _ hlongest.fits (Nat.le_succ i) le_rfl
          have := ih (by omega) hlongest.lt hlongest.le hrest (Nat.lt_of_succ_lt_succ hk)
          rw [List.getD_cons_succ, Nat.add_comm k 1, ← Nat.add_assoc]
          exact this

/-- **The table of ends** has the longest group from each cell on. -/
lemma endsFrom_farthest (hsums : Sums sizes sums) (hsizes : ∀ v ∈ sizes, v ≤ usable) :
    Farthest (Fits usable sizes) sizes.length
      fun i => (endsFrom sums usable sizes.length sizes.length 0 0).getD i 0 := by
  have hnone : Fits usable sizes 0 0 := by simp [Fits]
  have hlongest : ∀ i < sizes.length, Longest usable sizes i
      ((endsFrom sums usable sizes.length sizes.length 0 0).getD i 0) := by
    intro i hi
    have := endsFrom_longest hsums hsizes (Nat.zero_add _) le_rfl (Nat.zero_le _) hnone hi
    rwa [Nat.zero_add] at this
  refine ⟨fun i hi => (hlongest i hi).lt, fun i hi => (hlongest i hi).le, fun i hi => (hlongest i hi).fits,
    fun i hi j hj hfits => ?_⟩
  by_contra hlt
  exact (hlongest i hi).stops (by omega) (fits_hereditary _ _ _ _ hfits le_rfl (by omega))

/-- The loop over the cells, the last first, keeps that the counts behind it are right. -/
lemma neededFrom_foldl (hends : ∀ i < n, i < ends.getD i 0 ∧ ends.getD i 0 ≤ n) {k : ℕ} (hk : k ≤ n)
    {needed : List ℕ} (hlength : needed.length = n + 1) (hlast : needed.getD n 0 = 0)
    (hstep : ∀ i < n, k ≤ i → needed.getD i 0 = 1 + needed.getD (ends.getD i 0) 0) :
    Counts (fun i => ends.getD i 0) n fun i =>
      ((List.range k).reverse.foldl (fun needed i => needed.set i (1 + needed.getD (ends.getD i 0) 0))
        needed).getD i 0 := by
  induction k generalizing needed with
  | zero => exact ⟨hlast, fun i hi => hstep i hi (Nat.zero_le i)⟩
  | succ k ih =>
      rw [List.range_succ, List.reverse_append, List.reverse_singleton, List.singleton_append, List.foldl_cons]
      have hset : ∀ i v, (needed.set k v).getD i 0 = if i = k then v else needed.getD i 0 := by
        intro i v
        rw [List.getD_eq_getElem?_getD, List.getD_eq_getElem?_getD, List.getElem?_set]
        split_ifs with hik hin hne
        · rfl
        · omega
        · omega
        · omega
        · omega
        · rfl
      refine ih (by omega) (by rw [List.length_set, hlength]) ?_ fun i hi hki => ?_
      · rw [hset, if_neg (by omega), hlast]
      · rcases hki.eq_or_lt with rfl | hlt
        · have := hends k hi
          rw [hset, if_pos rfl, hset, if_neg (by omega)]
        · have := hends i hi
          rw [hset, if_neg (by omega), hset, if_neg (by omega)]
          exact hstep i hi hlt

/-- **The table of needs** counts the longest groups. -/
lemma neededFrom_counts (hends : ∀ i < n, i < ends.getD i 0 ∧ ends.getD i 0 ≤ n) :
    Counts (fun i => ends.getD i 0) n fun i => (neededFrom ends n).getD i 0 :=
  neededFrom_foldl hends le_rfl List.length_replicate (by simp) fun i hi hn => by omega

end tables

/-! ## The cuts -/

section cuts

variable {sizes sums ends needed cuts : List ℕ} {usable existing n : ℕ}

/-- The search for a cut keeps the best so far, or takes one that leaves enough pages. -/
lemma bestEnd_some {begin left target : ℕ} {best : Option (ℕ × ℕ)} {es : List ℕ} {found : ℕ × ℕ}
    (h : bestEnd sums needed begin left target best es = some found) :
    best = some found ∨ found.1 ∈ es ∧ needed.getD found.1 0 ≤ left := by
  induction es generalizing best with
  | nil => exact Or.inl h
  | cons e es ih =>
      rw [bestEnd] at h
      dsimp only at h
      split_ifs at h with hneed hbetter
      · rcases ih h with hold | ⟨hmem, hle⟩
        · exact Or.inl hold
        · exact Or.inr ⟨List.mem_cons_of_mem _ hmem, hle⟩
      · rcases ih h with hold | ⟨hmem, hle⟩
        · rw [← Option.some.inj hold]
          exact Or.inr ⟨List.mem_cons_self, not_lt.1 hneed⟩
        · exact Or.inr ⟨List.mem_cons_of_mem _ hmem, hle⟩
      · rcases ih h with hold | ⟨hmem, hle⟩
        · exact Or.inl hold
        · exact Or.inr ⟨List.mem_cons_of_mem _ hmem, hle⟩

/-- It finds one where there is one. -/
lemma bestEnd_isSome {begin left target : ℕ} {best : Option (ℕ × ℕ)} {es : List ℕ}
    (h : best.isSome ∨ ∃ e ∈ es, needed.getD e 0 ≤ left) :
    (bestEnd sums needed begin left target best es).isSome := by
  induction es generalizing best with
  | nil =>
      rcases h with h | ⟨e, he, -⟩
      · exact h
      · cases he
  | cons e es ih =>
      rw [bestEnd]
      dsimp only
      split_ifs with hneed hbetter
      · refine ih (h.imp_right ?_)
        rintro ⟨x, hx, hle⟩
        rcases List.mem_cons.1 hx with rfl | hx
        · omega
        · exact ⟨x, hx, hle⟩
      · exact ih (Or.inl rfl)
      · refine ih (Or.inl ?_)
        cases best with
        | none => exact absurd rfl hbetter
        | some b => rfl

/-- **A cut is found**, that ends a group that fits and leaves enough pages for the rest. -/
lemma exists_nextCut {begin left : ℕ} (h : begin < min (ends.getD begin 0) (n - left)
      ∧ needed.getD (min (ends.getD begin 0) (n - left)) 0 ≤ left) :
    ∃ e, nextCut sums ends needed n left begin = some e ∧ begin < e ∧ e ≤ ends.getD begin 0
      ∧ e ≤ n - left ∧ needed.getD e 0 ≤ left := by
  rw [nextCut]
  obtain ⟨found, hfound⟩ := Option.isSome_iff_exists.1 (@bestEnd_isSome sums needed begin left
    ((sums.getD n 0 - sums.getD begin 0) / (left + 1)) none
    (List.range' (begin + 1) (min (ends.getD begin 0) (n - left) - begin))
    (Or.inr ⟨_, List.mem_range'_1.2 ⟨h.1, by omega⟩, h.2⟩))
  rcases bestEnd_some hfound with hold | ⟨hmem, hle⟩
  · cases hold
  · rw [List.mem_range'_1] at hmem
    exact ⟨found.1, by rw [hfound]; rfl, by omega, by omega, by omega, hle⟩

/-- **The loop of the cuts** comes to its end, with the groups that were asked for. -/
lemma cutsFrom_cuts {fits : ℕ → ℕ → Prop} (hfar : Farthest fits n fun i => ends.getD i 0)
    (hneeded : Counts (fun i => ends.getD i 0) n fun i => needed.getD i 0) (hpart : Hereditary fits)
    {left begin : ℕ} (hbegin : begin ≤ n) (hmost : needed.getD begin 0 ≤ left + 1)
    (hleast : left + 1 ≤ n - begin) :
    ∃ cuts, cutsFrom sums ends needed n left begin = some cuts ∧ Cutting.Cuts fits n begin cuts
      ∧ cuts.length = left + 1 := by
  induction left generalizing begin with
  | zero =>
      refine ⟨[n], rfl, Cuts.piece (by omega) ?_ Cuts.done, rfl⟩
      obtain ⟨hlt, hrest, hfits⟩ := exists_piece hfar hneeded hpart hbegin hmost hleast
      -- the rest takes no page, so the group goes to the end
      have hend : min (ends.getD begin 0) (n - 0) = n := by
        by_contra hne
        have := hneeded.pos (i := min (ends.getD begin 0) (n - 0)) (by omega)
        omega
      rwa [hend] at hfits
  | succ left ih =>
      obtain ⟨hlt, hrest, -⟩ := exists_piece hfar hneeded hpart hbegin hmost hleast
      obtain ⟨e, hnext, hbe, hfar', hroom, hneed⟩ := @exists_nextCut sums ends needed n _ _ ⟨hlt, hrest⟩
      obtain ⟨cuts, hcuts, hgroups, hlength⟩ := @ih e (by omega) hneed (by omega)
      have hfits : fits begin e := hpart _ _ _ _ (hfar.reach begin (by omega)) le_rfl hfar'
      refine ⟨e :: cuts, ?_, Cuts.piece hbe hfits hgroups, by rw [List.length_cons, hlength]⟩
      rw [cutsFrom, hnext]
      simp only [Option.bind_eq_bind, Option.bind_some, hcuts, Option.pure_def]

/-- Groups are pieces of the line. -/
lemma exists_groups_iff {i k : ℕ} (hi : i ≤ sizes.length) :
    Groups usable (sizes.drop i) k
      ↔ ∃ ends, Cutting.Cuts (Fits usable sizes) sizes.length i ends ∧ ends.length = k := by
  constructor
  · rintro ⟨groups, hflatten, rfl, hgroups⟩
    induction groups generalizing i with
    | nil =>
        have : i = sizes.length := by
          have := congrArg List.length hflatten
          rw [List.flatten_nil, List.length_nil, List.length_drop] at this
          omega
        subst this
        exact ⟨[], Cuts.done, rfl⟩
    | cons g groups ih =>
        rw [List.flatten_cons] at hflatten
        have hlength := congrArg List.length hflatten
        rw [List.length_append, List.length_drop] at hlength
        have hne := List.length_pos_iff.2 (hgroups g List.mem_cons_self).1
        have hdrop : groups.flatten = sizes.drop (i + g.length) := by
          rw [← List.drop_drop, ← hflatten, List.drop_left]
        obtain ⟨ends, hcuts, hends⟩ := ih (by omega) hdrop fun g' hg' => hgroups g' (List.mem_cons_of_mem _ hg')
        refine ⟨_ :: ends, Cuts.piece (by omega) ?_ hcuts, by rw [List.length_cons, hends, List.length_cons]⟩
        rw [Fits, ← List.take_drop, ← hflatten, List.take_left]
        exact (hgroups g List.mem_cons_self).2
  · rintro ⟨ends, hcuts, rfl⟩
    induction hcuts with
    | done => exact ⟨[], by simp, rfl, by simp⟩
    | @piece i j ends hlt hfits hrest ih =>
        obtain ⟨groups, hflatten, hlength, hgroups⟩ := ih hrest.le
        have hj := hrest.le
        have hlen : (sizes.take j).length = j := List.length_take_of_le hj
        refine ⟨(sizes.take j).drop i :: groups, ?_, by rw [List.length_cons, hlength, List.length_cons], ?_⟩
        · rw [List.flatten_cons, hflatten, ← List.drop_append_of_le_length (by omega), List.take_append_drop]
        · intro g hg
          rcases List.mem_cons.1 hg with rfl | hg
          · refine ⟨List.ne_nil_of_length_pos ?_, hfits⟩
            rw [List.length_drop, hlen]
            omega
          · exact hgroups g hg

/-- The cuts of a line, in order. -/
lemma Cuts.chain {fits : ℕ → ℕ → Prop} {i : ℕ} (h : Cutting.Cuts fits n i cuts) :
    List.IsChain (fun a b => a < b ∧ fits a b) (i :: cuts) ∧ (i :: cuts).getLast? = some n := by
  induction h with
  | done => exact ⟨List.isChain_singleton _, rfl⟩
  | piece hlt hfits hrest ih =>
      refine ⟨List.isChain_cons_cons.2 ⟨⟨hlt, hfits⟩, ih.1⟩, ?_⟩
      rw [List.getLast?_cons_cons]
      exact ih.2

lemma unfit_eq_false (hne : sizes ≠ []) :
    unfit sizes usable = false ↔ ∀ v ∈ sizes, 1 ≤ v ∧ v ≤ usable := by
  rw [unfit, Bool.or_eq_false_iff, List.any_eq_false]
  constructor
  · rintro ⟨-, h⟩ v hv
    have := h v hv
    rw [decide_eq_true_eq] at this
    omega
  · intro h
    refine ⟨List.isEmpty_eq_false_iff.2 hne, fun v hv => ?_⟩
    have := h v hv
    rw [decide_eq_true_eq]
    omega

/-- What the planner looks at, when no cell is empty or too large and the sums fit. -/
lemma neighborCellCuts_eq (hne : sizes ≠ []) (hsizes : ∀ v ∈ sizes, 1 ≤ v ∧ v ≤ usable)
    (hsum : sizes.sum < 2 ^ 64) : ∃ least, IsLeast {k | Groups usable sizes k} least
      ∧ if existing + 1 < max existing least ∨ sizes.length < max existing least then
          neighborCellCuts sizes usable existing = none
        else ∃ ends, neighborCellCuts sizes usable existing = some (0 :: ends)
          ∧ Cutting.Cuts (Fits usable sizes) sizes.length 0 ends ∧ ends.length = max existing least := by
  obtain ⟨sums, hprefix⟩ : ∃ sums, prefixSums 0 sizes = some sums :=
    ⟨_, (prefixSums_eq (by decide)).2 ⟨by rwa [Nat.zero_add], rfl⟩⟩
  have hfar := endsFrom_farthest (sums_of_prefixSums hprefix) fun v hv => (hsizes v hv).2
  have hneeded := neededFrom_counts fun i hi => ⟨hfar.lt i hi, hfar.le i hi⟩
  have hcuts := @cutsFrom_cuts sums _ _ _ _ hfar hneeded fits_hereditary
  have hleast : IsLeast {k | Groups usable sizes k}
      ((neededFrom (endsFrom sums usable sizes.length sizes.length 0 0) sizes.length).getD 0 0) := by
    have hiff : {k | Groups usable sizes k} = {k | ∃ ends, Cutting.Cuts (Fits usable sizes) sizes.length 0 ends
        ∧ ends.length = k} := Set.ext fun k => @exists_groups_iff sizes usable 0 k (Nat.zero_le _)
    rw [hiff]
    exact (isLeast_needed (i := 0) hfar hneeded fits_hereditary (Nat.zero_le _) :)
  refine ⟨_, hleast, ?_⟩
  have hpos := hneeded.pos (List.length_pos_iff.2 hne)
  have hunfit : ¬ unfit sizes usable = true := by
    rw [Bool.not_eq_true]
    exact (unfit_eq_false hne).2 hsizes
  rw [neighborCellCuts, if_neg hunfit]
  simp only [Option.bind_eq_bind, hprefix, Option.bind_some]
  split_ifs with hgroups
  · rfl
  · obtain ⟨ends, hends, hpieces, hlength⟩ := @hcuts
      (max existing ((neededFrom (endsFrom sums usable sizes.length sizes.length 0 0) sizes.length).getD 0 0) - 1)
      0 (Nat.zero_le _) (by omega) (by omega)
    exact ⟨ends, by rw [hends]; rfl, hpieces, by omega⟩

/-- Sums that leave 64 bits are refused. -/
lemma neighborCellCuts_overflow (h : 2 ^ 64 ≤ sizes.sum) : neighborCellCuts sizes usable existing = none := by
  rw [neighborCellCuts]
  split_ifs
  · rfl
  · have hnone : prefixSums 0 sizes = none := by
      cases hsums : prefixSums 0 sizes with
      | none => rfl
      | some sums =>
          have := ((prefixSums_eq (by decide)).1 hsums).1
          omega
    rw [hnone]
    rfl

/-- What is cut is not empty, its cells fit, and so do their sums. -/
lemma acceptable_of_some (h : neighborCellCuts sizes usable existing = some cuts) :
    sizes ≠ [] ∧ (∀ v ∈ sizes, 1 ≤ v ∧ v ≤ usable) ∧ sizes.sum < 2 ^ 64 := by
  have hne : sizes ≠ [] := by
    rintro rfl
    cases h
  refine ⟨hne, ?_, ?_⟩
  · rw [← unfit_eq_false hne]
    by_contra hunfit
    rw [neighborCellCuts, if_pos (by simpa using hunfit)] at h
    cases h
  · by_contra hover
    rw [neighborCellCuts_overflow (not_lt.1 hover)] at h
    cases h

end cuts

/-! ## The planner -/

/-- **The planner** finds cuts exactly when the cells fit in the pages there are, or one more, and none would
be empty; they make the fewest groups the pages allow.  The version that fills buffers finds the same. -/
theorem neighborCellCuts_some (sizes : List ℕ) (usable existing : ℕ) (hexisting : 1 ≤ existing) :
    ((∃ cuts, neighborCellCuts sizes usable existing = some cuts) ↔
      (∀ v ∈ sizes, 1 ≤ v ∧ v ≤ usable) ∧ sizes.sum < 2 ^ 64 ∧
        ∃ least, IsLeast {k | Groups usable sizes k} least ∧ max existing least ≤ existing + 1
          ∧ max existing least ≤ sizes.length)
    ∧ (∀ cuts, neighborCellCuts sizes usable existing = some cuts →
        ∀ least, IsLeast {k | Groups usable sizes k} least →
          cuts.length = max existing least + 1 ∧ cuts.head? = some 0 ∧ cuts.getLast? = some sizes.length
          ∧ cuts.Pairwise (· < ·)
          ∧ cuts.IsChain fun a b => ((sizes.take b).drop a).sum ≤ usable)
    ∧ ∀ buf, ∃ buf', neighborCellCutsInto sizes usable existing buf
        = ((neighborCellCuts sizes usable existing).isSome, buf')
        ∧ ∀ cuts, neighborCellCuts sizes usable existing = some cuts → buf'.cuts = cuts := by
  refine ⟨⟨?_, ?_⟩, ?_, ?_⟩
  · rintro ⟨cuts, hcuts⟩
    obtain ⟨hne, hsizes, hsum⟩ := acceptable_of_some hcuts
    obtain ⟨least, hleast, hcase⟩ := @neighborCellCuts_eq sizes usable existing hne hsizes hsum
    split_ifs at hcase with hgroups
    · rw [hcase] at hcuts
      cases hcuts
    · exact ⟨hsizes, hsum, least, hleast, by omega, by omega⟩
  · rintro ⟨hsizes, hsum, least, hleast, hpages, hcells⟩
    have hne : sizes ≠ [] := by
      rintro rfl
      rw [List.length_nil] at hcells
      omega
    obtain ⟨least', hleast', hcase⟩ := @neighborCellCuts_eq sizes usable existing hne hsizes hsum
    obtain rfl := hleast.unique hleast'
    rw [if_neg (by omega)] at hcase
    obtain ⟨ends, hends, -⟩ := hcase
    exact ⟨_, hends⟩
  · intro cuts hcuts least hleast
    obtain ⟨hne, hsizes, hsum⟩ := acceptable_of_some hcuts
    obtain ⟨least', hleast', hcase⟩ := @neighborCellCuts_eq sizes usable existing hne hsizes hsum
    obtain rfl := hleast.unique hleast'
    split_ifs at hcase with hgroups
    · rw [hcase] at hcuts
      cases hcuts
    · obtain ⟨ends, hends, hpieces, hlength⟩ := hcase
      obtain rfl : 0 :: ends = cuts := Option.some.inj (hends.symm.trans hcuts)
      obtain ⟨hchain, hlast⟩ := Cuts.chain hpieces
      refine ⟨by rw [List.length_cons, hlength], rfl, hlast, ?_, hchain.imp fun a b h => h.2⟩
      exact List.isChain_iff_pairwise.1 (hchain.imp fun a b h => h.1)
  · intro buf
    have h := neighborCellCutsInto_eq sizes usable existing buf
    cases hcuts : neighborCellCuts sizes usable existing with
    | none =>
        rw [hcuts] at h
        obtain ⟨buf', hbuf⟩ := h
        exact ⟨buf', hbuf, fun cuts h => by cases h⟩
    | some cuts =>
        rw [hcuts] at h
        obtain ⟨buf', hbuf, hsame⟩ := h
        exact ⟨buf', hbuf, fun cuts' h => hsame.trans (Option.some.inj h)⟩

theorem neighborCellCuts_three : 1 ≤ 1 ∧ ∃ cuts, neighborCellCuts [3, 3, 5] 7 1 = some cuts
    ∧ cuts.getLast? = some 3 := by
  obtain ⟨hiff, hshape, -⟩ := neighborCellCuts_some [3, 3, 5] 7 1 (by decide)
  have hcuts : neighborCellCuts [3, 3, 5] 7 1 = some [0, 2, 3] := by decide +kernel
  obtain ⟨-, -, least, hleast, -⟩ := hiff.1 ⟨_, hcuts⟩
  exact ⟨le_rfl, _, hcuts, (hshape _ hcuts least hleast).2.2.1⟩

/-- Two cells whose sizes add up to more than a `usize` holds are refused, though they fit on two pages. -/
theorem neighborCellCuts_refuses : neighborCellCuts [2 ^ 63, 2 ^ 63] (2 ^ 63) 1 = none
    ∧ (∀ v ∈ [2 ^ 63, 2 ^ 63], 1 ≤ v ∧ v ≤ 2 ^ 63)
    ∧ IsLeast {k | Groups (2 ^ 63) [2 ^ 63, 2 ^ 63] k} 2 ∧ max 1 2 ≤ 1 + 1
    ∧ max 1 2 ≤ ([2 ^ 63, 2 ^ 63] : List ℕ).length := by
  refine ⟨by decide +kernel, by simp, ⟨⟨[[2 ^ 63], [2 ^ 63]], by simp⟩, ?_⟩, by decide, by decide⟩
  rintro k ⟨groups, hflatten, rfl, hgroups⟩
  rcases groups with _ | ⟨g, _ | ⟨g', groups⟩⟩
  · cases hflatten
  · have hsum := (hgroups g List.mem_cons_self).2
    rw [List.flatten_singleton] at hflatten
    rw [hflatten] at hsum
    simp at hsum
  · simp

end BTree
