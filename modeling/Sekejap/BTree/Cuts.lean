import Sekejap.Kernel.Page

/-!
# Where pages are cut

`split_point` cuts the records of a page in two, `neighbor_cell_cuts` those of a window of siblings into as
many pages as there are, or one more (`core/kernel/src/btree.rs`).  Each has a twin that reads the
lengths off slots, or fills buffers that are reused: **`splitPointRef_eq`**, **`neighborCellCutsInto_eq`**.
-/

open Bytes Page

namespace BTree

/-- A record left where it is: which page image, and the slot directory's own numbers. -/
structure SlotRef where
  pageIdx : ℕ
  off : ℕ
  len : ℕ
  deriving DecidableEq, Repr

/-- `rec_of` -/
def recOf (frames : List Bytes) (s : SlotRef) : Bytes := (frames.getD s.pageIdx []).slice s.off s.len

/-- `usize::checked_add` -/
def checkedAdd (a b : ℕ) : Option ℕ := if a + b < 2 ^ 64 then some (a + b) else none

/-- `usize::abs_diff` -/
def absDiff (a b : ℕ) : ℕ := (a - b) + (b - a)

/-! ## Two pages -/

/-- The loop of `split_point`: the cuts that are left to try, the bytes before them and the best so far. -/
def splitLoop (total usable : ℕ) : List ℕ → ℕ → ℕ → Option (ℕ × ℕ) → Option (ℕ × ℕ)
  | [], _, _, best => best
  | size :: sizes, j, acc, best =>
      let left := acc + size
      let right := total - left
      let imbalance := absDiff left right
      if left ≤ usable ∧ right ≤ usable ∧ best.all (fun b => decide (imbalance < b.1)) then
        splitLoop total usable sizes (j + 1) left (some (imbalance, j + 1))
      else splitLoop total usable sizes (j + 1) left best

/-- `split_point`: among the cuts where both sides fit, the most balanced. -/
def splitPoint (recs : List Bytes) (usable : ℕ) : Option ℕ :=
  let sizes := recs.map fun r => r.length + 4
  (splitLoop sizes.sum usable (sizes.take (recs.length - 1)) 0 0 none).map Prod.snd

/-- `split_point_ref` -/
def splitPointRef (slots : List SlotRef) (usable : ℕ) : Option ℕ :=
  let total := (slots.map fun s => s.len + 4).sum
  (splitLoop total usable ((slots.take (slots.length - 1)).map fun s => s.len + 4) 0 0 none).map Prod.snd

/-- **The lengths of the slots decide.** -/
lemma splitPointRef_eq {slots : List SlotRef} {recs : List Bytes} (usable : ℕ)
    (h : slots.map SlotRef.len = recs.map List.length) :
    splitPointRef slots usable = splitPoint recs usable := by
  have hsizes : (slots.map fun s => s.len + 4) = recs.map fun r => r.length + 4 := by
    have := congrArg (List.map (· + 4)) h
    simpa [List.map_map, Function.comp_def] using this
  have hlen : slots.length = recs.length := by
    have := congrArg List.length h
    simpa using this
  rw [splitPointRef, splitPoint, List.map_take, hsizes, hlen]

/-! ## A window of siblings -/

/-- The sums of the prefixes of the sizes, from what comes before. -/
def prefixSums : ℕ → List ℕ → Option (List ℕ)
  | acc, [] => some [acc]
  | acc, size :: sizes => do
      let next ← checkedAdd acc size
      let sums ← prefixSums next sizes
      return acc :: sums

/-- `while end < n && prefix[end + 1] - prefix[i] <= usable { end += 1 }`, with `left` cells after `end`. -/
def reach (sums : List ℕ) (usable base : ℕ) : ℕ → ℕ → ℕ
  | 0, e => e
  | left + 1, e =>
      if sums.getD (e + 1) 0 - base ≤ usable then reach sums usable base left (e + 1) else e

/-- The longest prefix of the cells from each on that fits in a page, where it ends. -/
def endsFrom (sums : List ℕ) (usable n : ℕ) : ℕ → ℕ → ℕ → List ℕ
  | 0, _, _ => []
  | left + 1, i, e =>
      let e := reach sums usable (sums.getD i 0) (n - e) e
      e :: endsFrom sums usable n left (i + 1) e

/-- How many pages the cells from each on need, the last first. -/
def neededFrom (ends : List ℕ) (n : ℕ) : List ℕ :=
  (List.range n).reverse.foldl (fun needed i => needed.set i (1 + needed.getD (ends.getD i 0) 0))
    (List.replicate (n + 1) 0)

/-- The cut that comes nearest to the target, among those that leave the rest enough pages, and how near. -/
def bestEnd (sums needed : List ℕ) (begin left target : ℕ) :
    Option (ℕ × ℕ) → List ℕ → Option (ℕ × ℕ)
  | best, [] => best
  | best, e :: es =>
      if left < needed.getD e 0 then bestEnd sums needed begin left target best es
      else
        let delta := absDiff (sums.getD e 0 - sums.getD begin 0) target
        if best.all fun b => decide (delta < b.2) then
          bestEnd sums needed begin left target (some (e, delta)) es
        else bestEnd sums needed begin left target best es

/-- The end of the group that begins at a cell, with so many groups after it. -/
def nextCut (sums ends needed : List ℕ) (n left begin : ℕ) : Option ℕ :=
  let target := (sums.getD n 0 - sums.getD begin 0) / (left + 1)
  let last := min (ends.getD begin 0) (n - left)
  (bestEnd sums needed begin left target none (List.range' (begin + 1) (last - begin))).map Prod.fst

/-- The cuts after one, with so many groups after it. -/
def cutsFrom (sums ends needed : List ℕ) (n : ℕ) : ℕ → ℕ → Option (List ℕ)
  | 0, _ => some [n]
  | left + 1, begin => do
      let e ← nextCut sums ends needed n (left + 1) begin
      let cuts ← cutsFrom sums ends needed n left e
      return e :: cuts

/-- A cell that is empty, or does not fit in a page. -/
def unfit (sizes : List ℕ) (usable : ℕ) : Bool :=
  sizes.isEmpty || sizes.any fun v => decide (v = 0 ∨ usable < v)

/-- `neighbor_cell_cuts` -/
def neighborCellCuts (sizes : List ℕ) (usable existing : ℕ) : Option (List ℕ) :=
  if unfit sizes usable then none
  else do
    let n := sizes.length
    let sums ← prefixSums 0 sizes
    let ends := endsFrom sums usable n n 0 0
    let needed := neededFrom ends n
    let groups := max existing (needed.getD 0 0)
    if existing + 1 < groups ∨ n < groups then none
    else do
      let cuts ← cutsFrom sums ends needed n (groups - 1) 0
      return 0 :: cuts

section Cells

variable {sizes cuts : List ℕ} {usable existing : ℕ}

/-- Cells that are cut fit in a page. -/
lemma le_of_neighborCellCuts (h : neighborCellCuts sizes usable existing = some cuts) :
    ∀ v ∈ sizes, v ≤ usable := by
  intro v hv
  by_contra hlt
  rw [neighborCellCuts, if_pos] at h
  · cases h
  · rw [unfit, Bool.or_eq_true]
    exact Or.inr (List.any_eq_true.2 ⟨v, hv, decide_eq_true (Or.inr (by omega))⟩)

lemma cutsFrom_ne_nil {sums ends needed : List ℕ} {n left begin : ℕ}
    (h : cutsFrom sums ends needed n left begin = some cuts) : cuts ≠ [] := by
  cases left with
  | zero =>
      cases h
      simp
  | succ left =>
      rw [cutsFrom] at h
      simp only [Option.bind_eq_bind, Option.bind_eq_some_iff, Option.pure_def, Option.some.injEq] at h
      obtain ⟨e, -, rest, -, rfl⟩ := h
      simp

/-- There is a group. -/
lemma two_le_of_neighborCellCuts (h : neighborCellCuts sizes usable existing = some cuts) :
    2 ≤ cuts.length := by
  rw [neighborCellCuts] at h
  split_ifs at h
  simp only [Option.bind_eq_bind, Option.bind_eq_some_iff] at h
  obtain ⟨sums, -, h⟩ := h
  split_ifs at h
  simp only [Option.bind_eq_some_iff, Option.pure_def, Option.some.injEq] at h
  obtain ⟨rest, hrest, rfl⟩ := h
  rw [List.length_cons]
  have := List.length_pos_iff.2 (cutsFrom_ne_nil hrest)
  omega

end Cells

/-! ## The same into buffers -/

/-- The buffers a split reuses. -/
structure CutBuffers where
  sums : List ℕ
  ends : List ℕ
  needed : List ℕ
  cuts : List ℕ
  deriving DecidableEq, Repr

/-- The sums are pushed one by one; false where one overflows. -/
def pushSums : List ℕ → List ℕ → Bool × List ℕ
  | sums, [] => (true, sums)
  | sums, size :: sizes =>
      match sums.getLast?.bind fun p => checkedAdd p size with
      | some v => pushSums (sums ++ [v]) sizes
      | none => (false, sums)

/-- `ends[i] = end`, from a cell on. -/
def setEnds (sums : List ℕ) (usable n : ℕ) : ℕ → ℕ → ℕ → List ℕ → List ℕ
  | 0, _, _, ends => ends
  | left + 1, i, e, ends =>
      let e := reach sums usable (sums.getD i 0) (n - e) e
      setEnds sums usable n left (i + 1) e (ends.set i e)

/-- The cuts are pushed one by one; none where there is none to push. -/
def pushCuts (sums ends needed : List ℕ) (n : ℕ) : ℕ → List ℕ → Option (List ℕ)
  | 0, cuts => some (cuts ++ [n])
  | left + 1, cuts =>
      match nextCut sums ends needed n (left + 1) (cuts.getLast?.getD 0) with
      | some e => pushCuts sums ends needed n left (cuts ++ [e])
      | none => none

/-- `neighbor_cell_cuts_into` -/
def neighborCellCutsInto (sizes : List ℕ) (usable existing : ℕ) (buf : CutBuffers) : Bool × CutBuffers :=
  if unfit sizes usable then (false, { buf with cuts := [] })
  else
    let n := sizes.length
    match pushSums [0] sizes with
    | (false, sums) => (false, { buf with sums, cuts := [] })
    | (true, sums) =>
        let ends := setEnds sums usable n n 0 0 (List.replicate n 0)
        let needed := neededFrom ends n
        let groups := max existing (needed.getD 0 0)
        if existing + 1 < groups ∨ n < groups then (false, ⟨sums, ends, needed, []⟩)
        else
          match pushCuts sums ends needed n (groups - 1) [0] with
          | none => (false, ⟨sums, ends, needed, []⟩)
          | some cuts => (true, ⟨sums, ends, needed, cuts⟩)

section Into

variable {sums sizes ends needed cuts : List ℕ} {usable n : ℕ}

lemma pushSums_eq (p : ℕ) (sizes before : List ℕ) :
    match prefixSums p sizes with
    | some sums => pushSums (before ++ [p]) sizes = (true, before ++ sums)
    | none => ∃ sums, pushSums (before ++ [p]) sizes = (false, sums) := by
  induction sizes generalizing p before with
  | nil => rfl
  | cons size sizes ih =>
      have hlast : (before ++ [p]).getLast? = some p := by simp
      rw [prefixSums]
      cases hadd : checkedAdd p size with
      | none => exact ⟨before ++ [p], by rw [pushSums, hlast, Option.bind_some, hadd]⟩
      | some v =>
          have hpush : pushSums (before ++ [p]) (size :: sizes)
              = pushSums (before ++ [p] ++ [v]) sizes := by
            rw [pushSums, hlast, Option.bind_some, hadd]
          have := ih v (before ++ [p])
          rw [hpush]
          simp only [Option.bind_eq_bind, Option.bind_some]
          cases hs : prefixSums v sizes with
          | none =>
              rw [hs] at this
              exact this
          | some sums =>
              rw [hs] at this
              simpa using this

lemma setEnds_eq (left e : ℕ) (before : List ℕ) :
    setEnds sums usable n left before.length e (before ++ List.replicate left 0)
      = before ++ endsFrom sums usable n left before.length e := by
  induction left generalizing e before with
  | zero => simp [setEnds, endsFrom]
  | succ left ih =>
      rw [setEnds, endsFrom]
      have hset : ∀ x, (before ++ List.replicate (left + 1) 0).set before.length x
          = (before ++ [x]) ++ List.replicate left 0 := by
        intro x
        rw [List.set_append_right _ _ le_rfl, Nat.sub_self, List.replicate_succ, List.set_cons_zero]
        simp
      have := ih (reach sums usable (sums.getD before.length 0) (n - e) e)
        (before ++ [reach sums usable (sums.getD before.length 0) (n - e) e])
      rw [List.length_append, List.length_singleton] at this
      rw [hset, this, List.append_assoc, List.singleton_append]

lemma pushCuts_eq (left begin : ℕ) (before : List ℕ) :
    pushCuts sums ends needed n left (before ++ [begin])
      = (cutsFrom sums ends needed n left begin).map fun cuts => before ++ begin :: cuts := by
  induction left generalizing begin before with
  | zero => simp [pushCuts, cutsFrom]
  | succ left ih =>
      have hlast : (before ++ [begin]).getLast?.getD 0 = begin := by simp
      rw [pushCuts, cutsFrom, hlast]
      cases hnext : nextCut sums ends needed n (left + 1) begin with
      | none => rfl
      | some e =>
          simp only [Option.bind_eq_bind, Option.bind_some, ih e (before ++ [begin])]
          cases cutsFrom sums ends needed n left e with
          | none => rfl
          | some cuts => simp

/-- **The buffers hold the same cuts.** -/
theorem neighborCellCutsInto_eq (sizes : List ℕ) (usable existing : ℕ) (buf : CutBuffers) :
    match neighborCellCuts sizes usable existing with
    | some cuts => ∃ buf', neighborCellCutsInto sizes usable existing buf = (true, buf') ∧ buf'.cuts = cuts
    | none => ∃ buf', neighborCellCutsInto sizes usable existing buf = (false, buf') := by
  rw [neighborCellCuts, neighborCellCutsInto]
  by_cases hfit : unfit sizes usable = true
  · rw [if_pos hfit, if_pos hfit]
    exact ⟨_, rfl⟩
  · rw [if_neg hfit, if_neg hfit]
    have hsums := pushSums_eq 0 sizes []
    rw [List.nil_append] at hsums
    cases hs : prefixSums 0 sizes with
    | none =>
        rw [hs] at hsums
        obtain ⟨sums, hpush⟩ := hsums
        exact ⟨_, by rw [hpush]⟩
    | some sums =>
        rw [hs] at hsums
        have hends := @setEnds_eq sums usable sizes.length sizes.length 0 []
        rw [List.length_nil, List.nil_append, List.nil_append] at hends
        simp only [hsums, List.nil_append, hends, Option.bind_eq_bind, Option.bind_some]
        generalize endsFrom sums usable sizes.length sizes.length 0 0 = ends
        generalize neededFrom ends sizes.length = needed
        split_ifs with hgroups
        · exact ⟨_, rfl⟩
        · have hcuts := @pushCuts_eq sums ends needed sizes.length (max existing (needed.getD 0 0) - 1) 0 []
          rw [List.nil_append] at hcuts
          rw [hcuts]
          cases cutsFrom sums ends needed sizes.length (max existing (needed.getD 0 0) - 1) 0 with
          | none => exact ⟨_, rfl⟩
          | some cuts => exact ⟨_, rfl, rfl⟩

end Into

end BTree
