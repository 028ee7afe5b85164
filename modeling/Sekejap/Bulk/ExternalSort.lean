import Sekejap.Bulk.Manifest
import Sekejap.Lib.StableMerge

/-!
# The external sort

Records are collected in an arena, which is sorted and written as a run when it is full; the runs are
merged (`core/kernel/src/bulk.rs`).  The merge takes the least of the first records of all runs, the
earliest run at a tie, from a heap.  More than `MAX_FANOUT` runs are first merged in groups, pass by pass,
into files that replace them.

* **`collect_reads`** — a merge of sorted runs yields the stable sort of all of them.
* **`iter_stored`** — so does the merge after any number of passes.

`write_stats` and what is counted for it, `Drop` and the calls that discard a directory are left out.
-/

open Bytes Page Fallible Sorting

namespace Bulk

/-! ## Runs -/

/-- `SortedRuns`: the runs in order, with what is known of them from memory -/
structure SortedRuns where
  runs : List String
  runCounts : List ℕ
  maxKeyLen : ℕ
  maxValLen : ℕ
  deriving DecidableEq, Repr

/-- `MAX_FANOUT` -/
def maxFanout : ℕ := 64

/-- What a loop of `write_item` writes. -/
def writeItems (rs : List Item) : Except Error Bytes := List.flatten <$> rs.mapM writeItem

/-- `MergeIter`; a reader is what is left of its file -/
structure MergeIter where
  readers : List Bytes
  heap : List (Head Item)
  pendingErr : Option Error
  done : Bool
  maxKeyLen : ℕ
  maxValLen : ℕ
  expected : ℕ
  yielded : ℕ

namespace MergeIter

/-- `MergeIter::pull` -/
def pull (it : MergeIter) (i : ℕ) : Except Error MergeIter :=
  match readItem it.maxKeyLen it.maxValLen (it.readers.getD i []) with
  | .ok (some (r, rest)) => .ok { it with readers := it.readers.set i rest, heap := ⟨r, i⟩ :: it.heap }
  | .ok none => .ok it
  | .error e => .error e

/-- `Iterator::next` -/
def next (it : MergeIter) : Option (Except Error Item) × MergeIter :=
  if it.done then (none, it)
  else match it.pendingErr with
    | some e => (some (.error e), { it with pendingErr := none, done := true })
    | none =>
        match pop Item.key it.heap with
        | none =>
            if it.yielded = it.expected then (none, { it with done := true })
            else (some (.error (.io "scratch run ended before its recorded item count")),
              { it with done := true })
        | some (h, heap) =>
            if it.expected ≤ it.yielded then
              (some (.error (.io "scratch run exceeded its recorded item count")),
                { it with heap := heap, done := true })
            else
              let it := { it with heap := heap, yielded := it.yielded + 1 }
              match it.pull h.source with
              | .ok it => (some (.ok h.item), it)
              | .error e => (some (.ok h.item), { it with pendingErr := some e })

/-- What is still to be read, in the heap and in the files. -/
def size (it : MergeIter) : ℕ := it.heap.length + (it.readers.map List.length).sum

end MergeIter

lemma length_readItem {maxKeyLen maxValLen : ℕ} {b rest : Bytes} {r : Item}
    (h : readItem maxKeyLen maxValLen b = .ok (some (r, rest))) : rest.length < b.length := by
  have hexact : ∀ {n : ℕ} {b x y : Bytes}, readExact n b = .ok (x, y) → y.length + n = b.length := by
    intro n b x y h
    rw [readExact] at h
    split_ifs at h with hn
    cases h
    rw [List.length_drop]
    omega
  rw [readItem] at h
  split_ifs at h with hb
  · cases h
  · simp only [bind_eq_ok, refuse_eq_ok, pure_eq_ok, Option.some.injEq, Prod.mk.injEq, Prod.exists] at h
    obtain ⟨hd, b1, h1, -, -, k, b2, h2, v, b3, h3, -, -, -, rfl⟩ := h
    have := hexact h1
    have := hexact h2
    have := hexact h3
    rw [scratchHeaderLen] at *
    omega

lemma sum_length_set {l : List Bytes} {i : ℕ} {x : Bytes} (hx : x.length < (l.getD i []).length) :
    ((l.set i x).map List.length).sum < (l.map List.length).sum := by
  induction l generalizing i with
  | nil => simp at hx
  | cons y l ih =>
      cases i with
      | zero => simpa using hx
      | succ i =>
          rw [List.getD_cons_succ] at hx
          simpa using ih hx

lemma size_pull {it it' : MergeIter} {i : ℕ} (h : it.pull i = .ok it') : it'.size ≤ it.size := by
  rw [MergeIter.pull] at h
  split at h
  · next r rest hr =>
      cases h
      have := sum_length_set (length_readItem hr)
      simp only [MergeIter.size, List.length_cons]
      omega
  · cases h
    exact le_rfl
  · cases h

lemma size_next {it it' : MergeIter} {r : Item} (h : it.next = (some (.ok r), it')) :
    it'.size < it.size := by
  rw [MergeIter.next] at h
  split at h
  · simp at h
  · split at h
    · simp at h
    · split at h
      · split at h <;> simp at h
      · next g heap hpop =>
          have hlen := (pop_eq_some hpop).1.length_eq
          rw [List.length_cons] at hlen
          split at h
          · simp at h
          · simp only at h
            split at h
            · next it1 hpull =>
                simp only [Prod.mk.injEq] at h
                have := size_pull hpull
                rw [← h.2]
                refine this.trans_lt ?_
                simp only [MergeIter.size]
                omega
            · simp only [Prod.mk.injEq] at h
              rw [← h.2]
              simp only [MergeIter.size]
              omega

/-- The loop over the iterator, up to its end or the first error. -/
def MergeIter.collect (it : MergeIter) : Except Error (List Item) :=
  match _hnext : it.next with
  | (none, _) => .ok []
  | (some (.error e), _) => .error e
  | (some (.ok r), it') => do
      let rest ← it'.collect
      return r :: rest
termination_by it.size
decreasing_by exact size_next _hnext

/-- The first pull of a run: the first error is kept, and the other runs are pulled all the same. -/
def MergeIter.prime (it : MergeIter) (i : ℕ) : MergeIter :=
  match it.pull i with
  | .ok it => it
  | .error e => if it.pendingErr = none then { it with pendingErr := some e } else it

/-- `SortedRuns::iter_unbounded` -/
def SortedRuns.iterUnbounded (d : Dir) (s : SortedRuns) : Except Error MergeIter := do
  let readers ← s.runs.mapM fun p => orElse (d p) (.io "No such file or directory")
  let expected ← orElse (checkedSum s.runCounts) .tooLarge
  let it : MergeIter := ⟨readers, [], none, false, s.maxKeyLen, s.maxValLen, expected, 0⟩
  return (List.range readers.length).foldl MergeIter.prime it

/-- One group of a pass of `merge_down`: the files, and the names and counts of the next pass. -/
def SortedRuns.mergeGroup (s : SortedRuns) (passNo : ℕ) (acc : Dir × List String × List ℕ) (gi : ℕ) :
    Except Error (Dir × List String × List ℕ) := do
  let (d, next, nextCounts) := acc
  let start := gi * maxFanout
  let stop := min (start + maxFanout) s.runs.length
  let group := (s.runs.drop start).take (stop - start)
  let counts := (s.runCounts.drop start).take (stop - start)
  let groupCount ← orElse (checkedSum counts) .tooLarge
  if group.length = 1 then return (d, next ++ group, nextCounts ++ [groupCount])
  else
    let out := passName passNo next.length gi
    -- the file is there, and empty, before the group is read
    let d := Function.update d out (some [])
    let it ← SortedRuns.iterUnbounded d { s with runs := group, runCounts := counts }
    let items ← it.collect
    let bytes ← writeItems items
    let d := Function.update d out (some bytes)
    let d := group.foldl (fun d p => Function.update d p none) d
    return (d, next ++ [out], nextCounts ++ [groupCount])

/-- One pass of `merge_down`. -/
def SortedRuns.mergePass (d : Dir) (s : SortedRuns) (passNo : ℕ) : Except Error (Dir × SortedRuns) := do
  let groups := (s.runs.length + (maxFanout - 1)) / maxFanout
  let (d, next, nextCounts) ← (List.range groups).foldlM (s.mergeGroup passNo) (d, [], [])
  return (d, { s with runs := next, runCounts := nextCounts })

lemma length_mergeGroup {s : SortedRuns} {passNo gi : ℕ} {acc acc' : Dir × List String × List ℕ}
    (h : s.mergeGroup passNo acc gi = .ok acc') : acc'.2.1.length = acc.2.1.length + 1 := by
  simp only [SortedRuns.mergeGroup, bind_eq_ok] at h
  obtain ⟨_, -, h⟩ := h
  split at h
  · next hone =>
      rw [pure_eq_ok] at h
      rw [← h, List.length_append, hone]
  · simp only [bind_eq_ok, pure_eq_ok] at h
    obtain ⟨_, -, _, -, _, -, rfl⟩ := h
    rw [List.length_append, List.length_singleton]

lemma length_mergePass {d d' : Dir} {s s' : SortedRuns} {passNo : ℕ}
    (h : s.mergePass d passNo = .ok (d', s')) :
    s'.runs.length = (s.runs.length + (maxFanout - 1)) / maxFanout := by
  have hfold : ∀ (n : ℕ) (acc : Dir × List String × List ℕ),
      (List.range n).foldlM (s.mergeGroup passNo) (d, [], []) = .ok acc → acc.2.1.length = n := by
    intro n
    induction n with
    | zero =>
        intro acc hacc
        cases hacc
        rfl
    | succ n ih =>
        intro acc hacc
        simp only [List.range_succ, List.foldlM_append, List.foldlM_cons, List.foldlM_nil, bind_eq_ok,
          pure_eq_ok] at hacc
        obtain ⟨acc1, h1, acc2, h2, rfl⟩ := hacc
        rw [length_mergeGroup h2, ih acc1 h1]
  simp only [SortedRuns.mergePass, bind_eq_ok, pure_eq_ok] at h
  obtain ⟨acc, hacc, h⟩ := h
  cases h
  exact hfold _ _ hacc

/-- `SortedRuns::merge_down`: pass after pass, while there are too many runs -/
def SortedRuns.mergeDown (d : Dir) (s : SortedRuns) (passNo : ℕ) : Except Error (Dir × SortedRuns) :=
  if maxFanout < s.runs.length then
    match _hpass : s.mergePass d passNo with
    | .error e => .error e
    | .ok (d', s') => s'.mergeDown d' (passNo + 1)
  else .ok (d, s)
termination_by s.runs.length
decreasing_by
  rw [length_mergePass _hpass, maxFanout] at *
  omega

/-- `SortedRuns::iter` -/
def SortedRuns.iter (d : Dir) (s : SortedRuns) : Except Error (Dir × MergeIter) := do
  let (d, s) ← s.mergeDown d 0
  let it ← s.iterUnbounded d
  return (d, it)

/-! ## Runs that are stored -/

/-- The files of the names hold the runs, and the counts are theirs. -/
structure Stored (d : Dir) (names : List String) (counts : List ℕ) (runs : List (List Item)) : Prop where
  files : List.Forall₂ (fun name run => d name = some (frames run)) names runs
  counts : counts = runs.map List.length

/-- Runs that a merge can read: sorted, framed and within the bounds it was given. -/
structure Readable (maxKeyLen maxValLen : ℕ) (runs : List (List Item)) : Prop where
  sorted : ∀ run ∈ runs, run.Pairwise fun x y => x.key ≤ y.key
  framed : ∀ r ∈ runs.flatten, r.Framed
  keys : ∀ r ∈ runs.flatten, r.key.length ≤ maxKeyLen
  vals : ∀ r ∈ runs.flatten, r.val.length ≤ maxValLen

/-- What is left of the runs: their first records in the heap, the others in the files. -/
structure Reads (it : MergeIter) (runs : List (List Item)) : Prop where
  readers : it.readers = runs.map fun run => frames run.tail
  heap : it.heap.Perm (heads 0 runs)
  running : it.pendingErr = none ∧ it.done = false
  count : it.expected = it.yielded + runs.flatten.length
  readable : Readable it.maxKeyLen it.maxValLen runs

section Merge

variable {d : Dir} {it : MergeIter} {runs front back : List (List Item)} {run : List Item}

/-- **The next record of a run.** -/
lemma pull_frames (it : MergeIter) (i : ℕ) (run : List Item)
    (hi : it.readers[i]? = some (frames run)) (hf : ∀ r ∈ run, r.Framed)
    (hk : ∀ r ∈ run, r.key.length ≤ it.maxKeyLen) (hv : ∀ r ∈ run, r.val.length ≤ it.maxValLen) :
    it.pull i = .ok { it with readers := it.readers.set i (frames run.tail),
                              heap := (run.head?.map (Head.mk · i)).toList ++ it.heap } := by
  have hget : it.readers.getD i [] = frames run := by
    rw [List.getD_eq_getElem?_getD, hi, Option.getD_some]
  rw [MergeIter.pull, hget]
  cases run with
  | nil =>
      obtain ⟨hlt, he⟩ := List.getElem?_eq_some_iff.1 hi
      have hset : it.readers.set i [] = it.readers := by
        conv_rhs => rw [← List.set_getElem_self hlt, he, frames_nil]
      rw [frames_nil, readItem, if_pos rfl]
      simp only [List.tail_nil, frames_nil, hset]
      rfl
  | cons r run =>
      rw [frames_cons, readItem_frame (hf r (by simp)) (hk r (by simp)) (hv r (by simp))]
      rfl

lemma collect_of_none {it' : MergeIter} (h : it.next = (none, it')) : it.collect = .ok [] := by
  rw [MergeIter.collect]
  split
  · rfl
  · next h' => rw [h] at h'; cases h'
  · next h' => rw [h] at h'; cases h'

lemma collect_of_ok {it' : MergeIter} {r : Item} {out : List Item} (h : it.next = (some (.ok r), it'))
    (hout : it'.collect = .ok out) : it.collect = .ok (r :: out) := by
  rw [MergeIter.collect]
  split
  · next h' => rw [h] at h'; cases h'
  · next h' => rw [h] at h'; cases h'
  · next h' =>
      rw [h] at h'
      cases h'
      rw [hout]
      rfl

lemma Readable.tail {a b : ℕ} {r : Item} (h : Readable a b (front ++ (r :: run) :: back)) :
    Readable a b (front ++ run :: back) := by
  have hmem : ∀ x ∈ (front ++ run :: back).flatten, x ∈ (front ++ (r :: run) :: back).flatten := by
    intro x hx
    simp only [List.flatten_append, List.flatten_cons, List.mem_append, List.mem_cons] at hx ⊢
    tauto
  refine ⟨?_, fun x hx => h.framed x (hmem x hx), fun x hx => h.keys x (hmem x hx),
    fun x hx => h.vals x (hmem x hx)⟩
  intro l hl
  rw [List.mem_append, List.mem_cons] at hl
  rcases hl with hl | rfl | hl
  · exact h.sorted l (by simp [hl])
  · exact (List.pairwise_cons.1 (h.sorted (r :: l) (by simp))).2
  · exact h.sorted l (by simp [hl])

/-- One step of the iterator, when a record is left. -/
lemma next_reads {g : Head Item} {heap : List (Head Item)}
    (h : Reads it (front ++ (g.item :: run) :: back))
    (hpop : pop Item.key it.heap = some (g, heap)) (hsource : g.source = front.length)
    (hheap : heap.Perm (heads 0 front ++ heads (front.length + 1) back)) :
    ∃ it', it.next = (some (.ok g.item), it') ∧ Reads it' (front ++ run :: back) := by
  obtain ⟨hread, -, ⟨herr, hdone⟩, hcount, hok⟩ := h
  have htail := hok.tail
  have hlen : (front ++ (g.item :: run) :: back).flatten.length
      = (front ++ run :: back).flatten.length + 1 := by
    simp
    omega
  have hmem : ∀ r ∈ run, r ∈ (front ++ run :: back).flatten := by
    intro r hr
    simp [hr]
  have hpull := pull_frames { it with heap := heap, yielded := it.yielded + 1 } g.source run
    (by simp [hread, hsource]) (fun r hr => htail.framed r (hmem r hr))
    (fun r hr => htail.keys r (hmem r hr)) (fun r hr => htail.vals r (hmem r hr))
  refine ⟨{ it with readers := it.readers.set g.source (frames run.tail)
                    heap := (run.head?.map (Head.mk · g.source)).toList ++ heap
                    yielded := it.yielded + 1 }, ?_, ?_, ?_, ⟨herr, hdone⟩, ?_, htail⟩
  · rw [MergeIter.next, hdone, herr, hpop]
    simp only [Bool.false_eq_true, if_false]
    rw [if_neg (by omega)]
    rw [herr, hdone] at hpull
    rw [hpull]
  · simp [hread, hsource]
  · rw [heads_append, heads, Nat.zero_add, hsource]
    exact (hheap.append_left _).trans (List.perm_append_comm_assoc _ _ _)
  · simp only
    omega

/-- **A merge of sorted runs yields the stable sort of all of them**, and ends. -/
theorem collect_reads (h : Reads it runs) :
    ∃ out, it.collect = .ok out ∧ StableSort Item.key out runs.flatten := by
  induction hn : runs.flatten.length using Nat.strong_induction_on generalizing it runs with
  | _ n ih =>
      cases hpop : pop Item.key it.heap with
      | none =>
          have hheap : heads 0 runs = [] := by
            have := h.heap
            rw [pop_eq_none.1 hpop] at this
            exact this.nil_eq.symm
          have hnil := heads_eq_nil hheap
          have hcount : it.yielded = it.expected := by
            rw [h.count, hnil, List.length_nil, Nat.add_zero]
          have hnext : it.next = (none, { it with done := true }) := by
            rw [MergeIter.next, h.running.1, h.running.2, hpop]
            simp only [Bool.false_eq_true, if_false, if_pos hcount]
          refine ⟨[], collect_of_none hnext, ?_⟩
          rw [hnil]
          exact StableSort.nil
      | some p =>
          obtain ⟨front, run, back, rfl, hsource, hheap, hcons⟩ :=
            StableSort.pop h.readable.sorted h.heap hpop
          obtain ⟨it', hnext, hreads⟩ := next_reads h hpop hsource hheap
          have hlt : (front ++ run :: back).flatten.length < n := by
            rw [← hn]
            simp
          obtain ⟨out, hout, hstable⟩ := ih _ hlt hreads rfl
          exact ⟨p.1.item :: out, collect_of_ok hnext hout, hcons out hstable⟩

/-- The readers of the first `m` runs have been pulled once. -/
lemma foldl_prime {maxKeyLen maxValLen : ℕ} (hok : Readable maxKeyLen maxValLen runs) (expected m : ℕ) :
    m ≤ runs.length → ∃ heap : List (Head Item), heap.Perm (heads 0 (runs.take m)) ∧
      (List.range m).foldl MergeIter.prime
        ⟨runs.map frames, [], none, false, maxKeyLen, maxValLen, expected, 0⟩
      = ⟨(runs.take m).map (fun run => frames run.tail) ++ (runs.drop m).map frames, heap, none, false,
          maxKeyLen, maxValLen, expected, 0⟩ := by
  induction m with
  | zero =>
      intro _
      exact ⟨[], by simp [heads], by simp⟩
  | succ m ih =>
      intro hm
      obtain ⟨heap, hheap, hfold⟩ := ih (by omega)
      have hlt : m < runs.length := by omega
      have hmem : ∀ r ∈ runs[m], r ∈ runs.flatten := by
        intro r hr
        exact List.mem_flatten.2 ⟨_, List.getElem_mem hlt, hr⟩
      have htake : (runs.take m).length = m := List.length_take_of_le hlt.le
      have hlen : ((runs.take m).map fun run => frames run.tail).length = m := by
        rw [List.length_map, htake]
      rw [List.drop_eq_getElem_cons hlt, List.map_cons] at hfold
      rw [List.range_succ, List.foldl_append, hfold, List.foldl_cons, List.foldl_nil, MergeIter.prime,
        pull_frames _ m runs[m] ?_ (fun r hr => hok.framed r (hmem r hr))
          (fun r hr => hok.keys r (hmem r hr)) (fun r hr => hok.vals r (hmem r hr))]
      · refine ⟨(runs[m].head?.map (Head.mk · m)).toList ++ heap, ?_, ?_⟩
        · rw [List.take_succ_eq_append_getElem hlt, heads_append, heads, heads, htake, List.append_nil,
            Nat.zero_add]
          exact (hheap.append_left _).trans List.perm_append_comm
        · simp only [List.set_append_right _ _ hlen.le, hlen, Nat.sub_self, List.set_cons_zero,
            List.take_succ_eq_append_getElem hlt, List.map_append, List.map_cons, List.map_nil,
            List.append_assoc, List.cons_append, List.nil_append]
      · simp only [List.getElem?_append_right hlen.le, hlen, Nat.sub_self, List.getElem?_cons_zero]

/-- **The iterator over stored runs.** -/
lemma iterUnbounded_stored {s : SortedRuns} (hs : Stored d s.runs s.runCounts runs)
    (hok : Readable s.maxKeyLen s.maxValLen runs) (hlt : runs.flatten.length < 2 ^ 64) :
    ∃ it, s.iterUnbounded d = .ok it ∧ Reads it runs := by
  have hreaders : (s.runs.mapM fun p => orElse (d p) (Error.io "No such file or directory"))
      = .ok (runs.map frames) := by
    have hfiles := hs.files
    generalize s.runs = names at hfiles
    clear hlt hok hs
    induction hfiles with
    | nil => rfl
    | cons hfile _ ih =>
        rw [List.mapM_cons, hfile, ih]
        rfl
  have hcount : checkedSum s.runCounts = some runs.flatten.length := by
    rw [List.length_flatten] at hlt ⊢
    rw [hs.counts]
    exact checkedSum_eq hlt
  obtain ⟨heap, hheap, hfold⟩ := foldl_prime hok runs.flatten.length runs.length le_rfl
  rw [List.take_length] at hheap hfold
  rw [List.drop_length, List.map_nil, List.append_nil] at hfold
  refine ⟨⟨runs.map fun run => frames run.tail, heap, none, false, s.maxKeyLen, s.maxValLen,
    runs.flatten.length, 0⟩, ?_, rfl, hheap, ⟨rfl, rfl⟩, (Nat.zero_add _).symm, hok⟩
  rw [SortedRuns.iterUnbounded, hreaders, hcount]
  simp only [bind, Except.bind, orElse, List.length_map]
  rw [hfold]
  rfl

end Merge

/-! ## Passes -/

section Passes

variable {d : Dir} {names group : List String} {counts : List ℕ} {runs front back : List (List Item)}

lemma writeItems_framed {rs : List Item} (h : ∀ r ∈ rs, r.Framed) : writeItems rs = .ok (frames rs) := by
  have hmap : rs.mapM writeItem = .ok (rs.map Item.frame) := by
    induction rs with
    | nil => rfl
    | cons r rs ih =>
        rw [List.mapM_cons, writeItem_ok_iff.2 ⟨h r (by simp), rfl⟩, ih fun r hr => h r (by simp [hr])]
        rfl
  rw [writeItems, hmap, frames, List.flatMap_def]
  rfl

/-- Files under other names do not matter. -/
lemma Stored.congr {d' : Dir} (h : Stored d names counts runs) (hd : ∀ name ∈ names, d' name = d name) :
    Stored d' names counts runs := by
  refine ⟨?_, h.counts⟩
  have hfiles := h.files
  clear h
  induction hfiles with
  | nil => exact List.Forall₂.nil
  | cons hfile _ ih =>
      exact List.Forall₂.cons ((hd _ (by simp)).trans hfile) (ih fun name hn => hd name (by simp [hn]))

lemma Stored.length_eq (h : Stored d names counts runs) : names.length = runs.length := h.files.length_eq

lemma Stored.take (h : Stored d names counts runs) (n : ℕ) :
    Stored d (names.take n) (counts.take n) (runs.take n) :=
  ⟨List.forall₂_take n h.files, by rw [h.counts, List.map_take]⟩

lemma Stored.drop (h : Stored d names counts runs) (n : ℕ) :
    Stored d (names.drop n) (counts.drop n) (runs.drop n) :=
  ⟨List.forall₂_drop n h.files, by rw [h.counts, List.map_drop]⟩

lemma Stored.append {names' : List String} {counts' : List ℕ} {runs' : List (List Item)}
    (h : Stored d names counts runs) (h' : Stored d names' counts' runs') :
    Stored d (names ++ names') (counts ++ counts') (runs ++ runs') :=
  ⟨List.rel_append h.files h'.files, by rw [h.counts, h'.counts, List.map_append]⟩

lemma foldl_remove_of_not_mem {name : String} (h : name ∉ group) :
    group.foldl (fun d p => Function.update d p none) d name = d name := by
  induction group generalizing d with
  | nil => rfl
  | cons p group ih =>
      rw [List.mem_cons, not_or] at h
      rw [List.foldl_cons, ih h.2, Function.update_of_ne h.1]

/-- The names of runs that are distinct, and that no pass from `passNo` on uses. -/
structure Fresh (passNo : ℕ) (names : List String) : Prop where
  nodup : names.Nodup
  unused : ∀ p n g, passNo ≤ p → passName p n g ∉ names

/-- After the first `gi` groups of a pass: their outputs are stored, and so are the runs that are left. -/
structure Merged (s : SortedRuns) (passNo : ℕ) (runs : List (List Item)) (gi : ℕ)
    (acc : Dir × List String × List ℕ) (outs : List (List Item)) : Prop where
  stored : Stored acc.1 acc.2.1 acc.2.2 outs
  left : Stored acc.1 (s.runs.drop (gi * maxFanout)) (s.runCounts.drop (gi * maxFanout))
    (runs.drop (gi * maxFanout))
  stable : ∃ pieces, List.Forall₂ (StableSort Item.key) outs pieces ∧
    pieces.flatten = (runs.take (gi * maxFanout)).flatten
  names : ∀ name ∈ acc.2.1, (∃ m g, g < gi ∧ name = passName passNo m g) ∨
    name ∈ s.runs.take (gi * maxFanout)
  nodup : acc.2.1.Nodup

/-- The indices of a group, cut at the end of the list. -/
lemma slice_group {α : Type*} {l : List α} {n i : ℕ} (h : l.length = n) :
    (l.drop i).take (min (i + maxFanout) n - i) = (l.drop i).take maxFanout := by
  rw [List.take_eq_take_iff, List.length_drop, h]
  omega

lemma drop_group {α : Type*} (l : List α) (gi : ℕ) : l.drop (gi * maxFanout)
    = (l.drop (gi * maxFanout)).take maxFanout ++ l.drop ((gi + 1) * maxFanout) := by
  conv_lhs => rw [← List.take_append_drop maxFanout (l.drop (gi * maxFanout))]
  rw [List.drop_drop, Nat.succ_mul]

lemma take_group {α : Type*} (l : List α) (gi : ℕ) : l.take ((gi + 1) * maxFanout)
    = l.take (gi * maxFanout) ++ (l.drop (gi * maxFanout)).take maxFanout := by
  rw [Nat.succ_mul, List.take_add]

/-- The output of the next group, wherever it is stored. -/
lemma Merged.step {s : SortedRuns} {passNo gi : ℕ} {next : List String} {nextCounts : List ℕ}
    {outs : List (List Item)} (h : Merged s passNo runs gi (d, next, nextCounts) outs) {d' : Dir}
    {name : String} {out : List Item} (hfile : d' name = some (frames out))
    (hout : StableSort Item.key out ((runs.drop (gi * maxFanout)).take maxFanout).flatten)
    (hnext : ∀ n ∈ next, d' n = d n) (hrest : ∀ n ∈ s.runs.drop ((gi + 1) * maxFanout), d' n = d n)
    (hname : (∃ m, name = passName passNo m gi) ∨ name ∈ (s.runs.drop (gi * maxFanout)).take maxFanout)
    (hnew : name ∉ next) :
    Merged s passNo runs (gi + 1) (d', next ++ [name], nextCounts ++ [out.length]) (outs ++ [out]) := by
  obtain ⟨hstored, hleft, ⟨pieces, hpieces, hflat⟩, hnames, hnodup⟩ := h
  refine ⟨?_, ?_, ?_, ?_, ?_⟩
  · exact (hstored.congr hnext).append ⟨List.Forall₂.cons hfile List.Forall₂.nil, rfl⟩
  · have hdrop := hleft.drop maxFanout
    rw [List.drop_drop, List.drop_drop, List.drop_drop, ← Nat.succ_mul] at hdrop
    exact hdrop.congr hrest
  · refine ⟨pieces ++ [((runs.drop (gi * maxFanout)).take maxFanout).flatten],
      List.rel_append hpieces (List.Forall₂.cons hout List.Forall₂.nil), ?_⟩
    rw [take_group, List.flatten_append, List.flatten_append, hflat, List.flatten_singleton]
  · intro n hn
    rw [take_group, List.mem_append]
    rcases List.mem_append.1 hn with hn | hn
    · rcases hnames n hn with ⟨m, g, hg, rfl⟩ | hn
      · exact Or.inl ⟨m, g, by omega, rfl⟩
      · exact Or.inr (Or.inl hn)
    · rw [List.mem_singleton] at hn
      subst hn
      rcases hname with ⟨m, rfl⟩ | hn
      · exact Or.inl ⟨m, gi, by omega, rfl⟩
      · exact Or.inr (Or.inr hn)
  · exact List.nodup_append.2 ⟨hnodup, List.nodup_singleton _, by
      intro a ha b hb hab
      rw [List.mem_singleton] at hb
      exact hnew (hb ▸ hab ▸ ha)⟩

/-- **One group of a pass.** -/
lemma mergeGroup_merged {s : SortedRuns} {passNo gi : ℕ} {acc : Dir × List String × List ℕ}
    {outs : List (List Item)} (h : Merged s passNo runs gi acc outs) (hf : Fresh passNo s.runs)
    (hok : Readable s.maxKeyLen s.maxValLen runs) (hlt : runs.flatten.length < 2 ^ 64)
    (hlen : s.runs.length = runs.length) (hcounts : s.runCounts = runs.map List.length) :
    ∃ acc' out, s.mergeGroup passNo acc gi = .ok acc' ∧
      Merged s passNo runs (gi + 1) acc' (outs ++ [out]) := by
  obtain ⟨d, next, nextCounts⟩ := acc
  set group := (s.runs.drop (gi * maxFanout)).take maxFanout with hgroup
  set merged := (runs.drop (gi * maxFanout)).take maxFanout with hmerged
  have hgs : Stored d group ((s.runCounts.drop (gi * maxFanout)).take maxFanout) merged :=
    h.left.take maxFanout
  have hsub : merged.Sublist runs := (List.take_sublist _ _).trans (List.drop_sublist _ _)
  have hread : Readable s.maxKeyLen s.maxValLen merged :=
    ⟨fun run hr => hok.sorted run (hsub.subset hr), fun r hr => hok.framed r (hsub.flatten.subset hr),
      fun r hr => hok.keys r (hsub.flatten.subset hr), fun r hr => hok.vals r (hsub.flatten.subset hr)⟩
  have hsmall : merged.flatten.length < 2 ^ 64 := hsub.flatten.length_le.trans_lt hlt
  have hcount : checkedSum ((s.runCounts.drop (gi * maxFanout)).take maxFanout)
      = some merged.flatten.length := by
    rw [hgs.counts, List.length_flatten] at *
    exact checkedSum_eq hsmall
  have hdisjoint : ∀ n ∈ group, n ∉ s.runs.drop ((gi + 1) * maxFanout) := by
    have hnodup := hf.nodup.sublist (List.drop_sublist (gi * maxFanout) s.runs)
    rw [drop_group] at hnodup
    exact fun n hn hn' => List.disjoint_of_nodup_append hnodup hn hn'
  have hruns : ∀ n ∈ group, n ∈ s.runs := fun n hn => List.mem_of_mem_drop (List.mem_of_mem_take hn)
  have hpast : ∀ n ∈ group, n ∉ next := by
    intro n hn hnext
    rcases h.names n hnext with ⟨m, g, -, rfl⟩ | htake
    · exact hf.unused passNo m g le_rfl (hruns _ hn)
    · have hnodup := hf.nodup
      rw [← List.take_append_drop (gi * maxFanout) s.runs] at hnodup
      exact List.disjoint_of_nodup_append hnodup htake (List.mem_of_mem_take hn)
  simp only [SortedRuns.mergeGroup, slice_group rfl,
    slice_group (show s.runCounts.length = s.runs.length by rw [hcounts, List.length_map, hlen]),
    ← hgroup, hcount, orElse, bind, Except.bind]
  split
  · next hone =>
      obtain ⟨name, hname⟩ := List.length_eq_one_iff.1 hone
      obtain ⟨run, hrun⟩ : ∃ run, merged = [run] := by
        rw [← List.length_eq_one_iff, ← hgs.length_eq, hone]
      have hfile : d name = some (frames run) := by
        have := hgs.files
        rw [hname, hrun] at this
        exact (List.forall₂_cons.1 this).1
      refine ⟨_, run, rfl, ?_⟩
      rw [hname, hrun, List.flatten_singleton]
      refine h.step hfile ?_ (fun _ _ => rfl) (fun _ _ => rfl) (Or.inr ?_) (hpast name ?_)
      · rw [← hmerged, hrun, List.flatten_singleton]
        exact StableSort.refl (hread.sorted run (by simp [hrun]))
      · rw [← hgroup, hname]
        exact List.mem_singleton_self name
      · rw [hname]
        exact List.mem_singleton_self name
  · set file := passName passNo next.length gi with hfile
    have hnew : file ∉ s.runs := hf.unused passNo next.length gi le_rfl
    have hnotnext : file ∉ next := by
      intro hn
      rcases h.names _ hn with ⟨m, g, hg, he⟩ | hn
      · exact absurd (passName_inj he).2 (by omega)
      · exact hnew (List.mem_of_mem_take hn)
    have hgs' : Stored (Function.update d file (some [])) group
        ((s.runCounts.drop (gi * maxFanout)).take maxFanout) merged := by
      refine hgs.congr fun n hn => Function.update_of_ne ?_ _ _
      rintro rfl
      exact hnew (hruns _ hn)
    obtain ⟨it, hit, hreads⟩ := iterUnbounded_stored
      (s := { s with runs := group, runCounts := (s.runCounts.drop (gi * maxFanout)).take maxFanout })
      hgs' hread hsmall
    obtain ⟨out, hout, hstable⟩ := collect_reads hreads
    have hframed : ∀ r ∈ out, r.Framed := fun r hr => hread.framed r (hstable.mem_iff.1 hr)
    rw [hit]
    simp only
    rw [hout]
    simp only
    rw [writeItems_framed hframed]
    refine ⟨_, out, rfl, ?_⟩
    rw [← hstable.perm.length_eq]
    have hother : ∀ n, n ≠ file → n ∉ group →
        group.foldl (fun d p => Function.update d p none)
          (Function.update (Function.update d file (some [])) file (some (frames out))) n = d n := by
      intro n hn hg
      rw [foldl_remove_of_not_mem hg, Function.update_of_ne hn, Function.update_of_ne hn]
    refine h.step ?_ hstable (fun n hn => hother n ?_ ?_) (fun n hn => hother n ?_ ?_)
      (Or.inl ⟨next.length, rfl⟩) hnotnext
    · rw [foldl_remove_of_not_mem fun hg => hnew (hruns _ hg), Function.update_self]
    · rintro rfl
      exact hnotnext hn
    · exact fun hg => hpast n hg hn
    · rintro rfl
      exact hnew (List.mem_of_mem_drop hn)
    · exact fun hg => hdisjoint n hg hn

/-- Runs that stand for others: they can be read, hold as many records, and sort the same. -/
structure Resorts (maxKeyLen maxValLen : ℕ) (outs runs : List (List Item)) : Prop where
  readable : Readable maxKeyLen maxValLen outs
  length : outs.flatten.length = runs.flatten.length
  stable : ∀ out, StableSort Item.key out outs.flatten → StableSort Item.key out runs.flatten

lemma Resorts.of_pieces {a b : ℕ} {outs pieces : List (List Item)} (hok : Readable a b runs)
    (hp : List.Forall₂ (StableSort Item.key) outs pieces) (hflat : pieces.flatten = runs.flatten) :
    Resorts a b outs runs := by
  have hlength : ∀ {outs pieces : List (List Item)}, List.Forall₂ (StableSort Item.key) outs pieces →
      outs.flatten.Perm pieces.flatten ∧ ∀ out ∈ outs, out.Pairwise fun x y => x.key ≤ y.key := by
    intro outs pieces hp
    induction hp with
    | nil => exact ⟨List.Perm.refl _, by simp⟩
    | cons h _ ih =>
        refine ⟨h.perm.append ih.1, ?_⟩
        intro out hout
        rcases List.mem_cons.1 hout with rfl | hout
        · exact h.sorted
        · exact ih.2 out hout
  obtain ⟨hperm, hsorted⟩ := hlength hp
  rw [hflat] at hperm
  exact ⟨⟨hsorted, fun r hr => hok.framed r (hperm.mem_iff.1 hr),
    fun r hr => hok.keys r (hperm.mem_iff.1 hr), fun r hr => hok.vals r (hperm.mem_iff.1 hr)⟩,
    hperm.length_eq, fun out hout => hflat ▸ hout.flatten hp⟩

/-- **One pass.** -/
lemma mergePass_stored {s : SortedRuns} {passNo : ℕ} (hs : Stored d s.runs s.runCounts runs)
    (hf : Fresh passNo s.runs) (hok : Readable s.maxKeyLen s.maxValLen runs)
    (hlt : runs.flatten.length < 2 ^ 64) :
    ∃ d' s' outs, s.mergePass d passNo = .ok (d', s') ∧ Stored d' s'.runs s'.runCounts outs ∧
      Fresh (passNo + 1) s'.runs ∧ Resorts s.maxKeyLen s.maxValLen outs runs ∧
      s'.maxKeyLen = s.maxKeyLen ∧ s'.maxValLen = s.maxValLen := by
  have hfold : ∀ n, ∃ acc outs, (List.range n).foldlM (s.mergeGroup passNo) (d, [], []) = .ok acc ∧
      Merged s passNo runs n acc outs := by
    intro n
    induction n with
    | zero =>
        refine ⟨(d, [], []), [], rfl, ⟨List.Forall₂.nil, rfl⟩, ?_, ⟨[], List.Forall₂.nil, ?_⟩, by simp,
          List.nodup_nil⟩
        · simpa using hs
        · simp
    | succ n ih =>
        obtain ⟨acc, outs, hacc, hm⟩ := ih
        obtain ⟨acc', out, hstep, hm'⟩ := mergeGroup_merged hm hf hok hlt hs.length_eq hs.counts
        refine ⟨acc', outs ++ [out], ?_, hm'⟩
        rw [List.range_succ, List.foldlM_append, hacc]
        simp only [List.foldlM_cons, List.foldlM_nil, bind, Except.bind, hstep]
        rfl
  obtain ⟨acc, outs, hacc, hm⟩ := hfold ((s.runs.length + (maxFanout - 1)) / maxFanout)
  have hall : s.runs.length ≤ (s.runs.length + (maxFanout - 1)) / maxFanout * maxFanout := by
    rw [maxFanout]
    omega
  obtain ⟨pieces, hpieces, hflat⟩ := hm.stable
  rw [List.take_of_length_le (hs.length_eq ▸ hall)] at hflat
  refine ⟨acc.1, { s with runs := acc.2.1, runCounts := acc.2.2 }, outs, ?_, hm.stored, ⟨hm.nodup, ?_⟩,
    Resorts.of_pieces hok hpieces hflat, rfl, rfl⟩
  · rw [SortedRuns.mergePass, hacc]
    rfl
  · intro p n g hp hmem
    rcases hm.names _ hmem with ⟨m, g', -, he⟩ | hmem
    · have := (passName_inj he).1
      omega
    · exact hf.unused p n g (by omega) (List.mem_of_mem_take hmem)

/-- **All passes.** -/
lemma mergeDown_stored {s : SortedRuns} {passNo : ℕ} (hs : Stored d s.runs s.runCounts runs)
    (hf : Fresh passNo s.runs) (hok : Readable s.maxKeyLen s.maxValLen runs)
    (hlt : runs.flatten.length < 2 ^ 64) :
    ∃ d' s' outs, s.mergeDown d passNo = .ok (d', s') ∧ Stored d' s'.runs s'.runCounts outs ∧
      Resorts s'.maxKeyLen s'.maxValLen outs runs := by
  induction hn : s.runs.length using Nat.strong_induction_on generalizing d s passNo runs with
  | _ n ih =>
      rw [SortedRuns.mergeDown]
      by_cases hmany : maxFanout < s.runs.length
      · obtain ⟨d1, s1, outs, hpass, hs1, hf1, hr1, hk, hv⟩ := mergePass_stored hs hf hok hlt
        have hless : s1.runs.length < n := by
          rw [length_mergePass hpass, ← hn]
          rw [maxFanout] at hmany ⊢
          omega
        obtain ⟨d2, s2, outs2, hdown, hs2, hr2⟩ := ih _ hless hs1 hf1
          (by rw [hk, hv]; exact hr1.readable) (by rw [hr1.length]; exact hlt) rfl
        refine ⟨d2, s2, outs2, ?_, hs2, hr2.readable, hr2.length.trans hr1.length,
          fun out hout => hr1.stable out (hr2.stable out hout)⟩
        rw [if_pos hmany]
        split
        · next e he => rw [hpass] at he; cases he
        · next he =>
            rw [hpass] at he
            cases he
            exact hdown
      · rw [if_neg hmany]
        exact ⟨d, s, runs, rfl, hs, hok, rfl, fun _ h => h⟩

/-- **The merge of stored runs yields their stable sort**, after as many passes as it takes. -/
theorem iter_stored {s : SortedRuns} (hs : Stored d s.runs s.runCounts runs) (hf : Fresh 0 s.runs)
    (hok : Readable s.maxKeyLen s.maxValLen runs) (hlt : runs.flatten.length < 2 ^ 64) :
    ∃ d' it out, s.iter d = .ok (d', it) ∧ it.collect = .ok out ∧
      StableSort Item.key out runs.flatten := by
  obtain ⟨d1, s1, outs, hdown, hs1, hr1⟩ := mergeDown_stored hs hf hok hlt
  obtain ⟨it, hit, hreads⟩ := iterUnbounded_stored hs1 hr1.readable (by rw [hr1.length]; exact hlt)
  obtain ⟨out, hout, hstable⟩ := collect_reads hreads
  refine ⟨d1, it, out, ?_, hout, hr1.stable out hstable⟩
  rw [SortedRuns.iter, hdown]
  simp only [bind, Except.bind, hit]
  rfl

end Passes

end Bulk
