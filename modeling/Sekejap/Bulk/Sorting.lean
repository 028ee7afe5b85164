import Sekejap.Bulk.ExternalSort

/-!
# Sorting with checkpoints

The calls of a sorter (`ExternalSort`, `core/kernel/src/bulk.rs`): records are pushed, runs are flushed, a
durable sorter publishes checkpoints and is opened again at the last of them; then the runs are merged.

* **`sort_calls`** — whatever the arena and wherever runs are cut, checkpoints made and reopened, what is
  returned in the end is the stable sort of the records that were pushed and not given up; and it is returned
  unless a record does not fit its frame, a count a `u64`, or a manifest `SORT_MANIFEST_MAX`.
-/

open Bytes Page Fallible Sorting

namespace Bulk

/-- `ExternalSort` -/
structure ExternalSort where
  arena : List Item
  arenaBytes : ℕ
  used : ℕ
  runs : List String
  runCounts : List ℕ
  maxKeyLen : ℕ
  maxValLen : ℕ
  records : ℕ
  framedBytes : ℕ
  durableGeneration : Option UInt64
  deriving DecidableEq, Repr

namespace ExternalSort

/-- `new_inner` -/
def newInner (arenaBytes : ℕ) (durableGeneration : Option UInt64) : ExternalSort :=
  ⟨[], arenaBytes, 0, [], [], 0, 0, 0, 0, durableGeneration⟩

/-- `spill`: the arena becomes a run -/
def spill (d : Dir) (s : ExternalSort) : Except Error (Dir × ExternalSort) :=
  if s.arena = [] then .ok (d, s)
  else do
    let sorted := s.arena.mergeSort (keyLe Item.key)
    let path := runName s.durableGeneration s.runs.length
    let bytes ← writeItems sorted
    return (Function.update d path (some bytes),
      { s with arena := [], runs := s.runs ++ [path],
               runCounts := s.runCounts ++ [s.arena.length], used := 0 })

/-- The fields that `push_inner` sets. -/
def add (s : ExternalSort) (r : Item) : ExternalSort :=
  { s with records := s.records + 1
           framedBytes := s.framedBytes + r.framedLen
           maxKeyLen := max s.maxKeyLen r.key.length
           maxValLen := max s.maxValLen r.val.length
           used := s.used + (r.key.length + r.val.length + 48)
           arena := s.arena ++ [r] }

/-- `push_inner` -/
def pushInner (d : Dir) (s : ExternalSort) (r : Item) : Except Error (Dir × ExternalSort) := do
  refuse (2 ^ 64 ≤ s.records + 1) Error.tooLarge
  refuse (2 ^ 64 ≤ s.framedBytes + r.framedLen) Error.tooLarge
  let s := s.add r
  if s.arenaBytes ≤ s.used then s.spill d else return (d, s)

/-- `flush_run` -/
def flushRun (d : Dir) (s : ExternalSort) : Except Error (Dir × ExternalSort) := s.spill d

/-- What `write_sort_manifest` publishes of a sorter. -/
def manifest (s : ExternalSort) (watermark : UInt64) : SortManifest :=
  ⟨watermark.toNat, s.records, s.framedBytes, s.maxKeyLen, s.maxValLen, s.runs, s.runCounts⟩

/-- `checkpoint` -/
def checkpoint (d : Dir) (s : ExternalSort) (watermark : UInt64) : Except Error (Dir × ExternalSort) := do
  let generation ← orElse s.durableGeneration (.io "checkpoint requested for a non-durable sorter")
  let (d, s) ← s.spill d
  let d ← writeSortManifest d generation.toNat (s.manifest watermark)
  return (d, s)

/-- `reopen_durable` -/
def reopenDurable (d : Dir) (arenaBytes : ℕ) (expectedGeneration : UInt64) :
    Except Error (ExternalSort × ℕ) := do
  let m ← readSortManifest d expectedGeneration.toNat
  let s := newInner arenaBytes (some expectedGeneration)
  return ({ s with runs := m.runs, runCounts := m.runCounts, maxKeyLen := m.maxKeyLen,
                   maxValLen := m.maxValLen, records := m.records, framedBytes := m.framedBytes },
    m.watermark)

/-- `finish` -/
def finish (d : Dir) (s : ExternalSort) : Except Error (Dir × SortedRuns) := do
  let (d, s) ← s.spill d
  return (d, ⟨s.runs, s.runCounts, s.maxKeyLen, s.maxValLen⟩)

end ExternalSort

/-! ## Calls -/

/-- The calls before `finish`.  A sorter that is opened again takes the place of the one before. -/
inductive Call
  | push (r : Item)
  | flushRun
  | checkpoint (watermark : UInt64)
  | reopen (arenaBytes : ℕ) (expectedGeneration : UInt64)

/-- One call. -/
def Call.run : Dir × ExternalSort → Call → Except Error (Dir × ExternalSort)
  | (d, s), .push r => s.pushInner d r
  | (d, s), .flushRun => s.flushRun d
  | (d, s), .checkpoint watermark => s.checkpoint d watermark
  | (d, _), .reopen arenaBytes expectedGeneration => do
      let (s, _) ← ExternalSort.reopenDurable d arenaBytes expectedGeneration
      return (d, s)

/-- The calls of a sorter that starts with an arena of this size in a directory that may hold anything. -/
def runCalls (d : Dir) (arenaBytes : ℕ) (generation : Option UInt64) (calls : List Call) :
    Except Error (Dir × ExternalSort) :=
  calls.foldlM Call.run (d, ExternalSort.newInner arenaBytes generation)

/-- What `finish().iter()` yields after the calls. -/
def sortCalls (d : Dir) (arenaBytes : ℕ) (generation : Option UInt64) (calls : List Call) :
    Except Error (List Item) := do
  let (d, s) ← runCalls d arenaBytes generation calls
  let (d, runs) ← s.finish d
  let (_, it) ← runs.iter d
  it.collect

/-! ## What the calls leave to be sorted -/

/-- The records that are pushed, and those at the last checkpoint: a sorter that is opened again has the
latter. -/
def Call.keep : List Item × Option (List Item) → Call → Option (List Item × Option (List Item))
  | (pushed, last), .push r => some (pushed ++ [r], last)
  | (pushed, last), .flushRun => some (pushed, last)
  | (pushed, _), .checkpoint _ => some (pushed, some pushed)
  | (_, last), .reopen _ _ => last.map fun pushed => (pushed, some pushed)

/-- The records of the calls; none when there is no checkpoint to open. -/
def keptBy (calls : List Call) : Option (List Item × Option (List Item)) := calls.foldlM Call.keep ([], none)

/-! ## The invariant -/

/-- The length of what frames a list of records. -/
def framedTotal (rs : List Item) : ℕ := (rs.map Item.framedLen).sum

lemma length_le_framedTotal (rs : List Item) : rs.length ≤ framedTotal rs := by
  induction rs with
  | nil => simp
  | cons r rs ih =>
      simp only [framedTotal, List.map_cons, List.sum_cons, List.length_cons, Item.framedLen,
        scratchHeaderLen] at ih ⊢
      omega

/-- A sorter that has been given `pushed`: its runs are stored under their names, and sort, with the arena
after them, what was pushed. -/
structure Holds (d : Dir) (s : ExternalSort) (pushed : List Item) (runs pieces : List (List Item)) :
    Prop where
  stored : Stored d s.runs s.runCounts runs
  names : s.runs = (List.range s.runs.length).map (runName s.durableGeneration)
  nonempty : ∀ run ∈ runs, run ≠ []
  framed : ∀ r ∈ runs.flatten, r.Framed
  stable : List.Forall₂ (StableSort Item.key) runs pieces
  whole : pieces.flatten ++ s.arena = pushed
  keys : ∀ r ∈ pushed, r.key.length ≤ s.maxKeyLen
  vals : ∀ r ∈ pushed, r.val.length ≤ s.maxValLen
  records : s.records = pushed.length
  framedBytes : s.framedBytes = framedTotal pushed
  fits : framedTotal pushed < 2 ^ 64
  maxKeyLen : s.maxKeyLen ≤ framedTotal pushed
  maxValLen : s.maxValLen ≤ framedTotal pushed

section Steps

variable {d d' : Dir} {s s' : ExternalSort} {pushed : List Item} {runs pieces : List (List Item)} {r : Item}

lemma writeItems_ok {rs : List Item} {b : Bytes} (h : writeItems rs = .ok b) : ∀ r ∈ rs, r.Framed := by
  rw [writeItems, map_eq_ok] at h
  obtain ⟨bs, hbs, -⟩ := h
  clear b
  induction rs generalizing bs with
  | nil => simp
  | cons r rs ih =>
      simp only [List.mapM_cons, bind_eq_ok, pure_eq_ok] at hbs
      obtain ⟨b, hb, bs', hbs', -⟩ := hbs
      intro x hx
      rcases List.mem_cons.1 hx with rfl | hx
      · exact (writeItem_ok_iff.1 hb).1
      · exact ih bs' hbs' x hx

/-- The runs of a sorter, in order, are the pieces. -/
lemma Holds.perm (h : Holds d s pushed runs pieces) : runs.flatten.Perm pieces.flatten := by
  have hstable := h.stable
  clear h
  induction hstable with
  | nil => exact List.Perm.refl _
  | cons h1 _ ih => exact h1.perm.append ih

lemma Holds.mem_pushed (h : Holds d s pushed runs pieces) (hr : r ∈ runs.flatten) : r ∈ pushed := by
  rw [← h.whole]
  exact List.mem_append_left _ (h.perm.mem_iff.1 hr)

lemma Holds.length_le (h : Holds d s pushed runs pieces) : runs.flatten.length ≤ pushed.length := by
  rw [h.perm.length_eq, ← h.whole, List.length_append]
  omega

lemma Holds.length_lt (h : Holds d s pushed runs pieces) : pushed.length < 2 ^ 64 :=
  (length_le_framedTotal pushed).trans_lt h.fits

/-- Every run holds a record. -/
lemma Holds.runs_le (h : Holds d s pushed runs pieces) : s.runs.length ≤ pushed.length := by
  have hle : ∀ {runs : List (List Item)}, (∀ run ∈ runs, run ≠ []) → runs.length ≤ runs.flatten.length := by
    intro runs
    induction runs with
    | nil => simp
    | cons run runs ih =>
        intro hne
        have h1 := List.length_pos_of_ne_nil (hne run (by simp))
        have h2 := ih fun x hx => hne x (by simp [hx])
        rw [List.flatten_cons, List.length_append, List.length_cons]
        omega
  rw [h.stored.length_eq]
  exact (hle h.nonempty).trans h.length_le

lemma Holds.runs_lt (h : Holds d s pushed runs pieces) : s.runs.length < 2 ^ 64 :=
  h.runs_le.trans_lt h.length_lt

lemma Holds.readable (h : Holds d s pushed runs pieces) : Readable s.maxKeyLen s.maxValLen runs := by
  refine ⟨?_, h.framed, fun r hr => h.keys r (h.mem_pushed hr), fun r hr => h.vals r (h.mem_pushed hr)⟩
  have hstable := h.stable
  clear h
  induction hstable with
  | nil => simp
  | cons h1 _ ih =>
      intro run hrun
      rcases List.mem_cons.1 hrun with rfl | hrun
      · exact h1.sorted
      · exact ih run hrun

lemma Holds.mem_runs (h : Holds d s pushed runs pieces) {name : String} (hn : name ∈ s.runs) :
    ∃ i < s.runs.length, name = runName s.durableGeneration i := by
  rw [h.names] at hn
  obtain ⟨i, hi, rfl⟩ := List.mem_map.1 hn
  exact ⟨i, List.mem_range.1 hi, rfl⟩

/-- Files under names that the sorter does not use do not matter. -/
lemma Holds.congr (h : Holds d s pushed runs pieces)
    (hd : ∀ i < s.runs.length, d' (runName s.durableGeneration i) = d (runName s.durableGeneration i)) :
    Holds d' s pushed runs pieces := by
  refine { h with stored := h.stored.congr ?_ }
  intro name hn
  obtain ⟨i, hi, rfl⟩ := h.mem_runs hn
  exact hd i hi

/-- What `spill` does. -/
lemma spill_holds (h : Holds d s pushed runs pieces) (hs : s.spill d = .ok (d', s')) :
    (∃ runs pieces, Holds d' s' pushed runs pieces) ∧ s'.arena = [] ∧
      s'.durableGeneration = s.durableGeneration ∧ s.runs.length ≤ s'.runs.length ∧
      (s' = { s with arena := [], runs := s'.runs, runCounts := s'.runCounts, used := s'.used }) ∧
      ∀ name, (∀ i, s.runs.length ≤ i → name ≠ runName s.durableGeneration i) → d' name = d name := by
  rw [ExternalSort.spill] at hs
  split at hs
  · next hnil =>
      cases hs
      exact ⟨⟨runs, pieces, h⟩, hnil, rfl, le_rfl, by rw [← hnil], fun _ _ => rfl⟩
  · next hne =>
      simp only [bind_eq_ok, pure_eq_ok] at hs
      obtain ⟨b, hb, he⟩ := hs
      cases he
      have hframed := writeItems_ok hb
      rw [writeItems_framed hframed, Except.ok.injEq] at hb
      subst hb
      have hsort : StableSort Item.key (s.arena.mergeSort (keyLe Item.key)) s.arena := stable_mergeSort _
      have hnew : runName s.durableGeneration s.runs.length ∉ s.runs := by
        intro hn
        obtain ⟨i, hi, he⟩ := h.mem_runs hn
        exact absurd (runName_inj he) (by omega)
      refine ⟨⟨runs ++ [s.arena.mergeSort (keyLe Item.key)], pieces ++ [s.arena], ?_⟩, rfl, rfl, by simp,
        rfl, ?_⟩
      · refine { h with stored := ?_, names := ?_, nonempty := ?_, framed := ?_, stable := ?_, whole := ?_ }
        · refine (h.stored.congr ?_).append ⟨List.Forall₂.cons (Function.update_self _ _ _)
            List.Forall₂.nil, ?_⟩
          · intro name hn
            refine Function.update_of_ne ?_ _ _
            rintro rfl
            exact hnew hn
          · simp
        · simp only [List.length_append, List.length_singleton, List.range_succ, List.map_append,
            List.map_cons, List.map_nil]
          rw [← h.names]
        · intro run hrun
          rcases List.mem_append.1 hrun with hrun | hrun
          · exact h.nonempty run hrun
          · rw [List.mem_singleton] at hrun
            subst hrun
            intro hnil
            have hlen := congrArg List.length hnil
            rw [List.length_mergeSort, List.length_nil] at hlen
            exact hne (List.length_eq_zero_iff.1 hlen)
        · intro r hr
          rw [List.flatten_append, List.flatten_singleton, List.mem_append] at hr
          exact hr.elim (h.framed r) (hframed r)
        · exact List.rel_append h.stable (List.Forall₂.cons hsort List.Forall₂.nil)
        · rw [List.flatten_append, List.flatten_singleton, List.append_nil]
          exact h.whole
      · intro name hn
        exact Function.update_of_ne (hn _ le_rfl) _ _

/-- `spill` succeeds when the records of the arena fit their frames. -/
lemma spill_ok (hf : ∀ r ∈ s.arena, r.Framed) : ∃ d' s', s.spill d = .ok (d', s') := by
  rw [ExternalSort.spill]
  split
  · exact ⟨_, _, rfl⟩
  · have hb : writeItems (s.arena.mergeSort (keyLe Item.key)) = _ :=
      writeItems_framed fun r hr => hf r (List.mem_mergeSort.1 hr)
    simp only [hb]
    exact ⟨_, _, rfl⟩

@[simp] lemma framedTotal_append (rs : List Item) (r : Item) :
    framedTotal (rs ++ [r]) = framedTotal rs + r.framedLen := by
  simp [framedTotal]

/-- A record that is pushed. -/
lemma add_holds (h : Holds d s pushed runs pieces) (hfits : framedTotal pushed + r.framedLen < 2 ^ 64) :
    Holds d (s.add r) (pushed ++ [r]) runs pieces := by
  have hkey : r.key.length ≤ r.framedLen := by
    rw [Item.framedLen]
    omega
  have hval : r.val.length ≤ r.framedLen := by
    rw [Item.framedLen]
    omega
  have hk := h.maxKeyLen
  have hv := h.maxValLen
  refine ⟨h.stored, h.names, h.nonempty, h.framed, h.stable, ?_, ?_, ?_, ?_, ?_, ?_, ?_, ?_⟩
  · rw [ExternalSort.add, ← List.append_assoc, h.whole]
  · intro x hx
    rcases List.mem_append.1 hx with hx | hx
    · exact (h.keys x hx).trans (le_max_left _ _)
    · rw [List.mem_singleton.1 hx]
      exact le_max_right _ _
  · intro x hx
    rcases List.mem_append.1 hx with hx | hx
    · exact (h.vals x hx).trans (le_max_left _ _)
    · rw [List.mem_singleton.1 hx]
      exact le_max_right _ _
  · rw [ExternalSort.add, h.records, List.length_append, List.length_singleton]
  · rw [ExternalSort.add, h.framedBytes, framedTotal_append]
  · rwa [framedTotal_append]
  · rw [ExternalSort.add, framedTotal_append]
    exact max_le (by omega) (by omega)
  · rw [ExternalSort.add, framedTotal_append]
    exact max_le (by omega) (by omega)

/-- What a call keeps of the files: those under names of runs that the sorter already has. -/
structure Extends (d : Dir) (s : ExternalSort) (d' : Dir) (s' : ExternalSort) : Prop where
  generation : s'.durableGeneration = s.durableGeneration
  runs : s.runs.length ≤ s'.runs.length
  files : ∀ name, (∀ i, s.runs.length ≤ i → name ≠ runName s.durableGeneration i) → d' name = d name

/-- What `push_inner` does. -/
lemma push_holds (h : Holds d s pushed runs pieces) (hp : s.pushInner d r = .ok (d', s')) :
    (∃ runs pieces, Holds d' s' (pushed ++ [r]) runs pieces) ∧ Extends d s d' s' := by
  simp only [ExternalSort.pushInner, bind_eq_ok, refuse_eq_ok, not_le, exists_and_left, exists_const] at hp
  obtain ⟨-, hbytes, hp⟩ := hp
  rw [h.framedBytes] at hbytes
  have hadd := add_holds h hbytes
  split at hp
  · obtain ⟨hholds, -, hgen, hruns, -, hfiles⟩ := spill_holds hadd hp
    exact ⟨hholds, hgen, hruns, hfiles⟩
  · cases hp
    exact ⟨⟨runs, pieces, hadd⟩, rfl, le_rfl, fun _ _ => rfl⟩

lemma push_ok (h : Holds d s pushed runs pieces) (hfits : framedTotal pushed + r.framedLen < 2 ^ 64)
    (hf : ∀ x ∈ s.arena ++ [r], x.Framed) : ∃ d' s', s.pushInner d r = .ok (d', s') := by
  have hle := length_le_framedTotal (pushed ++ [r])
  rw [framedTotal_append, List.length_append, List.length_singleton] at hle
  rw [ExternalSort.pushInner, h.records, h.framedBytes, refuse, if_neg (by omega), refuse, if_neg (by omega)]
  simp only [bind, Except.bind]
  split
  · exact spill_ok hf
  · exact ⟨_, _, rfl⟩

/-- A manifest of `g` is published, of a sorter that had been given `p` and had at most `n` runs. -/
def Published (d : Dir) (g : UInt64) (p : List Item) (n : ℕ) : Prop :=
  ∃ s watermark runs pieces bytes, Holds d s p runs pieces ∧ s.arena = [] ∧
    s.durableGeneration = some g ∧ s.runs.length ≤ n ∧ d "manifest" = some bytes ∧
    manifestBytes g.toNat (s.manifest watermark) = .ok bytes

/-- The manifest takes at most 56 bytes for each record. -/
lemma Published.length_le {g : UInt64} {p : List Item} {n : ℕ} {bytes : Bytes} (h : Published d g p n)
    (hd : d "manifest" = some bytes) : bytes.length ≤ 68 + 56 * p.length := by
  obtain ⟨s0, w, runs, pieces, written, hholds, -, hgen, -, hd', hb⟩ := h
  obtain rfl : written = bytes := Option.some.inj (hd'.symm.trans hd)
  have hname : ∀ run ∈ (s0.manifest w).runs, (nameBytes run).length ≤ 46 := by
    intro run hr
    obtain ⟨i, hi, rfl⟩ := hholds.mem_runs hr
    rw [hgen]
    exact length_runName_le (hi.trans hholds.runs_lt)
  have hbytes : manifestBytes g.toNat (s0.manifest w) = _ :=
    manifestBytes_eq fun run hr => (hname run hr).trans_lt (by decide)
  rw [hbytes] at hb
  cases hb
  have hentries := length_entries_le (l := (s0.manifest w).runs.zip (s0.manifest w).runCounts)
    fun run hr => hname run.1 (List.of_mem_zip hr).1
  have hzip : ((s0.manifest w).runs.zip (s0.manifest w).runCounts).length ≤ s0.runs.length :=
    (List.length_zip ..).trans_le (Nat.min_le_left _ _)
  have hruns := hholds.runs_le
  rw [List.length_append, length_manifestBody, length_leBytes]
  omega

lemma Published.extends {g : UInt64} {p : List Item} (h : Published d g p s.runs.length)
    (hg : s.durableGeneration = some g) (he : Extends d s d' s') : Published d' g p s'.runs.length := by
  obtain ⟨s0, w, runs, pieces, bytes, hholds, harena, hgen, hn, hd, hb⟩ := h
  refine ⟨s0, w, runs, pieces, bytes, hholds.congr ?_, harena, hgen, hn.trans he.runs, ?_, hb⟩
  · intro i hi
    refine he.files _ fun j hj hij => ?_
    rw [hg, hgen] at hij
    exact absurd (runName_inj hij) (by omega)
  · rw [← hd]
    exact he.files _ fun j _ => (manifest_ne_runName _).1

lemma Stored.file_ne_none {names : List String} {counts : List ℕ} (h : Stored d names counts runs)
    {name : String} (hn : name ∈ names) : d name ≠ none := by
  have hfiles := h.files
  clear h
  induction hfiles with
  | nil => cases hn
  | cons hfile _ ih =>
      rcases List.mem_cons.1 hn with rfl | hn
      · rw [hfile]
        exact Option.some_ne_none _
      · exact ih hn

/-- What is published of a sorter fits its manifest. -/
lemma Holds.publishable {g watermark : UInt64} (h : Holds d s pushed runs pieces) (harena : s.arena = [])
    (hg : s.durableGeneration = some g) : Publishable d g.toNat (s.manifest watermark) := by
  have hrecords := h.length_lt
  have hfits := h.fits
  refine ⟨?_, ?_, ?_, ?_⟩
  · intro n hn
    simp only [manifestNumbers, ExternalSort.manifest, List.mem_cons, List.not_mem_nil, or_false] at hn
    rcases hn with rfl | rfl | rfl | rfl | rfl | rfl | rfl
    · exact g.toNat_lt
    · exact watermark.toNat_lt
    · rw [h.records]
      exact hrecords
    · rw [h.framedBytes]
      exact hfits
    · exact h.maxKeyLen.trans_lt hfits
    · exact h.maxValLen.trans_lt hfits
    · exact h.runs_lt
  · rw [ExternalSort.manifest, h.stored.counts, List.length_map]
    exact h.stored.length_eq
  · rw [ExternalSort.manifest, h.stored.counts, h.records, ← List.length_flatten, h.perm.length_eq,
      ← h.whole, harena, List.append_nil]
  · intro name hn
    have hfile := h.stored.file_ne_none hn
    have hlt := h.runs_lt
    obtain ⟨i, hi, rfl⟩ := h.mem_runs hn
    rw [hg] at hfile ⊢
    exact named_runName (by omega) hfile

/-- What `checkpoint` does. -/
lemma checkpoint_holds {watermark : UInt64} (h : Holds d s pushed runs pieces)
    (hc : s.checkpoint d watermark = .ok (d', s')) :
    (∃ runs pieces, Holds d' s' pushed runs pieces) ∧ s'.durableGeneration = s.durableGeneration ∧
      ∃ g, s.durableGeneration = some g ∧ Published d' g pushed s'.runs.length := by
  simp only [ExternalSort.checkpoint, bind_eq_ok, orElse_eq_ok, pure_eq_ok] at hc
  obtain ⟨g, hg, ⟨d1, s1⟩, hspill, d2, hwrite, he⟩ := hc
  cases he
  obtain ⟨⟨runs1, pieces1, h1⟩, harena, hgen, -, -, -⟩ := spill_holds h hspill
  simp only [writeSortManifest, bind_eq_ok, pure_eq_ok] at hwrite
  obtain ⟨bytes, hbytes, rfl⟩ := hwrite
  have h2 : Holds (Function.update (Function.update (Function.update d1 "manifest.tmp" (some bytes))
      "manifest" (some bytes)) "manifest.tmp" none) s1 pushed runs1 pieces1 := by
    refine h1.congr fun i _ => ?_
    obtain ⟨hm, ht⟩ := manifest_ne_runName s1.durableGeneration (i := i)
    rw [Function.update_of_ne ht.symm, Function.update_of_ne hm.symm, Function.update_of_ne ht.symm]
  refine ⟨⟨runs1, pieces1, h2⟩, hgen, g, hg, s1, watermark, runs1, pieces1, bytes, h2, harena,
    hgen.trans hg, le_rfl, ?_, hbytes⟩
  rw [Function.update_of_ne (by decide), Function.update_self]

lemma checkpoint_ok {watermark g : UInt64} (h : Holds d s pushed runs pieces)
    (hf : ∀ x ∈ s.arena, x.Framed) (hg : s.durableGeneration = some g) :
    ∃ d' s', s.checkpoint d watermark = .ok (d', s') := by
  obtain ⟨d1, s1, hspill⟩ := spill_ok (d := d) hf
  obtain ⟨⟨runs1, pieces1, h1⟩, harena, hgen, -, -, -⟩ := spill_holds h hspill
  have hpub : Publishable d1 g.toNat (s1.manifest watermark) := h1.publishable harena (hgen.trans hg)
  have hbytes : manifestBytes g.toNat (s1.manifest watermark) = _ :=
    manifestBytes_eq fun run hr => (hpub.named run hr).short
  rw [ExternalSort.checkpoint, hg]
  simp only [orElse, bind, Except.bind, hspill, writeSortManifest, hbytes]
  exact ⟨_, _, rfl⟩

/-- What `reopen_durable` does with a published manifest. -/
lemma reopen_published {g e : UInt64} {n arenaBytes watermark : ℕ} (h : Published d g pushed n)
    (hr : ExternalSort.reopenDurable d arenaBytes e = .ok (s', watermark)) :
    e = g ∧ s'.durableGeneration = some g ∧ (∃ runs pieces, Holds d s' pushed runs pieces) ∧
      Published d g pushed s'.runs.length := by
  obtain ⟨s0, w, runs, pieces, bytes, hholds, harena, hgen, -, hd, hb⟩ := h
  simp only [ExternalSort.reopenDurable, bind_eq_ok, pure_eq_ok] at hr
  obtain ⟨m, hm, he⟩ := hr
  have hmax : bytes.length ≤ sortManifestMax := by
    by_contra hlong
    rw [readSortManifest_long hd (not_le.1 hlong)] at hm
    cases hm
  rw [readSortManifest_manifest (hholds.publishable harena hgen) hd hb hmax] at hm
  split at hm
  · next hge =>
      have heg : e = g := (UInt64.toNat_inj.1 hge).symm
      cases hm
      cases he
      subst heg
      have hwhole := hholds.whole
      rw [harena] at hwhole
      refine ⟨rfl, rfl, ⟨runs, pieces, ?_⟩, s0, w, runs, pieces, bytes, hholds, harena, hgen, le_rfl, hd, hb⟩
      exact ⟨hholds.stored, hgen ▸ hholds.names, hholds.nonempty, hholds.framed, hholds.stable,
        hwhole, hholds.keys, hholds.vals, hholds.records, hholds.framedBytes, hholds.fits,
        hholds.maxKeyLen, hholds.maxValLen⟩
  · cases hm

lemma reopen_ok {g : UInt64} {n arenaBytes : ℕ} (h : Published d g pushed n)
    (hmax : ∀ bytes, d "manifest" = some bytes → bytes.length ≤ sortManifestMax) :
    ∃ s' watermark, ExternalSort.reopenDurable d arenaBytes g = .ok (s', watermark) := by
  obtain ⟨s0, w, runs, pieces, bytes, hholds, harena, hgen, -, hd, hb⟩ := h
  rw [ExternalSort.reopenDurable,
    readSortManifest_manifest (hholds.publishable harena hgen) hd hb (hmax bytes hd), if_pos rfl]
  exact ⟨_, _, rfl⟩

end Steps

/-! ## Runs of calls -/

/-- A session after some calls: what is kept of them, and what was published last. -/
structure Session (generation : Option UInt64) (st : Dir × ExternalSort)
    (kept : List Item × Option (List Item)) : Prop where
  holds : ∃ runs pieces, Holds st.1 st.2 kept.1 runs pieces
  durable : st.2.durableGeneration = generation
  last : ∀ p, kept.2 = some p → ∃ g, generation = some g ∧ Published st.1 g p st.2.runs.length

/-- What a call needs to succeed: a record that fits its frame, counts that fit a `u64`, a durable sorter for
a checkpoint, and to open it again its generation and a manifest that is not too long. -/
def Call.Fits (generation : Option UInt64) (d : Dir) (pushed : List Item) : Call → Prop
  | .push r => r.Framed ∧ framedTotal pushed + r.framedLen < 2 ^ 64
  | .flushRun => True
  | .checkpoint _ => generation ≠ none
  | .reopen _ expected => generation = some expected ∧
      ∀ bytes, d "manifest" = some bytes → bytes.length ≤ sortManifestMax

section Calls

variable {generation : Option UInt64} {st st' : Dir × ExternalSort} {c : Call}
  {kept kept' : List Item × Option (List Item)}

lemma Session.extends {d : Dir} {s : ExternalSort} {pushed : List Item}
    (h : Session generation st kept) (he : Extends st.1 st.2 d s)
    (hh : ∃ runs pieces, Holds d s pushed runs pieces) : Session generation (d, s) (pushed, kept.2) := by
  refine ⟨hh, he.generation.trans h.durable, ?_⟩
  intro p hp
  obtain ⟨g, hg, hpub⟩ := h.last p hp
  exact ⟨g, hg, hpub.extends (h.durable.trans hg) he⟩

/-- **One call.** -/
lemma Session.step (h : Session generation st kept) (hk : c.keep kept = some kept')
    (hr : c.run st = .ok st') : Session generation st' kept' := by
  obtain ⟨d, s⟩ := st
  obtain ⟨d', s'⟩ := st'
  obtain ⟨pushed, last⟩ := kept
  obtain ⟨runs, pieces, hholds⟩ := h.holds
  cases c with
  | push r =>
      cases hk
      obtain ⟨hh, he⟩ := push_holds hholds hr
      exact h.extends he hh
  | flushRun =>
      cases hk
      obtain ⟨hh, -, hgen, hruns, -, hfiles⟩ := spill_holds hholds hr
      exact h.extends ⟨hgen, hruns, hfiles⟩ hh
  | checkpoint watermark =>
      cases hk
      obtain ⟨hh, hgen, g, hg, hpub⟩ := checkpoint_holds hholds hr
      refine ⟨hh, hgen.trans h.durable, ?_⟩
      intro p hp
      cases hp
      exact ⟨g, h.durable.symm.trans hg, hpub⟩
  | reopen arenaBytes expected =>
      simp only [Call.keep, Option.map_eq_some_iff] at hk
      obtain ⟨p, hp, hk⟩ := hk
      cases hk
      obtain ⟨g, hg, hpub⟩ := h.last p hp
      simp only [Call.run, bind_eq_ok, pure_eq_ok, Prod.exists] at hr
      obtain ⟨s1, w, hopen, he⟩ := hr
      cases he
      obtain ⟨-, hgen, hh, hpub'⟩ := reopen_published hpub hopen
      refine ⟨hh, hgen.trans hg.symm, ?_⟩
      intro q hq
      cases hq
      exact ⟨g, hg, hpub'⟩

/-- A call that fits succeeds. -/
lemma Session.progress (h : Session generation st kept) (hf : ∀ r ∈ kept.1, r.Framed)
    (hk : c.keep kept = some kept') (hc : c.Fits generation st.1 kept.1) : ∃ st', c.run st = .ok st' := by
  obtain ⟨d, s⟩ := st
  obtain ⟨pushed, last⟩ := kept
  obtain ⟨runs, pieces, hholds⟩ := h.holds
  have harena : ∀ r ∈ s.arena, r.Framed := by
    intro r hr
    refine hf r ?_
    have hwhole : pieces.flatten ++ s.arena = pushed := hholds.whole
    rw [← hwhole]
    exact List.mem_append_right _ hr
  cases c with
  | push r =>
      obtain ⟨hr, hfits⟩ := hc
      have hall : ∀ x ∈ s.arena ++ [r], x.Framed := by
        intro x hx
        rcases List.mem_append.1 hx with hx | hx
        · exact harena x hx
        · rwa [List.mem_singleton.1 hx]
      obtain ⟨d', s', hp⟩ := push_ok hholds hfits hall
      exact ⟨_, hp⟩
  | flushRun =>
      obtain ⟨d', s', hs⟩ := spill_ok (d := d) harena
      exact ⟨_, hs⟩
  | checkpoint watermark =>
      obtain ⟨g, hg⟩ := Option.ne_none_iff_exists'.1 hc
      obtain ⟨d', s', hs⟩ := checkpoint_ok hholds harena (h.durable.trans hg)
      exact ⟨_, hs⟩
  | reopen arenaBytes expected =>
      simp only [Call.keep, Option.map_eq_some_iff] at hk
      obtain ⟨p, hp, -⟩ := hk
      obtain ⟨g, hg, hpub⟩ := h.last p hp
      obtain ⟨hexp, hmax⟩ := hc
      obtain rfl : expected = g := Option.some_inj.1 (hexp.symm.trans hg)
      have hopen : ∃ s' w, ExternalSort.reopenDurable d arenaBytes expected = .ok (s', w) :=
        reopen_ok hpub hmax
      obtain ⟨s', w, ho⟩ := hopen
      refine ⟨(d, s'), ?_⟩
      simp only [Call.run, bind, Except.bind, ho]
      rfl

variable {d : Dir} {arenaBytes : ℕ} {calls : List Call}

/-- A new sorter. -/
lemma Session.new : Session generation (d, ExternalSort.newInner arenaBytes generation) ([], none) := by
  refine ⟨⟨[], [], ?_⟩, rfl, by simp⟩
  exact ⟨⟨List.Forall₂.nil, rfl⟩, rfl, by simp, by simp, List.Forall₂.nil, rfl, by simp, by simp, rfl, rfl,
    by simp [framedTotal], le_rfl, le_rfl⟩

/-- **A run of calls**, by induction from its end. -/
lemma session_runCalls (hk : keptBy calls = some kept)
    (hr : runCalls d arenaBytes generation calls = .ok st) : Session generation st kept := by
  induction calls using List.reverseRecOn generalizing kept st with
  | nil =>
      cases hk
      cases hr
      exact Session.new
  | append_singleton calls c ih =>
      simp only [keptBy, List.foldlM_append, List.foldlM_cons, List.foldlM_nil, Option.bind_eq_bind,
        Option.bind_eq_some_iff] at hk
      simp only [runCalls, List.foldlM_append, List.foldlM_cons, List.foldlM_nil, bind_eq_ok,
        pure_eq_ok] at hr
      obtain ⟨kept1, hk1, kept2, hk2, hk⟩ := hk
      obtain ⟨st1, hr1, st2, hr2, rfl⟩ := hr
      cases hk
      exact (ih hk1 hr1).step hk2 hr2

/-- Every call of the list fits where it is made. -/
def AllFit (d : Dir) (arenaBytes : ℕ) (generation : Option UInt64) (calls : List Call) : Prop :=
  ∀ before c after, calls = before ++ c :: after → ∀ kept st, keptBy before = some kept →
    runCalls d arenaBytes generation before = .ok st → c.Fits generation st.1 kept.1

lemma AllFit.nil : AllFit d arenaBytes generation [] := by
  rintro before c after h
  cases before <;> cases h

/-- The calls fit one after another. -/
lemma allFit_snoc : AllFit d arenaBytes generation (calls ++ [c]) ↔ AllFit d arenaBytes generation calls
    ∧ ∀ kept st, keptBy calls = some kept → runCalls d arenaBytes generation calls = .ok st →
      c.Fits generation st.1 kept.1 := by
  constructor
  · intro h
    refine ⟨?_, fun kept st => h calls c [] rfl kept st⟩
    rintro before c' after rfl
    exact h before c' (after ++ [c]) (by simp)
  · rintro ⟨h, hc⟩ before c' after heq
    rcases List.eq_nil_or_concat after with rfl | ⟨after, last, rfl⟩
    · obtain ⟨rfl, hlast⟩ := List.append_inj' heq rfl
      cases hlast
      exact hc
    · rw [List.concat_eq_append, ← List.cons_append, ← List.append_assoc] at heq
      exact h before c' after (List.append_inj' heq rfl).1

/-- A sorter of few records is always opened again. -/
lemma reopen_fits {p : List Item} {g : UInt64} {arenaBytes' : ℕ} (hk : keptBy calls = some (kept.1, some p))
    (hr : runCalls d arenaBytes (some g) calls = .ok st) (hp : 68 + 56 * p.length ≤ sortManifestMax) :
    Call.Fits (some g) st.1 kept.1 (.reopen arenaBytes' g) := by
  obtain ⟨g', hg, hpub⟩ := (session_runCalls hk hr).last p rfl
  cases hg
  exact ⟨rfl, fun bytes hd => (hpub.length_le hd).trans hp⟩

/-- Records that are kept have been framed. -/
lemma keep_framed (hk : c.keep kept = some kept') (hf : ∀ r ∈ kept.1, r.Framed)
    (hl : ∀ p, kept.2 = some p → ∀ r ∈ p, r.Framed) (hc : c.Fits generation d kept.1) :
    (∀ r ∈ kept'.1, r.Framed) ∧ ∀ p, kept'.2 = some p → ∀ r ∈ p, r.Framed := by
  obtain ⟨pushed, last⟩ := kept
  cases c with
  | push r =>
      cases hk
      refine ⟨?_, hl⟩
      intro x hx
      rcases List.mem_append.1 hx with hx | hx
      · exact hf x hx
      · rw [List.mem_singleton.1 hx]
        exact hc.1
  | flushRun =>
      cases hk
      exact ⟨hf, hl⟩
  | checkpoint watermark =>
      cases hk
      refine ⟨hf, ?_⟩
      intro p hp
      cases hp
      exact hf
  | reopen arenaBytes expected =>
      simp only [Call.keep, Option.map_eq_some_iff] at hk
      obtain ⟨p, hp, hk⟩ := hk
      cases hk
      refine ⟨hl p hp, ?_⟩
      intro q hq
      cases hq
      exact hl p hp

/-- **Calls that fit succeed.** -/
lemma runCalls_ok (hk : keptBy calls = some kept) (hfit : AllFit d arenaBytes generation calls) :
    (∃ st, runCalls d arenaBytes generation calls = .ok st) ∧ (∀ r ∈ kept.1, r.Framed) ∧
      ∀ p, kept.2 = some p → ∀ r ∈ p, r.Framed := by
  induction calls using List.reverseRecOn generalizing kept with
  | nil =>
      cases hk
      exact ⟨⟨_, rfl⟩, by simp, by simp⟩
  | append_singleton calls c ih =>
      simp only [keptBy, List.foldlM_append, List.foldlM_cons, List.foldlM_nil, Option.bind_eq_bind,
        Option.bind_eq_some_iff] at hk
      obtain ⟨kept1, hk1, kept2, hk2, hk⟩ := hk
      cases hk
      obtain ⟨hbefore, hlast⟩ := allFit_snoc.1 hfit
      obtain ⟨⟨st, hst⟩, hf, hl⟩ := ih hk1 hbefore
      have hc := hlast kept1 st hk1 hst
      obtain ⟨st', hst'⟩ := (session_runCalls hk1 hst).progress hf hk2 hc
      refine ⟨⟨st', ?_⟩, keep_framed hk2 hf hl hc⟩
      simp only [runCalls, List.foldlM_append, List.foldlM_cons, List.foldlM_nil] at hst ⊢
      rw [hst]
      simp only [bind, Except.bind, hst']
      rfl

/-- What is merged in the end. -/
lemma finish_holds {s : ExternalSort} {pushed : List Item} {runs pieces : List (List Item)} {d' : Dir}
    {sorted : SortedRuns} (h : Holds d s pushed runs pieces) (hs : s.finish d = .ok (d', sorted)) :
    ∃ d'' it out, sorted.iter d' = .ok (d'', it) ∧ it.collect = .ok out ∧ StableSort Item.key out pushed := by
  simp only [ExternalSort.finish, bind_eq_ok, pure_eq_ok] at hs
  obtain ⟨⟨d1, s1⟩, hspill, he⟩ := hs
  cases he
  obtain ⟨⟨runs1, pieces1, h1⟩, harena, -, -, -, -⟩ := spill_holds h hspill
  have hfresh : Fresh 0 s1.runs := by
    refine ⟨?_, ?_⟩
    · rw [h1.names]
      exact List.nodup_range.map fun i j hij => runName_inj hij
    · intro p n g _ hn
      obtain ⟨i, -, he⟩ := h1.mem_runs hn
      exact passName_ne_runName _ p n he
  obtain ⟨d2, it, out, hiter, hout, hstable⟩ := iter_stored
    (s := ⟨s1.runs, s1.runCounts, s1.maxKeyLen, s1.maxValLen⟩) h1.stored hfresh h1.readable
    (h1.length_le.trans_lt h1.length_lt)
  refine ⟨d2, it, out, hiter, hout, ?_⟩
  have hwhole := h1.whole
  rw [harena, List.append_nil] at hwhole
  exact hwhole ▸ hstable.flatten h1.stable

/-- **What the sort returns is the stable sort of the records**, wherever runs are cut and checkpoints are
made and opened again; and it returns it when every call fits.  `Holds` ties a sorter to the records pushed so
far: they are its pieces, one after another, and each run in a file is the stable sort of its piece, so that
the merge has only to be stable between runs. -/
theorem sort_calls {pushed : List Item} {last : Option (List Item)}
    (hk : keptBy calls = some (pushed, last)) :
    (∀ out, sortCalls d arenaBytes generation calls = .ok out →
      StableSort Item.key out pushed ∧ out.Perm pushed) ∧
    (AllFit d arenaBytes generation calls → ∃ out, sortCalls d arenaBytes generation calls = .ok out) := by
  constructor
  · intro out hout
    simp only [sortCalls, bind_eq_ok] at hout
    obtain ⟨⟨d1, s1⟩, hrun, ⟨d2, sorted⟩, hfinish, ⟨d3, it⟩, hiter, hcollect⟩ := hout
    obtain ⟨runs, pieces, hholds⟩ := (session_runCalls hk hrun).holds
    obtain ⟨d4, it', out', hiter', hcollect', hstable⟩ := finish_holds hholds hfinish
    rw [hiter] at hiter'
    cases hiter'
    rw [hcollect] at hcollect'
    cases hcollect'
    exact ⟨hstable, hstable.perm⟩
  · intro hfit
    obtain ⟨⟨⟨d1, s1⟩, hrun⟩, hframed, -⟩ := runCalls_ok hk hfit
    obtain ⟨runs, pieces, hholds⟩ := (session_runCalls hk hrun).holds
    have harena : ∀ r ∈ s1.arena, r.Framed := by
      intro r hr
      refine hframed r ?_
      have hwhole : pieces.flatten ++ s1.arena = pushed := hholds.whole
      show r ∈ pushed
      rw [← hwhole]
      exact List.mem_append_right _ hr
    obtain ⟨d2, s2, hspill⟩ := spill_ok (d := d1) harena
    have hfinish : s1.finish d1 = .ok (d2, ⟨s2.runs, s2.runCounts, s2.maxKeyLen, s2.maxValLen⟩) := by
      rw [ExternalSort.finish, hspill]
      rfl
    obtain ⟨d3, it, out, hiter, hcollect, -⟩ := finish_holds hholds hfinish
    refine ⟨out, ?_⟩
    rw [sortCalls, hrun]
    simp only [bind, Except.bind, hfinish, hiter, hcollect]

/-- Two records, a checkpoint, a record that is given up, and the sorter opened again: the two are sorted. -/
theorem sort_calls_reopened :
    sortCalls (fun _ => none) 1 (some 7) [.push ⟨[2], [], false⟩, .push ⟨[1], [], true⟩, .checkpoint 5,
      .push ⟨[0], [], false⟩, .reopen 64 7] = .ok [⟨[1], [], true⟩, ⟨[2], [], false⟩] := by
  have h0 : AllFit (fun _ => none) 1 (some 7) [] := .nil
  have h1 : AllFit (fun _ => none) 1 (some 7) ([] ++ [.push ⟨[2], [], false⟩]) :=
    allFit_snoc.2 ⟨h0, fun kept st hk _ => by cases hk; exact ⟨by simp [Item.Framed], by decide⟩⟩
  have h2 : AllFit (fun _ => none) 1 (some 7)
      ([.push ⟨[2], [], false⟩] ++ [.push ⟨[1], [], true⟩]) :=
    allFit_snoc.2 ⟨h1, fun kept st hk _ => by cases hk; exact ⟨by simp [Item.Framed], by decide⟩⟩
  have h3 : AllFit (fun _ => none) 1 (some 7)
      ([.push ⟨[2], [], false⟩, .push ⟨[1], [], true⟩] ++ [.checkpoint 5]) :=
    allFit_snoc.2 ⟨h2, fun kept st hk _ => by simp [Call.Fits]⟩
  have h4 : AllFit (fun _ => none) 1 (some 7)
      ([.push ⟨[2], [], false⟩, .push ⟨[1], [], true⟩, .checkpoint 5] ++ [.push ⟨[0], [], false⟩]) :=
    allFit_snoc.2 ⟨h3, fun kept st hk _ => by cases hk; exact ⟨by simp [Item.Framed], by decide⟩⟩
  have h5 : AllFit (fun _ => none) 1 (some 7) ([.push ⟨[2], [], false⟩, .push ⟨[1], [], true⟩,
      .checkpoint 5, .push ⟨[0], [], false⟩] ++ [.reopen 64 7]) :=
    allFit_snoc.2 ⟨h4, fun kept st hk hr => by cases hk; exact reopen_fits rfl hr (by decide)⟩
  obtain ⟨hsorted, hall⟩ := sort_calls
    (show keptBy [.push ⟨[2], [], false⟩, .push ⟨[1], [], true⟩, .checkpoint 5, .push ⟨[0], [], false⟩,
        .reopen 64 7] = some ([⟨[2], [], false⟩, ⟨[1], [], true⟩],
      some [⟨[2], [], false⟩, ⟨[1], [], true⟩]) from rfl)
  obtain ⟨out, hout⟩ := hall h5
  obtain ⟨hstable, hperm⟩ := hsorted out hout
  refine hout.trans (congrArg Except.ok ?_)
  have hsame : ∀ x ∈ ([⟨[1], [], true⟩, ⟨[2], [], false⟩] : List Item),
      ∀ y ∈ ([⟨[1], [], true⟩, ⟨[2], [], false⟩] : List Item), x.key = y.key → x = y := by decide
  have hswap := hperm.trans (List.Perm.swap _ _ _)
  exact List.Perm.eq_of_pairwise (fun x y hx hy hxy hyx =>
    hsame x (hswap.mem_iff.1 hx) y hy (le_antisymm hxy hyx)) hstable.sorted (by decide) hswap

/-! ### A manifest that cannot be read back -/

lemma push_spills {s s' : ExternalSort} {d' : Dir} {r : Item} (h0 : s.arenaBytes = 0)
    (hp : s.pushInner d r = .ok (d', s')) : s'.arenaBytes = 0 ∧ s'.runs.length = s.runs.length + 1 := by
  simp only [ExternalSort.pushInner, bind_eq_ok, refuse_eq_ok, exists_and_left, exists_const] at hp
  obtain ⟨-, -, hp⟩ := hp
  rw [if_pos (by rw [ExternalSort.add, h0]; exact Nat.zero_le _), ExternalSort.spill,
    if_neg (by simp [ExternalSort.add])] at hp
  simp only [bind_eq_ok, pure_eq_ok] at hp
  obtain ⟨b, -, he⟩ := hp
  cases he
  exact ⟨h0, by simp [ExternalSort.add]⟩

/-- With no arena, every record becomes a run. -/
lemma runCalls_replicate {r : Item} (hr : r.Framed) (n : ℕ) : n * r.framedLen < 2 ^ 64 →
    keptBy (List.replicate n (.push r)) = some (List.replicate n r, none) ∧
    ∃ st, runCalls d 0 generation (List.replicate n (.push r)) = .ok st ∧ st.2.arenaBytes = 0 ∧
      st.2.runs.length = n := by
  induction n with
  | zero =>
      intro _
      exact ⟨rfl, _, rfl, rfl, rfl⟩
  | succ n ih =>
      intro hn
      rw [Nat.succ_mul] at hn
      obtain ⟨hk, st, hst, h0, hlen⟩ := ih (by omega)
      have htotal : framedTotal (List.replicate n r) = n * r.framedLen := by simp [framedTotal]
      have hsession := session_runCalls hk hst
      have hcall : Call.Fits generation st.1 (List.replicate n r) (.push r) := ⟨hr, by rw [htotal]; omega⟩
      obtain ⟨st', hst'⟩ := hsession.progress (c := .push r)
        (fun x hx => by rw [List.eq_of_mem_replicate hx]; exact hr) rfl hcall
      rw [List.replicate_succ']
      refine ⟨?_, st', ?_, ?_⟩
      · simp only [keptBy] at hk ⊢
        rw [List.foldlM_append, hk, List.replicate_succ']
        rfl
      · simp only [runCalls] at hst ⊢
        rw [List.foldlM_append, hst]
        simp only [bind, Except.bind, List.foldlM_cons, List.foldlM_nil, hst']
        rfl
      · obtain ⟨h1, h2⟩ := push_spills h0 hst'
        exact ⟨h1, by rw [h2, hlen]⟩

/-- Every run takes at least 41 bytes of the manifest. -/
lemma checkpoint_long {s s' : ExternalSort} {d' : Dir} {pushed : List Item} {runs pieces : List (List Item)}
    {watermark : UInt64} (h : Holds d s pushed runs pieces)
    (hc : s.checkpoint d watermark = .ok (d', s')) :
    ∃ bytes, d' "manifest" = some bytes ∧ 41 * s.runs.length < bytes.length := by
  simp only [ExternalSort.checkpoint, bind_eq_ok, orElse_eq_ok, pure_eq_ok] at hc
  obtain ⟨g, hg, ⟨d1, s1⟩, hspill, d2, hwrite, he⟩ := hc
  cases he
  obtain ⟨⟨runs1, pieces1, h1⟩, harena, hgen, hruns, -, -⟩ := spill_holds h hspill
  have hpub : Publishable d1 g.toNat (s1.manifest watermark) := h1.publishable harena (hgen.trans hg)
  have hbytes : manifestBytes g.toNat (s1.manifest watermark) = _ :=
    manifestBytes_eq fun run hr => (hpub.named run hr).short
  rw [writeSortManifest, hbytes] at hwrite
  cases hwrite
  refine ⟨_, by rw [Function.update_of_ne (by decide), Function.update_self], ?_⟩
  have hzip : ((s1.manifest watermark).runs.zip (s1.manifest watermark).runCounts).length
      = s1.runs.length := by
    rw [List.length_zip, ← hpub.counts, Nat.min_self]
    rfl
  have hentries := le_length_entries (c := 31)
    (l := (s1.manifest watermark).runs.zip (s1.manifest watermark).runCounts) ?_
  · rw [hzip] at hentries
    rw [List.length_append, length_manifestBody, length_leBytes]
    omega
  · intro run hr
    obtain ⟨i, -, he⟩ := h1.mem_runs (List.of_mem_zip hr).1
    rw [he, hgen, hg, length_runName]
    omega

/-- **More runs than a manifest holds are published, and cannot be opened again**: half a million records,
each in a run of its own. -/
theorem sortCalls_long :
    let r : Item := ⟨[], [], false⟩
    let calls : List Call := List.replicate (2 ^ 19) (.push r) ++ [.checkpoint 0, .reopen 0 0]
    keptBy calls = some (List.replicate (2 ^ 19) r, some (List.replicate (2 ^ 19) r)) ∧
    sortCalls (fun _ => none) 0 (some 0) calls = .error (.io "sort manifest length is invalid") := by
  intro r calls
  have hr : r.Framed := ⟨by simp [r], by simp [r]⟩
  have hpushes : _ ∧ ∃ st,
      runCalls (fun _ => none) 0 (some 0) (List.replicate (2 ^ 19) (.push r)) = .ok st ∧ _ :=
    runCalls_replicate hr (2 ^ 19) (by simp [r, Item.framedLen, scratchHeaderLen])
  obtain ⟨hk, ⟨d, s⟩, hst, -, hlen⟩ := hpushes
  have hsession := session_runCalls hk hst
  obtain ⟨runs, pieces, hholds⟩ := hsession.holds
  have hframed : ∀ x ∈ List.replicate (2 ^ 19) r, x.Framed := by
    intro x hx
    rw [List.eq_of_mem_replicate hx]
    exact hr
  obtain ⟨⟨d', s'⟩, hcheck⟩ := hsession.progress (c := .checkpoint 0) hframed rfl (by simp [Call.Fits])
  obtain ⟨bytes, hd, hlong⟩ := checkpoint_long hholds hcheck
  have hrefused : ExternalSort.reopenDurable d' 0 0 = .error (.io "sort manifest length is invalid") := by
    rw [ExternalSort.reopenDurable, readSortManifest_long hd ?_]
    · rfl
    · refine lt_of_le_of_lt ?_ hlong
      rw [show s.runs.length = 2 ^ 19 from hlen, sortManifestMax]
      decide
  constructor
  · simp only [calls, keptBy] at hk ⊢
    rw [List.foldlM_append, hk]
    rfl
  · rw [sortCalls, runCalls, List.foldlM_append]
    rw [runCalls] at hst
    rw [hst]
    simp only [bind, Except.bind, List.foldlM_cons, List.foldlM_nil, hcheck]
    simp only [Call.run, bind, Except.bind, hrefused]

end Calls

end Bulk
