import Sekejap.Collections.FamilyRuns
import Sekejap.Vector.Linking

/-!
# Vamana indexes

The Vamana graph as an index family: `maintain_node` on the write path, `build_link` in a build, over
the heads of the stored vectors (`core/engine/src/index/vector/graph.rs`).

* **`vamana_reachable`** — in every run in which a vector goes or is replaced only while its node is
  the entry of the graph, or the entry was chosen on a smaller graph than there is, every graph is well
  formed, holds the rows its index has come past, and is never found corrupt.
* **`vamana_fails`** — a delete of another node, right after the entry was deleted, leaves a header
  that no later read accepts.
-/

open Fallible

open Engine.Families

namespace Engine.Vamana

variable {H D : Type} [LinearOrder D] [DecidableEq H]

/-- An error of the graph. -/
def Failure.error : Failure → Error
  | .corrupt why => .corrupt why
  | .resourceLimit why => .resourceLimit why

/-- `MAX_DIMENSION` -/
def maxDimension : ℕ := 16384

/-- The head of a row, when it has a vector. -/
def headOf (quantize : Value → H) (i : IndexInfo) (doc : Document) : Option H :=
  match doc i.field with
  | none | some .null => none
  | some v => some (quantize v)

/-- **The family of Vamana graphs.** -/
def family (m : Metric H D) (quantize : Value → H) : Family (Graph H D) where
  empty := Graph.empty
  accepts := fun kind => match kind with
    | .vector dim => 1 ≤ dim ∧ dim ≤ maxDimension
    | _ => false
  maintain := fun i g seq old new =>
    (maintainNode m g seq (new.bind fun p => headOf quantize i p.2) (old.isNone && new.isSome)).mapError
      Failure.error
  build := fun i g seq doc =>
    match headOf quantize i doc with
    | some head => (buildLink m g seq head).mapError Failure.error
    | none => .ok g

/-- **The graph holds the rows the index has come past**, each with the head of its vector. -/
def Holds (quantize : Value → H) (i : IndexInfo) (rows : ℕ → Option Document) (reached : Finset ℕ)
    (g : Graph H D) : Prop :=
  ∀ n, g.heads.lookup n = if n ∈ reached then (rows n).bind (headOf quantize i) else none

instance (g : Graph H D) (seq : ℕ) : Decidable (g.Releases seq) :=
  match h : g.readHeader with
  | .ok header => decidable_of_iff (header.entry = seq ∨ header.entryAt < header.nodes) (by
      constructor
      · intro hor header' h'
        cases h.symm.trans h'
        exact hor
      · exact fun hrel => hrel header h)
  | .error e => isTrue fun header' h' => absurd (h.symm.trans h') (by simp)

instance (g : Graph H D) (seq : ℕ) (desired : Option H) : Decidable (g.Admits seq desired) :=
  inferInstanceAs (Decidable (_ → _ → _))

section

variable {m : Metric H D} {quantize : Value → H} {i : IndexInfo} {rows : ℕ → Option Document}
  {reached : Finset ℕ} {g g' : Graph H D} {seq : ℕ}

omit [LinearOrder D] [DecidableEq H] in
lemma holds_update {new : Option Document} (h : Holds quantize i rows reached g)
    (hg : ∀ t, g'.heads.lookup t
      = if t = seq then new.bind (headOf quantize i) else g.heads.lookup t) :
    Holds quantize i (Function.update rows seq new) (insert seq reached) g' := by
  intro n
  rw [hg n]
  by_cases hn : n = seq
  · subst hn
    simp
  · simp [hn, h n]

/-- The write path, as the family calls it. -/
lemma maintain_yields {old : Option Document} {new : Option (Document × Document)}
    (hg : WellFormed g) (hh : Holds quantize i rows reached g) (hold : rows seq = old) (hz : seq ≠ 0)
    (hadm : g.Admits seq (new.bind fun p => headOf quantize i p.2)) :
    Yields (maintainNode m g seq (new.bind fun p => headOf quantize i p.2)
        (old.isNone && new.isSome)) fun g' => WellFormed g'
      ∧ Holds quantize i (Function.update rows seq (new.map Prod.snd)) (insert seq reached) g' := by
  refine (maintainNode_wellFormed hg hz (fun hfresh => ?_) hadm).mono fun g' h => ⟨h.1, ?_⟩
  · -- a row that was not there has no node
    simp only [Bool.and_eq_true, Option.isNone_iff_eq_none] at hfresh
    rw [← Finmap.lookup_eq_none, hh seq, hold, hfresh.1]
    simp
  · refine holds_update hh fun t => ?_
    rw [h.2 t, Option.bind_map]
    rfl

/-- A build, as the family calls it. -/
lemma build_yields {doc : Document} {head : H} (hg : WellFormed g)
    (hh : Holds quantize i rows reached g) (hrow : rows seq = some doc) (hz : seq ≠ 0)
    (hhead : headOf quantize i doc = some head) :
    Yields (buildLink m g seq head) fun g' => WellFormed g'
      ∧ Holds quantize i rows (insert seq reached) g' := by
  refine (buildLink_wellFormed hg hz fun hmem hne => ?_).mono fun g' h => ⟨h.1, ?_⟩
  · -- the node it has is the one it should have
    exfalso
    obtain ⟨old, hold⟩ := Option.isSome_iff_exists.1 (Finmap.lookup_isSome.2 hmem)
    have hlook := hh seq
    rw [hold, hrow, Option.bind_some, hhead] at hlook
    split_ifs at hlook
    exact hne (hold.trans hlook)
  · have hput : Holds quantize i (Function.update rows seq (some doc)) (insert seq reached) g' :=
      holds_update hh fun t => by rw [h.2 t, Option.bind_some, hhead]
    rwa [← hrow, Function.update_eq_self] at hput

/-- **What a Vamana index promises.** -/
def spec (m : Metric H D) (quantize : Value → H) (host : Host) : Spec (family m quantize) host where
  Right := fun i rows reached _ g => WellFormed g ∧ Holds quantize i rows reached g
  Fine := fun i g seq _ new => g.Admits seq (new.bind (headOf quantize i))
  restate := fun _ _ h => h
  start := fun _ => ⟨wellFormed_empty, fun n => by simp [family, Graph.empty]⟩
  maintain := by
    intro i rows reached g g' seq old new _ hright hold hz _ _ hfine hok
    rw [Option.bind_map] at hfine
    exact (maintain_yields hright.1 hright.2 hold hz hfine).of_ok (mapError_eq_ok.1 hok)
  build := by
    intro i rows reached built g g' seq doc _ hright hrow hz hok
    cases hhead : headOf quantize i doc with
    | none =>
        simp only [family, hhead, Except.ok.injEq] at hok
        subst hok
        refine ⟨hright.1, fun n => ?_⟩
        rw [hright.2 n]
        by_cases hn : n = seq
        · subst hn
          simp [hrow, hhead]
        · simp [hn]
    | some head =>
        simp only [family, hhead, mapError_eq_ok] at hok
        exact (build_yields hright.1 hright.2 hrow hz hhead).of_ok hok

/-! ## What a reader relies on -/

/-- **The graph of an index is well formed, and holds the rows the index has come past.** -/
structure Serves (quantize : Value → H) (x : Store) (i : Index (Graph H D)) : Prop where
  /-- the header decodes and counts heads and adjacency records, and its entry is a node -/
  header : ∃ h, i.data.readHeader = .ok h ∧ (h.entry = 0 ↔ h.nodes = 0) ∧ h.entryAt ≤ h.nodes
    ∧ h.nodes = i.data.heads.keys.card ∧ h.nodes = i.data.lists.keys.card
    ∧ (h.nodes ≠ 0 → h.entry ∈ i.data.heads)
  records : i.data.lists.keys = i.data.heads.keys
  /-- a node is a live row with a vector that a build or a write has come past -/
  nodes : ∀ n, n ∈ i.data.heads ↔ n ∈ i.reached
    ∧ ∃ doc, x.document i.info.collection n = some doc ∧ (headOf quantize i.info doc).isSome
  heads : ∀ n doc, n ∈ i.data.heads → x.document i.info.collection n = some doc →
    i.data.heads.lookup n = headOf quantize i.info doc
  /-- which is every row behind the cursor of a build, and every row once the index is READY -/
  reached : ∀ n, i.info.state.covers n → (x.document i.info.collection n).isSome → n ∈ i.reached
  symm : ∀ n n', n' ∈ i.data.names n → n ∈ i.data.names n'
  closed : ∀ n n', n' ∈ i.data.names n → n ∈ i.data.heads ∧ n' ∈ i.data.heads
  loopless : ∀ n, n ∉ i.data.names n
  nodup : ∀ n, (i.data.names n).Nodup
  degree : ∀ n, (i.data.names n).length ≤ maxDegree

/-- **Nothing that reads the graph finds it corrupt**: no row write that lets a node go when it may,
no build step, and no search. -/
structure Readable (m : Metric H D) (quantize : Value → H) (db : Families.Database (Graph H D))
    (i : Index (Graph H D)) : Prop where
  write : ∀ r ch, db.tables.written.change r = .ok (some ch) →
    ch.id.collection = i.info.collection →
    i.data.Admits ch.id.sequence ((ch.new.map Prod.snd).bind (headOf quantize i.info)) → ∀ why,
    (family m quantize).maintain i.info i.data ch.id.sequence ch.old ch.new ≠ .error (.corrupt why)
  build : ∀ n doc, db.tables.store.document i.info.collection n = some doc → ∀ why,
    (family m quantize).build i.info i.data n doc ≠ .error (.corrupt why)
  search : ∀ score exact admits k ef maxExamined why,
    scanVamana m i.data
      (fun n => (db.tables.store.document i.info.collection n).bind (headOf quantize i.info))
      score exact admits k ef maxExamined ≠ .error (.corrupt why)

omit [DecidableEq H] [LinearOrder D] in
lemma serves_of_right {x : Store} {i : Index (Graph H D)} (hg : WellFormed i.data)
    (hh : Holds quantize i.info (x.document i.info.collection) i.reached i.data)
    (hc : ∀ n, i.info.state.covers n → (x.document i.info.collection n).isSome → n ∈ i.reached) :
    Serves quantize x i := by
  obtain ⟨h, hread, hcount⟩ := hg.header
  have hnode : ∀ n, n ∈ i.data.heads ↔ n ∈ i.reached
      ∧ ∃ doc, x.document i.info.collection n = some doc ∧ (headOf quantize i.info doc).isSome := by
    intro n
    rw [← Finmap.lookup_isSome, hh n]
    split_ifs with hn
    · simp [hn, Option.isSome_bind, Option.any_eq_true]
    · simp [hn]
  refine ⟨⟨h, hread, ⟨fun he => ?_, hcount.empty⟩, hcount.entryAt, hcount.nodes, ?_, hcount.entry⟩,
    hg.keys, hnode, fun n doc hn hdoc => ?_, hc, fun n n' hn => ?_, hg.linked.closed,
    hg.linked.loopless, hg.linked.nodup, hg.degree⟩
  · by_contra hn
    exact hg.ne_zero (hcount.entry hn) he
  · rw [hg.keys, hcount.nodes]
  · rw [hh n, if_pos ((hnode n).1 hn).1, hdoc, Option.bind_some]
  · exact (hg.linked.symm n n' hn).resolve_right id

lemma ne_corrupt_of_yields {α : Type} {x : Except Failure α} {P : α → Prop} {why : String}
    (h : Yields x P) : x.mapError Failure.error ≠ .error (.corrupt why) := by
  cases x with
  | ok a => simp [Except.mapError]
  | error e =>
      cases e with
      | corrupt why' => exact h.elim
      | resourceLimit why' => simp [Except.mapError, Failure.error]

end

/-- **Every Vamana graph stays well formed and readable**, in what is durable and in the working tree
of a handle that has not failed, in every run that lets a node go only as the entry or while the graph has
more nodes than when its entry was chosen.  Nothing is asked of the distances: what a link or an unlink keeps
does not depend on which neighbours they make the nearest. -/
theorem vamana_reachable {m : Metric H D} {quantize : Value → H} {host : Host}
    {db : Families.Database (Graph H D)}
    (h : Families.Reachable (family m quantize) host (spec m quantize host).Steady db) :
    (∀ n i, db.durable.lookup n = some i → i.info.state ≠ .dropping →
      Standing db.tables.durable i.info.collection → Serves quantize db.tables.durable i)
    ∧ (db.tables.failed = false → ∀ n i, db.indexes.lookup n = some i → i.info.state ≠ .dropping →
      Standing db.tables.store i.info.collection →
      Serves quantize db.tables.store i ∧ Readable m quantize db i) := by
  have hinv := indexed_reachable h
  refine ⟨fun n i hi hd hs => ?_, fun hf n i hi hd hs => ?_⟩
  · obtain ⟨hg, hh⟩ := hinv.durable.right n i hi hd hs
    exact serves_of_right hg hh (hinv.durable.covered n i hi hs)
  · have hix := hinv.live hf
    have hgood := hinv.tables.good hf
    obtain ⟨hg, hh⟩ := hix.right n i hi hd hs
    refine ⟨serves_of_right hg hh (hix.covered n i hi hs), ⟨?_, ?_, ?_⟩⟩
    · intro r ch hch hc hadm why
      obtain ⟨hold, hz⟩ := change_old hgood.written.good hch
      rw [hc] at hold
      rw [Option.bind_map] at hadm
      exact ne_corrupt_of_yields (maintain_yields hg hh hold hz hadm)
    · intro n doc hdoc why
      cases hhead : headOf quantize i.info doc with
      | none => simp [family, hhead]
      | some head =>
          obtain ⟨row, hrow, -⟩ := Option.map_eq_some_iff.1 hdoc
          have hz : n ≠ 0 := (hgood.rows _ row hrow).ne'
          simp only [family, hhead]
          exact ne_corrupt_of_yields (build_yields hg hh hdoc hz hhead)
    · intro score exact admits k ef maxExamined why
      refine (scanVamana_yields hg fun n head hlook => ?_).ne_corrupt
      have hn := hh n
      rw [hlook] at hn
      split_ifs at hn
      exact hn.symm

/-! ## Two runs -/

/-- Vectors of one lane, and all of them at one distance. -/
def evenly : Metric ℤ ℕ where
  navigation := fun _ _ => some 1
  outreaches := fun _ _ => true
  narrow := id
  infinity := 0
  zero := 0
  add := (· + ·)

/-- The lane of a vector. -/
def lane : Value → ℤ
  | .array [.number (.int n)] => n
  | _ => 0

/-- `places (v VECTOR(1))` -/
def places : Declaration := ⟨none, "places", [("v", .vector 1)], [], false⟩

def vectorAt (n : ℤ) : List (String × Value) := [("v", .array [.number (.int n)])]

/-- Rows before and after an index, which is built; then a vector moves, and the entry goes. -/
def steadyRun : List (Families.Op (Graph ℤ ℕ)) :=
  [.call (.tables ⟨.createCollection places, rfl⟩), .call (.write (.insert plainCall 1 "a" (vectorAt 1))),
    .call (.createIndex 1 "by_v" "v" false), .call (.write (.insert plainCall 1 "b" (vectorAt 2))),
    .call (.buildIndexStep 1 1), .call (.write (.insert plainCall 1 "c" (vectorAt 3))),
    .call (.buildIndexStep 1 256), .call (.write (.update plainCall 1 "c" (vectorAt 4))),
    .call .commit, .call (.write (.delete plainCall 1 "b")), .call .commit]

/-- Three rows; the entry goes, and then another. -/
def stuckRun : List (Families.Op (Graph ℤ ℕ)) :=
  [.call (.tables ⟨.createCollection places, rfl⟩), .call (.createIndex 1 "by_v" "v" false),
    .call (.write (.insert plainCall 1 "a" (vectorAt 1))), .call (.write (.insert plainCall 1 "b" (vectorAt 2))),
    .call (.write (.insert plainCall 1 "c" (vectorAt 3))), .call (.buildIndexStep 1 256),
    .call (.write (.delete plainCall 1 "a")), .call (.write (.delete plainCall 1 "c")), .call .commit]

instance (host : Host) (i : IndexInfo) (g : Graph ℤ ℕ) (seq : ℕ) (old new : Option Document) :
    Decidable ((spec evenly lane host).Fine i g seq old new) :=
  inferInstanceAs (Decidable (g.Admits seq (new.bind (headOf lane i))))

theorem vamana_steadyRun : ∃ db i,
    (spec evenly lane plainHost).steadily (.create plainHost true) steadyRun = .ok db
    ∧ db.indexes.lookup 1 = some i ∧ i.info.state = .ready ∧ i.data.heads.keys.card = 2
    ∧ Serves lane db.tables.store i ∧ Readable evenly lane db i := by
  have hrun : okAnd ((spec evenly lane plainHost).steadily (.create plainHost true) steadyRun)
      (fun db => !db.tables.failed && (db.tables.store.catalogs 1).any (fun k => k.drop.isNone)
        && (db.indexes.lookup 1).any fun i => i.info.collection = 1 ∧ i.info.state = .ready
          ∧ i.data.heads.keys.card = 2) = true := by
    decide +kernel
  obtain ⟨db, hok, hdb⟩ := exists_of_okAnd hrun
  simp only [Bool.and_eq_true, Bool.not_eq_true', decide_eq_true_eq, Option.any_eq_true,
    Option.isNone_iff_eq_none] at hdb
  obtain ⟨⟨hf, k, hk, hd⟩, i, hi, hc, hs, hcard⟩ := hdb
  have hr : Families.Reachable (family evenly lane) plainHost (spec evenly lane plainHost).Steady db :=
    Reachable.steadily (.create true) hok
  have hserves := (vamana_reachable hr).2 hf 1 i hi (by rw [hs]; simp) ⟨k, by rw [hc]; exact hk, hd⟩
  exact ⟨db, i, hok, hi, hs, hcard, hserves⟩

/-- **A delete of another node, right after the entry was deleted, leaves a header that is refused.** -/
theorem vamana_fails : ¬ ∀ db, Families.Reachable (family evenly lane) plainHost
    (fun _ op => ∃ r, op = .call r) db → db.tables.failed = false → ∀ n i,
    db.indexes.lookup n = some i → i.info.state ≠ .dropping →
    Standing db.tables.store i.info.collection → ∃ h, i.data.readHeader = .ok h := by
  intro hall
  have hrun : okAnd ((Families.Database.create plainHost true).performs (family evenly lane) stuckRun)
      (fun db => !db.tables.failed && (db.tables.store.catalogs 1).any (fun k => k.drop.isNone)
        && (db.indexes.lookup 1).any fun i => i.info.collection = 1 ∧ i.info.state = .ready
          ∧ i.data.readHeader = .error (.corrupt "vamana graph header entry/count")) = true := by
    decide +kernel
  obtain ⟨db, hok, hdb⟩ := exists_of_okAnd hrun
  simp only [Bool.and_eq_true, Bool.not_eq_true', decide_eq_true_eq, Option.any_eq_true,
    Option.isNone_iff_eq_none] at hdb
  obtain ⟨⟨hf, k, hk, hd⟩, i, hi, hc, hs, hread⟩ := hdb
  have hr : Families.Reachable (family evenly lane) plainHost (fun _ op => ∃ r, op = .call r) db := by
    refine Families.Reachable.performs (.create true) (fun pre op post heq _ _ => ?_) hok
    have hmem : op ∈ stuckRun := by
      rw [heq]
      simp
    fin_cases hmem <;> exact ⟨_, rfl⟩
  obtain ⟨h, hh⟩ := hall db hr hf 1 i hi (by rw [hs]; simp) ⟨k, by rw [hc]; exact hk, hd⟩
  rw [hread] at hh
  cases hh

end Engine.Vamana
