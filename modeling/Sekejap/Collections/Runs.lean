import Sekejap.Collections.TableSteps

/-!
# Every run keeps rows, keys and indexes in agreement

Row writes, index builds and drops, table creation and drops, row count backfills, commits, failures,
rollbacks and reopens, in any order.

* **`agrees_reachable`** — in every run without the one step that hands a row number out twice, the
  keys of a table correspond to its rows, a READY index holds the entries of its table's rows and no
  others, and a READY unique index has no two rows under one key.
* **`agrees_fails`** — after that step a key is left that finds another key's row.
-/

open Collections (EntityId Sequence)

open Fallible

namespace Engine

section

variable {db db' db₁ : Database} {x : Store} {host : Host} {o : Call} {c n : ℕ} {id : EntityId}
  {k : Catalog} {page : List (Call × EntityId)} {removes : Bool}

/-! ## Row writes -/

lemma RowStep.served {removed : Option EntityId} (h : Good db) (hs : RowStep db db' removed) :
    Served db db' ∧ db'.store.catalogs = db.store.catalogs := by
  obtain ⟨id, new, row, he⟩ := hs.effect h.consistent h.ids h.failed
  have hids := hs.ids h.consistent h.ids h.failed
  exact ⟨⟨⟨he.handle.failed.trans h.failed, he.consistent h.consistent, hids.inv h.ids,
    hids.numbered h.numbered⟩, he.handle.host, he.handle.durable⟩, he.written.catalogs⟩

/-- A caller begins to write, or writes a row; a row is removed only where `removes` says so. -/
def RowMove (removes : Bool) (db db' : Database) : Prop :=
  db' = db.written ∨ db.userWritesPending = true
    ∧ ∃ removed, RowStep db db' removed ∧ (removed.isSome → removes = true)

/-- **Rows are written one after another.** -/
def RowRun (removes : Bool) : Database → Database → Prop := Relation.ReflTransGen (RowMove removes)

lemma RowRun.begin (removes : Bool) (db : Database) : RowRun removes db db.written :=
  .single (Or.inl rfl)

lemma RowStep.run (h : RowStep db.written db' none) : RowRun false db db' :=
  .tail (RowRun.begin false db) (Or.inr ⟨rfl, none, h, fun h => by cases h⟩)

lemma RowStep.removal (h : RowStep db.written db' (some id)) : RowRun true db db' :=
  .tail (RowRun.begin true db) (Or.inr ⟨rfl, some id, h, fun _ => rfl⟩)

lemma RowMove.served (h : Good db) (hs : RowMove removes db db') :
    Served db db' ∧ db'.store.catalogs = db.store.catalogs := by
  rcases hs with rfl | ⟨-, removed, hs, -⟩
  · exact ⟨h.written, rfl⟩
  · exact hs.served h

lemma RowRun.served (h : Good db) (hs : RowRun removes db db') :
    Served db db' ∧ db'.store.catalogs = db.store.catalogs := by
  induction hs with
  | refl => exact ⟨.refl h, rfl⟩
  | tail _ hs ih =>
      obtain ⟨hserved, hcat⟩ := hs.served ih.1.good
      exact ⟨ih.1.trans hserved, hcat.trans ih.2⟩

lemma delete_run {key : String} {found : Bool} (h : db.delete o c key = .ok (found, db')) :
    RowRun true db db' := by
  rcases delete_steps h with rfl | ⟨id, k, row, hk, hd, hid, hrow, -, -, hrem⟩
  · exact .begin true db
  · exact (RowStep.remove o c k row id hk hd hid hrow hrem).removal

/-- The candidates of a page are written one after another, in a table that stands. -/
lemma writeCandidates_run
    {write : Database → Call → EntityId → Except Error (Bool × Database)}
    (hw : ∀ {db db' o id found}, Standing db.store c → write db o id = .ok (found, db') →
      RowRun removes db db')
    (h : Good db) (hs : Standing db.store c)
    (hok : Database.writeCandidates write db page = .ok db') : RowRun removes db db' := by
  induction page generalizing db with
  | nil =>
      cases hok
      exact .refl
  | cons p page ih =>
      obtain ⟨o, id⟩ := p
      simp only [Database.writeCandidates, bind_eq_ok, Prod.exists] at hok
      obtain ⟨found, db₁, hone, hrest⟩ := hok
      have hrun := hw hs hone
      obtain ⟨hserved, hcat⟩ := hrun.served h
      refine hrun.trans (ih hserved.good ?_ hrest)
      rw [Standing, hcat]
      exact hs

lemma deletePage_run (h : Good db) (hok : db.deletePage c page = .ok db') :
    RowRun true db db' := by
  simp only [Database.deletePage, bind_eq_ok] at hok
  obtain ⟨k, hk, hok⟩ := hok
  refine writeCandidates_run (fun {db db' o id found} hs hone => ?_) h ⟨k, (catalog_ok hk).2⟩ hok
  obtain ⟨k, hk, hd⟩ := hs
  obtain ⟨hid, ⟨rfl, -⟩ | ⟨row, hrow, hrem⟩⟩ := deleteCandidate_steps hone
  · exact .begin true db
  · exact RowStep.removal (.remove o c k row id hk hd hid hrow hrem)

lemma updatePage_run {patch : Document → Except Error (List (String × Value))} (h : Good db)
    (hok : db.updatePage c patch page = .ok db') : RowRun false db db' := by
  simp only [Database.updatePage, bind_eq_ok] at hok
  obtain ⟨k, hk, hok⟩ := hok
  refine writeCandidates_run (fun _ hone => ?_) h ⟨k, (catalog_ok hk).2⟩ hok
  rcases updateCandidate_steps hone with rfl | hs
  · exact .begin false _
  · exact hs.run

/-! ## Counts -/

/-- Counts were written, and nothing else. -/
def OnlyCounts (db db' : Database) : Prop :=
  db' = { db with
    rowCounts := db'.rowCounts
    store := { db.store with counts := db'.store.counts } }

lemma OnlyCounts.aside (h : OnlyCounts db db') : Aside db db' := by
  rw [OnlyCounts] at h
  rw [Aside, h]

lemma onlyCounts_flushRowCount (h : db.flushRowCount c = .ok db') : OnlyCounts db db' := by
  rw [Database.flushRowCount] at h
  split at h
  · cases h
    rfl
  · rename_i p hp
    split_ifs at h
    · cases h
      rfl
    · simp only [bind_eq_ok, pure_eq_ok] at h
      obtain ⟨rows, -, rfl⟩ := h
      rfl

lemma onlyCounts_flushCounts {l : List ℕ} (h : db.flushCounts l = .ok db') : OnlyCounts db db' := by
  induction l generalizing db with
  | nil =>
      cases h
      rfl
  | cons c l ih =>
      simp only [Database.flushCounts, bind_eq_ok] at h
      obtain ⟨db₁, hone, hrest⟩ := h
      have h₁ := onlyCounts_flushRowCount hone
      have h₂ := ih hrest
      rw [OnlyCounts] at h₁ h₂ ⊢
      rw [h₁] at h₂
      exact h₂

lemma aside_backfillWalk (db : Database) (b : Backfill) (budget : ℕ) :
    Aside db (db.backfillWalk b budget).2.2 := by
  rw [Database.backfillWalk]
  split_ifs
  · rfl
  · rfl

lemma aside_backfillLoop (db : Database) (budget passes walked written : ℕ) :
    Aside db (Database.backfillLoop budget passes walked written db).2 := by
  induction passes generalizing db walked written with
  | zero => exact .refl db
  | succ passes ih =>
      rw [Database.backfillLoop]
      split
      · exact .refl db
      · rename_i b hb
        have hwalk := aside_backfillWalk db b (budget - walked)
        generalize db.backfillWalk b (budget - walked) = r at hwalk ⊢
        obtain ⟨counted, complete, db₁⟩ := r
        by_cases hb : budget ≤ walked + counted
        · simp only [hb, if_true]
          exact hwalk
        · simp only [hb, if_false]
          exact hwalk.trans (ih db₁ _ _)

/-! ## Requests -/

/-- The requests that write rows and remove none. -/
def Request.writes : Request → Prop
  | .put .. | .insert .. | .update .. | .updatePage .. => True
  | _ => False

/-- **What a request that returns has done.**  What is said of all requests is said by cases on this. -/
inductive Done (db : Database) : Request → Database → Prop
  | schema {schema : String} : Done db (.createSchema schema)
      (db.written.setStore fun x => { x with schemas := Function.update x.schemas schema true })
  | collection {t : Declaration} {c : ℕ} {db' : Database} : db.createTable t = .ok (c, db') →
      Done db (.createCollection t) (db'.seedRowCount c 0)
  | table {t : Declaration} {c : ℕ} {db' : Database} : db.createTable t = .ok (c, db') →
      Done db (.createTable t) db'
  | rows {r : Request} {db' : Database} : r.writes → RowRun false db db' → Done db r db'
  | delete {o : Call} {c : ℕ} {key : String} {found : Bool} {db' : Database} :
      db.delete o c key = .ok (found, db') → Done db (.delete o c key) db'
  | deletePage {c : ℕ} {page : List (Call × EntityId)} {db' : Database} :
      db.deletePage c page = .ok db' → Done db (.deletePage c page) db'
  | indexes {r : Request} {db' : Database} : Reindexed db db' → Done db r db'
  | backfill {budget : ℕ} : Done db (.backfillRowCounts budget)
      (Database.backfillLoop budget (db.store.nextCollection + 1) 0 0 db).2
  | beginDrop {c : ℕ} {db' : Database} : db.beginDropCollection c = .ok db' →
      Done db (.beginDropCollection c) db'
  | dropStep {o : Call} {c budget : ℕ} {ended : Bool} {db' : Database} :
      db.dropCollectionStep o c budget = .ok (ended, db') → Done db (.dropCollectionStep o c budget) db'
  | commit {db' : Database} : db.commit = .ok db' → Done db .commit db'

lemma call_done {r : Request} (h : Good db) (hok : db.call r = .ok db') : Done db r db' := by
  cases r with
  | createSchema schema =>
      simp only [Database.call, Database.createSchema, bind_eq_ok, pure_eq_ok] at hok
      obtain ⟨_, -, _, -, _, -, db₁, hu, rfl⟩ := hok
      obtain ⟨-, rfl⟩ := userWrite_ok hu
      exact .schema
  | createCollection t =>
      simp only [Database.call, map_eq_ok, Prod.exists, Database.createCollection, bind_eq_ok,
        pure_eq_ok, Prod.mk.injEq] at hok
      obtain ⟨c, db₂, ⟨c', db₁, hok, rfl, rfl⟩, rfl⟩ := hok
      exact .collection hok
  | createTable t =>
      simp only [Database.call, map_eq_ok, Prod.exists] at hok
      obtain ⟨c, db₁, hok, rfl⟩ := hok
      exact .table hok
  | put o c key fields =>
      simp only [Database.call, map_eq_ok, Prod.exists] at hok
      obtain ⟨id, db₁, hok, rfl⟩ := hok
      exact .rows trivial (put_steps hok).run
  | insert o c key fields =>
      simp only [Database.call, map_eq_ok, Prod.exists] at hok
      obtain ⟨id, db₁, hok, rfl⟩ := hok
      exact .rows trivial (insert_steps hok).run
  | update o c key patch =>
      simp only [Database.call, map_eq_ok, Prod.exists] at hok
      obtain ⟨id, db₁, hok, rfl⟩ := hok
      exact .rows trivial (update_steps hok).run
  | delete o c key =>
      simp only [Database.call, map_eq_ok, Prod.exists] at hok
      obtain ⟨found, db₁, hok, rfl⟩ := hok
      exact .delete hok
  | deletePage c page => exact .deletePage hok
  | updatePage c patch page => exact .rows trivial (updatePage_run h hok)
  | createScalarIndex c name field unique withTree =>
      simp only [Database.call, map_eq_ok, Prod.exists] at hok
      obtain ⟨n, db₁, hok, rfl⟩ := hok
      exact .indexes (createScalarIndex_sound h.consistent h.rows hok)
  | createExpressionIndex c name field expression unique =>
      simp only [Database.call, map_eq_ok, Prod.exists] at hok
      obtain ⟨n, db₁, hok, rfl⟩ := hok
      exact .indexes (createExpressionIndex_sound h.consistent h.rows hok)
  | buildIndexStep o id batch =>
      simp only [Database.call, map_eq_ok, Prod.exists] at hok
      obtain ⟨ended, db₁, hok, rfl⟩ := hok
      exact .indexes (buildIndexStep_sound h.consistent hok)
  | buildSortedRun o id n => exact .indexes (buildSortedRun_sound h.consistent hok)
  | beginDropIndex id => exact .indexes (beginDropIndex_sound h.consistent hok)
  | dropIndexStep o id batch =>
      simp only [Database.call, map_eq_ok, Prod.exists] at hok
      obtain ⟨ended, db₁, hok, rfl⟩ := hok
      exact .indexes (dropIndexStep_sound h.consistent hok)
  | backfillRowCounts budget =>
      simp only [Database.call, map_eq_ok, Prod.exists, Database.backfillRowCounts, bind_eq_ok,
        pure_eq_ok] at hok
      obtain ⟨p, db₁, ⟨_, -, _, -, hok⟩, rfl⟩ := hok
      have hdone : Done db (.backfillRowCounts budget) _ := .backfill
      rw [hok] at hdone
      exact hdone
  | beginDropCollection c => exact .beginDrop hok
  | dropCollectionStep o c budget =>
      simp only [Database.call, map_eq_ok, Prod.exists] at hok
      obtain ⟨ended, db₁, hok, rfl⟩ := hok
      exact .dropStep hok
  | commit => exact .commit hok

/-- A request that is not a commit. -/
lemma call_served {r : Request} (h : Good db) (hr : r ≠ .commit) (hok : db.call r = .ok db') :
    Served db db' := by
  cases call_done h hok with
  | schema => exact h.aside rfl
  | collection hdo =>
      have hserved := createTable_served h hdo
      exact hserved.trans (hserved.good.aside rfl)
  | table hdo => exact createTable_served h hdo
  | rows _ hrun => exact (hrun.served h).1
  | delete hdo => exact ((delete_run hdo).served h).1
  | deletePage hdo => exact ((deletePage_run h hdo).served h).1
  | indexes hre => exact h.reindexed hre
  | backfill => exact h.aside (aside_backfillLoop db _ _ 0 0)
  | beginDrop hdo => exact beginDropCollection_served h hdo
  | dropStep hdo => exact dropCollectionStep_served h hdo
  | commit => exact absurd rfl hr

/-! ## Transactions -/

lemma Consistent.withIds (h : Consistent db) (d : Collections.Database) : Consistent (db.withIds d) :=
  h.retabled (SameTables.retabled ⟨rfl, rfl, rfl, rfl, rfl⟩ h.sound.catalogued ⟨rfl, rfl, rfl, rfl⟩)
    rfl rfl rfl h.dropping

/-- What a commit writes before its barrier. -/
lemma flush_ok (h : Good db) (hok : db.flush = .ok db') :
    Consistent db' ∧ db'.ids = db.ids.flushSequence ∧ db'.host = db.host := by
  simp only [Database.flush, bind_eq_ok, refuse_eq_ok] at hok
  obtain ⟨_, -, hok⟩ := hok
  have haside := (onlyCounts_flushCounts hok).aside
  have hidle : Aside db { db with userWritesPending := false } := rfl
  have hc : Consistent { db with userWritesPending := false } := hidle.consistent h.consistent
  refine ⟨haside.consistent (hc.withIds _), ?_, ?_⟩
  · rw [haside.ids]
    exact ids_withIds (Collections.frame_flushSequence db.ids)
  · rw [Aside] at haside
    rw [haside]
    rfl

/-- **A commit that returns** has made the working tree durable. -/
lemma commit_good (h : Good db) (hok : db.commit = .ok db') :
    Good db' ∧ db'.host = db.host ∧ db'.durable = db'.store := by
  simp only [Database.commit, bind_eq_ok, pure_eq_ok] at hok
  obtain ⟨db₁, hflush, rfl⟩ := hok
  obtain ⟨hc, hids, hh⟩ := flush_ok h hflush
  have hstep : IdSteps db.ids db.ids.commit := .single ⟨.commit, fun _ => trivial, .commit h.failed⟩
  have hcommit : ({ db₁ with
      durable := db₁.store
      rowIdBlocks := db₁.ids.block
      rowIdPending := fun _ => none } : Database).ids = db.ids.commit := by
    rw [Collections.Database.commit, ← hids]
    rfl
  have hfailed : db₁.failed = false := by
    have := congrArg Collections.Database.failed hids
    rw [(Collections.frame_flushSequence db.ids).failed] at this
    exact this.trans h.failed
  refine ⟨⟨hfailed, ⟨hc.sound, hc.cache, hc.dropping⟩, ?_, ?_⟩, hh, rfl⟩
  · rw [hcommit]; exact hstep.inv h.ids
  · rw [hcommit]; exact hstep.numbered h.numbered

/-- The table that is being dropped is found again. -/
lemma scanDropping_iff (h : Catalogued x) (c : ℕ) :
    Database.scanDropping x = some c ↔ ∃ k, x.catalogs c = some k ∧ k.drop.isSome := by
  have hany : ∀ c, (x.catalogs c).any (fun k => k.drop.isSome) = true
      ↔ ∃ k, x.catalogs c = some k ∧ k.drop.isSome := by
    intro c
    cases x.catalogs c <;> simp
  have hfound : ∀ {c}, Database.scanDropping x = some c →
      ∃ k, x.catalogs c = some k ∧ k.drop.isSome := by
    intro c hc
    rw [Database.scanDropping, List.find?_eq_some_iff_append] at hc
    exact (hany c).1 hc.1
  refine ⟨hfound, ?_⟩
  rintro ⟨k, hk, hd⟩
  cases hfind : Database.scanDropping x with
  | none =>
      have := List.find?_eq_none.1 hfind c (List.mem_range.2 (h.id c k hk).2)
      exact absurd ((hany c).2 ⟨k, hk, hd⟩) this
  | some c' =>
      obtain ⟨k', hk', hd'⟩ := hfound hfind
      rw [h.one c' c k' k hk' hk hd' hd]

/-! ## Every run -/

/-- **What holds in every state of a run.** -/
structure Inv (db : Database) : Prop where
  ids : Collections.Inv db.ids
  numbered : Collections.Numbered db.ids
  durable : Sound db.host db.durable
  live : db.failed = false → Consistent db

lemma Inv.good (h : Inv db) (hf : db.failed = false) : Good db := ⟨hf, h.live hf, h.ids, h.numbered⟩

lemma Served.inv (hd : Sound db.host db.durable) (h : Served db db') : Inv db' :=
  ⟨h.good.ids, h.good.numbered, by rw [h.host, h.durable]; exact hd, fun _ => h.good.consistent⟩

/-- A handle that was opened on a sound store. -/
lemma consistent_opened (hs : Sound db.host db.store) (hc : db.indexListCache = none)
    (hd : db.dropping = Database.scanDropping db.store) : Consistent db :=
  ⟨hs, cacheOk_none hc, fun c => by rw [hd]; exact scanDropping_iff hs.catalogued c⟩

lemma sound_empty (host : Host) : Sound host .empty := by
  have hview : ∀ n v, Store.empty.view n ≠ some v := by
    intro n v h
    cases h
  have hcat : ∀ c k, Store.empty.catalogs c ≠ some k := by
    intro c k h
    cases h
  have howned : Owned .empty := ⟨fun n v h => absurd h (hview n v), fun n v _ h => absurd h (hview n v),
    fun n v _ h => absurd h (hview n v), fun e he => absurd he (Finset.notMem_empty e)⟩
  have htables : Catalogued .empty := ⟨fun c k h => absurd h (hcat c k),
    fun c k h => absurd h (hcat c k), fun c k h => absurd h (hcat c k),
    fun c k h => absurd h (hcat c k), fun s m c h => (by cases h),
    fun c _ k _ h => absurd h (hcat c k)⟩
  refine ⟨howned, htables, fun id r h => ?_, fun c key n h => ?_, fun n v h => absurd h (hview n v),
    fun c hs => ?_, fun n v h => absurd h (hview n v)⟩
  · rw [show Store.empty.rows = ∅ from rfl, Finmap.lookup_empty] at h
    cases h
  · rw [show Store.empty.mapping = ∅ from rfl, Finmap.lookup_empty] at h
    cases h
  · obtain ⟨k, hk, -⟩ := hs
    exact absurd hk (hcat c k)

lemma ids_create (host : Host) (register : Bool) :
    (Database.create host register).ids = Collections.Database.create register := by
  simp only [Database.ids, Database.create, Database.openStore, Collections.Database.create,
    Store.empty, Finmap.lookup_empty, Option.map_none]

lemma inv_create (host : Host) (register : Bool) : Inv (Database.create host register) := by
  refine ⟨?_, ?_, sound_empty host, fun _ => consistent_opened (sound_empty host) rfl rfl⟩
  · rw [ids_create]; exact Collections.inv_create register
  · rw [ids_create]; exact Collections.numbered_create register

/-- **One step.** -/
lemma Step.inv {op : Op} (h : Inv db) (hp : Certain db op) (hs : Step db op db') : Inv db' := by
  cases hs with
  | @call _ r hf hok =>
      by_cases hr : r = .commit
      · subst hr
        obtain ⟨hgood, hh, hd⟩ := commit_good (h.good hf) hok
        exact ⟨hgood.ids, hgood.numbered, hd ▸ hgood.consistent.sound, fun _ => hgood.consistent⟩
      · exact (call_served (h.good hf) hr hok).inv h.durable
  | refused hf => exact (h.good hf).written.inv h.durable
  | commitUncertain hok =>
      simp only [Database.commitUncertain, bind_eq_ok, pure_eq_ok] at hok
      obtain ⟨db₁, hflush, rfl⟩ := hok
      have hf : db.failed = false := by
        simp only [Database.flush, bind_eq_ok, refuse_eq_ok, Bool.not_eq_true] at hflush
        exact hflush.choose_spec.1
      obtain ⟨hc, hids, hh⟩ := flush_ok (h.good hf) hflush
      have hstep : IdSteps db.ids db.ids.commitUncertain :=
        .single ⟨.commitUncertain, fun _ => trivial, .commitUncertain hf⟩
      have hcommit : ({ db₁ with
          failed := true
          durable := db₁.store
          uncertain := fun c => (db₁.rowIdPending c).isSome } : Database).ids
            = db.ids.commitUncertain := by
        rw [Collections.Database.commitUncertain, ← hids]
        rfl
      refine ⟨?_, ?_, hc.sound, fun hff => (by cases hff)⟩
      · rw [hcommit]; exact hstep.inv h.ids
      · rw [hcommit]; exact hstep.numbered h.numbered
  | fail hf hf' hh hr hd hu hb =>
      have hdur : db'.ids.durable = db.ids.durable := by
        simp only [Database.ids, hd]
      refine ⟨h.ids.failed hf' hr hdur hu hb, h.numbered.failed hf' hdur hb, ?_, fun hff => ?_⟩
      · rw [hh, hd]; exact h.durable
      · rw [hf'] at hff
        cases hff
  | rollback =>
      have hstep : Collections.Step db.ids .rollback db.ids.rollback := .rollback
      have hcertain : Collections.Certain db.ids .rollback := hp
      exact ⟨hstep.inv h.ids hcertain, hstep.numbered h.numbered, h.durable, fun _ =>
        consistent_opened h.durable rfl rfl⟩
  | rollbackFails hf' hh hr hd hu hb =>
      have hdur : db'.ids.durable = db.ids.durable := by
        simp only [Database.ids, hd]
      have hblocks : ∀ c, db'.ids.rowIdBlocks c = none
          ∨ db'.ids.rowIdBlocks c = db.ids.rowIdBlocks c := fun c => Or.inr (congrFun hb c)
      refine ⟨h.ids.failed hf' hr hdur hu hblocks, h.numbered.failed hf' hdur hblocks, ?_,
        fun hff => ?_⟩
      · rw [hh, hd]; exact h.durable
      · rw [hf'] at hff
        cases hff
  | reopen =>
      have hstep : IdSteps db.ids db.ids.reopen := .single ⟨.reopen, fun _ => trivial, .reopen⟩
      exact ⟨hstep.inv h.ids, hstep.numbered h.numbered, h.durable, fun _ =>
        consistent_opened h.durable rfl rfl⟩

lemma Reachable.inv (h : Reachable Certain db) : Inv db := by
  induction h with
  | create host register => exact inv_create host register
  | step _ hp hs ih => exact hs.inv ih hp

/-- What every operation that meets `P` keeps: `L` of a handle, and `D` of what it commits. -/
structure Lasts (P : Database → Op → Prop) (D : Store → Prop) (L : Database → Prop) : Prop where
  call {db db' : Database} {r : Request} : Good db → L db → P db (.call r) →
    db.call r = .ok db' → L db'
  written {db : Database} : L db → L { db with userWritesPending := true }
  flush {db db' : Database} : Good db → L db → db.flush = .ok db' → D db'.store
  opened {db : Database} : D db.store → (db.rowCounts = fun _ => none) →
    db.rowCountBackfill = none → L db

/-- **A state of such a run**: `D` holds of what is durable, and `L` of a handle that has not failed. -/
structure Carried (D : Store → Prop) (L : Database → Prop) (db : Database) : Prop where
  inv : Inv db
  durable : D db.durable
  live : db.failed = false → L db

variable {P : Database → Op → Prop} {D : Store → Prop} {L : Database → Prop}

lemma Step.carried {op : Op} (hl : Lasts P D L) (hc : Certain db op) (h : Carried D L db)
    (hp : P db op) (hs : Step db op db') : Carried D L db' := by
  have hflushed : ∀ {db₁}, db.flush = .ok db₁ → D db₁.store := by
    intro db₁ hflush
    have hf : db.failed = false := by
      simp only [Database.flush, bind_eq_ok, refuse_eq_ok, Bool.not_eq_true] at hflush
      exact hflush.choose_spec.1
    exact hl.flush (h.inv.good hf) (h.live hf) hflush
  refine ⟨hs.inv h.inv hc, ?_, fun hf' => ?_⟩
  · cases hs with
    | @call _ r hf hok =>
        by_cases hr : r = .commit
        · subst hr
          simp only [Database.call, Database.commit, bind_eq_ok, pure_eq_ok] at hok
          obtain ⟨db₁, hflush, rfl⟩ := hok
          exact hflushed hflush
        · rw [(call_served (h.inv.good hf) hr hok).durable]
          exact h.durable
    | commitUncertain hok =>
        simp only [Database.commitUncertain, bind_eq_ok, pure_eq_ok] at hok
        obtain ⟨db₁, hflush, rfl⟩ := hok
        exact hflushed hflush
    | fail _ _ _ _ hd => rw [hd]; exact h.durable
    | rollbackFails _ _ _ hd => rw [hd]; exact h.durable
    | refused | rollback | reopen => exact h.durable
  · cases hs with
    | call hf hok => exact hl.call (h.inv.good hf) (h.live hf) hp hok
    | refused hf => exact hl.written (h.live hf)
    | commitUncertain hok =>
        simp only [Database.commitUncertain, bind_eq_ok, pure_eq_ok] at hok
        obtain ⟨db₁, -, rfl⟩ := hok
        cases hf'
    | fail _ hfail | rollbackFails hfail =>
        rw [hfail] at hf'
        cases hf'
    | rollback | reopen => exact hl.opened h.durable rfl rfl

lemma Reachable.carried (hl : Lasts P D L) (hc : ∀ db op, P db op → Certain db op)
    (hempty : D .empty) (h : Reachable P db) : Carried D L db := by
  induction h with
  | create host register =>
      exact ⟨inv_create host register, hempty, fun _ => hl.opened hempty rfl rfl⟩
  | step _ hp hs ih => exact hs.carried hl (hc _ _ hp) ih hp

/-! ## What a reader relies on -/

/-- **Rows, keys and READY indexes agree**, in every table that is not being dropped. -/
structure Agrees (host : Host) (x : Store) : Prop where
  /-- keys and rows correspond one to one -/
  mapping : ∀ c, Standing x c → ∀ key n,
    x.mapping.lookup (c, key) = some n ↔ ∃ r, x.rows.lookup ⟨c, n⟩ = some r ∧ r.key = key
  /-- a READY index holds the entries of its table's rows, in the tree its descriptor names -/
  entries : ∀ m i, x.indexes m = some i → i.state = .ready → Standing x i.collection → ∀ e,
    e ∈ x.entriesOf i ↔ e.index = m ∧ ∃ r, x.rows.lookup ⟨i.collection, e.sequence⟩ = some r
      ∧ i.derive host r.document = .ok e.value
  /-- every row has a key in every READY index of its table -/
  keys : ∀ m i, x.indexes m = some i → i.state = .ready → Standing x i.collection → ∀ n r,
    x.rows.lookup ⟨i.collection, n⟩ = some r → ∃ w, i.derive host r.document = .ok w
  unique : ∀ m i, x.indexes m = some i → i.state = .ready → i.unique = true →
    Standing x i.collection → ∀ n n' r r' w, x.rows.lookup ⟨i.collection, n⟩ = some r →
      x.rows.lookup ⟨i.collection, n'⟩ = some r' → i.derive host r.document = .ok w →
      i.derive host r'.document = .ok w → w ≠ .null → n = n'

lemma key_eq_some {i : IndexInfo} {doc : Document} {w : ScalarKey} :
    i.key host doc = some w ↔ i.derive host doc = .ok w := by
  rw [IndexInfo.key]
  cases i.derive host doc <;> simp [Except.toOption]

lemma document_eq_some {doc : Document} :
    x.document c n = some doc ↔ ∃ r, x.rows.lookup ⟨c, n⟩ = some r ∧ r.document = doc := by
  rw [Store.document, Option.map_eq_some_iff]

lemma Sound.agrees (h : Sound host x) : Agrees host x := by
  have hfiles : ∀ m i, x.indexes m = some i → i.state = .ready → Standing x i.collection →
      Secondary.Files (i.key host) (x.document i.collection) (fun _ => True)
        (filed m (x.entriesOf i)) := by
    intro m i hi hs hst
    have hf := (h.exact m _ (view_eq_some hi) hst).files (by simp [hs])
    simp only [bare_state, hs, bare_collection, bare_id, h.owned.id_eq hi] at hf
    exact hf
  have hrow : ∀ m i, x.indexes m = some i → i.state = .ready → Standing x i.collection → ∀ n r,
      x.rows.lookup ⟨i.collection, n⟩ = some r →
      ∃ w, i.derive host r.document = .ok w ∧ ⟨m, w, n⟩ ∈ x.entriesOf i := by
    intro m i hi hs hst n r hr
    obtain ⟨w, hw, hmem⟩ := (hfiles m i hi hs hst).complete n r.document trivial
      (document_eq_some.2 ⟨r, hr, rfl⟩)
    exact ⟨w, key_eq_some.1 hw, hmem⟩
  refine ⟨h.mapped, fun m i hi hs hst e => ⟨fun he => ?_, ?_⟩, fun m i hi hs hst n r hr => ?_,
    fun m i hi hs hu hst n n' r r' w hr hr' hw hw' hnull => ?_⟩
  · have hidx : e.index = m := h.owned.entry m _ e (view_eq_some hi) he
    have hmem : (e.value, e.sequence) ∈ filed m (x.entriesOf i) := by
      rw [← hidx]
      exact he
    obtain ⟨doc, hdoc, hk⟩ := (hfiles m i hi hs hst).sound _ _ hmem
    obtain ⟨r, hr, rfl⟩ := document_eq_some.1 hdoc
    exact ⟨hidx, r, hr, key_eq_some.1 hk⟩
  · rintro ⟨rfl, r, hr, hw⟩
    obtain ⟨w, hw', hmem⟩ := hrow _ i hi hs hst _ r hr
    cases hw.symm.trans hw'
    exact hmem
  · obtain ⟨w, hw, -⟩ := hrow m i hi hs hst n r hr
    exact ⟨w, hw⟩
  · have hd := (h.exact m _ (view_eq_some hi) hst).distinct hu
    simp only [bare_state, hs, bare_id, h.owned.id_eq hi] at hd
    obtain ⟨u, hu, hmem⟩ := hrow m i hi hs hst n r hr
    obtain ⟨u', hu', hmem'⟩ := hrow m i hi hs hst n' r' hr'
    cases hw.symm.trans hu
    cases hw'.symm.trans hu'
    exact hd w n' n hnull trivial hmem' hmem

/-- **Rows, keys and indexes agree in every state of every run** without a rollback that keeps a
block of row numbers the durable state has gone past: in the durable tree, and in the working tree
of a handle that has not failed.  Each request keeps `Sound`, which asks of an index that is being built only
the rows its cursor has come past; the last batch makes it all of them. -/
theorem agrees_reachable (h : Reachable Certain db) :
    Agrees db.host db.durable ∧ (db.failed = false → Agrees db.host db.store) :=
  ⟨h.inv.durable.agrees, fun hf => (h.inv.live hf).sound.agrees⟩

/-! ## Runs that can be evaluated -/

/-- The handle an operation leaves, where it is the only one. -/
def Database.perform (db : Database) : Op → Except Error Database
  | .call r => do
      refuse db.failed .failed
      db.call r
  | .refused => do
      refuse db.failed .failed
      pure { db with userWritesPending := true }
  | .commitUncertain => db.commitUncertain
  | .rollback => .ok db.rollback
  | .reopen => .ok db.reopen
  | .fail | .rollbackFails => .error .failed

lemma Step.of_perform {op : Op} (h : db.perform op = .ok db') : Step db op db' := by
  cases op with
  | call r =>
      simp only [Database.perform, bind_eq_ok, refuse_eq_ok, Bool.not_eq_true] at h
      obtain ⟨_, hf, hok⟩ := h
      exact .call hf hok
  | refused =>
      simp only [Database.perform, bind_eq_ok, refuse_eq_ok, Bool.not_eq_true, pure_eq_ok] at h
      obtain ⟨_, hf, rfl⟩ := h
      exact .refused hf
  | commitUncertain => exact .commitUncertain h
  | rollback =>
      cases h
      exact .rollback
  | reopen =>
      cases h
      exact .reopen
  | fail | rollbackFails => cases h

def Database.performs (db : Database) : List Op → Except Error Database
  | [] => .ok db
  | op :: ops => do
      let db ← db.perform op
      performs db ops

lemma Reachable.performs {P : Database → Op → Prop} {ops : List Op} (h : Reachable P db)
    (hP : ∀ op ∈ ops, ∀ db, P db op) (hok : db.performs ops = .ok db') : Reachable P db' := by
  induction ops generalizing db with
  | nil =>
      cases hok
      exact h
  | cons op ops ih =>
      simp only [Database.performs, bind_eq_ok] at hok
      obtain ⟨db₁, hone, hrest⟩ := hok
      exact ih (.step h (hP op (by simp) db) (.of_perform hone))
        (fun op' hop => hP op' (by simp [hop])) hrest

end

/-- A host that lowers no letter. -/
def plainHost : Host := ⟨id, toString, fun _ v => some v⟩

/-- A call at the epoch that moves no root and may write as much as it likes. -/
def plainCall : Call := ⟨0, 0, id, fun _ _ _ => 1, fun _ => false⟩

/-- `people (age INT)` -/
def people : Declaration := ⟨none, "people", [("age", .int)], [], false⟩

def age (n : ℤ) : List (String × Value) := [("age", .number (.int n))]

/-- A table with a READY unique index over rows put before, between and after its build. -/
def indexedRun : List Op :=
  [.call (.createCollection people), .call (.insert plainCall 1 "ada" (age 36)),
    .call (.createScalarIndex 1 "by_age" "age" true true), .call .commit,
    .call (.insert plainCall 1 "alan" (age 41)), .call (.buildIndexStep plainCall 1 1),
    .call (.insert plainCall 1 "kurt" (age 71)), .call (.buildIndexStep plainCall 1 1),
    .call (.buildIndexStep plainCall 1 1), .call (.update plainCall 1 "ada" (age 37)), .call .commit]

theorem agrees_indexedRun : ∃ db, (Database.create plainHost true).performs indexedRun = .ok db
    ∧ (db.store.indexes 1).map IndexInfo.state = some .ready
    ∧ db.store.mapping.lookup (1, "ada") = some 1 ∧ Agrees db.host db.store := by
  have hrun : okAnd ((Database.create plainHost true).performs indexedRun) (fun db =>
      !db.failed && (db.store.indexes 1).map IndexInfo.state = some .ready
        && db.store.mapping.lookup (1, "ada") = some 1) = true := by
    decide +kernel
  obtain ⟨db, hok, hdb⟩ := exists_of_okAnd hrun
  simp only [Bool.and_eq_true, Bool.not_eq_true', decide_eq_true_eq] at hdb
  have hr : Reachable Certain db := Reachable.performs (.create plainHost true)
    (by intro op hop db; fin_cases hop <;> trivial) hok
  exact ⟨db, hok, hdb.1.2, hdb.2, (agrees_reachable hr).2 hdb.1.1⟩

/-- A commit fails and becomes durable, and the rollback keeps the block of the commit before. -/
def reusingRun : List Op :=
  [.call (.createCollection people), .call (.insert plainCall 1 "ada" (age 36)), .call .commit,
    .call (.insert plainCall 1 "alan" (age 41)), .commitUncertain, .rollback,
    .call (.insert plainCall 1 "kurt" (age 71))]

lemma reusingRun_ok : ∃ db, (Database.create plainHost true).performs reusingRun = .ok db
    ∧ db.failed = false ∧ Standing db.store 1 ∧ db.store.mapping.lookup (1, "alan") = some 2
    ∧ (db.store.rows.lookup ⟨1, 2⟩).map Row.key = some "kurt" := by
  have hrun : okAnd ((Database.create plainHost true).performs reusingRun) (fun db =>
      !db.failed && (db.store.catalogs 1).any (fun k => k.drop.isNone)
        && db.store.mapping.lookup (1, "alan") = some 2
        && (db.store.rows.lookup ⟨1, 2⟩).map Row.key = some "kurt") = true := by
    decide +kernel
  obtain ⟨db, hok, hdb⟩ := exists_of_okAnd hrun
  simp only [Bool.and_eq_true, Bool.not_eq_true', decide_eq_true_eq, Option.any_eq_true,
    Option.isNone_iff_eq_none] at hdb
  obtain ⟨⟨⟨hf, k, hk, hd⟩, hm⟩, hr⟩ := hdb
  exact ⟨db, hok, hf, ⟨k, hk, hd⟩, hm, hr⟩

/-- **After that rollback a key finds the row of another.** -/
theorem agrees_fails :
    ¬ ∀ db, Reachable (fun _ _ => True) db → db.failed = false → Agrees db.host db.store := by
  intro h
  obtain ⟨db, hok, hf, hs, hm, hkurt⟩ := reusingRun_ok
  have hr : Reachable (fun _ _ => True) db :=
    Reachable.performs (.create plainHost true) (fun _ _ _ => trivial) hok
  obtain ⟨r, hrow, hkey⟩ := ((h db hr hf).mapping 1 hs "alan" 2).1 hm
  rw [hrow, Option.map_some, hkey] at hkurt
  exact absurd hkurt (by decide)

end Engine
