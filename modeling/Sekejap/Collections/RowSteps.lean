import Sekejap.Collections.Consistency

/-!
# What a row write does

`put`, `insert`, `update`, `delete` and the candidate writes of a predicated pass come down to three
steps: a row is inserted, replaced or removed.  Each request is taken apart once, here, and everything
that is proved about row writes is proved about these steps.

* **`put_steps`**, **`insert_steps`**, **`update_steps`**, **`delete_steps`**,
  **`deleteCandidate_steps`**, **`updateCandidate_steps`** — what each did when it returned.
* **`RowStep.effect`** — a step writes one row, and the indexes of its table follow it.
* **`RowStep.ids`** — a step is one of the row numbers' own.
-/

open Collections (EntityId)

open Fallible

namespace Engine

/-- **One row is written**; the index names the row that was removed, if one was. -/
inductive RowStep (db db' : Database) : Option EntityId → Prop
  | insert (o : Call) (c : ℕ) (k : Catalog) (key : String) (doc given stored : Document)
      (id : EntityId) (db₁ db₂ : Database) (hk : db.store.catalogs c = some k) (hd : k.drop = none)
      (hkey : db.store.mapping.lookup (c, key) = none) (hprep : db.prepare o k doc none = .ok given)
      (henc : encodeDense db.host k.fields given = .ok stored)
      (halloc : db.allocate k.id = .ok (id, db₁))
      (hmaint : db₁.maintainIndexes o id none (some given) = .ok db₂)
      (hfin : db₂.finishInsert id ⟨key, stored⟩ = .ok db') : RowStep db db' none
  | replace (o : Call) (c : ℕ) (k : Catalog) (row : Row) (doc given stored : Document)
      (id : EntityId) (db₁ : Database) (hk : db.store.catalogs c = some k) (hd : k.drop = none)
      (hid : id.collection = c) (hrow : db.store.rows.lookup id = some row)
      (hprep : db.prepare o k doc (some row.document) = .ok given)
      (henc : encodeDense db.host k.fields given = .ok stored)
      (hmaint : db.maintainIndexes o id (some row.document) (some given) = .ok db₁)
      (hdb : db' = db₁.putRow id ⟨row.key, stored⟩) : RowStep db db' none
  | remove (o : Call) (c : ℕ) (k : Catalog) (row : Row) (id : EntityId)
      (hk : db.store.catalogs c = some k) (hd : k.drop = none) (hid : id.collection = c)
      (hrow : db.store.rows.lookup id = some row) (hrem : db.removeRow o id row = .ok db') :
      RowStep db db' (some id)

/-- A handle on which a caller has begun to write. -/
def Database.written (db : Database) : Database := { db with userWritesPending := true }

section

variable {db db' db₁ : Database} {o : Call} {c : ℕ} {k : Catalog} {key : String} {id : EntityId}
  {doc : Document} {row : Row} {fields : List (String × Value)}

lemma userWrite_ok (h : db.userWrite = .ok db') : db.failed = false ∧ db' = db.written := by
  simp only [Database.userWrite, bind_eq_ok, refuse_eq_ok, pure_eq_ok, Bool.not_eq_true] at h
  obtain ⟨_, hf, rfl⟩ := h
  exact ⟨hf, rfl⟩

lemma catalogAny_ok (h : db.catalogAny c = .ok k) :
    db.failed = false ∧ db.store.catalogs c = some k := by
  simp only [Database.catalogAny, bind_eq_ok, refuse_eq_ok, orElse_eq_ok, Bool.not_eq_true] at h
  obtain ⟨_, hf, hk⟩ := h
  exact ⟨hf, hk⟩

lemma catalog_ok (h : db.catalog c = .ok k) :
    db.failed = false ∧ db.store.catalogs c = some k ∧ k.drop = none := by
  simp only [Database.catalog, bind_eq_ok] at h
  obtain ⟨k', hk', h⟩ := h
  obtain ⟨hf, hc⟩ := catalogAny_ok hk'
  cases hd : k'.drop with
  | some d => simp [hd] at h
  | none =>
      simp only [hd, pure_eq_ok] at h
      subst h
      exact ⟨hf, hc, hd⟩

/-- What is found at a key. -/
lemma loadEntity_ok {found : Option (EntityId × Row)} (h : db.loadEntity c key = .ok found) :
    (found = none → db.store.mapping.lookup (c, key) = none)
      ∧ ∀ id row, found = some (id, row) →
        id.collection = c ∧ db.store.rows.lookup id = some row ∧ row.key = key := by
  simp only [Database.loadEntity, bind_eq_ok] at h
  obtain ⟨k, -, h⟩ := h
  cases hm : db.store.mapping.lookup (c, key) with
  | none =>
      simp only [hm, pure_eq_ok] at h
      subst h
      exact ⟨fun _ => rfl, fun id row h => by cases h⟩
  | some n =>
      simp only [hm, bind_eq_ok, refuse_eq_ok, orElse_eq_ok, pure_eq_ok] at h
      obtain ⟨_, -, row, hrow, _, hkey, rfl⟩ := h
      refine ⟨fun h => (by cases h), ?_⟩
      rintro id row' ⟨⟩
      exact ⟨rfl, hrow, not_not.1 hkey⟩

lemma writeEntity_new (hk : db.store.catalogs c = some k) (hd : k.drop = none)
    (hkey : db.store.mapping.lookup (c, key) = none)
    (h : db.writeEntity o k key doc none = .ok (id, db')) : RowStep db db' none := by
  simp only [Database.writeEntity, bind_eq_ok, pure_eq_ok, Option.map_none, Prod.exists,
    Prod.mk.injEq] at h
  obtain ⟨given, hprep, stored, henc, id, db₁, halloc, db₂, hmaint, db₃, hfin, rfl, rfl⟩ := h
  exact .insert o c k key doc given stored id db₁ db₂ hk hd hkey hprep henc halloc hmaint hfin

lemma writeEntity_old {id' : EntityId} (hk : db.store.catalogs c = some k) (hd : k.drop = none)
    (hid : id.collection = c) (hrow : db.store.rows.lookup id = some row)
    (h : db.writeEntity o k row.key doc (some (id, row)) = .ok (id', db')) :
    RowStep db db' none := by
  simp only [Database.writeEntity, bind_eq_ok, pure_eq_ok, Option.map_some, Prod.mk.injEq] at h
  obtain ⟨given, hprep, stored, henc, db₁, hmaint, -, rfl⟩ := h
  exact .replace o c k row doc given stored id db₁ hk hd hid hrow hprep henc hmaint rfl

/-! ## The requests -/

lemma put_steps (h : db.put o c key fields = .ok (id, db')) : RowStep db.written db' none := by
  simp only [Database.put, bind_eq_ok] at h
  obtain ⟨db₁, hu, k, hk, _, -, _, -, found, hfound, h⟩ := h
  obtain ⟨-, rfl⟩ := userWrite_ok hu
  obtain ⟨-, hk, hd⟩ := catalog_ok hk
  obtain ⟨hnone, hsome⟩ := loadEntity_ok hfound
  cases found with
  | none => exact writeEntity_new hk hd (hnone rfl) h
  | some e =>
      obtain ⟨id', row⟩ := e
      obtain ⟨hid, hrow, rfl⟩ := hsome id' row rfl
      exact writeEntity_old hk hd hid hrow h

lemma insert_steps (h : db.insert o c key fields = .ok (id, db')) :
    RowStep db.written db' none := by
  simp only [Database.insert, bind_eq_ok, refuse_eq_ok, Bool.not_eq_true] at h
  obtain ⟨db₁, hu, k, hk, _, -, _, -, found, hfound, _, hnew, h⟩ := h
  obtain ⟨-, rfl⟩ := userWrite_ok hu
  obtain ⟨-, hk, hd⟩ := catalog_ok hk
  have hnone := (loadEntity_ok hfound).1 (by simpa using hnew)
  exact writeEntity_new hk hd hnone h

lemma update_steps (h : db.update o c key fields = .ok (id, db')) :
    RowStep db.written db' none := by
  simp only [Database.update, bind_eq_ok, orElse_eq_ok, Prod.exists] at h
  obtain ⟨db₁, hu, k, hk, _, -, _, -, found, hfound, id', row, rfl, h⟩ := h
  obtain ⟨-, rfl⟩ := userWrite_ok hu
  obtain ⟨-, hk, hd⟩ := catalog_ok hk
  obtain ⟨hid, hrow, rfl⟩ := (loadEntity_ok hfound).2 id' row rfl
  exact writeEntity_old hk hd hid hrow h

/-- A delete removed the row at the key, which no foreign key named, or there was none. -/
lemma delete_steps {found : Bool} (h : db.delete o c key = .ok (found, db')) :
    db' = db.written ∨ ∃ id k row, db.written.store.catalogs c = some k ∧ k.drop = none
      ∧ id.collection = c ∧ db.store.rows.lookup id = some row ∧ row.key = key
      ∧ db.written.referencingRow c key = .ok none ∧ db.written.removeRow o id row = .ok db' := by
  simp only [Database.delete, bind_eq_ok] at h
  obtain ⟨db₁, hu, found', hfound, h⟩ := h
  obtain ⟨-, rfl⟩ := userWrite_ok hu
  cases found' with
  | none =>
      simp only [pure_eq_ok, Prod.mk.injEq] at h
      exact Or.inl h.2.symm
  | some e =>
      obtain ⟨id, row⟩ := e
      obtain ⟨hid, hrow, hkey⟩ := (loadEntity_ok hfound).2 id row rfl
      simp only [bind_eq_ok] at h
      obtain ⟨k, hk, referencing, href, h⟩ := h
      obtain ⟨-, hk, hd⟩ := catalog_ok hk
      cases referencing with
      | some r => simp at h
      | none =>
          simp only [bind_eq_ok, pure_eq_ok, Prod.mk.injEq] at h
          obtain ⟨db₂, hrem, -, rfl⟩ := h
          exact Or.inr ⟨id, k, row, hk, hd, hid, hrow, hkey, href, hrem⟩

lemma loadCandidate_ok {found : Option Row} (h : db.loadCandidate c id = .ok found) :
    id.collection = c ∧ found = db.store.rows.lookup id := by
  simp only [Database.loadCandidate, bind_eq_ok, refuse_eq_ok, pure_eq_ok, not_not] at h
  obtain ⟨_, hc, _, -, rfl⟩ := h
  exact ⟨hc, rfl⟩

/-- A candidate was removed, or was gone already. -/
lemma deleteCandidate_steps {found : Bool} (h : db.deleteCandidate o c id = .ok (found, db')) :
    id.collection = c ∧ ((db' = db.written ∧ db.store.rows.lookup id = none)
      ∨ ∃ row, db.store.rows.lookup id = some row ∧ db.written.removeRow o id row = .ok db') := by
  simp only [Database.deleteCandidate, bind_eq_ok] at h
  obtain ⟨db₁, hu, found', hfound, h⟩ := h
  obtain ⟨-, rfl⟩ := userWrite_ok hu
  obtain ⟨hid, rfl⟩ := loadCandidate_ok hfound
  refine ⟨hid, ?_⟩
  cases hrow : db.written.store.rows.lookup id with
  | none =>
      simp only [hrow, pure_eq_ok, Prod.mk.injEq] at h
      exact Or.inl ⟨h.2.symm, hrow⟩
  | some row =>
      simp only [hrow, bind_eq_ok, pure_eq_ok, Prod.mk.injEq] at h
      obtain ⟨db₂, hrem, -, rfl⟩ := h
      exact Or.inr ⟨row, hrow, hrem⟩

lemma updateCandidate_steps {found : Bool} {patch : Document → Except Error (List (String × Value))}
    (h : db.updateCandidate o c id patch = .ok (found, db')) :
    db' = db.written ∨ RowStep db.written db' none := by
  simp only [Database.updateCandidate, bind_eq_ok] at h
  obtain ⟨db₁, hu, k, hk, found', hfound, h⟩ := h
  obtain ⟨-, rfl⟩ := userWrite_ok hu
  obtain ⟨-, hk, hd⟩ := catalog_ok hk
  obtain ⟨hid, rfl⟩ := loadCandidate_ok hfound
  cases hrow : db.written.store.rows.lookup id with
  | none =>
      simp only [hrow, pure_eq_ok, Prod.mk.injEq] at h
      exact Or.inl h.2.symm
  | some row =>
      simp only [hrow, bind_eq_ok, pure_eq_ok, Prod.exists, Prod.mk.injEq] at h
      obtain ⟨_, -, _, db₂, hw, -, rfl⟩ := h
      exact Or.inr (writeEntity_old hk hd hid hrow hw)

/-! ## What a step leaves -/

/-- The parts of a handle a row write leaves alone. -/
structure SameHandle (db db' : Database) : Prop where
  host : db'.host = db.host
  register : db'.register = db.register
  failed : db'.failed = db.failed
  rowIdBlocks : db'.rowIdBlocks = db.rowIdBlocks
  durable : db'.durable = db.durable
  uncertain : db'.uncertain = db.uncertain
  dropping : db'.dropping = db.dropping

/-- **A handle agrees with its working tree.** -/
structure Consistent (db : Database) : Prop where
  sound : Sound db.host db.store
  cache : CacheOk db
  dropping : ∀ c, db.dropping = some c ↔ ∃ k, db.store.catalogs c = some k ∧ k.drop.isSome

variable {x : Store} {n : ℕ} {mapping : Finmap fun _ : ℕ × String => ℕ}
  {rows : Finmap fun _ : EntityId => Row}

lemma mapped_insert (row : Row) (h : Mapped x id.collection)
    (hkey : x.mapping.lookup (id.collection, row.key) = none)
    (hid : x.rows.lookup id = none) :
    Mapped { x with
      rows := x.rows.insert id row
      mapping := x.mapping.insert (id.collection, row.key) id.sequence } id.collection := by
  intro key n
  by_cases hk : key = row.key
  · subst hk
    simp only [Finmap.lookup_insert, Option.some.injEq]
    constructor
    · rintro rfl
      exact ⟨row, Finmap.lookup_insert _, rfl⟩
    · rintro ⟨r, hr, hrk⟩
      by_contra hne
      have hne' : (⟨id.collection, n⟩ : EntityId) ≠ id := fun he =>
        hne (congrArg EntityId.sequence he).symm
      rw [Finmap.lookup_insert_of_ne _ hne'] at hr
      exact absurd ((h row.key n).2 ⟨r, hr, hrk⟩) (by rw [hkey]; simp)
  · have hne : (id.collection, key) ≠ (id.collection, row.key) := by simp [hk]
    simp only [Finmap.lookup_insert_of_ne _ hne]
    rw [h key n]
    by_cases hn : (⟨id.collection, n⟩ : EntityId) = id
    · rw [hn, hid, Finmap.lookup_insert]
      simp only [reduceCtorEq, false_and, exists_false, Option.some.injEq, exists_eq_left', false_iff]
      exact fun he => hk he.symm
    · rw [Finmap.lookup_insert_of_ne _ hn]

lemma mapped_replace {stored : Document} (h : Mapped x id.collection)
    (hrow : x.rows.lookup id = some row) :
    Mapped { x with rows := x.rows.insert id ⟨row.key, stored⟩ } id.collection := by
  intro key n
  rw [h key n]
  by_cases hn : (⟨id.collection, n⟩ : EntityId) = id
  · rw [hn, hrow, Finmap.lookup_insert]
    simp
  · rw [Finmap.lookup_insert_of_ne _ hn]

lemma mapped_erase (h : Mapped x id.collection) (hrow : x.rows.lookup id = some row) :
    Mapped { x with
      rows := x.rows.erase id
      mapping := x.mapping.erase (id.collection, row.key) } id.collection := by
  intro key n
  by_cases hk : key = row.key
  · subst hk
    simp only [Finmap.lookup_erase, reduceCtorEq, false_iff, not_exists, not_and]
    intro r hr hrk
    by_cases hn : (⟨id.collection, n⟩ : EntityId) = id
    · rw [hn, Finmap.lookup_erase] at hr
      cases hr
    · rw [Finmap.lookup_erase_ne hn] at hr
      -- two rows would have the key
      have h₁ := (h row.key n).2 ⟨r, hr, hrk⟩
      have h₂ := (h row.key id.sequence).2 ⟨row, hrow, rfl⟩
      have heq : n = id.sequence := Option.some.inj (h₁.symm.trans h₂)
      exact hn (by rw [heq])
  · have hne : (id.collection, key) ≠ (id.collection, row.key) := by simp [hk]
    simp only [Finmap.lookup_erase_ne hne]
    rw [h key n]
    by_cases hn : (⟨id.collection, n⟩ : EntityId) = id
    · rw [hn, hrow, Finmap.lookup_erase]
      simp only [Option.some.injEq, exists_eq_left', reduceCtorEq, false_and, exists_false, iff_false]
      exact fun he => hk he.symm
    · rw [Finmap.lookup_erase_ne hn]

/-- A count moves, and nothing else. -/
lemma noteRow_ok {step : ℤ} (h : db.noteRow c step = .ok db') :
    db' = { db with rowCounts := db'.rowCounts } := by
  rw [Database.noteRow] at h
  split at h
  · cases h
    rfl
  · rename_i p db₁ ht
    simp only [bind_eq_ok, pure_eq_ok] at h
    obtain ⟨delta, -, rfl⟩ := h
    rw [Database.touchRowCount] at ht
    split at ht
    · cases ht
      rfl
    · split_ifs at ht
      obtain ⟨r, -, hr⟩ := Option.map_eq_some_iff.1 ht
      cases hr
      rfl

lemma finishInsert_ok (h : db.finishInsert id row = .ok db') :
    db' = { db with
      rowCounts := db'.rowCounts
      store := { db.store with
        rows := db.store.rows.insert id row
        mapping := db.store.mapping.insert (id.collection, row.key) id.sequence } } :=
  noteRow_ok h

lemma removeRow_ok (h : db.removeRow o id row = .ok db') :
    ∃ db₁, db.maintainIndexes o id (some row.document) none = .ok db₁
      ∧ db' = { db₁ with
        rowCounts := db'.rowCounts
        rowCountBackfill := db₁.rowCountBackfill.map fun b => Database.uncount b id
        store := { db₁.store with
          rows := db₁.store.rows.erase id
          mapping := db₁.store.mapping.erase (id.collection, row.key) } } := by
  simp only [Database.removeRow, bind_eq_ok] at h
  obtain ⟨db₁, hm, h⟩ := h
  exact ⟨db₁, hm, noteRow_ok h⟩

lemma allocate_ok (h : db.allocate c = .ok (id, db')) :
    ∃ d, db.ids.allocate c = .ok (id, d) ∧ db' = db.withIds d := by
  rw [Database.allocate] at h
  split at h
  · rename_i i d hd
    cases h
    exact ⟨d, hd, rfl⟩
  · cases h

/-- **What a step did** to a handle. -/
structure Effect (db db' : Database) (id : EntityId) (new : Option Document) (row : Option Row) :
    Prop where
  standing : Standing db.store id.collection
  handle : SameHandle db db'
  cache : CacheOk db'
  written : Written db.host id new row db.store db'.store

lemma Effect.consistent {new : Option Document} {row : Option Row} (h : Consistent db)
    (he : Effect db db' id new row) : Consistent db' := by
  refine ⟨?_, he.cache, ?_⟩
  · rw [he.handle.host]
    exact h.sound.written he.standing he.written
  · rw [he.written.catalogs, he.handle.dropping]
    exact h.dropping

/-- The stored document is filed under the keys of the one that was given. -/
lemma Sound.read {host : Host} {given stored : Document} (h : Sound host x)
    (hk : x.catalogs c = some k) (henc : encodeDense host k.fields given = .ok stored) {v : View}
    (hv : x.view n = some v) (hc : v.info.collection = c) :
    v.info.key host stored = v.info.key host given := by
  obtain ⟨hscalar, k', hk', hfield⟩ := h.field n v hv
  rw [hc, hk] at hk'
  cases hk'
  rw [IndexInfo.key, IndexInfo.key, IndexInfo.derive, IndexInfo.derive,
    derive_encodeDense henc (h.catalogued.fields c k hk) hfield hscalar]

lemma SameButIndexes.handle (h : SameButIndexes db db') : SameHandle db db' := by
  rw [SameButIndexes] at h
  exact ⟨by rw [h], by rw [h], by rw [h], by rw [h], by rw [h], by rw [h], by rw [h]⟩

lemma SameHandle.trans (h : SameHandle db db₁) (h' : SameHandle db₁ db') : SameHandle db db' :=
  ⟨h'.host.trans h.host, h'.register.trans h.register, h'.failed.trans h.failed,
    h'.rowIdBlocks.trans h.rowIdBlocks, h'.durable.trans h.durable,
    h'.uncertain.trans h.uncertain, h'.dropping.trans h.dropping⟩

lemma document_eq (hid : id.collection = c) (hrow : x.rows.lookup id = some row) :
    x.document c id.sequence = some row.document := by
  subst hid
  rw [Store.document, hrow]; rfl

/-- A store whose indexes only have changed. -/
structure SameTables (x x' : Store) : Prop where
  catalogs : x'.catalogs = x.catalogs
  names : x'.names = x.names
  nextCollection : x'.nextCollection = x.nextCollection
  rows : x'.rows = x.rows
  mapping : x'.mapping = x.mapping

lemma SameButIndexes.tables (h : SameButIndexes db db') : SameTables db.store db'.store := by
  rw [SameButIndexes] at h
  exact ⟨by rw [h], by rw [h], by rw [h], by rw [h], by rw [h]⟩

lemma SameTables.mapped {x' : Store} (h : SameTables x x') (hm : Mapped x c) : Mapped x' c := by
  intro key n
  rw [h.rows, h.mapping]
  exact hm key n

/-- **A row is inserted**, under an identity no row had. -/
lemma insert_effect {given stored : Document} {db₂ : Database} (h : Consistent db)
    (hi : Collections.Inv db.ids) (hf : db.failed = false) (hk : db.store.catalogs c = some k)
    (hd : k.drop = none) (hkey : db.store.mapping.lookup (c, key) = none)
    (henc : encodeDense db.host k.fields given = .ok stored)
    (halloc : db.allocate k.id = .ok (id, db₁))
    (hmaint : db₁.maintainIndexes o id none (some given) = .ok db₂)
    (hfin : db₂.finishInsert id ⟨key, stored⟩ = .ok db') :
    Effect db db' id (some given) (some ⟨key, stored⟩) ∧ db.store.rows.lookup id = none
      ∧ id.collection = c := by
  have hkc : k.id = c := (h.sound.catalogued.id c k hk).1
  obtain ⟨d, hids, rfl⟩ := allocate_ok halloc
  have hid : id.collection = c := (Collections.allocate_collection hids).trans hkc
  have hfresh : db.store.rows.lookup id = none := Option.map_eq_none_iff.1 (hi.fresh hf hids)
  have ho : Owned (db.withIds d).store := h.sound.owned.congr rfl rfl rfl
  have hc : CacheOk (db.withIds d) := h.cache
  obtain ⟨hframe, howned, hcache, hmain⟩ := maintainIndexes_spec ho hc hmaint
  have ht : SameTables db.store db₂.store := ⟨hframe.tables.catalogs, hframe.tables.names,
    hframe.tables.nextCollection, hframe.tables.rows, hframe.tables.mapping⟩
  have hstand : Standing db.store id.collection := ⟨k, hid ▸ hk, hd⟩
  have hold : db.store.document id.collection id.sequence = none := by
    rw [Store.document, hfresh]; rfl
  rw [finishInsert_ok hfin]
  refine ⟨⟨hstand, ?_, hcache, ht.catalogs, ht.names,
    ht.nextCollection, fun j => ?_, fun c' key' hne => ?_, ?_, ?_, ?_, rfl, fun n v hv hcol => ?_⟩, hfresh, hid⟩
  · have h₁ : SameHandle db (db.withIds d) := ⟨rfl, rfl, rfl, rfl, rfl, rfl, rfl⟩
    exact (h₁.trans hframe.handle).trans ⟨rfl, rfl, rfl, rfl, rfl, rfl, rfl⟩
  · simp only [ht.rows]
    split_ifs with hj
    · rw [hj, Finmap.lookup_insert]
    · rw [Finmap.lookup_insert_of_ne _ hj]
  · simp only [ht.mapping]
    rw [Finmap.lookup_insert_of_ne]
    rintro ⟨⟩
    exact hne rfl
  · refine mapped_insert ⟨key, stored⟩ (ht.mapped (h.sound.mapped id.collection hstand)) ?_
      (by rw [ht.rows]; exact hfresh)
    rw [ht.mapping, hid]
    exact hkey
  · rw [hold]
    exact ⟨hmain.follows, hmain.others⟩
  · exact howned.congr rfl rfl rfl
  · rw [Option.map_some, Option.bind_some, Option.bind_some]
    exact h.sound.read hk henc hv (hcol.trans hid)

/-- **A row is replaced.** -/
lemma replace_effect {given stored : Document} (h : Consistent db) (hk : db.store.catalogs c = some k)
    (hd : k.drop = none) (hid : id.collection = c) (hrow : db.store.rows.lookup id = some row)
    (henc : encodeDense db.host k.fields given = .ok stored)
    (hmaint : db.maintainIndexes o id (some row.document) (some given) = .ok db₁)
    (hdb : db' = db₁.putRow id ⟨row.key, stored⟩) :
    Effect db db' id (some given) (some ⟨row.key, stored⟩) := by
  obtain ⟨hframe, howned, hcache, hmain⟩ := maintainIndexes_spec h.sound.owned h.cache hmaint
  have ht := hframe.tables
  have hstand : Standing db.store id.collection := ⟨k, hid ▸ hk, hd⟩
  rw [hdb]
  refine ⟨hstand,
    hframe.handle.trans ⟨rfl, rfl, rfl, rfl, rfl, rfl, rfl⟩, hcache, ht.catalogs, ht.names,
    ht.nextCollection, fun j => ?_, fun c' key' _ => ?_, ?_, ?_, ?_, rfl, fun n v hv hcol => ?_⟩
  · simp only [Database.putRow, Database.setStore, ht.rows]
    split_ifs with hj
    · rw [hj, Finmap.lookup_insert]
    · rw [Finmap.lookup_insert_of_ne _ hj]
  · exact congrArg (Finmap.lookup (c', key')) ht.mapping
  · exact mapped_replace (x := db₁.store) (ht.mapped (h.sound.mapped id.collection hstand))
      (by rw [ht.rows]; exact hrow)
  · rw [document_eq rfl hrow]
    exact ⟨hmain.follows, hmain.others⟩
  · exact howned.congr rfl rfl rfl
  · rw [Option.map_some, Option.bind_some, Option.bind_some]
    exact h.sound.read hk henc hv (hcol.trans hid)

/-- **A row is removed.** -/
lemma remove_effect (h : Consistent db) (hk : db.store.catalogs c = some k) (hd : k.drop = none)
    (hid : id.collection = c) (hrow : db.store.rows.lookup id = some row)
    (hrem : db.removeRow o id row = .ok db') : Effect db db' id none none := by
  obtain ⟨db₁, hmaint, hdb⟩ := removeRow_ok hrem
  obtain ⟨hframe, howned, hcache, hmain⟩ := maintainIndexes_spec h.sound.owned h.cache hmaint
  have ht := hframe.tables
  have hstand : Standing db.store id.collection := ⟨k, hid ▸ hk, hd⟩
  rw [hdb]
  refine ⟨hstand, hframe.handle.trans ⟨rfl, rfl, rfl, rfl, rfl, rfl, rfl⟩, hcache,
    ht.catalogs, ht.names, ht.nextCollection, fun j => ?_, fun c' key' hne => ?_, ?_, ?_, ?_, rfl,
    fun _ _ _ _ => rfl⟩
  · simp only [ht.rows]
    split_ifs with hj
    · rw [hj, Finmap.lookup_erase]
    · rw [Finmap.lookup_erase_ne hj]
  · simp only [ht.mapping]
    rw [Finmap.lookup_erase_ne]
    rintro ⟨⟩
    exact hne rfl
  · exact mapped_erase (x := db₁.store) (ht.mapped (h.sound.mapped id.collection hstand))
      (by rw [ht.rows]; exact hrow)
  · rw [document_eq rfl hrow]
    exact ⟨hmain.follows, hmain.others⟩
  · exact howned.congr rfl rfl rfl

/-- **A step writes one row, and the indexes of its table follow it.** -/
lemma RowStep.effect (h : Consistent db) (hi : Collections.Inv db.ids) (hf : db.failed = false)
    {removed : Option EntityId} (hs : RowStep db db' removed) :
    ∃ id new row, Effect db db' id new row := by
  cases hs with
  | insert o c k key doc given stored id db₁ db₂ hk hd hkey hprep henc halloc hmaint hfin =>
      exact ⟨_, _, _, (insert_effect h hi hf hk hd hkey henc halloc hmaint hfin).1⟩
  | replace o c k row doc given stored id db₁ hk hd hid hrow hprep henc hmaint hdb =>
      exact ⟨_, _, _, replace_effect h hk hd hid hrow henc hmaint hdb⟩
  | remove o c k row id hk hd hid hrow hrem =>
      exact ⟨_, _, _, remove_effect h hk hd hid hrow hrem⟩

/-! ## Row numbers -/

lemma ids_withIds {d : Collections.Database} (h : Collections.Frame db.ids d) :
    (db.withIds d).ids = d := by
  obtain ⟨register, failed, sequence, blocks, pending, ⟨nextCollection, next, rows⟩, durable,
    uncertain⟩ := d
  obtain ⟨rfl, rfl, rfl, rfl, rfl, rfl, rfl⟩ := h
  rfl

lemma ids_sameButIndexes (h : SameButIndexes db db') : db'.ids = db.ids := by
  rw [h]; rfl

lemma keys_insert (id : EntityId) (row : Row) (rows : Finmap fun _ : EntityId => Row) :
    (fun j => ((rows.insert id row).lookup j).map Row.key)
      = Function.update (fun j => (rows.lookup j).map Row.key) id (some row.key) := by
  funext j
  by_cases hj : j = id
  · rw [hj, Finmap.lookup_insert, Function.update_self]; rfl
  · rw [Finmap.lookup_insert_of_ne _ hj, Function.update_of_ne hj]

lemma keys_erase (id : EntityId) (rows : Finmap fun _ : EntityId => Row) :
    (fun j => ((rows.erase id).lookup j).map Row.key)
      = Function.update (fun j => (rows.lookup j).map Row.key) id none := by
  funext j
  by_cases hj : j = id
  · rw [hj, Finmap.lookup_erase, Function.update_self]; rfl
  · rw [Finmap.lookup_erase_ne hj, Function.update_of_ne hj]

/-- The row numbers make a step that hands none out twice. -/
def IdStep (d d' : Collections.Database) : Prop :=
  ∃ op, (∀ d, Collections.Certain d op) ∧ Collections.Step d op d'

def IdSteps : Collections.Database → Collections.Database → Prop := Relation.ReflTransGen IdStep

lemma IdSteps.inv {d d' : Collections.Database} (h : Collections.Inv d) (hs : IdSteps d d') :
    Collections.Inv d' := by
  induction hs with
  | refl => exact h
  | tail _ hs ih =>
      obtain ⟨op, hp, hs⟩ := hs
      exact hs.inv ih (hp _)

lemma IdSteps.numbered {d d' : Collections.Database} (h : Collections.Numbered d)
    (hs : IdSteps d d') : Collections.Numbered d' := by
  induction hs with
  | refl => exact h
  | tail _ hs ih =>
      obtain ⟨op, -, hs⟩ := hs
      exact hs.numbered ih

lemma IdSteps.insert {d d' : Collections.Database} {key : String}
    (h : d.insert c key = .ok (id, d')) : IdSteps d d' :=
  .single ⟨.insert c key, fun _ => trivial, .insert h⟩

lemma IdSteps.delete {d : Collections.Database} (h : d.failed = false) (id : EntityId) :
    IdSteps d (d.delete id) := .single ⟨.delete id, fun _ => trivial, .delete h⟩

/-- **A row write is a step of the row numbers**, or none of them. -/
lemma RowStep.ids (h : Consistent db) (hi : Collections.Inv db.ids) (hf : db.failed = false)
    {removed : Option EntityId} (hs : RowStep db db' removed) : IdSteps db.ids db'.ids := by
  cases hs with
  | insert o c k key doc given stored id db₁ db₂ hk hd hkey hprep henc halloc hmaint hfin =>
      obtain ⟨d, hids, rfl⟩ := allocate_ok halloc
      have hframe := ((hi.live hf).allocate hi.legacy hids).1
      have ho : Owned (db.withIds d).store := h.sound.owned.congr rfl rfl rfl
      have hc : CacheOk (db.withIds d) := h.cache
      have hmid : db₂.ids = d :=
        (ids_sameButIndexes (maintainIndexes_spec ho hc hmaint).1).trans (ids_withIds hframe)
      have hrows : db'.ids = { d with store := { d.store with
          rows := Function.update d.store.rows id (some key) } } := by
        rw [finishInsert_ok hfin, ← hmid]
        simp only [Database.ids, keys_insert]
      have hfd : db.ids.failed = false := hf
      have hins : db.ids.insert k.id key = .ok (id, db'.ids) := by
        rw [Collections.Database.insert, hfd, hrows]
        simp [hids]
      exact .insert hins
  | replace o c k row doc given stored id db₁ hk hd hid hrow hprep henc hmaint hdb =>
      have hmid := ids_sameButIndexes (maintainIndexes_spec h.sound.owned h.cache hmaint).1
      have hsame : db'.ids = db.ids := by
        rw [hdb, ← hmid]
        simp only [Database.ids, Database.putRow, Database.setStore, keys_insert]
        congr 2
        rw [Function.update_eq_self_iff]
        have hrow' := congrArg (fun d => d.store.rows id) hmid
        simp only [Database.ids] at hrow'
        rw [hrow', hrow]
        rfl
      rw [hsame]
      exact .refl
  | remove o c k row id hk hd hid hrow hrem =>
      obtain ⟨db₁, hmaint, hdb⟩ := removeRow_ok hrem
      have hmid := ids_sameButIndexes (maintainIndexes_spec h.sound.owned h.cache hmaint).1
      have hdel : db'.ids = db.ids.delete id := by
        rw [hdb, ← hmid]
        simp only [Database.ids, Collections.Database.delete, keys_erase]
      rw [hdel]
      exact .delete hf id

end

end Engine
