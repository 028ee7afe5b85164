import Sekejap.Collections.RowCounts

/-!
# Foreign keys

A column that REFERENCES a table holds external keys of rows of it.  The write of a row looks its
foreign keys up in the mapping, and `delete` seeks the index on every referencing column before it
removes a row.  A predicated delete does not: `delete_candidate` removes the row as `delete` does, but
without the seek.

* **`intact_reachable`** — every foreign key names a live row, in every run in which a predicated
  delete is given no row that a row it leaves still names, and the first index on a referencing
  column is READY when a row is deleted by its key.
* **`intact_fails`** — a predicated delete of a row that is still named leaves the name dangling.
-/

open Collections (EntityId)

open Fallible

namespace Engine

/-! ## What a foreign key names -/

/-- A row holds a value in a column that references `target`. -/
structure Refers (x : Store) (id : EntityId) (k : Catalog) (r : Row) (field target : String)
    (v : Value) : Prop where
  catalog : x.catalogs id.collection = some k
  row : x.rows.lookup id = some r
  rule : ∃ rule, (field, rule) ∈ k.rules ∧ rule.references = some target
  value : r.document field = some v
  present : v.isNull = false

/-- **Every foreign key is the external key of a live row of the referenced table.** -/
def Intact (x : Store) : Prop :=
  ∀ id k r field target v, Refers x id k r field target v →
    ∃ t key n r', v = .string key ∧ x.names k.schema target = some t
      ∧ x.rows.lookup ⟨t, n⟩ = some r' ∧ r'.key = key

/-- A row names `key` in a foreign key to table `t`. -/
def Names (x : Store) (id : EntityId) (t : ℕ) (key : String) : Prop :=
  ∃ k r field target, Refers x id k r field target (.string key) ∧ x.names k.schema target = some t

section

variable {db db' db₁ : Database} {x x' : Store} {host : Host} {o : Call} {c t n : ℕ} {id : EntityId}
  {k : Catalog} {row : Row} {key field target : String} {v : Value} {rule : ColumnRule}
  {doc given stored : Document} {removed : Option EntityId}

/-- **A row is written whose foreign keys were looked up.** -/
lemma Intact.write (id : EntityId) (row : Row) (h : Intact x) (hcat : x'.catalogs = x.catalogs) (hnames : x'.names = x.names)
    (hrows : ∀ j, x'.rows.lookup j = if j = id then some row else x.rows.lookup j)
    (hkey : ∀ r, x.rows.lookup id = some r → r.key = row.key)
    (hchecked : ∀ k field rule target v, x.catalogs id.collection = some k →
      (field, rule) ∈ k.rules → rule.references = some target → row.document field = some v →
      v.isNull = false → ∃ t key n r', v = .string key ∧ x.names k.schema target = some t
        ∧ x.rows.lookup ⟨t, n⟩ = some r' ∧ r'.key = key) : Intact x' := by
  -- a key that was live still is
  have hlive : ∀ t n r, x.rows.lookup ⟨t, n⟩ = some r →
      ∃ r', x'.rows.lookup ⟨t, n⟩ = some r' ∧ r'.key = r.key := by
    intro t n r hr
    rw [hrows]
    split_ifs with hid
    · exact ⟨row, rfl, (hkey r (hid ▸ hr)).symm⟩
    · exact ⟨r, hr, rfl⟩
  intro j k r field target v hrefers
  obtain ⟨hk, hr, ⟨rule, hmem, href⟩, hv, hnull⟩ := hrefers
  rw [hcat] at hk
  rw [hrows] at hr
  have hfound : ∃ t key n r', v = .string key ∧ x.names k.schema target = some t
      ∧ x.rows.lookup ⟨t, n⟩ = some r' ∧ r'.key = key := by
    split_ifs at hr with hj
    · cases hr
      exact hchecked k field rule target v (hj ▸ hk) hmem href hv hnull
    · exact h j k r field target v ⟨hk, hr, ⟨rule, hmem, href⟩, hv, hnull⟩
  obtain ⟨t, key, n, r', rfl, ht, hr', rfl⟩ := hfound
  obtain ⟨r'', hr'', hkey''⟩ := hlive t n r' hr'
  exact ⟨t, r'.key, n, r'', rfl, by rw [hnames]; exact ht, hr'', hkey''⟩

/-- **Rows are removed that only removed rows name.** -/
lemma Intact.erase (S : EntityId → Prop) (h : Intact x) (hcat : x'.catalogs = x.catalogs)
    (hnames : x'.names = x.names) (hgone : ∀ j, S j → x'.rows.lookup j = none)
    (hkept : ∀ j, ¬ S j → x'.rows.lookup j = x.rows.lookup j)
    (hfree : ∀ id r, S id → x.rows.lookup id = some r → ∀ j, Names x j id.collection r.key → S j) :
    Intact x' := by
  intro j k r field target v hrefers
  obtain ⟨hk, hr, hrule, hv, hnull⟩ := hrefers
  rw [hcat] at hk
  have hj : ¬ S j := by
    intro hS
    rw [hgone j hS] at hr
    cases hr
  rw [hkept j hj] at hr
  have hold : Refers x j k r field target v := ⟨hk, hr, hrule, hv, hnull⟩
  obtain ⟨t, key, n, r', rfl, ht, hr', rfl⟩ := h j k r field target v hold
  refine ⟨t, r'.key, n, r', rfl, by rw [hnames]; exact ht, ?_, rfl⟩
  rw [hkept]
  · exact hr'
  · intro hS
    exact hj (hfree ⟨t, n⟩ r' hS hr' j ⟨k, r, field, target, hold, ht⟩)

lemma Intact.congr (h : Intact x) (hcat : x'.catalogs = x.catalogs) (hnames : x'.names = x.names)
    (hrows : x'.rows = x.rows) : Intact x' :=
  h.erase (fun _ => False) hcat hnames (fun _ hS => hS.elim) (fun j _ => by rw [hrows])
    fun _ _ hS => hS.elim

/-! ## The check on a write -/

lemma collectionIn_some {schema : Option String} {name : String}
    (h : db.collectionIn schema name = .ok (some t)) :
    db.store.names schema name = some t ∧ Standing db.store t := by
  simp only [Database.collectionIn, bind_eq_ok] at h
  obtain ⟨_, -, h⟩ := h
  cases hn : db.store.names schema name with
  | none => simp [hn] at h
  | some id =>
      simp only [hn, bind_eq_ok, pure_eq_ok, Option.some.injEq] at h
      obtain ⟨k, hk, _, -, rfl⟩ := h
      exact ⟨rfl, k, (catalog_ok hk).2⟩

lemma applyForeignKey_ok {u : Unit} (h : db.applyForeignKey k doc field rule = .ok u)
    (href : rule.references = some target) (hv : doc field = some v) (hnull : v.isNull = false) :
    ∃ key t, v = .string key ∧ db.collectionIn k.schema target = .ok (some t)
      ∧ (db.store.mapping.lookup (t, key)).isSome := by
  simp only [Database.applyForeignKey, href, hv, hnull, if_false, bind_eq_ok, orElse_eq_ok,
    refuse_eq_ok, Bool.false_eq_true] at h
  obtain ⟨key, hkey, found, hfound, t, rfl, hm⟩ := h
  refine ⟨key, t, ?_, hfound, by simpa [Option.isSome_iff_ne_none] using hm⟩
  cases v <;> simp_all [Value.asStr]

lemma applyForeignKeys_ok {rules : List (String × ColumnRule)} {u : Unit}
    (h : db.applyForeignKeys k doc rules = .ok u) (hmem : (field, rule) ∈ rules)
    (href : rule.references = some target) (hv : doc field = some v) (hnull : v.isNull = false) :
    ∃ key t, v = .string key ∧ db.collectionIn k.schema target = .ok (some t)
      ∧ (db.store.mapping.lookup (t, key)).isSome := by
  induction rules with
  | nil => simp at hmem
  | cons p rules ih =>
      obtain ⟨f, r⟩ := p
      simp only [Database.applyForeignKeys, bind_eq_ok] at h
      obtain ⟨_, hone, hrest⟩ := h
      rcases List.mem_cons.1 hmem with heq | hmem
      · cases heq
        exact applyForeignKey_ok hone href hv hnull
      · exact ih hrest hmem

/-- The document a write stores has had its foreign keys looked up. -/
lemma prepare_ok {old : Option Document} (h : db.prepare o k doc old = .ok given)
    (hmem : (field, rule) ∈ k.rules) (href : rule.references = some target)
    (hv : given field = some v) (hnull : v.isNull = false) :
    ∃ key t, v = .string key ∧ db.collectionIn k.schema target = .ok (some t)
      ∧ (db.store.mapping.lookup (t, key)).isSome := by
  simp only [Database.prepare, bind_eq_ok] at h
  obtain ⟨stamped, -, h⟩ := h
  split_ifs at h with hempty
  · rw [List.isEmpty_iff.1 hempty] at hmem
    simp at hmem
  · simp only [bind_eq_ok, pure_eq_ok] at h
    obtain ⟨ruled, -, _, hfk, rfl⟩ := h
    exact applyForeignKeys_ok hfk hmem href hv hnull

/-- A TEXT column is read back as it was written. -/
lemma encodeDense_text {fields : List (String × Kind)}
    (h : encodeDense host fields given = .ok stored) (hn : (fields.map Prod.fst).Nodup)
    (hf : (field, .text) ∈ fields) : stored field = given field := by
  rcases encodeDense_of_mem h hn hf with heq | ⟨v, w, hv, -, hw, hs⟩
  · exact heq
  · simp only [encodeField, bind_eq_ok, required, orElse_eq_ok, pure_eq_ok] at hw
    obtain ⟨s, hstr, rfl⟩ := hw
    rw [hs, hv]
    cases v <;> simp_all [Value.asStr]

/-- The foreign keys of a stored document name rows that are there. -/
lemma Sound.checked {old : Option Document} (h : Sound db.host db.store)
    (hk : db.store.catalogs c = some k) (hprep : db.prepare o k doc old = .ok given)
    (henc : encodeDense db.host k.fields given = .ok stored) :
    ∀ k' field rule target v, db.store.catalogs c = some k' → (field, rule) ∈ k'.rules →
      rule.references = some target → stored field = some v → v.isNull = false →
      ∃ t key n r', v = .string key ∧ db.store.names k'.schema target = some t
        ∧ db.store.rows.lookup ⟨t, n⟩ = some r' ∧ r'.key = key := by
  intro k' field rule target v hk' hmem href hv hnull
  cases hk.symm.trans hk'
  have htext := h.catalogued.references c k hk field rule hmem (by rw [href]; rfl)
  rw [encodeDense_text henc (h.catalogued.fields c k hk) htext] at hv
  obtain ⟨key, t, rfl, hin, hmap⟩ := prepare_ok hprep hmem href hv hnull
  obtain ⟨hname, hstand⟩ := collectionIn_some hin
  obtain ⟨n, hn⟩ := Option.isSome_iff_exists.1 hmap
  obtain ⟨r', hr', hkey⟩ := (h.mapped t hstand key n).1 hn
  exact ⟨t, key, n, r', rfl, hname, hr', hkey⟩

/-- **A write that returned** put one row, and its foreign keys name rows that are there. -/
lemma RowStep.intact (h : Good db) (hi : Intact db.store) (hs : RowStep db db' none) :
    Intact db'.store := by
  have hcons := h.consistent
  cases hs with
  | insert o c k key doc given stored id db₁ db₂ hk hd hkey hprep henc halloc hmaint hfin =>
      obtain ⟨d, hids, rfl⟩ := allocate_ok halloc
      have hid : id.collection = c :=
        (Collections.allocate_collection hids).trans (hcons.sound.catalogued.id c k hk).1
      have hfresh : db.store.rows.lookup id = none :=
        Option.map_eq_none_iff.1 (h.ids.fresh h.failed hids)
      have ho : Owned (db.withIds d).store := hcons.sound.owned.congr rfl rfl rfl
      have hcache : CacheOk (db.withIds d) := hcons.cache
      have ht := (maintainIndexes_spec ho hcache hmaint).1.tables
      rw [finishInsert_ok hfin]
      refine hi.write id ⟨key, stored⟩ ht.catalogs ht.names (fun j => ?_)
        (fun r hr => ?_) (hid ▸ hcons.sound.checked hk hprep henc)
      · simp only [ht.rows]
        split_ifs with hj
        · rw [hj, Finmap.lookup_insert]
        · rw [Finmap.lookup_insert_of_ne _ hj]
          rfl
      · rw [hfresh] at hr
        cases hr
  | replace o c k row doc given stored id db₁ hk hd hid hrow hprep henc hmaint hdb =>
      have ht := (maintainIndexes_spec hcons.sound.owned hcons.cache hmaint).1.tables
      rw [hdb]
      refine hi.write id ⟨row.key, stored⟩ ht.catalogs ht.names (fun j => ?_)
        (fun r hr => ?_) (hid ▸ hcons.sound.checked hk hprep henc)
      · simp only [Database.putRow, Database.setStore, ht.rows]
        split_ifs with hj
        · rw [hj, Finmap.lookup_insert]
        · rw [Finmap.lookup_insert_of_ne _ hj]
      · rw [hrow] at hr
        cases hr
        rfl

lemma RowRun.intact (h : Good db) (hi : Intact db.store) (hs : RowRun false db db') :
    Intact db'.store := by
  induction hs with
  | refl => exact hi
  | tail hrun hs ih =>
      rcases hs with rfl | ⟨-, removed, hs, hnone⟩
      · exact ih
      · cases removed with
        | none => exact hs.intact (RowRun.served h hrun).1.good ih
        | some id => exact absurd (hnone rfl) (by simp)

/-! ## The check on a delete -/

/-- The first index on every column that references `c` is READY. -/
def Seekable (db : Database) (c : ℕ) : Prop :=
  ∀ t k field rule target i, db.store.catalogs t = some k → (field, rule) ∈ k.rules →
    rule.references = some target → db.store.names k.schema target = some c →
    Database.scalarIndexOn (db.listIndexesAny t) field = some i → i.state = .ready

lemma referencingColumn_none {encoded : ScalarKey} {indexes : List IndexInfo}
    {rules : List (String × ColumnRule)}
    (h : db.referencingColumn c encoded k indexes rules = .ok none) (hmem : (field, rule) ∈ rules)
    (href : rule.references = some target) (hc : db.collectionIn k.schema target = .ok (some c)) :
    ∃ i, Database.scalarIndexOn indexes field = some i
      ∧ ∀ e ∈ db.store.entriesOf i, e.index = i.id → e.value ≠ encoded := by
  induction rules with
  | nil => simp at hmem
  | cons p rules ih =>
      obtain ⟨f, r⟩ := p
      rw [Database.referencingColumn] at h
      rcases List.mem_cons.1 hmem with heq | hmem
      · cases heq
        simp only [href, bind_eq_ok] at h
        obtain ⟨found, hfound, h⟩ := h
        cases hc.symm.trans hfound
        simp only [if_true, bind_eq_ok, orElse_eq_ok] at h
        obtain ⟨i, hi, h⟩ := h
        refine ⟨i, hi, fun e he hidx hval => ?_⟩
        rw [if_pos ⟨e, he, hidx, hval⟩] at h
        cases h
      · have hrest : db.referencingColumn c encoded k indexes rules = .ok none := by
          cases hr : r.references with
          | none =>
              simp only [hr] at h
              exact h
          | some target' =>
              simp only [hr, bind_eq_ok] at h
              obtain ⟨found, -, h⟩ := h
              split_ifs at h
              · simp only [bind_eq_ok] at h
                obtain ⟨i, -, h⟩ := h
                split_ifs at h
                · cases h
                · exact h
              · exact h
        exact ih hrest hmem

lemma referencingTable_none {encoded : ScalarKey} {tables : List Catalog}
    (h : db.referencingTable c encoded tables = .ok none) (hmem : k ∈ tables)
    (hin : db.collectionIn k.schema k.name = .ok (some t)) (hcat : db.catalog t = .ok k)
    (hrule : (field, rule) ∈ k.rules) (href : rule.references = some target) :
    db.referencingColumn c encoded k (db.listIndexesAny t) k.rules = .ok none := by
  induction tables with
  | nil => simp at hmem
  | cons k' tables ih =>
      simp only [Database.referencingTable, bind_eq_ok] at h
      obtain ⟨found, hfound, h⟩ := h
      rcases List.mem_cons.1 hmem with rfl | hmem
      · cases hin.symm.trans hfound
        simp only [hcat, bind_eq_ok, Except.ok.injEq, exists_eq_left'] at h
        have hsome : ¬ (k.rules.all fun rule => rule.2.references.isNone) = true := by
          rw [List.all_eq_true]
          intro hall
          have := hall _ hrule
          simp [href] at this
        rw [if_neg hsome] at h
        simp only [bind_eq_ok, Database.listIndexes, hcat, Except.ok.injEq, exists_eq_left',
          pure_eq_ok] at h
        obtain ⟨column, hcolumn, h⟩ := h
        cases column with
        | some f => simp at h
        | none => exact hcolumn
      · refine ih ?_ hmem
        cases found with
        | none => exact h
        | some id =>
            simp only [bind_eq_ok] at h
            obtain ⟨k'', -, h⟩ := h
            split_ifs at h
            · exact h
            · simp only [bind_eq_ok] at h
              obtain ⟨indexes, -, column, -, h⟩ := h
              cases column with
              | some f => simp at h
              | none => exact h

/-- A table is found under its name. -/
lemma catalog_of (hf : db.failed = false) (hk : db.store.catalogs c = some k) (hd : k.drop = none) :
    db.catalog c = .ok k := by
  simp [Database.catalog, Database.catalogAny, refuse, hf, hk, hd, orElse, bind, Except.bind, pure,
    Except.pure]

lemma collectionIn_of (h : Good db) (hk : db.store.catalogs c = some k) (hd : k.drop = none) :
    db.collectionIn k.schema k.name = .ok (some c) := by
  simp [Database.collectionIn, h.consistent.sound.catalogued.name c k hk, catalog_of h.failed hk hd,
    h.failed, refuse, bind, Except.bind, pure, Except.pure]

/-- **No row names a key the check has not found**, where the indexes it seeks are READY and no table
is being dropped. -/
lemma referencingRow_none (h : Good db) (hstand : ∀ c k, db.store.catalogs c = some k → k.drop = none)
    (hseek : Seekable db c) (href : db.referencingRow c key = .ok none) (j : EntityId) :
    ¬ Names db.store j c key := by
  rintro ⟨k, r, field, target, ⟨hk, hr, ⟨rule, hmem, hrule⟩, hv, -⟩, hname⟩
  have hsound := h.consistent.sound
  have hcat := hsound.catalogued
  obtain ⟨hid, hlt⟩ := hcat.id _ k hk
  have hd := hstand _ k hk
  simp only [Database.referencingRow, bind_eq_ok] at href
  obtain ⟨encoded, henc, href⟩ := href
  have htable : k ∈ db.tables := by
    simp only [Database.tables, List.mem_filterMap, List.mem_range]
    exact ⟨j.collection, hlt, hk⟩
  have hcolumn := referencingTable_none href htable (collectionIn_of h hk hd)
    (catalog_of h.failed hk hd) hmem hrule
  obtain ⟨k', hk', hschema, rfl⟩ := hcat.named _ _ _ hname
  have hin := collectionIn_of h hk' (hstand c k' hk')
  rw [hschema] at hin
  obtain ⟨i, hi, hnone⟩ := referencingColumn_none hcolumn hmem hrule hin
  have hready := hseek _ k field rule _ i hk hmem hrule hname hi
  rw [Database.scalarIndexOn, List.find?_eq_some_iff_append] at hi
  obtain ⟨hfound, as, bs, hlist, -⟩ := hi
  simp only [Bool.decide_and, Bool.and_eq_true, decide_eq_true_eq, Option.isNone_iff_eq_none]
    at hfound
  obtain ⟨rfl, hexpr⟩ := hfound
  have hmemi : i ∈ db.listIndexesAny j.collection := by rw [hlist]; simp
  obtain ⟨hindex, hcol⟩ := (mem_listIndexesAny hsound.owned).1 hmemi
  -- the index is over the TEXT column
  obtain ⟨-, k₁, hk₁, hfield⟩ := hsound.field _ _ (view_eq_some hindex)
  have hk₁' : k₁ = k := by
    rw [bare_collection, hcol, hk] at hk₁
    exact (Option.some.inj hk₁).symm
  subst hk₁'
  have htext := hcat.references _ k₁ hk i.field rule hmem (by rw [hrule]; rfl)
  have hkind : (i.field, i.kind) ∈ k₁.fields := by
    have : (i.field, sourceKind i.kind i.expression) ∈ k₁.fields := hfield
    rw [hexpr] at this
    exact this
  have hkindeq : i.kind = .text := congrArg Prod.snd
    (List.inj_on_of_nodup_map (hcat.fields _ k₁ hk) hkind htext rfl)
  have hderive : i.derive db.host r.document = .ok encoded := by
    rw [IndexInfo.derive, hexpr, derive, hkindeq, hv]
    exact henc
  have hentry := (hsound.agrees.entries _ i hindex hready ⟨k₁, hcol ▸ hk, hd⟩
    ⟨i.id, encoded, j.sequence⟩).2 ⟨rfl, r, by rw [hcol]; exact hr, hderive⟩
  exact hnone _ hentry rfl rfl

/-! ## Removals -/

lemma removeRow_rows (h : Good db) (hrem : db.removeRow o id row = .ok db') :
    db'.store.catalogs = db.store.catalogs ∧ db'.store.names = db.store.names
      ∧ db'.store.rows = db.store.rows.erase id := by
  obtain ⟨db₁, hmaint, hdb⟩ := removeRow_ok hrem
  have ht := (maintainIndexes_spec h.consistent.sound.owned h.consistent.cache hmaint).1.tables
  rw [hdb]
  exact ⟨ht.catalogs, ht.names, by rw [← ht.rows]⟩

lemma delete_intact {found : Bool} (h : Good db) (hi : Intact db.store)
    (hstand : ∀ c k, db.store.catalogs c = some k → k.drop = none) (hseek : Seekable db c)
    (hok : db.delete o c key = .ok (found, db')) : Intact db'.store := by
  rcases delete_steps hok with rfl | ⟨id, k, row, hk, hd, rfl, hrow, rfl, href, hrem⟩
  · exact hi
  · obtain ⟨hcat, hnames, hrows⟩ := removeRow_rows h.written.good hrem
    refine hi.erase (fun j => j = id) hcat hnames (fun j hj => ?_) (fun j hj => ?_)
      fun id' r hid hr j hj => ?_
    · rw [hrows, hj, Finmap.lookup_erase]
    · rw [hrows, Finmap.lookup_erase_ne hj]
      rfl
    · subst hid
      cases hrow.symm.trans hr
      exact absurd hj (referencingRow_none h.written.good hstand hseek href j)

/-- **A page of deletes** removes the rows at its candidates. -/
lemma deletePage_rows {page : List (Call × EntityId)} (h : Good db) (hs : Standing db.store c)
    (hok : Database.writeCandidates (fun db o id => db.deleteCandidate o c id) db page = .ok db') :
    db'.store.catalogs = db.store.catalogs ∧ db'.store.names = db.store.names
      ∧ ∀ j, (j ∈ page.map Prod.snd → j.collection = c ∧ db'.store.rows.lookup j = none)
        ∧ (j ∉ page.map Prod.snd → db'.store.rows.lookup j = db.store.rows.lookup j) := by
  induction page generalizing db with
  | nil =>
      cases hok
      exact ⟨rfl, rfl, fun j => by simp⟩
  | cons p page ih =>
      obtain ⟨o, id⟩ := p
      simp only [Database.writeCandidates, bind_eq_ok, Prod.exists] at hok
      obtain ⟨found, db₁, hone, hrest⟩ := hok
      obtain ⟨hid, hcase⟩ := deleteCandidate_steps hone
      have hfirst : Good db₁ ∧ db₁.store.catalogs = db.store.catalogs
          ∧ db₁.store.names = db.store.names ∧ db₁.store.rows.lookup id = none
          ∧ ∀ j, j ≠ id → db₁.store.rows.lookup j = db.store.rows.lookup j := by
        rcases hcase with ⟨rfl, hrow⟩ | ⟨row, hrow, hrem⟩
        · exact ⟨h.written.good, rfl, rfl, hrow, fun _ _ => rfl⟩
        · obtain ⟨k, hk, hd⟩ := hs
          have hstep : RowStep db.written db₁ (some id) := .remove o c k row id hk hd hid hrow hrem
          obtain ⟨hcat, hnames, hrows⟩ := removeRow_rows h.written.good hrem
          refine ⟨(hstep.served h.written.good).1.good, hcat, hnames, ?_, fun j hj => ?_⟩
          · rw [hrows, Finmap.lookup_erase]
          · rw [hrows, Finmap.lookup_erase_ne hj]
            rfl
      obtain ⟨hgood, hcat, hnames, hgone, hkept⟩ := hfirst
      obtain ⟨hcat', hnames', hrows'⟩ := ih hgood (by rw [Standing, hcat]; exact hs) hrest
      refine ⟨hcat'.trans hcat, hnames'.trans hnames, fun j => ⟨fun hj => ?_, fun hj => ?_⟩⟩
      · by_cases hp : j ∈ page.map Prod.snd
        · exact (hrows' j).1 hp
        · obtain rfl : j = id := by simpa [hp] using hj
          exact ⟨hid, by rw [(hrows' j).2 hp]; exact hgone⟩
      · simp only [List.map_cons, List.mem_cons, not_or] at hj
        rw [(hrows' j).2 hj.2, hkept j hj.1]

/-- Every row that names one of some rows of table `c` is one of them. -/
def Unnamed (x : Store) (c : ℕ) (page : List EntityId) : Prop :=
  ∀ id ∈ page, ∀ r, x.rows.lookup id = some r → ∀ j, Names x j c r.key → j ∈ page

lemma deletePage_intact {page : List (Call × EntityId)} (h : Good db) (hi : Intact db.store)
    (hpage : Unnamed db.store c (page.map Prod.snd)) (hok : db.deletePage c page = .ok db') :
    Intact db'.store := by
  simp only [Database.deletePage, bind_eq_ok] at hok
  obtain ⟨k, hk, hok⟩ := hok
  obtain ⟨hcat, hnames, hrows⟩ := deletePage_rows h ⟨k, (catalog_ok hk).2⟩ hok
  refine hi.erase (fun j => j ∈ page.map Prod.snd) hcat hnames (fun j hj => ((hrows j).1 hj).2)
    (fun j hj => (hrows j).2 hj) fun id r hid hr j hj => ?_
  rw [((hrows id).1 hid).1] at hj
  exact hpage id hid r hr j hj

/-! ## Tables -/

/-- No table of a store is being dropped. -/
def AllStanding (x : Store) : Prop := ∀ c k, x.catalogs c = some k → k.drop = none

/-- A new table has no rows, and takes no other table's name. -/
lemma createTable_intact {d : Declaration} (h : Good db) (hi : Intact db.store)
    (hstand : AllStanding db.store) (hok : db.createTable d = .ok (c, db')) :
    Intact db'.store ∧ AllStanding db'.store := by
  simp only [Database.createTable, bind_eq_ok, refuse_eq_ok, pure_eq_ok, Prod.mk.injEq] at hok
  obtain ⟨db₁, hu, _, -, _, -, _, -, found, hfound, _, hnone, _, -, fields, -, rfl, rfl⟩ := hok
  obtain ⟨-, rfl⟩ := userWrite_ok hu
  obtain rfl : found = none := by simpa using hnone
  have hfree := collectionIn_none hfound
  have hsound := h.consistent.sound
  constructor
  · rintro j k r field target v ⟨hk, hr, hrule, hv, hnull⟩
    have hne : j.collection ≠ db.store.nextCollection := by
      intro he
      obtain ⟨k', hk'⟩ := Option.isSome_iff_exists.1 (hsound.row j r hr)
      exact absurd (hsound.catalogued.id _ k' hk').2 (by rw [he]; exact lt_irrefl _)
    have hk' : db.store.catalogs j.collection = some k :=
      (Function.update_of_ne hne _ _).symm.trans hk
    obtain ⟨t, key, n, r', hv', ht, hr', hkey⟩ := hi j k r field target v ⟨hk', hr, hrule, hv, hnull⟩
    refine ⟨t, key, n, r', hv', ?_, hr', hkey⟩
    refine (update_names _ _ _ _ k.schema target).trans ?_
    rw [if_neg]
    · exact ht
    · rintro ⟨hs, hm⟩
      rw [hs, hm] at ht
      exact absurd (hfree.symm.trans ht) (by simp)
  · intro c k hk
    have hk' : Function.update db.store.catalogs db.store.nextCollection _ c = some k := hk
    rw [Function.update_apply] at hk'
    split_ifs at hk'
    · cases hk'
      rfl
    · exact hstand c k hk'

/-! ## Every run -/

/-- **What a run has to spare**: no predicated delete is given a row that a row it leaves still
names, the indexes a delete by key seeks are READY, and no table is dropped. -/
def Sparing (db : Database) : Op → Prop
  | .call (.delete _ c _) => Seekable db c
  | .call (.deletePage c page) => Unnamed db.store c (page.map Prod.snd)
  | .call (.beginDropCollection _) => False
  | op => Certain db op

lemma Sparing.certain {op : Op} (h : Sparing db op) : Certain db op := by
  cases op with
  | call r => trivial
  | refused | commitUncertain | fail | rollback | rollbackFails | reopen => exact h

/-- Tables, names and rows are as they were. -/
lemma SameTables.intact (ht : SameTables x x') (hi : Intact x) (hs : AllStanding x) :
    Intact x' ∧ AllStanding x' :=
  ⟨hi.congr ht.catalogs ht.names ht.rows, fun c k hk => hs c k (ht.catalogs ▸ hk)⟩

lemma flush_tables (hok : db.flush = .ok db') : SameTables db.store db'.store := by
  simp only [Database.flush, bind_eq_ok, refuse_eq_ok] at hok
  obtain ⟨_, -, hok⟩ := hok
  have ht := (onlyCounts_flushCounts hok).aside.tables
  exact ⟨ht.catalogs, ht.names, ht.nextCollection, ht.rows, ht.mapping⟩

/-- A request that is not a commit. -/
lemma call_intact {r : Request} (h : Good db) (hi : Intact db.store) (hs : AllStanding db.store)
    (hp : Sparing db (.call r)) (hok : db.call r = .ok db') :
    Intact db'.store ∧ AllStanding db'.store := by
  cases call_done h hok with
  | schema =>
      refine SameTables.intact ?_ hi hs
      exact ⟨rfl, rfl, rfl, rfl, rfl⟩
  | collection hdo =>
      obtain ⟨hi', hs'⟩ := createTable_intact h hi hs hdo
      refine SameTables.intact ?_ hi' hs'
      exact ⟨rfl, rfl, rfl, rfl, rfl⟩
  | table hdo => exact createTable_intact h hi hs hdo
  | rows _ hrun => exact ⟨hrun.intact h hi, fun c k hk => hs c k ((hrun.served h).2 ▸ hk)⟩
  | delete hdo =>
      exact ⟨delete_intact h hi hs hp hdo, fun c k hk => hs c k (((delete_run hdo).served h).2 ▸ hk)⟩
  | deletePage hdo =>
      exact ⟨deletePage_intact h hi hp hdo, fun c k hk =>
        hs c k (((deletePage_run h hdo).served h).2 ▸ hk)⟩
  | indexes hre => exact hre.only.tables.intact hi hs
  | backfill => exact (aside_backfillLoop db _ _ 0 0).tables.intact hi hs
  | beginDrop => exact hp.elim
  | dropStep hdo =>
      obtain ⟨k, d, hk, -, hd, -⟩ := dropCollectionStep_done h hdo
      rw [hs _ k hk] at hd
      cases hd
  | commit hdo =>
      simp only [Database.commit, bind_eq_ok, pure_eq_ok] at hdo
      obtain ⟨db₁, hflush, rfl⟩ := hdo
      exact (flush_tables hflush).intact hi hs

lemma intact_empty : Intact .empty ∧ AllStanding .empty := by
  constructor
  · rintro id k r field target v ⟨hk, -⟩
    cases hk
  · intro c k hk
    cases hk

/-- What a run keeps of the foreign keys. -/
lemma lasts_intact :
    Lasts Sparing (fun x => Intact x ∧ AllStanding x) fun db => Intact db.store ∧ AllStanding db.store where
  call h hi hp hok := call_intact h hi.1 hi.2 hp hok
  written hi := hi
  flush _ hi hok := (flush_tables hok).intact hi.1 hi.2
  opened hi _ _ := hi

/-- **Referential integrity.**  Every value of a referencing column that is present and not null is
the external key of a live row of the referenced table, in the durable tree and in the working tree
of a handle that has not failed, in every run that spares the rows that are named. -/
theorem intact_reachable (h : Reachable Sparing db) :
    Intact db.durable ∧ (db.failed = false → Intact db.store) :=
  have hinv := h.carried lasts_intact (fun _ _ hp => hp.certain) intact_empty
  ⟨hinv.durable.1, fun hf => (hinv.live hf).1⟩

end

/-- `pets (owner TEXT REFERENCES people)` -/
def pets : Declaration :=
  ⟨none, "pets", [("owner", .text)], [("owner", ⟨none, false, some "people"⟩)], false⟩

/-- A pet names its owner in a column with a READY index. -/
def ownedRun : List Op :=
  [.call (.createCollection people), .call (.createCollection pets),
    .call (.createScalarIndex 2 "by_owner" "owner" false true),
    .call (.buildIndexStep plainCall 1 256), .call (.insert plainCall 1 "ada" (age 36)),
    .call (.insert plainCall 2 "rex" [("owner", .string "ada")]), .call .commit]

/-- Every referencing column has a READY index. -/
def indexed (db : Database) : Bool :=
  db.tables.all fun k => k.rules.all fun rule => rule.2.references.isNone
    || (db.listIndexesAny k.id).any fun i =>
      i.field = rule.1 && i.expression.isNone && i.state = .ready

lemma ownedRun_reachable {db : Database}
    (h : (Database.create plainHost true).performs ownedRun = .ok db) : Reachable Sparing db :=
  Reachable.performs (.create plainHost true)
    (by intro op hop db; fin_cases hop <;> trivial) h

/-- What the pet's column holds. -/
def ownerOf (x : Store) : Option String :=
  (x.rows.lookup ⟨2, 1⟩).bind fun r => (r.document "owner").bind Value.asStr

theorem intact_ownedRun : ∃ db, (Database.create plainHost true).performs ownedRun = .ok db
    ∧ ownerOf db.store = some "ada" ∧ (db.store.rows.lookup ⟨1, 1⟩).map Row.key = some "ada"
    ∧ Intact db.store := by
  have hrun : okAnd ((Database.create plainHost true).performs ownedRun) (fun db =>
      !db.failed && ownerOf db.store = some "ada"
        && (db.store.rows.lookup ⟨1, 1⟩).map Row.key = some "ada") = true := by
    decide +kernel
  obtain ⟨db, hok, hdb⟩ := exists_of_okAnd hrun
  simp only [Bool.and_eq_true, Bool.not_eq_true', decide_eq_true_eq] at hdb
  exact ⟨db, hok, hdb.1.2, hdb.2, (intact_reachable (ownedRun_reachable hok)).2 hdb.1.1⟩

/-- **A predicated delete does not look for the rows that name the row it removes.** -/
theorem intact_fails : ¬ ∀ db c page db', Reachable Sparing db → db.failed = false →
    indexed db = true → db.deletePage c page = .ok db' → Intact db'.store := by
  intro h
  have hrun : okAnd ((Database.create plainHost true).performs ownedRun) (fun db =>
      !db.failed && indexed db && okAnd (db.deletePage 1 [(plainCall, ⟨1, 1⟩)]) (fun db' =>
        (db'.store.catalogs 2).any (fun k => k.rules.any fun rule =>
          rule.1 = "owner" && rule.2.references = some "people")
        && ownerOf db'.store = some "ada" && db'.store.names none "people" = some 1
        && db'.store.live 1 = ∅ && (db'.store.catalogs 2).any (fun k => k.schema = none))) = true := by
    decide +kernel
  obtain ⟨db, hok, hdb⟩ := exists_of_okAnd hrun
  simp only [Bool.and_eq_true, Bool.not_eq_true'] at hdb
  obtain ⟨⟨hf, hindexed⟩, hpage⟩ := hdb
  obtain ⟨db', hok', hdb'⟩ := exists_of_okAnd hpage
  have hintact := h db 1 _ db' (ownedRun_reachable hok) hf hindexed hok'
  simp only [Bool.and_eq_true, decide_eq_true_eq, Option.any_eq_true, List.any_eq_true] at hdb'
  obtain ⟨⟨⟨⟨⟨k, hk, ⟨field, rule⟩, hmem, rfl, href⟩, howner⟩, hname⟩, hlive⟩, k', hk', hschema⟩ :=
    hdb'
  cases hk.symm.trans hk'
  obtain ⟨r, hr, howner⟩ := Option.bind_eq_some_iff.1 howner
  obtain ⟨v, hv, hstr⟩ := Option.bind_eq_some_iff.1 howner
  have hstring : v = .string "ada" := by
    cases v <;> simp_all [Value.asStr]
  subst hstring
  obtain ⟨t, key, n, r', -, ht, hr', -⟩ := hintact ⟨2, 1⟩ k r "owner" "people" (.string "ada")
    ⟨hk, hr, ⟨rule, hmem, href⟩, hv, rfl⟩
  rw [hschema, hname] at ht
  cases ht
  have hmem : n ∈ db'.store.live 1 := mem_live_iff.2 (by rw [hr']; rfl)
  rw [hlive] at hmem
  exact absurd hmem (Finset.notMem_empty n)

end Engine
