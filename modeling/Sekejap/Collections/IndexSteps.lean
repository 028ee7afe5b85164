import Sekejap.Collections.RowSteps

/-!
# What the index requests do

An index that is created covers no row; a build covers the rows it has reached, and the last step of
a build, in batches or from the sorted keys, covers all of them.  A step may be followed by any row
writes, by the steps of the other way to build, or by a drop.

* **`createIndexFull_sound`**, **`buildIndexStep_sound`**, **`buildSortedRun_sound`**,
  **`beginDropIndex_sound`**, **`dropIndexStep_sound`** — each keeps rows, keys and indexes in
  agreement, and touches nothing but the indexes.
-/

open Collections (EntityId)

open Fallible

namespace Engine

/-- Nothing but the indexes has changed. -/
def OnlyIndexes (db db' : Database) : Prop :=
  db' = { db with
    indexListCache := db'.indexListCache
    indexListGeneration := db'.indexListGeneration
    store := { db.store with
      nextIndex := db'.store.nextIndex
      indexes := db'.store.indexes
      indexNames := db'.store.indexNames
      entries := db'.store.entries
      trees := db'.store.trees } }

/-- **An index request returned.** -/
structure Reindexed (db db' : Database) : Prop where
  only : OnlyIndexes db db'
  consistent : Consistent db'

section

variable {db db' db₁ : Database} {x x' : Store} {host : Host} {o : Call} {c n seq : ℕ}
  {i i' : IndexInfo} {v : View} {E : Finset Entry} {rows : List (ℕ × ScalarKey)}
  {covered : ℕ → Prop} {R : ℕ → Option Document} {key : Document → Option ScalarKey}

lemma OnlyIndexes.refl (db : Database) : OnlyIndexes db db := rfl

lemma OnlyIndexes.trans (h : OnlyIndexes db db₁) (h' : OnlyIndexes db₁ db') :
    OnlyIndexes db db' := by
  rw [OnlyIndexes] at h h' ⊢
  rw [h] at h'
  exact h'

lemma SameButIndexes.only (h : SameButIndexes db db') : OnlyIndexes db db' := by
  rw [SameButIndexes] at h
  rw [OnlyIndexes, h]

lemma OnlyIndexes.handle (h : OnlyIndexes db db') : SameHandle db db' := by
  rw [OnlyIndexes] at h
  exact ⟨by rw [h], by rw [h], by rw [h], by rw [h], by rw [h], by rw [h], by rw [h]⟩

lemma OnlyIndexes.tables (h : OnlyIndexes db db') : SameTables db.store db'.store := by
  rw [OnlyIndexes] at h
  exact ⟨by rw [h], by rw [h], by rw [h], by rw [h], by rw [h]⟩

lemma OnlyIndexes.ids (h : OnlyIndexes db db') : db'.ids = db.ids := by
  rw [h]; rfl

lemma onlyIndexes_saveIndex (db : Database) (i : IndexInfo) : OnlyIndexes db (db.saveIndex i) := rfl

/-- What is known of an index that was written, for the agreement to go on. -/
structure Fits (host : Host) (x : Store) (v : View) : Prop where
  field : v.info.kind.isScalar = true ∧ ∃ k, x.catalogs v.info.collection = some k
    ∧ (v.info.field, sourceKind v.info.kind v.info.expression) ∈ k.fields
  exact : Standing x v.info.collection → Exact host x v

lemma Sound.fits (h : Sound host x) (hv : x.view n = some v) : Fits host x v :=
  ⟨h.field n v hv, h.exact n v hv⟩

/-- **The indexes may change while each still fits the rows.** -/
lemma Consistent.reindexed (h : Consistent db) (ho : OnlyIndexes db db') (howned : Owned db'.store)
    (hcache : CacheOk db')
    (hview : ∀ n v, db'.store.view n = some v → Fits db.host db.store v) : Consistent db' := by
  have ht := ho.tables
  have hh := ho.handle
  have hdoc : db'.store.document = db.store.document := by
    funext c n
    rw [Store.document, Store.document, ht.rows]
  have hstand : ∀ c, Standing db'.store c ↔ Standing db.store c := fun c => by
    rw [Standing, Standing, ht.catalogs]
  have hs := h.sound
  refine ⟨⟨howned, hs.catalogued.congr ht.catalogs ht.names ht.nextCollection, ?_, ?_, ?_, ?_, ?_⟩,
    hcache, ?_⟩
  · rw [ht.rows, ht.catalogs]; exact hs.row
  · rw [ht.mapping, ht.catalogs]; exact hs.key
  · intro n v hv
    rw [ht.catalogs]
    exact (hview n v hv).field
  · intro c hc
    exact ht.mapped (hs.mapped c ((hstand c).1 hc))
  · intro n v hv hc
    have hex := (hview n v hv).exact ((hstand _).1 hc)
    rw [hh.host]
    exact ⟨fun hs => hdoc ▸ hex.files hs, hex.distinct⟩
  · rw [ht.catalogs, hh.dropping]
    exact h.dropping

/-! ## Descriptors -/

/-- A descriptor is written; its tree stays where it is. -/
lemma view_saveIndex (db : Database) (i : IndexInfo) :
    (db.saveIndex i).store.view
      = Function.update db.store.view i.id (some ⟨i.bare, db.store.entriesOf i⟩) := by
  funext n
  by_cases hn : n = i.id
  · subst hn
    rw [Function.update_self]
    exact view_eq_some (Function.update_self ..)
  · rw [Function.update_of_ne hn]
    have hidx : (db.saveIndex i).store.indexes n = db.store.indexes n :=
      Function.update_of_ne hn _ _
    simp only [Store.view, hidx]
    rfl

lemma cacheOk_none (h : db.indexListCache = none) : CacheOk db := by
  intro c l hl
  rw [h] at hl
  cases hl

/-- **One index is written and its state is saved.** -/
lemma Rewritten.restated (h : Consistent db) (hi : db.store.indexes i.id = some i)
    (hw : Rewritten db db₁ i i' E) (hE : ∀ e ∈ E, e.index = i.id) (state : IndexState)
    (hexact : Standing db.store i.collection →
      Exact db.host db.store ⟨{ i with state }.bare, E⟩) :
    Reindexed db (db₁.saveIndex { i' with state }) := by
  have hid := hw.id
  have hbare : { i' with state }.bare = { i with state }.bare :=
    congrArg (fun j : IndexInfo => { j with state }) hw.bare
  have hview : (db₁.saveIndex { i' with state }).store.view
      = Function.update db.store.view i.id (some ⟨{ i with state }.bare, E⟩) := by
    have hE' : db₁.store.entriesOf { i' with state } = E := hw.entriesOf_eq
    rw [view_saveIndex, hbare, hE', hw.view]
    simp only [hid, Function.update_idem]
  have honly : OnlyIndexes db (db₁.saveIndex { i' with state }) :=
    hw.frame.only.trans (onlyIndexes_saveIndex _ _)
  have hold := view_eq_some hi
  have hnext : db₁.store.nextIndex = db.store.nextIndex := by rw [hw.frame]
  have howned : Owned (db₁.saveIndex { i' with state }).store :=
    h.sound.owned.update hold hview rfl rfl hE hnext hw.shared
  refine ⟨honly, h.reindexed honly howned (cacheOk_none rfl) fun n v hv => ?_⟩
  rw [hview] at hv
  by_cases hn : n = i.id
  · subst hn
    rw [Function.update_self] at hv
    cases hv
    exact ⟨(h.sound.fits hold).field, hexact⟩
  · rw [Function.update_of_ne hn] at hv
    exact h.sound.fits hv

/-- **One index is written and stays in its state.** -/
lemma Rewritten.reindexed (h : Consistent db) (hi : db.store.indexes i.id = some i)
    (hw : Rewritten db db₁ i i' E) (hE : ∀ e ∈ E, e.index = i.id)
    (hexact : Standing db.store i.collection → Exact db.host db.store ⟨i.bare, E⟩) :
    Reindexed db db₁ := by
  have hold := view_eq_some hi
  refine ⟨hw.frame.only, h.reindexed hw.frame.only (hw.owned h.sound.owned hi hE)
    (hw.cacheOk h.cache) fun n v hv => ?_⟩
  rw [hw.view] at hv
  by_cases hn : n = i.id
  · subst hn
    rw [Function.update_self] at hv
    cases hv
    exact ⟨(h.sound.fits hold).field, hexact⟩
  · rw [Function.update_of_ne hn] at hv
    exact h.sound.fits hv

lemma Reindexed.refl (h : Consistent db) : Reindexed db db := ⟨.refl db, h⟩

/-! ## Creation -/

lemma indexInfo_ok (h : db.indexInfo n = .ok i) : db.failed = false ∧ db.store.indexes n = some i := by
  simp only [Database.indexInfo, bind_eq_ok, refuse_eq_ok, orElse_eq_ok, Bool.not_eq_true] at h
  obtain ⟨_, hf, hi⟩ := h
  exact ⟨hf, hi⟩

/-- An index that has no entries covers the rows with number 0, and there are none. -/
lemma exact_empty (hrows : ∀ id r, x.rows.lookup id = some r → 0 < id.sequence)
    (hs : v.info.state = .building 0) (hE : v.entries = ∅) : Exact host x v := by
  have hfiled : ∀ p, p ∉ filed v.info.id v.entries := by
    intro p hp
    rw [hE] at hp
    exact absurd hp (Finset.notMem_empty _)
  refine ⟨fun _ => ⟨fun w n hw => absurd hw (hfiled _), fun n d hc hd => ?_⟩,
    fun _ w n m _ _ hn => absurd hn (hfiled _)⟩
  rw [hs] at hc
  obtain ⟨r, hr, -⟩ := Option.map_eq_some_iff.1 hd
  exact absurd (hrows _ r hr) (not_lt.2 hc)

/-- **A new index covers no row.** -/
lemma createIndexFull_sound {name field : String} {kind : Kind} {unique withTree : Bool}
    {expression : Option IndexExpr} (h : Consistent db)
    (hrows : ∀ id r, db.store.rows.lookup id = some r → 0 < id.sequence)
    (hkind : kind.isScalar = true)
    (hfield : ∃ k, db.store.catalogs c = some k ∧ (field, sourceKind kind expression) ∈ k.fields)
    (hok : db.createIndexFull c name field kind unique withTree expression = .ok (n, db')) :
    Reindexed db db' := by
  simp only [Database.createIndexFull, bind_eq_ok, pure_eq_ok, Prod.mk.injEq] at hok
  obtain ⟨_, -, _, -, list, -, _, -, _, -, _, -, _, -, rfl, rfl⟩ := hok
  have ho := h.sound.owned
  set i : IndexInfo := ⟨db.store.nextIndex, c, name, field, kind, unique, .building 0,
    if withTree then some ⟨db.store.nextIndex + 1, 0⟩ else none, expression⟩ with hi
  have hE : db.store.entriesOf i = ∅ := by
    cases withTree with
    | true => rfl
    | false =>
        -- nothing is filed under a number that was not given out
        refine Finset.filter_eq_empty_iff.2 fun e he hid => ?_
        exact absurd hid (ho.shared e he).ne
  have hview : (db.saveIndex i).store.view
      = Function.update db.store.view i.id (some ⟨i.bare, ∅⟩) := by rw [view_saveIndex, hE]
  have hcase : ∀ m v, (db.saveIndex i).store.view m = some v →
      (m = db.store.nextIndex ∧ v = ⟨i.bare, ∅⟩) ∨ db.store.view m = some v := by
    intro m v hv
    rw [hview] at hv
    by_cases hm : m = db.store.nextIndex
    · subst hm
      rw [show db.store.nextIndex = i.id from rfl, Function.update_self] at hv
      exact Or.inl ⟨rfl, (Option.some.inj hv).symm⟩
    · rw [Function.update_of_ne hm] at hv
      exact Or.inr hv
  refine ⟨rfl, h.reindexed rfl ⟨fun m v hv => ?_, fun m v t hv ht => ?_, fun m v e hv he => ?_,
    fun e he => ?_⟩ (cacheOk_none rfl) fun m v hv => ?_⟩
  · rcases hcase m v hv with ⟨rfl, rfl⟩ | hv
    · exact ⟨rfl, Nat.lt_succ_self _⟩
    · obtain ⟨hid, hlt⟩ := ho.id m v hv
      exact ⟨hid, Nat.lt_succ_of_lt hlt⟩
  · rcases hcase m v hv with ⟨rfl, rfl⟩ | hv
    · cases withTree with
      | true => cases ht; rfl
      | false => cases ht
    · exact ho.tree m v t hv ht
  · rcases hcase m v hv with ⟨rfl, rfl⟩ | hv
    · exact absurd he (Finset.notMem_empty e)
    · exact ho.entry m v e hv he
  · exact Nat.lt_succ_of_lt (ho.shared e he)
  · rcases hcase m v hv with ⟨rfl, rfl⟩ | hv
    · exact ⟨⟨hkind, hfield⟩, fun _ => exact_empty hrows rfl rfl⟩
    · exact h.sound.fits hv

lemma lookup_mem {fields : List (String × Kind)} {field : String} {kind : Kind}
    (h : fields.lookup field = some kind) : (field, kind) ∈ fields := by
  induction fields with
  | nil => cases h
  | cons f fields ih =>
      obtain ⟨name, k⟩ := f
      rw [List.lookup_cons] at h
      split at h
      · rename_i heq
        cases h
        rw [beq_iff_eq.1 heq]
        exact List.mem_cons_self
      · exact List.mem_cons_of_mem _ (ih h)

lemma fieldKind_ok {field : String} {kind : Kind} (h : db.fieldKind c field = .ok kind) :
    ∃ k, db.store.catalogs c = some k ∧ (field, kind) ∈ k.fields := by
  simp only [Database.fieldKind, bind_eq_ok, orElse_eq_ok] at h
  obtain ⟨k, hk, hf⟩ := h
  exact ⟨k, (catalog_ok hk).2.1, lookup_mem hf⟩

lemma createScalarIndex_sound {name field : String} {unique withTree : Bool} (h : Consistent db)
    (hrows : ∀ id r, db.store.rows.lookup id = some r → 0 < id.sequence)
    (hok : db.createScalarIndex c name field unique withTree = .ok (n, db')) : Reindexed db db' := by
  simp only [Database.createScalarIndex, bind_eq_ok, refuse_eq_ok, Bool.not_eq_false] at hok
  obtain ⟨_, -, _, -, kind, hkind, _, hscalar, hok⟩ := hok
  exact createIndexFull_sound h hrows hscalar (fieldKind_ok hkind) hok

lemma createExpressionIndex_sound {name field : String} {expression : IndexExpr} {unique : Bool}
    (h : Consistent db) (hrows : ∀ id r, db.store.rows.lookup id = some r → 0 < id.sequence)
    (hok : db.createExpressionIndex c name field expression unique = .ok (n, db')) :
    Reindexed db db' := by
  simp only [Database.createExpressionIndex, bind_eq_ok, refuse_eq_ok, not_not, Bool.not_eq_false]
    at hok
  obtain ⟨_, -, _, -, kind, hkind, _, rfl, _, -, _, hscalar, hok⟩ := hok
  exact createIndexFull_sound h hrows hscalar (fieldKind_ok hkind) hok

/-! ## Building -/

lemma mem_live : n ∈ x.live c ↔ (x.document c n).isSome := by
  simp only [Store.live, Finset.mem_image, Finset.mem_filter, Finmap.mem_keys, Store.document,
    Option.isSome_map]
  constructor
  · rintro ⟨⟨d, m⟩, ⟨hmem, rfl⟩, rfl⟩
    exact Finmap.lookup_isSome.2 hmem
  · intro h
    exact ⟨⟨c, n⟩, ⟨Finmap.lookup_isSome.1 h, rfl⟩, rfl⟩

/-- The keys of rows, as a build reads them. -/
lemma buildKeys_ok {l : List ℕ} (h : db.buildKeys i l = .ok rows) :
    rows.map Prod.fst = l ∧ ∀ p ∈ rows, ∃ d, db.store.document i.collection p.1 = some d
      ∧ i.key db.host d = some p.2 := by
  induction l generalizing rows with
  | nil =>
      cases h
      exact ⟨rfl, fun p hp => by simp at hp⟩
  | cons seq l ih =>
      simp only [Database.buildKeys, bind_eq_ok, orElse_eq_ok, pure_eq_ok, Database.scalarBuildKey,
        mapError_eq_ok] at h
      obtain ⟨row, hrow, v, hv, rest, hrest, rfl⟩ := h
      obtain ⟨hmap, hkeys⟩ := ih hrest
      refine ⟨by rw [List.map_cons, hmap], fun p hp => ?_⟩
      rcases List.mem_cons.1 hp with rfl | hp
      · refine ⟨row.document, by rw [Store.document, hrow]; rfl, ?_⟩
        rw [IndexInfo.key, hv]; rfl
      · exact hkeys p hp

lemma sortRows_perm (rows : List (ℕ × ScalarKey)) : (Database.sortRows rows).Perm rows :=
  List.mergeSort_perm ..

lemma Rewritten.unique_eq (h : Rewritten db db' i i' E) : i'.unique = i.unique := by
  have := congrArg IndexInfo.unique h.bare
  simpa using this

lemma Rewritten.key_eq (h : Rewritten db db' i i' E) (host : Host) : i'.key host = i.key host := by
  rw [← bare_key, h.bare, bare_key]

lemma owned_entries (ho : Owned db.store) (hi : db.store.indexes i.id = some i) :
    ∀ e ∈ db.store.entriesOf i, e.index = i.id := fun e he => ho.entry _ _ e (view_eq_some hi) he

/-- **The rows of a batch are checked, filed and covered.** -/
lemma buildEntries_spec (ho : Owned db.store) (hi : db.store.indexes i.id = some i)
    (h : db.buildEntries o i rows = .ok (i', db')) :
    ∃ E, Rewritten db db' i i' E ∧ (∀ e ∈ E, e.index = i.id) ∧ ∀ host R covered,
      Secondary.Files (i.key host) R covered (filed i.id (db.store.entriesOf i)) →
      (i.unique = true → Secondary.Distinct .null covered (filed i.id (db.store.entriesOf i))) →
      (∀ p ∈ rows, ∃ d, R p.1 = some d ∧ i.key host d = some p.2) →
      Secondary.Files (i.key host) R (fun n => covered n ∨ n ∈ rows.map Prod.fst) (filed i.id E)
        ∧ (i.unique = true →
          Secondary.Distinct .null (fun n => covered n ∨ n ∈ rows.map Prod.fst) (filed i.id E)) := by
  induction rows generalizing db i with
  | nil =>
      cases h
      refine ⟨_, Rewritten.refl hi, owned_entries ho hi, fun host R covered hf hd _ => ?_⟩
      exact ⟨hf.cover fun n r hn _ => Or.inl (by simpa using hn),
        fun hu => (hd hu).weaken fun v n _ hn => by simpa using hn⟩
  | cons p rows ih =>
      obtain ⟨seq, w⟩ := p
      simp only [Database.buildEntries, bind_eq_ok] at h
      obtain ⟨_, hcheck, h⟩ := h
      have hw := indexPut_spec (o := o) (e := ⟨i.id, w, seq⟩) ho hi rfl
      have hown := change_mem (e := ⟨i.id, w, seq⟩) true rfl (owned_entries ho hi)
      generalize db.indexPut o i ⟨i.id, w, seq⟩ = r at hw h
      obtain ⟨i₁, db₁⟩ := r
      have hid : i₁.id = i.id := hw.id
      have hE : filed i₁.id (db₁.store.entriesOf i₁)
          = insert (w, seq) (filed i.id (db.store.entriesOf i)) := by
        rw [hw.entriesOf_eq, hid, filed_put]
      obtain ⟨E, hw', hown', hrest⟩ := ih (hw.owned ho hi hown) (hid ▸ hw.saved) h
      refine ⟨E, hw.trans hw', hid ▸ hown', fun host R covered hf hd hrows => ?_⟩
      obtain ⟨d, hR, hkey⟩ := hrows (seq, w) (by simp)
      have hrest := hrest host R fun n => covered n ∨ n = seq
      rw [hE, hid, hw.key_eq, hw.unique_eq] at hrest
      obtain ⟨hf', hd'⟩ := hrest
        ((hf.put hR hkey).cover fun n r hn _ => hn.imp_right fun h => ⟨w, Or.inl (by rw [h])⟩)
        (fun hu => Secondary.Distinct.build hf (hd hu) hR hkey fun hnull m hm =>
          checkUnique_ok hcheck hu hnull m hm)
        (fun p hp => hrows p (by simp [hp]))
      have hiff : ∀ n, (covered n ∨ n ∈ ((seq, w) :: rows).map Prod.fst) →
          (covered n ∨ n = seq) ∨ n ∈ rows.map Prod.fst := by
        intro n hn
        rw [List.map_cons, List.mem_cons] at hn
        tauto
      exact ⟨hf'.cover fun n r hn _ => Or.inl (hiff n hn),
        fun hu => (hd' hu).weaken fun v n _ hn => hiff n hn⟩

/-- The state of an index after a batch of its build. -/
def batchState (live : Finset ℕ) (batch after : ℕ) : IndexState :=
  let last := (Scan.take live batch (some after)).getLast?.getD after
  if (Scan.next live (some last)).isNone then .ready else .building last

/-- A row the new state covers was covered, or is one of the batch. -/
lemma batch_covers {live : Finset ℕ} {batch after m : ℕ} (hm : m ∈ live)
    (hc : (batchState live batch after).covers m) :
    m ≤ after ∨ m ∈ Scan.take live batch (some after) := by
  by_cases hle : m ≤ after
  · exact Or.inl hle
  · set last := (Scan.take live batch (some after)).getLast?.getD after with hlast
    have hstop : Scan.stop live batch (some after) = some last := by
      rw [Scan.stop, hlast]
      cases (Scan.take live batch (some after)).getLast? <;> rfl
    refine Or.inr (Scan.mem_take_iff.2 ⟨hm, Scan.past_some.2 (not_le.1 hle), ?_⟩)
    rw [hstop]
    by_cases hend : (Scan.next live (some last)).isNone = true
    · exact Scan.next_eq_none_iff.1 (Option.isNone_iff_eq_none.1 hend) m hm
    · rw [batchState, ← hlast, if_neg hend] at hc
      exact fun hp => absurd (Scan.past_some.1 hp) (not_lt.2 hc)

/-- **A batch of a build.**  The rows up to the new cursor are covered, and after the last batch all
of them are. -/
lemma buildIndexStep_sound {batch : ℕ} {ended : Bool} (h : Consistent db)
    (hok : db.buildIndexStep o n batch = .ok (ended, db')) : Reindexed db db' := by
  simp only [Database.buildIndexStep, bind_eq_ok] at hok
  obtain ⟨_, -, _, -, i, hi, hok⟩ := hok
  obtain ⟨-, hi⟩ := indexInfo_ok hi
  obtain rfl : i.id = n := h.sound.owned.id_eq hi
  cases hs : i.state with
  | ready =>
      simp only [hs, pure_eq_ok, Prod.mk.injEq] at hok
      obtain ⟨-, rfl⟩ := hok
      exact .refl h
  | dropping => simp [hs] at hok
  | building after =>
      simp only [hs, bind_eq_ok, pure_eq_ok, Prod.exists, Prod.mk.injEq] at hok
      obtain ⟨rows, hrows, i', db₁, hbuild, -, rfl⟩ := hok
      obtain ⟨hmap, hkeys⟩ := buildKeys_ok hrows
      have hperm := sortRows_perm rows
      obtain ⟨E, hw, hE, hspec⟩ := buildEntries_spec h.sound.owned hi hbuild
      refine hw.restated h hi hE _ fun hst => ?_
      have hex := h.sound.exact i.id _ (view_eq_some hi) hst
      obtain ⟨hfiles, hdist⟩ := hspec db.host _ _ (hex.files (by simp [hs])) hex.distinct
        fun p hp => hkeys p (hperm.mem_iff.1 hp)
      have hcover : ∀ m, m ∈ db.store.live i.collection →
          (batchState (db.store.live i.collection) batch after).covers m →
          m ≤ after ∨ m ∈ (Database.sortRows rows).map Prod.fst := by
        intro m hm hc
        rw [(hperm.map Prod.fst).mem_iff, hmap]
        exact batch_covers hm hc
      have hcov : ∀ m, (i.state.covers m ∨ m ∈ (Database.sortRows rows).map Prod.fst) ↔
          (m ≤ after ∨ m ∈ (Database.sortRows rows).map Prod.fst) := by
        intro m
        rw [hs]
        rfl
      refine ⟨fun _ => ?_, fun hu => ?_⟩
      · refine hfiles.cover fun m d hc hd => Or.inl ((hcov m).2 (hcover m ?_ hc))
        exact mem_live.2 (Option.isSome_iff_exists.2 ⟨d, hd⟩)
      · refine (hdist hu).weaken fun v m hm hc => (hcov m).2 (hcover m ?_ hc)
        obtain ⟨d, hd, -⟩ := hfiles.sound v m hm
        exact mem_live.2 (Option.isSome_iff_exists.2 ⟨d, hd⟩)

/-! ## Building from the sorted keys -/

/-- The entries of some rows. -/
def entriesIn (rows : List (ℕ × ScalarKey)) : Set (ScalarKey × ℕ) := {p | (p.2, p.1) ∈ rows}

/-- **Ascending entries are put.** -/
lemma putSorted_spec {previous : Option ScalarKey} (ho : Owned db.store)
    (hi : db.store.indexes i.id = some i) (h : db.putSorted o i previous rows = .ok (i', db')) :
    ∃ E, Rewritten db db' i i' E ∧ (∀ e ∈ E, e.index = i.id)
      ∧ filed i.id E = filed i.id (db.store.entriesOf i) ∪ entriesIn rows := by
  induction rows generalizing db i previous with
  | nil =>
      cases h
      exact ⟨_, Rewritten.refl hi, owned_entries ho hi, by simp [entriesIn]⟩
  | cons p rows ih =>
      obtain ⟨seq, w⟩ := p
      simp only [Database.putSorted, bind_eq_ok] at h
      obtain ⟨_, -, h⟩ := h
      have hw := indexPut_spec (o := o) (e := ⟨i.id, w, seq⟩) ho hi rfl
      have hown := change_mem (e := ⟨i.id, w, seq⟩) true rfl (owned_entries ho hi)
      generalize db.indexPut o i ⟨i.id, w, seq⟩ = r at hw h
      obtain ⟨i₁, db₁⟩ := r
      have hid : i₁.id = i.id := hw.id
      obtain ⟨E, hw', hown', hE⟩ := ih (hw.owned ho hi hown) (hid ▸ hw.saved) h
      refine ⟨E, hw.trans hw', hid ▸ hown', ?_⟩
      rw [hw.entriesOf_eq, hid, filed_put] at hE
      rw [hE]
      ext ⟨k, m⟩
      simp only [entriesIn, Set.mem_union, Set.mem_insert_iff, Set.mem_ofPred_eq, List.mem_cons,
        Prod.mk.injEq]
      tauto

/-- **A value that comes twice is refused**, since equal values of an ascending run are neighbours. -/
lemma putSorted_distinct {previous : Option ScalarKey} (hu : i.unique = true) (ho : Owned db.store)
    (hi : db.store.indexes i.id = some i) (hsorted : rows.Pairwise fun p q => p.2 ≤ q.2)
    (hprev : ∀ w, previous = some w → w ≠ .null ∧ ∀ q ∈ rows, w ≤ q.2)
    (h : db.putSorted o i previous rows = .ok (i', db')) :
    rows.Pairwise (fun p q => p.2 = q.2 → p.2 = .null)
      ∧ ∀ w, previous = some w → ∀ q ∈ rows, q.2 ≠ w := by
  induction rows generalizing db i previous with
  | nil => exact ⟨.nil, fun w _ q hq => by simp at hq⟩
  | cons p rows ih =>
      obtain ⟨seq, w⟩ := p
      rw [List.pairwise_cons] at hsorted
      simp only [Database.putSorted, bind_eq_ok, refuse_eq_ok] at h
      obtain ⟨_, hcheck, h⟩ := h
      have hw := indexPut_spec (o := o) (e := ⟨i.id, w, seq⟩) ho hi rfl
      have hown := change_mem (e := ⟨i.id, w, seq⟩) true rfl (owned_entries ho hi)
      generalize db.indexPut o i ⟨i.id, w, seq⟩ = r at hw h
      obtain ⟨i₁, db₁⟩ := r
      have hid : i₁.id = i.id := hw.id
      obtain ⟨hpair, hnext⟩ := ih (hw.unique_eq.trans hu) (hw.owned ho hi hown) (hid ▸ hw.saved)
        hsorted.2 (by
          intro u huw
          split_ifs at huw with hnull
          cases huw
          exact ⟨hnull, fun q hq => hsorted.1 q hq⟩) h
      constructor
      · refine List.pairwise_cons.2 ⟨fun q hq heq => ?_, hpair⟩
        by_contra hnull
        exact hnext w (if_neg hnull) q hq heq.symm
      · rintro u rfl q hq hqu
        obtain ⟨hnull, hle⟩ := hprev u rfl
        -- everything up to `q` would be equal to the previous value
        have hwu : w = u := by
          refine le_antisymm ?_ (hle (seq, w) (by simp))
          rcases List.mem_cons.1 hq with rfl | hq
          · exact hqu.le
          · exact hqu ▸ hsorted.1 q hq
        exact hcheck ⟨hu, by rw [hwu]; exact hnull, by rw [hwu]⟩

lemma sortRows_pairwise (rows : List (ℕ × ScalarKey)) :
    (Database.sortRows rows).Pairwise fun p q => toLex (p.2, p.1) ≤ toLex (q.2, q.1) := by
  have h : (Database.sortRows rows).Pairwise fun p q =>
      decide (toLex (p.2, p.1) ≤ toLex (q.2, q.1)) = true := by
    refine List.pairwise_mergeSort (fun a b c hab hbc => ?_) (fun a b => ?_) rows
    · simp only [decide_eq_true_eq] at hab hbc ⊢
      exact hab.trans hbc
    · simp only [Bool.or_eq_true, decide_eq_true_eq]
      exact le_total _ _
  exact h.imp fun h => of_decide_eq_true h

/-- The sorted rows are those of the table, each with its key. -/
lemma sortedRows_ok (h : db.sortedRows i = .ok rows) :
    (rows.Pairwise fun p q => toLex (p.2, p.1) ≤ toLex (q.2, q.1))
      ∧ (∀ p ∈ rows, ∃ d, db.store.document i.collection p.1 = some d ∧ i.key db.host d = some p.2)
      ∧ ∀ m d, db.store.document i.collection m = some d → ∃ w, (m, w) ∈ rows := by
  simp only [Database.sortedRows, bind_eq_ok, pure_eq_ok] at h
  obtain ⟨keys, hkeys, rfl⟩ := h
  obtain ⟨hmap, hrow⟩ := buildKeys_ok hkeys
  have hperm := sortRows_perm keys
  refine ⟨sortRows_pairwise keys, fun p hp => hrow p (hperm.mem_iff.1 hp), fun m d hd => ?_⟩
  have hm : m ∈ keys.map Prod.fst := by
    rw [hmap, Finset.mem_sort, mem_live, hd]
    rfl
  obtain ⟨⟨m', w⟩, hmem, rfl⟩ := List.mem_map.1 hm
  exact ⟨w, hperm.mem_iff.2 hmem⟩

/-- **An ascending run files the first row of each key.** -/
lemma firsts_take {rows : List (ℕ × ScalarKey)} {count : ℕ}
    (hsorted : rows.Pairwise fun p q => toLex (p.2, p.1) ≤ toLex (q.2, q.1))
    (hrow : ∀ p ∈ rows, ∃ d, R p.1 = some d ∧ key d = some p.2)
    (hall : ∀ m d, R m = some d → ∃ w, (m, w) ∈ rows)
    (hdistinct : (rows.take count).Pairwise fun p q => p.2 = q.2 → p.2 = .null) :
    Secondary.Firsts key R .null (entriesIn (rows.take count)) := by
  refine ⟨fun w n hn => hrow (n, w) (List.mem_of_mem_take hn), fun w n m d hn hnull hlt hd hkey => ?_⟩
  obtain ⟨u, hu⟩ := hall m d hd
  obtain ⟨d', hd', hkey'⟩ := hrow (m, u) hu
  cases hd.symm.trans hd'
  rw [show u = w from Option.some.inj (hkey'.symm.trans hkey)] at hu
  -- the entry of `m` comes before that of `n`, so it is in the run too
  rw [← List.take_append_drop count rows, List.mem_append] at hu
  rcases hu with hu | hu
  · have hne : ((m, w) : ℕ × ScalarKey) ≠ (n, w) := fun heq => hlt.ne (congrArg Prod.fst heq)
    have hsym : Std.Symm fun p q : ℕ × ScalarKey => p.2 = q.2 → p.2 = .null :=
      ⟨fun p q hpq heq => heq ▸ hpq heq.symm⟩
    exact hnull (hdistinct.forall hu hn hne rfl)
  · rw [← List.take_append_drop count rows, List.pairwise_append] at hsorted
    have hle := hsorted.2.2 (n, w) hn (m, w) hu
    rw [Prod.Lex.toLex_le_toLex] at hle
    rcases hle with hlt' | ⟨-, hle⟩
    · exact absurd hlt' (lt_irrefl _)
    · exact absurd hlt (not_lt.2 hle)

/-- **A run of a build from the sorted keys.**  A run that is cut short covers no more rows than
before; the run with the last of them covers all. -/
lemma buildSortedRun_sound {count : ℕ} (h : Consistent db)
    (hok : db.buildSortedRun o n count = .ok db') : Reindexed db db' := by
  simp only [Database.buildSortedRun, bind_eq_ok] at hok
  obtain ⟨_, -, i, hi, hok⟩ := hok
  obtain ⟨-, hi⟩ := indexInfo_ok hi
  obtain rfl : i.id = n := h.sound.owned.id_eq hi
  cases hs : i.state with
  | ready =>
      simp only [hs, pure_eq_ok] at hok
      exact hok ▸ .refl h
  | dropping => simp [hs] at hok
  | building after =>
      simp only [hs, bind_eq_ok, Prod.exists] at hok
      obtain ⟨rows, hrows, i', db₁, hput, hok⟩ := hok
      obtain ⟨hsorted, hrow, hall⟩ := sortedRows_ok hrows
      obtain ⟨E, hw, hE, hfiled⟩ := putSorted_spec h.sound.owned hi hput
      have hrow' : ∀ w m, (w, m) ∈ entriesIn (rows.take count) →
          ∃ d, db.store.document i.collection m = some d ∧ i.key db.host d = some w :=
        fun w m hm => hrow (m, w) (List.mem_of_mem_take hm)
      have hfirsts : i.unique = true → Secondary.Firsts (i.key db.host)
          (db.store.document i.collection) .null (entriesIn (rows.take count)) := by
        intro hu
        have hvalues : (rows.take count).Pairwise fun p q => p.2 ≤ q.2 := by
          refine (hsorted.sublist (List.take_sublist count rows)).imp fun hle => ?_
          rcases Prod.Lex.toLex_le_toLex.1 hle with hlt | ⟨heq, -⟩
          · exact hlt.le
          · exact heq.le
        exact firsts_take hsorted hrow hall (putSorted_distinct hu h.sound.owned hi hvalues
          (fun w hw => by cases hw) hput).1
      by_cases hlen : count < rows.length
      · rw [if_pos hlen, pure_eq_ok] at hok
        subst hok
        refine hw.reindexed h hi hE fun hst => ?_
        have hex := h.sound.exact i.id _ (view_eq_some hi) hst
        have hf := hex.files (by simp [hs])
        have hfiles : Secondary.Files (i.key db.host) (db.store.document i.collection) i.state.covers
            (filed i.id E) := by
          rw [hfiled]
          exact hf.union hrow'
        have hdist : i.unique = true → Secondary.Distinct .null i.state.covers (filed i.id E) := by
          intro hu
          rw [hfiled]
          refine Secondary.Distinct.merge hf (hex.distinct hu) (hfirsts hu) fun m k hm hk => ?_
          rw [bare_state, hs] at hm ⊢
          exact hk.trans hm
        exact ⟨fun _ => hfiles, hdist⟩
      · rw [if_neg hlen, pure_eq_ok] at hok
        subst hok
        refine hw.restated h hi hE _ fun hst => ?_
        have hf := (h.sound.exact i.id _ (view_eq_some hi) hst).files (by simp [hs])
        rw [List.take_of_length_le (not_lt.1 hlen)] at hfiled hrow' hfirsts
        have hfiles : Secondary.Files (i.key db.host) (db.store.document i.collection)
            IndexState.ready.covers (filed i.id E) := by
          rw [hfiled]
          refine (hf.union hrow').cover fun m d _ hd => Or.inr ?_
          obtain ⟨w, hmem⟩ := hall m d hd
          exact ⟨w, Or.inr hmem⟩
        have hdist : i.unique = true →
            Secondary.Distinct .null IndexState.ready.covers (filed i.id E) := by
          intro hu
          rw [hfiled]
          exact Secondary.Distinct.all hf (hfirsts hu) fun m d hd => hall m d hd
        exact ⟨fun _ => hfiles, hdist⟩

/-! ## Dropping -/

/-- An index that is being dropped need not be right. -/
lemma exact_dropping (hs : v.info.state = .dropping) : Exact host x v := by
  refine ⟨fun hne => absurd hs hne, fun _ _ _ _ _ hc => ?_⟩
  rw [hs] at hc
  exact hc.elim

lemma beginDropIndex_sound (h : Consistent db) (hok : db.beginDropIndex n = .ok db') :
    Reindexed db db' := by
  simp only [Database.beginDropIndex, bind_eq_ok, pure_eq_ok] at hok
  obtain ⟨_, -, i, hi, rfl⟩ := hok
  obtain ⟨-, hi⟩ := indexInfo_ok hi
  obtain rfl : i.id = n := h.sound.owned.id_eq hi
  exact (Rewritten.refl hi).restated h hi (owned_entries h.sound.owned hi) _ fun _ =>
    exact_dropping rfl

/-- Entries are deleted. -/
lemma deleteEntries_spec (keys : List Entry) (k : ℕ) (ho : Owned db.store)
    (hi : db.store.indexes i.id = some i) (hkeys : ∀ e ∈ keys, e.index = i.id) :
    ∃ E, Rewritten db (db.deleteEntries o i k keys).2.2 i (db.deleteEntries o i k keys).2.1 E
      ∧ ∀ e ∈ E, e.index = i.id := by
  induction keys generalizing db i k with
  | nil => exact ⟨_, Rewritten.refl hi, owned_entries ho hi⟩
  | cons e keys ih =>
      have hw := indexDelete_spec (o := o) ho hi (hkeys e (by simp))
      have hown := change_mem false (hkeys e (by simp)) (owned_entries ho hi)
      rw [Database.deleteEntries]
      generalize db.indexDelete o i e = r at hw ⊢
      obtain ⟨i₁, db₁⟩ := r
      have hid : i₁.id = i.id := hw.id
      by_cases hspent : keys ≠ [] ∧ o.spent k
      · simp only [if_pos hspent]
        exact ⟨_, hw, hown⟩
      · simp only [if_neg hspent]
        obtain ⟨E, hw', hown'⟩ := ih (k + 1) (hw.owned ho hi hown) (hid ▸ hw.saved)
          (fun f hf => hid ▸ hkeys f (by simp [hf]))
        exact ⟨E, hw.trans hw', hid ▸ hown'⟩

/-- The descriptor goes. -/
lemma forgetIndex_sound (h : Consistent db) : Reindexed db (db.forgetIndex i) := by
  have hview : ∀ m v, (db.forgetIndex i).store.view m = some v → db.store.view m = some v := by
    intro m v hv
    obtain ⟨j, hj, rfl⟩ := exists_of_view hv
    have hj' : Function.update db.store.indexes i.id none m = some j := hj
    rw [Function.update_apply] at hj'
    split_ifs at hj'
    exact view_eq_some hj'
  have ho := h.sound.owned
  exact ⟨rfl, h.reindexed rfl ⟨fun m v hv => ho.id m v (hview m v hv),
    fun m v t hv => ho.tree m v t (hview m v hv), fun m v e hv => ho.entry m v e (hview m v hv),
    ho.shared⟩ (cacheOk_none rfl) fun m v hv => h.sound.fits (hview m v hv)⟩

lemma Reindexed.trans (h : Reindexed db db₁) (h' : Reindexed db₁ db') : Reindexed db db' :=
  ⟨h.only.trans h'.only, h'.consistent⟩

lemma dropIndexStep_sound {batch : ℕ} {ended : Bool} (h : Consistent db)
    (hok : db.dropIndexStep o n batch = .ok (ended, db')) : Reindexed db db' := by
  simp only [Database.dropIndexStep, bind_eq_ok, refuse_eq_ok, not_not] at hok
  obtain ⟨_, -, _, -, i, hi, _, hs, hok⟩ := hok
  obtain ⟨-, hi⟩ := indexInfo_ok hi
  obtain rfl : i.id = n := h.sound.owned.id_eq hi
  obtain ⟨E, hw, hE⟩ := deleteEntries_spec (o := o) (Scan.take (db.store.entriesOf i) batch none) 0
    h.sound.owned hi fun e he => owned_entries h.sound.owned hi e (Scan.mem_of_mem_take he).1
  have hre := hw.reindexed h hi hE fun _ => exact_dropping hs
  split_ifs at hok
  · simp only [pure_eq_ok, Prod.mk.injEq] at hok
    obtain ⟨-, rfl⟩ := hok
    exact hre.trans (forgetIndex_sound hre.consistent)
  · simp only [pure_eq_ok, Prod.mk.injEq] at hok
    obtain ⟨-, rfl⟩ := hok
    exact hre

end

end Engine
