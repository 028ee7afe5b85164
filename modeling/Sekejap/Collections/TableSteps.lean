import Sekejap.Collections.IndexSteps

/-!
# What table and transaction steps do

A table is created with no rows and no indexes; one that is being dropped loses its indexes, then its
rows, then its keys, and then its name.  Neither disturbs the tables that stand.

* **`Sound.retabled`** — tables come and go while those that stand keep their rows and their keys.
* **`createTable_served`**, **`dropCollectionStep_served`** — so these steps leave the handle in
  agreement with its working tree, and hand no row number out.
-/

open Collections (EntityId Sequence)

open Fallible

namespace Engine

/-! ## Tables come and go -/

/-- The indexes of a store are those of another. -/
structure SameIndexes (x x' : Store) : Prop where
  nextIndex : x'.nextIndex = x.nextIndex
  indexes : x'.indexes = x.indexes
  entries : x'.entries = x.entries
  trees : x'.trees = x.trees

/-- A table without rows, keys and indexes. -/
structure Bare (x : Store) (c : ℕ) : Prop where
  rows : ∀ n, x.rows.lookup ⟨c, n⟩ = none
  mapping : ∀ key, x.mapping.lookup (c, key) = none
  indexes : ∀ n v, x.view n = some v → v.info.collection ≠ c

/-- **Tables changed**, and every table that stands has the rows and the keys it had. -/
structure Retabled (x x' : Store) : Prop where
  indexes : SameIndexes x x'
  catalogued : Catalogued x'
  row : ∀ id r, x'.rows.lookup id = some r → x.rows.lookup id = some r
  key : ∀ p n, x'.mapping.lookup p = some n → x.mapping.lookup p = some n
  kept : ∀ c k, x.catalogs c = some k →
    (∃ k', x'.catalogs c = some k' ∧ k'.fields = k.fields) ∨ Bare x c
  standing : ∀ c, Standing x' c → (Standing x c ∨ x.catalogs c = none)
    ∧ (∀ n, x'.rows.lookup ⟨c, n⟩ = x.rows.lookup ⟨c, n⟩)
    ∧ ∀ key, x'.mapping.lookup (c, key) = x.mapping.lookup (c, key)

section

variable {db db' db₁ : Database} {x x' : Store} {host : Host} {o : Call} {c n : ℕ} {k : Catalog}
  {d : DropState} {v : View}

lemma SameIndexes.view (h : SameIndexes x x') : x'.view = x.view :=
  view_congr h.indexes h.entries h.trees

/-- A table that does not exist has nothing. -/
lemma Sound.bare (h : Sound host x) (hc : x.catalogs c = none) : Bare x c := by
  refine ⟨fun n => ?_, fun key => ?_, fun n v hv he => ?_⟩
  · cases hr : x.rows.lookup (⟨c, n⟩ : EntityId) with
    | none => rfl
    | some r => exact absurd (h.row _ r hr) (by rw [hc]; simp)
  · cases hm : x.mapping.lookup (c, key) with
    | none => rfl
    | some n => exact absurd (h.key c key n hm) (by rw [hc]; simp)
  · obtain ⟨-, k, hk, -⟩ := h.field n v hv
    rw [he, hc] at hk
    cases hk

lemma Bare.mapped (h : Bare x c) : Mapped x c := by
  intro key n
  simp [h.mapping key, h.rows n]

/-- **The tables that stand are as they were.** -/
lemma Sound.retabled (h : Sound host x) (ht : Retabled x x') : Sound host x' := by
  have hview := ht.indexes.view
  refine ⟨h.owned.congr hview ht.indexes.nextIndex ht.indexes.entries, ht.catalogued, ?_, ?_, ?_, ?_,
    ?_⟩
  · intro id r hr
    have hold := ht.row id r hr
    obtain ⟨k, hk⟩ := Option.isSome_iff_exists.1 (h.row id r hold)
    rcases ht.kept _ k hk with ⟨k', hk', -⟩ | hb
    · rw [hk']; rfl
    · exact absurd (hb.rows id.sequence) (by rw [hold]; simp)
  · intro c key n hm
    have hold := ht.key _ n hm
    obtain ⟨k, hk⟩ := Option.isSome_iff_exists.1 (h.key c key n hold)
    rcases ht.kept _ k hk with ⟨k', hk', -⟩ | hb
    · rw [hk']; rfl
    · exact absurd (hb.mapping key) (by rw [hold]; simp)
  · intro n v hv
    rw [hview] at hv
    obtain ⟨hscalar, k, hk, hfield⟩ := h.field n v hv
    rcases ht.kept _ k hk with ⟨k', hk', heq⟩ | hb
    · exact ⟨hscalar, k', hk', heq ▸ hfield⟩
    · exact absurd rfl (hb.indexes n v hv)
  · intro c hc
    obtain ⟨hold, hrows, hkeys⟩ := ht.standing c hc
    have hm : Mapped x c := hold.elim (h.mapped c) fun hnone => (h.bare hnone).mapped
    intro key n
    rw [hrows, hkeys]
    exact hm key n
  · intro n v hv hc
    rw [hview] at hv
    obtain ⟨hold, hrows, -⟩ := ht.standing _ hc
    have hdoc : x'.document v.info.collection = x.document v.info.collection := by
      funext m
      rw [Store.document, Store.document, hrows]
    rcases hold with hs | hnone
    · have hex := h.exact n v hv hs
      exact ⟨fun hne => hdoc ▸ hex.files hne, hex.distinct⟩
    · exact absurd rfl ((h.bare hnone).indexes n v hv)

lemma SameTables.retabled (h : SameTables x x') (hc : Catalogued x) (hi : SameIndexes x x') :
    Retabled x x' := by
  refine ⟨hi, hc.congr h.catalogs h.names h.nextCollection, fun id r hr => h.rows ▸ hr,
    fun p n hn => h.mapping ▸ hn, fun c k hk => Or.inl ⟨k, h.catalogs ▸ hk, rfl⟩, fun c hs => ?_⟩
  rw [Standing, h.catalogs] at hs
  exact ⟨Or.inl hs, fun n => by rw [h.rows], fun key => by rw [h.mapping]⟩

/-! ## What a request leaves -/

/-- **A handle that has not failed and is in agreement with its working tree.** -/
structure Good (db : Database) : Prop where
  failed : db.failed = false
  consistent : Consistent db
  ids : Collections.Inv db.ids
  numbered : Collections.Numbered db.ids

/-- A request leaves such a handle, and what is durable as it was. -/
structure Served (db db' : Database) : Prop where
  good : Good db'
  host : db'.host = db.host
  durable : db'.durable = db.durable

lemma Served.refl (h : Good db) : Served db db := ⟨h, rfl, rfl⟩

lemma Served.trans (h : Served db db₁) (h' : Served db₁ db') : Served db db' :=
  ⟨h'.good, h'.host.trans h.host, h'.durable.trans h.durable⟩

lemma Good.rows (h : Good db) : ∀ id r, db.store.rows.lookup id = some r → 0 < id.sequence := by
  intro id r hr
  refine (h.numbered.rows h.failed id r.key ?_).1
  simp [Database.ids, hr]

lemma Good.reindexed (h : Good db) (hr : Reindexed db db') : Served db db' := by
  have hh := hr.only.handle
  refine ⟨⟨hh.failed.trans h.failed, hr.consistent, ?_, ?_⟩, hh.host, hh.durable⟩
  · rw [hr.only.ids]; exact h.ids
  · rw [hr.only.ids]; exact h.numbered

/-- The handle keeps what it knows of the indexes and of the drop, and the tables changed. -/
lemma Consistent.retabled (h : Consistent db) (ht : Retabled db.store db'.store)
    (hh : db'.host = db.host) (hcache : db'.indexListCache = db.indexListCache)
    (hgen : db'.indexListGeneration = db.indexListGeneration)
    (hd : ∀ c, db'.dropping = some c ↔ ∃ k, db'.store.catalogs c = some k ∧ k.drop.isSome) :
    Consistent db' := by
  refine ⟨?_, fun c l hl => ?_, hd⟩
  · rw [hh]
    exact h.sound.retabled ht
  · rw [hcache, hgen] at hl
    rw [h.cache c l hl]
    simp only [Database.listIndexesAny, ht.indexes.nextIndex, ht.indexes.indexes]

/-- Nothing changed that rows, keys, indexes and row numbers depend on. -/
def Aside (db db' : Database) : Prop :=
  db' = { db with
    userWritesPending := db'.userWritesPending
    rowCounts := db'.rowCounts
    rowCountBackfill := db'.rowCountBackfill
    store := { db.store with
      schemas := db'.store.schemas
      rowCountFeature := db'.store.rowCountFeature
      counts := db'.store.counts } }

lemma Aside.refl (db : Database) : Aside db db := rfl

lemma Aside.trans (h : Aside db db₁) (h' : Aside db₁ db') : Aside db db' := by
  rw [Aside] at h h' ⊢
  rw [h] at h'
  exact h'

lemma Aside.tables (h : Aside db db') : SameTables db.store db'.store := by
  rw [Aside] at h
  exact ⟨by rw [h], by rw [h], by rw [h], by rw [h], by rw [h]⟩

lemma Aside.ids (h : Aside db db') : db'.ids = db.ids := by
  rw [h]; rfl

lemma Aside.consistent (h : Aside db db') (hc : Consistent db) : Consistent db' := by
  have ht := h.tables
  have hd := hc.dropping
  rw [← ht.catalogs] at hd
  rw [Aside] at h
  have hi : SameIndexes db.store db'.store := ⟨by rw [h], by rw [h], by rw [h], by rw [h]⟩
  refine hc.retabled (ht.retabled hc.sound.catalogued hi) (by rw [h]) (by rw [h]) (by rw [h]) ?_
  rw [h] at hd ⊢
  exact hd

lemma Good.aside (h : Good db) (ha : Aside db db') : Served db db' := by
  have hid := ha.ids
  have hc := ha.consistent h.consistent
  rw [Aside] at ha
  refine ⟨⟨?_, hc, hid ▸ h.ids, hid ▸ h.numbered⟩, ?_, ?_⟩
  · rw [ha]; exact h.failed
  · rw [ha]
  · rw [ha]

lemma Good.written (h : Good db) : Served db db.written := h.aside rfl

/-! ## Creation -/

lemma collectionIn_none {schema : Option String} {name : String}
    (h : db.collectionIn schema name = .ok none) : db.store.names schema name = none := by
  simp only [Database.collectionIn, bind_eq_ok] at h
  obtain ⟨_, -, h⟩ := h
  cases hn : db.store.names schema name with
  | none => rfl
  | some id =>
      simp only [hn, bind_eq_ok, pure_eq_ok, reduceCtorEq, and_false, exists_false] at h

lemma makeLayout_ok {fields out : List (String × Kind)} {timestamps : Bool}
    (h : makeLayout fields timestamps = .ok out) : (out.map Prod.fst).Nodup ∧ fields ⊆ out := by
  simp only [makeLayout, bind_eq_ok, refuse_eq_ok, pure_eq_ok, not_not] at h
  obtain ⟨_, -, _, -, _, -, _, hnodup, rfl⟩ := h
  exact ⟨hnodup, List.subset_append_left ..⟩

lemma checkReferences_ok {field target : String} {kind : Kind} {u : Unit}
    (h : checkReferences field kind (some target) = .ok u) : kind = .text := by
  simp only [checkReferences, bind_eq_ok, refuse_eq_ok, not_not] at h
  obtain ⟨_, -, hk⟩ := h
  exact hk

/-- A column that references a table is a TEXT column the table declares. -/
lemma checkRules_ok {fields : List (String × Kind)} {all rules : List (String × ColumnRule)} {u : Unit}
    (h : checkRules fields all rules = .ok u) {field : String} {rule : ColumnRule}
    (hm : (field, rule) ∈ rules) (hr : rule.references.isSome) : (field, .text) ∈ fields := by
  induction rules with
  | nil => simp at hm
  | cons p rules ih =>
      obtain ⟨f, r⟩ := p
      simp only [checkRules, bind_eq_ok, orElse_eq_ok] at h
      obtain ⟨kind, hkind, _, -, _, href, _, -, _, -, hrest⟩ := h
      rcases List.mem_cons.1 hm with heq | hm
      · cases heq
        obtain ⟨target, ht⟩ := Option.isSome_iff_exists.1 hr
        rw [ht] at href
        rw [← checkReferences_ok href]
        exact lookup_mem hkind
      · exact ih hrest hm

/-- One name of one schema is written. -/
lemma update_names (names : Option String → String → Option ℕ) (s : Option String) (m : String)
    (a : Option ℕ) (s' : Option String) (m' : String) :
    Function.update names s (Function.update (names s) m a) s' m'
      = if s' = s ∧ m' = m then a else names s' m' := by
  by_cases hs : s' = s
  · subst hs
    rw [Function.update_self, Function.update_apply]
    simp
  · rw [Function.update_of_ne hs, if_neg fun h => hs h.1]

/-- The descriptor of a new table and its name. -/
lemma Catalogued.insert (h : Catalogued x) (hid : k.id = x.nextCollection)
    (hfields : (k.fields.map Prod.fst).Nodup)
    (hrefs : ∀ field rule, (field, rule) ∈ k.rules → rule.references.isSome →
      (field, .text) ∈ k.fields)
    (hdrop : k.drop = none) (hname : x.names k.schema k.name = none)
    (hnext : x'.nextCollection = x.nextCollection + 1)
    (hcat : x'.catalogs = Function.update x.catalogs x.nextCollection (some k))
    (hnames : ∀ s m, x'.names s m
      = if s = k.schema ∧ m = k.name then some x.nextCollection else x.names s m) :
    Catalogued x' := by
  have hcase : ∀ c k', x'.catalogs c = some k' →
      (c = x.nextCollection ∧ k' = k) ∨ x.catalogs c = some k' := by
    intro c k' hk'
    rw [hcat, Function.update_apply] at hk'
    split_ifs at hk' with hc
    · exact Or.inl ⟨hc, (Option.some.inj hk').symm⟩
    · exact Or.inr hk'
  refine ⟨fun c k' hk' => ?_, fun c k' hk' => ?_, fun c k' hk' => ?_, fun c k' hk' => ?_,
    fun s m c hc => ?_, fun c c' k₁ k₂ hk₁ hk₂ hd₁ hd₂ => ?_⟩
  · rw [hnext]
    rcases hcase c k' hk' with ⟨rfl, rfl⟩ | hold
    · exact ⟨hid, Nat.lt_succ_self _⟩
    · exact ⟨(h.id c k' hold).1, Nat.lt_succ_of_lt (h.id c k' hold).2⟩
  · rcases hcase c k' hk' with ⟨-, rfl⟩ | hold
    · exact hfields
    · exact h.fields c k' hold
  · rcases hcase c k' hk' with ⟨-, rfl⟩ | hold
    · exact hrefs
    · exact h.references c k' hold
  · rw [hnames]
    rcases hcase c k' hk' with ⟨rfl, rfl⟩ | hold
    · exact if_pos ⟨rfl, rfl⟩
    · have hn := h.name c k' hold
      split_ifs with heq
      · rw [heq.1, heq.2, hname] at hn
        cases hn
      · exact hn
  · rw [hnames] at hc
    split_ifs at hc with heq
    · cases hc
      exact ⟨k, by rw [hcat, Function.update_self], heq.1.symm, heq.2.symm⟩
    · obtain ⟨k', hk', hsn⟩ := h.named _ _ _ hc
      exact ⟨k', by rw [hcat, Function.update_of_ne (h.id c k' hk').2.ne]; exact hk', hsn⟩
  · rcases hcase c k₁ hk₁ with ⟨-, rfl⟩ | h₁
    · rw [hdrop] at hd₁
      cases hd₁
    · rcases hcase c' k₂ hk₂ with ⟨-, rfl⟩ | h₂
      · rw [hdrop] at hd₂
        cases hd₂
      · exact h.one c c' k₁ k₂ h₁ h₂ hd₁ hd₂

/-- **A table is created**, with nothing in it. -/
lemma createTable_served {t : Declaration} (h : Good db) (hok : db.createTable t = .ok (c, db')) :
    Served db db' := by
  simp only [Database.createTable, bind_eq_ok, refuse_eq_ok, pure_eq_ok, Prod.mk.injEq] at hok
  obtain ⟨db₁, hu, _, -, _, hrules, _, -, found, hfound, _, hnone, _, -, fields, hlayout, rfl, rfl⟩ :=
    hok
  obtain ⟨-, rfl⟩ := userWrite_ok hu
  have hw := h.written
  refine hw.trans ?_
  replace h := hw.good
  obtain rfl : found = none := by simpa using hnone
  obtain ⟨hnodup, hsub⟩ := makeLayout_ok hlayout
  have hcat := h.consistent.sound.catalogued
  set x := db.written.store with hx
  have hfree : x.catalogs x.nextCollection = none := by
    cases hk : x.catalogs x.nextCollection with
    | none => rfl
    | some k => exact absurd (hcat.id _ k hk).2 (lt_irrefl _)
  have hkeep : ∀ (c : ℕ) (k k' : Catalog), x.catalogs c = some k →
      Function.update x.catalogs x.nextCollection (some k') c = some k := by
    intro c k k' hk
    rw [Function.update_of_ne (hcat.id c k hk).2.ne]
    exact hk
  have hids : IdSteps db.written.ids db.written.ids.createCollection :=
    .single ⟨.createCollection, fun _ => trivial, .createCollection h.failed⟩
  refine ⟨⟨h.failed, h.consistent.retabled ⟨⟨rfl, rfl, rfl, rfl⟩, ?_, fun _ _ hr => hr,
    fun _ _ hm => hm, fun c k hk => Or.inl ⟨k, hkeep c k _ hk, rfl⟩, fun c hs => ⟨?_, fun _ => rfl,
    fun _ => rfl⟩⟩ rfl rfl rfl fun c => ?_, hids.inv h.ids, hids.numbered h.numbered⟩, rfl, rfl⟩
  · exact hcat.insert rfl hnodup (fun field rule hm hr => hsub (checkRules_ok hrules hm hr)) rfl
      (collectionIn_none hfound) rfl rfl fun s m => update_names _ _ _ _ s m
  · obtain ⟨k, hk, hd⟩ := hs
    by_cases hc : c = x.nextCollection
    · subst hc
      exact Or.inr hfree
    · refine Or.inl ⟨k, ?_, hd⟩
      simpa [Database.setStore, Function.update_of_ne hc] using hk
  · refine (h.consistent.dropping c).trans ⟨?_, ?_⟩
    · rintro ⟨k, hk, hd⟩
      exact ⟨k, hkeep c k _ hk, hd⟩
    · rintro ⟨k, hk, hd⟩
      by_cases hc : c = x.nextCollection
      · subst hc
        simp only [Database.setStore, ← hx, Function.update_self, Option.some.injEq] at hk
        subst hk
        cases hd
      · exact ⟨k, by simpa [Database.setStore, Function.update_of_ne hc] using hk, hd⟩

/-! ## Dropping -/

/-- The drop of a table is written into its descriptor; no other table is being dropped. -/
lemma Catalogued.mark (h : Catalogued x) (hk : x.catalogs c = some k)
    (hone : ∀ c' k', x.catalogs c' = some k' → k'.drop.isSome → c' = c)
    (hnames : x'.names = x.names) (hnext : x'.nextCollection = x.nextCollection)
    (hcat : x'.catalogs = Function.update x.catalogs c (some { k with drop := some d })) :
    Catalogued x' := by
  have hcase : ∀ c' k', x'.catalogs c' = some k' →
      (c' = c ∧ k' = { k with drop := some d }) ∨ (c' ≠ c ∧ x.catalogs c' = some k') := by
    intro c' k' hk'
    rw [hcat, Function.update_apply] at hk'
    split_ifs at hk' with hc
    · exact Or.inl ⟨hc, (Option.some.inj hk').symm⟩
    · exact Or.inr ⟨hc, hk'⟩
  refine ⟨fun c' k' hk' => ?_, fun c' k' hk' => ?_, fun c' k' hk' => ?_, fun c' k' hk' => ?_,
    fun s m c' hc => ?_, fun c₁ c₂ k₁ k₂ hk₁ hk₂ hd₁ hd₂ => ?_⟩
  · rw [hnext]
    rcases hcase c' k' hk' with ⟨rfl, rfl⟩ | ⟨-, hold⟩
    · exact h.id _ k hk
    · exact h.id c' k' hold
  · rcases hcase c' k' hk' with ⟨rfl, rfl⟩ | ⟨-, hold⟩
    · exact h.fields _ k hk
    · exact h.fields c' k' hold
  · rcases hcase c' k' hk' with ⟨rfl, rfl⟩ | ⟨-, hold⟩
    · exact h.references _ k hk
    · exact h.references c' k' hold
  · rw [hnames]
    rcases hcase c' k' hk' with ⟨rfl, rfl⟩ | ⟨-, hold⟩
    · exact h.name _ k hk
    · exact h.name c' k' hold
  · rw [hnames] at hc
    obtain ⟨k', hk', hsn⟩ := h.named s m c' hc
    by_cases hcc : c' = c
    · subst hcc
      cases hk.symm.trans hk'
      exact ⟨{ k with drop := some d }, by rw [hcat, Function.update_self], hsn⟩
    · exact ⟨k', by rw [hcat, Function.update_of_ne hcc]; exact hk', hsn⟩
  · have hmine : ∀ c' k', x'.catalogs c' = some k' → k'.drop.isSome → c' = c := by
      intro c' k' hk' hd'
      rcases hcase c' k' hk' with ⟨hc, -⟩ | ⟨-, hold⟩
      · exact hc
      · exact hone c' k' hold hd'
    exact (hmine c₁ k₁ hk₁ hd₁).trans (hmine c₂ k₂ hk₂ hd₂).symm

/-- **A table is marked, and may lose rows and keys.** -/
lemma Consistent.mark (h : Consistent db) (hk : db.store.catalogs c = some k)
    (hone : ∀ c' k', db.store.catalogs c' = some k' → k'.drop.isSome → c' = c)
    (hi : SameIndexes db.store db'.store) (hnames : db'.store.names = db.store.names)
    (hnext : db'.store.nextCollection = db.store.nextCollection)
    (hcat : db'.store.catalogs
      = Function.update db.store.catalogs c (some { k with drop := some d }))
    (hrows : ∀ id, db'.store.rows.lookup id = db.store.rows.lookup id
      ∨ id.collection = c ∧ db'.store.rows.lookup id = none)
    (hkeys : ∀ p, db'.store.mapping.lookup p = db.store.mapping.lookup p
      ∨ p.1 = c ∧ db'.store.mapping.lookup p = none)
    (hh : db'.host = db.host) (hcache : db'.indexListCache = db.indexListCache)
    (hgen : db'.indexListGeneration = db.indexListGeneration) (hd : db'.dropping = some c) :
    Consistent db' := by
  refine h.retabled ⟨hi, h.sound.catalogued.mark hk hone hnames hnext hcat, fun id r hr => ?_,
    fun p n hm => ?_, fun c' k' hk' => Or.inl ?_, fun c' hs => ?_⟩ hh hcache hgen fun c' => ?_
  · rcases hrows id with heq | ⟨-, hnone⟩
    · rw [← heq]; exact hr
    · rw [hnone] at hr
      cases hr
  · rcases hkeys p with heq | ⟨-, hnone⟩
    · rw [← heq]; exact hm
    · rw [hnone] at hm
      cases hm
  · by_cases hc : c' = c
    · subst hc
      cases hk.symm.trans hk'
      exact ⟨{ k with drop := some d }, by rw [hcat, Function.update_self], rfl⟩
    · exact ⟨k', by rw [hcat, Function.update_of_ne hc]; exact hk', rfl⟩
  · obtain ⟨k', hk', hdrop⟩ := hs
    rw [hcat, Function.update_apply] at hk'
    split_ifs at hk' with hc
    · cases hk'
      cases hdrop
    · exact ⟨Or.inl ⟨k', hk', hdrop⟩, fun n => (hrows _).resolve_right fun hr => hc hr.1,
        fun key => (hkeys _).resolve_right fun hr => hc hr.1⟩
  · rw [hd, hcat]
    constructor
    · rintro ⟨⟩
      exact ⟨_, Function.update_self .., rfl⟩
    · rintro ⟨k', hk', hdrop⟩
      rw [Function.update_apply] at hk'
      split_ifs at hk' with hc
      · rw [hc]
      · rw [hone c' k' hk' hdrop]

lemma beginDropCollection_served (h : Good db) (hok : db.beginDropCollection c = .ok db') :
    Served db db' := by
  simp only [Database.beginDropCollection, bind_eq_ok, refuse_eq_ok, pure_eq_ok] at hok
  obtain ⟨_, -, _, -, k, hk, _, hnone, rfl⟩ := hok
  obtain ⟨-, hk, -⟩ := catalog_ok hk
  have hc := h.consistent
  obtain rfl : k.id = c := (hc.sound.catalogued.id c k hk).1
  have hone : ∀ c' k', db.store.catalogs c' = some k' → k'.drop.isSome → c' = k.id := by
    intro c' k' hk' hd'
    have := (hc.dropping c').2 ⟨k', hk', hd'⟩
    rw [this] at hnone
    simp at hnone
  exact ⟨⟨h.failed, hc.mark hk hone ⟨rfl, rfl, rfl, rfl⟩ rfl rfl rfl (fun _ => Or.inl rfl)
    (fun _ => Or.inl rfl) rfl rfl rfl rfl, h.ids, h.numbered⟩, rfl, rfl⟩

/-- What is known of a table that is being dropped. -/
lemma Consistent.only (h : Consistent db) (hk : db.store.catalogs c = some k) (hd : k.drop = some d) :
    k.id = c ∧ db.dropping = some c
      ∧ ∀ c' k', db.store.catalogs c' = some k' → k'.drop.isSome → c' = c := by
  have hdrop : k.drop.isSome := by rw [hd]; rfl
  exact ⟨(h.sound.catalogued.id c k hk).1, (h.dropping c).2 ⟨k, hk, hdrop⟩, fun c' k' hk' hd' =>
    h.sound.catalogued.one c' c k' k hk' hk hd' hdrop⟩

/-- **Progress is saved after rows and keys of the table went.** -/
lemma dropProgress_served {ended : Bool} {removed : ℕ} (h : Good db)
    (hk : db.store.catalogs c = some k) (hd : k.drop = some d)
    {rows : Finmap fun _ : EntityId => Row} {mapping : Finmap fun _ : ℕ × String => ℕ}
    (hrows : ∀ id, rows.lookup id = db.store.rows.lookup id ∨ id.collection = c ∧ rows.lookup id = none)
    (hkeys : ∀ p, mapping.lookup p = db.store.mapping.lookup p ∨ p.1 = c ∧ mapping.lookup p = none)
    (hids : IdSteps db.ids (db.setStore fun x => { x with rows, mapping }).ids) :
    Served db ((db.setStore fun x => { x with rows, mapping }).dropProgress k d ended removed) := by
  obtain ⟨rfl, hdrop, hone⟩ := h.consistent.only hk hd
  exact ⟨⟨h.failed, h.consistent.mark hk hone ⟨rfl, rfl, rfl, rfl⟩ rfl rfl rfl hrows hkeys rfl rfl rfl
    hdrop, hids.inv h.ids, hids.numbered h.numbered⟩, rfl, rfl⟩

lemma lookup_foldl_erase {α β : Type} [DecidableEq α] {γ : Type} (f : γ → α) (l : List γ)
    (s : Finmap fun _ : α => β) (a : α) :
    (l.foldl (fun s b => s.erase (f b)) s).lookup a = s.lookup a
      ∨ (∃ b, a = f b) ∧ (l.foldl (fun s b => s.erase (f b)) s).lookup a = none := by
  induction l generalizing s with
  | nil => exact Or.inl rfl
  | cons b l ih =>
      rw [List.foldl_cons]
      rcases ih (s.erase (f b)) with heq | hnone
      · by_cases ha : a = f b
        · exact Or.inr ⟨⟨b, ha⟩, by rw [heq, ha, Finmap.lookup_erase]⟩
        · exact Or.inl (by rw [heq, Finmap.lookup_erase_ne ha])
      · exact Or.inr hnone

/-- Rows that go are deletes of their numbers. -/
lemma ids_removeRows (hf : db.failed = false) (taken : List ℕ) :
    IdSteps db.ids (Database.removeRows c taken db).ids := by
  induction taken generalizing db with
  | nil => exact .refl
  | cons seq taken ih =>
      have hstep : (db.setStore fun x => { x with rows := x.rows.erase ⟨c, seq⟩ }).ids
          = db.ids.delete ⟨c, seq⟩ := by
        simp only [Database.ids, Database.setStore, Collections.Database.delete, keys_erase]
      refine (IdSteps.delete (d := db.ids) hf ⟨c, seq⟩).trans ?_
      rw [← hstep]
      exact ih (by exact hf)

lemma removeRows_served {budget : ℕ} (h : Good db) (hk : db.store.catalogs c = some k)
    (hd : k.drop = some d) :
    Served db (db.dropStepPrefix o k d budget (db.store.live c) (Database.removeRows c)) := by
  refine dropProgress_served h hk hd (fun id => ?_) (fun p => Or.inl rfl)
    (ids_removeRows h.failed _)
  rcases lookup_foldl_erase (fun seq => (⟨c, seq⟩ : EntityId)) _ db.store.rows id with heq | hnone
  · exact Or.inl heq
  · obtain ⟨⟨seq, rfl⟩, hnone⟩ := hnone
    exact Or.inr ⟨rfl, hnone⟩

lemma removeMappings_served {budget : ℕ} (h : Good db) (hk : db.store.catalogs c = some k)
    (hd : k.drop = some d) :
    Served db (db.dropStepPrefix o k d budget (db.mappingKeys c) (Database.removeMappings c)) := by
  refine dropProgress_served h hk hd (fun id => Or.inl rfl) (fun p => ?_) .refl
  rcases lookup_foldl_erase (fun key => (c, key)) _ db.store.mapping p with heq | hnone
  · exact Or.inl heq
  · obtain ⟨⟨key, rfl⟩, hnone⟩ := hnone
    exact Or.inr ⟨rfl, hnone⟩

/-- What a step of a drop does: to the indexes or the vector cells, the rows, the keys, the table. -/
inductive DropDone (o : Call) (budget : ℕ) (db : Database) (k : Catalog) (d : DropState) :
    Database → Prop
  | progress {db₁ : Database} {ended : Bool} {removed : ℕ} : Reindexed db db₁ →
      DropDone o budget db k d (db₁.dropProgress k d ended removed)
  | rows : DropDone o budget db k d
      (db.dropStepPrefix o k d budget (db.store.live k.id) (Database.removeRows k.id))
  | mappings : DropDone o budget db k d
      (db.dropStepPrefix o k d budget (db.mappingKeys k.id) (Database.removeMappings k.id))
  | descriptor {db' : Database} : db.dropStepDescriptor k = .ok db' → DropDone o budget db k d db'

/-- **A step of a drop is one of these**, as the phase of the record says. -/
lemma dropCollectionStep_done {budget : ℕ} {ended : Bool} (h : Good db)
    (hok : db.dropCollectionStep o c budget = .ok (ended, db')) :
    ∃ k d, db.store.catalogs c = some k ∧ k.id = c ∧ k.drop = some d
      ∧ DropDone o budget db k d db' := by
  simp only [Database.dropCollectionStep, bind_eq_ok, orElse_eq_ok] at hok
  obtain ⟨_, -, _, -, k, hk, d, hd, hok⟩ := hok
  obtain ⟨-, hk⟩ := catalogAny_ok hk
  obtain rfl : k.id = c := (h.consistent.sound.catalogued.id c k hk).1
  refine ⟨k, d, hk, rfl, hd, ?_⟩
  cases hp : d.phase with
  | indexes =>
      simp only [hp, bind_eq_ok, pure_eq_ok, Prod.mk.injEq] at hok
      obtain ⟨db₁, hstep, -, rfl⟩ := hok
      rw [Database.dropStepIndexes] at hstep
      split at hstep
      · cases hstep
        exact .progress (.refl h.consistent)
      · rename_i i rest hlist
        split_ifs at hstep
        · simp only [bind_eq_ok, pure_eq_ok, Prod.exists] at hstep
          obtain ⟨_, rfl, ended, db₂, hone, rfl⟩ := hstep
          exact .progress (dropIndexStep_sound h.consistent hone)
        -- an index that is in use is first marked
        · simp only [bind_eq_ok, pure_eq_ok, Prod.exists] at hstep
          obtain ⟨db₂, hbegin, ended, db₃, hone, rfl⟩ := hstep
          have hre := beginDropIndex_sound h.consistent hbegin
          exact .progress (hre.trans (dropIndexStep_sound hre.consistent hone))
  | sidecars =>
      simp only [hp, pure_eq_ok, Prod.mk.injEq] at hok
      obtain ⟨-, rfl⟩ := hok
      exact .progress (.refl h.consistent)
  | rows =>
      simp only [hp, pure_eq_ok, Prod.mk.injEq] at hok
      obtain ⟨-, rfl⟩ := hok
      exact .rows
  | mappings =>
      simp only [hp, pure_eq_ok, Prod.mk.injEq] at hok
      obtain ⟨-, rfl⟩ := hok
      exact .mappings
  | descriptor =>
      simp only [hp, bind_eq_ok, pure_eq_ok, Prod.mk.injEq] at hok
      obtain ⟨db₁, hstep, -, rfl⟩ := hok
      exact .descriptor hstep

/-! ## The last step -/

/-- A table without rows, keys and indexes is forgotten. -/
lemma Catalogued.erase (h : Catalogued x) (hk : x.catalogs c = some k)
    (hnext : x'.nextCollection = x.nextCollection)
    (hcat : x'.catalogs = Function.update x.catalogs c none)
    (hnames : ∀ s m, x'.names s m = if s = k.schema ∧ m = k.name then none else x.names s m) :
    Catalogued x' := by
  have hcase : ∀ c' k', x'.catalogs c' = some k' → c' ≠ c ∧ x.catalogs c' = some k' := by
    intro c' k' hk'
    rw [hcat, Function.update_apply] at hk'
    split_ifs at hk' with hc
    exact ⟨hc, hk'⟩
  refine ⟨fun c' k' hk' => hnext ▸ h.id c' k' (hcase c' k' hk').2, fun c' k' hk' =>
    h.fields c' k' (hcase c' k' hk').2, fun c' k' hk' => h.references c' k' (hcase c' k' hk').2,
    fun c' k' hk' => ?_, fun s m c' hc => ?_, fun c₁ c₂ k₁ k₂ hk₁ hk₂ =>
    h.one c₁ c₂ k₁ k₂ (hcase c₁ k₁ hk₁).2 (hcase c₂ k₂ hk₂).2⟩
  · obtain ⟨hne, hold⟩ := hcase c' k' hk'
    have hn := h.name c' k' hold
    rw [hnames]
    split_ifs with heq
    · rw [heq.1, heq.2, h.name c k hk] at hn
      exact absurd (Option.some.inj hn).symm hne
    · exact hn
  · rw [hnames] at hc
    split_ifs at hc with heq
    obtain ⟨k', hk', rfl, rfl⟩ := h.named s m c' hc
    refine ⟨k', ?_, rfl, rfl⟩
    rw [hcat, Function.update_of_ne]
    · exact hk'
    · rintro rfl
      cases hk.symm.trans hk'
      exact heq ⟨rfl, rfl⟩

lemma bare_of_empty (h : Sound host db.store) (hi : db.listIndexesAny c = [])
    (hr : db.store.live c = ∅) (hm : db.mappingKeys c = ∅) : Bare db.store c := by
  refine ⟨fun n => ?_, fun key => ?_, fun n v hv he => ?_⟩
  · have hn : n ∉ db.store.live c := by rw [hr]; exact Finset.notMem_empty n
    rw [mem_live, Store.document, Option.isSome_map, Bool.not_eq_true, Option.isSome_eq_false_iff,
      Option.isNone_iff_eq_none] at hn
    exact hn
  · by_contra hne
    obtain ⟨n, hn⟩ := Option.ne_none_iff_exists'.1 hne
    have hmem : key ∈ db.mappingKeys c := by
      simp only [Database.mappingKeys, Finset.mem_image, Finset.mem_filter, Finmap.mem_keys]
      exact ⟨(c, key), ⟨Finmap.mem_of_lookup_eq_some hn, rfl⟩, rfl⟩
    rw [hm] at hmem
    exact absurd hmem (Finset.notMem_empty key)
  · obtain ⟨i, hi', rfl⟩ := exists_of_view hv
    have hmem : i ∈ db.listIndexesAny c :=
      (mem_listIndexesAny h.owned).2 ⟨by rw [h.owned.id_eq hi']; exact hi', he⟩
    rw [hi] at hmem
    simp at hmem

lemma dropStepDescriptor_served (h : Good db) (hk : db.store.catalogs c = some k)
    (hd : k.drop = some d) (hok : db.dropStepDescriptor k = .ok db') : Served db db' := by
  have hc := h.consistent
  obtain ⟨rfl, hdrop, hone⟩ := hc.only hk hd
  simp only [Database.dropStepDescriptor, bind_eq_ok, refuse_eq_ok, pure_eq_ok, not_not] at hok
  obtain ⟨_, hi, _, hr, _, hm, rfl⟩ := hok
  have hbare := bare_of_empty hc.sound hi hr hm
  have hrows : ∀ n, db.ids.store.rows ⟨k.id, n⟩ = none := fun n => by
    simp [Database.ids, hbare.rows n]
  refine ⟨⟨h.failed, ⟨hc.sound.retabled ⟨⟨rfl, rfl, rfl, rfl⟩, ?_, fun _ _ hr => hr, fun _ _ hm => hm,
    fun c' k' hk' => ?_, fun c' hs => ⟨Or.inl ?_, fun _ => rfl, fun _ => rfl⟩⟩, cacheOk_none rfl,
    fun c' => ?_⟩, h.ids.forget h.failed hrows, h.numbered.forget k.id⟩, rfl, rfl⟩
  · exact hc.sound.catalogued.erase hk rfl rfl fun s m => update_names _ _ _ _ s m
  · by_cases hcc : c' = k.id
    · rw [hcc]
      exact Or.inr hbare
    · refine Or.inl ⟨k', ?_, rfl⟩
      exact (Function.update_of_ne hcc _ _).trans hk'
  · obtain ⟨k', hk', hd'⟩ := hs
    refine ⟨k', ?_, hd'⟩
    have hk'' : Function.update db.store.catalogs k.id none c' = some k' := hk'
    rw [Function.update_apply] at hk''
    split_ifs at hk''
    exact hk''
  · refine ⟨fun hcc => (by cases hcc), ?_⟩
    rintro ⟨k', hk', hd'⟩
    have hk'' : Function.update db.store.catalogs k.id none c' = some k' := hk'
    rw [Function.update_apply] at hk''
    split_ifs at hk'' with hcc
    exact absurd (hone c' k' hk'' hd') hcc

/-- **A step of a drop.** -/
lemma dropCollectionStep_served {budget : ℕ} {ended : Bool} (h : Good db)
    (hok : db.dropCollectionStep o c budget = .ok (ended, db')) : Served db db' := by
  obtain ⟨k, d, hk, rfl, hd, hdone⟩ := dropCollectionStep_done h hok
  cases hdone with
  | progress hre =>
      have hs := h.reindexed hre
      rw [← hre.only.tables.catalogs] at hk
      exact hs.trans
        (dropProgress_served hs.good hk hd (fun _ => Or.inl rfl) (fun _ => Or.inl rfl) .refl)
  | rows => exact removeRows_served h hk hd
  | mappings => exact removeMappings_served h hk hd
  | descriptor hdo => exact dropStepDescriptor_served h hk hd hdo

end

end Engine
