import Sekejap.Collections.FamilySteps
import Sekejap.Collections.References

/-!
# Index families in every run

What the requests to the tables leave of the rows, what the index requests do, and the invariant of a
run: the indexes of a family are right about the rows of their tables, in the working tree and in what
is durable.

* **`indexed_reachable`** — in every run whose row changes the family follows, every index is right.
-/

open Collections (EntityId)

open Fallible

namespace Engine

namespace Families

variable {σ : Type} {F : Family σ} {host : Host}

/-! ## Requests to the tables -/

section

variable {db db' : Engine.Database} {x x' : Store} {c : ℕ} {k : Catalog} {o : Call}

/-- A table is marked, or its rows go. -/
lemma kept_mark (hnext : x'.nextCollection = x.nextCollection) (hk : x.catalogs c = some k)
    {d : DropState} (hcat : x'.catalogs = Function.update x.catalogs c (some { k with drop := some d }))
    (hrows : ∀ id, id.collection ≠ c → x'.rows.lookup id = x.rows.lookup id) : Kept x x' := by
  refine ⟨hnext.ge, fun c' k' hk' _ => ?_, fun c' _ hs => ?_⟩
  · rw [hcat, Function.update_apply] at hk'
    split_ifs at hk' with hc
    · cases hk'
      exact ⟨k, hc ▸ hk, rfl⟩
    · exact ⟨k', hk', rfl⟩
  · obtain ⟨k', hk', hd⟩ := hs
    rw [hcat, Function.update_apply] at hk'
    split_ifs at hk' with hc
    · cases hk'
      cases hd
    · refine ⟨⟨k', hk', hd⟩, ?_⟩
      funext m
      rw [Store.document, Store.document, hrows _ hc]

lemma kept_createTable {t : Declaration} (hok : db.createTable t = .ok (c, db')) :
    Kept db.store db'.store := by
  simp only [Engine.Database.createTable, bind_eq_ok, refuse_eq_ok, pure_eq_ok, Prod.mk.injEq] at hok
  obtain ⟨db₁, hu, _, -, _, -, _, -, found, -, _, -, _, -, fields, -, rfl, rfl⟩ := hok
  obtain ⟨-, rfl⟩ := userWrite_ok hu
  have hother : ∀ c' k' (k : Catalog), c' < db.store.nextCollection →
      Function.update db.store.catalogs db.store.nextCollection (some k) c' = some k' →
      db.store.catalogs c' = some k' := by
    intro c' k' k hc hk'
    rwa [Function.update_of_ne hc.ne] at hk'
  refine ⟨Nat.le_succ _, fun c' k' hk' hc => ⟨k', hother c' k' _ hc hk', rfl⟩, fun c' hc hs => ⟨?_, rfl⟩⟩
  obtain ⟨k', hk', hd⟩ := hs
  exact ⟨k', hother c' k' _ hc hk', hd⟩

/-- **A request that is not a row write leaves the rows of the tables that stand.** -/
lemma kept_alone {r : Engine.Request} (h : Good db) (hr : alone r = true)
    (hok : db.call r = .ok db') : Kept db.store db'.store := by
  cases call_done h hok with
  | schema => exact kept_of_sameTables ⟨rfl, rfl, rfl, rfl, rfl⟩
  | collection hdo => exact (kept_createTable hdo).trans (kept_of_sameTables ⟨rfl, rfl, rfl, rfl, rfl⟩)
  | table hdo => exact kept_createTable hdo
  | rows hw => cases r <;> simp [alone, Engine.Request.writes] at hr hw
  | indexes hre => exact kept_of_sameTables hre.only.tables
  | backfill => exact kept_of_sameTables (aside_backfillLoop db _ _ 0 0).tables
  | beginDrop hdo =>
      simp only [Engine.Database.beginDropCollection, bind_eq_ok, pure_eq_ok] at hdo
      obtain ⟨_, -, _, -, k, hk, _, -, rfl⟩ := hdo
      obtain ⟨-, hk, -⟩ := catalog_ok hk
      obtain rfl : k.id = _ := (h.consistent.sound.catalogued.id _ k hk).1
      exact kept_mark rfl hk rfl fun _ _ => rfl
  | delete | deletePage | dropStep | commit => cases hr

/-- **A step of a table's drop leaves the rows of the others.** -/
lemma kept_dropCollectionStep {budget : ℕ} {ended : Bool} (h : Good db)
    (hok : db.dropCollectionStep o c budget = .ok (ended, db')) : Kept db.store db'.store := by
  obtain ⟨k, d, hk, rfl, hd, hdone⟩ := dropCollectionStep_done h hok
  cases hdone with
  | progress hre =>
      have ht := hre.only.tables
      refine (kept_of_sameTables ht).trans (kept_mark rfl (c := k.id) (k := k) ?_ rfl fun _ _ => rfl)
      rw [ht.catalogs]
      exact hk
  | rows =>
      refine kept_mark rfl hk rfl fun id hid => ?_
      refine (lookup_foldl_erase (fun seq => (⟨k.id, seq⟩ : EntityId)) _ _ id).resolve_right ?_
      rintro ⟨⟨seq, rfl⟩, -⟩
      exact hid rfl
  | mappings => exact kept_mark rfl hk rfl fun _ _ => rfl
  | descriptor hdo =>
      simp only [Engine.Database.dropStepDescriptor, bind_eq_ok, pure_eq_ok] at hdo
      obtain ⟨_, -, _, -, _, -, rfl⟩ := hdo
      have hother : ∀ c' k', Function.update db.store.catalogs k.id none c' = some k' →
          db.store.catalogs c' = some k' := by
        intro c' k' hk'
        rw [Function.update_apply] at hk'
        split_ifs at hk'
        exact hk'
      refine ⟨le_refl _, fun c' k' hk' _ => ⟨k', hother c' k' hk', rfl⟩, fun c' _ hs => ⟨?_, rfl⟩⟩
      obtain ⟨k', hk', hd'⟩ := hs
      exact ⟨k', hother c' k' hk', hd'⟩

end

/-! ## Index requests -/

/-- A descriptor was written, and the registry of names. -/
lemma renamed_served {db : Engine.Database} {next : ℕ} (names : ℕ → String → Option ℕ)
    (h : Good db) (hnext : db.store.nextIndex ≤ next) :
    Served db (db.indexDescriptorsChanged.setStore fun x =>
      { x with nextIndex := next, indexNames := names }) := by
  have ho := h.consistent.sound.owned
  refine h.reindexed ⟨rfl, h.consistent.reindexed rfl ?_ (cacheOk_none rfl) ?_⟩
  · exact ⟨fun n v hv => ⟨(ho.id n v hv).1, (ho.id n v hv).2.trans_le hnext⟩, ho.tree, ho.entry,
      fun e he => (ho.shared e he).trans_le hnext⟩
  · intro n v hv
    exact h.consistent.sound.fits hv

lemma descriptors_served {db : Engine.Database} (h : Good db) :
    Served db db.indexDescriptorsChanged :=
  renamed_served db.store.indexNames h le_rfl

variable (S : Spec F host)

/-- The change of every row the requests of a run make is one the family follows, and no rollback keeps
a block of row numbers the durable state has gone past. -/
def Spec.Steady (db : Database σ) : Op σ → Prop
  | .call (.write r) => ∀ ch, db.tables.written.change r = .ok (some ch) → ∀ n i,
      db.indexes.lookup n = some i → i.info.collection = ch.id.collection →
      i.info.state ≠ .dropping →
      S.Fine i.info i.data ch.id.sequence ch.old (ch.new.map Prod.snd)
  | .rollback => Engine.Certain db.tables .rollback
  | _ => True

/-- **What a request leaves**: the tables as they serve it, and right indexes. -/
structure Followed (db db' : Database σ) : Prop where
  served : Served db.tables db'.tables
  durable : db'.durable = db.durable
  indexed : Indexed S db'.tables.store db'.indexes

section

variable {S} {db db' : Database σ} {c n id : ℕ} {o : Call}

lemma Followed.trans {db₁ : Database σ} (h : Followed S db db₁) (h' : Followed S db₁ db') :
    Followed S db db' :=
  ⟨h.served.trans h'.served, h'.durable.trans h.durable, h'.indexed⟩

lemma createIndex_followed {name field : String} {withTree : Bool} (hg : Good db.tables)
    (h : Indexed S db.tables.store db.indexes)
    (hok : db.createIndex F c name field withTree = .ok (n, db')) : Followed S db db' := by
  simp only [Database.createIndex, bind_eq_ok, refuse_eq_ok, pure_eq_ok, Prod.mk.injEq,
    Bool.not_eq_false] at hok
  obtain ⟨_, -, kind, hkind, _, haccepts, _, -, _, -, list, -, _, -, _, -, _, -, -, rfl⟩ := hok
  obtain ⟨k, hk, hmem⟩ := fieldKind_ok hkind
  have hid := hg.consistent.sound.catalogued.id c k hk
  have hzero : ∀ m, (db.tables.store.document c m).isSome → ¬ m ≤ 0 := by
    intro m hrow
    obtain ⟨r, hr⟩ := Option.isSome_iff_exists.1 hrow
    obtain ⟨row, hlook, -⟩ := Option.map_eq_some_iff.1 hr
    exact Nat.not_le.2 (hg.rows _ row hlook)
  have hkept : Kept db.tables.store (db.tables.indexDescriptorsChanged.setStore fun x => { x with
      nextIndex := db.tables.store.nextIndex + 1
      indexNames := Function.update x.indexNames c
        (Function.update (x.indexNames c) name (some db.tables.store.nextIndex)) }).store :=
    kept_of_sameTables ⟨rfl, rfl, rfl, rfl, rfl⟩
  refine ⟨renamed_served _ hg (Nat.le_succ _), rfl, (h.kept hkept).insert hid.2 ⟨haccepts, ?_⟩
    (fun _ _ => S.start fun m hm => ?_) ?_⟩
  · intro k' hk'
    cases hk.symm.trans hk'
    exact hmem
  · -- no row has number 0
    rw [← Option.not_isSome_iff_eq_none]
    exact fun hrow => hzero m hrow hm
  · exact fun _ m hm hrow => absurd hm (hzero m hrow)

lemma buildIndexStep_followed {batch : ℕ} {ended : Bool} (hg : Good db.tables)
    (h : Indexed S db.tables.store db.indexes)
    (hok : db.buildIndexStep F id batch = .ok (ended, db')) : Followed S db db' := by
  obtain ⟨htables | htables, hdur, hix⟩ := h.built hg hok
  · exact ⟨by rw [htables]; exact .refl hg, hdur, by rw [htables]; exact hix⟩
  · exact ⟨by rw [htables]; exact descriptors_served hg, hdur, by rw [htables]; exact hix⟩

lemma beginDropIndex_followed (hg : Good db.tables) (h : Indexed S db.tables.store db.indexes)
    (hok : db.beginDropIndex id = .ok db') : Followed S db db' := by
  simp only [Database.beginDropIndex, bind_eq_ok, orElse_eq_ok, pure_eq_ok] at hok
  obtain ⟨_, -, i, hi, rfl⟩ := hok
  exact ⟨descriptors_served hg, rfl, h.insert (h.table id i hi) (h.field id i hi)
    (fun hnd => absurd rfl hnd) (fun _ m hm => hm.elim)⟩

lemma dropIndexStep_followed {rest : Option σ} (hg : Good db.tables)
    (h : Indexed S db.tables.store db.indexes) (hok : db.dropIndexStep id rest = .ok db') :
    Followed S db db' := by
  simp only [Database.dropIndexStep, bind_eq_ok, orElse_eq_ok, refuse_eq_ok, not_not] at hok
  obtain ⟨_, -, i, hi, _, hs, hok⟩ := hok
  cases rest with
  | some data =>
      simp only [pure_eq_ok] at hok
      subst hok
      refine ⟨.refl hg, rfl, h.insert (h.table id i hi) (h.field id i hi) (fun hnd => absurd hs hnd)
        (fun _ m hm => ?_)⟩
      dsimp only at hm
      rw [hs] at hm
      exact hm.elim
  | none =>
      simp only [pure_eq_ok] at hok
      subst hok
      have herased := h.erase id
      exact ⟨renamed_served _ hg le_rfl, rfl,
        herased.kept (kept_of_sameTables ⟨rfl, rfl, rfl, rfl, rfl⟩)⟩

lemma dropCollectionStep_followed {budget : ℕ} {rest : Option σ} (hg : Good db.tables)
    (h : Indexed S db.tables.store db.indexes)
    (hok : db.dropCollectionStep o c budget rest = .ok db') : Followed S db db' := by
  rw [Database.dropCollectionStep] at hok
  split at hok
  · simp only [bind_eq_ok, pure_eq_ok, Prod.exists] at hok
    obtain ⟨ended, tables, hstep, rfl⟩ := hok
    exact ⟨dropCollectionStep_served hg hstep, rfl, h.kept (kept_dropCollectionStep hg hstep)⟩
  · simp only [bind_eq_ok, orElse_eq_ok, pure_eq_ok] at hok
    obtain ⟨_, -, k, hk, d, hd, _, -, db₁, hbegin, db₂, hstep, rfl⟩ := hok
    obtain ⟨-, hk⟩ := catalogAny_ok hk
    have h₁ := beginDropIndex_followed hg h hbegin
    have h₂ := h₁.trans (dropIndexStep_followed h₁.served.good h₁.indexed hstep)
    -- neither touched the catalog
    have hcat : db₂.tables.store.catalogs = db.tables.store.catalogs := by
      simp only [Database.beginDropIndex, bind_eq_ok, orElse_eq_ok, pure_eq_ok] at hbegin
      obtain ⟨_, -, i, -, rfl⟩ := hbegin
      simp only [Database.dropIndexStep, bind_eq_ok, orElse_eq_ok] at hstep
      obtain ⟨_, -, j, -, _, -, hstep⟩ := hstep
      cases rest with
      | some data =>
          simp only [pure_eq_ok] at hstep
          subst hstep
          rfl
      | none =>
          simp only [pure_eq_ok] at hstep
          subst hstep
          rfl
    have hk₂ : db₂.tables.store.catalogs c = some k := by rw [hcat]; exact hk
    obtain rfl : k.id = c := (hg.consistent.sound.catalogued.id c k hk).1
    refine h₂.trans ⟨dropProgress_served h₂.served.good hk₂ hd (fun _ => Or.inl rfl)
      (fun _ => Or.inl rfl) .refl, rfl, h₂.indexed.kept (kept_mark rfl hk₂ rfl fun _ _ => rfl)⟩

lemma write_followed {r : RowRequest} (hh : db.tables.host = host) (hg : Good db.tables)
    (h : Indexed S db.tables.store db.indexes) (hp : S.Steady db (.call (.write r)))
    (hok : db.write F r = .ok db') : Followed S db db' := by
  simp only [Database.write, bind_eq_ok] at hok
  obtain ⟨begun, hu, ch, hch, tables, hcall, hok⟩ := hok
  obtain ⟨-, rfl⟩ := userWrite_ok hu
  obtain ⟨hserved, hout⟩ := change_served hg hch hcall
  cases ch with
  | none =>
      simp only [Database.followChange, Except.ok.injEq] at hok
      subst hok
      subst hout
      exact ⟨hserved, rfl, h⟩
  | some ch =>
      simp only [Database.followChange, bind_eq_ok, pure_eq_ok] at hok
      obtain ⟨indexes, hfollow, rfl⟩ := hok
      exact ⟨hserved, rfl, h.followed hh hg hserved.good hout (hp ch hch) hfollow⟩

/-! ## Runs -/

/-- **What holds in every state of a run.** -/
structure Inv (S : Spec F host) (db : Database σ) : Prop where
  host_eq : db.tables.host = host
  tables : Engine.Inv db.tables
  durable : Indexed S db.tables.durable db.durable
  live : db.tables.failed = false → Indexed S db.tables.store db.indexes

lemma Followed.inv (h : Inv S db) (hf : Followed S db db') : Inv S db' :=
  ⟨hf.served.host.trans h.host_eq, hf.served.inv h.tables.durable,
    by rw [hf.served.durable, hf.durable]; exact h.durable, fun _ => hf.indexed⟩

/-- **A request that returned.** -/
lemma call_inv {r : Request σ} (h : Inv S db) (hf : db.tables.failed = false)
    (hp : S.Steady db (.call r)) (hok : db.call F r = .ok db') : Inv S db' := by
  have hg := h.tables.good hf
  have hix := h.live hf
  cases r with
  | tables r =>
      simp only [Database.call, bind_eq_ok, pure_eq_ok] at hok
      obtain ⟨tables, hcall, rfl⟩ := hok
      have hne : r.1 ≠ .commit := by
        intro heq
        have := r.2
        rw [heq] at this
        cases this
      exact Followed.inv h ⟨call_served hg hne hcall, rfl, hix.kept (kept_alone hg r.2 hcall)⟩
  | write r => exact Followed.inv h (write_followed h.host_eq hg hix hp hok)
  | createIndex c name field withTree =>
      simp only [Database.call, map_eq_ok, Prod.exists, exists_eq_right] at hok
      obtain ⟨n, hok⟩ := hok
      exact Followed.inv h (createIndex_followed hg hix hok)
  | buildIndexStep id batch =>
      simp only [Database.call, map_eq_ok, Prod.exists, exists_eq_right] at hok
      obtain ⟨ended, hok⟩ := hok
      exact Followed.inv h (buildIndexStep_followed hg hix hok)
  | beginDropIndex id => exact Followed.inv h (beginDropIndex_followed hg hix hok)
  | dropIndexStep id rest => exact Followed.inv h (dropIndexStep_followed hg hix hok)
  | dropCollectionStep o c budget rest =>
      exact Followed.inv h (dropCollectionStep_followed hg hix hok)
  | commit =>
      simp only [Database.call, Database.commit, bind_eq_ok, pure_eq_ok] at hok
      obtain ⟨tables, hcommit, rfl⟩ := hok
      obtain ⟨hgood, hh, hd⟩ := commit_good hg hcommit
      simp only [Engine.Database.commit, bind_eq_ok, pure_eq_ok] at hcommit
      obtain ⟨flushed, hflush, rfl⟩ := hcommit
      have hkept := hix.kept (kept_of_sameTables (flush_tables hflush))
      exact ⟨hh.trans h.host_eq, ⟨hgood.ids, hgood.numbered, hd ▸ hgood.consistent.sound,
        fun _ => hgood.consistent⟩, hkept, fun _ => hkept⟩

/-- **One step.** -/
lemma Step.inv {op : Op σ} (h : Inv S db) (hp : S.Steady db op) (hs : Step F db op db') :
    Inv S db' := by
  cases hs with
  | call hf hok => exact call_inv h hf hp hok
  | refused hf => exact Followed.inv h ⟨(h.tables.good hf).written, rfl, h.live hf⟩
  | commitUncertain hok =>
      simp only [Database.commitUncertain, bind_eq_ok, pure_eq_ok] at hok
      obtain ⟨tables, hcommit, rfl⟩ := hok
      have hcertain : Engine.Certain db.tables .commitUncertain := trivial
      have htables := (Engine.Step.commitUncertain hcommit).inv h.tables hcertain
      simp only [Engine.Database.commitUncertain, bind_eq_ok, pure_eq_ok] at hcommit
      obtain ⟨flushed, hflush, rfl⟩ := hcommit
      have hf : db.tables.failed = false := by
        simp only [Engine.Database.flush, bind_eq_ok, refuse_eq_ok, Bool.not_eq_true] at hflush
        exact hflush.choose_spec.1
      have hhost := (flush_ok (h.tables.good hf) hflush).2.2
      exact ⟨hhost.trans h.host_eq, htables,
        (h.live hf).kept (kept_of_sameTables (flush_tables hflush)), fun hff => by cases hff⟩
  | fail ht hd =>
      have hcertain : Engine.Certain db.tables .fail := trivial
      have htables := ht.inv h.tables hcertain
      cases ht with
      | fail _ hf' hh _ hdur =>
          exact ⟨hh.trans h.host_eq, htables, by rw [hdur, hd]; exact h.durable, fun hff => by
            rw [hf'] at hff
            cases hff⟩
  | rollback =>
      have hcertain : Engine.Certain db.tables .rollback := hp
      exact ⟨h.host_eq, Engine.Step.rollback.inv h.tables hcertain, h.durable, fun _ => h.durable⟩
  | rollbackFails ht hd =>
      have hcertain : Engine.Certain db.tables .rollbackFails := trivial
      have htables := ht.inv h.tables hcertain
      cases ht with
      | rollbackFails hf' hh _ hdur =>
          exact ⟨hh.trans h.host_eq, htables, by rw [hdur, hd]; exact h.durable, fun hff => by
            rw [hf'] at hff
            cases hff⟩
  | reopen =>
      have hcertain : Engine.Certain db.tables .reopen := trivial
      exact ⟨h.host_eq, Engine.Step.reopen.inv h.tables hcertain, h.durable, fun _ => h.durable⟩

lemma indexed_empty (x : Store) : Indexed S x ∅ := by
  refine ⟨fun n i hi => ?_, fun n i hi => ?_, fun n i hi => ?_, fun n i hi => ?_⟩
  all_goals
    rw [Finmap.lookup_empty] at hi
    cases hi

/-- **The indexes of a family are right about the rows in every state of every run** whose row changes
the family follows. -/
lemma indexed_reachable (h : Reachable F host S.Steady db) : Inv S db := by
  induction h with
  | create register =>
      exact ⟨rfl, inv_create host register, indexed_empty _, fun _ => indexed_empty _⟩
  | step _ hp hs ih => exact hs.inv ih hp

/-! ## Runs that can be computed -/

section

variable (S) [∀ i data seq old new, Decidable (S.Fine i data seq old new)]

/-- A test that is enough for an operation to be steady. -/
def Spec.isSteady (db : Database σ) : Op σ → Bool
  | .call (.write r) =>
      match db.tables.written.change r with
      | .ok (some ch) => (db.listed ch.id.collection).all fun n =>
          (db.indexes.lookup n).all fun i => i.info.state = .dropping
            ∨ S.Fine i.info i.data ch.id.sequence ch.old (ch.new.map Prod.snd)
      | _ => true
  | .rollback => false
  | _ => true

/-- A run whose operations pass the test. -/
def Spec.steadily (db : Database σ) : List (Op σ) → Except Error (Database σ)
  | [] => .ok db
  | op :: ops => do
      refuse (S.isSteady db op = false) .failed
      let db ← db.perform F op
      steadily db ops

variable {S}

lemma steady_of_isSteady {op : Op σ} (h : S.isSteady db op = true) : S.Steady db op := by
  cases op with
  | call r =>
      cases r with
      | write r =>
          intro ch hch n i hi hc hd
          simp only [Spec.isSteady, hch, List.all_eq_true] at h
          have hall := h n (mem_listed.2 ⟨i, hi, hc⟩)
          rw [hi, Option.all_some, decide_eq_true_eq] at hall
          exact hall.resolve_left hd
      | _ => trivial
  | rollback => cases h
  | _ => trivial

lemma Reachable.steadily {ops : List (Op σ)} (h : Reachable F host S.Steady db)
    (hok : S.steadily db ops = .ok db') : Reachable F host S.Steady db' := by
  induction ops generalizing db with
  | nil =>
      cases hok
      exact h
  | cons op ops ih =>
      simp only [Spec.steadily, bind_eq_ok, refuse_eq_ok, Bool.not_eq_false] at hok
      obtain ⟨_, hsteady, db₁, hone, hrest⟩ := hok
      exact ih (.step h (steady_of_isSteady hsteady) (.of_perform hone)) hrest

end

end

end Families

end Engine
