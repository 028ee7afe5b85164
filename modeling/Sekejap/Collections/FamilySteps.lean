import Sekejap.Collections.Families
import Sekejap.Collections.Runs

/-!
# What a run does to an index family

A family says when an index is right about the rows it has come past (`Spec.Right`), and which changes
of a row its write path follows (`Spec.Fine`).  The rest is the same for every family: rows change one
at a time and the indexes of their table follow, a build comes past the rows in the order of their
numbers, and nothing else touches either.

* **`change_served`** — a row request makes the change it is said to make.
* **`Indexed.followed`**, **`Indexed.built`** — a write and a build step keep the indexes right.

`FamilyRuns` carries this over runs (`indexed_reachable`).
-/

open Collections (EntityId)

open Fallible

open Engine.Graph (mem_ascending)

namespace Engine

/-! ## Row requests -/

/-- **One row of a table has changed**, as `ch` says. -/
structure Changes (db db' : Database) (ch : Change) : Prop where
  effect : ∃ row, Effect db db' ch.id (ch.new.map Prod.fst) row
    ∧ row.map Row.document = ch.new.map Prod.snd
  old : db.store.document ch.id.collection ch.id.sequence = ch.old
  real : ch.old.isSome ∨ ch.new.isSome
  encoded : ∀ given stored, ch.new = some (given, stored) →
    ∃ k, db.store.catalogs ch.id.collection = some k
      ∧ encodeDense db.host k.fields given = .ok stored

/-- What a row request has done, when it is said to make a change or none. -/
def Outcome (db db' : Database) : Option Change → Prop
  | none => db' = db.written
  | some ch => Changes db.written db' ch

section

variable {db db' : Database} {o : Call} {c : ℕ} {k : Catalog} {key : String} {id : EntityId}
  {doc : Document} {row : Row} {ch : Option Change}

lemma writeEntity_changes {old : Option (EntityId × Row)} (h : Good db)
    (hk : db.store.catalogs c = some k) (hd : k.drop = none)
    (hnew : old = none → db.store.mapping.lookup (c, key) = none)
    (hold : ∀ id row, old = some (id, row) →
      id.collection = c ∧ db.store.rows.lookup id = some row ∧ row.key = key)
    (hw : db.writeEntity o k key doc old = .ok (id, db'))
    (hch : db.changeTo o k doc old = .ok ch) : ∃ ch', ch = some ch' ∧ Changes db db' ch' := by
  simp only [Database.changeTo, bind_eq_ok] at hch
  obtain ⟨given, hprep, stored, henc, hch⟩ := hch
  simp only [Database.writeEntity, bind_eq_ok] at hw
  obtain ⟨given', hprep', stored', henc', hw⟩ := hw
  cases hprep.symm.trans hprep'
  cases henc.symm.trans henc'
  cases old with
  | none =>
      simp only [bind_eq_ok, pure_eq_ok, Prod.exists, Prod.mk.injEq] at hch hw
      obtain ⟨id₁, db₁, halloc, rfl⟩ := hch
      obtain ⟨id₂, db₂, halloc', db₃, hmaint, db₄, hfin, rfl, rfl⟩ := hw
      cases halloc.symm.trans halloc'
      obtain ⟨heffect, hfresh, hid⟩ := insert_effect h.consistent h.ids h.failed hk hd (hnew rfl) henc
        halloc hmaint hfin
      refine ⟨_, rfl, ⟨_, heffect, rfl⟩, ?_, Or.inr rfl, ?_⟩
      · simp only [Store.document, hfresh, Option.map_none]
      · rintro _ _ ⟨⟩
        exact ⟨k, hid ▸ hk, henc⟩
  | some e =>
      obtain ⟨id₁, row⟩ := e
      simp only [bind_eq_ok, pure_eq_ok, Prod.mk.injEq] at hch hw
      subst hch
      obtain ⟨db₁, hmaint, -, rfl⟩ := hw
      obtain ⟨hid, hrow, rfl⟩ := hold id₁ row rfl
      refine ⟨_, rfl, ⟨_, replace_effect h.consistent hk hd hid hrow henc hmaint rfl, rfl⟩, ?_, Or.inr rfl,
        ?_⟩
      · simp only [Store.document, hrow, Option.map_some]
      · rintro _ _ ⟨⟩
        exact ⟨k, hid ▸ hk, henc⟩

/-- The identity a new row gets. -/
lemma allocate_new {db₁ : Database} (h : Good db) (hok : db.allocate c = .ok (id, db₁)) :
    db.store.rows.lookup id = none ∧ id.sequence ≠ 0 := by
  obtain ⟨d, hids, -⟩ := allocate_ok hok
  exact ⟨Option.map_eq_none_iff.1 (h.ids.fresh h.failed hids),
    (h.numbered.allocate h.failed hids).1.1.ne'⟩

/-- A row that is there. -/
lemma old_of_row (h : Good db) (hrow : db.store.rows.lookup id = some row) :
    db.store.document id.collection id.sequence = some row.document ∧ id.sequence ≠ 0 :=
  ⟨by simp only [Store.document, hrow, Option.map_some], (h.rows id row hrow).ne'⟩

lemma changeTo_old {old : Option (EntityId × Row)} {ch : Change} (h : Good db)
    (hold : ∀ id row, old = some (id, row) → db.store.rows.lookup id = some row)
    (hch : db.changeTo o k doc old = .ok (some ch)) :
    db.store.document ch.id.collection ch.id.sequence = ch.old ∧ ch.id.sequence ≠ 0 := by
  simp only [Database.changeTo, bind_eq_ok] at hch
  obtain ⟨given, -, stored, -, hch⟩ := hch
  cases old with
  | none =>
      simp only [bind_eq_ok, pure_eq_ok, Prod.exists, Option.some.injEq] at hch
      obtain ⟨id, db₁, halloc, rfl⟩ := hch
      obtain ⟨hfresh, hpos⟩ := allocate_new h halloc
      exact ⟨by simp only [Store.document, hfresh, Option.map_none], hpos⟩
  | some e =>
      obtain ⟨id, row⟩ := e
      simp only [pure_eq_ok, Option.some.injEq] at hch
      subst hch
      exact old_of_row h (hold id row rfl)

/-- **The row of a change is as it says**, before the request is served. -/
lemma change_old {r : RowRequest} {ch : Change} (h : Good db) (hch : db.change r = .ok (some ch)) :
    db.store.document ch.id.collection ch.id.sequence = ch.old ∧ ch.id.sequence ≠ 0 := by
  cases r with
  | put o c key fields =>
      simp only [Database.change, bind_eq_ok] at hch
      obtain ⟨k, -, old, hold, hch⟩ := hch
      exact changeTo_old h (fun id row he => ((loadEntity_ok hold).2 id row he).2.1) hch
  | insert o c key fields =>
      simp only [Database.change, bind_eq_ok] at hch
      obtain ⟨k, -, hch⟩ := hch
      exact changeTo_old h (by simp) hch
  | update o c key patch =>
      simp only [Database.change, bind_eq_ok, orElse_eq_ok, Prod.exists] at hch
      obtain ⟨k, -, old, hold, id, row, rfl, hch⟩ := hch
      exact changeTo_old h (fun id row he => ((loadEntity_ok hold).2 id row he).2.1) hch
  | delete o c key =>
      simp only [Database.change, bind_eq_ok, pure_eq_ok] at hch
      obtain ⟨old, hold, hch⟩ := hch
      obtain ⟨⟨id, row⟩, rfl, rfl⟩ := Option.map_eq_some_iff.1 hch
      exact old_of_row h ((loadEntity_ok hold).2 id row rfl).2.1
  | deleteCandidate o c id =>
      simp only [Database.change, Except.ok.injEq] at hch
      obtain ⟨row, hrow, rfl⟩ := Option.map_eq_some_iff.1 hch
      exact old_of_row h hrow
  | updateCandidate o c id patch =>
      simp only [Database.change, bind_eq_ok] at hch
      obtain ⟨k, -, hch⟩ := hch
      cases hrow : db.store.rows.lookup id with
      | none => simp [hrow] at hch
      | some row =>
          simp only [hrow, bind_eq_ok] at hch
          obtain ⟨new, -, hch⟩ := hch
          exact changeTo_old h (by rintro _ _ ⟨⟩; exact hrow) hch

/-- A row that is removed. -/
lemma removal_changes (h : Good db) (hk : db.store.catalogs c = some k) (hd : k.drop = none)
    (hid : id.collection = c) (hrow : db.store.rows.lookup id = some row)
    (hrem : db.removeRow o id row = .ok db') : Changes db db' ⟨id, some row.document, none⟩ := by
  refine ⟨⟨none, remove_effect h.consistent hk hd hid hrow hrem, rfl⟩, ?_, Or.inl rfl, ?_⟩
  · simp only [Store.document, hrow, Option.map_some]
  · rintro _ _ ⟨⟩

/-- **A row request makes the change it is said to make**, or none. -/
lemma change_served {r : RowRequest} (h : Good db) (hch : db.written.change r = .ok ch)
    (hok : db.call r.request = .ok db') :
    Served db db' ∧ Outcome db db' ch := by
  have hg : Good db.written := h.written.good
  refine ⟨call_served h (by cases r <;> simp [RowRequest.request]) hok, ?_⟩
  cases r with
  | put o c key fields =>
      simp only [Database.change, bind_eq_ok] at hch
      obtain ⟨k, hk, old, hold, hch⟩ := hch
      simp only [RowRequest.request, Database.call, Database.put, map_eq_ok, bind_eq_ok, Prod.exists,
        exists_eq_right] at hok
      obtain ⟨id, db₁, hu, k', hk', _, -, _, -, old', hold', hw⟩ := hok
      obtain ⟨-, rfl⟩ := userWrite_ok hu
      cases hk.symm.trans hk'
      cases hold.symm.trans hold'
      obtain ⟨-, hk, hd⟩ := catalog_ok hk
      obtain ⟨hnone, hsome⟩ := loadEntity_ok hold
      obtain ⟨ch, rfl, hchanges⟩ := writeEntity_changes hg hk hd hnone hsome hw hch
      exact hchanges
  | insert o c key fields =>
      simp only [Database.change, bind_eq_ok] at hch
      obtain ⟨k, hk, hch⟩ := hch
      simp only [RowRequest.request, Database.call, Database.insert, map_eq_ok, bind_eq_ok,
        refuse_eq_ok, Bool.not_eq_true, Prod.exists, exists_eq_right] at hok
      obtain ⟨id, db₁, hu, k', hk', _, -, _, -, old, hold, _, hnew, hw⟩ := hok
      obtain ⟨-, rfl⟩ := userWrite_ok hu
      cases hk.symm.trans hk'
      obtain ⟨-, hk, hd⟩ := catalog_ok hk
      have hnone := (loadEntity_ok hold).1 (by simpa using hnew)
      obtain ⟨ch, rfl, hchanges⟩ := writeEntity_changes hg hk hd (fun _ => hnone) (by simp) hw hch
      exact hchanges
  | update o c key patch =>
      simp only [Database.change, bind_eq_ok, orElse_eq_ok, Prod.exists] at hch
      obtain ⟨k, hk, old, hold, id, row, rfl, hch⟩ := hch
      simp only [RowRequest.request, Database.call, Database.update, map_eq_ok, bind_eq_ok,
        orElse_eq_ok, Prod.exists, exists_eq_right] at hok
      obtain ⟨id', db₁, hu, k', hk', _, -, _, -, old', hold', id'', row', rfl, hw⟩ := hok
      obtain ⟨-, rfl⟩ := userWrite_ok hu
      cases hk.symm.trans hk'
      cases hold.symm.trans hold'
      obtain ⟨-, hk, hd⟩ := catalog_ok hk
      obtain ⟨-, hsome⟩ := loadEntity_ok hold
      obtain ⟨ch, rfl, hchanges⟩ := writeEntity_changes hg hk hd (by simp) hsome hw hch
      exact hchanges
  | delete o c key =>
      simp only [Database.change, bind_eq_ok, pure_eq_ok] at hch
      obtain ⟨old, hold, rfl⟩ := hch
      simp only [RowRequest.request, Database.call, Database.delete, map_eq_ok, bind_eq_ok, Prod.exists,
        exists_eq_right] at hok
      obtain ⟨found, db₁, hu, old', hold', hok⟩ := hok
      obtain ⟨-, rfl⟩ := userWrite_ok hu
      cases hold.symm.trans hold'
      cases old with
      | none =>
          simp only [pure_eq_ok, Prod.mk.injEq] at hok
          exact hok.2.symm
      | some e =>
          obtain ⟨id, row⟩ := e
          obtain ⟨hid, hrow, -⟩ := (loadEntity_ok hold).2 id row rfl
          simp only [bind_eq_ok] at hok
          obtain ⟨k, hk, referencing, -, hok⟩ := hok
          obtain ⟨-, hk, hd⟩ := catalog_ok hk
          cases referencing with
          | some r => simp at hok
          | none =>
              simp only [bind_eq_ok, pure_eq_ok, Prod.mk.injEq] at hok
              obtain ⟨db₂, hrem, -, rfl⟩ := hok
              exact removal_changes hg hk hd hid hrow hrem
  | deleteCandidate o c id =>
      simp only [Database.change, Except.ok.injEq] at hch
      simp only [RowRequest.request, Database.call, Database.deletePage, Database.writeCandidates,
        bind_eq_ok, Prod.exists, Except.ok.injEq] at hok
      obtain ⟨k, hk, found, db₁, hdel, rfl⟩ := hok
      obtain ⟨-, hk, hd⟩ := catalog_ok hk
      obtain ⟨hid, ⟨rfl, hrow⟩ | ⟨row, hrow, hrem⟩⟩ := deleteCandidate_steps hdel
      · rw [← hch, show db.written.store.rows.lookup id = none from hrow]
        rfl
      · rw [← hch, show db.written.store.rows.lookup id = some row from hrow]
        exact removal_changes hg hk hd hid hrow hrem
  | updateCandidate o c id patch =>
      simp only [Database.change, bind_eq_ok] at hch
      obtain ⟨k, hk, hch⟩ := hch
      simp only [RowRequest.request, Database.call, Database.updatePage, Database.writeCandidates,
        Database.updateCandidate, bind_eq_ok, Prod.exists, Except.ok.injEq] at hok
      obtain ⟨k', -, found, db₁, ⟨db₂, hu, k'', hk'', row?, hload, hok⟩, rfl⟩ := hok
      obtain ⟨-, rfl⟩ := userWrite_ok hu
      cases hk.symm.trans hk''
      obtain ⟨-, hk, hd⟩ := catalog_ok hk
      obtain ⟨hid, rfl⟩ := loadCandidate_ok hload
      cases hrow : db.written.store.rows.lookup id with
      | none =>
          simp only [hrow, pure_eq_ok] at hch
          simp only [hrow, pure_eq_ok, Prod.mk.injEq] at hok
          subst hch
          exact hok.2.symm
      | some row =>
          simp only [hrow, bind_eq_ok] at hch
          simp only [hrow, bind_eq_ok, pure_eq_ok, Prod.exists, Prod.mk.injEq] at hok
          obtain ⟨new, hnew, hch⟩ := hch
          obtain ⟨new', hnew', _, db₂, hw, -, rfl⟩ := hok
          cases hnew.symm.trans hnew'
          obtain ⟨ch, rfl, hchanges⟩ := writeEntity_changes hg hk hd (by simp)
            (by rintro _ _ ⟨⟩; exact ⟨hid, hrow, rfl⟩) hw hch
          exact hchanges

end

namespace Families

variable {σ : Type}

/-! ## What a family promises -/

/-- A stored document has the field as it was given, a value through the field's codec. -/
def Stores (host : Host) (i : IndexInfo) (given stored : Document) : Prop :=
  stored i.field = given i.field ∨ ∃ v w, given i.field = some v ∧ v.isNull = false
    ∧ encodeField host i.kind v = .ok w ∧ stored i.field = some w

/-- **When an index of a family is right**, and which changes its write path follows. -/
structure Spec (F : Family σ) (host : Host) where
  /-- right about the rows of a table, of which a write or a build has come past some, and a build
  past some -/
  Right : IndexInfo → (ℕ → Option Document) → Finset ℕ → (ℕ → Prop) → σ → Prop
  /-- the change of a row is followed -/
  Fine : IndexInfo → σ → ℕ → Option Document → Option Document → Prop
  restate : ∀ {i R reached built data} (state : IndexState),
    (∀ n, (R n).isSome → state.covers n → built n) → Right i R reached built data →
    Right { i with state } R reached state.covers data
  start : ∀ {i R}, (∀ n, i.state.covers n → R n = none) → Right i R ∅ i.state.covers F.empty
  maintain : ∀ {i R reached data data' seq old new}, F.accepts i.kind = true →
    Right i R reached i.state.covers data → R seq = old → seq ≠ 0 → (old.isSome ∨ new.isSome) →
    (∀ given stored, new = some (given, stored) → Stores host i given stored) →
    Fine i data seq old (new.map Prod.snd) → F.maintain i data seq old new = .ok data' →
    Right i (Function.update R seq (new.map Prod.snd)) (insert seq reached) i.state.covers data'
  build : ∀ {i R reached built data data' seq doc}, F.accepts i.kind = true →
    Right i R reached built data → R seq = some doc → seq ≠ 0 → F.build i data seq doc = .ok data' →
    Right i R (insert seq reached) (fun n => n = seq ∨ built n) data'

variable {F : Family σ} {host : Host} (S : Spec F host)

/-- **The indexes of a store are right about its rows**, in every table that is not being dropped. -/
structure Indexed (x : Store) (indexes : Registry σ) : Prop where
  table : ∀ n i, indexes.lookup n = some i → i.info.collection < x.nextCollection
  field : ∀ n i, indexes.lookup n = some i → F.accepts i.info.kind = true
    ∧ ∀ k, x.catalogs i.info.collection = some k → (i.info.field, i.info.kind) ∈ k.fields
  right : ∀ n i, indexes.lookup n = some i → i.info.state ≠ .dropping →
    Standing x i.info.collection →
    S.Right i.info (x.document i.info.collection) i.reached i.info.state.covers i.data
  /-- a build has come past the rows up to its cursor -/
  covered : ∀ n i, indexes.lookup n = some i → Standing x i.info.collection → ∀ m,
    i.info.state.covers m → (x.document i.info.collection m).isSome → m ∈ i.reached

/-- What a request leaves of the tables it does not write. -/
structure Kept (x x' : Store) : Prop where
  nextCollection : x.nextCollection ≤ x'.nextCollection
  fields : ∀ c k', x'.catalogs c = some k' → c < x.nextCollection →
    ∃ k, x.catalogs c = some k ∧ k.fields = k'.fields
  standing : ∀ c, c < x.nextCollection → Standing x' c →
    Standing x c ∧ x'.document c = x.document c

section

variable {S} {x x' : Store} {indexes indexes' : Registry σ} {n seq c : ℕ} {i : Index σ}

lemma kept_of_sameTables (h : SameTables x x') : Kept x x' := by
  refine ⟨h.nextCollection.ge, fun c k hk _ => ⟨k, h.catalogs ▸ hk, rfl⟩, fun c _ hs => ⟨?_, ?_⟩⟩
  · obtain ⟨k, hk, hd⟩ := hs
    exact ⟨k, h.catalogs ▸ hk, hd⟩
  · funext m
    rw [Store.document, Store.document, h.rows]

lemma Kept.trans {x₁ : Store} (h : Kept x x₁) (h' : Kept x₁ x') : Kept x x' := by
  refine ⟨h.nextCollection.trans h'.nextCollection, fun c k hk hc => ?_, fun c hc hs => ?_⟩
  · obtain ⟨k₁, hk₁, hf₁⟩ := h'.fields c k hk (hc.trans_le h.nextCollection)
    obtain ⟨k₂, hk₂, hf₂⟩ := h.fields c k₁ hk₁ hc
    exact ⟨k₂, hk₂, hf₂.trans hf₁⟩
  · obtain ⟨hs₁, hdoc₁⟩ := h'.standing c (hc.trans_le h.nextCollection) hs
    obtain ⟨hs₂, hdoc₂⟩ := h.standing c hc hs₁
    exact ⟨hs₂, hdoc₁.trans hdoc₂⟩

/-- **Indexes stay right while their rows stay.** -/
lemma Indexed.kept (h : Indexed S x indexes) (hk : Kept x x') : Indexed S x' indexes := by
  refine ⟨fun n i hi => (h.table n i hi).trans_le hk.nextCollection, fun n i hi => ?_,
    fun n i hi hd hs => ?_, fun n i hi hs m hm hrow => ?_⟩
  · refine ⟨(h.field n i hi).1, fun k hcat => ?_⟩
    obtain ⟨k₀, hk₀, hfields⟩ := hk.fields _ k hcat (h.table n i hi)
    exact hfields ▸ (h.field n i hi).2 k₀ hk₀
  · obtain ⟨hs', hdoc⟩ := hk.standing _ (h.table n i hi) hs
    rw [hdoc]
    exact h.right n i hi hd hs'
  · obtain ⟨hs', hdoc⟩ := hk.standing _ (h.table n i hi) hs
    exact h.covered n i hi hs' m hm (hdoc ▸ hrow)

/-- One index is replaced. -/
lemma Indexed.insert (h : Indexed S x indexes) (htable : i.info.collection < x.nextCollection)
    (hfield : F.accepts i.info.kind = true
      ∧ ∀ k, x.catalogs i.info.collection = some k → (i.info.field, i.info.kind) ∈ k.fields)
    (hright : i.info.state ≠ .dropping → Standing x i.info.collection →
      S.Right i.info (x.document i.info.collection) i.reached i.info.state.covers i.data)
    (hcovered : Standing x i.info.collection → ∀ m, i.info.state.covers m →
      (x.document i.info.collection m).isSome → m ∈ i.reached) :
    Indexed S x (indexes.insert n i) := by
  have hlookup : ∀ m j, (indexes.insert n i).lookup m = some j →
      j = i ∨ indexes.lookup m = some j := by
    intro m j hj
    by_cases hm : m = n
    · subst hm
      rw [Finmap.lookup_insert] at hj
      exact Or.inl (Option.some.inj hj).symm
    · rw [Finmap.lookup_insert_of_ne _ hm] at hj
      exact Or.inr hj
  refine ⟨fun m j hj => ?_, fun m j hj => ?_, fun m j hj => ?_, fun m j hj => ?_⟩
  all_goals rcases hlookup m j hj with rfl | hj
  · exact htable
  · exact h.table m j hj
  · exact hfield
  · exact h.field m j hj
  · exact hright
  · exact h.right m j hj
  · exact hcovered
  · exact h.covered m j hj

lemma Indexed.erase (h : Indexed S x indexes) (n : ℕ) : Indexed S x (indexes.erase n) := by
  have hlookup : ∀ m j, (indexes.erase n).lookup m = some j → indexes.lookup m = some j := by
    intro m j hj
    by_cases hm : m = n
    · subst hm
      rw [Finmap.lookup_erase] at hj
      cases hj
    · rwa [Finmap.lookup_erase_ne hm] at hj
  exact ⟨fun m j hj => h.table m j (hlookup m j hj), fun m j hj => h.field m j (hlookup m j hj),
    fun m j hj => h.right m j (hlookup m j hj), fun m j hj => h.covered m j (hlookup m j hj)⟩

/-! ## Row writes -/

lemma followOne_ok {old : Option Document} {new : Option (Document × Document)}
    (hok : Database.followOne F seq old new indexes n = .ok indexes') :
    (∀ m, m ≠ n → indexes'.lookup m = indexes.lookup m)
      ∧ (indexes.lookup n = none → indexes'.lookup n = none)
      ∧ ∀ i, indexes.lookup n = some i →
        (i.info.state = .dropping ∧ indexes'.lookup n = some i)
        ∨ i.info.state ≠ .dropping ∧ ∃ data, F.maintain i.info i.data seq old new = .ok data
          ∧ indexes'.lookup n = some { i with data, reached := Insert.insert seq i.reached } := by
  rw [Database.followOne] at hok
  cases hi : indexes.lookup n with
  | none =>
      simp only [hi, Except.ok.injEq] at hok
      subst hok
      exact ⟨fun _ _ => rfl, fun _ => hi, by simp⟩
  | some i =>
      simp only [hi] at hok
      split_ifs at hok with hd
      · cases hok
        refine ⟨fun _ _ => rfl, by simp, ?_⟩
        rintro _ ⟨⟩
        exact Or.inl ⟨hd, hi⟩
      · simp only [bind_eq_ok, pure_eq_ok] at hok
        obtain ⟨data, hdata, rfl⟩ := hok
        refine ⟨fun m hm => Finmap.lookup_insert_of_ne _ hm, by simp, ?_⟩
        rintro _ ⟨⟩
        exact Or.inr ⟨hd, data, hdata, Finmap.lookup_insert _⟩

lemma follow_ok {old : Option Document} {new : Option (Document × Document)} {list : List ℕ}
    (hnodup : list.Nodup) (hok : Database.follow F seq old new indexes list = .ok indexes') :
    (∀ m, m ∉ list → indexes'.lookup m = indexes.lookup m)
      ∧ ∀ n ∈ list, (indexes.lookup n = none → indexes'.lookup n = none)
        ∧ ∀ i, indexes.lookup n = some i →
          (i.info.state = .dropping ∧ indexes'.lookup n = some i)
          ∨ i.info.state ≠ .dropping ∧ ∃ data, F.maintain i.info i.data seq old new = .ok data
            ∧ indexes'.lookup n = some { i with data, reached := Insert.insert seq i.reached } := by
  induction list generalizing indexes with
  | nil =>
      cases hok
      exact ⟨fun _ _ => rfl, by simp⟩
  | cons n list ih =>
      obtain ⟨hnotin, hnodup'⟩ := List.nodup_cons.1 hnodup
      simp only [Database.follow, bind_eq_ok] at hok
      obtain ⟨indexes₁, hone, hrest⟩ := hok
      obtain ⟨hothers, hself⟩ := followOne_ok hone
      obtain ⟨hkeep, hall⟩ := ih hnodup' hrest
      refine ⟨fun m hm => ?_, fun m hm => ?_⟩
      · rw [List.mem_cons, not_or] at hm
        rw [hkeep m hm.2, hothers m hm.1]
      · rcases List.mem_cons.1 hm with rfl | hmem
        · rw [hkeep m hnotin]
          exact hself
        · have hne : m ≠ n := by
            rintro rfl
            exact hnotin hmem
          rw [← hothers m hne]
          exact hall m hmem

lemma mem_listed {db : Database σ} :
    n ∈ db.listed c ↔ ∃ i, db.indexes.lookup n = some i ∧ i.info.collection = c := by
  rw [Database.listed, mem_ascending, Finset.mem_filter, Finmap.mem_keys, ← Finmap.lookup_isSome]
  cases hi : db.indexes.lookup n with
  | none => simp
  | some i => simp

lemma nodup_listed (db : Database σ) (c : ℕ) : (db.listed c).Nodup := Scan.take_nodup _ _ _

/-- The row that changes has a number. -/
lemma positive_of_changes {db db' : Engine.Database} {ch : Change} (hg : Good db) (hg' : Good db')
    (h : Changes db db' ch) : ch.id.sequence ≠ 0 := by
  obtain ⟨row, heffect, hrow⟩ := h.effect
  rcases h.real with hold | hnew
  · rw [← h.old, Store.document, Option.isSome_map] at hold
    obtain ⟨r, hr⟩ := Option.isSome_iff_exists.1 hold
    exact (hg.rows _ r hr).ne'
  · obtain ⟨p, hp⟩ := Option.isSome_iff_exists.1 hnew
    rw [hp, Option.map_some] at hrow
    obtain ⟨r, rfl, -⟩ := Option.map_eq_some_iff.1 hrow
    have hlook := heffect.written.rows ch.id
    rw [if_pos rfl] at hlook
    exact (hg'.rows ch.id r hlook).ne'

/-- **A row changes, and the indexes of its table follow.** -/
lemma Indexed.followed {db : Database σ} {tables : Engine.Database} {ch : Change}
    (h : Indexed S db.tables.store db.indexes) (hh : db.tables.host = host)
    (hg : Good db.tables) (hg' : Good tables) (hch : Changes db.tables.written tables ch)
    (hfine : ∀ n i, db.indexes.lookup n = some i → i.info.collection = ch.id.collection →
      i.info.state ≠ .dropping →
      S.Fine i.info i.data ch.id.sequence ch.old (ch.new.map Prod.snd))
    (hok : Database.follow F ch.id.sequence ch.old ch.new db.indexes (db.listed ch.id.collection)
      = .ok indexes') : Indexed S tables.store indexes' := by
  obtain ⟨hkeep, hall⟩ := follow_ok (nodup_listed db _) hok
  obtain ⟨row, heffect, hrow⟩ := hch.effect
  have hpos := positive_of_changes hg.written.good hg' hch
  have hcat : tables.store.catalogs = db.tables.store.catalogs := heffect.written.catalogs
  have hnext : tables.store.nextCollection = db.tables.store.nextCollection :=
    heffect.written.nextCollection
  have hstand : ∀ c, Standing tables.store c → Standing db.tables.store c := by
    rintro c ⟨k, hk, hd⟩
    exact ⟨k, hcat ▸ hk, hd⟩
  have hdoc : ∀ c m, tables.store.document c m
      = if (⟨c, m⟩ : EntityId) = ch.id then ch.new.map Prod.snd else db.tables.store.document c m := by
    intro c m
    rw [heffect.written.document, hrow]
    rfl
  have hother : ∀ c, c ≠ ch.id.collection →
      tables.store.document c = db.tables.store.document c := by
    intro c hc
    funext m
    rw [hdoc, if_neg]
    rintro heq
    exact hc (congrArg EntityId.collection heq)
  have hsame : tables.store.document ch.id.collection
      = Function.update (db.tables.store.document ch.id.collection) ch.id.sequence
          (ch.new.map Prod.snd) := by
    funext m
    rw [hdoc, Function.update_apply]
    have hiff : ((⟨ch.id.collection, m⟩ : EntityId) = ch.id) ↔ m = ch.id.sequence := by
      obtain ⟨⟨c, s⟩, old, new⟩ := ch
      simp
    simp only [hiff]
  -- what an index was before
  have hbefore : ∀ n i', indexes'.lookup n = some i' →
      (db.indexes.lookup n = some i' ∧ i'.info.collection ≠ ch.id.collection)
      ∨ ∃ i, db.indexes.lookup n = some i ∧ i.info.collection = ch.id.collection
        ∧ (i.info.state = .dropping ∧ i' = i
          ∨ i.info.state ≠ .dropping ∧ ∃ data,
            F.maintain i.info i.data ch.id.sequence ch.old ch.new = .ok data
            ∧ i' = { i with data, reached := Insert.insert ch.id.sequence i.reached }) := by
    intro n i' hi'
    by_cases hmem : n ∈ db.listed ch.id.collection
    · obtain ⟨i, hi, hc⟩ := mem_listed.1 hmem
      refine Or.inr ⟨i, hi, hc, ?_⟩
      rcases (hall n hmem).2 i hi with ⟨hd, hi₂⟩ | ⟨hd, data, hdata, hi₂⟩
      · exact Or.inl ⟨hd, Option.some.inj (hi'.symm.trans hi₂)⟩
      · exact Or.inr ⟨hd, data, hdata, Option.some.inj (hi'.symm.trans hi₂)⟩
    · rw [hkeep n hmem] at hi'
      refine Or.inl ⟨hi', fun hc => hmem (mem_listed.2 ⟨i', hi', hc⟩)⟩
  refine ⟨fun n i' hi' => ?_, fun n i' hi' => ?_, fun n i' hi' hnd hs => ?_, fun n i' hi' hs m hm hrow' => ?_⟩
  · rw [hnext]
    rcases hbefore n i' hi' with ⟨hi, -⟩ | ⟨i, hi, -, ⟨-, rfl⟩ | ⟨-, data, -, rfl⟩⟩
    · exact h.table n i' hi
    · exact h.table n i' hi
    · exact h.table n i hi
  · rw [hcat]
    rcases hbefore n i' hi' with ⟨hi, -⟩ | ⟨i, hi, -, ⟨-, rfl⟩ | ⟨-, data, -, rfl⟩⟩
    · exact h.field n i' hi
    · exact h.field n i' hi
    · exact h.field n i hi
  · rcases hbefore n i' hi' with ⟨hi, hc⟩ | ⟨i, hi, hc, ⟨hd, rfl⟩ | ⟨hd, data, hdata, rfl⟩⟩
    · rw [hother _ hc]
      exact h.right n i' hi hnd (hstand _ hs)
    · exact absurd hd hnd
    · have hright := h.right n i hi hd (hstand _ hs)
      dsimp only
      rw [hc] at hright ⊢
      rw [hsame]
      refine S.maintain (h.field n i hi).1 hright hch.old hpos hch.real (fun given stored hnew => ?_)
        (hfine n i hi hc hd) hdata
      obtain ⟨k, hk, henc⟩ := hch.encoded given stored hnew
      have hfield := (h.field n i hi).2 k (by rw [hc]; exact hk)
      have hcatalogued := hg.consistent.sound.catalogued
      rw [← hh]
      exact encodeDense_of_mem henc (hcatalogued.fields _ k hk) hfield
  · rcases hbefore n i' hi' with ⟨hi, hc⟩ | ⟨i, hi, hc, ⟨hd, rfl⟩ | ⟨hd, data, -, rfl⟩⟩
    · rw [hother _ hc] at hrow'
      exact h.covered n i' hi (hstand _ hs) m hm hrow'
    · rw [hd] at hm
      exact hm.elim
    · dsimp only at hrow' hm hs ⊢
      rw [Finset.mem_insert]
      by_cases hms : m = ch.id.sequence
      · exact Or.inl hms
      · refine Or.inr (h.covered n i hi (hstand _ hs) m hm ?_)
        rw [hc] at hrow' ⊢
        rw [hsame, Function.update_of_ne hms] at hrow'
        exact hrow'

/-! ## Builds -/

lemma buildRows_ok {data data' : σ} {taken : List ℕ} {reached : Finset ℕ} {built : ℕ → Prop}
    (hfield : F.accepts i.info.kind = true)
    (hpos : ∀ m, (x.document i.info.collection m).isSome → m ≠ 0)
    (hright : S.Right i.info (x.document i.info.collection) reached built data)
    (hok : Database.buildRows F x i data taken = .ok data') :
    S.Right i.info (x.document i.info.collection) (reached ∪ taken.toFinset)
      (fun n => n ∈ taken ∨ built n) data' := by
  induction taken generalizing data reached built with
  | nil =>
      cases hok
      simpa using hright
  | cons seq rest ih =>
      simp only [Database.buildRows, bind_eq_ok, orElse_eq_ok] at hok
      obtain ⟨row, hrow, data₁, hbuild, hrest⟩ := hok
      have hdoc : x.document i.info.collection seq = some row.document := by
        rw [Store.document, hrow]; rfl
      have hstep := S.build hfield hright hdoc (hpos seq (by rw [hdoc]; rfl)) hbuild
      have hunion : reached ∪ (seq :: rest).toFinset
          = Insert.insert seq reached ∪ rest.toFinset := by
        ext m
        simp
      have hbuilt : (fun n => n ∈ seq :: rest ∨ built n) = fun n => n ∈ rest ∨ n = seq ∨ built n := by
        funext n
        rw [List.mem_cons, or_assoc, or_left_comm]
      rw [hunion, hbuilt]
      exact ih hstep hrest

/-- **A build step keeps the indexes right**, and has come past the rows up to its new cursor. -/
lemma Indexed.built {db db' : Database σ} {id batch : ℕ} {ended : Bool} (hg : Good db.tables)
    (h : Indexed S db.tables.store db.indexes)
    (hok : db.buildIndexStep F id batch = .ok (ended, db')) :
    (db'.tables = db.tables ∨ db'.tables = db.tables.indexDescriptorsChanged)
      ∧ db'.durable = db.durable ∧ Indexed S db.tables.store db'.indexes := by
  simp only [Database.buildIndexStep, bind_eq_ok, orElse_eq_ok] at hok
  obtain ⟨_, -, _, -, i, hi, hok⟩ := hok
  cases hs : i.info.state with
  | ready =>
      simp only [hs, pure_eq_ok, Prod.mk.injEq] at hok
      obtain ⟨-, rfl⟩ := hok
      exact ⟨Or.inl rfl, rfl, h⟩
  | dropping => simp [hs] at hok
  | building after =>
      simp only [hs, bind_eq_ok, pure_eq_ok, Prod.mk.injEq] at hok
      obtain ⟨data, hdata, rfl, rfl⟩ := hok
      refine ⟨Or.inr rfl, rfl, ?_⟩
      have hne : i.info.state ≠ .dropping := by rw [hs]; simp
      have hpos : ∀ m, (db.tables.store.document i.info.collection m).isSome → m ≠ 0 := by
        intro m hm
        rw [Store.document, Option.isSome_map] at hm
        obtain ⟨r, hr⟩ := Option.isSome_iff_exists.1 hm
        exact (hg.rows _ r hr).ne'
      refine h.insert (h.table id i hi) (h.field id i hi) (fun _ hst => S.restate _ ?_
        (buildRows_ok (h.field id i hi).1 hpos (h.right id i hi hne hst) hdata)) ?_
      · intro m hrow hm
        rcases batch_covers (mem_live.2 hrow) hm with hle | hmem
        · exact Or.inr (by rw [hs]; exact hle)
        · exact Or.inl hmem
      · intro hst m hm hrow
        dsimp only at hm ⊢
        rw [Finset.mem_union, List.mem_toFinset]
        rcases batch_covers (mem_live.2 hrow) hm with hle | hmem
        · exact Or.inl (h.covered id i hi hst m (by rw [hs]; exact hle) hrow)
        · exact Or.inr hmem

end

end Families

end Engine
