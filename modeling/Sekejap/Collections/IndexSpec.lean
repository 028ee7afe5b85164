import Sekejap.Collections.Lifecycle
import Sekejap.Lib.Secondary

/-!
# What index writes do

The root page of an index's tree moves as its entries come and go, and its descriptor moves with it.
`Store.view` is what does not depend on where a tree is rooted: the descriptor without its root, and
the entries reached through it.  Every index write is described by what it does to the view.

* **`Rewritten`** — one index was written: its entries are what the write made of them, its
  descriptor is saved, and no other index is touched.
* **`maintainIndexes_spec`** — after a row write every index of the table follows the row, and the
  list of descriptors the handle keeps is still the one in the file.
-/

open Collections (EntityId)

open Fallible

namespace Engine

/-- A descriptor without the root page of its tree. -/
def IndexInfo.bare (i : IndexInfo) : IndexInfo :=
  { i with tree := i.tree.map fun t => { t with root := 0 } }

/-- What an index is and what it holds. -/
structure View where
  info : IndexInfo
  entries : Finset Entry

def Store.view (x : Store) (n : ℕ) : Option View :=
  (x.indexes n).map fun i => ⟨i.bare, x.entriesOf i⟩

/-- The keys an index files rows under. -/
def filed (n : ℕ) (E : Finset Entry) : Set (ScalarKey × ℕ) := {p | ⟨n, p.1, p.2⟩ ∈ E}

/-- The key of a document, if it has one. -/
def IndexInfo.key (i : IndexInfo) (host : Host) (doc : Document) : Option ScalarKey :=
  (i.derive host doc).toOption

/-- **Every index has a number, a tree and entries of its own.** -/
structure Owned (x : Store) : Prop where
  id : ∀ n v, x.view n = some v → v.info.id = n ∧ n < x.nextIndex
  tree : ∀ n v t, x.view n = some v → v.info.tree = some t → t.id = n + 1
  entry : ∀ n v e, x.view n = some v → e ∈ v.entries → e.index = n
  /-- nothing is filed under a number that has not been given out -/
  shared : ∀ e ∈ x.entries, e.index < x.nextIndex

/-- The descriptors a handle keeps are those of the file. -/
def CacheOk (db : Database) : Prop :=
  ∀ c l, db.indexListCache = some (c, db.indexListGeneration, l) → l = db.listIndexesAny c

/-- Everything but the indexes is as it was. -/
def SameButIndexes (db db' : Database) : Prop :=
  db' = { db with
    indexListCache := db'.indexListCache
    indexListGeneration := db'.indexListGeneration
    store := { db.store with
      indexes := db'.store.indexes
      entries := db'.store.entries
      trees := db'.store.trees } }

section

variable {db db' db₁ : Database} {x : Store} {o : Call} {i j i' i₁ : IndexInfo} {e : Entry}
  {E E' : Finset Entry} {n c seq : ℕ} {v : View} {a b : Option ScalarKey}
  {old new : Option Document} {l l' : List IndexInfo}

lemma SameButIndexes.refl (db : Database) : SameButIndexes db db := rfl

lemma SameButIndexes.trans (h : SameButIndexes db db₁) (h' : SameButIndexes db₁ db') :
    SameButIndexes db db' := by
  rw [SameButIndexes] at h h' ⊢
  rw [h] at h'
  exact h'

@[simp] lemma bare_id (i : IndexInfo) : i.bare.id = i.id := rfl

@[simp] lemma bare_collection (i : IndexInfo) : i.bare.collection = i.collection := rfl

@[simp] lemma bare_state (i : IndexInfo) : i.bare.state = i.state := rfl

@[simp] lemma bare_unique (i : IndexInfo) : i.bare.unique = i.unique := rfl

@[simp] lemma bare_key (i : IndexInfo) (host : Host) : i.bare.key host = i.key host := rfl

lemma view_eq_some (h : x.indexes n = some i) : x.view n = some ⟨i.bare, x.entriesOf i⟩ := by
  rw [Store.view, h]; rfl

lemma exists_of_view (h : x.view n = some v) :
    ∃ i, x.indexes n = some i ∧ v = ⟨i.bare, x.entriesOf i⟩ := by
  obtain ⟨i, hi, rfl⟩ := Option.map_eq_some_iff.1 h
  exact ⟨i, hi, rfl⟩

lemma entriesOf_congr {y : Store} (hE : x.entries = y.entries) (ht : x.trees = y.trees)
    (i : IndexInfo) : x.entriesOf i = y.entriesOf i := by
  simp only [Store.entriesOf, hE, ht]

lemma view_congr {y : Store} (hi : x.indexes = y.indexes) (hE : x.entries = y.entries)
    (ht : x.trees = y.trees) : x.view = y.view := by
  funext n
  simp only [Store.view, hi, entriesOf_congr hE ht]

lemma Owned.congr {y : Store} (h : Owned x) (hv : y.view = x.view) (hn : y.nextIndex = x.nextIndex)
    (hE : y.entries = x.entries) : Owned y := by
  refine ⟨?_, ?_, ?_, ?_⟩
  · rw [hv, hn]; exact h.id
  · rw [hv]; exact h.tree
  · rw [hv]; exact h.entry
  · rw [hE, hn]; exact h.shared

lemma Owned.id_eq (h : Owned x) (hi : x.indexes n = some i) : i.id = n :=
  (h.id n _ (view_eq_some hi)).1

lemma Owned.tree_eq (h : Owned x) (hi : x.indexes n = some i) {t : IndexTree}
    (ht : i.tree = some t) : t.id = n + 1 := by
  refine h.tree n _ { t with root := 0 } (view_eq_some hi) ?_
  simp [IndexInfo.bare, ht]

/-- **One index was written.** -/
structure Rewritten (db db' : Database) (i i' : IndexInfo) (E : Finset Entry) : Prop where
  frame : SameButIndexes db db'
  bare : i'.bare = i.bare
  saved : db'.store.indexes i.id = some i'
  others : ∀ n, n ≠ i.id → db'.store.indexes n = db.store.indexes n
  view : db'.store.view = Function.update db.store.view i.id (some ⟨i.bare, E⟩)
  shared : ∀ e ∈ db'.store.entries, e ∈ db.store.entries ∨ e.index = i.id
  cache : db'.indexListCache = none
    ∨ db'.indexListGeneration = db.indexListGeneration ∧ db'.indexListCache = db.indexListCache
  generation : db.indexListGeneration ≤ db'.indexListGeneration
  still : db'.indexListGeneration = db.indexListGeneration →
    i' = i ∧ db'.store.indexes = db.store.indexes

lemma Rewritten.cache_none (h : Rewritten db db' i i' E) (hc : db.indexListCache = none) :
    db'.indexListCache = none := by
  rcases h.cache with hn | ⟨-, heq⟩
  · exact hn
  · exact heq.trans hc

/-- The list the handle keeps is still the one of the file. -/
lemma Rewritten.cacheOk (h : Rewritten db db' i i' E) (hc : CacheOk db) : CacheOk db' := by
  intro c l hl
  rcases h.cache with hn | ⟨hg, heq⟩
  · rw [hn] at hl
    cases hl
  · rw [heq, hg] at hl
    have hnext : db'.store.nextIndex = db.store.nextIndex := by rw [h.frame]
    rw [hc c l hl]
    simp only [Database.listIndexesAny, (h.still hg).2, hnext]

lemma Rewritten.id (h : Rewritten db db' i i' E) : i'.id = i.id := by
  have := congrArg IndexInfo.id h.bare
  simpa using this

lemma Rewritten.trans (h : Rewritten db db₁ i i₁ E) (h' : Rewritten db₁ db' i₁ i' E') :
    Rewritten db db' i i' E' := by
  have hid := h.id
  refine ⟨h.frame.trans h'.frame, h'.bare.trans h.bare, hid ▸ h'.saved, fun n hn => ?_, ?_,
    fun e he => ?_, ?_, h.generation.trans h'.generation, fun hg => ?_⟩
  · rw [h'.others n (by rw [hid]; exact hn), h.others n hn]
  · rw [h'.view, h.view, hid, h.bare, Function.update_idem]
  · rcases h'.shared e he with he | he
    · exact h.shared e he
    · exact Or.inr (he.trans hid)
  · rcases h'.cache with hn | ⟨hg', heq'⟩
    · exact Or.inl hn
    · rcases h.cache with hn | ⟨hg, heq⟩
      · exact Or.inl (heq'.trans hn)
      · exact Or.inr ⟨hg'.trans hg, heq'.trans heq⟩
  · have hg₁ : db₁.indexListGeneration = db.indexListGeneration :=
      le_antisymm (hg ▸ h'.generation) h.generation
    obtain ⟨rfl, hs⟩ := h.still hg₁
    obtain ⟨hi, hs'⟩ := h'.still (hg.trans hg₁.symm)
    exact ⟨hi, hs'.trans hs⟩

/-- Nothing was written. -/
lemma Rewritten.refl (hi : db.store.indexes i.id = some i) :
    Rewritten db db i i (db.store.entriesOf i) := by
  refine ⟨.refl db, rfl, hi, fun _ _ => rfl, ?_, fun _ he => Or.inl he, Or.inr ⟨rfl, rfl⟩, le_rfl,
    fun _ => ⟨rfl, rfl⟩⟩
  rw [← view_eq_some hi, Function.update_eq_self]

lemma Rewritten.entriesOf_eq (h : Rewritten db db' i i' E) : db'.store.entriesOf i' = E := by
  have hv := congrFun h.view i.id
  rw [Function.update_self, view_eq_some h.saved] at hv
  exact congrArg View.entries (Option.some.inj hv)

/-- One index is written, and keeps its number and its tree. -/
lemma Owned.update {x' : Store} {w : View} (ho : Owned x) (hw : x.view n = some w)
    (hview : x'.view = Function.update x.view n (some v)) (hid : v.info.id = w.info.id)
    (htree : v.info.tree = w.info.tree) (hE : ∀ e ∈ v.entries, e.index = n)
    (hnext : x'.nextIndex = x.nextIndex)
    (hshared : ∀ e ∈ x'.entries, e ∈ x.entries ∨ e.index = n) : Owned x' := by
  have hcase : ∀ m u, x'.view m = some u → (m = n ∧ u = v) ∨ x.view m = some u := by
    intro m u hu
    rw [hview] at hu
    by_cases hm : m = n
    · subst hm
      rw [Function.update_self] at hu
      exact Or.inl ⟨rfl, (Option.some.inj hu).symm⟩
    · rw [Function.update_of_ne hm] at hu
      exact Or.inr hu
  constructor
  · intro m u hu
    rw [hnext]
    rcases hcase m u hu with ⟨rfl, rfl⟩ | hu
    · rw [hid]
      exact ho.id _ _ hw
    · exact ho.id m u hu
  · intro m u t hu ht
    rcases hcase m u hu with ⟨rfl, rfl⟩ | hu
    · exact ho.tree _ _ t hw (htree ▸ ht)
    · exact ho.tree m u t hu ht
  · intro m u e hu he
    rcases hcase m u hu with ⟨rfl, rfl⟩ | hu
    · exact hE e he
    · exact ho.entry m u e hu he
  · intro e he
    rw [hnext]
    rcases hshared e he with he | he
    · exact ho.shared e he
    · rw [he]
      exact (ho.id _ _ hw).2

lemma Rewritten.owned (h : Rewritten db db' i i' E) (ho : Owned db.store)
    (hi : db.store.indexes i.id = some i) (hE : ∀ e ∈ E, e.index = i.id) : Owned db'.store :=
  ho.update (view_eq_some hi) h.view rfl rfl hE (by rw [h.frame]) h.shared

/-! ## One entry -/

/-- The entries of an index, with one more or one fewer. -/
def change (put : Bool) (e : Entry) (E : Finset Entry) : Finset Entry :=
  if put then insert e E else E.erase e

lemma change_mem (put : Bool) (he : e.index = n) (hE : ∀ e ∈ E, e.index = n) :
    ∀ f ∈ change put e E, f.index = n := by
  intro f hf
  cases put with
  | true =>
      rcases Finset.mem_insert.1 hf with rfl | hf
      · exact he
      · exact hE f hf
  | false => exact hE f (Finset.mem_of_mem_erase hf)

/-- The entries of the primary tree belong to one index each. -/
lemma filter_change (put : Bool) (he : e.index = n) (E : Finset Entry) (m : ℕ) :
    (change put e E).filter (fun f => f.index = m)
      = if m = n then change put e (E.filter fun f => f.index = m) else E.filter fun f => f.index = m := by
  ext f
  cases put with
  | true =>
      split_ifs with hm
      · simp only [change, if_true, Finset.mem_filter, Finset.mem_insert]
        constructor
        · rintro ⟨rfl | hf, h⟩
          · exact Or.inl rfl
          · exact Or.inr ⟨hf, h⟩
        · rintro (rfl | ⟨hf, h⟩)
          · exact ⟨Or.inl rfl, he.trans hm.symm⟩
          · exact ⟨Or.inr hf, h⟩
      · simp only [change, if_true, Finset.mem_filter, Finset.mem_insert]
        constructor
        · rintro ⟨rfl | hf, h⟩
          · exact absurd (h.symm.trans he) hm
          · exact ⟨hf, h⟩
        · rintro ⟨hf, h⟩
          exact ⟨Or.inr hf, h⟩
  | false =>
      simp only [change, Bool.false_eq_true, if_false, Finset.mem_filter, Finset.mem_erase]
      split_ifs with hm
      · simp only [Finset.mem_erase, Finset.mem_filter]
        tauto
      · simp only [Finset.mem_filter]
        constructor
        · rintro ⟨⟨-, hf⟩, h⟩
          exact ⟨hf, h⟩
        · rintro ⟨hf, h⟩
          refine ⟨⟨?_, hf⟩, h⟩
          rintro rfl
          exact hm (h.symm.trans he)

/-- The entries an index would have if its tree were rooted elsewhere do not matter to the others. -/
lemma entriesOf_setTree {t : IndexTree} {root : ℕ} (hj : ∀ u, j.tree = some u → u.id ≠ t.id) :
    (db.setTree t root E).store.entriesOf j = db.store.entriesOf j := by
  cases hu : j.tree with
  | none => simp only [Store.entriesOf, hu]; rfl
  | some u =>
      simp only [Store.entriesOf, hu, Database.setTree, Database.setStore]
      rw [Function.update_of_ne (hj u hu)]

lemma entriesOf_setTree_self {t : IndexTree} {root : ℕ} (ht : i.tree = some { t with root })
    (hr : root ≠ 0) : (db.setTree t root E).store.entriesOf i = E := by
  simp only [Store.entriesOf, ht, Database.setTree, Database.setStore, Function.update_self, hr,
    if_false]

/-- **An entry is put or deleted.** -/
lemma indexWrite_spec (ho : Owned db.store) (hi : db.store.indexes i.id = some i) {put : Bool}
    (he : e.index = i.id) :
    Rewritten db (db.indexWrite o put i e).2 i (db.indexWrite o put i e).1
      (change put e (db.store.entriesOf i)) := by
  cases ht : i.tree with
  | none =>
      have hw : db.indexWrite o put i e
          = (i, db.setStore fun x => { x with entries := change put e x.entries }) := by
        simp only [Database.indexWrite, ht]; rfl
      rw [hw]
      refine ⟨rfl, rfl, hi, fun _ _ => rfl, ?_, fun f hf => ?_, Or.inr ⟨rfl, rfl⟩, le_rfl,
        fun _ => ⟨rfl, rfl⟩⟩
      rotate_left
      · cases put with
        | true => exact (Finset.mem_insert.1 hf).symm.imp_right fun h => by rw [h, he]
        | false => exact Or.inl (Finset.mem_of_mem_erase hf)
      funext m
      by_cases hm : m = i.id
      · subst hm
        rw [Function.update_self, view_eq_some (x := (db.setStore fun x =>
          { x with entries := change put e x.entries }).store) hi]
        simp only [Store.entriesOf, ht, Database.setStore]
        rw [filter_change put he, if_pos rfl]
      · rw [Function.update_of_ne hm]
        simp only [Store.view, Database.setStore]
        cases hj : db.store.indexes m with
        | none => rfl
        | some j =>
            have hid : j.id = m := ho.id_eq hj
            simp only [Option.map_some, Option.some.injEq, View.mk.injEq, true_and]
            cases hu : j.tree with
            | some u => simp only [Store.entriesOf, hu]
            | none =>
                simp only [Store.entriesOf, hu]
                rw [filter_change put he, if_neg (by rw [hid]; exact hm)]
  | some t =>
      obtain ⟨root, hroot⟩ : ∃ root : ℕ, root = (o.root put e t.root : ℕ) := ⟨_, rfl⟩
      have hpos : root ≠ 0 := hroot ▸ (o.root put e t.root).pos.ne'
      have htid : t.id = i.id + 1 := ho.tree_eq hi ht
      have hother : ∀ m j, m ≠ i.id → db.store.indexes m = some j → ∀ u, j.tree = some u →
          u.id ≠ t.id := by
        intro m j hm hj u hu heq
        have := ho.tree_eq hj hu
        omega
      have hview : ∀ (d : Database) (i' : IndexInfo),
          d.store.trees = (db.setTree t root (change put e (db.store.entriesOf i))).store.trees →
          d.store.entries
            = (db.setTree t root (change put e (db.store.entriesOf i))).store.entries →
          d.store.indexes = Function.update db.store.indexes i.id (some i') →
          i'.bare = i.bare → i'.tree = some { t with root } →
          d.store.view = Function.update db.store.view i.id
            (some ⟨i.bare, change put e (db.store.entriesOf i)⟩) := by
        intro d i' htrees hent hidx hbare htree
        funext m
        by_cases hm : m = i.id
        · subst hm
          rw [Function.update_self, view_eq_some (by rw [hidx, Function.update_self]), hbare,
            entriesOf_congr hent htrees, entriesOf_setTree_self htree hpos]
        · rw [Function.update_of_ne hm]
          simp only [Store.view, hidx, Function.update_of_ne hm]
          cases hj : db.store.indexes m with
          | none => rfl
          | some j =>
              simp only [Option.map_some, Option.some.injEq, View.mk.injEq, true_and]
              rw [entriesOf_congr hent htrees, entriesOf_setTree (hother m j hm hj)]
      by_cases hr : root = t.root
      · have hw : db.indexWrite o put i e
            = (i, db.setTree t root (change put e (db.store.entriesOf i))) := by
          simp only [Database.indexWrite, ht, ← hroot]
          rw [if_pos hr]
          rfl
        rw [hw]
        refine ⟨rfl, rfl, hi, fun _ _ => rfl, ?_, fun _ hf => Or.inl hf, Or.inr ⟨rfl, rfl⟩, le_rfl,
          fun _ => ⟨rfl, rfl⟩⟩
        refine hview _ i rfl rfl ?_ rfl (by rw [ht, hr])
        rw [← hi, Function.update_eq_self]
        rfl
      · set i' : IndexInfo := { i with tree := some { t with root } } with hi'
        have hw : db.indexWrite o put i e
            = (i', (db.setTree t root (change put e (db.store.entriesOf i))).saveIndex i') := by
          simp only [Database.indexWrite, ht, ← hroot]
          rw [if_neg hr]
          rfl
        have hbare : i'.bare = i.bare := by simp [IndexInfo.bare, hi', ht]
        rw [hw]
        refine ⟨rfl, hbare, Function.update_self .., fun n hn => Function.update_of_ne hn _ _, ?_,
          fun _ hf => Or.inl hf, Or.inl rfl, Nat.le_succ _, fun hg => absurd hg (Nat.succ_ne_self _)⟩
        exact hview _ i' rfl rfl rfl hbare rfl

lemma indexPut_spec (ho : Owned db.store) (hi : db.store.indexes i.id = some i) (he : e.index = i.id) :
    Rewritten db (db.indexPut o i e).2 i (db.indexPut o i e).1 (change true e (db.store.entriesOf i)) :=
  indexWrite_spec ho hi he

lemma indexDelete_spec (ho : Owned db.store) (hi : db.store.indexes i.id = some i)
    (he : e.index = i.id) :
    Rewritten db (db.indexDelete o i e).2 i (db.indexDelete o i e).1
      (change false e (db.store.entriesOf i)) := by
  by_cases hroot : (i.tree.any fun t => t.root = 0) = true
  · have hE : change false e (db.store.entriesOf i) = db.store.entriesOf i := by
      cases ht : i.tree with
      | none => simp [ht] at hroot
      | some t =>
          have h0 : t.root = 0 := by simpa [ht] using hroot
          simp [change, Store.entriesOf, ht, h0]
    rw [hE, Database.indexDelete, if_pos hroot]
    exact Rewritten.refl hi
  · rw [Database.indexDelete, if_neg hroot]
    exact indexWrite_spec ho hi he

/-! ## One index follows a row -/

lemma filed_put (n : ℕ) (w : ScalarKey) (seq : ℕ) (E : Finset Entry) :
    filed n (change true ⟨n, w, seq⟩ E) = insert (w, seq) (filed n E) := by
  ext ⟨k, m⟩
  simp [filed, change]

lemma mem_filed_delete {w k : ScalarKey} {m : ℕ} :
    (k, m) ∈ filed n (change false ⟨n, w, seq⟩ E) ↔ (k, m) ∈ filed n E ∧ ¬ (m = seq ∧ w = k) := by
  simp only [filed, change, Bool.false_eq_true, if_false, Set.mem_ofPred_eq, Finset.mem_erase, ne_eq,
    Entry.mk.injEq, true_and]
  constructor
  · rintro ⟨hne, hE⟩
    exact ⟨hE, fun hand => hne ⟨hand.2.symm, hand.1⟩⟩
  · rintro ⟨hE, hne⟩
    exact ⟨fun hand => hne ⟨hand.2, hand.1.symm⟩, hE⟩

/-- **The old entry of a row goes and the new one comes.** -/
lemma replaceEntry_spec (ho : Owned db.store) (hi : db.store.indexes i.id = some i) (o : Call)
    (seq : ℕ) (a b : Option ScalarKey) :
    ∃ E, Rewritten db (db.replaceEntry o i seq a b).2 i (db.replaceEntry o i seq a b).1 E
      ∧ (∀ e ∈ E, e.index = i.id)
      ∧ filed i.id E = Secondary.swap (filed i.id (db.store.entriesOf i)) seq a b := by
  have hown : ∀ e ∈ db.store.entriesOf i, e.index = i.id := fun e he =>
    ho.entry _ _ e (view_eq_some hi) he
  -- the deletion, if there is an old entry
  obtain ⟨E₁, hw₁, hown₁, hE₁⟩ : ∃ E₁,
      Rewritten db (db.deleteKey o i seq a).2 i (db.deleteKey o i seq a).1 E₁
      ∧ (∀ e ∈ E₁, e.index = i.id)
      ∧ ∀ k m, (k, m) ∈ filed i.id E₁ ↔
        (k, m) ∈ filed i.id (db.store.entriesOf i) ∧ ¬ (m = seq ∧ a = some k) := by
    cases a with
    | none => exact ⟨_, Rewritten.refl hi, hown, fun k m => by simp⟩
    | some w =>
        refine ⟨_, indexDelete_spec ho hi rfl, change_mem false rfl hown, fun k m => ?_⟩
        rw [mem_filed_delete, Option.some.injEq]
  rw [Database.replaceEntry]
  generalize db.deleteKey o i seq a = d at hw₁ ⊢
  obtain ⟨i₁, db₁⟩ := d
  have hid : i₁.id = i.id := hw₁.id
  have hE : db₁.store.entriesOf i₁ = E₁ := hw₁.entriesOf_eq
  cases b with
  | none =>
      refine ⟨E₁, hw₁, hown₁, ?_⟩
      ext ⟨k, m⟩
      rw [hE₁, Secondary.mem_swap]
      simp
  | some w =>
      have hput := indexPut_spec (o := o) (e := ⟨i₁.id, w, seq⟩) (hw₁.owned ho hi hown₁)
        (hid ▸ hw₁.saved) rfl
      rw [hE] at hput
      refine ⟨_, hw₁.trans hput, change_mem true hid hown₁, ?_⟩
      ext ⟨k, m⟩
      rw [hid, filed_put, Secondary.mem_swap, ← hE₁]
      simp only [Set.mem_insert_iff, Prod.mk.injEq, Option.some.injEq]
      tauto

/-- **An index follows a row**: its entries, before and after. -/
inductive Follows (host : Host) (seq : ℕ) (old new : Option Document) (v : View) :
    Finset Entry → Prop
  | dropping (h : v.info.state = .dropping) : Follows host seq old new v v.entries
  /-- the key did not change -/
  | same (h : v.info.state ≠ .dropping) (hnew : ∀ d, new = some d → (v.info.key host d).isSome)
      (hk : old.bind (v.info.key host) = new.bind (v.info.key host)) :
      Follows host seq old new v v.entries
  /-- the new key is one no other row has -/
  | moved {E : Finset Entry} (h : v.info.state ≠ .dropping)
      (hnew : ∀ d, new = some d → (v.info.key host d).isSome)
      (hcheck : v.info.unique = true → ∀ w, new.bind (v.info.key host) = some w → w ≠ .null →
        ∀ m, (w, m) ∈ filed v.info.id v.entries → m = seq)
      (hE : filed v.info.id E = Secondary.swap (filed v.info.id v.entries) seq
        (old.bind (v.info.key host)) (new.bind (v.info.key host))) :
      Follows host seq old new v E

lemma deriveOption_ok (h : db.deriveOption i old = .ok a) :
    a = old.bind (i.key db.host) ∧ ∀ d, old = some d → (i.key db.host d).isSome := by
  cases old with
  | none =>
      cases h
      exact ⟨rfl, fun d hd => by cases hd⟩
  | some d =>
      simp only [Database.deriveOption, bind_eq_ok, pure_eq_ok] at h
      obtain ⟨w, hw, rfl⟩ := h
      have hk : i.key db.host d = some w := by rw [IndexInfo.key, hw]; rfl
      refine ⟨by rw [Option.bind_some, hk], ?_⟩
      rintro _ ⟨⟩
      rw [hk]; rfl

lemma checkUnique_ok {w : ScalarKey} (h : db.checkUnique i w seq = .ok ()) (hu : i.unique = true)
    (hw : w ≠ .null) : ∀ m, (w, m) ∈ filed i.id (db.store.entriesOf i) → m = seq := by
  rw [Database.checkUnique, if_pos ⟨hu, hw⟩, refuse_eq_ok] at h
  intro m hm
  by_contra hne
  exact h ⟨⟨i.id, w, m⟩, hm, rfl, rfl, hne⟩

/-- **One index follows one row.** -/
lemma maintainIndex_spec (ho : Owned db.store) (hi : db.store.indexes i.id = some i)
    (h : db.maintainIndex o i seq old new = .ok (i', db')) :
    ∃ E, Rewritten db db' i i' E ∧ (∀ e ∈ E, e.index = i.id)
      ∧ Follows db.host seq old new ⟨i.bare, db.store.entriesOf i⟩ E := by
  have hown : ∀ e ∈ db.store.entriesOf i, e.index = i.id := fun e he =>
    ho.entry _ _ e (view_eq_some hi) he
  rw [Database.maintainIndex] at h
  by_cases hs : i.state = .dropping
  · rw [if_pos hs, pure_eq_ok] at h
    cases h
    exact ⟨_, Rewritten.refl hi, hown, .dropping hs⟩
  · rw [if_neg hs] at h
    simp only [bind_eq_ok, mapError_eq_ok] at h
    obtain ⟨a, ha, b, hb, h⟩ := h
    obtain ⟨rfl, -⟩ := deriveOption_ok ha
    obtain ⟨rfl, hnew⟩ := deriveOption_ok hb
    by_cases hab : old.bind (i.key db.host) = new.bind (i.key db.host)
    · rw [if_pos hab, pure_eq_ok] at h
      cases h
      exact ⟨_, Rewritten.refl hi, hown, .same hs hnew hab⟩
    · rw [if_neg hab] at h
      obtain ⟨E, hw, hE, hfiled⟩ := replaceEntry_spec ho hi o seq (old.bind (i.key db.host))
        (new.bind (i.key db.host))
      have hres : db.replaceEntry o i seq (old.bind (i.key db.host)) (new.bind (i.key db.host))
          = (i', db') ∧ (i.unique = true → ∀ w, new.bind (i.key db.host) = some w → w ≠ .null →
            ∀ m, (w, m) ∈ filed i.id (db.store.entriesOf i) → m = seq) := by
        cases hw : new.bind (i.key db.host) with
        | none =>
            rw [hw] at h
            simp only [pure_eq_ok] at h
            exact ⟨h, fun _ w hw => by cases hw⟩
        | some w =>
            rw [hw] at h
            simp only [bind_eq_ok, pure_eq_ok] at h
            obtain ⟨_, hc, h⟩ := h
            refine ⟨h, ?_⟩
            rintro hu _ ⟨⟩ hnull
            exact checkUnique_ok hc hu hnull
      rw [hres.1] at hw
      exact ⟨E, hw, hE, .moved hs hnew hres.2 hfiled⟩

/-! ## Every index of a table follows a row -/

/-- The indexes of a list follow a row; a root that moved is known by the generation. -/
structure ListFollows (seq : ℕ) (old new : Option Document) (db db' : Database)
    (l l' : List IndexInfo) : Prop where
  frame : SameButIndexes db db'
  owned : Owned db'.store
  cache : db'.indexListCache = none
  generation : db.indexListGeneration ≤ db'.indexListGeneration
  still : db'.indexListGeneration = db.indexListGeneration →
    l' = l ∧ db'.store.indexes = db.store.indexes
  follows : ∀ i ∈ l, ∃ E, db'.store.view i.id = some ⟨i.bare, E⟩
    ∧ Follows db.host seq old new ⟨i.bare, db.store.entriesOf i⟩ E
  others : ∀ n, n ∉ l.map IndexInfo.id → db'.store.view n = db.store.view n

lemma maintainList_spec (ho : Owned db.store) (hc : db.indexListCache = none)
    (hn : (l.map IndexInfo.id).Nodup) (hl : ∀ i ∈ l, db.store.indexes i.id = some i)
    (h : db.maintainList o seq old new l = .ok (l', db')) :
    ListFollows seq old new db db' l l' := by
  induction l generalizing db l' with
  | nil =>
      cases h
      exact ⟨.refl _, ho, hc, le_rfl, fun _ => ⟨rfl, rfl⟩, fun i hi => by simp at hi, fun _ _ => rfl⟩
  | cons i l ih =>
      simp only [Database.maintainList, bind_eq_ok, pure_eq_ok, Prod.exists, Prod.mk.injEq] at h
      obtain ⟨i₁, db₁, h₁, l₁, db₂, h₂, rfl, rfl⟩ := h
      rw [List.map_cons, List.nodup_cons] at hn
      have hi := hl i (by simp)
      obtain ⟨E, hw, hE, hfollows⟩ := maintainIndex_spec ho hi h₁
      have hne : ∀ j ∈ l, j.id ≠ i.id := fun j hj heq => hn.1 (heq ▸ List.mem_map_of_mem hj)
      have htail : ∀ j ∈ l, db₁.store.indexes j.id = some j := fun j hj => by
        rw [hw.others j.id (hne j hj)]
        exact hl j (by simp [hj])
      have ht := ih (hw.owned ho hi hE) (hw.cache_none hc) hn.2 htail h₂
      have hhost : db₁.host = db.host := by rw [hw.frame]
      refine ⟨hw.frame.trans ht.frame, ht.owned, ht.cache, hw.generation.trans ht.generation,
        fun hg => ?_, fun j hj => ?_, fun n hnot => ?_⟩
      · have hg₁ : db₁.indexListGeneration = db.indexListGeneration :=
          le_antisymm (hg ▸ ht.generation) hw.generation
        obtain ⟨rfl, hs⟩ := hw.still hg₁
        obtain ⟨rfl, hs'⟩ := ht.still (hg.trans hg₁.symm)
        exact ⟨rfl, hs'.trans hs⟩
      · rcases List.mem_cons.1 hj with rfl | hj
        · refine ⟨E, ?_, hfollows⟩
          rw [ht.others _ hn.1, hw.view, Function.update_self]
        · obtain ⟨E', hE', hf⟩ := ht.follows j hj
          refine ⟨E', hE', ?_⟩
          -- the head's write left this index alone
          have hview := congrFun hw.view j.id
          rw [Function.update_of_ne (hne j hj), view_eq_some (htail j hj),
            view_eq_some (hl j (by simp [hj]))] at hview
          have hsame := congrArg View.entries (Option.some.inj hview)
          rw [hhost] at hf
          exact (show db₁.store.entriesOf j = db.store.entriesOf j from hsame) ▸ hf
      · rw [List.map_cons, List.mem_cons, not_or] at hnot
        rw [ht.others n hnot.2, hw.view, Function.update_of_ne hnot.1]

lemma mem_listIndexesAny (ho : Owned db.store) :
    i ∈ db.listIndexesAny c ↔ db.store.indexes i.id = some i ∧ i.collection = c := by
  simp only [Database.listIndexesAny, List.mem_filterMap, List.mem_range, Option.filter_eq_some_iff,
    decide_eq_true_eq]
  constructor
  · rintro ⟨n, -, hn, hc⟩
    rw [ho.id_eq hn]
    exact ⟨hn, hc⟩
  · rintro ⟨hi, hc⟩
    exact ⟨i.id, (ho.id _ _ (view_eq_some hi)).2, hi, hc⟩

lemma nodup_listIndexesAny (ho : Owned db.store) :
    ((db.listIndexesAny c).map IndexInfo.id).Nodup := by
  have hsub : ((db.listIndexesAny c).map IndexInfo.id).Sublist (List.range db.store.nextIndex) := by
    rw [Database.listIndexesAny]
    induction List.range db.store.nextIndex with
    | nil => simp
    | cons n l ih =>
        rw [List.filterMap_cons]
        cases hn : (db.store.indexes n).filter fun i => i.collection = c with
        | none => exact ih.cons n
        | some i =>
            rw [Option.filter_eq_some_iff] at hn
            rw [List.map_cons, ho.id_eq hn.1]
            exact ih.cons_cons n
  exact hsub.nodup List.nodup_range

lemma takeIndexList_ok (hc : CacheOk db) (h : db.takeIndexList c = .ok (l, db')) :
    l = db.listIndexesAny c ∧ db' = { db with indexListCache := none } := by
  have hread : (do
      let list ← ({ db with indexListCache := none } : Database).listIndexes c
      pure (list, ({ db with indexListCache := none } : Database)) :
        Except Error (List IndexInfo × Database)) = .ok (l, db') →
      l = db.listIndexesAny c ∧ db' = { db with indexListCache := none } := by
    intro h
    simp only [Database.listIndexes, bind_eq_ok, pure_eq_ok, Prod.mk.injEq] at h
    obtain ⟨_, ⟨_, -, rfl⟩, rfl, rfl⟩ := h
    exact ⟨rfl, rfl⟩
  rw [Database.takeIndexList] at h
  cases hl : db.indexListCache with
  | none =>
      rw [hl] at h
      exact hread h
  | some entry =>
      obtain ⟨c', g, list⟩ := entry
      rw [hl] at h
      by_cases hcond : c' = c ∧ g = db.indexListGeneration
      · simp only [if_pos hcond, pure_eq_ok, Prod.mk.injEq] at h
        obtain ⟨rfl, rfl⟩ := hcond
        obtain ⟨rfl, rfl⟩ := h
        exact ⟨hc _ _ hl, rfl⟩
      · simp only [if_neg hcond] at h
        exact hread h

/-- **The indexes of table `c` follow a row**, and no other index is touched. -/
structure Maintained (host : Host) (c seq : ℕ) (old new : Option Document) (x x' : Store) : Prop where
  follows : ∀ n v, x.view n = some v → v.info.collection = c →
    ∃ E, x'.view n = some ⟨v.info, E⟩ ∧ Follows host seq old new v E
  others : ∀ n, (∀ v, x.view n = some v → v.info.collection ≠ c) → x'.view n = x.view n

/-- **A row write maintains every index of its table.** -/
lemma maintainIndexes_spec {id : EntityId} (ho : Owned db.store) (hc : CacheOk db)
    (h : db.maintainIndexes o id old new = .ok db') :
    SameButIndexes db db' ∧ Owned db'.store ∧ CacheOk db'
      ∧ Maintained db.host id.collection id.sequence old new db.store db'.store := by
  simp only [Database.maintainIndexes, bind_eq_ok, pure_eq_ok, Prod.exists] at h
  obtain ⟨l, db₁, htake, l', db₂, hlist, rfl⟩ := h
  obtain ⟨rfl, rfl⟩ := takeIndexList_ok hc htake
  have hspec : ListFollows id.sequence old new { db with indexListCache := none } db₂
      (db.listIndexesAny id.collection) l' :=
    maintainList_spec ho rfl (nodup_listIndexesAny ho)
      (fun i hi => ((mem_listIndexesAny ho).1 hi).1) hlist
  obtain ⟨hstore, hframe⟩ :
      (db₂.putIndexList id.collection db.indexListGeneration l').store = db₂.store
      ∧ SameButIndexes db (db₂.putIndexList id.collection db.indexListGeneration l') := by
    have hf := hspec.frame
    rw [SameButIndexes] at hf ⊢
    rw [Database.putIndexList]
    split_ifs
    · refine ⟨rfl, ?_⟩
      rw [hf]
    · refine ⟨rfl, ?_⟩
      rw [hf]
  have hnext : db₂.store.nextIndex = db.store.nextIndex := by rw [hspec.frame]
  refine ⟨hframe, hstore ▸ hspec.owned, ?_, ?_, ?_⟩
  · intro c l hl
    rw [Database.putIndexList] at hl ⊢
    split_ifs at hl ⊢ with hg
    · simp only [Option.some.injEq, Prod.mk.injEq] at hl
      obtain ⟨rfl, -, rfl⟩ := hl
      obtain ⟨rfl, hs⟩ := hspec.still hg
      simp only [Database.listIndexesAny, hs, hnext]
    · rw [hspec.cache] at hl
      cases hl
  · intro n v hv hcol
    obtain ⟨i, hi, rfl⟩ := exists_of_view hv
    have hid : i.id = n := ho.id_eq hi
    rw [hstore, ← hid]
    exact hspec.follows i ((mem_listIndexesAny ho).2 ⟨by rw [hid]; exact hi, hcol⟩)
  · intro n hn
    rw [hstore]
    refine hspec.others n fun hmem => ?_
    obtain ⟨i, hi, rfl⟩ := List.mem_map.1 hmem
    obtain ⟨hi, hcol⟩ := (mem_listIndexesAny ho).1 hi
    exact hn _ (view_eq_some hi) hcol

end

end Engine
