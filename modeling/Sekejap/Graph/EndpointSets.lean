import Sekejap.Graph.Moves

/-!
# Endpoint sets

A file that declares its endpoint sets has, for every edge, the key of each of its ends, and no other
key.  A file whose edges predate the sets gets them from a backfill that runs in steps: between two of
them the keys of the edges up to the cursor are there and the bit is not, so that no write keeps them.

* **`Kept.moves`** — what the moves of one request do to the sets.
* **`Steady`** — while a backfill is under way, no edge comes up behind its cursor with a key that was
  not filed, and no filed key loses its last edge.
* **`Reachable.setsInv`** — in every run that is steady, a file that declares its sets has exactly the
  keys of its edges.
-/

open Collections (EntityId)

open Fallible

namespace Engine.Graph

/-! ## The keys of the edges -/

/-- The keys the edges of a file call for. -/
def Keyspaces.filed (g : Keyspaces) : Finset EndpointKey :=
  g.primary.keys.biUnion fun e => e.key.ends.toFinset

lemma Keyspaces.mem_filed {g : Keyspaces} {k : EndpointKey} :
    k ∈ g.filed ↔ ∃ e ∈ g.primary.keys, k ∈ e.key.ends := by
  simp [filed]

lemma EdgeKey.mem_ends {k : EdgeKey} {x : EndpointKey} : x ∈ k.ends ↔ k.endpoint x.dir = x := by
  rw [EdgeKey.ends]
  constructor
  · intro h
    simp only [List.mem_cons, List.not_mem_nil, or_false] at h
    rcases h with rfl | rfl
    · rfl
    · rfl
  · intro h
    cases hd : x.dir with
    | out =>
        rw [hd] at h
        simp [h]
    | into =>
        rw [hd] at h
        simp [h]

/-- The two keyspaces hold the same edges, and a declared set is theirs. -/
structure Keyspaces.Exact (g : Keyspaces) : Prop where
  mirror : g.reverse.keys = g.primary.keys
  exact : g.endpointFeature = true → g.endpoints = g.filed

section

variable {db db' : Database} {g : Keyspaces}

/-- Another edge of a key remains. -/
lemma remains_iff {k : EndpointKey} (hm : db.graph.reverse.keys = db.graph.primary.keys) :
    db.remains k = true ↔ k ∈ db.graph.filed := by
  rw [Database.remains, decide_eq_true_iff, Keyspaces.mem_filed]
  have hpost : db.graph.postings k.dir = db.graph.primary.keys := by
    cases k.dir with
    | out => rfl
    | into => exact hm
  rw [hpost]
  constructor
  · rintro ⟨e, he, hk⟩
    exact ⟨e, he, EdgeKey.mem_ends.2 hk⟩
  · rintro ⟨e, he, hk⟩
    exact ⟨e, he, EdgeKey.mem_ends.1 hk⟩

/-! ## Keys put and taken -/

/-- The keys are put; what the transaction remembers of them is true. -/
lemma insertEndpointKeys_spec (db : Database) (keys : List EndpointKey)
    (hm : db.endpointWritten ⊆ db.graph.endpoints) :
    ∃ written, written ⊆ db.graph.endpoints ∪ keys.toFinset ∧ db.insertEndpointKeys keys = { db with
      graph := { db.graph with endpoints := db.graph.endpoints ∪ keys.toFinset }
      endpointWritten := written } := by
  induction keys generalizing db with
  | nil => exact ⟨db.endpointWritten, by simpa using hm, by simp [Database.insertEndpointKeys]⟩
  | cons k keys ih =>
      have hone : ∃ written, written ⊆ insert k db.graph.endpoints ∧ db.insertEndpointKey k = { db with
          graph := { db.graph with endpoints := insert k db.graph.endpoints }
          endpointWritten := written } := by
        rw [Database.insertEndpointKey]
        split_ifs with hk hcard
        · refine ⟨db.endpointWritten, hm.trans (Finset.subset_insert _ _), ?_⟩
          rw [Finset.insert_eq_of_mem (hm hk)]
        · exact ⟨insert k db.endpointWritten, Finset.insert_subset_insert k hm, rfl⟩
        · exact ⟨db.endpointWritten, hm.trans (Finset.subset_insert _ _), rfl⟩
      obtain ⟨written, hw, heq⟩ := hone
      have hfold : db.insertEndpointKeys (k :: keys) = (db.insertEndpointKey k).insertEndpointKeys keys := rfl
      have hunion : insert k db.graph.endpoints ∪ keys.toFinset
          = db.graph.endpoints ∪ (k :: keys).toFinset := by
        ext x
        simp
      rw [hfold, heq]
      obtain ⟨written', hw', heq'⟩ := ih { db with
        graph := { db.graph with endpoints := insert k db.graph.endpoints }
        endpointWritten := written } hw
      refine ⟨written', ?_, ?_⟩
      · rw [← hunion]
        exact hw'
      · rw [heq', ← hunion]

/-- Of the keys to be taken, those with an edge left stay. -/
lemma removeEndpointKeys_spec (db : Database) (keys : List EndpointKey)
    (hm : db.endpointWritten ⊆ db.graph.endpoints) (hmirror : db.graph.reverse.keys = db.graph.primary.keys) :
    ∃ written, written ⊆ (db.graph.endpoints.filter fun x => x ∉ keys ∨ x ∈ db.graph.filed)
      ∧ keys.foldl Database.removeEndpointKey db = { db with
        graph := { db.graph with
          endpoints := db.graph.endpoints.filter fun x => x ∉ keys ∨ x ∈ db.graph.filed }
        endpointWritten := written } := by
  induction keys generalizing db with
  | nil => exact ⟨db.endpointWritten, by simpa using hm, by simp⟩
  | cons k keys ih =>
      rw [List.foldl_cons, Database.removeEndpointKey]
      split_ifs with hr
      · have hk := (remains_iff hmirror).1 hr
        obtain ⟨written, hw, heq⟩ := ih db hm hmirror
        have hsame : (db.graph.endpoints.filter fun x => x ∉ keys ∨ x ∈ db.graph.filed)
            = db.graph.endpoints.filter fun x => x ∉ k :: keys ∨ x ∈ db.graph.filed := by
          refine Finset.filter_congr fun x _ => ?_
          by_cases hx : x = k
          · simp [hx, hk]
          · simp [hx]
        rw [heq, ← hsame]
        exact ⟨written, hw, rfl⟩
      · have hk : k ∉ db.graph.filed := fun h => hr ((remains_iff hmirror).2 h)
        obtain ⟨written, hw, heq⟩ := ih { db with
          graph := { db.graph with endpoints := db.graph.endpoints.erase k }
          endpointWritten := db.endpointWritten.erase k } (Finset.erase_subset_erase k hm) hmirror
        have hsame : ((db.graph.endpoints.erase k).filter fun x => x ∉ keys ∨ x ∈ db.graph.filed)
            = db.graph.endpoints.filter fun x => x ∉ k :: keys ∨ x ∈ db.graph.filed := by
          ext x
          simp only [Finset.mem_filter, Finset.mem_erase, List.mem_cons, not_or]
          by_cases hx : x = k
          · simp [hx, hk]
          · simp [hx]
        refine ⟨written, ?_, ?_⟩
        · rw [← hsame]
          exact hw
        · rw [heq, ← hsame]
          rfl

/-! ## Edges put and taken -/

lemma writeEdgePairs_same (db : Database) (edges : List (EdgeId × Bytes)) :
    ∃ primary reverse, edges.foldl (fun db b => db.writeEdgePair b.1 b.2) db
        = { db with graph := { db.graph with primary, reverse } }
      ∧ (∀ e, e ∈ primary.keys ↔ e ∈ db.graph.primary.keys ∨ e ∈ edges.map Prod.fst)
      ∧ ∀ e, e ∈ reverse.keys ↔ e ∈ db.graph.reverse.keys ∨ e ∈ edges.map Prod.fst := by
  induction edges generalizing db with
  | nil => exact ⟨db.graph.primary, db.graph.reverse, rfl, by simp, by simp⟩
  | cons b edges ih =>
      rw [List.foldl_cons]
      obtain ⟨primary, reverse, heq, hp, hr⟩ := ih (db.writeEdgePair b.1 b.2)
      refine ⟨primary, reverse, by rw [heq]; rfl, fun e => ?_, fun e => ?_⟩
      · rw [hp e]
        simp only [Database.writeEdgePair, Database.setGraph, Finmap.mem_keys, Finmap.mem_insert,
          List.map_cons, List.mem_cons]
        tauto
      · rw [hr e]
        simp only [Database.writeEdgePair, Database.setGraph, Finmap.mem_keys, Finmap.mem_insert,
          List.map_cons, List.mem_cons]
        tauto

lemma mem_eraseAll {edges : List EdgeId} {m : Finmap fun _ : EdgeId => Bytes} {e : EdgeId} :
    e ∈ (edges.foldl (fun m e => m.erase e) m).keys ↔ e ∈ m.keys ∧ e ∉ edges := by
  induction edges generalizing m with
  | nil => simp
  | cons x edges ih =>
      rw [List.foldl_cons, ih]
      simp only [Finmap.mem_keys, Finmap.mem_erase, List.mem_cons, not_or]
      tauto

/-! ## One request -/

/-- **The handle a request that puts edges of `P` and takes edges of `T` leaves.**  While the sets are
not declared they are not touched. -/
structure Kept (P T : EdgeId → Prop) (db₀ db : Database) : Prop where
  keepsSets : db.keepsSets = db₀.keepsSets
  durable : db.durable = db₀.durable
  cursor : db.endpointBackfillAt = db₀.endpointBackfillAt
  graph : db.graph.Exact
  memo : db.endpointWritten ⊆ db.graph.endpoints
  aware : Aware db
  off : db.graph.endpointFeature = false →
    db₀.graph.endpointFeature = false ∧ db.graph.endpoints = db₀.graph.endpoints
  puts : ∀ e ∈ db.graph.primary.keys, e ∈ db₀.graph.primary.keys ∨ P e
  takes : ∀ e ∈ db₀.graph.primary.keys, ¬ T e → e ∈ db.graph.primary.keys

/-- No key that is there loses its last edge, while the sets are not declared. -/
def Surviving (db : Database) (T : EdgeId → Prop) : Prop :=
  db.keepsSets = true → db.graph.endpointFeature = false → ∀ k ∈ db.graph.endpoints,
    ∃ e ∈ db.graph.primary.keys, ¬ T e ∧ k ∈ e.key.ends

section

variable {db₀ : Database} {P T : EdgeId → Prop}

/-- Only the edges, their keys and the transaction's part of the sets matter. -/
lemma Kept.congr (h : Kept P T db₀ db) (hk : db'.keepsSets = db.keepsSets)
    (hd : db'.durable = db.durable) (hc : db'.endpointBackfillAt = db.endpointBackfillAt)
    (hs : db'.endpointState = db.endpointState) (hw : db'.endpointWritten = db.endpointWritten)
    (hf : db'.graph.endpointFeature = db.graph.endpointFeature)
    (he : db'.graph.endpoints = db.graph.endpoints)
    (hp : db'.graph.primary.keys = db.graph.primary.keys)
    (hr : db'.graph.reverse.keys = db.graph.reverse.keys) : Kept P T db₀ db' := by
  have hfiled : db'.graph.filed = db.graph.filed := by rw [Keyspaces.filed, hp, Keyspaces.filed]
  refine ⟨hk.trans h.keepsSets, hd.trans h.durable, hc.trans h.cursor, ⟨?_, ?_⟩, ?_, ⟨?_, ?_⟩, ?_, ?_, ?_⟩
  · rw [hr, hp]
    exact h.graph.mirror
  · rw [hf, he, hfiled]
    exact h.graph.exact
  · rw [hw, he]
    exact h.memo
  · rw [hk, hf]
    exact h.aware.older
  · rw [hs, hf]
    exact h.aware.known
  · rw [hf, he]
    exact h.off
  · rw [hp]
    exact h.puts
  · rw [hp]
    exact h.takes

/-- A file that holds no edge starts its sets. -/
lemma Kept.maintain (h : Kept P T db₀ db) (hT : Surviving db₀ T) : Kept P T db₀ db.endpointMaintenance.2 := by
  have haware := h.aware.maintain.1
  rcases maintenance_cases db with ⟨hm, -⟩ | ⟨hm, -⟩ | ⟨known, hm, -⟩ | ⟨hm, hk, hf, -, hempty, -⟩
    | ⟨hm, -⟩
  · rw [hm]
    exact h
  · rw [hm]
    exact h
  · rw [hm]
    exact h
  · rw [hm] at haware ⊢
    obtain ⟨hf₀, hsame⟩ := h.off hf
    have hfiled : db.graph.filed = ∅ := by simp [Keyspaces.filed, hempty]
    have hnone : db.graph.endpoints = ∅ := by
      rw [Finset.eq_empty_iff_forall_notMem]
      intro k hmem
      rw [hsame] at hmem
      obtain ⟨e, he, hnot, -⟩ := hT (h.keepsSets ▸ hk) hf₀ k hmem
      have := h.takes e he hnot
      rw [hempty] at this
      exact absurd this (Finset.notMem_empty e)
    refine ⟨h.keepsSets, h.durable, h.cursor, ⟨h.graph.mirror, fun _ => ?_⟩, h.memo, haware, ?_, h.puts,
      h.takes⟩
    · exact hnone.trans hfiled.symm
    · intro hf'
      cases hf'
  · rw [hm] at haware ⊢
    exact ⟨h.keepsSets, h.durable, h.cursor, h.graph, h.memo, haware, h.off, h.puts, h.takes⟩

/-- Edges are put with the keys of their ends. -/
lemma Kept.write (h : Kept P T db₀ db) (edges : List (EdgeId × Bytes)) {keys : List EndpointKey}
    (hP : ∀ b ∈ edges, P b.1) (hoff : db.graph.endpointFeature = false → keys = [])
    (hsub : ∀ k ∈ keys, ∃ b ∈ edges, k ∈ b.1.key.ends)
    (hnew : db.graph.endpointFeature = true → ∀ b ∈ edges, b.1 ∉ db.graph.primary.keys →
      ∀ k ∈ b.1.key.ends, k ∈ keys) :
    Kept P T db₀ ((edges.foldl (fun db b => db.writeEdgePair b.1 b.2) db).insertEndpointKeys keys) := by
  obtain ⟨primary, reverse, heq, hp, hr⟩ := writeEdgePairs_same db edges
  rw [heq]
  obtain ⟨written, hw, heq'⟩ := insertEndpointKeys_spec
    { db with graph := { db.graph with primary, reverse } } keys h.memo
  rw [heq']
  refine ⟨h.keepsSets, h.durable, h.cursor, ⟨?_, fun hf => ?_⟩, hw, ⟨h.aware.older, h.aware.known⟩,
    fun hf => ?_, fun e he => ?_, fun e he hnot => ?_⟩
  · ext e
    rw [hr e, hp e, h.graph.mirror]
  · ext k
    change k ∈ db.graph.endpoints ∪ keys.toFinset ↔ _
    rw [Finset.mem_union, h.graph.exact hf, Keyspaces.mem_filed, Keyspaces.mem_filed, List.mem_toFinset]
    constructor
    · rintro (⟨e, he, hk⟩ | hk)
      · exact ⟨e, (hp e).2 (Or.inl he), hk⟩
      · obtain ⟨b, hb, hk⟩ := hsub k hk
        exact ⟨b.1, (hp b.1).2 (Or.inr (List.mem_map_of_mem hb)), hk⟩
    · rintro ⟨e, he, hk⟩
      by_cases hold : e ∈ db.graph.primary.keys
      · exact Or.inl ⟨e, hold, hk⟩
      · obtain ⟨b, hb, rfl⟩ := List.mem_map.1 (((hp e).1 he).resolve_left hold)
        exact Or.inr (hnew hf b hb hold k hk)
  · obtain ⟨hf₀, hsame⟩ := h.off hf
    refine ⟨hf₀, ?_⟩
    rw [← hsame, hoff hf]
    simp
  · rcases (hp e).1 he with he | he
    · exact h.puts e he
    · obtain ⟨b, hb, rfl⟩ := List.mem_map.1 he
      exact Or.inr (hP b hb)
  · exact (hp e).2 (Or.inl (h.takes e he hnot))

/-- Edges are taken with those keys that have no edge left. -/
lemma Kept.remove (h : Kept P T db₀ db) {edges : List EdgeId} {keys : List EdgeKey}
    (hT : ∀ e ∈ edges, T e) (hk : ∀ e ∈ edges, e.key ∈ keys) :
    Kept P T db₀ ((db.deleteEdgePairs edges).removeEndpointKeysFor keys) := by
  have hmirror : (db.deleteEdgePairs edges).graph.reverse.keys
      = (db.deleteEdgePairs edges).graph.primary.keys := by
    ext e
    simp only [Database.deleteEdgePairs, Database.setGraph, mem_eraseAll, h.graph.mirror]
  have hputs : ∀ e ∈ (db.deleteEdgePairs edges).graph.primary.keys, e ∈ db₀.graph.primary.keys ∨ P e :=
    fun e he => h.puts e (mem_eraseAll.1 he).1
  have htakes : ∀ e ∈ db₀.graph.primary.keys, ¬ T e → e ∈ (db.deleteEdgePairs edges).graph.primary.keys :=
    fun e he hnot => mem_eraseAll.2 ⟨h.takes e he hnot, fun hmem => hnot (hT e hmem)⟩
  rw [Database.removeEndpointKeysFor]
  split_ifs with hc
  · obtain ⟨written, hw, heq⟩ := removeEndpointKeys_spec (db.deleteEdgePairs edges)
      (keys.flatMap EdgeKey.ends) h.memo hmirror
    rw [heq]
    refine ⟨h.keepsSets, h.durable, h.cursor, ⟨hmirror, fun hf => ?_⟩, hw, ⟨h.aware.older, h.aware.known⟩,
      fun hf => ?_, hputs, htakes⟩
    · ext k
      change k ∈ (db.graph.endpoints.filter fun x => _) ↔ k ∈ (db.deleteEdgePairs edges).graph.filed
      rw [Finset.mem_filter, h.graph.exact hf, Keyspaces.mem_filed]
      constructor
      · rintro ⟨⟨e, he, hke⟩, hnot | hfiled⟩
        · refine Keyspaces.mem_filed.2 ⟨e, mem_eraseAll.2 ⟨he, fun hmem => hnot ?_⟩, hke⟩
          exact List.mem_flatMap.2 ⟨e.key, hk e hmem, hke⟩
        · exact hfiled
      · intro hfiled
        refine ⟨?_, Or.inr hfiled⟩
        obtain ⟨e, he, hke⟩ := Keyspaces.mem_filed.1 hfiled
        exact ⟨e, (mem_eraseAll.1 he).1, hke⟩
    · exact absurd (hc.2.symm.trans hf) (by simp)
  · refine ⟨h.keepsSets, h.durable, h.cursor, ⟨hmirror, fun hf => ?_⟩, h.memo,
      ⟨h.aware.older, h.aware.known⟩, h.off, hputs, htakes⟩
    have hkeeps : db.keepsSets = true := by
      cases hks : db.keepsSets with
      | true => rfl
      | false => exact absurd ((h.aware.older hks).symm.trans hf) (by simp)
    exact absurd ⟨hkeeps, hf⟩ hc

/-- **What one move of a request does to the sets.** -/
lemma Kept.move (h : Kept P T db₀ db) (hT : Surviving db₀ T) (hm : Move P T db db') :
    Kept P T db₀ db' := by
  cases hm with
  | user => exact h.congr rfl rfl rfl rfl rfl rfl rfl rfl rfl
  | names hn =>
      rw [hn.same]
      exact h.congr rfl rfl rfl rfl rfl rfl rfl rfl rfl
  | maintain => exact h.maintain hT
  | put bodies keys hP ha hk =>
      have hfold : bodies.foldl (fun db b => db.writeEdgePair ⟨b.1, 0⟩ b.2) db
          = (bodies.map fun b => ((⟨b.1, 0⟩ : EdgeId), b.2)).foldl
            (fun db b => db.writeEdgePair b.1 b.2) db := by
        rw [List.foldl_map]
      rw [hfold]
      refine h.write _ ?_ hk.off ?_ ?_
      · intro b hb
        obtain ⟨x, hx, rfl⟩ := List.mem_map.1 hb
        exact hP x hx
      · intro k hmem
        obtain ⟨b, hb, hkb⟩ := hk.sub k hmem
        exact ⟨_, List.mem_map_of_mem hb, hkb⟩
      · intro hf b hb hnot
        obtain ⟨x, hx, rfl⟩ := List.mem_map.1 hb
        exact hk.new hf x hx hnot
  | create k bag keys hP ha hn h₂ hoff hon =>
      subst h₂
      rename_i db₁ n
      have h₁ : Kept P T db₀ (db₁.setGraph fun g => { g with edgeIdFeature := true }) := by
        rw [allocateEdgeId_same hn]
        exact h.congr rfl rfl rfl rfl rfl rfl rfl rfl rfl
      refine (h₁.maintain hT).write [(⟨k, n⟩, bag)] (by simpa using hP) hoff ?_ ?_
      · intro x hx
        refine ⟨_, List.mem_singleton_self _, ?_⟩
        by_contra hnot
        cases hf : (db₁.setGraph fun g => { g with edgeIdFeature := true }).endpointMaintenance.2.graph.endpointFeature with
        | false =>
            rw [hoff hf] at hx
            cases hx
        | true =>
            rw [hon hf] at hx
            exact hnot hx
      · intro hf b hb _
        rw [List.mem_singleton] at hb
        subst hb
        intro x hx
        rw [hon hf]
        exact hx
  | rebag he hb =>
      refine h.congr rfl rfl rfl rfl rfl rfl rfl ?_ rfl
      ext x
      simp only [Database.setGraph, Finmap.mem_keys, Finmap.mem_insert]
      exact ⟨fun hx => hx.elim (fun heq => heq ▸ Finmap.mem_keys.1 he) id, Or.inr⟩
  | remove edges keys hTe hk => exact h.remove hTe hk

/-- **What a request of the graph does to the sets.** -/
lemma Kept.moves (h : Kept P T db₀ db) (hT : Surviving db₀ T) (hm : Moves P T db db') :
    Kept P T db₀ db' := by
  induction hm with
  | refl => exact h
  | tail _ hm ih => exact ih.move hT hm

/-! ## Rows -/

lemma noteDeleted_same (db : Database) (id : EntityId) :
    ∃ allocated, db.noteDeleted id = { db with allocated } := by
  rw [Database.noteDeleted]
  split
  · exact ⟨db.allocated, rfl⟩
  · split_ifs
    · exact ⟨db.allocated, rfl⟩
    · exact ⟨_, rfl⟩

/-- Nothing but the tables, and the rows the handle knows to be there. -/
lemma Kept.tables (h : Kept P T db₀ db) (tables : Engine.Database) (allocated : ℕ → Option Allocated) :
    Kept P T db₀ { db with tables, allocated } :=
  h.congr rfl rfl rfl rfl rfl rfl rfl rfl rfl

lemma Kept.noteDeleted (h : Kept P T db₀ db) (id : EntityId) : Kept P T db₀ (db.noteDeleted id) := by
  obtain ⟨allocated, heq⟩ := noteDeleted_same db id
  rw [heq]
  exact h.tables db.tables allocated

lemma Kept.forgetRow {id : EntityId} (h : Kept P T db₀ db) (hT : Surviving db₀ T)
    (hid : ∀ e : EdgeId, e.key.At id → T e) (hok : db.forgetRow id = .ok db') : Kept P T db₀ db' := by
  simp only [Database.forgetRow, bind_eq_ok, pure_eq_ok] at hok
  obtain ⟨db₁, hcascade, rfl⟩ := hok
  exact (h.moves hT (cascadeGraphDelete_moves hid hcascade)).noteDeleted id

lemma Kept.deleteCandidate {o : Call} {c : ℕ} {id : EntityId} {mode : DropMode} {removed : Bool}
    (h : Kept P T db₀ db) (hT : Surviving db₀ T) (hid : ∀ e : EdgeId, e.key.At id → T e)
    (hok : db.deleteCandidate o c id mode = .ok (removed, db')) : Kept P T db₀ db' := by
  simp only [Database.deleteCandidate, bind_eq_ok, Prod.exists] at hok
  obtain ⟨gone, tables, -, hok⟩ := hok
  cases gone with
  | false =>
      simp only [Bool.false_eq_true, if_false, pure_eq_ok, Prod.mk.injEq] at hok
      obtain ⟨-, rfl⟩ := hok
      exact h.tables tables db.allocated
  | true =>
      simp only [if_true, bind_eq_ok, pure_eq_ok, Prod.mk.injEq] at hok
      obtain ⟨_, -, db₁, hforget, -, rfl⟩ := hok
      exact (h.tables tables db.allocated).forgetRow hT hid hforget

lemma Kept.deleteCandidates {c : ℕ} {mode : DropMode} {page : List (Call × EntityId)}
    (h : Kept P T db₀ db) (hT : Surviving db₀ T)
    (hid : ∀ row ∈ page, ∀ e : EdgeId, e.key.At row.2 → T e)
    (hok : Database.deleteCandidates c mode db page = .ok db') : Kept P T db₀ db' := by
  induction page generalizing db with
  | nil =>
      cases hok
      exact h
  | cons row page ih =>
      simp only [Database.deleteCandidates, bind_eq_ok, Prod.exists] at hok
      obtain ⟨_, db₁, hone, hrest⟩ := hok
      exact ih (h.deleteCandidate hT (hid row (by simp)) hone)
        (fun row' hrow => hid row' (List.mem_cons_of_mem row hrow)) hrest

lemma Kept.deletePage {c : ℕ} {mode : DropMode} {page : List (Call × EntityId)}
    (h : Kept P T db₀ db) (hT : Surviving db₀ T)
    (hid : ∀ row ∈ page, ∀ e : EdgeId, e.key.At row.2 → T e)
    (hok : db.deletePage c mode page = .ok db') : Kept P T db₀ db' := by
  simp only [Database.deletePage, bind_eq_ok] at hok
  obtain ⟨_, -, hok⟩ := hok
  exact h.deleteCandidates hT hid hok

lemma Kept.dropRows {ids : List EntityId} (h : Kept P T db₀ db) (hT : Surviving db₀ T)
    (hid : ∀ id ∈ ids, ∀ e : EdgeId, e.key.At id → T e) (hok : Database.dropRows db ids = .ok db') :
    Kept P T db₀ db' := by
  induction ids generalizing db with
  | nil =>
      cases hok
      exact h
  | cons id ids ih =>
      have hrest : ∀ x ∈ ids, ∀ e : EdgeId, e.key.At x → T e :=
        fun x hx => hid x (List.mem_cons_of_mem id hx)
      rw [Database.dropRows] at hok
      split_ifs at hok
      · simp only [bind_eq_ok] at hok
        obtain ⟨db₁, hcascade, hok⟩ := hok
        exact ih ((h.moves hT (cascadeGraphDelete_moves (hid id (by simp)) hcascade)).noteDeleted id)
          hrest hok
      · exact ih (h.noteDeleted id) hrest hok

lemma Kept.beginDrop {c : ℕ} {mode : DropMode} (h : Kept P T db₀ db)
    (hok : db.beginDropCollectionMode c mode = .ok db') : Kept P T db₀ db' := by
  simp only [Database.beginDropCollectionMode, bind_eq_ok, pure_eq_ok] at hok
  obtain ⟨tables, -, _, -, rfl⟩ := hok
  exact h.congr rfl rfl rfl rfl rfl rfl rfl rfl rfl

end

/-- The requests of the tables and of the graph, but for a commit and the building of the sets. -/
def Request.plain : Request → Bool
  | .tables .commit | .backfillEndpointSets _ => false
  | _ => true

lemma callTables_kept {r : Engine.Request} (h : Kept (Puts db (.tables r)) (Takes db (.tables r)) db db)
    (hT : Surviving db (Takes db (.tables r))) (hr : (Request.tables r).plain = true)
    (hok : db.callTables r = .ok db') : Kept (Puts db (.tables r)) (Takes db (.tables r)) db db' := by
  cases r with
  | commit => cases hr
  | put o c key fields =>
      simp only [Database.callTables, Database.put, map_eq_ok, bind_eq_ok, pure_eq_ok, Prod.exists,
        Prod.mk.injEq] at hok
      obtain ⟨_, _, ⟨id, tables, -, rfl, rfl⟩, rfl⟩ := hok
      split_ifs
      · exact h.congr rfl rfl rfl rfl rfl rfl rfl rfl rfl
      · exact h.tables tables db.allocated
  | insert o c key fields =>
      simp only [Database.callTables, Database.insert, map_eq_ok, bind_eq_ok, pure_eq_ok, Prod.exists,
        Prod.mk.injEq] at hok
      obtain ⟨_, _, ⟨id, tables, -, rfl, rfl⟩, rfl⟩ := hok
      exact h.congr rfl rfl rfl rfl rfl rfl rfl rfl rfl
  | delete o c key =>
      simp only [Database.callTables, Database.delete, map_eq_ok, bind_eq_ok, Prod.exists] at hok
      obtain ⟨_, db₁, ⟨removed, tables, -, hok⟩, rfl⟩ := hok
      split at hok
      · rename_i seq hseq
        simp only [bind_eq_ok, pure_eq_ok, Prod.mk.injEq] at hok
        obtain ⟨db₂, hforget, -, rfl⟩ := hok
        exact (h.tables tables db.allocated).forgetRow hT
          (fun e he => ⟨⟨c, seq⟩, ⟨seq, hseq, rfl⟩, he⟩) hforget
      · simp only [pure_eq_ok, Prod.mk.injEq] at hok
        obtain ⟨-, rfl⟩ := hok
        exact h.tables tables db.allocated
  | deletePage c page =>
      exact h.deletePage hT (fun row hrow e he => ⟨row.2, ⟨row, hrow, rfl⟩, he⟩) hok
  | beginDropCollection c => exact h.beginDrop hok
  | dropCollectionStep o c budget =>
      simp only [Database.callTables, Database.dropCollectionStep, map_eq_ok, bind_eq_ok,
        Prod.exists] at hok
      obtain ⟨_, db₁, ⟨done, tables, ht, db₂, hrows, hok⟩, rfl⟩ := hok
      have hkept := (h.tables tables db.allocated).dropRows hT (fun id hid e he => ?_) hrows
      · cases done with
        | false =>
            simp only [Bool.false_eq_true, if_false, pure_eq_ok, Prod.mk.injEq] at hok
            obtain ⟨-, rfl⟩ := hok
            exact hkept
        | true =>
            simp only [if_true, bind_eq_ok, pure_eq_ok, Prod.mk.injEq] at hok
            obtain ⟨_, -, -, rfl⟩ := hok
            exact hkept.congr rfl rfl rfl rfl rfl rfl rfl rfl rfl
      · obtain ⟨seq, hseq, rfl⟩ := List.mem_map.1 hid
        exact ⟨⟨c, seq⟩, ⟨rfl, done, tables, ht, mem_ascending.1 hseq⟩, he⟩
  | _ =>
      simp only [Database.callTables, bind_eq_ok, pure_eq_ok] at hok
      obtain ⟨tables, -, rfl⟩ := hok
      exact h.tables tables db.allocated

/-- **What a request does to the sets.** -/
lemma call_kept {r : Request} (h : Kept (Puts db r) (Takes db r) db db)
    (hT : Surviving db (Takes db r)) (hr : r.plain = true) (hok : db.call r = .ok db') :
    Kept (Puts db r) (Takes db r) db db' := by
  cases r with
  | tables r => exact callTables_kept h hT hr hok
  | deletePage c mode page =>
      exact h.deletePage hT (fun row hrow e he => ⟨row.2, ⟨row, hrow, rfl⟩, he⟩) hok
  | beginDropCollection c mode => exact h.beginDrop hok
  | backfillEndpointSets budget => cases hr
  | _ => exact h.moves hT (call_moves h.aware rfl hok)

/-! ## A handle -/

/-- **What a handle that has not failed knows of its sets.**  Undeclared keys are those of edges that
are there, and those of the edges up to the cursor are among them. -/
structure Sets (db : Database) : Prop where
  graph : db.graph.Exact
  memo : db.endpointWritten ⊆ db.graph.endpoints
  aware : Aware db
  behind : db.keepsSets = true → db.graph.endpointFeature = false → ∀ e ∈ db.graph.primary.keys,
    ¬ Scan.Past db.endpointBackfillAt e → ∀ k ∈ e.key.ends, k ∈ db.graph.endpoints
  filed : db.keepsSets = true → db.graph.endpointFeature = false → db.graph.endpoints ⊆ db.graph.filed
  unbegun : db.keepsSets = true → db.graph.endpointFeature = false → db.endpointBackfillAt = none →
    db.graph.endpoints = ∅

/-- **A backfill under way is not undercut**: no call puts an edge at or before the cursor whose keys
are not there, and no call takes the last edge of a key that is. -/
def Steady (db : Database) : Op → Prop
  | .call r => db.graph.endpointFeature = false → ∀ c ∈ db.endpointBackfillAt,
      (∀ e ≤ c, Puts db r e → ∀ k ∈ e.key.ends, k ∈ db.graph.endpoints)
      ∧ ∀ e ∈ db.graph.primary.keys, Takes db r e → ∀ k ∈ e.key.ends, k ∈ db.graph.endpoints →
          ∃ e' ∈ db.graph.primary.keys, ¬ Takes db r e' ∧ k ∈ e'.key.ends
  | _ => True

lemma Sets.surviving {r : Request} (h : Sets db) (hs : Steady db (.call r)) :
    Surviving db (Takes db r) := by
  intro hk hf k hmem
  cases hc : db.endpointBackfillAt with
  | none =>
      rw [h.unbegun hk hf hc] at hmem
      exact absurd hmem (Finset.notMem_empty k)
  | some c =>
      obtain ⟨-, htakes⟩ := hs hf c hc
      obtain ⟨e, he, hke⟩ := Keyspaces.mem_filed.1 (h.filed hk hf hmem)
      by_cases hT : Takes db r e
      · exact htakes e he hT k hke hmem
      · exact ⟨e, he, hT, hke⟩

lemma Sets.kept (h : Sets db) (P T : EdgeId → Prop) : Kept P T db db :=
  ⟨rfl, rfl, rfl, h.graph, h.memo, h.aware, fun hf => ⟨hf, rfl⟩, fun _ he => Or.inl he, fun _ he _ => he⟩

/-- A request that is steady leaves the handle as it should be. -/
lemma Sets.of_kept {r : Request} (h : Sets db) (hs : Steady db (.call r))
    (hk : Kept (Puts db r) (Takes db r) db db') : Sets db' := by
  refine ⟨hk.graph, hk.memo, hk.aware, fun hks hf e he hp k hke => ?_, fun hks hf k hmem => ?_,
    fun hks hf hc => ?_⟩
  · obtain ⟨hf₀, hsame⟩ := hk.off hf
    rw [hk.cursor] at hp
    rw [hsame]
    rcases hk.puts e he with he | hput
    · exact h.behind (hk.keepsSets ▸ hks) hf₀ e he hp k hke
    · cases hc : db.endpointBackfillAt with
      | none =>
          rw [hc] at hp
          exact absurd (Scan.past_none e) hp
      | some c =>
          rw [hc, Scan.past_some, not_lt] at hp
          exact (hs hf₀ c hc).1 e hp hput k hke
  · obtain ⟨hf₀, hsame⟩ := hk.off hf
    rw [hsame] at hmem
    obtain ⟨e, he, hnot, hke⟩ := h.surviving hs (hk.keepsSets ▸ hks) hf₀ k hmem
    exact Keyspaces.mem_filed.2 ⟨e, hk.takes e he hnot, hke⟩
  · obtain ⟨hf₀, hsame⟩ := hk.off hf
    rw [hsame]
    exact h.unbegun (hk.keepsSets ▸ hks) hf₀ (hk.cursor ▸ hc)

/-! ## A step of the backfill -/

lemma Sets.backfill {budget : ℕ} {p : Database.EndpointProgress} (h : Sets db)
    (hk : db.keepsSets = true) (hok : db.backfillEndpointSets budget = .ok (p, db')) :
    Sets db' ∧ db'.durable = db.durable ∧ db'.tables = db.tables := by
  simp only [Database.backfillEndpointSets, bind_eq_ok] at hok
  obtain ⟨_, -, hok⟩ := hok
  by_cases hf : db.graph.endpointFeature = true
  · rw [if_pos hf] at hok
    cases hok
    exact ⟨h, rfl, rfl⟩
  rw [if_neg hf] at hok
  have hf : db.graph.endpointFeature = false := by simpa using hf
  cases hh : db.graph.header with
  | none =>
      rw [hh] at hok
      cases hok
      exact ⟨h, rfl, rfl⟩
  | some hd =>
      rw [hh] at hok
      simp only [bind_eq_ok] at hok
      obtain ⟨_, -, hok⟩ := hok
      set n := max budget 1
      set taken := Scan.take db.graph.primary.keys n db.endpointBackfillAt with htaken
      set keys := (taken.flatMap fun e => e.key.ends).toFinset with hkeys
      have hmem : ∀ k, k ∈ keys ↔ ∃ e ∈ taken, k ∈ e.key.ends := by
        intro k
        rw [hkeys, List.mem_toFinset, List.mem_flatMap]
      have hsub : db.graph.endpoints ∪ keys ⊆ db.graph.filed := by
        refine Finset.union_subset (h.filed hk hf) fun k hkey => ?_
        obtain ⟨e, he, hke⟩ := (hmem k).1 hkey
        exact Keyspaces.mem_filed.2 ⟨e, (Scan.mem_of_mem_take he).1, hke⟩
      have hmemo : db.endpointWritten ⊆ db.graph.endpoints ∪ keys := h.memo.trans Finset.subset_union_left
      -- the keys of every edge the walk has passed are there
      have hpassed : ∀ e ∈ db.graph.primary.keys, ¬ Scan.Past db.endpointBackfillAt e ∨ e ∈ taken →
          ∀ k ∈ e.key.ends, k ∈ db.graph.endpoints ∪ keys := by
        rintro e he (hp | ht) k hke
        · exact Finset.mem_union_left _ (h.behind hk hf e he hp k hke)
        · exact Finset.mem_union_right _ ((hmem k).2 ⟨e, ht, hke⟩)
      split_ifs at hok with hlen
      · cases hok
        refine ⟨⟨⟨h.graph.mirror, fun _ => ?_⟩, hmemo, ⟨fun hks => ?_, fun _ => rfl⟩, ?_, ?_, ?_⟩, rfl, rfl⟩
        · refine Finset.Subset.antisymm hsub fun k hkey => ?_
          obtain ⟨e, he, hke⟩ := Keyspaces.mem_filed.1 hkey
          refine hpassed e he ?_ k hke
          by_cases hp : Scan.Past db.endpointBackfillAt e
          · exact Or.inr (Scan.mem_take_of_short hlen he hp)
          · exact Or.inl hp
        · exact absurd (hk.symm.trans hks) (by simp)
        · rintro - ⟨⟩
        · rintro - ⟨⟩
        · rintro - ⟨⟩
      · cases hok
        have hne : taken ≠ [] := by
          rintro hnil
          rw [hnil] at hlen
          simp [n] at hlen
        have hstop : taken.getLast? = Scan.stop db.graph.primary.keys n db.endpointBackfillAt := by
          rw [Scan.stop, ← htaken, List.getLast?_eq_some_getLast hne]
          rfl
        refine ⟨⟨⟨h.graph.mirror, fun hf' => ?_⟩, hmemo, ⟨h.aware.older, h.aware.known⟩, ?_, ?_, ?_⟩, rfl, rfl⟩
        · exact absurd (hf.symm.trans hf') (by simp)
        · intro _ _ e he hp k hke
          change ¬ Scan.Past taken.getLast? e at hp
          rw [hstop, Scan.not_past_stop_iff he] at hp
          exact hpassed e he hp k hke
        · intro _ _
          exact hsub
        · intro _ _ hnone
          exact absurd (List.getLast?_eq_none_iff.1 hnone) hne

/-! ## Runs -/

/-- The graph of the files, and the handle's unless it has failed. -/
structure SetsInv (db : Database) : Prop where
  durable : db.durable.Exact
  live : db.tables.failed = false → Sets db

/-- A handle just opened. -/
lemma Sets.openStore {tables : Engine.Database} {keepsSets : Bool} {recordLimit : Option ℕ}
    {g : Keyspaces} (hg : g.Exact) (hok : g.validateFeatures keepsSets = .ok ()) :
    Sets (Database.openStore tables keepsSets recordLimit g) := by
  have hempty : keepsSets = true → g.endpointFeature = false → g.endpoints = ∅ := by
    rintro rfl hf
    simp only [Keyspaces.validateFeatures, if_true, refuse_eq_ok, not_and, not_not] at hok
    exact hok hf
  refine ⟨hg, Finset.empty_subset _, ⟨?_, ?_⟩, ?_, ?_, ?_⟩
  · rintro rfl
    have hoff : g.endpointFeature = false := by simpa [Keyspaces.validateFeatures] using hok
    exact hoff
  · rintro ⟨⟩
  · intro _ _ e _ hp
    exact absurd (Scan.past_none e) hp
  · intro hk hf
    rw [Database.openStore] at hk hf ⊢
    rw [hempty hk hf]
    exact Finset.empty_subset _
  · intro hk hf _
    exact hempty hk hf

/-- The allocator is written, and nothing of the sets. -/
lemma flushEdgeIdAllocator_same (hok : db.flushEdgeIdAllocator = .ok db') :
    ∃ edgeIds dirty, db' = { db with
      graph := { db.graph with edgeIds }
      edgeIdDirty := dirty
      edgeIdNext := none } := by
  rw [Database.flushEdgeIdAllocator] at hok
  split at hok
  · simp only [bind_eq_ok, pure_eq_ok] at hok
    obtain ⟨next, -, rfl⟩ := hok
    exact ⟨_, false, rfl⟩
  · cases hok
    exact ⟨db.graph.edgeIds, db.edgeIdDirty, rfl⟩

lemma Sets.flush (h : Sets db) {edgeIds : Option ℕ} {dirty : Bool} {next : Option ℕ}
    {tables : Engine.Database} {durable : Keyspaces} :
    Sets { db with
      graph := { db.graph with edgeIds }
      edgeIdDirty := dirty
      edgeIdNext := next
      endpointWritten := ∅
      tables := tables
      durable := durable } :=
  ⟨⟨h.graph.mirror, h.graph.exact⟩, Finset.empty_subset _, ⟨h.aware.older, h.aware.known⟩, h.behind,
    h.filed, h.unbegun⟩

lemma commitUncertain_failed {tables tables' : Engine.Database}
    (hok : tables.commitUncertain = .ok tables') : tables.failed = false ∧ tables'.failed = true := by
  simp only [Engine.Database.commitUncertain, Engine.Database.flush, bind_eq_ok, refuse_eq_ok,
    pure_eq_ok, Bool.not_eq_true] at hok
  obtain ⟨_, ⟨_, hf, -⟩, rfl⟩ := hok
  exact ⟨hf, rfl⟩

lemma SetsInv.commit (h : SetsInv db) (hf : db.tables.failed = false) (hok : db.commit = .ok db') :
    SetsInv db' := by
  simp only [Database.commit, bind_eq_ok, pure_eq_ok] at hok
  obtain ⟨tables, -, db₁, hflush, rfl⟩ := hok
  obtain ⟨edgeIds, dirty, rfl⟩ := flushEdgeIdAllocator_same hflush
  exact ⟨⟨(h.live hf).graph.mirror, (h.live hf).graph.exact⟩, fun _ => (h.live hf).flush⟩

/-- **What one step does to the sets.** -/
lemma SetsInv.step {op : Op} (h : SetsInv db) (hs : Steady db op) (hstep : Step db op db') :
    SetsInv db' := by
  cases hstep with
  | call hf hoff hok =>
      rename_i r
      have hsets := h.live hf
      have hkept : r.plain = true → db.call r = .ok db' → Kept (Puts db r) (Takes db r) db db' :=
        call_kept (hsets.kept (Puts db r) (Takes db r)) (hsets.surviving hs)
      cases r with
      | tables r =>
          cases r with
          | commit => exact h.commit hf hok
          | _ =>
              have hk := hkept rfl hok
              exact ⟨hk.durable ▸ h.durable, fun _ => hsets.of_kept hs hk⟩
      | backfillEndpointSets budget =>
          simp only [Database.call, map_eq_ok, Prod.exists, exists_eq_right] at hok
          obtain ⟨p, hok⟩ := hok
          obtain ⟨hsets', hd, -⟩ := hsets.backfill hoff hok
          exact ⟨hd ▸ h.durable, fun _ => hsets'⟩
      | _ =>
          have hk := hkept rfl hok
          exact ⟨hk.durable ▸ h.durable, fun _ => hsets.of_kept hs hk⟩
  | refused hf =>
      have hk := (h.live hf).kept (fun _ => False) (fun _ => False)
      exact ⟨h.durable, fun _ => ⟨(h.live hf).graph, (h.live hf).memo, ⟨hk.aware.older, hk.aware.known⟩,
        (h.live hf).behind, (h.live hf).filed, (h.live hf).unbegun⟩⟩
  | commitUncertain hok =>
      simp only [Database.commitUncertain, bind_eq_ok, pure_eq_ok] at hok
      obtain ⟨tables, ht, db₁, hflush, rfl⟩ := hok
      obtain ⟨edgeIds, dirty, rfl⟩ := flushEdgeIdAllocator_same hflush
      obtain ⟨hf, hf'⟩ := commitUncertain_failed ht
      refine ⟨⟨(h.live hf).graph.mirror, (h.live hf).graph.exact⟩, fun hlive => ?_⟩
      exact absurd (hf'.symm.trans hlive) (by simp)
  | fail ht hd hk =>
      refine ⟨hd ▸ h.durable, fun hlive => ?_⟩
      cases ht with
      | fail _ hf' => exact absurd (hf'.symm.trans hlive) (by simp)
  | rollback hok =>
      simp only [Database.rollback, bind_eq_ok, pure_eq_ok] at hok
      obtain ⟨_, hadmit, rfl⟩ := hok
      exact ⟨h.durable, fun _ => .openStore h.durable hadmit⟩
  | rollbackFails ht hd hk =>
      refine ⟨hd ▸ h.durable, fun hlive => ?_⟩
      cases ht with
      | rollbackFails hf' => exact absurd (hf'.symm.trans hlive) (by simp)
  | reopen hok =>
      simp only [Database.reopen, bind_eq_ok, pure_eq_ok] at hok
      obtain ⟨_, hadmit, rfl⟩ := hok
      exact ⟨h.durable, fun _ => .openStore h.durable hadmit⟩

/-- **The sets of every state of a steady run.** -/
theorem Reachable.setsInv (h : Reachable Steady db) : SetsInv db := by
  induction h with
  | create host register keepsSets recordLimit =>
      have hexact : Keyspaces.empty.Exact := ⟨rfl, by rintro ⟨⟩⟩
      refine ⟨hexact, fun _ => .openStore hexact ?_⟩
      cases keepsSets
      · rfl
      · rfl
  | step _ hs hstep ih => exact ih.step hs hstep

end

end Engine.Graph
