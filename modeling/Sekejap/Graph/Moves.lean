import Sekejap.Collections.RowSteps
import Sekejap.Graph.Lifecycle

/-!
# What a graph request does

Every request of the graph is a few moves: the pending flag, names, the start of the endpoint sets,
edges put with the keys of their ends, a bag replaced, edges removed with the keys that go with them.
**`call_moves`** takes the requests apart into these once, so that what holds of a graph is shown
move by move.
-/

open Collections (EntityId)

open Fallible

namespace Engine.Graph

/-- A type and a context that were handed out: by the header, or under a name. -/
def Known (g : Keyspaces) (k : EdgeKey) : Prop :=
  ∃ h, g.header = some h ∧ ((k.edgeType ≠ 0 ∧ k.edgeType < h.nextType ∧ k.context < h.nextContext)
    ∨ ((∃ name, g.names .edgeType name = some k.edgeType)
      ∧ (k.context = 0 ∨ ∃ name, g.names .context name = some k.context)))

/-- **An edge that has passed the checks of a write.** -/
structure Admitted (db : Database) (k : EdgeKey) (bag : Bytes) : Prop where
  known : Known db.graph k
  source : db.validateEndpoint k.source = .ok ()
  destination : db.validateEndpoint k.destination = .ok ()
  bag : ∃ v, decodeProperties bag = .ok v

/-- The names and their header, and the edge tables' types. -/
structure Named (g g' : Keyspaces) : Prop where
  same : g' = { g with header := g'.header, names := g'.names, bound := g'.bound }
  header : g'.header.isSome
  grown : ∀ h h', g.header = some h → g'.header = some h' → ∀ kind, h.next kind ≤ h'.next kind
  /-- a name keeps its identity, a new one gets one that was not handed out before -/
  names : ∀ kind name id, g'.names kind name = some id → g.names kind name = some id
    ∨ ∃ h h', g'.header = some h' ∧ g.header.getD ⟨1, 1, 0, 0⟩ = h
      ∧ h.next kind ≤ id ∧ id < h'.next kind

/-- The keys a batch of tuple-keyed writes files: those of its new edges while the sets are kept. -/
structure Filing (db : Database) (bodies : List (EdgeKey × Bytes)) (keys : List EndpointKey) : Prop where
  sub : ∀ k ∈ keys, ∃ b ∈ bodies, k ∈ b.1.ends
  off : db.graph.endpointFeature = false → keys = []
  new : db.graph.endpointFeature = true → ∀ b ∈ bodies, (⟨b.1, 0⟩ : EdgeId) ∉ db.graph.primary.keys →
    ∀ k ∈ b.1.ends, k ∈ keys

/-- **One move of a graph request** that puts none but edges of `P` and takes none but edges of `T`. -/
inductive Move (P T : EdgeId → Prop) : Database → Database → Prop
  | user (db : Database) :
      Move P T db { db with tables := { db.tables with userWritesPending := true } }
  | names {db : Database} {g : Keyspaces} (h : Named db.graph g) : Move P T db { db with graph := g }
  | maintain (db : Database) : Move P T db db.endpointMaintenance.2
  | put {db : Database} (bodies : List (EdgeKey × Bytes)) (keys : List EndpointKey)
      (hP : ∀ b ∈ bodies, P ⟨b.1, 0⟩) (ha : ∀ b ∈ bodies, Admitted db b.1 b.2)
      (hk : Filing db bodies keys) :
      Move P T db
        ((bodies.foldl (fun db b => db.writeEdgePair ⟨b.1, 0⟩ b.2) db).insertEndpointKeys keys)
  | create {db db₁ db₂ : Database} {n : ℕ} (k : EdgeKey) (bag : Bytes) (keys : List EndpointKey)
      (hP : P ⟨k, n⟩) (ha : Admitted db k bag) (hn : db.allocateEdgeId = .ok (n, db₁))
      (h₂ : db₂ = (db₁.setGraph fun g => { g with edgeIdFeature := true }).endpointMaintenance.2)
      (hoff : db₂.graph.endpointFeature = false → keys = [])
      (hon : db₂.graph.endpointFeature = true → keys = k.ends) :
      Move P T db ((db₂.writeEdgePair ⟨k, n⟩ bag).insertEndpointKeys keys)
  | rebag {db : Database} {e : EdgeId} {bag : Bytes} (he : e ∈ db.graph.primary.keys)
      (hb : ∃ v, decodeProperties bag = .ok v) :
      Move P T db (db.setGraph fun g => { g with primary := g.primary.insert e bag })
  | remove {db : Database} (edges : List EdgeId) (keys : List EdgeKey) (hT : ∀ e ∈ edges, T e)
      (hk : ∀ e ∈ edges, e.key ∈ keys) :
      Move P T db ((db.deleteEdgePairs edges).removeEndpointKeysFor keys)

/-- Moves one after another. -/
def Moves (P T : EdgeId → Prop) : Database → Database → Prop := Relation.ReflTransGen (Move P T)

section

variable {db db' db₁ : Database} {k : EdgeKey} {e : EdgeId} {bag : Bytes} {properties : Json}
  {h : GraphHeader} {found : Bool} {id : EntityId} {P T : EdgeId → Prop}

lemma Move.moves (h : Move P T db db') : Moves P T db db' := .single h

lemma userWrite_ok (hok : db.userWrite = .ok db') :
    db.tables.failed = false
      ∧ db' = { db with tables := { db.tables with userWritesPending := true } } := by
  simp only [Database.userWrite, bind_eq_ok, pure_eq_ok] at hok
  obtain ⟨tables, ht, rfl⟩ := hok
  obtain ⟨hf, rfl⟩ := Engine.userWrite_ok ht
  exact ⟨hf, rfl⟩

lemma userWrite_moves (hok : db.userWrite = .ok db') : Moves P T db db' := by
  obtain ⟨-, rfl⟩ := userWrite_ok hok
  exact (Move.user db).moves

/-! ## Checks -/

lemma known_of_validate (hg : db.graph.header = some h)
    (hok : Database.validateEdgeIds h k = .ok ()) : Known db.graph k := by
  simp only [Database.validateEdgeIds, bind_eq_ok, refuse_eq_ok, not_or, not_le] at hok
  obtain ⟨_, ⟨h0, ht⟩, hc⟩ := hok
  exact ⟨h, hg, Or.inl ⟨h0, ht, hc⟩⟩

lemma encodeBag_ok (hok : db.encodeBag properties = .ok bag) : ∃ v, decodeProperties bag = .ok v := by
  simp only [Database.encodeBag, bind_eq_ok, refuse_eq_ok, pure_eq_ok] at hok
  obtain ⟨b, hb, _, -, rfl⟩ := hok
  exact decodeProperties_encodeProperties properties.2 hb

/-- What an endpoint has to be. -/
lemma validateEndpoint_iff : db.validateEndpoint id = .ok () ↔
    ¬ (id.collection = 0 ∨ id.sequence = 0) ∧ ¬ db.tables.dropping = some id.collection
      ∧ ¬ (db.endpointKnownLive id = false ∧ (db.tables.store.rows.lookup id).isNone) := by
  simp only [Database.validateEndpoint, bind_eq_ok, refuse_eq_ok, exists_const]

lemma validateEndpoints_ok {source destination : EntityId}
    (hok : db.validateEndpoints source destination = .ok ()) :
    db.validateEndpoint source = .ok () ∧ db.validateEndpoint destination = .ok () := by
  simp only [Database.validateEndpoints, bind_eq_ok] at hok
  obtain ⟨_, hs, hd⟩ := hok
  exact ⟨hs, hd⟩

lemma preflightEdgeId_true (hok : db.preflightEdgeId e = .ok true) : e ∈ db.graph.primary.keys := by
  rw [Database.preflightEdgeId] at hok
  split at hok
  · simp at hok
  · rename_i value hv
    rw [Finmap.mem_keys, ← Finmap.lookup_isSome, hv]
    rfl

lemma preflight_true (hok : db.preflightUnlessProvablyAbsent k = .ok true) :
    (⟨k, 0⟩ : EdgeId) ∈ db.graph.primary.keys := by
  rw [Database.preflightUnlessProvablyAbsent] at hok
  split_ifs at hok
  · cases hok
  · rw [Database.preflightEdgePair] at hok
    split at hok
    · rename_i value marker hv hm
      rw [Finmap.mem_keys, ← Finmap.lookup_isSome, hv]
      rfl
    · cases hok
    · cases hok

/-! ## The start of the sets -/

/-- The handle is right about whether the sets are kept. -/
structure Aware (db : Database) : Prop where
  older : db.keepsSets = false → db.graph.endpointFeature = false
  known : db.endpointState = some true → db.graph.endpointFeature = true

/-- What the probe before a write does. -/
lemma maintenance_cases (db : Database) :
    db.endpointMaintenance = (false, db) ∧ db.keepsSets = false
      ∨ db.endpointMaintenance = (true, db) ∧ db.keepsSets = true ∧ db.graph.endpointFeature = true
      ∨ (∃ known, db.endpointMaintenance = (known, db) ∧ db.keepsSets = true
          ∧ db.graph.endpointFeature = false ∧ db.endpointState = some known)
      ∨ db.endpointMaintenance = (true, { db with
          graph := { db.graph with endpointFeature := true }
          endpointState := some true }) ∧ db.keepsSets = true ∧ db.graph.endpointFeature = false
          ∧ db.endpointState = none ∧ db.graph.primary.keys = ∅ ∧ db.graph.reverse.keys = ∅
      ∨ db.endpointMaintenance = (false, { db with endpointState := some false })
          ∧ db.keepsSets = true ∧ db.graph.endpointFeature = false ∧ db.endpointState = none := by
  cases hk : db.keepsSets with
  | false => exact Or.inl ⟨by simp [Database.endpointMaintenance, hk], rfl⟩
  | true =>
      refine Or.inr ?_
      cases hf : db.graph.endpointFeature with
      | true => exact Or.inl ⟨by simp [Database.endpointMaintenance, hk, hf], rfl, rfl⟩
      | false =>
          refine Or.inr ?_
          cases hs : db.endpointState with
          | some known =>
              exact Or.inl ⟨known, by simp [Database.endpointMaintenance, hk, hf, hs], rfl, rfl, rfl⟩
          | none =>
              refine Or.inr ?_
              by_cases he : db.graph.primary.keys = ∅ ∧ db.graph.reverse.keys = ∅
              · exact Or.inl ⟨by simp [Database.endpointMaintenance, hk, hf, hs, he], rfl, rfl, rfl, he⟩
              · exact Or.inr ⟨by simp [Database.endpointMaintenance, hk, hf, hs, he], rfl, rfl, rfl⟩

/-- Nothing but the bit, and what the handle knows of it. -/
lemma maintenance_same (db : Database) : db.endpointMaintenance.2 = { db with
    graph := { db.graph with endpointFeature := db.endpointMaintenance.2.graph.endpointFeature }
    endpointState := db.endpointMaintenance.2.endpointState } := by
  rcases maintenance_cases db with ⟨h, -⟩ | ⟨h, -⟩ | ⟨known, h, -⟩ | ⟨h, -⟩ | ⟨h, -⟩
  all_goals rw [h]

/-- The write keeps the sets exactly when the file then declares them. -/
lemma Aware.maintain (h : Aware db) :
    Aware db.endpointMaintenance.2
      ∧ db.endpointMaintenance.1 = db.endpointMaintenance.2.graph.endpointFeature := by
  rcases maintenance_cases db with ⟨hm, hk⟩ | ⟨hm, -, hf⟩ | ⟨known, hm, -, hf, hs⟩
    | ⟨hm, hk, -⟩ | ⟨hm, hk, hf, -⟩
  · rw [hm]
    exact ⟨h, (h.older hk).symm⟩
  · rw [hm]
    exact ⟨h, hf.symm⟩
  · rw [hm]
    refine ⟨h, ?_⟩
    cases known with
    | true => exact (h.known hs).symm
    | false => exact hf.symm
  · rw [hm]
    refine ⟨⟨fun hk' => ?_, fun _ => rfl⟩, rfl⟩
    rw [hk] at hk'
    cases hk'
  · rw [hm]
    refine ⟨⟨h.older, fun hst => ?_⟩, hf.symm⟩
    cases hst

lemma validateEndpoint_congr (ht : db'.tables = db.tables) (hal : db'.allocated = db.allocated)
    (hid : db.validateEndpoint id = .ok ()) : db'.validateEndpoint id = .ok () := by
  rw [validateEndpoint_iff] at hid ⊢
  rwa [ht, Database.endpointKnownLive, hal]

lemma Admitted.congr (ha : Admitted db k bag) (hh : db'.graph.header = db.graph.header)
    (hn : db'.graph.names = db.graph.names) (ht : db'.tables = db.tables)
    (hal : db'.allocated = db.allocated) : Admitted db' k bag := by
  refine ⟨?_, validateEndpoint_congr ht hal ha.source, validateEndpoint_congr ht hal ha.destination,
    ha.bag⟩
  have := ha.known
  simp only [Known] at this ⊢
  rw [hh, hn]
  exact this

lemma Admitted.maintain (ha : Admitted db k bag) : Admitted db.endpointMaintenance.2 k bag := by
  rw [maintenance_same]
  exact ha.congr rfl rfl rfl rfl

/-! ## Writes -/

/-- One edge, with its ends when they are to be filed. -/
lemma put_one {m existed : Bool} (hm : m = db.graph.endpointFeature) (hP : P ⟨k, 0⟩)
    (ha : Admitted db k bag)
    (hex : existed = true → (⟨k, 0⟩ : EdgeId) ∈ db.graph.primary.keys) :
    Move P T db (if m ∧ existed = false then (db.writeEdgePair ⟨k, 0⟩ bag).insertEndpointKeys k.ends
      else db.writeEdgePair ⟨k, 0⟩ bag) := by
  have hadm : ∀ b ∈ [(k, bag)], Admitted db b.1 b.2 := by
    intro b hb
    rw [List.mem_singleton] at hb
    subst hb
    exact ha
  split_ifs with hc
  · refine Move.put [(k, bag)] k.ends (by simpa using hP) hadm ⟨fun x hx => ⟨(k, bag), by simp, hx⟩, fun hoff => ?_,
      fun _ b hb _ x hx => ?_⟩
    · rw [← hm, hc.1] at hoff
      cases hoff
    · rw [List.mem_singleton] at hb
      subst hb
      exact hx
  · refine Move.put [(k, bag)] [] (by simpa using hP) hadm ⟨by simp, fun _ => rfl, fun hon b hb hnot => ?_⟩
    rw [List.mem_singleton] at hb
    subst hb
    have hexists : existed = true := by
      rw [← hm] at hon
      by_contra hne
      exact hc ⟨hon, by simpa using hne⟩
    exact absurd (hex hexists) hnot

lemma putEdgeInner_moves {k' : EdgeKey} (ha : Aware db) (hP : P ⟨k, 0⟩)
    (hok : db.putEdgeInner k properties = .ok (k', db')) : Moves P T db db' := by
  simp only [Database.putEdgeInner, Database.graphHeader, bind_eq_ok, orElse_eq_ok, pure_eq_ok,
    Prod.mk.injEq] at hok
  obtain ⟨_, -, h, hh, _, hids, _, hends, bytes, hbag, existed, hex, -, rfl⟩ := hok
  obtain ⟨hs, hd⟩ := validateEndpoints_ok hends
  have hadm : Admitted db k bytes := ⟨known_of_validate hh hids, hs, hd, encodeBag_ok hbag⟩
  obtain ⟨-, hm⟩ := ha.maintain
  refine (Move.maintain db).moves.tail ?_
  refine put_one hm hP hadm.maintain fun he => ?_
  subst he
  rw [maintenance_same]
  exact preflight_true hex

lemma putEdge_moves {k' : EdgeKey} (ha : Aware db) (hP : P ⟨k, 0⟩)
    (hok : db.putEdge k properties = .ok (k', db')) : Moves P T db db' := by
  simp only [Database.putEdge, bind_eq_ok] at hok
  obtain ⟨_, -, hok⟩ := hok
  exact putEdgeInner_moves ha hP hok

/-! ## Names -/

/-- A name that is handed out. -/
lemma nextName_ok {kind : NameKind} {exhausted : String} {h h' : GraphHeader} {n : ℕ}
    (hok : Database.nextName kind exhausted h = .ok (n, h')) :
    n = h.next kind ∧ h'.next kind = n + 1 ∧ ∀ other, other ≠ kind → h'.next other = h.next other := by
  cases kind with
  | edgeType =>
      simp only [Database.nextName, bind_eq_ok, refuse_eq_ok, pure_eq_ok, Prod.mk.injEq] at hok
      obtain ⟨_, -, _, -, rfl, rfl⟩ := hok
      refine ⟨rfl, rfl, fun other hne => ?_⟩
      cases other with
      | edgeType => exact absurd rfl hne
      | context => rfl
  | context =>
      simp only [Database.nextName, bind_eq_ok, refuse_eq_ok, pure_eq_ok, Prod.mk.injEq] at hok
      obtain ⟨_, -, _, -, rfl, rfl⟩ := hok
      refine ⟨rfl, rfl, fun other hne => ?_⟩
      cases other with
      | edgeType => rfl
      | context => exact absurd rfl hne

lemma nextName_grown {kind : NameKind} {exhausted : String} {h h' : GraphHeader} {n : ℕ}
    (hok : Database.nextName kind exhausted h = .ok (n, h')) (other : NameKind) :
    h.next other ≤ h'.next other := by
  obtain ⟨hn, hn', hother⟩ := nextName_ok hok
  by_cases hk : other = kind
  · subst hk
    omega
  · exact (hother other hk).ge

lemma enableGraph_moves (hok : db.enableGraph = .ok db') : Moves P T db db' := by
  simp only [Database.enableGraph, bind_eq_ok] at hok
  obtain ⟨db₁, hu, hok⟩ := hok
  have huser : Moves P T db db₁ := userWrite_moves hu
  cases hh : db₁.graph.header with
  | some h =>
      rw [hh] at hok
      cases hok
      exact huser
  | none =>
      rw [hh] at hok
      cases hok
      refine huser.tail (Move.names ⟨rfl, rfl, fun h h' hgh _ => ?_, fun kind name id hid => Or.inl hid⟩)
      rw [hh] at hgh
      cases hgh

/-- One new name. -/
lemma named_save {kind : NameKind} {name exhausted : String} {h h' : GraphHeader} {n : ℕ}
    (hh : db.graph.header = some h) (hok : Database.nextName kind exhausted h = .ok (n, h')) :
    Named db.graph ((db.saveGraphName kind n name).saveGraphHeader h').graph := by
  obtain ⟨hn, hn', -⟩ := nextName_ok hok
  refine ⟨rfl, rfl, fun h₁ h₂ h₁eq h₂eq => ?_, fun kind' name' id hid => ?_⟩
  · rw [hh] at h₁eq
    cases h₁eq
    cases h₂eq
    exact nextName_grown hok
  · by_cases hkind : kind' = kind
    · subst hkind
      by_cases hname : name' = name
      · subst hname
        have hnid : n = id := by simpa [Database.saveGraphName, Database.saveGraphHeader, Database.setGraph] using hid
        subst hnid
        exact Or.inr ⟨h, h', rfl, by simp [hh], hn.ge, by omega⟩
      · refine Or.inl ?_
        simpa [Database.saveGraphName, Database.saveGraphHeader, Database.setGraph, hname] using hid
    · refine Or.inl ?_
      simpa [Database.saveGraphName, Database.saveGraphHeader, Database.setGraph, hkind] using hid

lemma createGraphName_moves {kind : NameKind} {name : String} {n : ℕ}
    (hok : db.createGraphName kind name = .ok (n, db')) : Moves P T db db' := by
  simp only [Database.createGraphName, Database.graphHeader, bind_eq_ok, orElse_eq_ok, pure_eq_ok,
    Prod.exists, Prod.mk.injEq] at hok
  obtain ⟨db₁, hu, _, -, h, hh, _, -, n', h', hnext, -, rfl⟩ := hok
  exact (userWrite_moves hu).tail (Move.names (named_save hh hnext))

lemma bindEdgeTable_moves {label table : String} {n : ℕ}
    (hok : db.bindEdgeTable label table = .ok (n, db')) : Moves P T db db' := by
  simp only [Database.bindEdgeTable, bind_eq_ok, pure_eq_ok, Prod.exists, Prod.mk.injEq] at hok
  obtain ⟨db₁, he, _, -, _, -, n', db₂, hname, -, rfl⟩ := hok
  refine ((enableGraph_moves he).trans (createGraphName_moves hname)).tail (Move.names ⟨rfl, ?_, ?_, ?_⟩)
  · simp only [Database.createGraphName, bind_eq_ok, pure_eq_ok, Prod.exists, Prod.mk.injEq] at hname
    obtain ⟨_, _, _, -, _, -, _, -, _, _, -, -, rfl⟩ := hname
    rfl
  · intro h h' hh hh'
    rw [hh] at hh'
    cases hh'
    exact fun kind => le_rfl
  · intro kind name id hid
    exact Or.inl hid

/-- A name's identity before it is saved: the one it had, or the next. -/
def Interns (g : Keyspaces) (kind : NameKind) (name : String) (h : GraphHeader) (n : ℕ) (new : Bool)
    (h' : GraphHeader) : Prop :=
  (g.names kind name = some n ∧ new = false ∧ h' = h)
    ∨ ∃ exhausted, g.names kind name = none ∧ Database.nextName kind exhausted h = .ok (n, h') ∧ new = true

lemma internName_ok {kind : NameKind} {name exhausted : String} {h h' : GraphHeader} {n : ℕ}
    {new : Bool} (hok : db.internName kind name exhausted h = .ok (n, new, h')) :
    Interns db.graph kind name h n new h' := by
  rw [Database.internName] at hok
  cases hname : db.graph.names kind name with
  | some id =>
      rw [hname] at hok
      cases hok
      exact Or.inl ⟨hname, rfl, rfl⟩
  | none =>
      rw [hname] at hok
      simp only [bind_eq_ok, pure_eq_ok, Prod.exists, Prod.mk.injEq] at hok
      obtain ⟨n', h₁, hnext, rfl, rfl, rfl⟩ := hok
      exact Or.inr ⟨exhausted, hname, hnext, rfl⟩

/-- The type's name, the context's and the header, as `link` saves them. -/
def Database.saveNames (db : Database) (edgeType context : String) (typeId contextId : ℕ)
    (newType newContext : Bool) (h : GraphHeader) : Database :=
  let db := if newType then db.saveGraphName .edgeType typeId edgeType else db
  let db := if newContext then db.saveGraphName .context contextId context else db
  if newType ∨ newContext then db.saveGraphHeader h else db

/-- What the names leave alone. -/
lemma saveNames_same (db : Database) (edgeType context : String) (typeId contextId : ℕ)
    (newType newContext : Bool) (h : GraphHeader) :
    db.saveNames edgeType context typeId contextId newType newContext h = { db with
      graph := { db.graph with
        header := (db.saveNames edgeType context typeId contextId newType newContext h).graph.header
        names := (db.saveNames edgeType context typeId contextId newType newContext h).graph.names } } := by
  cases newType <;> cases newContext <;> rfl

lemma saveNames_moves {edgeType context : String} {t c : ℕ} {newType newContext : Bool}
    {h h₁ h₂ : GraphHeader} (hh : db.graph.header = some h)
    (ht : Interns db.graph .edgeType edgeType h t newType h₁)
    (hc : c = 0 ∧ newContext = false ∧ h₂ = h₁ ∨ Interns db.graph .context context h₁ c newContext h₂) :
    Moves P T db (db.saveNames edgeType context t c newType newContext h₂)
      ∧ ∀ k : EdgeKey, k.edgeType = t → k.context = c →
          Known (db.saveNames edgeType context t c newType newContext h₂).graph k := by
  -- the type first, with its own header
  obtain ⟨hm₁, hh₁, hn₁⟩ : Moves P T db (db.saveNames edgeType context t c newType false h₁)
      ∧ (db.saveNames edgeType context t c newType false h₁).graph.header = some h₁
      ∧ (db.saveNames edgeType context t c newType false h₁).graph.names .edgeType edgeType = some t := by
    rcases ht with ⟨hname, rfl, rfl⟩ | ⟨exhausted, -, hnext, rfl⟩
    · exact ⟨.refl, hh, hname⟩
    · refine ⟨(Move.names (named_save hh hnext)).moves, rfl, ?_⟩
      simp [Database.saveNames, Database.saveGraphName, Database.saveGraphHeader, Database.setGraph]
  set db₁ := db.saveNames edgeType context t c newType false h₁ with hdb₁
  have hctx : ∀ name, db₁.graph.names .context name = db.graph.names .context name := by
    intro name
    rw [hdb₁]
    cases newType
    · rfl
    · simp [Database.saveNames, Database.saveGraphName, Database.saveGraphHeader, Database.setGraph]
  rcases hc with ⟨rfl, rfl, rfl⟩ | ⟨hname, rfl, rfl⟩ | ⟨exhausted, -, hnext, rfl⟩
  · refine ⟨hm₁, fun k hkt hkc => ⟨h₂, hh₁, Or.inr ⟨⟨edgeType, ?_⟩, Or.inl hkc⟩⟩⟩
    rw [hkt]
    exact hn₁
  · refine ⟨hm₁, fun k hkt hkc => ⟨h₂, hh₁, Or.inr ⟨⟨edgeType, ?_⟩, Or.inr ⟨context, ?_⟩⟩⟩⟩
    · rw [hkt]
      exact hn₁
    · rw [hkc]
      exact (hctx context).trans hname
  · have hlast : db.saveNames edgeType context t c newType true h₂
        = (db₁.saveGraphName .context c context).saveGraphHeader h₂ := by
      rw [hdb₁]
      cases newType <;> rfl
    rw [hlast]
    refine ⟨hm₁.tail (Move.names (named_save hh₁ hnext)), fun k hkt hkc => ⟨h₂, rfl, Or.inr ⟨⟨edgeType, ?_⟩,
      Or.inr ⟨context, ?_⟩⟩⟩⟩
    · rw [hkt]
      simpa [Database.saveGraphName, Database.saveGraphHeader, Database.setGraph] using hn₁
    · rw [hkc]
      simp [Database.saveGraphName, Database.saveGraphHeader, Database.setGraph]

/-- What a `link` that returns has checked, and what it leaves. -/
lemma link_ok {source destination : EntityId} {edgeType context : String} {k : EdgeKey}
    (hok : db.link source edgeType destination context properties = .ok (k, db')) :
    ∃ db₁ bytes h t newType h₁ c newContext h₂ existed, db.userWrite = .ok db₁
      ∧ db₁.validateEndpoints source destination = .ok () ∧ db₁.encodeBag properties = .ok bytes
      ∧ db₁.graph.header = some h ∧ Interns db₁.graph .edgeType edgeType h t newType h₁
      ∧ (context = "" ∧ (c = 0 ∧ newContext = false ∧ h₂ = h₁)
        ∨ context ≠ "" ∧ Interns db₁.graph .context context h₁ c newContext h₂)
      ∧ k = ⟨source, c, t, destination⟩ ∧ db₁.preflightUnlessProvablyAbsent k = .ok existed
      ∧ db' = (let db₂ := db₁.endpointMaintenance.2.saveNames edgeType context t c newType newContext h₂
          if db₁.endpointMaintenance.1 ∧ existed = false then
            (db₂.writeEdgePair ⟨k, 0⟩ bytes).insertEndpointKeys k.ends
          else db₂.writeEdgePair ⟨k, 0⟩ bytes) := by
  by_cases hctx : context = ""
  · simp only [Database.link, hctx, ne_eq, not_true_eq_false, if_false, if_true, Database.graphHeader,
      bind_eq_ok, orElse_eq_ok, pure_eq_ok, Prod.exists, Prod.mk.injEq] at hok
    obtain ⟨db₁, hu, _, -, _, hends, bytes, hbag, h, hh, t, newType, h₁, ht, c, newContext, h₂,
      ⟨rfl, rfl, rfl⟩, _, -, existed, hex, rfl, rfl⟩ := hok
    exact ⟨db₁, bytes, h, t, newType, h₁, 0, false, h₁, existed, hu, hends, hbag, hh,
      internName_ok ht, Or.inl ⟨hctx, rfl, rfl, rfl⟩, rfl, hex, by rw [hctx]; rfl⟩
  · simp only [Database.link, hctx, ne_eq, not_false_eq_true, if_false, if_true, Database.graphHeader,
      bind_eq_ok, orElse_eq_ok, pure_eq_ok, Prod.exists, Prod.mk.injEq] at hok
    obtain ⟨db₁, hu, _, -, _, -, _, hends, bytes, hbag, h, hh, t, newType, h₁, ht, c, newContext, h₂, hc,
      _, -, existed, hex, rfl, rfl⟩ := hok
    exact ⟨db₁, bytes, h, t, newType, h₁, c, newContext, h₂, existed, hu, hends, hbag, hh,
      internName_ok ht, Or.inr ⟨hctx, internName_ok hc⟩, rfl, hex, rfl⟩

lemma link_moves {source destination : EntityId} {edgeType context : String} {k : EdgeKey}
    (ha : Aware db) (hP : P ⟨k, 0⟩)
    (hok : db.link source edgeType destination context properties = .ok (k, db')) :
    Moves P T db db' := by
  obtain ⟨db₁, bytes, h, t, newType, h₁, c, newContext, h₂, existed, hu, hends, hbag, hh, ht, hc, rfl,
    hex, rfl⟩ := link_ok hok
  obtain ⟨-, rfl⟩ := userWrite_ok hu
  set db₁ : Database := { db with tables := { db.tables with userWritesPending := true } }
  have ha₁ : Aware db₁ := ⟨ha.older, ha.known⟩
  obtain ⟨-, hm⟩ := ha₁.maintain
  obtain ⟨hs, hd⟩ := validateEndpoints_ok hends
  have hsame := maintenance_same db₁
  set db₂ := db₁.endpointMaintenance.2
  have hh₂ : db₂.graph.header = some h := by
    rw [hsame]
    exact hh
  have ht₂ : Interns db₂.graph .edgeType edgeType h t newType h₁ := by
    rw [hsame]
    exact ht
  have hc₂ : c = 0 ∧ newContext = false ∧ h₂ = h₁
      ∨ Interns db₂.graph .context context h₁ c newContext h₂ := by
    rw [hsame]
    exact hc.imp (·.2) (·.2)
  obtain ⟨hsave, hknown⟩ := saveNames_moves hh₂ ht₂ hc₂
  have hnamed := saveNames_same db₂ edgeType context t c newType newContext h₂
  set db₃ := db₂.saveNames edgeType context t c newType newContext h₂
  have htables : db₃.tables = db₁.tables := by rw [hnamed, hsame]
  have hallocated : db₃.allocated = db₁.allocated := by rw [hnamed, hsame]
  have hfeature : db₂.graph.endpointFeature = db₃.graph.endpointFeature := by rw [hnamed]
  refine ((userWrite_moves hu).tail (Move.maintain db₁)).trans (hsave.tail ?_)
  refine put_one (hm.trans hfeature) hP ⟨hknown _ rfl rfl, validateEndpoint_congr htables hallocated hs,
    validateEndpoint_congr htables hallocated hd, encodeBag_ok hbag⟩ fun he => ?_
  subst he
  rw [hnamed, hsame]
  exact preflight_true hex

/-! ## Batches -/

lemma validateAll_ok {ids : List EntityId} (hok : db.validateAll ids = .ok ()) :
    ∀ id ∈ ids, db.validateEndpoint id = .ok () := by
  induction ids with
  | nil => simp
  | cons id ids ih =>
      simp only [Database.validateAll, bind_eq_ok] at hok
      obtain ⟨_, hid, hrest⟩ := hok
      rintro x (_ | ⟨_, hx⟩)
      · exact hid
      · exact ih hrest x hx

/-- Every body of a batch is one of its edges with the bag it encodes to. -/
lemma encodeAll_ok {context edgeType : ℕ} {edges : List NewEdge} {bodies : List (EdgeKey × Bytes)}
    (hok : db.encodeAll context edgeType edges = .ok bodies) :
    ∀ b ∈ bodies, (∃ e ∈ edges, b.1 = ⟨e.source, context, edgeType, e.destination⟩)
      ∧ ∃ v, decodeProperties b.2 = .ok v := by
  induction edges generalizing bodies with
  | nil =>
      cases hok
      simp
  | cons e edges ih =>
      simp only [Database.encodeAll, bind_eq_ok, pure_eq_ok] at hok
      obtain ⟨bytes, hbytes, rest, hrest, rfl⟩ := hok
      rintro b (_ | ⟨_, hb⟩)
      · exact ⟨⟨e, by simp, rfl⟩, encodeBag_ok hbytes⟩
      · obtain ⟨⟨x, hx, heq⟩, hv⟩ := ih hrest b hb
        exact ⟨⟨x, List.mem_cons_of_mem e hx, heq⟩, hv⟩

/-- The keys of the new edges of a batch. -/
lemma newEndpoints_ok {m : Bool} {ids : List EdgeId} {keys : Finset EndpointKey}
    (hid : ∀ e ∈ ids, e.id = 0) (hok : db.newEndpoints m ids = .ok keys) :
    (∀ k ∈ keys, ∃ e ∈ ids, k ∈ e.key.ends) ∧ (m = false → keys = ∅)
      ∧ (m = true → ∀ e ∈ ids, e ∉ db.graph.primary.keys → ∀ k ∈ e.key.ends, k ∈ keys) := by
  induction ids generalizing keys with
  | nil =>
      cases hok
      simp
  | cons e ids ih =>
      simp only [Database.newEndpoints, bind_eq_ok, pure_eq_ok] at hok
      obtain ⟨existed, hex, rest, hrest, rfl⟩ := hok
      obtain ⟨hsub, hoff, hon⟩ := ih (fun x hx => hid x (List.mem_cons_of_mem e hx)) hrest
      refine ⟨fun k hk => ?_, fun hm => ?_, fun hm x hx hnot k hk => ?_⟩
      · split_ifs at hk with hc
        · rcases Finset.mem_union.1 hk with hk | hk
          · obtain ⟨x, hx, hkx⟩ := hsub k hk
            exact ⟨x, List.mem_cons_of_mem e hx, hkx⟩
          · exact ⟨e, by simp, List.mem_toFinset.1 hk⟩
        · obtain ⟨x, hx, hkx⟩ := hsub k hk
          exact ⟨x, List.mem_cons_of_mem e hx, hkx⟩
      · simp [hm, hoff hm]
      · rcases List.mem_cons.1 hx with rfl | hx
        · have hnew : existed = false := by
            cases existed with
            | false => rfl
            | true =>
                have hkey : (⟨x.key, 0⟩ : EdgeId) = x := by
                  rw [← hid x (by simp)]
                exact absurd (hkey ▸ preflight_true hex) hnot
          simp [hm, hnew, List.mem_toFinset.2 hk]
        · have := hon hm x hx hnot k hk
          split_ifs
          · exact Finset.mem_union_left _ this
          · exact this

lemma linkMany_moves {context edgeType : ℕ} {edges : List NewEdge} {keys : List EdgeKey}
    (ha : Aware db) (hP : ∀ e ∈ edges, P ⟨⟨e.source, context, edgeType, e.destination⟩, 0⟩)
    (hok : db.linkMany context edgeType edges = .ok (keys, db')) : Moves P T db db' := by
  simp only [Database.linkMany, bind_eq_ok] at hok
  obtain ⟨_, -, _, -, hok⟩ := hok
  cases edges with
  | nil =>
      cases hok
      exact .refl
  | cons first rest =>
      simp only [Database.graphHeader, bind_eq_ok, orElse_eq_ok, pure_eq_ok, Prod.mk.injEq] at hok
      obtain ⟨h, hh, _, hids, _, hends, bodies, hbodies, filed, hfiled, -, rfl⟩ := hok
      obtain ⟨-, hm⟩ := ha.maintain
      set db₁ := db.endpointMaintenance.2 with hdb₁
      have hheader : db₁.graph.header = some h := by
        rw [hdb₁, maintenance_same]
        exact hh
      have hadm : ∀ b ∈ bodies, Admitted db₁ b.1 b.2 := by
        intro b hb
        obtain ⟨⟨e, he, hkey⟩, hv⟩ := encodeAll_ok hbodies b hb
        have hlive : ∀ id, id = e.source ∨ id = e.destination → db₁.validateEndpoint id = .ok () := by
          intro id hid
          refine validateAll_ok hends id ?_
          rw [mem_ascending, List.mem_toFinset, List.mem_flatMap]
          exact ⟨e, he, by rcases hid with rfl | rfl <;> simp⟩
        refine ⟨known_of_validate hheader ?_, ?_, ?_, hv⟩
        · rw [hkey]
          exact hids
        · rw [hkey]
          exact hlive _ (Or.inl rfl)
        · rw [hkey]
          exact hlive _ (Or.inr rfl)
      have hPb : ∀ b ∈ bodies, P ⟨b.1, 0⟩ := by
        intro b hb
        obtain ⟨⟨e, he, hkey⟩, -⟩ := encodeAll_ok hbodies b hb
        rw [hkey]
        exact hP e he
      have hzero : ∀ e ∈ ascending (bodies.map fun b => (⟨b.1, 0⟩ : EdgeId)).toFinset, e.id = 0 := by
        intro e he
        simp only [mem_ascending, List.mem_toFinset, List.mem_map] at he
        obtain ⟨b, -, rfl⟩ := he
        rfl
      obtain ⟨hsub, hoff, hon⟩ := newEndpoints_ok hzero hfiled
      refine (Move.maintain db).moves.tail (Move.put bodies _ hPb hadm ⟨?_, ?_, ?_⟩)
      · intro k hk
        obtain ⟨e, he, hke⟩ := hsub k (mem_ascending.1 hk)
        simp only [mem_ascending, List.mem_toFinset, List.mem_map] at he
        obtain ⟨b, hb, rfl⟩ := he
        exact ⟨b, hb, hke⟩
      · intro hf
        rw [hoff (hm.trans hf), ascending_empty]
      · intro hf b hb hnot k hk
        refine mem_ascending.2 (hon (hm.trans hf) ⟨b.1, 0⟩ ?_ hnot k hk)
        simp only [mem_ascending, List.mem_toFinset, List.mem_map]
        exact ⟨b, hb, rfl⟩

/-! ## Edges with an id -/

/-- Nothing but the allocator. -/
lemma allocateEdgeId_same {n : ℕ} (hok : db.allocateEdgeId = .ok (n, db')) : db' = { db with
    edgeIdNext := db'.edgeIdNext
    edgeIdBlock := db'.edgeIdBlock
    edgeIdDirty := db'.edgeIdDirty } := by
  rw [Database.allocateEdgeId] at hok
  split at hok
  · simp only [bind_eq_ok, pure_eq_ok, Prod.exists, Prod.mk.injEq] at hok
    obtain ⟨_, _, -, _, _, -, _, -, -, rfl⟩ := hok
    rfl
  · simp only [bind_eq_ok, pure_eq_ok, Prod.mk.injEq] at hok
    obtain ⟨_, -, _, -, -, rfl⟩ := hok
    rfl

lemma createEdgeInner_moves (ha : Aware db) (hP : P e)
    (hok : db.createEdgeInner k properties = .ok (e, db')) : Moves P T db db' := by
  simp only [Database.createEdgeInner, Database.graphHeader, bind_eq_ok, orElse_eq_ok, refuse_eq_ok,
    pure_eq_ok, Prod.exists, Prod.mk.injEq] at hok
  obtain ⟨db₁, hu, h, hh, _, hids, _, hends, bytes, hbag, n, db₂, hn, _, -, rfl, rfl⟩ := hok
  obtain ⟨hs, hd⟩ := validateEndpoints_ok hends
  obtain ⟨-, rfl⟩ := userWrite_ok hu
  have hsame := allocateEdgeId_same hn
  have ha₂ : Aware (db₂.setGraph fun g => { g with edgeIdFeature := true }) := by
    rw [hsame]
    exact ⟨ha.older, ha.known⟩
  obtain ⟨-, hm⟩ := ha₂.maintain
  have hadm : Admitted { db with tables := { db.tables with userWritesPending := true } } k bytes :=
    ⟨known_of_validate hh hids, hs, hd, encodeBag_ok hbag⟩
  set db₃ := (db₂.setGraph fun g => { g with edgeIdFeature := true }).endpointMaintenance.2 with hdb₃
  refine (userWrite_moves hu).tail ?_
  rw [hm]
  split_ifs with hf
  · exact Move.create k bytes k.ends hP hadm hn hdb₃ (fun hoff => absurd (hf.symm.trans hoff) (by simp))
      fun _ => rfl
  · exact Move.create k bytes [] hP hadm hn hdb₃ (fun _ => rfl) fun hon => absurd hon hf

lemma createEdge_moves (ha : Aware db) (hP : P e)
    (hok : db.createEdge k properties = .ok (e, db')) : Moves P T db db' := by
  simp only [Database.createEdge, bind_eq_ok] at hok
  obtain ⟨_, -, hok⟩ := hok
  exact createEdgeInner_moves ha hP hok

lemma updateEdgeInner_moves (hok : db.updateEdgeInner e properties = .ok (found, db')) :
    Moves P T db db' := by
  simp only [Database.updateEdgeInner, Database.graphHeader, bind_eq_ok, orElse_eq_ok] at hok
  obtain ⟨db₁, hu, h, -, _, -, bytes, hbag, found', hfound, hok⟩ := hok
  cases found' with
  | false =>
      simp only [Bool.false_eq_true, if_false, pure_eq_ok, Prod.mk.injEq] at hok
      obtain ⟨-, rfl⟩ := hok
      exact userWrite_moves hu
  | true =>
      simp only [if_true, pure_eq_ok, Prod.mk.injEq] at hok
      obtain ⟨-, rfl⟩ := hok
      exact (userWrite_moves hu).tail (Move.rebag (preflightEdgeId_true hfound) (encodeBag_ok hbag))

lemma updateEdgeProperties_moves (hok : db.updateEdgeProperties e properties = .ok (found, db')) :
    Moves P T db db' := by
  simp only [Database.updateEdgeProperties, bind_eq_ok] at hok
  obtain ⟨_, -, hok⟩ := hok
  exact updateEdgeInner_moves hok

lemma putEdgeTyped_moves {k' : EdgeKey} (ha : Aware db) (hP : P ⟨k, 0⟩)
    (hok : db.putEdgeTyped k properties = .ok (k', db')) : Moves P T db db' := by
  simp only [Database.putEdgeTyped, bind_eq_ok] at hok
  obtain ⟨db₁, hu, hok⟩ := hok
  obtain ⟨-, rfl⟩ := userWrite_ok hu
  exact (userWrite_moves hu).trans (putEdgeInner_moves ⟨ha.older, ha.known⟩ hP hok)

/-! ## Deletes -/

lemma deleteEdgeById_moves (hT : T e) (hok : db.deleteEdgeById e = .ok (found, db')) :
    Moves P T db db' := by
  simp only [Database.deleteEdgeById, Database.graphHeader, bind_eq_ok, orElse_eq_ok] at hok
  obtain ⟨db₁, hu, h, -, _, -, found', -, hok⟩ := hok
  cases found' with
  | false =>
      simp only [Bool.false_eq_true, if_false, pure_eq_ok, Prod.mk.injEq] at hok
      obtain ⟨-, rfl⟩ := hok
      exact userWrite_moves hu
  | true =>
      simp only [if_true, pure_eq_ok, Prod.mk.injEq] at hok
      obtain ⟨-, rfl⟩ := hok
      exact (userWrite_moves hu).tail (Move.remove [e] [e.key] (by simpa using hT) (by simp))

/-- The edges of a tuple have its key. -/
lemma tupleEdges_key {edges : List EdgeId} (hok : db.tupleEdges k = .ok edges) :
    ∀ e ∈ edges, e.key = k := by
  simp only [Database.tupleEdges, bind_eq_ok, refuse_eq_ok, pure_eq_ok] at hok
  obtain ⟨_, -, _, -, _, -, rfl⟩ := hok
  intro e he
  exact (Finset.mem_filter.1 (Scan.mem_of_mem_take he).1).2

lemma deleteEdge_moves (hT : ∀ e : EdgeId, e.key = k → T e)
    (hok : db.deleteEdge k = .ok (found, db')) : Moves P T db db' := by
  simp only [Database.deleteEdge, Database.graphHeader, bind_eq_ok, orElse_eq_ok] at hok
  obtain ⟨db₁, hu, h, -, _, -, edges, hedges, hok⟩ := hok
  split at hok
  · simp only [pure_eq_ok, Prod.mk.injEq] at hok
    obtain ⟨-, rfl⟩ := hok
    exact userWrite_moves hu
  · simp only [bind_eq_ok, pure_eq_ok, Prod.mk.injEq] at hok
    obtain ⟨_, -, -, rfl⟩ := hok
    have hkey := tupleEdges_key hedges
    refine (userWrite_moves hu).tail (Move.remove edges [k] (fun e he => hT e (hkey e he)) fun e he => ?_)
    rw [hkey e he]
    exact List.mem_singleton_self k

/-- An edge under the names an `unlink` is given. -/
def NamedEdge (g : Keyspaces) (source : EntityId) (edgeType : String) (destination : EntityId)
    (context : String) (e : EdgeId) : Prop :=
  e.key.source = source ∧ e.key.destination = destination
    ∧ g.names .edgeType edgeType = some e.key.edgeType
    ∧ (if context = "" then some 0 else g.names .context context) = some e.key.context

lemma unlinkNamed_moves {source destination : EntityId} {edgeType context : String}
    (hT : ∀ e, NamedEdge db.graph source edgeType destination context e → T e)
    (hok : db.unlinkNamed source edgeType destination context = .ok (found, db')) :
    Moves P T db db' := by
  rw [Database.unlinkNamed] at hok
  split at hok
  · cases hok
    exact .refl
  · rename_i t ht
    split at hok
    · cases hok
      exact .refl
    · rename_i c hc
      refine deleteEdge_moves (fun e he => hT e ?_) hok
      rw [NamedEdge, he]
      exact ⟨rfl, rfl, ht, hc⟩

lemma unlink_moves {source destination : EntityId} {edgeType context : String}
    (hT : ∀ e, NamedEdge db.graph source edgeType destination context e → T e)
    (hok : db.unlink source edgeType destination context = .ok (found, db')) : Moves P T db db' := by
  simp only [Database.unlink, bind_eq_ok] at hok
  obtain ⟨db₁, hu, _, -, hok⟩ := hok
  refine (userWrite_moves hu).trans ?_
  obtain ⟨-, rfl⟩ := userWrite_ok hu
  split at hok
  · simp only [bind_eq_ok] at hok
    obtain ⟨_, -, _, -, hok⟩ := hok
    exact unlinkNamed_moves hT hok
  · simp only [bind_eq_ok] at hok
    obtain ⟨_, -, hok⟩ := hok
    exact unlinkNamed_moves hT hok

/-- An entity is an end of an edge. -/
def EdgeKey.At (k : EdgeKey) (id : EntityId) : Prop := k.source = id ∨ k.destination = id

/-- What is collected is what was there, and the postings that were walked. -/
lemma collectIncident_ok {d : Dir} {postings : List EdgeId} {edges edges' : Finset EdgeId}
    (hok : db.collectIncident h d postings edges = .ok edges') :
    edges' = edges ∪ postings.toFinset ∧ ∀ x ∈ postings, db.checkIncident h d x = .ok () := by
  induction postings generalizing edges with
  | nil =>
      cases hok
      simp
  | cons x rest ih =>
      simp only [Database.collectIncident, bind_eq_ok, refuse_eq_ok] at hok
      obtain ⟨_, hx, _, -, hok⟩ := hok
      obtain ⟨rfl, hrest⟩ := ih hok
      refine ⟨?_, ?_⟩
      · ext y
        simp
      · rintro y (_ | ⟨_, hy⟩)
        · exact hx
        · exact hrest y hy

/-- The edges that go with a row: all that it is an end of. -/
lemma preflightIncidentEdges_ok {edges : List EdgeId} (hok : db.preflightIncidentEdges id = .ok edges) :
    (∀ e ∈ edges, e.key.At id) ∧ (db.graph.header.isSome → ∀ d, ∀ e ∈ db.graph.incident d id, e ∈ edges) := by
  rw [Database.preflightIncidentEdges] at hok
  cases hh : db.graph.header with
  | none =>
      rw [hh] at hok
      cases hok
      simp
  | some h =>
      rw [hh] at hok
      simp only [bind_eq_ok, pure_eq_ok] at hok
      obtain ⟨es, hout, es', hinto, rfl⟩ := hok
      obtain ⟨rfl, -⟩ := collectIncident_ok hout
      obtain ⟨rfl, -⟩ := collectIncident_ok hinto
      refine ⟨fun e he => ?_, fun _ d e he => ?_⟩
      · simp only [mem_ascending, Finset.mem_union, Finset.notMem_empty, false_or,
          List.mem_toFinset, Keyspaces.incident, Finset.mem_filter] at he
        exact he.imp (·.2) (·.2)
      · simp only [mem_ascending, Finset.mem_union, Finset.notMem_empty, false_or, List.mem_toFinset]
        cases d with
        | out => exact Or.inl he
        | into => exact Or.inr he

lemma cascadeGraphDelete_moves (hT : ∀ e : EdgeId, e.key.At id → T e)
    (hok : db.cascadeGraphDelete id = .ok db') : Moves P T db db' := by
  simp only [Database.cascadeGraphDelete, bind_eq_ok, pure_eq_ok] at hok
  obtain ⟨edges, hedges, rfl⟩ := hok
  refine (Move.remove edges _ (fun e he => ?_) fun e he => List.mem_map_of_mem he).moves
  exact hT e ((preflightIncidentEdges_ok hedges).1 e he)

end

/-! ## Requests -/

/-- The identity a name has, or the one it would be given. -/
def Database.identity (db : Database) (kind : NameKind) (name : String) : ℕ :=
  (db.graph.names kind name).getD (db.graph.header.elim 0 fun h => h.next kind)

/-- The requests that are made of the graph alone, but for the building of its endpoint sets. -/
def Request.onGraph : Request → Bool
  | .tables _ | .deletePage _ _ _ | .beginDropCollection _ _ | .backfillEndpointSets _ => false
  | _ => true

/-- The edges a request puts. -/
def Puts (db : Database) : Request → EdgeId → Prop
  | .putEdge k _, e | .putEdgeTyped k _, e => e = ⟨k, 0⟩
  | .linkMany context edgeType edges, e =>
      ∃ x ∈ edges, e = ⟨⟨x.source, context, edgeType, x.destination⟩, 0⟩
  | .link source edgeType destination context _, e =>
      e = ⟨⟨source, if context = "" then 0 else db.identity .context context,
        db.identity .edgeType edgeType, destination⟩, 0⟩
  | .createEdge k _, e | .createEdgeTyped k _, e =>
      e.key = k ∧ Prod.fst <$> db.allocateEdgeId = .ok e.id
  | _, _ => False

/-- The rows a request deletes. -/
def Forgets (db : Database) : Request → EntityId → Prop
  | .tables (.delete _ c key), id => ∃ seq, db.tables.store.mapping.lookup (c, key) = some seq ∧ id = ⟨c, seq⟩
  | .tables (.deletePage _ page), id | .deletePage _ _ page, id => ∃ row ∈ page, row.2 = id
  | .tables (.dropCollectionStep o c budget), id =>
      id.collection = c ∧ ∃ done tables, db.tables.dropCollectionStep o c budget = .ok (done, tables)
        ∧ id.sequence ∈ db.tables.store.live c \ tables.store.live c
  | _, _ => False

/-- The edges a request takes away. -/
def Takes (db : Database) : Request → EdgeId → Prop
  | .deleteEdge k, e => e.key = k
  | .deleteEdgeById e', e => e = e'
  | .unlink source edgeType destination context, e =>
      NamedEdge db.graph source edgeType destination context e
  | r, e => ∃ id, Forgets db r id ∧ e.key.At id

section

variable {db db' : Database} {k : EdgeKey} {e : EdgeId} {properties : Json} {found : Bool}

/-- The pending flag is nothing to the allocator. -/
lemma allocateEdgeId_pending (db : Database) :
    Prod.fst <$> { db with tables := { db.tables with userWritesPending := true } }.allocateEdgeId
      = Prod.fst <$> db.allocateEdgeId := by
  simp only [Database.allocateEdgeId, Database.edgeIdPosition, Database.reserveEdgeIds,
    Database.nextEdgeId, Database.storedEdgeId]
  split <;> simp [map_bind]

lemma createEdgeInner_id (hok : db.createEdgeInner k properties = .ok (e, db')) :
    e.key = k ∧ Prod.fst <$> db.allocateEdgeId = .ok e.id := by
  simp only [Database.createEdgeInner, bind_eq_ok, pure_eq_ok, Prod.exists, Prod.mk.injEq] at hok
  obtain ⟨db₁, hu, _, -, _, -, _, -, _, -, n, db₂, hn, _, -, rfl, -⟩ := hok
  obtain ⟨-, rfl⟩ := userWrite_ok hu
  refine ⟨rfl, ?_⟩
  rw [← allocateEdgeId_pending, hn]
  rfl

/-- The identity `link` uses is the one the name has, or would be given. -/
lemma Interns.identity {kind : NameKind} {name : String} {h h₁ h₂ : GraphHeader} {n : ℕ} {new : Bool}
    (hi : Interns db.graph kind name h₁ n new h₂) (hh : db.graph.header = some h)
    (hsame : h₁.next kind = h.next kind) : n = db.identity kind name := by
  rcases hi with ⟨hname, -⟩ | ⟨exhausted, hname, hnext, -⟩
  · simp [Database.identity, hname]
  · simp [Database.identity, hname, hh, (nextName_ok hnext).1, hsame]

lemma link_key {source destination : EntityId} {edgeType context : String}
    (hok : db.link source edgeType destination context properties = .ok (k, db')) :
    k = ⟨source, if context = "" then 0 else db.identity .context context,
      db.identity .edgeType edgeType, destination⟩ := by
  obtain ⟨db₁, bytes, h, t, newType, h₁, c, newContext, h₂, existed, hu, -, -, hh, ht, hc, rfl, -⟩ :=
    link_ok hok
  obtain ⟨-, rfl⟩ := userWrite_ok hu
  have hcontext : h₁.next .context = h.next .context := by
    rcases ht with ⟨-, -, rfl⟩ | ⟨exhausted, -, hnext, -⟩
    · rfl
    · exact (nextName_ok hnext).2.2 .context (by simp)
  rw [ht.identity hh rfl]
  rcases hc with ⟨rfl, rfl, -⟩ | ⟨hne, hc⟩
  · rfl
  · rw [hc.identity hh hcontext, if_neg hne]
    rfl

/-- **What a request of the graph comes down to.** -/
lemma call_moves {r : Request} (ha : Aware db) (hr : r.onGraph = true) (hok : db.call r = .ok db') :
    Moves (Puts db r) (Takes db r) db db' := by
  cases r with
  | tables r => cases hr
  | deletePage c mode page => cases hr
  | beginDropCollection c mode => cases hr
  | backfillEndpointSets budget => cases hr
  | enableGraph => exact enableGraph_moves hok
  | createGraphName kind name =>
      simp only [Database.call, map_eq_ok, Prod.exists, exists_eq_right] at hok
      obtain ⟨n, hok⟩ := hok
      exact createGraphName_moves hok
  | bindEdgeTable label table =>
      simp only [Database.call, map_eq_ok, Prod.exists, exists_eq_right] at hok
      obtain ⟨n, hok⟩ := hok
      exact bindEdgeTable_moves hok
  | putEdge k properties =>
      simp only [Database.call, map_eq_ok, Prod.exists, exists_eq_right] at hok
      obtain ⟨k', hok⟩ := hok
      exact putEdge_moves ha rfl hok
  | linkMany context edgeType edges =>
      simp only [Database.call, map_eq_ok, Prod.exists, exists_eq_right] at hok
      obtain ⟨keys, hok⟩ := hok
      exact linkMany_moves ha (fun e he => ⟨e, he, rfl⟩) hok
  | link source edgeType destination context properties =>
      simp only [Database.call, map_eq_ok, Prod.exists, exists_eq_right] at hok
      obtain ⟨k', hok⟩ := hok
      exact link_moves ha (congrArg (EdgeId.mk · 0) (link_key hok)) hok
  | createEdge k properties =>
      simp only [Database.call, map_eq_ok, Prod.exists, exists_eq_right] at hok
      obtain ⟨e, hok⟩ := hok
      refine createEdge_moves ha ?_ hok
      simp only [Database.createEdge, bind_eq_ok] at hok
      obtain ⟨_, -, hok⟩ := hok
      exact createEdgeInner_id hok
  | updateEdgeProperties e properties =>
      simp only [Database.call, map_eq_ok, Prod.exists, exists_eq_right] at hok
      obtain ⟨found, hok⟩ := hok
      exact updateEdgeProperties_moves hok
  | deleteEdge k =>
      simp only [Database.call, map_eq_ok, Prod.exists, exists_eq_right] at hok
      obtain ⟨found, hok⟩ := hok
      exact deleteEdge_moves (fun e he => he) hok
  | deleteEdgeById e =>
      simp only [Database.call, map_eq_ok, Prod.exists, exists_eq_right] at hok
      obtain ⟨found, hok⟩ := hok
      exact deleteEdgeById_moves rfl hok
  | unlink source edgeType destination context =>
      simp only [Database.call, map_eq_ok, Prod.exists, exists_eq_right] at hok
      obtain ⟨found, hok⟩ := hok
      exact unlink_moves (fun e he => he) hok
  | putEdgeTyped k properties =>
      simp only [Database.call, map_eq_ok, Prod.exists, exists_eq_right] at hok
      obtain ⟨k', hok⟩ := hok
      exact putEdgeTyped_moves ha rfl hok
  | createEdgeTyped k properties =>
      simp only [Database.call, map_eq_ok, Prod.exists, exists_eq_right] at hok
      obtain ⟨e, hok⟩ := hok
      exact createEdgeInner_moves ha (createEdgeInner_id hok) hok
  | writeEdgeBag e properties =>
      simp only [Database.call, map_eq_ok, Prod.exists, exists_eq_right] at hok
      obtain ⟨found, hok⟩ := hok
      exact updateEdgeInner_moves hok

end

end Engine.Graph
