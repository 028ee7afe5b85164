import Sekejap.Collections.OrderedKey
import Sekejap.Graph.Edges

/-!
# Edge keys as bytes

An edge is stored under two keys (`core/engine/src/index/graph/mod.rs`): a tag and the numbers of its near
end, its context, its type and its far end, and then its id if it has one.  Each number says where it
ends, so a key is known by the list of its numbers (`edgeKeyId_eq`), and what holds of the lists holds
of the keys: one is a prefix of another when its numbers are the other's first, and keys are in the
order of their numbers.

`edge_keys` puts the results together: keys are read back, distinct edges have distinct keys, a prefix
is one of the keys of the edges it names, and a scan that seeks past a run of keys skips that run.
-/

open Collections (EntityId)

open Bytes Fallible

namespace Engine.Graph

/-! ## Writing -/

/-- `PRIMARY_EDGE` and `REVERSE_EDGE` -/
def Dir.tag : Dir → UInt8
  | .out => 0x71
  | .into => 0x72

/-- The other direction. -/
def Dir.flip : Dir → Dir
  | .out => .into
  | .into => .out

/-- `append_entity` -/
def appendEntity (id : EntityId) : Bytes := orderedInto id.collection ++ orderedInto id.sequence

/-- `edge_key_id`: the key of an edge in a direction. -/
def edgeKeyId (d : Dir) (edge : EdgeKey) (id : ℕ) : Bytes :=
  d.tag :: (appendEntity (edge.near d) ++ orderedInto edge.context ++ orderedInto edge.edgeType ++
    appendEntity (edge.near d.flip) ++ if id ≠ 0 then orderedInto id else [])

/-- `edge_key`: the key of the edge of id 0. -/
def edgeKey (d : Dir) (edge : EdgeKey) : Bytes := edgeKeyId d edge 0

/-- `edge_prefix` -/
def edgePrefix (d : Dir) (entity : EntityId) (context edgeType : Option ℕ) : Bytes :=
  d.tag :: (appendEntity entity ++
    match context with
    | none => []
    | some context => orderedInto context ++
        match edgeType with
        | none => []
        | some edgeType => orderedInto edgeType)

/-! ## Reading -/

/-- `read_entity` -/
def readEntity (b : Bytes) : Except Error (EntityId × Bytes) := do
  let (collection, b) ← readOrdered b
  refuse (2 ^ 32 ≤ collection) (.corrupt "out of range integral type conversion attempted")
  let (sequence, b) ← readOrdered b
  refuse (collection = 0 ∨ sequence = 0) (.corrupt "graph entity identity")
  pure (⟨collection, sequence⟩, b)

/-- `read_edge_id`: the id at the end of a key. -/
def readEdgeId (b : Bytes) : Except Error ℕ :=
  if b = [] then
    .ok 0
  else do
    let (id, rest) ← readOrdered b
    refuse (id = 0 ∨ rest ≠ []) (.corrupt "graph edge id segment")
    pure id

/-- `parse_edge` -/
def parseEdge (key : Bytes) (d : Dir) : Except Error (EdgeKey × ℕ) := do
  refuse (key.head? ≠ some d.tag) (.corrupt "graph edge key tag")
  let (first, b) ← readEntity key.tail
  let (context, b) ← readOrdered b
  let (edgeType, b) ← readOrdered b
  let (last, b) ← readEntity b
  refuse (edgeType = 0) (.corrupt "graph edge key fields")
  let id ← (readEdgeId b).mapError fun _ => .corrupt "graph edge key fields"
  pure <| match d with
    | .out => (⟨first, context, edgeType, last⟩, id)
    | .into => (⟨last, context, edgeType, first⟩, id)

/-! ## Numbers -/

/-- A row's numbers are a `u32` and a `u64`. -/
def InWords (id : EntityId) : Prop := id.collection < 2 ^ 32 ∧ id.sequence < 2 ^ 64

/-- The numbers of an edge are those of its words. -/
structure EdgeId.InWords (e : EdgeId) : Prop where
  source : Graph.InWords e.key.source
  context : e.key.context < 2 ^ 64
  edgeType : e.key.edgeType < 2 ^ 64
  destination : Graph.InWords e.key.destination
  id : e.id < 2 ^ 64

/-- What no stored edge is without: rows and types are numbered from one. -/
structure EdgeKey.Identified (k : EdgeKey) : Prop where
  source : k.source.collection ≠ 0 ∧ k.source.sequence ≠ 0
  edgeType : k.edgeType ≠ 0
  destination : k.destination.collection ≠ 0 ∧ k.destination.sequence ≠ 0

/-- The numbers of a row. -/
def entityParts (id : EntityId) : List ℕ := [id.collection, id.sequence]

/-- The numbers of an edge's key. -/
def EdgeId.parts (d : Dir) (e : EdgeId) : List ℕ :=
  entityParts (e.key.near d) ++ [e.key.context, e.key.edgeType] ++ entityParts (e.key.near d.flip) ++
    if e.id ≠ 0 then [e.id] else []

/-- The numbers of a prefix. -/
def prefixParts (entity : EntityId) (context edgeType : Option ℕ) : List ℕ :=
  entityParts entity ++ context.elim [] fun c => c :: edgeType.toList

section Parts

variable {d : Dir} {e f : EdgeId} {entity : EntityId} {context edgeType : Option ℕ}

lemma edgeKeyId_eq : edgeKeyId d e.key e.id = d.tag :: (e.parts d).flatMap orderedInto := by
  rw [edgeKeyId, EdgeId.parts]
  split <;> simp [appendEntity, entityParts]

lemma edgePrefix_eq : edgePrefix d entity context edgeType =
    d.tag :: (prefixParts entity context edgeType).flatMap orderedInto := by
  cases context with
  | none => simp [edgePrefix, prefixParts, appendEntity, entityParts]
  | some context => cases edgeType <;> simp [edgePrefix, prefixParts, appendEntity, entityParts]

lemma InWords.parts (h : InWords entity) : ∀ x ∈ entityParts entity, x < 256 ^ 8 := by
  simp only [entityParts, List.mem_cons, List.not_mem_nil, or_false, forall_eq_or_imp, forall_eq]
  exact ⟨h.1.trans (by norm_num), h.2⟩

lemma EdgeId.InWords.near (h : e.InWords) : ∀ d, Graph.InWords (e.key.near d)
  | .out => h.source
  | .into => h.destination

lemma EdgeId.InWords.parts (h : e.InWords) : ∀ x ∈ e.parts d, x < 256 ^ 8 := by
  intro x hx
  rw [EdgeId.parts, List.mem_append, List.mem_append, List.mem_append] at hx
  rcases hx with ((hx | hx) | hx) | hx
  · exact (h.near d).parts x hx
  · rcases List.mem_pair.mp hx with rfl | rfl
    · exact h.context
    · exact h.edgeType
  · exact (h.near d.flip).parts x hx
  · split at hx
    · rw [List.mem_singleton.mp hx]
      exact h.id
    · cases hx

/-! ## Keys are read back -/

lemma readEntity_append (h : InWords entity) {rest : Bytes} {p : EntityId × Bytes} :
    readEntity (appendEntity entity ++ rest) = .ok p ↔
      (entity.collection ≠ 0 ∧ entity.sequence ≠ 0) ∧ (entity, rest) = p := by
  have hcollection : entity.collection < 256 ^ 8 := h.1.trans (by norm_num)
  have hsequence : entity.sequence < 256 ^ 8 := h.2
  have hwide : entity.collection < 2 ^ 32 := h.1
  simp [-Nat.reducePow, readEntity, appendEntity, readOrdered_orderedInto hcollection,
    readOrdered_orderedInto hsequence, hwide]

lemma readEdgeId_ordered {id : ℕ} (h : id < 2 ^ 64) :
    readEdgeId (if id = 0 then [] else orderedInto id) = .ok id := by
  by_cases hid : id = 0
  · simp [readEdgeId, hid]
  · have hne : orderedInto id ≠ [] := partCode_orderedInto.ne_nil id
    have hread := readOrdered_orderedInto h []
    rw [List.append_nil] at hread
    simp [readEdgeId, hid, hne, hread, refuse]

/-- **A key is read back when its rows and its type have numbers, and refused when one has none.** -/
lemma parseEdge_edgeKeyId (h : e.InWords) :
    parseEdge (edgeKeyId d e.key e.id) d = .ok (e.key, e.id) ↔ e.key.Identified := by
  have hcontext : e.key.context < 256 ^ 8 := h.context
  have htype : e.key.edgeType < 256 ^ 8 := h.edgeType
  have hnear := fun rest => @readEntity_append (e.key.near d) (h.near d) rest
  have hfar := fun rest => @readEntity_append (e.key.near d.flip) (h.near d.flip) rest
  have hparse : parseEdge (edgeKeyId d e.key e.id) d = .ok (e.key, e.id) ↔
      ((e.key.near d).collection ≠ 0 ∧ (e.key.near d).sequence ≠ 0) ∧
        ((e.key.near d.flip).collection ≠ 0 ∧ (e.key.near d.flip).sequence ≠ 0) ∧
        e.key.edgeType ≠ 0 := by
    simp only [parseEdge, edgeKeyId, List.append_assoc, ite_not]
    simp [hnear, hfar, readOrdered_orderedInto hcontext, readOrdered_orderedInto htype,
      readEdgeId_ordered h.id]
    cases d <;> simp [EdgeKey.near, Dir.flip]
  rw [hparse]
  constructor
  · rintro ⟨hn, hf, ht⟩
    cases d with
    | out => exact ⟨hn, ht, hf⟩
    | into => exact ⟨hf, ht, hn⟩
  · rintro ⟨hs, ht, hd⟩
    cases d with
    | out => exact ⟨hs, hd, ht⟩
    | into => exact ⟨hd, hs, ht⟩

/-! ## Prefixes -/

/-- What a prefix names. -/
def Names (d : Dir) (entity : EntityId) (context edgeType : Option ℕ) (k : EdgeKey) : Prop :=
  k.near d = entity ∧ ∀ c ∈ context, k.context = c ∧ ∀ t ∈ edgeType, k.edgeType = t

lemma entityParts_append_begins {x y : EntityId} {s t : List ℕ} :
    entityParts x ++ s <+: entityParts y ++ t ↔ y = x ∧ s <+: t := by
  cases x
  cases y
  simp [entityParts, List.cons_prefix_cons, and_assoc, eq_comm]

lemma key_ext {k l : EdgeKey} : k = l ↔
    k.near d = l.near d ∧ k.context = l.context ∧ k.edgeType = l.edgeType ∧
      k.near d.flip = l.near d.flip := by
  obtain ⟨a, b, c, g⟩ := k
  obtain ⟨a', b', c', g'⟩ := l
  cases d
  · simp [EdgeKey.near, Dir.flip]
  · simp [EdgeKey.near, Dir.flip]
    tauto

/-- **A prefix is one of the keys of the edges it names.** -/
lemma edgePrefix_prefix_iff (hentity : InWords entity) (hcontext : ∀ c ∈ context, c < 2 ^ 64)
    (htype : ∀ t ∈ edgeType, t < 2 ^ 64) (hf : f.InWords) :
    edgePrefix d entity context edgeType <+: edgeKeyId d f.key f.id ↔
      Names d entity context edgeType f.key := by
  have hparts : ∀ x ∈ prefixParts entity context edgeType, x < 256 ^ 8 := by
    intro x hx
    rw [prefixParts, List.mem_append] at hx
    rcases hx with hx | hx
    · exact hentity.parts x hx
    · cases context with
      | none => cases hx
      | some c =>
          rcases List.mem_cons.mp hx with rfl | hx
          · exact hcontext _ rfl
          · exact htype x (Option.mem_toList.mp hx)
  rw [edgePrefix_eq, edgeKeyId_eq, List.cons_prefix_cons, and_iff_right rfl,
    partCode_orderedInto.parts_prefix_iff hparts hf.parts, prefixParts, EdgeId.parts, List.append_assoc,
    List.append_assoc, entityParts_append_begins, Names]
  cases context with
  | none => simp
  | some c => cases edgeType <;> simp [List.cons_prefix_cons, eq_comm]

/-- **The key of a tuple is a prefix of the keys of its edges.** -/
lemma edgeKey_prefix_iff (he : e.InWords) (hf : f.InWords) :
    edgeKey d e.key <+: edgeKeyId d f.key f.id ↔ f.key = e.key := by
  have hzero : (⟨e.key, 0⟩ : EdgeId).InWords := ⟨he.source, he.context, he.edgeType, he.destination, by simp⟩
  have hkey := @edgeKeyId_eq d ⟨e.key, 0⟩
  rw [edgeKey, hkey, edgeKeyId_eq, List.cons_prefix_cons, and_iff_right rfl,
    partCode_orderedInto.parts_prefix_iff hzero.parts hf.parts, EdgeId.parts, EdgeId.parts]
  simp only [ne_eq, not_true_eq_false, if_false, List.append_nil, List.append_assoc]
  rw [entityParts_append_begins]
  simp only [List.cons_append, List.nil_append, List.cons_prefix_cons]
  rw [← List.append_nil (entityParts (e.key.near d.flip)), entityParts_append_begins, @key_ext d]
  simp [eq_comm]

/-! ## Order -/

/-- The order of the keys of a direction: the near end, the context, the type, the far end, the id. -/
def EdgeId.rankBy (d : Dir) (e : EdgeId) : EntityId ×ₗ ℕ ×ₗ ℕ ×ₗ EntityId ×ₗ ℕ :=
  toLex (e.key.near d, toLex (e.key.context, toLex (e.key.edgeType, toLex (e.key.near d.flip, e.id))))

lemma EdgeId.rankBy_injective : Function.Injective (EdgeId.rankBy d) := by
  intro e f h
  simp only [EdgeId.rankBy, EmbeddingLike.apply_eq_iff_eq, Prod.mk.injEq] at h
  obtain ⟨hnear, hcontext, htype, hfar, hid⟩ := h
  have hkey : e.key = f.key := key_ext.mpr ⟨hnear, hcontext, htype, hfar⟩
  cases e
  cases f
  simp_all

lemma entityParts_append_lt {x y : EntityId} {s t : List ℕ} :
    entityParts x ++ s < entityParts y ++ t ↔ x < y ∨ x = y ∧ s < t := by
  have hlt : x < y ↔ entityRank x < entityRank y := Iff.rfl
  obtain ⟨a, b⟩ := x
  obtain ⟨a', b'⟩ := y
  rw [hlt, entityRank, entityRank, Prod.Lex.toLex_lt_toLex]
  simp only [entityParts, List.cons_append, List.nil_append, List.cons_lt_cons_iff,
    Collections.EntityId.mk.injEq]
  tauto

lemma idParts_lt {i j : ℕ} :
    (if i ≠ 0 then [i] else []) < (if j ≠ 0 then [j] else []) ↔ i < j := by
  by_cases hi : i = 0 <;> by_cases hj : j = 0
  · simp [hi, hj]
  · simp [hi, hj, Nat.pos_of_ne_zero]
  · simp [hi, hj]
  · simp [hi, hj, List.cons_lt_cons_iff]

/-- **Keys are in the order of their numbers.** -/
lemma edgeKeyId_lt_iff (he : e.InWords) (hf : f.InWords) :
    edgeKeyId d e.key e.id < edgeKeyId d f.key f.id ↔ e.rankBy d < f.rankBy d := by
  rw [edgeKeyId_eq, edgeKeyId_eq, List.cons_lt_cons_iff, or_iff_right (lt_irrefl _), and_iff_right rfl,
    partCode_orderedInto.parts_lt_iff he.parts hf.parts, EdgeId.parts, EdgeId.parts]
  simp only [List.append_assoc, entityParts_append_lt, List.cons_append, List.nil_append,
    List.cons_lt_cons_iff, idParts_lt, EdgeId.rankBy, Prod.Lex.toLex_lt_toLex]

/-- **Edges of one key are one.** -/
lemma edgeKeyId_injective (he : e.InWords) (hf : f.InWords)
    (h : edgeKeyId d e.key e.id = edgeKeyId d f.key f.id) : e = f := by
  rcases lt_trichotomy (e.rankBy d) (f.rankBy d) with hlt | heq | hlt
  · exact absurd h ((edgeKeyId_lt_iff he hf).mpr hlt).ne
  · exact EdgeId.rankBy_injective heq
  · exact absurd h ((edgeKeyId_lt_iff hf he).mpr hlt).ne'

/-! ## Seeking past a run -/

/-- The numbers of a key against those of the place a scan seeks. -/
lemma le_edgeKeyId_iff {target : Bytes} {parts : List ℕ} (htarget : target =
    d.tag :: parts.flatMap orderedInto) (hparts : ∀ x ∈ parts, x < 256 ^ 8) (hf : f.InWords) :
    target ≤ edgeKeyId d f.key f.id ↔ ¬ f.parts d < parts := by
  rw [← not_lt, htarget, edgeKeyId_eq, List.cons_lt_cons_iff, or_iff_right (lt_irrefl _),
    and_iff_right rfl, partCode_orderedInto.parts_lt_iff hf.parts hparts]

/-- **The place after a run of one context**: the keys from there on are those of a greater near end
or of the same end in a greater context. -/
lemma seek_context (he : e.InWords) (hf : f.InWords) (hnext : e.key.context + 1 < 2 ^ 64) :
    edgePrefix d (e.key.near d) (some (e.key.context + 1)) none ≤ edgeKeyId d f.key f.id ↔
      toLex (e.key.near d, e.key.context) < toLex (f.key.near d, f.key.context) := by
  have hparts : ∀ x ∈ prefixParts (e.key.near d) (some (e.key.context + 1)) none, x < 256 ^ 8 := by
    intro x hx
    rcases List.mem_append.mp hx with hx | hx
    · exact (he.near d).parts x hx
    · rw [List.mem_singleton.mp hx]
      exact hnext
  refine (le_edgeKeyId_iff edgePrefix_eq hparts hf).trans ((not_congr ?_).trans not_le)
  rw [prefixParts, EdgeId.parts, List.append_assoc, List.append_assoc, entityParts_append_lt, Prod.Lex.toLex_le_toLex]
  simp only [Option.elim_some, Option.toList_none, List.cons_append, List.cons_lt_cons_iff,
    List.not_lt_nil, and_false, or_false, Nat.lt_succ_iff]

/-- **The place after a run of one destination collection.** -/
lemma seek_collection (he : e.InWords) (hf : f.InWords) :
    edgePrefix .out e.key.source (some e.key.context) (some e.key.edgeType) ++
        orderedInto (e.key.destination.collection + 1) ≤ edgeKeyId .out f.key f.id ↔
      toLex (e.key.source, toLex (e.key.context, toLex (e.key.edgeType,
          e.key.destination.collection))) <
        toLex (f.key.source, toLex (f.key.context, toLex (f.key.edgeType,
          f.key.destination.collection))) := by
  set parts := prefixParts e.key.source (some e.key.context) (some e.key.edgeType) ++
    [e.key.destination.collection + 1] with hset
  have htarget : edgePrefix .out e.key.source (some e.key.context) (some e.key.edgeType) ++
      orderedInto (e.key.destination.collection + 1) = Dir.out.tag :: parts.flatMap orderedInto := by
    rw [edgePrefix_eq, hset, List.flatMap_append, List.cons_append, List.flatMap_singleton]
  have hparts : ∀ x ∈ parts, x < 256 ^ 8 := by
    intro x hx
    rcases List.mem_append.mp hx with hx | hx
    · rcases List.mem_append.mp hx with hx | hx
      · exact he.source.parts x hx
      · rcases List.mem_pair.mp hx with rfl | rfl
        · exact he.context
        · exact he.edgeType
    · rw [List.mem_singleton.mp hx]
      exact (Nat.succ_le_of_lt he.destination.1).trans_lt (by norm_num)
  refine (le_edgeKeyId_iff htarget hparts hf).trans ((not_congr ?_).trans not_le)
  rw [hset, prefixParts, EdgeId.parts, List.append_assoc, List.append_assoc, List.append_assoc, entityParts_append_lt]
  simp only [Option.elim_some, Option.toList_some, List.cons_append, List.nil_append,
    List.cons_lt_cons_iff, entityParts, EdgeKey.near, Dir.flip, List.not_lt_nil, and_false, or_false,
    Nat.lt_succ_iff, Prod.Lex.toLex_le_toLex]

/-- **Edge keys are read back, group exactly and are in order.**  For any two edges, in either
direction: a key whose rows and type have numbers is read back, and one without is refused; distinct
edges have distinct keys; a tuple's key is a prefix of the keys of its own edges only, and a prefix of
those it names only; the order of the keys is that of the near end, the context, the type, the far end
and the id; and a scan that seeks past a run skips that run and nothing after it. -/
theorem edge_keys (d : Dir) (e f : EdgeId) (he : e.InWords) (hf : f.InWords) :
    (parseEdge (edgeKeyId d e.key e.id) d = .ok (e.key, e.id) ↔ e.key.Identified) ∧
      (edgeKeyId d e.key e.id = edgeKeyId d f.key f.id → e = f) ∧
      (edgeKey d e.key <+: edgeKeyId d f.key f.id ↔ f.key = e.key) ∧
      (∀ entity context edgeType, InWords entity → (∀ c ∈ context, c < 2 ^ 64) →
        (∀ t ∈ edgeType, t < 2 ^ 64) →
        (edgePrefix d entity context edgeType <+: edgeKeyId d f.key f.id ↔
          Names d entity context edgeType f.key)) ∧
      (edgeKeyId d e.key e.id < edgeKeyId d f.key f.id ↔ e.rankBy d < f.rankBy d) ∧
      (e.key.context + 1 < 2 ^ 64 →
        (edgePrefix d (e.key.near d) (some (e.key.context + 1)) none ≤ edgeKeyId d f.key f.id ↔
          toLex (e.key.near d, e.key.context) < toLex (f.key.near d, f.key.context))) ∧
      (edgePrefix .out e.key.source (some e.key.context) (some e.key.edgeType) ++
          orderedInto (e.key.destination.collection + 1) ≤ edgeKeyId .out f.key f.id ↔
        toLex (e.key.source, toLex (e.key.context, toLex (e.key.edgeType,
            e.key.destination.collection))) <
          toLex (f.key.source, toLex (f.key.context, toLex (f.key.edgeType,
            f.key.destination.collection)))) := by
  refine ⟨parseEdge_edgeKeyId he, edgeKeyId_injective he hf, edgeKey_prefix_iff he hf, ?_,
    edgeKeyId_lt_iff he hf, seek_context he hf, seek_collection he hf⟩
  intro entity context edgeType hentity hcontext htype
  exact edgePrefix_prefix_iff hentity hcontext htype hf

end Parts

/-- An edge of one row to another, with an id. -/
def sampleEdge : EdgeId := ⟨⟨⟨1, 300⟩, 0, 2, ⟨1, 7⟩⟩, 5⟩

lemma sampleEdge_inWords : sampleEdge.InWords := by
  constructor <;> norm_num [sampleEdge, InWords]

theorem edge_keys_sample :
    parseEdge (edgeKeyId .out sampleEdge.key 5) .out = .ok (sampleEdge.key, 5) :=
  (edge_keys .out sampleEdge sampleEdge sampleEdge_inWords sampleEdge_inWords).1.mpr
    ⟨by decide, by decide, by decide⟩

/-- **A key of the type 0 is refused**, whatever its ends. -/
theorem parseEdge_typeless : ¬ ∀ d (e : EdgeId), e.InWords →
    parseEdge (edgeKeyId d e.key e.id) d = .ok (e.key, e.id) := by
  intro h
  have hwords : (⟨⟨⟨1, 300⟩, 0, 0, ⟨1, 7⟩⟩, 5⟩ : EdgeId).InWords := by
    constructor <;> norm_num [InWords]
  exact ((parseEdge_edgeKeyId hwords).mp (h .out _ hwords)).edgeType rfl

end Engine.Graph
